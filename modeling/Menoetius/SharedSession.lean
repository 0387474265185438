import Menoetius.SessionRun
import Menoetius.SharedStorage
import Menoetius.TheStorageRefines
import Menoetius.WireGet

/-
This file shows what a client sees of a storage that other connections and the cleaner use at the same time.
-/

namespace Menoetius
open EStateM LittleEndian HasStream

section
variable {σ : Type} (server : Server σ) (now : Int) {sys : System σ} {response : List UInt8}

end

section
variable {σ : Type} (calls : StorageCalls σ) {data : Conn σ} {key : List UInt8}

/-- The part of the handler behind the answers. -/
def getStatus (errorCode : Nat) : ConnM σ Unit := do
  let data ← get
  onStream (structuredStreamWriteUint8 (statusOf data errorCode))
  onStream structuredStreamFlush

end

/-- A server whose storage other threads use. -/
def sharedServer (choose : Indexes → Nat) (indices : List CString) (retentionSeconds : Int)
    (sha1 : List UInt8 → List UInt8) (gitCommit buildTime : List UInt8) : Server Shared :=
  ⟨sharedCalls choose indices retentionSeconds sha1, gitCommit, buildTime⟩

/-- The runs of a client, which reads its responses to their ends. Between its calls and within them the storage is used
by others, who also can change the configuration. -/
inductive SharedRun (choose : Indexes → Nat) (server : Server Shared) (start : System Shared) : System Shared → Prop
  | start : SharedRun choose server start start
  | call {sys after : System Shared} (earlier : SharedRun choose server start sys) (now : Int) (call : SessionCall)
      (valid : call.Valid) (reads : ¬ call.Leaves server sys) (returns : Returns (call.run server now) sys after) :
      SharedRun choose server start after
  | others {sys : System Shared} {shared : Shared} (earlier : SharedRun choose server start sys) (calls : List OtherCall)
      (valid : ∀ call ∈ calls, call.Valid) (run : Shared.runOthers choose calls sys.conn.storage = .ok () shared)
      (plan : List (List OtherCall)) (later : ∀ calls ∈ plan, ∀ call ∈ calls, call.Valid) :
      SharedRun choose server start { sys with conn := { sys.conn with storage := { shared with others := plan } } }
  | config {sys : System Shared} (earlier : SharedRun choose server start sys) (file : List UInt8) :
      SharedRun choose server start { sys with conn := { sys.conn with
        clusterConfig := some (cString file), clusterConfigHash := server.calls.sha1 (cString file)
        hasValidConfig := false } }

section
variable {retentionSeconds : Int} {s : Nat} {choose : Indexes → Nat} {indices : List CString}
  {sha1 : List UInt8 → List UInt8} {gitCommit buildTime : List UInt8} {start sys : System Shared}

theorem System.InSession.withData {σ : Type} {invariant : σ → Prop} {sys : System σ} (session : sys.InSession invariant)
    {data : Conn σ} (same : data.ss = sys.conn.ss) (sound : data.Sound invariant) :
    ({ sys with conn := data } : System σ).InSession invariant :=
  ⟨⟨session.sized.read, session.sized.write, same ▸ session.sized.serverRead, same ▸ session.sized.serverWrite⟩,
    session.readBufSize, session.writeBufSize, session.queue, sound⟩

/-- Both ends of the connection are idle after every call, and the calls in the log explain the storage. -/
theorem SharedRun.inSession (setting : Setting s choose) (digest : ∀ text, (sha1 text).length = hashLength)
    (session : start.InSession (Shared.Since retentionSeconds s [])) (idle : start.Idle)
    (run : SharedRun choose (sharedServer choose indices retentionSeconds sha1 gitCommit buildTime) start sys) :
    sys.InSession (Shared.Since retentionSeconds s []) ∧ sys.Idle := by
  have hosts : Hosts (sharedServer choose indices retentionSeconds sha1 gitCommit buildTime).calls
      (Shared.Since retentionSeconds s []) := Shared.sharedCalls_hosts setting indices digest []
  induction run with
  | start => exact ⟨session, idle⟩
  | @call sys after _ now call valid reads returns ih =>
      obtain ⟨before, still⟩ := ih
      have keeps := (returns.of_ends (call.run_keeps hosts valid sys)).inSession before
      have framed : after.Framed ↔ ¬ call.Leaves (sharedServer choose indices retentionSeconds sha1 gitCommit buildTime) sys :=
        @Returns.of_ends Shared sys after _ (fun after => after.Framed ↔ ¬ call.Leaves _ sys) returns
          (call.run_framed hosts before still valid)
      exact ⟨keeps, keeps.sized, framed.mpr reads⟩
  | @others sys shared _ calls valid run plan later ih =>
      obtain ⟨before, still⟩ := ih
      have grows := (Shared.runOthers_turns setting calls valid sys.conn.storage before.sound.storage.2).of_ok run
      have sound : Shared.Sound retentionSeconds s { shared with others := plan } :=
        ⟨later, grows.sound.order, grows.sound.shows⟩
      exact ⟨before.withData rfl ⟨⟨List.nil_prefix, sound⟩, before.sound.hash⟩, still.withData rfl⟩
  | @config sys _ file ih =>
      obtain ⟨before, still⟩ := ih
      exact ⟨before.withData rfl ⟨before.sound.storage, digest _⟩, still.withData rfl⟩

theorem Shared.Turns.reported {written : List (List UInt8 × Point)} {action : SharedM (Option Err)}
    (turns : Shared.Turns retentionSeconds s written action) :
    Shared.Turns retentionSeconds s written (Menoetius.reported action) := by
  intro shared sound
  have ends := turns shared sound
  cases run : action shared with
  | ok value after =>
      have done : Menoetius.reported action shared = .ok value after := by rw [Menoetius.reported, run]
      exact ends_of_ok done (ends.of_ok run)
  | error failure after =>
      obtain ⟨stops, room⟩ := ends.of_error run
      cases failure with
      | code err => exact absurd trivial stops
      | abort site =>
          have failed : Menoetius.reported action shared = .error (.abort site) after := by rw [Menoetius.reported, run]
          exact ends_of_error failed ⟨stops, room⟩

end

end Menoetius
