import Menoetius.ConnHandler
import Menoetius.StreamFlush
import Mathlib.Data.List.TakeWhile

/-
This file follows the cluster configuration through the connections of the server.
-/

namespace Menoetius
open LittleEndian FileImage

/-- A configuration as a request carries it, with its length in a `uint16_t`. -/
structure ConfigText where
  bytes : List UInt8
  short : bytes.length < 2 ^ 16

/-- What becomes of `save_cluster_config_to_disk`. -/
inductive SaveOutcome where
  | openFails
  | seekFails
  /-- `write` returns less than the length. -/
  | writesPart (count : Nat)
  | truncateFails
  | saved
  deriving DecidableEq

/-- One member of the pool of connections. -/
structure Slot where
  /-- A connection was given to this member before. -/
  assigned : Bool
  hasValidConfig : Bool
  /-- The hash that the connection has registered last. -/
  registered : Option (List UInt8)

/-- What the connections share, and the pool. -/
structure ConfigServer where
  clusterConfig : List UInt8
  clusterConfigHash : List UInt8
  /-- The bytes of the file at `cluster_config_path`. -/
  file : List UInt8
  pool : List Slot

section
variable (sha1 : List UInt8 → List UInt8)

/-- The configuration is loaded before the first connection. The flags of the pool are not set yet. -/
def readClusterConfigFromDisk (file : List UInt8) (flags : List Bool) : ConfigServer :=
  { clusterConfig := cString file, clusterConfigHash := sha1 (cString file), file
    pool := flags.map fun flag => { assigned := false, hasValidConfig := flag, registered := none } }

/-- The hash changes where the save reaches its end only. -/
def saveClusterConfigToDisk (outcome : SaveOutcome) (server : ConfigServer) : ConfigServer :=
  match outcome with
  | .openFails | .seekFails => server
  | .writesPart count => { server with file := writeAt server.file 0 (server.clusterConfig.take count) }
  | .truncateFails => { server with file := writeAt server.file 0 server.clusterConfig }
  | .saved =>
      { server with file := server.clusterConfig, clusterConfigHash := sha1 server.clusterConfig }

/-- The part of `handle_conn_set_cluster_config` under the lock, where the result of the save is not looked at. -/
def setClusterConfig (text : ConfigText) (outcome : SaveOutcome) (server : ConfigServer) : ConfigServer :=
  let server := saveClusterConfigToDisk sha1 outcome { server with clusterConfig := cString text.bytes }
  { server with pool := server.pool.map fun slot => { slot with hasValidConfig := false } }

/-- The part of `handle_conn_register_client_cluster_config` under the lock. -/
def registerClientClusterConfig (index : Nat) (hash : List UInt8) (server : ConfigServer) : ConfigServer :=
  { server with
    pool := server.pool.modify index fun slot =>
      { slot with hasValidConfig := hash = server.clusterConfigHash, registered := some hash } }

/-- `conn_data_pool_handle_conn` gives a member of the pool to a new connection. -/
def connDataPoolHandleConn (index : Nat) (server : ConfigServer) : ConfigServer :=
  { server with
    pool := server.pool.modify index fun _ => { assigned := true, hasValidConfig := false, registered := none } }

/-- What the connections and the pool do with the configuration. -/
inductive ConfigStep where
  | set (text : ConfigText) (outcome : SaveOutcome)
  | register (index : Nat) (hash : List UInt8)
  | get (index : Nat)
  | handleConn (index : Nat)

def ConfigStep.apply : ConfigStep → ConfigServer → ConfigServer
  | .set text outcome, server => setClusterConfig sha1 text outcome server
  | .register index hash, server => registerClientClusterConfig index hash server
  | .get _, server => server
  | .handleConn index, server => connDataPoolHandleConn index server

/-- The steps one after the other, in any order of the connections. -/
def runConfigSteps (steps : List ConfigStep) (server : ConfigServer) : ConfigServer :=
  steps.foldl (fun server step => step.apply sha1 server) server

/-- The string that `handle_conn_get_cluster_config` writes, with its length in a `uint16_t`. -/
def ConfigServer.served (server : ConfigServer) : List UInt8 :=
  (cString server.clusterConfig).take ((cString server.clusterConfig).length % 2 ^ 16)

/-- The hash is that of the string, and a connection counts as valid where it has registered this hash last. -/
structure ConfigServer.Agrees (server : ConfigServer) : Prop where
  hash : server.clusterConfigHash = sha1 server.served
  valid : ∀ slot ∈ server.pool, slot.assigned = true → slot.hasValidConfig = true →
    slot.registered = some server.clusterConfigHash

/-- The configuration is a short string, and its hash is up to date. -/
structure ConfigServer.Sound (server : ConfigServer) : Prop where
  text : cString server.clusterConfig = server.clusterConfig
  short : server.clusterConfig.length < 2 ^ 16
  hash : server.clusterConfigHash = sha1 server.clusterConfig
  valid : ∀ slot ∈ server.pool, slot.assigned = true → slot.hasValidConfig = true →
    slot.registered = some server.clusterConfigHash

variable {sha1}

theorem cString_cString (bytes : List UInt8) : cString (cString bytes) = cString bytes := List.takeWhile_idem

theorem cString_length_le (bytes : List UInt8) : (cString bytes).length ≤ bytes.length :=
  (List.takeWhile_sublist _).length_le

theorem ConfigServer.Sound.agrees {server : ConfigServer} (sound : server.Sound sha1) : server.Agrees sha1 := by
  have served : server.served = server.clusterConfig := by
    rw [ConfigServer.served, sound.text, Nat.mod_eq_of_lt sound.short, List.take_length]
  exact ⟨by rw [served]; exact sound.hash, sound.valid⟩

/-- A save that reaches its end brings the hash up to date. -/
theorem setClusterConfig_sound (text : ConfigText) (server : ConfigServer) :
    (setClusterConfig sha1 text .saved server).Sound sha1 where
  text := cString_cString text.bytes
  short := lt_of_le_of_lt (cString_length_le text.bytes) text.short
  hash := rfl
  valid := by
    intro slot mem _ valid
    obtain ⟨old, _, rfl⟩ := List.mem_map.mp mem
    cases valid

theorem mem_modify {α : Type} {list : List α} {index : Nat} {update : α → α} {value : α}
    (mem : value ∈ list.modify index update) : value ∈ list ∨ ∃ old ∈ list, value = update old := by
  induction list generalizing index with
  | nil => cases index <;> simp at mem
  | cons head rest ih =>
      cases index with
      | zero =>
          rcases List.mem_cons.mp mem with rfl | mem
          · exact Or.inr ⟨head, List.mem_cons_self, rfl⟩
          · exact Or.inl (List.mem_cons_of_mem _ mem)
      | succ index =>
          rcases List.mem_cons.mp mem with rfl | mem
          · exact Or.inl List.mem_cons_self
          · exact (ih mem).imp (List.mem_cons_of_mem _) fun ⟨old, found, same⟩ =>
              ⟨old, List.mem_cons_of_mem _ found, same⟩

theorem registerClientClusterConfig_sound {server : ConfigServer} (sound : server.Sound sha1) (index : Nat)
    (hash : List UInt8) : (registerClientClusterConfig index hash server).Sound sha1 where
  text := sound.text
  short := sound.short
  hash := sound.hash
  valid := by
    intro slot mem assigned valid
    rcases mem_modify mem with old | ⟨old, _, rfl⟩
    · exact sound.valid slot old assigned valid
    · exact congrArg some (of_decide_eq_true valid)

theorem connDataPoolHandleConn_sound {server : ConfigServer} (sound : server.Sound sha1) (index : Nat) :
    (connDataPoolHandleConn index server).Sound sha1 where
  text := sound.text
  short := sound.short
  hash := sound.hash
  valid := by
    intro slot mem assigned valid
    rcases mem_modify mem with old | ⟨old, _, rfl⟩
    · exact sound.valid slot old assigned valid
    · cases valid

/-- A step whose save reaches its end. -/
def ConfigStep.Saves : ConfigStep → Prop
  | .set _ outcome => outcome = .saved
  | _ => True

theorem ConfigStep.apply_sound {step : ConfigStep} (saves : step.Saves) {server : ConfigServer}
    (sound : server.Sound sha1) : (step.apply sha1 server).Sound sha1 := by
  cases step with
  | set text outcome =>
      cases saves
      exact setClusterConfig_sound text server
  | register index hash => exact registerClientClusterConfig_sound sound index hash
  | get index => exact sound
  | handleConn index => exact connDataPoolHandleConn_sound sound index

theorem runConfigSteps_sound {steps : List ConfigStep} (saves : ∀ step ∈ steps, step.Saves) {server : ConfigServer}
    (sound : server.Sound sha1) : (runConfigSteps sha1 steps server).Sound sha1 := by
  induction steps generalizing server with
  | nil => exact sound
  | cons step steps ih =>
      obtain ⟨first, others⟩ := List.forall_mem_cons.mp saves
      exact ih others (ConfigStep.apply_sound first sound)

end

/-- While every save reaches its end, the hash, the string and the connections agree. -/
theorem runConfigSteps_agrees (sha1 : List UInt8 → List UInt8) (file : List UInt8)
    (short : (cString file).length < 2 ^ 16) (flags : List Bool) (steps : List ConfigStep)
    (saves : ∀ step ∈ steps, step.Saves) :
    (runConfigSteps sha1 steps (readClusterConfigFromDisk sha1 file flags)).Agrees sha1 := by
  have start : (readClusterConfigFromDisk sha1 file flags).Sound sha1 :=
    { text := cString_cString file
      short := short
      hash := rfl
      valid := by
        intro slot mem assigned
        obtain ⟨flag, _, rfl⟩ := List.mem_map.mp mem
        cases assigned }
  exact (runConfigSteps_sound saves start).agrees

/-- The digests of the empty string and of `a`. -/
def sampleSha1 (text : List UInt8) : List UInt8 :=
  if text = [] then [218, 57, 163, 238, 94, 107, 75, 13, 50, 85, 191, 239, 149, 96, 24, 144, 175, 216, 7, 9]
  else if text = [97] then [134, 247, 228, 55, 250, 165, 167, 252, 225, 93, 29, 220, 185, 234, 234, 234, 55, 118, 103, 184]
  else []

/-- A connection sets a configuration, and another one registers its hash. -/
theorem runConfigSteps_agrees_two :
    (runConfigSteps sampleSha1 [.handleConn 0, .handleConn 1, .set ⟨[97], by decide⟩ .saved,
      .register 1 (sampleSha1 [97]), .get 0] (readClusterConfigFromDisk sampleSha1 [] [true, false])).Agrees
      sampleSha1 :=
  runConfigSteps_agrees sampleSha1 [] (by decide) [true, false] _ (by
    intro step mem
    simp only [List.mem_cons, List.not_mem_nil, or_false] at mem
    rcases mem with rfl | rfl | rfl | rfl | rfl <;> trivial)

/-- After a save that cannot open its file, the new string is served with the hash of the old one. -/
theorem runConfigSteps_openFails :
    let after := runConfigSteps sampleSha1 [.handleConn 0, .set ⟨[97], by decide⟩ .openFails]
      (readClusterConfigFromDisk sampleSha1 [] [false])
    after.served = [97] ∧ after.clusterConfigHash = sampleSha1 [] ∧ ¬ after.Agrees sampleSha1 := by
  refine ⟨rfl, rfl, fun agrees => ?_⟩
  exact absurd agrees.hash (by decide)

section
variable {σ : Type}

/-- The server as one of its connections sees it. -/
def ConfigServer.seenBy (server : ConfigServer) (slot : Slot) (ss : Stream) (storage : σ) : Conn σ :=
  { ss, storage, hasValidConfig := slot.hasValidConfig, clusterConfig := some server.clusterConfig
    clusterConfigHash := server.clusterConfigHash }

/-- The handler of one connection sets the configuration as a save that reaches its end does. -/
theorem handleConnSetClusterConfig_seenBy (calls : StorageCalls σ) (server : ConfigServer) (slot : Slot) {ss read : Stream}
    (storage : σ) {text : ConfigText}
    (request : structuredStreamReadUint16PrefixedBytesInplace ss = .ok text.bytes read) :
    handleConnSetClusterConfig calls (server.seenBy slot ss storage) =
      (do onStream (structuredStreamWriteUint8 0)
          onStream structuredStreamFlush : ConnM σ Unit)
        ((setClusterConfig calls.sha1 text .saved server).seenBy { slot with hasValidConfig := false } read storage) := by
  have first : (onStream structuredStreamReadUint16PrefixedBytesInplace : ConnM σ (List UInt8))
      (server.seenBy slot ss storage) = .ok text.bytes (server.seenBy slot read storage) := onStream_ok request
  rw [handleConnSetClusterConfig, EStateM.bind_ok first, EStateM.bind_ok (EStateM.modify_apply _ _)]
  rfl

/-- The handler of one connection compares the hashes as the registration does. -/
theorem handleConnRegisterClientClusterConfig_seenBy (server : ConfigServer) (slot : Slot) {ss read : Stream}
    (storage : σ) {hash : List UInt8} (request : structuredStreamReadBytesInplace shaDigestLength ss = .ok hash read) :
    (handleConnRegisterClientClusterConfig : ConnM σ Unit) (server.seenBy slot ss storage) =
      (do let data ← get
          onStream (structuredStreamWriteUint8 (if data.hasValidConfig then 0 else clusterConfigOutOfDate))
          onStream structuredStreamFlush : ConnM σ Unit)
        (server.seenBy { slot with hasValidConfig := hash = server.clusterConfigHash } read storage) := by
  have first : (onStream (structuredStreamReadBytesInplace shaDigestLength) : ConnM σ (List UInt8))
      (server.seenBy slot ss storage) = .ok hash (server.seenBy slot read storage) := onStream_ok request
  rw [handleConnRegisterClientClusterConfig, EStateM.bind_ok first, EStateM.bind_ok (EStateM.modify_apply _ _)]
  rfl

/-- The handler writes the hash, the string and the status. -/
theorem handleConnGetClusterConfig_output (server : ConfigServer) (slot : Slot) (ss : Stream) (storage : σ)
    {after : Conn σ} (run : (handleConnGetClusterConfig : ConnM σ Unit) (server.seenBy slot ss storage) = .ok () after) :
    after.ss.output = ss.output ++ (server.clusterConfigHash ++
      (bytesOf 2 ((cString server.clusterConfig).length % 2 ^ 16) ++ server.served) ++ bytesOf 1 0) := by
  rw [handleConnGetClusterConfig, EStateM.bind_ok (EStateM.get_apply _)] at run
  obtain ⟨_, _, first, run⟩ := EStateM.of_bind_ok run
  obtain ⟨one, wrote, rfl⟩ := of_onStream_ok first
  obtain ⟨_, _, second, run⟩ := EStateM.of_bind_ok run
  obtain ⟨two, wroteText, rfl⟩ := of_onStream_ok second
  obtain ⟨_, _, third, run⟩ := EStateM.of_bind_ok run
  obtain ⟨three, wroteStatus, rfl⟩ := of_onStream_ok third
  obtain ⟨four, flushed, rfl⟩ := of_onStream_ok run
  have hashed : one.output = ss.output ++ server.clusterConfigHash := structuredStreamWriteBytes_output wrote
  have texted : two.output = one.output ++ (bytesOf 2 ((cString server.clusterConfig).length % 2 ^ 16) ++ server.served) :=
    structuredStreamWriteUint16PrefixedBytes_output wroteText
  have status : three.output = two.output ++ bytesOf 1 0 := structuredStreamWriteBytes_output wroteStatus
  have last : four.output = three.output := by
    cases flushed
    exact List.append_nil _
  change four.output = _
  rw [last, status, texted, hashed]
  simp only [List.append_assoc]

end

end Menoetius
