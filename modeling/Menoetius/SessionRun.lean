import Menoetius.SessionQuery

/-
This file follows a client through all calls that it makes over its connections.
-/

namespace Menoetius
open EStateM LittleEndian HasStream

/-- A call of a client. -/
inductive SessionCall where
  | sendSync (key : List UInt8) (points : List Point)
  | send (key : List UInt8) (points : List Point)
  | flush
  | get (key : List UInt8) (maxNumPts : Nat)
  | query (matchers : List (List UInt8 × List UInt8)) (allowFullScan : Bool) (maxResults : Nat)
  | getStatus
  | getConfig (maxConfigSize : Nat)
  | setConfig (clusterConfig : List UInt8)

/-- What a client does for a call. Only its effect on the connection matters here. -/
def SessionCall.run {σ : Type} (server : Server σ) (now : Int) : SessionCall → SystemM σ Unit
  | .sendSync key points => do let _ ← menoetiusClientSendSync server now key points
  | .send key points => do let _ ← menoetiusClientSend server now key points
  | .flush => do let _ ← menoetiusClientFlush server now
  | .get key maxNumPts => do let _ ← menoetiusClientGet server now key maxNumPts
  | .query matchers allowFullScan maxResults => do
      let _ ← menoetiusClientQuery server now matchers allowFullScan maxResults
  | .getStatus => do let _ ← menoetiusClientGetStatus server now
  | .getConfig maxConfigSize => do let _ ← menoetiusClientGetConfig server now maxConfigSize
  | .setConfig clusterConfig => menoetiusClientSetConfig server now clusterConfig

/-- The keys fit their buffers, and the counts fit their fields. -/
def SessionCall.Valid : SessionCall → Prop
  | .sendSync key points => ValidKey key ∧ points.length < 2 ^ 32
  | .send key _ => ValidKey key
  | .get key _ => ValidKey key
  | .query matchers _ _ => matchers.length < 256
  | _ => True

/-- The call returns before it has read its whole response, and keeps the connection. -/
def SessionCall.Leaves {σ : Type} (server : Server σ) (sys : System σ) : SessionCall → Prop
  | .query matchers allowFullScan maxResults =>
      MatchersFit matchers ∧
        Overruns maxResults (sentKeys server.calls sys.conn (clientRequest matchers allowFullScan))
  | .getConfig _ => sys.sentConfig.length + 2 ≤ clientBufSize
  | _ => False

/-- The call returns, with a value or with a code. -/
def Returns {σ : Type} (action : SystemM σ Unit) (sys after : System σ) : Prop :=
  action sys = .ok () after ∨ ∃ err, action sys = .error (.code err) after

section
variable {σ : Type} {server : Server σ} {now : Int} {invariant : σ → Prop}

theorem writeStep_keeps {α : Type} (hosts : Hosts server.calls invariant) (action : StreamM α) :
    KeepsSystem invariant (orShutdown server now (onStream action)) :=
  orShutdown_keeps hosts now (keepsSystem_onStream action)

theorem readResponse_keeps : KeepsSystem invariant (readResponse : SystemM σ Nat) :=
  (keepsSystem_onStream _).bind fun _ => relates_pure _

theorem menoetiusClientSendSync_keeps (hosts : Hosts server.calls invariant) (key : List UInt8) (points : List Point) :
    KeepsSystem invariant (menoetiusClientSendSync server now key points) := by
  rw [menoetiusClientSendSync_eq]
  refine clientCall_keeps hosts now ?_ readResponse_keeps
  refine (writeStep_keeps hosts _).bind fun _ => (writeStep_keeps hosts _).bind fun _ => ?_
  exact (writeStep_keeps hosts _).bind fun _ => (keepsSystem_onStream _).bind fun _ => keepsSystem_onStream _

theorem menoetiusClientFlush_keeps (hosts : Hosts server.calls invariant) :
    KeepsSystem invariant (menoetiusClientFlush server now) := by
  unfold menoetiusClientFlush
  refine (menoetiusClientEnsureConnected_keeps hosts now).bind fun _ => (writeStep_keeps hosts _).bind fun _ => ?_
  refine relates_get.bind fun sys => (writeStep_keeps hosts _).bind fun _ => (keepsSystem_onStream _).bind fun _ => ?_
  refine (writeStep_keeps hosts _).bind fun _ => (awaitServer_keeps hosts now).bind fun _ => ?_
  refine readResponse_keeps.bind fun response => ?_
  have cleared : KeepsSystem invariant (modify fun sys : System σ =>
      { sys with client := { sys.client with queuedMetrics := [], numQueuedMetrics := 0 } }) :=
    relates_modify fun sys => ⟨rfl, rfl, fun _ => ⟨[], rfl, fun _ mem => absurd mem List.not_mem_nil⟩, Std.Refl.refl _⟩
  exact relates_ite (cleared.bind fun _ => relates_pure _) ((relates_pure _).bind fun _ => relates_pure _)

/-- The points are in the queue. -/
def System.withQueued (sys : System σ) (key : List UInt8) (points : List Point) : System σ :=
  let bytes := putEntry key points
  let client := menoetiusClientGrowQueuedMetrics bytes.length sys.client
  { sys with
    client := { client with
      queuedMetrics := client.queuedMetrics ++ bytes, numQueuedMetrics := client.numQueuedMetrics + 1 } }

/-- The points are queued, and the queue is flushed at its limit. -/
theorem menoetiusClientSend_ends {sys : System σ} {key : List UInt8} {points : List Point}
    {post : Nat → System σ → Prop} {stop : Failure → System σ → Prop} (stops : ∀ site, stop (.abort site) sys)
    (queues : post 0 (sys.withQueued key points))
    (flushes : (menoetiusClientFlush server now).Ends (sys.withQueued key points) post stop) :
    (menoetiusClientSend server now key points).Ends sys post stop := by
  have entry : bytesOf 2 key.length ++ key ++ bytesOf 4 points.length ++ points.flatMap pointBytes =
      putEntry key points := by
    simp only [putEntry, prefixed, pointsBytes, List.append_assoc]
  unfold menoetiusClientSend
  rw [entry]
  refine ends_bind_ok (get_apply sys) ?_
  by_cases fits : sys.client.queuedMetrics.length + (putEntry key points).length < 2 ^ 31
  · rw [require_bind fits]
    refine ends_bind_ok (set_apply (sys.withQueued key points) sys) ?_
    split
    · exact flushes
    · exact ends_of_ok (pure_apply 0 _) queues
  · have stopped : (require (sys.client.queuedMetrics.length + (putEntry key points).length < 2 ^ 31) .memory :
        SystemM σ Unit) sys = .error (.abort .memory) sys := by
      rw [require, if_neg fits]
      rfl
    exact ends_of_error (bind_error stopped _) (stops _)

/-- A queue with one more valid key is valid. -/
theorem withQueued_keeps {sys : System σ} {key : List UInt8} (valid : ValidKey key) (points : List Point) :
    sys.Keeps invariant (sys.withQueued key points) := by
  refine ⟨rfl, rfl, ?_, Std.Refl.refl sys.conn⟩
  rintro ⟨batch, queue, keys⟩
  refine ⟨batch ++ [(key, points)], ?_, fun entry mem => ?_⟩
  · change sys.client.queuedMetrics ++ putEntry key points = queueBytes (batch ++ [(key, points)])
    rw [queue, queueBytes, queueBytes, List.flatMap_append, List.flatMap_singleton]
  · rcases List.mem_append.mp mem with old | new
    · exact keys entry old
    · rw [List.mem_singleton.mp new]
      exact valid

theorem menoetiusClientSend_keeps (hosts : Hosts server.calls invariant) {key : List UInt8} (valid : ValidKey key)
    (points : List Point) : KeepsSystem invariant (menoetiusClientSend server now key points) := fun sys => by
  have queued : sys.Keeps invariant (sys.withQueued key points) := withQueued_keeps valid points
  refine menoetiusClientSend_ends (fun _ code => False.elim code) queued
    ((menoetiusClientFlush_keeps hosts _).mono ?_ ?_)
  · exact fun _ _ later => IsTrans.trans _ _ _ queued later
  · exact fun _ _ later code => IsTrans.trans _ _ _ queued (later code)

theorem menoetiusClientGet_keeps (hosts : Hosts server.calls invariant) (key : List UInt8) (maxNumPts : Nat) :
    KeepsSystem invariant (menoetiusClientGet server now key maxNumPts) := by
  rw [menoetiusClientGet_eq]
  refine clientCall_keeps hosts now ?_ (orShutdown_keeps hosts now ?_)
  · exact (writeStep_keeps hosts _).bind fun _ => (writeStep_keeps hosts _).bind fun _ => writeStep_keeps hosts _
  · refine (keepsSystem_onStream _).bind fun numPtsServer => relates_ite (relates_throw _) ?_
    exact (keepsSystem_onStream _).bind fun _ => readResponse_keeps.bind fun _ => relates_pure _

theorem readResults_keeps (hosts : Hosts server.calls invariant) (maxResults rounds : Nat) :
    ∀ results, KeepsSystem invariant (readResults server now maxResults rounds results) := by
  induction rounds with
  | zero => exact fun _ => relates_pure _
  | succ rounds ih =>
      intro results
      refine (writeStep_keeps hosts _).bind fun rawLfm => relates_ite (relates_pure _) ?_
      exact relates_ite (relates_throw _) (relates_ite (relates_throw _) (ih _))

theorem menoetiusClientQuery_keeps (hosts : Hosts server.calls invariant) (matchers : List (List UInt8 × List UInt8))
    (allowFullScan : Bool) (maxResults : Nat) :
    KeepsSystem invariant (menoetiusClientQuery server now matchers allowFullScan maxResults) := by
  rw [menoetiusClientQuery_eq]
  refine clientCall_keeps hosts now ?_ ?_
  · refine (writeStep_keeps hosts _).bind fun _ => (writeStep_keeps hosts _).bind fun _ => ?_
    refine (writeStep_keeps hosts _).bind fun _ => (writeStep_keeps hosts _).bind fun _ => ?_
    exact (writeStep_keeps hosts _).bind fun _ => writeStep_keeps hosts _
  · refine relates_get.bind fun sys => (readResults_keeps hosts _ _ _).bind fun _ => (writeStep_keeps hosts _).bind fun _ => ?_
    exact (orShutdown_keeps hosts now readResponse_keeps).bind fun _ => relates_pure _

theorem menoetiusClientGetConfig_keeps (hosts : Hosts server.calls invariant) (maxConfigSize : Nat) :
    KeepsSystem invariant (menoetiusClientGetConfig server now maxConfigSize) := by
  rw [menoetiusClientGetConfig_eq]
  refine clientCall_keeps hosts now (writeStep_keeps hosts _) ?_
  exact (writeStep_keeps hosts _).bind fun _ => (writeStep_keeps hosts _).bind fun _ =>
    relates_ite (relates_throw _) (relates_pure _)

theorem menoetiusClientSetConfig_keeps (hosts : Hosts server.calls invariant) (clusterConfig : List UInt8) :
    KeepsSystem invariant (menoetiusClientSetConfig server now clusterConfig) := by
  rw [menoetiusClientSetConfig_eq]
  refine clientCall_keeps hosts now ?_ (orShutdown_keeps hosts now ?_)
  · exact (writeStep_keeps hosts _).bind fun _ => writeStep_keeps hosts _
  · exact (keepsSystem_onStream _).bind fun _ => relates_ite (relates_throw _) (relates_pure _)

/-- Every call keeps the sizes, the queue and the data of the server. -/
theorem SessionCall.run_keeps (hosts : Hosts server.calls invariant) {call : SessionCall} (valid : call.Valid) :
    KeepsSystem invariant (call.run server now) := by
  cases call with
  | sendSync key points => exact (menoetiusClientSendSync_keeps hosts key points).bind fun _ => relates_pure _
  | send key points => exact (menoetiusClientSend_keeps hosts valid points).bind fun _ => relates_pure _
  | flush => exact (menoetiusClientFlush_keeps hosts).bind fun _ => relates_pure _
  | get key maxNumPts => exact (menoetiusClientGet_keeps hosts key maxNumPts).bind fun _ => relates_pure _
  | query matchers allowFullScan maxResults =>
      exact (menoetiusClientQuery_keeps hosts matchers allowFullScan maxResults).bind fun _ => relates_pure _
  | getStatus =>
      have status : KeepsSystem invariant (menoetiusClientGetStatus server now) :=
        clientCall_keeps hosts now (writeStep_keeps hosts _) (writeStep_keeps hosts _)
      exact status.bind fun _ => relates_pure _
  | getConfig maxConfigSize =>
      exact (menoetiusClientGetConfig_keeps hosts maxConfigSize).bind fun _ => relates_pure _
  | setConfig clusterConfig => exact menoetiusClientSetConfig_keeps hosts clusterConfig

end

/-- What holds between the calls of a client, whether or not a response was read to its end. -/
structure System.InSession {σ : Type} (invariant : σ → Prop) (sys : System σ) : Prop where
  sized : sys.Sized
  readBufSize : sys.client.readBufSize = clientBufSize
  writeBufSize : sys.client.writeBufSize = clientBufSize
  queue : sys.QueueValid
  sound : sys.conn.Sound invariant

section
variable {σ : Type} {server : Server σ} {now : Int} {invariant : σ → Prop} {sys after : System σ}

theorem System.Keeps.inSession (keeps : sys.Keeps invariant after) (session : sys.InSession invariant) :
    after.InSession invariant :=
  ⟨keeps.sized session.sized, keeps.readBufSize.trans session.readBufSize,
    keeps.writeBufSize.trans session.writeBufSize, keeps.queue session.queue, keeps.conn.sound session.sound⟩

theorem Returns.of_ends {action : SystemM σ Unit} {holds : System σ → Prop} (returns : Returns action sys after)
    (ends : action.Ends sys (fun _ after => holds after) fun failure after => failure.IsCode → holds after) :
    holds after := by
  rcases returns with run | ⟨err, run⟩
  · exact ends.of_ok run
  · exact ends.of_error run trivial

theorem FramedUnless.forget {α : Type} {action : SystemM σ α} {leaves : Prop} (framed : FramedUnless leaves action sys) :
    FramedUnless leaves (do let _ ← action) sys :=
  framed.bind fun _ _ holds => ends_of_ok (pure_apply _ _) holds

theorem withQueued_idle (idle : sys.Idle) (key : List UInt8) (points : List Point) :
    (sys.withQueued key points).Idle := by
  refine ⟨⟨idle.sized.read, idle.sized.write, idle.sized.serverRead, idle.sized.serverWrite⟩, fun connected => ?_⟩
  have answered := idle.answered connected
  exact ⟨⟨⟨answered.sized.read, answered.sized.write, answered.sized.serverRead, answered.sized.serverWrite⟩, connected,
    answered.open', answered.client, answered.server, answered.read, answered.write, answered.served, answered.replied⟩,
    answered.greeted, answered.answered, answered.sent⟩

/-- A call leaves a framed connection, unless it leaves a part of its response. -/
theorem SessionCall.run_framed (hosts : Hosts server.calls invariant) (session : sys.InSession invariant)
    (idle : sys.Idle) {call : SessionCall} (valid : call.Valid) :
    FramedUnless (call.Leaves server sys) (call.run server now) sys := by
  cases call with
  | sendSync key points => exact ((menoetiusClientSendSync_framed idle valid.1 valid.2).unless id).forget
  | send key points =>
      have queued : (sys.withQueued key points).Idle := withQueued_idle idle key points
      have keeps : sys.Keeps invariant (sys.withQueued key points) := withQueued_keeps valid points
      have framed : LeavesFramed (menoetiusClientSend server now key points) sys :=
        menoetiusClientSend_ends (fun _ code => False.elim code) queued.answered
          (menoetiusClientFlush_framed queued session.writeBufSize (keeps.queue session.queue))
      exact (framed.unless id).forget
  | flush => exact ((menoetiusClientFlush_framed idle session.writeBufSize session.queue).unless id).forget
  | get key maxNumPts => exact ((menoetiusClientGet_framed hosts.bounded idle valid maxNumPts).unless id).forget
  | query matchers allowFullScan maxResults =>
      exact (menoetiusClientQuery_framed hosts idle session.sound session.readBufSize session.writeBufSize valid).forget
  | getStatus => exact ((menoetiusClientGetStatus_framed idle).unless id).forget
  | getConfig maxConfigSize =>
      exact (menoetiusClientGetConfig_framed idle session.sound session.readBufSize maxConfigSize).forget
  | setConfig clusterConfig => exact (menoetiusClientSetConfig_framed idle session.writeBufSize clusterConfig).unless id

/-- The calls that a client makes, each with the state in which it starts. Between the calls other connections and the
cleaner change the data of the server. -/
inductive SessionRun (server : Server σ) (invariant : σ → Prop) (start : System σ) :
    List (System σ × SessionCall) → System σ → Prop
  | start : SessionRun server invariant start [] start
  | call {calls : List (System σ × SessionCall)} {sys after : System σ}
      (earlier : SessionRun server invariant start calls sys) (now : Int) (call : SessionCall) (valid : call.Valid)
      (returns : Returns (call.run server now) sys after) :
      SessionRun server invariant start (calls ++ [(sys, call)]) after
  | others {calls : List (System σ × SessionCall)} {sys : System σ}
      (earlier : SessionRun server invariant start calls sys) (data : Conn σ) (same : data.ss = sys.conn.ss)
      (sound : data.Sound invariant) : SessionRun server invariant start calls { sys with conn := data }

theorem SessionRun.inSession (hosts : Hosts server.calls invariant) {start : System σ} (session : start.InSession invariant)
    {calls : List (System σ × SessionCall)} (run : SessionRun server invariant start calls sys) :
    sys.InSession invariant := by
  induction run with
  | start => exact session
  | call earlier now call valid returns ih =>
      exact (returns.of_ends (call.run_keeps hosts valid _)).inSession ih
  | others earlier data same sound ih =>
      exact ⟨⟨ih.sized.read, ih.sized.write, same ▸ ih.sized.serverRead, same ▸ ih.sized.serverWrite⟩, ih.readBufSize,
        ih.writeBufSize, ih.queue, sound⟩

theorem System.Idle.withData (idle : sys.Idle) {data : Conn σ} (same : data.ss = sys.conn.ss) :
    ({ sys with conn := data } : System σ).Idle := by
  have sized : ({ sys with conn := data } : System σ).Sized :=
    ⟨idle.sized.read, idle.sized.write, same ▸ idle.sized.serverRead, same ▸ idle.sized.serverWrite⟩
  refine ⟨sized, fun connected => ?_⟩
  have answered := idle.answered connected
  exact ⟨⟨sized, connected, answered.open', answered.client, same ▸ answered.server, answered.read, answered.write,
    same ▸ answered.served, same ▸ answered.replied⟩, answered.greeted, answered.answered, answered.sent⟩

/-- Other data of the server leaves the connection as it is. -/
theorem idle_withData {data : Conn σ} (same : data.ss = sys.conn.ss) :
    ({ sys with conn := data } : System σ).Idle ↔ sys.Idle :=
  ⟨fun idle => @System.Idle.withData σ { sys with conn := data } idle sys.conn same.symm, fun idle => idle.withData same⟩

/-- All calls of a session find both ends of their connection idle, exactly when none of them returns before it has read
its whole response. -/
theorem SessionRun.idle_iff (hosts : Hosts server.calls invariant) {start : System σ} (session : start.InSession invariant)
    (idle : start.Idle) {calls : List (System σ × SessionCall)} (run : SessionRun server invariant start calls sys) :
    ((∀ entry ∈ calls, entry.1.Idle) ∧ sys.Idle) ↔ ∀ entry ∈ calls, ¬ entry.2.Leaves server entry.1 := by
  induction run with
  | start => exact iff_of_true ⟨fun _ mem => absurd mem List.not_mem_nil, idle⟩ fun _ mem => absurd mem List.not_mem_nil
  | @call calls sys after earlier now call valid returns ih =>
      have before := earlier.inSession hosts session
      have keeps := (returns.of_ends (call.run_keeps hosts valid sys)).inSession before
      have idleAfter : sys.Idle → (after.Idle ↔ ¬ call.Leaves server sys) := by
        intro still
        have framed : after.Framed ↔ ¬ call.Leaves server sys :=
          @Returns.of_ends σ sys after _ (fun after => after.Framed ↔ ¬ call.Leaves server sys) returns
            (call.run_framed hosts before still valid)
        rw [← framed]
        exact ⟨fun idle => idle.answered, fun framed => ⟨keeps.sized, framed⟩⟩
      rw [List.forall_mem_append, List.forall_mem_append, List.forall_mem_singleton, List.forall_mem_singleton, ← ih]
      constructor
      · rintro ⟨⟨all, still⟩, last⟩
        exact ⟨⟨all, still⟩, (idleAfter still).mp last⟩
      · rintro ⟨⟨all, still⟩, never⟩
        exact ⟨⟨all, still⟩, (idleAfter still).mpr never⟩
  | others earlier data same sound ih => rw [← ih, idle_withData same]

end

end Menoetius
