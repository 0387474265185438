import Menoetius.ClientFlush
import Menoetius.ConnFrame

/-
This file shows what the calls of a client keep, however they end.
-/

namespace Menoetius
open EStateM HasStream

namespace System

variable {σ : Type}

/-- The queue holds requests with valid keys. -/
def QueueValid (sys : System σ) : Prop :=
  ∃ batch, sys.client.queuedMetrics = queueBytes batch ∧ ∀ entry ∈ batch, ValidKey entry.1

/-- The sizes of all buffers stay, and what is sound stays so. -/
structure Keeps (invariant : σ → Prop) (sys after : System σ) : Prop where
  readBufSize : after.client.readBufSize = sys.client.readBufSize
  writeBufSize : after.client.writeBufSize = sys.client.writeBufSize
  queue : sys.QueueValid → after.QueueValid
  conn : sys.conn.Keeps invariant after.conn

instance (invariant : σ → Prop) : IsPreorder (System σ) (Keeps invariant) where
  refl := fun _ => ⟨rfl, rfl, fun valid => valid, Std.Refl.refl _⟩
  trans := fun _ _ _ first second => ⟨second.readBufSize.trans first.readBufSize,
    second.writeBufSize.trans first.writeBufSize, fun valid => second.queue (first.queue valid),
    IsTrans.trans _ _ _ first.conn second.conn⟩

theorem Keeps.sized {invariant : σ → Prop} {sys after : System σ} (keeps : sys.Keeps invariant after)
    (sized : sys.Sized) : after.Sized :=
  ⟨keeps.readBufSize ▸ sized.read, keeps.writeBufSize ▸ sized.write, keeps.conn.sizes.read ▸ sized.serverRead,
    keeps.conn.sizes.write ▸ sized.serverWrite⟩

end System

section
variable {σ α : Type} {invariant : σ → Prop}

/-- A call of a client keeps the sizes and the data of the server, unless the server stops. -/
abbrev KeepsSystem {σ α : Type} (invariant : σ → Prop) (action : SystemM σ α) : Prop :=
  action.Relates (System.Keeps invariant) Failure.IsCode

/-- Bytes on their way are not part of what is kept. -/
theorem keeps_streams {sys after : System σ} {ss server : Stream}
    (client : after.client = { sys.client with ss }) (conn : after.conn = { sys.conn with ss := server })
    (sizes : sys.conn.ss.SameSizes server) : sys.Keeps invariant after := by
  refine ⟨by rw [client], by rw [client], fun ⟨batch, queue, valid⟩ => ⟨batch, by rw [client]; exact queue, valid⟩, ?_⟩
  rw [conn]
  exact ⟨sizes, fun sound => ⟨sound.storage, sound.hash⟩⟩

theorem keepsSystem_onStream (action : StreamM α) : KeepsSystem invariant (onStream action : SystemM σ α) := by
  intro sys
  cases run : action sys.client.ss with
  | ok value ss =>
      have done : onStream action sys = .ok value (withStream sys ss) := onStream_ok run
      exact ends_of_ok done (keeps_streams rfl rfl (Std.Refl.refl _))
  | error failure ss =>
      have failed : onStream action sys = .error failure (withStream sys ss) := onStream_error run
      exact ends_of_error failed fun _ => keeps_streams rfl rfl (Std.Refl.refl _)

/-- A handler of the server keeps the rest. -/
theorem keeps_conn {sys after : System σ} {conn : Conn σ} (client : after.client = sys.client) (same : after.conn = conn)
    (kept : sys.conn.Keeps invariant conn) : sys.Keeps invariant after := by
  refine ⟨by rw [client], by rw [client], fun ⟨batch, queue, valid⟩ => ⟨batch, by rw [client]; exact queue, valid⟩, ?_⟩
  rw [same]
  exact kept

/-- A step on the connection, and what the server does after it. -/
theorem keepsSystem_step {step : ConnM σ Unit} {next : System σ → EStateM.Result Failure (System σ) Unit}
    {action : SystemM σ Unit} {sys : System σ} (keeps : KeepsConn invariant step)
    (good : ∀ conn, step sys.conn = .ok () conn → action sys = next { sys with conn, greeted := true })
    (rest : ∀ conn, step sys.conn = .ok () conn → Ends next { sys with conn, greeted := true }
      (fun _ after => System.Keeps invariant { sys with conn, greeted := true } after) fun failure after =>
        failure.IsCode → System.Keeps invariant { sys with conn, greeted := true } after)
    (bad : ∀ err conn, step sys.conn = .error (.code err) conn → action sys = .ok () { sys with conn, closed := true })
    (stops : ∀ site conn, step sys.conn = .error (.abort site) conn →
      action sys = .error (.abort site) { sys with conn }) :
    action.Ends sys (fun _ after => sys.Keeps invariant after) fun failure after =>
      failure.IsCode → sys.Keeps invariant after := by
  cases run : step sys.conn with
  | ok value conn =>
      have kept : sys.Keeps invariant { sys with conn, greeted := true } :=
        keeps_conn rfl rfl ((keeps sys.conn).of_ok run)
      refine ends_of_eq (good conn run) ((rest conn run).mono ?_ ?_)
      · exact fun _ _ later => IsTrans.trans _ _ _ kept later
      · exact fun _ _ later code => IsTrans.trans _ _ _ kept (later code)
  | error failure conn =>
      cases failure with
      | code err => exact ends_of_ok (bad err conn run) (keeps_conn rfl rfl ((keeps sys.conn).of_error run trivial))
      | abort site => exact ends_of_error (stops site conn run) fun code => False.elim code

variable {server : Server σ}

theorem connHandlerThreadRun_keeps (hosts : Hosts server.calls invariant) (now : Int) (rounds : Nat) :
    KeepsSystem invariant (connHandlerThreadRun server now rounds) := by
  induction rounds with
  | zero => exact relates_pure ()
  | succ rounds ih =>
      intro sys
      by_cases idle : sys.closed ∨ sys.conn.ss.input = []
      · have done : connHandlerThreadRun server now (rounds + 1) sys = .ok () sys := if_pos idle
        exact ends_of_ok done (Std.Refl.refl sys)
      · have keeps : KeepsConn invariant (if sys.greeted then
            handleConnRpcCode server.calls now server.gitCommit server.buildTime else handleConnRpcEntry) :=
          relates_ite ((readUint_sizes 1).conn.bind fun code => handleConnRpc_keeps hosts now _ _ code)
            handleConnRpcEntry_keeps
        have step : connHandlerThreadRun server now (rounds + 1) sys = _ := if_neg idle
        refine keepsSystem_step keeps (fun conn run => ?_) (fun conn _ => ih { sys with conn, greeted := true })
          (fun err conn run => ?_) fun site conn run => ?_
        · rw [step, run]
        · rw [step, run]
        · rw [step, run]

theorem awaitServer_keeps (hosts : Hosts server.calls invariant) (now : Int) :
    KeepsSystem invariant (awaitServer server now) := by
  unfold awaitServer
  refine Relates.bind (relates_modify fun sys => keeps_streams rfl rfl ⟨rfl, rfl⟩) fun _ => ?_
  refine relates_get.bind fun sys => (connHandlerThreadRun_keeps hosts now _).bind fun _ => ?_
  exact relates_modify fun sys => keeps_streams rfl rfl ⟨rfl, rfl⟩

theorem menoetiusClientShutdown_keeps (hosts : Hosts server.calls invariant) (now : Int) :
    KeepsSystem invariant (menoetiusClientShutdown server now) :=
  (awaitServer_keeps hosts now).bind fun _ => relates_modify fun sys =>
    ⟨rfl, rfl, fun valid => valid, Std.Refl.refl sys.conn⟩

/-- The server works without returning a code. -/
theorem connHandlerThreadRun_stops {now : Int} (rounds : Nat) {sys : System σ} :
    (connHandlerThreadRun server now rounds).Ends sys (fun _ _ => True) fun failure _ => ¬ failure.IsCode := by
  induction rounds generalizing sys with
  | zero => exact ends_of_ok (pure_apply () sys) trivial
  | succ rounds ih =>
      by_cases idle : sys.closed ∨ sys.conn.ss.input = []
      · have done : connHandlerThreadRun server now (rounds + 1) sys = .ok () sys := if_pos idle
        exact ends_of_ok done trivial
      · have step : connHandlerThreadRun server now (rounds + 1) sys = _ := if_neg idle
        cases run : (if sys.greeted then handleConnRpcCode server.calls now server.gitCommit server.buildTime
          else handleConnRpcEntry) sys.conn with
        | ok value conn =>
            rw [run] at step
            exact ends_of_eq step ih
        | error failure conn =>
            rw [run] at step
            cases failure with
            | code err => exact ends_of_ok step trivial
            | abort site => exact ends_of_error step id

theorem menoetiusClientShutdown_ends {now : Int} (sys : System σ) :
    (menoetiusClientShutdown server now).Ends sys (fun _ after => after.client.connected = false)
      fun failure _ => ¬ failure.IsCode := by
  have served : (awaitServer server now).Ends sys (fun _ _ => True) fun failure _ => ¬ failure.IsCode := by
    refine ends_bind_ok (modify_apply _ _) (ends_bind_ok (get_apply _) ?_)
    exact (connHandlerThreadRun_stops _).bind fun _ middle _ => ends_of_ok (modify_apply _ middle) trivial
  exact served.bind fun _ middle _ => ends_of_ok (modify_apply _ middle) rfl

/-- A step that fails with a code is followed by a shutdown. -/
theorem orShutdown_rule {action : SystemM σ α} {now : Int} {sys : System σ} {post : α → System σ → Prop}
    {middle : Failure → System σ → Prop} {closed : System σ → Prop} (ends : action.Ends sys post middle)
    (closes : ∀ err after, middle (.code err) after → (menoetiusClientShutdown server now).Ends after
      (fun _ final => closed final) fun failure final => failure.IsCode → closed final) :
    (orShutdown server now action).Ends sys post fun failure final => failure.IsCode → closed final := by
  cases run : action sys with
  | ok value after =>
      have done : orShutdown server now action sys = .ok value after := by rw [orShutdown, run]
      exact ends_of_ok done (ends.of_ok run)
  | error failure after =>
      cases failure with
      | code err =>
          have shutdown := closes err after (ends.of_error run)
          cases ended : menoetiusClientShutdown server now after with
          | ok value final =>
              have failed : orShutdown server now action sys = .error (.code err) final := by
                rw [orShutdown, run]
                dsimp only
                rw [ended]
              exact ends_of_error failed fun _ => shutdown.of_ok ended
          | error failure final =>
              have failed : orShutdown server now action sys = .error failure final := by
                rw [orShutdown, run]
                dsimp only
                rw [ended]
              exact ends_of_error failed (shutdown.of_error ended)
      | abort site =>
          have stopped : orShutdown server now action sys = .error (.abort site) after := by rw [orShutdown, run]
          exact ends_of_error stopped fun code => False.elim code

/-- A step that fails with a code ends the connection. -/
theorem orShutdown_ends {action : SystemM σ α} {now : Int} {sys : System σ} {post : α → System σ → Prop}
    (ends : action.Ends sys post fun _ _ => True) : (orShutdown server now action).Ends sys post fun failure after =>
      failure.IsCode → after.client.connected = false :=
  orShutdown_rule ends fun _ after _ => (menoetiusClientShutdown_ends after).mono (fun _ _ closed => closed)
    fun _ _ stopped code => absurd code stopped

theorem orShutdown_keeps (hosts : Hosts server.calls invariant) (now : Int) {action : SystemM σ α}
    (keeps : KeepsSystem invariant action) : KeepsSystem invariant (orShutdown server now action) := fun sys =>
  orShutdown_rule (keeps sys) fun _ after kept => (menoetiusClientShutdown_keeps hosts now after).mono
    (fun _ _ later => IsTrans.trans _ _ _ (kept trivial) later)
    fun _ _ later code => IsTrans.trans _ _ _ (kept trivial) (later code)

theorem menoetiusClientEnsureConnected_keeps (hosts : Hosts server.calls invariant) (now : Int) :
    KeepsSystem invariant (menoetiusClientEnsureConnected server now) := by
  refine relates_get_bind fun sys => ?_
  by_cases connected : sys.client.connected
  · rw [if_pos connected]
    exact ends_of_ok (pure_apply () sys) (Std.Refl.refl sys)
  · rw [if_neg connected]
    have started : sys.Keeps invariant { sys with
        client := { sys.client with
          connected := true
          ss := { structuredStreamInit sys.client.ss with
            readBufSize := sys.client.readBufSize, writeBufSize := sys.client.writeBufSize } }
        conn := { sys.conn with ss := structuredStreamInit sys.conn.ss, hasValidConfig := false }
        greeted := false
        closed := false } :=
      ⟨rfl, rfl, fun valid => valid, ⟨rfl, rfl⟩, fun sound => ⟨sound.storage, sound.hash⟩⟩
    refine ends_bind_ok (set_apply _ sys) ((orShutdown_keeps hosts now (keepsSystem_onStream _) _).mono ?_ ?_)
    · exact fun _ _ later => IsTrans.trans _ _ _ started later
    · exact fun _ _ later code => IsTrans.trans _ _ _ started (later code)

/-- A call keeps what its request and its response keep. -/
theorem clientCall_keeps (hosts : Hosts server.calls invariant) (now : Int) {send : SystemM σ Unit}
    {receive : SystemM σ α} (sends : KeepsSystem invariant send) (receives : KeepsSystem invariant receive) :
    KeepsSystem invariant (clientCall server now send receive) := by
  refine (menoetiusClientEnsureConnected_keeps hosts now).bind fun _ => sends.bind fun _ => ?_
  refine (orShutdown_keeps hosts now (keepsSystem_onStream _)).bind fun _ => ?_
  exact (awaitServer_keeps hosts now).bind fun _ => receives

end

end Menoetius
