/-
  SyncLedger/Proofs/Lifecycle.lean
  ================================
  **The phase of a server and the log of its listener tell the same story.**  A listener that is
  asked in due order has a life of episodes: it failed to start; or it came up, refused to accept
  some times, perhaps accepted in the end, and was told to shut down.  Only the last time that
  it came up may lack its shutdown.  A life (`Life`) has a log (`Life.log`), from which it can be
  read back (`Life.ofLog_log`), and a phase (`Life.phase`).

  A server whose calls come one after another makes each request of its listener when it is due
  (`Service.InStep.asked` is the step), so after any run its phase is that of the life that the log
  tells of.  A call that the phase does not allow asks nothing and changes nothing.
-/
import SyncLedger.Proofs.Failures
import SyncLedger.Server.Service

namespace SyncLedger

/-! ### The life of a listener -/

/-- Requests with how they were refused, if they were; oldest first. -/
abbrev Requests := List (Request × Option Error)

/-- A listener since it came up. -/
structure Uptime where
  /-- How it refused to accept, each time that it did. -/
  refusals : List Error := []
  /-- Whether it accepted in the end. -/
  accepted : Bool := false

/-- What is over in the life of a listener. -/
inductive Episode where
  | failed (e : Error)
  /-- It was up until it was told to shut down, which it may have refused. -/
  | ended (up : Uptime) (refusal : Option Error)

structure Life where
  past : List Episode := []
  /-- How it has been up since the last start, if it has not been told to shut down. -/
  present : Option Uptime := none

def Uptime.log (address : ServerConfig) (u : Uptime) : Requests :=
  (.start address, none) ::
    (u.refusals.map fun e => (.accept, some e)) ++ if u.accepted then [(.accept, none)] else []

def Uptime.phase (u : Uptime) : Phase := if u.accepted then .accepting else .listening

def Episode.log (address : ServerConfig) : Episode → Requests
  | .failed e => [(.start address, some e)]
  | .ended u refusal => u.log address ++ [(.shutdown, refusal)]

namespace Life

def log (address : ServerConfig) (l : Life) : Requests :=
  l.past.flatMap (·.log address) ++ (l.present.map (·.log address)).getD []

/-- Stopped if it is not up, accepting if it has accepted since, and listening otherwise. -/
def phase (l : Life) : Phase := (l.present.map Uptime.phase).getD .stopped

def note (l : Life) : Request × Option Error → Life
  | (.start _, some e) => { l with past := l.past ++ [.failed e] }
  | (.start _, none) => { l with present := some {} }
  | (.accept, some e) =>
    { l with present := l.present.map fun u => { u with refusals := u.refusals ++ [e] } }
  | (.accept, none) => { l with present := l.present.map fun u => { u with accepted := true } }
  | (.shutdown, refusal) =>
    { past := l.past ++ (l.present.map (.ended · refusal)).toList, present := none }

/-- The life that a log tells of. -/
def ofLog (log : Requests) : Life := log.foldl note {}

variable {address : ServerConfig} {past : List Episode}

theorem foldl_refusals (es : List Error) (u : Uptime) :
    (es.map fun e => (Request.accept, some e)).foldl note ⟨past, some u⟩ =
      ⟨past, some { u with refusals := u.refusals ++ es }⟩ := by
  induction es generalizing u with
  | nil => simp
  | cons e es ih =>
    rw [List.map_cons, List.foldl_cons]
    show (es.map _).foldl note ⟨past, some { u with refusals := u.refusals ++ [e] }⟩ = _
    rw [ih, List.append_assoc]
    rfl

theorem foldl_uptime (u : Uptime) : (u.log address).foldl note ⟨past, none⟩ = ⟨past, some u⟩ := by
  obtain ⟨refusals, accepted⟩ := u
  rw [Uptime.log, List.cons_append, List.foldl_cons, List.foldl_append]
  show List.foldl note ((refusals.map _).foldl note ⟨past, some {}⟩) _ = _
  rw [foldl_refusals]
  cases accepted <;> rfl

theorem foldl_episode (x : Episode) :
    (x.log address).foldl note ⟨past, none⟩ = ⟨past ++ [x], none⟩ := by
  cases x with
  | failed e => rfl
  | ended u refusal =>
    rw [Episode.log, List.foldl_append, foldl_uptime]
    rfl

theorem foldl_past (xs : List Episode) :
    (xs.flatMap (·.log address)).foldl note ⟨past, none⟩ = ⟨past ++ xs, none⟩ := by
  induction xs generalizing past with
  | nil => simp
  | cons x xs ih =>
    rw [List.flatMap_cons, List.foldl_append, foldl_episode, ih, List.append_assoc,
      List.singleton_append]

theorem ofLog_log (address : ServerConfig) (l : Life) : ofLog (l.log address) = l := by
  obtain ⟨past, present⟩ := l
  rw [ofLog, log, List.foldl_append, foldl_past, List.nil_append]
  cases present with
  | none => rfl
  | some u => exact foldl_uptime u

end Life

/-! ### Requests that are due -/

/-- A listener is started when it is not up, asked to accept when it does not, and told to shut
    down when it is up. -/
def Request.Due (address : ServerConfig) : Request → Phase → Prop
  | .start a, p => p = .stopped ∧ a = address
  | .accept, p => p = .listening
  | .shutdown, p => p = .listening ∨ p = .accepting

def Request.leadsTo : Request → Option Error → Phase
  | .start _, none => .listening
  | .start _, some _ => .stopped
  | .accept, none => .accepting
  | .accept, some _ => .listening
  | .shutdown, _ => .stopped

namespace Life

variable {l : Life} {address : ServerConfig} {r : Request}

theorem present_of_stopped (h : l.phase = .stopped) : l.present = none := by
  obtain ⟨past, present⟩ := l
  cases present with
  | none => rfl
  | some u => rcases u with ⟨es, _ | _⟩ <;> contradiction

theorem present_of_listening (h : l.phase = .listening) :
    ∃ es, l.present = some { refusals := es, accepted := false } := by
  obtain ⟨past, present⟩ := l
  cases present with
  | none => contradiction
  | some u =>
    rcases u with ⟨es, _ | _⟩
    · exact ⟨es, rfl⟩
    · contradiction

theorem present_of_up (h : l.phase = .listening ∨ l.phase = .accepting) :
    ∃ u, l.present = some u := by
  obtain ⟨past, present⟩ := l
  cases present with
  | none => rcases h with h | h <;> contradiction
  | some u => exact ⟨u, rfl⟩

/-- A request that is due makes the log of a life into that of another one. -/
theorem log_note (h : r.Due address l.phase) (refusal : Option Error) :
    (l.note (r, refusal)).log address = l.log address ++ [(r, refusal)] := by
  cases r with
  | start a =>
    obtain ⟨hphase, rfl⟩ := h
    have hnone := present_of_stopped hphase
    cases refusal with
    | none => simp [note, log, hnone, Uptime.log]
    | some e => simp [note, log, hnone, Episode.log]
  | accept =>
    obtain ⟨es, hpresent⟩ := present_of_listening h
    cases refusal with
    | none => simp [note, log, hpresent, Uptime.log]
    | some e => simp [note, log, hpresent, Uptime.log]
  | shutdown =>
    obtain ⟨u, hpresent⟩ := present_of_up h
    simp [note, log, hpresent, Episode.log]

theorem phase_note (h : r.Due address l.phase) (refusal : Option Error) :
    (l.note (r, refusal)).phase = r.leadsTo refusal := by
  cases r with
  | start a =>
    have hnone := present_of_stopped h.1
    cases refusal with
    | none => rfl
    | some e => simp [note, phase, hnone, Request.leadsTo]
  | accept =>
    obtain ⟨es, hpresent⟩ := present_of_listening h
    cases refusal with
    | none => simp [note, phase, hpresent, Uptime.phase, Request.leadsTo]
    | some e => simp [note, phase, hpresent, Uptime.phase, Request.leadsTo]
  | shutdown => rfl

theorem phase_mem (l : Life) : l.phase ∈ [Phase.stopped, .listening, .accepting] := by
  obtain ⟨past, present⟩ := l
  cases present with
  | none => exact List.mem_cons_self
  | some u => rcases u with ⟨es, _ | _⟩ <;> simp [phase, Uptime.phase]

end Life

/-! ### Calls to a server -/

inductive ServerCall where
  | start
  | listen
  | stop (now : Instant)
  | submit (o : Observation) (now : Instant)
  | setPassword (path password : String) (salt : Bytes)
  | resetPassword (path : String) (random salt : Bytes)

namespace ServerCall

def name : ServerCall → String
  | .start => "start"
  | .listen => "listen"
  | .stop _ => "stop"
  | .submit _ _ => "submit"
  | .setPassword _ _ _ => "set_password"
  | .resetPassword _ _ _ => "reset_password"

/-- Passwords are changed in every phase. -/
def AllowedIn : ServerCall → Phase → Prop
  | .start, p => p = .stopped
  | .listen, p | .stop _, p => p = .listening ∨ p = .accepting
  | .submit _ _, p => p = .accepting
  | .setPassword _ _ _, _ | .resetPassword _ _ _, _ => True

end ServerCall

/-- How a listener will answer: the error with which it refuses each request, if it does. -/
structure Mood where
  onStart : Option Error := none
  onAccept : Option Error := none
  onShutdown : Option Error := none

/-- The answer of a call that asks the listener. -/
def answerTo : Option Error → Except Error (Option Reply)
  | none => .ok none
  | some e => .error e

theorem answerTo_eq_error_iff {refusal : Option Error} {err : Error} :
    answerTo refusal = .error err ↔ refusal = some err := by
  cases refusal <;> simp [answerTo]

namespace Service

/-- A stopped server over a database, with a listener that was never asked for anything. -/
def fresh (e : Engine) (db : Database) : Service := { engine := e, database := db }

def facing (s : Service) (m : Mood) : Service :=
  let listener :=
    { s.server.listener with
      onStart := m.onStart, onAccept := m.onAccept, onShutdown := m.onShutdown }
  { s with server := { s.server with listener } }

/-- What the engine answers, whatever the server does. -/
def byEngine {α : Type} (s : Service) (op : Op α) (wrap : α → Reply) :
    Except Error (Option Reply) × Service :=
  let (answer, after) := s.perform op
  (answer.map fun v => some (wrap v), after)

def serve (s : Service) : ServerCall → Except Error (Option Reply) × Service
  | .start => let (answer, after) := s.start; (answer.map fun _ => none, after)
  | .listen => let (answer, after) := s.listen; (answer.map fun _ => none, after)
  | .stop now => let (answer, after) := s.stop now; (answer.map fun _ => none, after)
  | .submit o now =>
    let (answer, after) := s.submitAndWait o now
    (answer.map fun d => some (.decided d), after)
  | .setPassword path password salt => s.byEngine (s.engine.setPassword path password salt) .epoch
  | .resetPassword path random salt => s.byEngine (s.engine.resetPassword path random salt) .secret

/-- Serves calls one after another; before each of them the listener may change its mood. -/
def run (s : Service) : List (Mood × ServerCall) → Service
  | [] => s
  | (m, q) :: rest => ((s.facing m).serve q).2.run rest

/-- The server after it has asked its listener. -/
def asked (s : Service) (r : Request) : Service :=
  let listener := s.server.listener.note r
  { s with
    server := { s.server with phase := r.leadsTo (s.server.listener.refusal? r), listener } }

/-- The answer of the listener to a request, and the server after it. -/
def asking (s : Service) (r : Request) : Except Error (Option Reply) × Service :=
  (answerTo (s.server.listener.refusal? r), s.asked r)

/-- Nothing is in flight. -/
def Idle (s : Service) : Prop := s.waiting = [] ∧ s.server.inFlight = 0

/-! ### What each call does -/

variable {s : Service}

theorem serve_of_not_allowed {q : ServerCall} (h : ¬ q.AllowedIn s.server.phase) :
    s.serve q = (.error (.invalidState q.name s.server.phase.name), s) := by
  obtain ⟨engine, database, ⟨phase, inFlight, listener⟩, waiting⟩ := s
  cases q with
  | start =>
    cases phase with
    | stopped => exact absurd rfl h
    | _ => rfl
  | listen | stop now =>
    obtain ⟨hlistening, haccepting⟩ := not_or.1 h
    cases phase with
    | listening => exact absurd rfl hlistening
    | accepting => exact absurd rfl haccepting
    | _ => rfl
  | submit o now =>
    cases phase with
    | accepting => exact absurd rfl h
    | _ => rfl
  | setPassword | resetPassword => exact absurd trivial h

theorem serve_start (h : s.server.phase = .stopped) :
    s.serve .start = s.asking (.start s.engine.config.server) := by
  obtain ⟨engine, database, ⟨phase, inFlight, listener⟩, waiting⟩ := s
  obtain rfl : phase = .stopped := h
  rcases listener with ⟨_ | e, onAccept, onShutdown, log⟩ <;> rfl

theorem serve_listen (h : s.server.phase = .listening) :
    s.serve .listen = s.asking .accept := by
  obtain ⟨engine, database, ⟨phase, inFlight, listener⟩, waiting⟩ := s
  obtain rfl : phase = .listening := h
  rcases listener with ⟨onStart, _ | e, onShutdown, log⟩ <;> rfl

theorem serve_listen_again (h : s.server.phase = .accepting) :
    s.serve .listen = (.ok none, s) := by
  obtain ⟨engine, database, ⟨phase, inFlight, listener⟩, waiting⟩ := s
  obtain rfl : phase = .accepting := h
  rfl

theorem serve_stop (hidle : s.Idle) (h : s.server.phase = .listening ∨ s.server.phase = .accepting)
    (now : Instant) :
    s.serve (.stop now) = s.asking .shutdown := by
  obtain ⟨engine, database, ⟨phase, inFlight, listener⟩, waiting⟩ := s
  obtain ⟨hwaiting, hflight⟩ := hidle
  obtain rfl : waiting = [] := hwaiting
  obtain rfl : inFlight = 0 := hflight
  rcases listener with ⟨onStart, onAccept, _ | e, log⟩ <;>
    obtain rfl | rfl : phase = .listening ∨ phase = .accepting := h <;> rfl

theorem serve_submit (hidle : s.Idle) (h : s.server.phase = .accepting) (o : Observation)
    (now : Instant) :
    s.serve (.submit o now) = s.byEngine (s.engine.recordEvent o now) .decided := by
  obtain ⟨engine, database, ⟨phase, inFlight, listener⟩, waiting⟩ := s
  obtain ⟨hwaiting, hflight⟩ := hidle
  obtain rfl : waiting = [] := hwaiting
  obtain rfl : inFlight = 0 := hflight
  obtain rfl : phase = .accepting := h
  rfl

/-- What the engine refuses leaves everything as it was. -/
theorem byEngine_of_error {α : Type} {op : Op α} {wrap : α → Reply} (hop : op.Atomic) {e : Error}
    (h : (s.byEngine op wrap).1 = .error e) : (s.byEngine op wrap).2 = s := by
  cases ha : (op s.database.records).answer with
  | error e' =>
    have hfinal := hop.final_of_error ha
    show { s with database := { s.database with records := _ } } = s
    rw [hfinal]
  | ok v =>
    have hanswer : (s.byEngine op wrap).1 = .ok (some (wrap v)) :=
      congrArg (Except.map fun v => some (wrap v)) ha
    rw [hanswer] at h
    contradiction

/-- What can come of a call: nothing happens, the listener is asked for what is due, or the engine
    serves it. -/
inductive Course (s : Service) : Except Error (Option Reply) × Service → Prop where
  | kept (answer : Except Error (Option Reply)) : Course s (answer, s)
  | asked {r : Request} (hdue : r.Due s.engine.config.server s.server.phase) :
      Course s (s.asking r)
  | engine {α : Type} {op : Op α} (hop : op.Atomic) (wrap : α → Reply) :
      Course s (s.byEngine op wrap)

theorem course (hidle : s.Idle) (q : ServerCall) : s.Course (s.serve q) := by
  by_cases hallowed : q.AllowedIn s.server.phase
  case neg =>
    rw [serve_of_not_allowed hallowed]
    exact .kept _
  cases q with
  | start =>
    rw [serve_start hallowed]
    exact .asked ⟨hallowed, rfl⟩
  | listen =>
    rcases hallowed with hphase | hphase
    · rw [serve_listen hphase]
      exact .asked hphase
    · rw [serve_listen_again hphase]
      exact .kept _
  | stop now =>
    rw [serve_stop hidle hallowed]
    exact .asked hallowed
  | submit o now =>
    rw [serve_submit hidle hallowed]
    exact .engine (Attempt.atomic_run _ now) _
  | setPassword path password salt =>
    exact .engine (Roots.atomic_setPassword _ path password salt) _
  | resetPassword path random salt =>
    exact .engine (Roots.atomic_resetPassword _ _ _ path salt) _

/-! ### The server in step with its listener -/

/-- The phase is that of the life that the log tells of, and nothing is in flight. -/
structure InStep (e : Engine) (l : Life) (s : Service) : Prop where
  engine : s.engine = e
  idle : s.Idle
  log : s.server.listener.log = l.log e.config.server
  phase : s.server.phase = l.phase

namespace InStep

variable {e : Engine} {l : Life}

theorem fresh (e : Engine) (db : Database) : InStep e {} (fresh e db) := ⟨rfl, ⟨rfl, rfl⟩, rfl, rfl⟩

theorem facing (h : InStep e l s) (m : Mood) : InStep e l (s.facing m) :=
  ⟨h.engine, h.idle, h.log, h.phase⟩

theorem asked (h : InStep e l s) {r : Request}
    (hdue : r.Due s.engine.config.server s.server.phase) :
    InStep e (l.note (r, s.server.listener.refusal? r)) (s.asked r) := by
  rw [h.engine, h.phase] at hdue
  constructor
  · exact h.engine
  · exact h.idle
  · rw [Life.log_note hdue, ← h.log]
    rfl
  · rw [Life.phase_note hdue]
    rfl

theorem serve (h : InStep e l s) (q : ServerCall) : ∃ l', InStep e l' (s.serve q).2 := by
  have hcourse := course h.idle q
  generalize s.serve q = outcome at hcourse ⊢
  cases hcourse with
  | kept answer => exact ⟨l, h⟩
  | asked hdue => exact ⟨_, h.asked hdue⟩
  | engine hop wrap => exact ⟨l, h.engine, h.idle, h.log, h.phase⟩

theorem run (h : InStep e l s) (turns : List (Mood × ServerCall)) :
    ∃ l', InStep e l' (s.run turns) := by
  induction turns generalizing s l with
  | nil => exact ⟨l, h⟩
  | cons turn rest ih =>
    obtain ⟨m, q⟩ := turn
    obtain ⟨l', hstep⟩ := (h.facing m).serve q
    exact ih hstep

end InStep

/-- What the listener refuses is in the log, and changes nothing that is kept. -/
theorem asking_of_error {r : Request} {err : Error} (h : (s.asking r).1 = .error err) :
    (s.asking r).2.database = s.database ∧
      (s.asking r).2.server.listener.log = s.server.listener.log ++ [(r, some err)] := by
  have hrefusal : s.server.listener.refusal? r = some err := answerTo_eq_error_iff.1 h
  rw [← hrefusal]
  exact ⟨rfl, rfl⟩

/-- A call that fails has changed nothing, or it is the listener that has refused. -/
theorem serve_of_error (hidle : s.Idle) {q : ServerCall} {err : Error}
    (h : (s.serve q).1 = .error err) :
    (s.serve q).2 = s ∨
      ∃ r, (s.serve q).2.database = s.database ∧
        (s.serve q).2.server.listener.log = s.server.listener.log ++ [(r, some err)] := by
  have hcourse := course hidle q
  generalize s.serve q = outcome at h hcourse ⊢
  cases hcourse with
  | kept answer => exact Or.inl rfl
  | asked hdue => exact Or.inr ⟨_, asking_of_error h⟩
  | engine hop wrap => exact Or.inl (byEngine_of_error hop h)

/-- **The phase of a server and the log of its listener stay in step**: after any run of calls, and
    whatever the listener refuses on the way, the log is that of exactly one life, and the phase
    is that of this life.  A call that the phase does not allow is refused under its name
    and changes nothing; so does one that fails later, unless the listener refuses, whose refusal
    is then the last of the log.  A stop that is allowed ends in a stopped server and answers with
    how the listener refused to shut down.  Events reach the engine while the server accepts them,
    and passwords are changed in every phase. -/
theorem lifecycle_exact (e : Engine) (db : Database) (turns : List (Mood × ServerCall)) (m : Mood) :
    let s := ((fresh e db).run turns).facing m
    let listener := s.server.listener
    s.server.phase ∈ [Phase.stopped, .listening, .accepting] ∧
      (∃ l : Life, listener.log = l.log e.config.server ∧ s.server.phase = l.phase ∧
        ∀ l' : Life, listener.log = l'.log e.config.server → l' = l) ∧
      (∀ q : ServerCall, ¬ q.AllowedIn s.server.phase →
        s.serve q = (.error (.invalidState q.name s.server.phase.name), s)) ∧
      (∀ q err, (s.serve q).1 = .error err →
        (s.serve q).2 = s ∨
          ∃ r, (s.serve q).2.database = s.database ∧
            (s.serve q).2.server.listener.log = listener.log ++ [(r, some err)]) ∧
      (∀ now, (ServerCall.stop now).AllowedIn s.server.phase →
        (s.serve (.stop now)).2.server.phase = .stopped ∧
          (s.serve (.stop now)).1 = answerTo m.onShutdown) ∧
      (∀ o now, s.server.phase = .accepting →
        s.serve (.submit o now) = s.byEngine (e.recordEvent o now) .decided) ∧
      (∀ path password salt,
        s.serve (.setPassword path password salt) =
          s.byEngine (e.setPassword path password salt) .epoch) ∧
      ∀ path random salt,
        s.serve (.resetPassword path random salt) =
          s.byEngine (e.resetPassword path random salt) .secret := by
  intro s listener
  obtain ⟨l, hrun⟩ := (InStep.fresh e db).run turns
  have h : InStep e l s := hrun.facing m
  refine ⟨?_, ⟨l, h.log, h.phase, ?_⟩, fun q => serve_of_not_allowed,
    fun q err => serve_of_error h.idle, ?_, ?_, ?_, ?_⟩
  · rw [h.phase]
    exact l.phase_mem
  · intro l' hlog
    -- two lives with one log are both read back from it
    rw [← Life.ofLog_log e.config.server l', ← hlog, h.log, Life.ofLog_log]
  · intro now hallowed
    rw [serve_stop h.idle hallowed]
    exact ⟨rfl, rfl⟩
  · intro o now hphase
    rw [serve_submit h.idle hphase, h.engine]
  · intro path password salt
    rw [← h.engine]
    rfl
  · intro path random salt
    rw [← h.engine]
    rfl

/-- The port is taken, then free; the first client is turned away; and in the end the listener is
    gone before it is told to shut down. -/
theorem lifecycle_of_refusals :
    let taken := Error.io (some "port taken")
    let away := Error.io (some "not yet")
    let gone := Error.io (some "listener gone")
    let turns : List (Mood × ServerCall) :=
      [({ onStart := some taken }, .start), ({}, .start), ({ onAccept := some away }, .listen),
        ({}, .listen), ({ onAccept := some away }, .listen)]
    let s := ((fresh Session.plain {}).run turns).facing { onShutdown := some gone }
    let l : Life :=
      { past := [.failed taken], present := some { refusals := [away], accepted := true } }
    s.server.listener.log = l.log Session.plain.config.server ∧
      s.server.phase = .accepting ∧
      s.serve .start = (.error (.invalidState "start" "accepting"), s) ∧
      (s.serve (.stop ⟨0, 0⟩)).1 = .error gone ∧
      (s.serve (.stop ⟨0, 0⟩)).2.server.phase = .stopped := by
  intro taken away gone turns s l
  obtain ⟨-, -, hrefused, -, hstop, -⟩ :=
    lifecycle_exact Session.plain {} turns { onShutdown := some gone }
  have hlog : s.server.listener.log = l.log Session.plain.config.server := by decide
  have hphase : s.server.phase = .accepting := by decide
  obtain ⟨hstopped, hanswer⟩ := hstop ⟨0, 0⟩ (Or.inr hphase)
  refine ⟨hlog, hphase, ?_, hanswer, hstopped⟩
  have hstart : ¬ ServerCall.start.AllowedIn s.server.phase := by
    rw [hphase]
    exact Phase.noConfusion
  have hserve := hrefused .start hstart
  rwa [hphase] at hserve

end Service

end SyncLedger
