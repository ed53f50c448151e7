/-
  SyncLedger/Proofs/Traffic.lean
  ==============================
  **Callers of a server that move between one another's steps.**  Submitters, the tasks that commit
  their events, and whoever starts and stops the server take turns as a schedule of moves says,
  which is run by `Traffic.run`; a move for which it is not the time does nothing.  The steps are
  those of a service, cut where another caller can come between: a start and a stop are announced
  before the listener is asked, an event is committed before its count is dropped, and a stop sees
  that nothing is in flight before it is over (`Server.start_eq`, `Server.beginStop_eq`,
  `Service.commit_eq`, `Server.finishStop_eq`).  A whole stop is a run of such moves between which
  nobody else comes (`Traffic.stop_eq`).

  What happened is written down as it happens (`Note`).  The books of a run (`Books`) tie what is
  written to the events that wait and to those that are committed and still count; there is one
  lemma for each kind of note.
-/
import Mathlib.Data.List.Perm.Basic
import SyncLedger.Proofs.Lifecycle

namespace SyncLedger

/-! ### Steps -/

namespace Server

/-- Announces a start; after that the listener is asked. -/
def beginStart (s : Server) : Except Error Unit × Server :=
  match s.phase with
  | .stopped => (.ok (), { s with phase := .starting })
  | _ => (.error (s.refused "start"), s)

/-- Asks the listener to come up, once a start is announced. -/
def finishStart (s : Server) (address : ServerConfig) : Except Error Unit × Server :=
  match s.phase with
  | .starting => s.ask (.start address) .listening .stopped
  | _ => (.error (s.refused "start"), s)

theorem start_eq (s : Server) (address : ServerConfig) :
    s.start address = match s.beginStart with
      | (.ok (), s) => s.finishStart address
      | (.error e, s) => (.error e, s) := by
  obtain ⟨phase, inFlight, listener⟩ := s
  cases phase with
  | _ => rfl

/-- Announces a stop: no event is taken any more.  After that the listener is asked. -/
def announceStop (s : Server) : Except Error Unit × Server :=
  match s.phase with
  | .listening => (.ok (), { s with phase := .stopping })
  | .accepting => (.ok (), { s with phase := .stopping })
  | _ => (.error (s.refused "stop"), s)

theorem announceStop_cases (s : Server) :
    ((s.phase = .listening ∨ s.phase = .accepting) ∧
        s.announceStop = (.ok (), { s with phase := .stopping })) ∨
      s.announceStop = (.error (s.refused "stop"), s) := by
  obtain ⟨phase, inFlight, listener⟩ := s
  cases phase with
  | listening => exact Or.inl ⟨Or.inl rfl, rfl⟩
  | accepting => exact Or.inl ⟨Or.inr rfl, rfl⟩
  | _ => exact Or.inr rfl

/-- Asks the listener to shut down, once a stop is announced; answers with its refusal. -/
def shutdown (s : Server) : Option Error × Server :=
  let asked := s.ask .shutdown .stopping .stopping
  let refusal := match asked.1 with
    | .ok () => none
    | .error e => some e
  (refusal, asked.2)

theorem ask_cases (s : Server) (r : Request) (agreed refused : Phase) :
    (s.ask r agreed refused).2.inFlight = s.inFlight ∧
      ((s.ask r agreed refused).2.phase = agreed ∨ (s.ask r agreed refused).2.phase = refused) := by
  unfold ask
  cases s.listener.refusal? r with
  | none => exact ⟨rfl, Or.inl rfl⟩
  | some e => exact ⟨rfl, Or.inr rfl⟩

/-- However the listener answers, the server goes on to stop. -/
theorem shutdown_stopping (s : Server) :
    s.shutdown.2.inFlight = s.inFlight ∧ s.shutdown.2.phase = .stopping := by
  obtain ⟨hcount, hphase⟩ := s.ask_cases .shutdown .stopping .stopping
  exact ⟨hcount, or_self_iff.1 hphase⟩

theorem beginStop_eq (s : Server) :
    s.beginStop = match s.announceStop with
      | (.ok (), s) => (.ok s.shutdown.1, s.shutdown.2)
      | (.error e, s) => (.error e, s) := by
  obtain ⟨phase, inFlight, listener⟩ := s
  cases phase with
  | _ => rfl

/-- Whether nothing is in flight. -/
def isIdle (s : Server) : Bool := s.inFlight == 0

theorem finishStop_eq {s : Server} (h : s.phase = .stopping) :
    s.finishStop = if s.isIdle then some { s with phase := .stopped } else none := by
  simp [finishStop, isIdle, h]

end Server

namespace Service

/-- Commits the waiting event with a given number, which counts as before. -/
def record (s : Service) (i : Nat) (now : Instant) : Option (Except Error Decision × Service) :=
  s.waiting[i]?.map fun o =>
    let (answer, database) := s.database.perform (s.engine.recordEvent o now)
    (answer, { s with database, waiting := s.waiting.eraseIdx i })

/-- Drops the count of an event. -/
def release (s : Service) : Service := { s with server := s.server.release }

theorem commit_eq (s : Service) (i : Nat) (now : Instant) :
    s.commit i now = (s.record i now).map fun done => (done.1, done.2.release) := by
  unfold commit record
  cases s.waiting[i]? with
  | none => rfl
  | some o => rfl

theorem drain_of_nothing {s : Service} (h : s.waiting = []) (now : Instant) (n : Nat) :
    s.drain now n = s := by
  cases n with
  | zero => rfl
  | succ n => simp [drain, commit, h]

/-- Committing events leaves the server in its phase. -/
theorem phase_drain (s : Service) (now : Instant) (n : Nat) :
    (s.drain now n).server.phase = s.server.phase := by
  induction n generalizing s with
  | zero => rfl
  | succ n ih =>
    simp only [drain, commit]
    cases s.waiting[0]? with
    | none => rfl
    | some o => exact ih _

theorem stop_of_refused {s : Service} {e : Error} (h : s.server.announceStop = (.error e, s.server))
    (now : Instant) : s.stop now = (.error e, s) := by
  rw [stop, beginStop, Server.beginStop_eq, h]

theorem stop_of_announced {s : Service} {server : Server}
    (h : s.server.announceStop = (.ok (), server)) (now : Instant) :
    (s.stop now).2 =
      let drained := { s with server := server.shutdown.2 }.drain now s.waiting.length
      drained.finishStop.getD drained := by
  rw [stop, beginStop, Server.beginStop_eq, h]

theorem submit_of_accepting {s : Service} (h : s.server.phase = .accepting) (o : Observation) :
    s.submit o =
      (.ok (), { s with
        server.inFlight := s.server.inFlight + 1
        waiting := s.waiting ++ [o] }) := by
  obtain ⟨engine, database, ⟨phase, inFlight, listener⟩, waiting⟩ := s
  obtain rfl : phase = .accepting := h
  rfl

theorem submit_of_not_accepting {s : Service} (h : s.server.phase ≠ .accepting)
    (o : Observation) : s.submit o = (.error (s.server.refused "submit"), s) := by
  obtain ⟨engine, database, ⟨phase, inFlight, listener⟩, waiting⟩ := s
  cases phase with
  | accepting => exact absurd rfl h
  | _ => rfl

theorem record_eq {s : Service} {i : Nat} {o : Observation} (h : s.waiting[i]? = some o)
    (now : Instant) :
    s.record i now =
      let done := s.database.perform (s.engine.recordEvent o now)
      some (done.1, { s with database := done.2, waiting := s.waiting.eraseIdx i }) := by
  unfold record
  rw [h]
  rfl

end Service

/-! ### Moves -/

/-- What is written down.  Events are numbered as they are taken. -/
inductive Note where
  | accepted (n : Nat) (o : Observation)
  | refused (o : Observation)
  | committed (n : Nat) (o : Observation) (now : Instant)
  /-- The event counts no more. -/
  | finished (n : Nat)
  /-- A call to listen has succeeded. -/
  | listened
  /-- A stop is over. -/
  | stopped

/-- The events that were accepted, in their order. -/
def acceptedIn (log : List Note) : List (Nat × Observation) :=
  log.filterMap fun
    | .accepted n o => some (n, o)
    | _ => none

/-- The events that were committed, in the order of their commits and with their dates. -/
def committedIn (log : List Note) : List ((Nat × Observation) × Instant) :=
  log.filterMap fun
    | .committed n o now => some ((n, o), now)
    | _ => none

def finishedIn (log : List Note) : List Nat :=
  log.filterMap fun
    | .finished n => some n
    | _ => none

/-- The numbers of the events that were accepted and are not finished. -/
def unfinishedIn (log : List Note) : List Nat :=
  ((acceptedIn log).map (·.1)).filter fun n => !(finishedIn log).contains n

/-- The database after events were recorded one after another. -/
def Database.afterEvents (e : Engine) (db : Database)
    (events : List ((Nat × Observation) × Instant)) : Database :=
  events.foldl (fun db c => (db.perform (e.recordEvent c.1.2 c.2)).2) db

inductive Move where
  /-- The listener changes how it will answer. -/
  | face (m : Mood)
  | beginStart
  | finishStart
  | listen
  | submit (o : Observation)
  /-- Commits one of the waiting events. -/
  | commit (i : Nat) (now : Instant)
  /-- Drops the count of one of the events that are committed. -/
  | release (i : Nat)
  /-- The submitter of an event stops waiting for its answer. -/
  | leave (n : Nat)
  | beginStop
  /-- The stop that has begun asks the listener to shut down. -/
  | shutdown
  /-- Whoever stops the server looks whether anything is in flight. -/
  | look
  | finishStop

def Move.isLeave : Move → Bool
  | .leave _ => true
  | _ => false

/-- Whether a move is one of a task that has taken an event, or of a stop that has begun. -/
def Move.isDrain : Move → Bool
  | .commit _ _ | .release _ | .shutdown | .look | .finishStop => true
  | _ => false

/-- How far a stop has come. -/
inductive StopStage where
  /-- None has begun. -/
  | before
  /-- The listener has not been asked yet. -/
  | announced
  /-- The listener was asked. -/
  | asked
  /-- It was seen that nothing is in flight. -/
  | idle
  deriving DecidableEq

/-- A service with what its callers are about to do, and what happened so far. -/
structure Traffic where
  service : Service
  /-- The events that wait, with their numbers. -/
  queue : List (Nat × Observation) := []
  /-- The numbers of the events that are committed and still count, with their answers. -/
  held : List (Nat × Except Error Decision) := []
  stage : StopStage := .before
  /-- The submitters that do not wait for their answer. -/
  gone : List Nat := []
  /-- The answers that submitters have got. -/
  answers : List (Nat × Except Error Decision) := []
  log : List Note := []

namespace Traffic

def fresh (e : Engine) (db : Database) : Traffic := { service := Service.fresh e db }

def server (s : Traffic) : Server := s.service.server

def turn (s : Traffic) (server : Server) : Traffic :=
  { s with service := { s.service with server } }

def note (s : Traffic) (x : Note) : Traffic := { s with log := s.log ++ [x] }

def step (s : Traffic) : Move → Traffic
  | .face m => { s with service := s.service.facing m }
  | .beginStart => s.turn s.server.beginStart.2
  | .finishStart => s.turn (s.server.finishStart s.service.engine.config.server).2
  | .listen => match s.service.listen with
    | (.ok (), service) => { s with service }.note .listened
    | (.error _, service) => { s with service }
  | .submit o => match s.service.submit o with
    | (.ok (), service) =>
      let n := (acceptedIn s.log).length
      { s with service, queue := s.queue ++ [(n, o)] }.note (.accepted n o)
    | (.error _, service) => { s with service }.note (.refused o)
  | .commit i now => match s.queue[i]?, s.service.record i now with
    | some (n, o), some (answer, service) =>
      { s with service, queue := s.queue.eraseIdx i, held := s.held ++ [(n, answer)] }.note
        (.committed n o now)
    | _, _ => s
  | .release i => match s.held[i]? with
    | some (n, answer) =>
      let answers := if s.gone.contains n then s.answers else s.answers ++ [(n, answer)]
      { s with service := s.service.release, held := s.held.eraseIdx i, answers }.note (.finished n)
    | none => s
  | .leave n => { s with gone := n :: s.gone }
  | .beginStop => match s.server.announceStop with
    | (.ok (), server) => { s.turn server with stage := .announced }
    | (.error _, _) => s
  | .shutdown =>
    if s.stage = .announced then { s.turn s.server.shutdown.2 with stage := .asked } else s
  | .look => if s.stage = .asked ∧ s.server.isIdle = true then { s with stage := .idle } else s
  | .finishStop =>
    if s.stage = .idle then
      { s.turn { s.server with phase := .stopped } with stage := .before }.note .stopped
    else s

def run (s : Traffic) : List Move → Traffic
  | [] => s
  | m :: ms => (s.step m).run ms

/-! ### What a move does -/

variable {s : Traffic} {i n : Nat}

theorem step_commit {o : Observation} (hwaiting : s.service.waiting = s.queue.map (·.2))
    (hi : s.queue[i]? = some (n, o)) (now : Instant) :
    s.step (.commit i now) =
      let done := s.service.database.perform (s.service.engine.recordEvent o now)
      { s with
        service.database := done.2
        service.waiting := s.service.waiting.eraseIdx i
        queue := s.queue.eraseIdx i
        held := s.held ++ [(n, done.1)]
        log := s.log ++ [.committed n o now] } := by
  have hget : s.service.waiting[i]? = some o := by simp [hwaiting, hi]
  simp only [step, hi]
  rw [Service.record_eq hget now]
  rfl

theorem step_release {answer : Except Error Decision} (hi : s.held[i]? = some (n, answer)) :
    s.step (.release i) =
      { s with
        service.server.inFlight := s.server.inFlight - 1
        held := s.held.eraseIdx i
        answers := if s.gone.contains n then s.answers else s.answers ++ [(n, answer)]
        log := s.log ++ [.finished n] } := by
  simp only [step, hi]
  rfl

theorem run_append (s : Traffic) (before after : List Move) :
    s.run (before ++ after) = (s.run before).run after := by
  induction before generalizing s with
  | nil => rfl
  | cons m before ih => exact ih (s.step m)

/-! ### A stop to which nobody else comes -/

/-- Commits the first of the waiting events and drops its count, so many times. -/
def inTurn (now : Instant) : Nat → List Move
  | 0 => []
  | n + 1 => .commit 0 now :: .release 0 :: inTurn now n

/-- The moves of a stop between which nobody else moves. -/
def wholeStop (s : Traffic) (now : Instant) : List Move :=
  .beginStop :: match s.server.announceStop.1 with
    | .ok () => .shutdown :: inTurn now s.queue.length ++ [.look, .finishStop]
    | .error _ => []

/-- The events that wait are committed as the service commits them. -/
theorem run_inTurn (hwaiting : s.service.waiting = s.queue.map (·.2)) (hheld : s.held = [])
    (now : Instant) (n : Nat) :
    (s.run (inTurn now n)).service = s.service.drain now n ∧
      (s.run (inTurn now n)).stage = s.stage := by
  induction n generalizing s with
  | zero => exact ⟨rfl, rfl⟩
  | succ n ih =>
    simp only [inTurn, run, Service.drain]
    cases hqueue : s.queue with
    | nil =>
      -- nothing waits, so neither of the two does anything
      have hnone : s.service.waiting = [] := by rw [hwaiting, hqueue, List.map_nil]
      have hcommit : s.step (.commit 0 now) = s := by simp [step, hqueue]
      have hrelease : s.step (.release 0) = s := by simp [step, hheld]
      rw [hcommit, hrelease, Service.commit, hnone]
      obtain ⟨hservice, hstage⟩ := ih hwaiting hheld
      exact ⟨hservice.trans (Service.drain_of_nothing hnone now n), hstage⟩
    | cons c queue =>
      obtain ⟨k, o⟩ := c
      have hfirst : s.queue[0]? = some (k, o) := by rw [hqueue, List.getElem?_cons_zero]
      have hget : s.service.waiting[0]? = some o := by simp [hwaiting, hqueue]
      have hcommit := step_commit hwaiting hfirst now
      obtain ⟨answer, hanswer⟩ : ∃ answer, (s.step (.commit 0 now)).held[0]? = some (k, answer) := by
        rw [hcommit, hheld]
        exact ⟨_, rfl⟩
      have hrelease := step_release hanswer
      rw [Service.commit_eq, Service.record_eq hget, hrelease, hcommit]
      apply ih
      · show s.service.waiting.eraseIdx 0 = (s.queue.eraseIdx 0).map (·.2)
        rw [hwaiting, List.eraseIdx_map]
      · show (s.held ++ _).eraseIdx 0 = []
        rw [hheld]
        rfl

/-- At its end a stop looks once, and is over if nothing is in flight. -/
theorem run_end (hstage : s.stage = .asked) (hphase : s.server.phase = .stopping) :
    (s.run [.look, .finishStop]).service = s.service.finishStop.getD s.service := by
  have hend : s.service.server.finishStop
      = if s.server.isIdle then some { s.server with phase := .stopped } else none :=
    Server.finishStop_eq hphase
  rw [Service.finishStop, hend]
  cases hidle : s.server.isIdle with
  | true =>
    have hlook : s.step .look = { s with stage := .idle } := by simp [step, hstage, hidle]
    rw [run, hlook]
    rfl
  | false =>
    have hlook : s.step .look = s := by simp [step, hidle]
    have hfinish : s.step .finishStop = s := by simp [step, hstage]
    rw [run, hlook, run, hfinish]
    rfl

/-- **A stop is a run of moves** between which nobody else comes.  Where stopping is not allowed,
    its first move does nothing. -/
theorem stop_eq (hwaiting : s.service.waiting = s.queue.map (·.2)) (hheld : s.held = [])
    (now : Instant) : (s.service.stop now).2 = (s.run (s.wholeStop now)).service := by
  rcases s.server.announceStop_cases with ⟨-, hbegin⟩ | hbegin
  case inr =>
    rw [Service.stop_of_refused hbegin, wholeStop, hbegin, run, step, hbegin]
    rfl
  let stopping : Server := { s.server with phase := .stopping }
  let asked : Traffic := { s.turn stopping.shutdown.2 with stage := .asked }
  have hasked : (s.step .beginStop).step .shutdown = asked := by
    simp only [step, hbegin]
    rfl
  have hlength : s.service.waiting.length = s.queue.length := by rw [hwaiting, List.length_map]
  obtain ⟨hdrain, hstage⟩ := run_inTurn (s := asked) hwaiting hheld now s.queue.length
  -- the server stays in its phase while it waits
  have hphase : (asked.run (inTurn now s.queue.length)).server.phase = .stopping := by
    rw [server, hdrain, Service.phase_drain]
    exact stopping.shutdown_stopping.2
  rw [Service.stop_of_announced hbegin, hlength, wholeStop, hbegin, run, List.cons_append, run,
    hasked, run_append, run_end hstage hphase, hdrain]
  rfl

end Traffic

/-! ### Notes -/

@[simp] theorem acceptedIn_append (log log' : List Note) :
    acceptedIn (log ++ log') = acceptedIn log ++ acceptedIn log' := List.filterMap_append

@[simp] theorem committedIn_append (log log' : List Note) :
    committedIn (log ++ log') = committedIn log ++ committedIn log' := List.filterMap_append

@[simp] theorem finishedIn_append (log log' : List Note) :
    finishedIn (log ++ log') = finishedIn log ++ finishedIn log' := List.filterMap_append

theorem Database.afterEvents_concat (e : Engine) (db : Database)
    (events : List ((Nat × Observation) × Instant)) (c : (Nat × Observation) × Instant) :
    db.afterEvents e (events ++ [c])
      = ((db.afterEvents e events).perform (e.recordEvent c.1.2 c.2)).2 := by
  simp [afterEvents]

/-- Once a list is cut before some entry, its last one is that entry or stands in the rest. -/
theorem concat_cut {xs ys zs : List Note} {x y : Note} (h : xs ++ [x] = ys ++ y :: zs) :
    (xs = ys ∧ x = y ∧ zs = []) ∨ ∃ rest, zs = rest ++ [x] ∧ xs = ys ++ y :: rest := by
  rcases List.append_eq_append_iff.1 h with ⟨between, rfl, hlast⟩ | ⟨between, rfl, hrest⟩
  · left
    cases between with
    | nil =>
      obtain ⟨rfl, rfl⟩ := List.cons.inj hlast
      exact ⟨(List.append_nil xs).symm, rfl, rfl⟩
    | cons z between => simp at hlast
  · cases between with
    | nil =>
      obtain ⟨rfl, rfl⟩ := List.cons.inj hrest
      exact Or.inl ⟨List.append_nil ys, rfl, rfl⟩
    | cons z between =>
      obtain ⟨rfl, rfl⟩ := List.cons.inj hrest
      exact Or.inr ⟨between, rfl, rfl⟩

/-- The server has listened since each stop. -/
def Reopened (log : List Note) : Prop :=
  ∀ before after, log = before ++ .stopped :: after → .listened ∈ after

/-- Between a stop and a commit that comes after it the server has listened. -/
def Calm (log : List Note) : Prop :=
  ∀ before between n o now rest,
    log = before ++ .stopped :: (between ++ .committed n o now :: rest) → .listened ∈ between

/-- Everything that was accepted had been committed, and was finished. -/
def Drained (log : List Note) : Prop :=
  ((committedIn log).map (·.1)).Perm (acceptedIn log) ∧
    (finishedIn log).Perm ((acceptedIn log).map (·.1))

/-- At the end of each stop. -/
def DrainedAtStops (log : List Note) : Prop :=
  ∀ before after, log = before ++ .stopped :: after → Drained before

section

variable {log : List Note} {x : Note}

theorem Reopened.listened (log : List Note) : Reopened (log ++ [.listened]) := by
  intro before after h
  rcases concat_cut h with ⟨-, hx, -⟩ | ⟨rest, rfl, -⟩
  · contradiction
  · simp

theorem Reopened.concat (h : Reopened log) (hx : x ≠ .stopped) : Reopened (log ++ [x]) := by
  intro before after heq
  rcases concat_cut heq with ⟨-, hstop, -⟩ | ⟨rest, rfl, hlog⟩
  · exact absurd hstop hx
  · exact List.mem_append_left _ (h before rest hlog)

theorem Calm.concat (h : Calm log) (hx : ∀ n o now, x = .committed n o now → Reopened log) :
    Calm (log ++ [x]) := by
  intro before between n o now rest heq
  rw [← List.cons_append, ← List.append_assoc] at heq
  rcases concat_cut heq with ⟨hlog, hcommit, -⟩ | ⟨rest', -, hlog⟩
  · exact hx n o now hcommit before between hlog
  · apply h before between n o now rest'
    rw [hlog, List.append_assoc, List.cons_append]

theorem DrainedAtStops.concat (h : DrainedAtStops log) (hx : x = .stopped → Drained log) :
    DrainedAtStops (log ++ [x]) := by
  intro before after heq
  rcases concat_cut heq with ⟨rfl, hstop, -⟩ | ⟨rest, -, hlog⟩
  · exact hx hstop
  · exact h before rest hlog

end

/-! ### The books of a run -/

/-- Notes in order, when some events wait and some are held: each event that was accepted waits or
    is committed, and each that was committed is held or finished. -/
structure Books (log : List Note) (queue : List (Nat × Observation)) (held : List Nat) : Prop where
  ran : ((committedIn log).map (·.1) ++ queue).Perm (acceptedIn log)
  done : (finishedIn log ++ held).Perm ((committedIn log).map (·.1.1))
  numbered : (acceptedIn log).map (·.1) = List.range (acceptedIn log).length
  reopened : queue ≠ [] → Reopened log
  calm : Calm log
  drained : DrainedAtStops log

namespace Books

variable {log : List Note} {queue : List (Nat × Observation)} {held : List Nat} {n : Nat}
  {o : Observation}

theorem nil : Books [] [] [] where
  ran := .refl _
  done := .refl _
  numbered := rfl
  reopened h := absurd rfl h
  calm := by
    intro before between n o now rest h
    simp at h
  drained := by
    intro before after h
    simp at h

theorem drained_of_nothing (h : Books log [] []) : Drained log := by
  have hran := h.ran
  have hdone := h.done
  rw [List.append_nil] at hran hdone
  have hnumbers := hran.map Prod.fst
  rw [List.map_map] at hnumbers
  exact ⟨hran, hdone.trans hnumbers⟩

theorem accounted (h : Books log queue held) :
    (finishedIn log ++ (held ++ queue.map (·.1))).Perm ((acceptedIn log).map (·.1)) := by
  have hdone := h.done.append_right (queue.map (·.1))
  have hran := h.ran.map Prod.fst
  rw [List.map_append, List.map_map] at hran
  rw [List.append_assoc] at hdone
  exact hdone.trans hran

theorem nodup (h : Books log queue held) : ((acceptedIn log).map (·.1)).Nodup := by
  rw [h.numbered]
  exact List.nodup_range

theorem unfinished (h : Books log queue held) :
    (unfinishedIn log).Perm (held ++ queue.map (·.1)) := by
  have hall := h.accounted
  obtain ⟨-, -, hapart⟩ := List.nodup_append.1 (hall.nodup_iff.2 h.nodup)
  have hfilter := (hall.filter fun n => !(finishedIn log).contains n).symm
  rw [List.filter_append] at hfilter
  have hfinished : (finishedIn log).filter (fun n => !(finishedIn log).contains n) = [] := by
    apply List.filter_eq_nil_iff.2
    intro n hn
    simpa using hn
  have hrest : (held ++ queue.map (·.1)).filter (fun n => !(finishedIn log).contains n)
      = held ++ queue.map (·.1) := by
    apply List.filter_eq_self.2
    intro n hn
    have hno : n ∉ finishedIn log := fun hmem => hapart n hmem n hn rfl
    simpa using hno
  rw [hfinished, hrest, List.nil_append] at hfilter
  exact hfilter

theorem accept (h : Books log queue held) (hopen : Reopened log) (o : Observation) :
    Books (log ++ [.accepted (acceptedIn log).length o])
      (queue ++ [((acceptedIn log).length, o)]) held where
  ran := by simpa [committedIn, acceptedIn] using h.ran.append_right [((acceptedIn log).length, o)]
  done := by simpa [committedIn, finishedIn] using h.done
  numbered := by simpa [acceptedIn, List.range_succ] using h.numbered
  reopened _ := hopen.concat nofun
  calm := h.calm.concat nofun
  drained := h.drained.concat nofun

theorem commit (h : Books log queue held) {i : Nat} (hi : queue[i]? = some (n, o)) (now : Instant) :
    Books (log ++ [.committed n o now]) (queue.eraseIdx i) (held ++ [n]) := by
  obtain ⟨hlt, hget⟩ := List.getElem?_eq_some_iff.1 hi
  have hopen : Reopened log := h.reopened (List.ne_nil_of_length_pos (by omega))
  have hcommitted : committedIn (log ++ [.committed n o now])
      = committedIn log ++ [((n, o), now)] := by
    simp [committedIn]
  have htaken : ((n, o) :: queue.eraseIdx i).Perm queue := by
    rw [← hget]
    exact List.getElem_cons_eraseIdx_perm hlt
  constructor
  case ran =>
    rw [hcommitted, List.map_append, List.append_assoc]
    simpa [acceptedIn] using (htaken.append_left _).trans h.ran
  case done =>
    rw [hcommitted, List.map_append, ← List.append_assoc]
    simpa [finishedIn] using h.done.append_right [n]
  case numbered => simpa [acceptedIn] using h.numbered
  case reopened => exact fun _ => hopen.concat nofun
  case calm => exact h.calm.concat fun _ _ _ _ => hopen
  case drained => exact h.drained.concat nofun

theorem finish (h : Books log queue held) {i : Nat} (hi : held[i]? = some n) :
    Books (log ++ [.finished n]) queue (held.eraseIdx i) := by
  obtain ⟨hlt, hget⟩ := List.getElem?_eq_some_iff.1 hi
  have hdropped : (n :: held.eraseIdx i).Perm held := by
    rw [← hget]
    exact List.getElem_cons_eraseIdx_perm hlt
  constructor
  case ran => simpa [committedIn, acceptedIn] using h.ran
  case done =>
    simpa [committedIn, finishedIn] using (hdropped.append_left (finishedIn log)).trans h.done
  case numbered => simpa [acceptedIn] using h.numbered
  case reopened => exact fun hwaits => (h.reopened hwaits).concat nofun
  case calm => exact h.calm.concat nofun
  case drained => exact h.drained.concat nofun

/-- A note is written that is not about an event that was accepted. -/
theorem aside (h : Books log queue held) {x : Note}
    (hx : acceptedIn [x] = [] ∧ committedIn [x] = [] ∧ finishedIn [x] = [])
    (hstop : x = .stopped → queue = [] ∧ held = []) : Books (log ++ [x]) queue held := by
  obtain ⟨haccepted, hcommitted, hfinished⟩ := hx
  constructor
  case ran => simpa [haccepted, hcommitted] using h.ran
  case done => simpa [hcommitted, hfinished] using h.done
  case numbered => simpa [haccepted] using h.numbered
  case reopened => exact fun hwaits => (h.reopened hwaits).concat fun hx => hwaits (hstop hx).1
  case calm =>
    apply h.calm.concat
    rintro n o now rfl
    contradiction
  case drained =>
    apply h.drained.concat
    intro hx
    obtain ⟨rfl, rfl⟩ := hstop hx
    exact h.drained_of_nothing

end Books

end SyncLedger
