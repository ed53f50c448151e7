/-
  SyncLedger/Proofs/Draining.lean
  ===============================
  **A stop waits for every event that was taken.**  The invariant of a schedule is that the books
  are in order and that the server counts what they hold (`Traffic.Sound`, and `Sound.step` for one
  move): nothing counts unless the server accepts events or is stopping, nothing waits unless it has
  listened since the last stop, the server is stopping just while a stop is under way, and nothing
  counts once that stop has seen the server idle.

  A stop that has begun can always end (`Sound.exists_run_stopped`), since nothing is taken any more
  and each commit and each release brings it nearer.  A stop to which nobody else comes is part of a
  run like any other (`stop_of_run`).  Whether submitters wait for their answers makes no difference
  to the server (`unheard_run`).
-/
import Mathlib.Data.List.InsertIdx
import SyncLedger.Proofs.Traffic

namespace SyncLedger

/-! ### Turns of the server -/

/-- The phases that a phase may turn to while the server is brought up: none in which an event may
    wait is left or come to. -/
inductive Phase.Turns : Phase → Phase → Prop
  | stay (p : Phase) : Turns p p
  | announce : Turns .stopped .starting
  | start : Turns .starting .listening
  | fail : Turns .starting .stopped

namespace Phase.Turns

variable {p q : Phase}

theorem stopping_iff (h : Turns p q) : q = .stopping ↔ p = .stopping := by
  cases h with
  | stay => exact Iff.rfl
  | announce | start | fail => exact ⟨nofun, nofun⟩

theorem accepting_iff (h : Turns p q) : q = .accepting ↔ p = .accepting := by
  cases h with
  | stay => exact Iff.rfl
  | announce | start | fail => exact ⟨nofun, nofun⟩

end Phase.Turns

namespace Server

variable (s : Server)

theorem beginStart_turns :
    s.beginStart.2.inFlight = s.inFlight ∧ s.phase.Turns s.beginStart.2.phase := by
  obtain ⟨phase, inFlight, listener⟩ := s
  cases phase with
  | stopped => exact ⟨rfl, .announce⟩
  | _ => exact ⟨rfl, .stay _⟩

theorem finishStart_turns (address : ServerConfig) :
    (s.finishStart address).2.inFlight = s.inFlight ∧
      s.phase.Turns (s.finishStart address).2.phase := by
  obtain ⟨phase, inFlight, listener⟩ := s
  cases phase with
  | starting =>
    obtain ⟨hcount, hphase⟩ :=
      ask_cases ⟨.starting, inFlight, listener⟩ (.start address) .listening .stopped
    refine ⟨hcount, ?_⟩
    rcases hphase with hphase | hphase
    · exact hphase ▸ .start
    · exact hphase ▸ .fail
  | _ => exact ⟨rfl, .stay _⟩

/-- A call to listen fails and turns nothing, or the server accepts events after it. -/
theorem listen_cases :
    (∃ e, s.listen.1 = .error e ∧ s.listen.2.inFlight = s.inFlight ∧
      s.phase.Turns s.listen.2.phase) ∨
    (s.listen.1 = .ok () ∧ s.listen.2.inFlight = s.inFlight ∧ s.listen.2.phase = .accepting ∧
      s.phase ≠ .stopping) := by
  obtain ⟨phase, inFlight, listener⟩ := s
  cases phase with
  | listening =>
    rcases listener with ⟨onStart, _ | e, onShutdown, log⟩
    · exact Or.inr ⟨rfl, rfl, rfl, nofun⟩
    · exact Or.inl ⟨e, rfl, rfl, .stay _⟩
  | accepting => exact Or.inr ⟨rfl, rfl, rfl, nofun⟩
  | _ => exact Or.inl ⟨_, rfl, rfl, .stay _⟩

end Server

namespace Traffic

/-- An answer is the one that an event got when it was committed, after those that came before. -/
def Told (e : Engine) (db : Database) (events : List ((Nat × Observation) × Instant)) (n : Nat)
    (answer : Except Error Decision) : Prop :=
  ∃ before o now after, events = before ++ ((n, o), now) :: after ∧
    answer = ((db.afterEvents e before).perform (e.recordEvent o now)).1

theorem Told.concat {e : Engine} {db : Database} {events : List ((Nat × Observation) × Instant)}
    {n : Nat} {answer : Except Error Decision} (h : Told e db events n answer)
    (c : (Nat × Observation) × Instant) : Told e db (events ++ [c]) n answer := by
  obtain ⟨before, o, now, after, rfl, hanswer⟩ := h
  exact ⟨before, o, now, after ++ [c], by simp, hanswer⟩

/-- The books are in order, what counts is what is neither refused nor finished, and the database
    is that of the events that were committed. -/
structure Sound (e : Engine) (db : Database) (s : Traffic) : Prop where
  books : Books s.log s.queue (s.held.map (·.1))
  engine : s.service.engine = e
  waiting : s.service.waiting = s.queue.map (·.2)
  count : s.server.inFlight = s.queue.length + s.held.length
  database : s.service.database = db.afterEvents e (committedIn s.log)
  told : ∀ a ∈ s.held ++ s.answers, Told e db (committedIn s.log) a.1 a.2
  opened : s.server.phase = .accepting → Reopened s.log
  closed : s.server.phase ≠ .accepting → s.server.phase ≠ .stopping → s.server.inFlight = 0
  staged : s.server.phase = .stopping ↔ s.stage ≠ .before
  idle : s.stage = .idle → s.server.inFlight = 0

namespace Sound

variable {e : Engine} {db : Database} {s : Traffic}

theorem fresh (e : Engine) (db : Database) : Sound e db (Traffic.fresh e db) where
  books := .nil
  engine := rfl
  waiting := rfl
  count := rfl
  database := rfl
  told := nofun
  opened := nofun
  closed _ _ := rfl
  staged := ⟨nofun, fun hstage => absurd rfl hstage⟩
  idle := nofun

theorem nothing (h : Sound e db s) (hcount : s.server.inFlight = 0) :
    s.queue = [] ∧ s.held = [] := by
  have hlengths := h.count
  rw [hcount] at hlengths
  exact ⟨List.length_eq_zero_iff.1 (by omega), List.length_eq_zero_iff.1 (by omega)⟩

/-- While something counts, the server is busy and no stop has seen it idle. -/
theorem busy (h : Sound e db s) (hcount : s.server.inFlight ≠ 0) :
    s.stage ≠ .idle ∧ (s.server.phase = .accepting ∨ s.server.phase = .stopping) := by
  constructor
  · exact fun hstage => hcount (h.idle hstage)
  · by_contra hquiet
    obtain ⟨haccepting, hstopping⟩ := not_or.1 hquiet
    exact hcount (h.closed haccepting hstopping)

/-- The server turns and nothing else does. -/
theorem turn (h : Sound e db s) {server : Server} (hcount : server.inFlight = s.server.inFlight)
    (hstopping : server.phase = .stopping ↔ s.server.phase = .stopping)
    (hquiet : server.phase ≠ .accepting → s.server.phase ≠ .accepting)
    (hopen : server.phase = .accepting → Reopened s.log) : Sound e db (s.turn server) :=
  { h with
    count := hcount.trans h.count
    opened := hopen
    closed := fun haccepting hstop =>
      hcount.trans (h.closed (hquiet haccepting) (hstopping.not.1 hstop))
    staged := hstopping.trans h.staged
    idle := fun hstage => hcount.trans (h.idle hstage) }

theorem turns (h : Sound e db s) {server : Server} (hcount : server.inFlight = s.server.inFlight)
    (hturns : s.server.phase.Turns server.phase) : Sound e db (s.turn server) :=
  h.turn hcount hturns.stopping_iff hturns.accepting_iff.not.1
    fun hphase => h.opened (hturns.accepting_iff.1 hphase)

/-- A note is written that is not about an event that was accepted. -/
theorem note (h : Sound e db s) {x : Note}
    (hx : acceptedIn [x] = [] ∧ committedIn [x] = [] ∧ finishedIn [x] = [])
    (hstop : x ≠ .stopped) : Sound e db (s.note x) := by
  have hcommitted : committedIn (s.note x).log = committedIn s.log := by simp [Traffic.note, hx]
  exact
    { h with
      books := h.books.aside hx fun heq => absurd heq hstop
      database := hcommitted ▸ h.database
      told := hcommitted ▸ h.told
      opened := fun hphase => (h.opened hphase).concat hstop }

theorem face (h : Sound e db s) (m : Mood) : Sound e db (s.step (.face m)) := { h with }

theorem listen (h : Sound e db s) : Sound e db (s.step .listen) := by
  rcases s.server.listen_cases with ⟨refusal, hanswer, hcount, hturns⟩ |
    ⟨hanswer, hcount, hphase, hstop⟩
  · have hstep : s.step .listen = s.turn s.server.listen.2 := by
      simp only [step, Service.listen]
      rw [show s.service.server.listen.1 = .error refusal from hanswer]
      rfl
    rw [hstep]
    exact h.turns hcount hturns
  · have hstep : s.step .listen = (s.note .listened).turn s.server.listen.2 := by
      simp only [step, Service.listen]
      rw [show s.service.server.listen.1 = .ok () from hanswer]
      rfl
    rw [hstep]
    have hnoted : Sound e db (s.note .listened) := h.note ⟨rfl, rfl, rfl⟩ Note.noConfusion
    apply hnoted.turn hcount
    · rw [hphase]
      exact ⟨Phase.noConfusion, fun hstopping => absurd hstopping hstop⟩
    · exact fun hno => absurd hphase hno
    · exact fun _ => .listened s.log

theorem submit (h : Sound e db s) (o : Observation) : Sound e db (s.step (.submit o)) := by
  by_cases hphase : s.server.phase = .accepting
  · have hstep : s.step (.submit o) =
        { s with
          service.server.inFlight := s.server.inFlight + 1
          service.waiting := s.service.waiting ++ [o]
          queue := s.queue ++ [((acceptedIn s.log).length, o)]
          log := s.log ++ [.accepted (acceptedIn s.log).length o] } := by
      simp only [step]
      rw [Service.submit_of_accepting hphase]
      rfl
    have hopen := h.opened hphase
    have hcount := h.count
    rw [hstep]
    constructor
    case books => exact h.books.accept hopen o
    case engine => exact h.engine
    case waiting => simp [h.waiting]
    case count =>
      simp only [Traffic.server, List.length_append, List.length_singleton] at hcount ⊢
      omega
    case database => simpa [committedIn] using h.database
    case told => simpa [committedIn] using h.told
    case opened => exact fun _ => hopen.concat Note.noConfusion
    case closed => exact fun hno _ => absurd hphase hno
    case staged => exact h.staged
    case idle =>
      -- no stop is under way while events are taken
      intro hstage
      have hstage' : s.stage = .idle := hstage
      have hstopping := h.staged.2 (by simp [hstage'])
      rw [hphase] at hstopping
      contradiction
  · have hstep : s.step (.submit o) = s.note (.refused o) := by
      simp only [step]
      rw [Service.submit_of_not_accepting hphase]
    rw [hstep]
    exact h.note ⟨rfl, rfl, rfl⟩ Note.noConfusion

theorem commit (h : Sound e db s) (i : Nat) (now : Instant) :
    Sound e db (s.step (.commit i now)) := by
  cases hi : s.queue[i]? with
  | none =>
    have hstep : s.step (.commit i now) = s := by simp [step, hi]
    rw [hstep]
    exact h
  | some c =>
    obtain ⟨n, o⟩ := c
    obtain ⟨hlt, -⟩ := List.getElem?_eq_some_iff.1 hi
    let done := s.service.database.perform (s.service.engine.recordEvent o now)
    have hcommitted : committedIn (s.log ++ [.committed n o now])
        = committedIn s.log ++ [((n, o), now)] := by
      simp [committedIn]
    have hdone : done = (db.afterEvents e (committedIn s.log)).perform (e.recordEvent o now) := by
      simp only [done]
      rw [h.engine, h.database]
    have hcount := h.count
    obtain ⟨hseen, hphase⟩ := h.busy (by omega)
    rw [step_commit h.waiting hi]
    constructor
    case books => simpa using h.books.commit hi now
    case engine => exact h.engine
    case waiting =>
      show s.service.waiting.eraseIdx i = _
      rw [h.waiting, List.eraseIdx_map]
    case count =>
      simp only [Traffic.server, List.length_append, List.length_singleton,
        List.length_eraseIdx_of_lt hlt] at hcount ⊢
      omega
    case database => rw [hcommitted, Database.afterEvents_concat, ← hdone]
    case told =>
      rw [hcommitted]
      intro a ha
      rcases List.mem_append.1 ha with hheld | hanswered
      · rcases List.mem_append.1 hheld with hbefore | hnew
        · exact (h.told a (List.mem_append_left _ hbefore)).concat _
        · obtain rfl := List.mem_singleton.1 hnew
          exact ⟨committedIn s.log, o, now, [], rfl, congrArg Prod.fst hdone⟩
      · exact (h.told a (List.mem_append_right _ hanswered)).concat _
    case opened => exact fun hphase => (h.opened hphase).concat Note.noConfusion
    case closed => exact fun hno hstop => absurd (hphase.resolve_left hno) hstop
    case staged => exact h.staged
    case idle => exact fun hstage => absurd hstage hseen

theorem release (h : Sound e db s) (i : Nat) : Sound e db (s.step (.release i)) := by
  cases hi : s.held[i]? with
  | none =>
    have hstep : s.step (.release i) = s := by simp [step, hi]
    rw [hstep]
    exact h
  | some c =>
    obtain ⟨n, answer⟩ := c
    obtain ⟨hlt, -⟩ := List.getElem?_eq_some_iff.1 hi
    have hcommitted : committedIn (s.log ++ [.finished n]) = committedIn s.log := by
      simp [committedIn]
    have hcount := h.count
    obtain ⟨hseen, hphase⟩ := h.busy (by omega)
    rw [step_release hi]
    constructor
    case books =>
      have hnumber : (s.held.map (·.1))[i]? = some n := by simp [hi]
      simpa [List.eraseIdx_map] using h.books.finish hnumber
    case engine => exact h.engine
    case waiting => exact h.waiting
    case count =>
      simp only [Traffic.server, List.length_eraseIdx_of_lt hlt] at hcount ⊢
      omega
    case database =>
      rw [hcommitted]
      exact h.database
    case told =>
      rw [hcommitted]
      intro a ha
      apply h.told
      rcases List.mem_append.1 ha with hheld | hanswered
      · exact List.mem_append_left _ (List.mem_of_mem_eraseIdx hheld)
      · dsimp only at hanswered
        split at hanswered
        case isTrue => exact List.mem_append_right _ hanswered
        case isFalse =>
          rcases List.mem_append.1 hanswered with hbefore | hnew
          · exact List.mem_append_right _ hbefore
          · obtain rfl := List.mem_singleton.1 hnew
            exact List.mem_append_left _ (List.mem_of_getElem? hi)
    case opened => exact fun hphase => (h.opened hphase).concat Note.noConfusion
    case closed => exact fun hno hstop => absurd (hphase.resolve_left hno) hstop
    case staged => exact h.staged
    case idle => exact fun hstage => absurd hstage hseen

/-- A stop is announced: the server takes no event any more. -/
theorem beginStop (h : Sound e db s) : Sound e db (s.step .beginStop) := by
  simp only [step]
  rcases s.server.announceStop_cases with ⟨-, hbegin⟩ | hbegin
  · rw [hbegin]
    exact
      { h with
        opened := Phase.noConfusion
        closed := fun _ hstop => absurd rfl hstop
        staged := ⟨fun _ => StopStage.noConfusion, fun _ => rfl⟩
        idle := StopStage.noConfusion }
  · rw [hbegin]
    exact h

theorem shutdown (h : Sound e db s) : Sound e db (s.step .shutdown) := by
  simp only [step]
  split
  case isTrue hstage =>
    have hphase : s.server.phase = .stopping := h.staged.2 (by simp [hstage])
    obtain ⟨hcount, hstopping⟩ := s.server.shutdown_stopping
    have hturned : Sound e db (s.turn s.server.shutdown.2) :=
      h.turns hcount (by rw [hphase, hstopping]; exact .stay _)
    exact
      { hturned with
        staged := ⟨fun _ => StopStage.noConfusion, fun _ => hstopping⟩
        idle := StopStage.noConfusion }
  case isFalse => exact h

theorem look (h : Sound e db s) : Sound e db (s.step .look) := by
  simp only [step]
  split
  case isTrue hlook =>
    obtain ⟨hstage, hidle⟩ := hlook
    have hphase : s.server.phase = .stopping := h.staged.2 (by simp [hstage])
    exact
      { h with
        staged := ⟨fun _ => StopStage.noConfusion, fun _ => hphase⟩
        idle := fun _ => eq_of_beq hidle }
  case isFalse => exact h

theorem finishStop (h : Sound e db s) : Sound e db (s.step .finishStop) := by
  simp only [step]
  split
  case isTrue hstage =>
    have hidle := h.idle hstage
    obtain ⟨hqueue, hheld⟩ := h.nothing hidle
    have hcommitted : committedIn (s.log ++ [.stopped]) = committedIn s.log := by simp [committedIn]
    exact
      { h with
        books := h.books.aside ⟨rfl, rfl, rfl⟩ fun _ => ⟨hqueue, by rw [hheld]; rfl⟩
        database := hcommitted ▸ h.database
        told := hcommitted ▸ h.told
        opened := Phase.noConfusion
        closed := fun _ _ => hidle
        staged := ⟨Phase.noConfusion, fun hstage => absurd rfl hstage⟩
        idle := StopStage.noConfusion }
  case isFalse => exact h

theorem step (h : Sound e db s) (m : Move) : Sound e db (s.step m) := by
  cases m with
  | face m => exact h.face m
  | beginStart =>
    obtain ⟨hcount, hturns⟩ := s.server.beginStart_turns
    exact h.turns hcount hturns
  | finishStart =>
    obtain ⟨hcount, hturns⟩ := s.server.finishStart_turns s.service.engine.config.server
    exact h.turns hcount hturns
  | listen => exact h.listen
  | submit o => exact h.submit o
  | commit i now => exact h.commit i now
  | release i => exact h.release i
  | leave n => exact { h with }
  | beginStop => exact h.beginStop
  | shutdown => exact h.shutdown
  | look => exact h.look
  | finishStop => exact h.finishStop

theorem run (h : Sound e db s) (moves : List Move) : Sound e db (s.run moves) := by
  induction moves generalizing s with
  | nil => exact h
  | cons m moves ih => exact ih (h.step m)

end Sound

/-! ### Submitters who leave -/

/-- The traffic without what its submitters know. -/
def unheard (s : Traffic) : Traffic := { s with gone := [], answers := [] }

theorem unheard_service (s : Traffic) : s.unheard.service = s.service := rfl

theorem unheard_server (s : Traffic) : s.unheard.server = s.server := rfl

theorem unheard_queue (s : Traffic) : s.unheard.queue = s.queue := rfl

theorem unheard_held (s : Traffic) : s.unheard.held = s.held := rfl

theorem unheard_step (s : Traffic) (m : Move) :
    (s.step m).unheard = (s.unheard.step m).unheard := by
  cases m with
  | face | beginStart | finishStart | leave => rfl
  | shutdown | look | finishStop =>
    rw [step, step, apply_ite unheard, apply_ite unheard]
    rfl
  | _ =>
    simp only [step, unheard_service, unheard_server, unheard_queue, unheard_held]
    split <;> rfl

theorem unheard_of_isLeave (s : Traffic) {m : Move} (h : m.isLeave = true) :
    (s.step m).unheard = s.unheard := by
  cases m with
  | leave n => rfl
  | _ => contradiction

/-- What is heard makes no difference to what is done. -/
theorem unheard_run {s t : Traffic} (h : s.unheard = t.unheard) (moves : List Move) :
    (s.run moves).unheard = (t.run (moves.filter fun m => !m.isLeave)).unheard := by
  induction moves generalizing s t with
  | nil => exact h
  | cons m moves ih =>
    by_cases hleave : m.isLeave = true
    · rw [List.filter_cons_of_neg (by simp [hleave])]
      exact ih ((s.unheard_of_isLeave hleave).trans h)
    · rw [List.filter_cons_of_pos (by simp [hleave])]
      apply ih
      rw [unheard_step s, unheard_step t, h]

/-! ### Stops -/

namespace Sound

variable {e : Engine} {db : Database} {s : Traffic}

theorem stopped_of_asked (hphase : s.server.phase = .stopping) (hstage : s.stage = .asked)
    (hcount : s.server.inFlight = 0) :
    (s.run [.look, .finishStop]).server.phase = .stopped := by
  have hidle : s.server.isIdle = true := beq_iff_eq.2 hcount
  have hend : s.service.server.finishStop = some { s.server with phase := .stopped } :=
    (Server.finishStop_eq hphase).trans (if_pos hidle)
  rw [server, run_end hstage hphase, Service.finishStop, hend]
  rfl

/-- When nothing counts any more the stop that is under way can end. -/
theorem stopped_of_idle (h : Sound e db s) (hphase : s.server.phase = .stopping)
    (hcount : s.server.inFlight = 0) :
    ∃ moves : List Move, moves.all Move.isDrain ∧ (s.run moves).server.phase = .stopped := by
  cases hstage : s.stage with
  | before => exact absurd hstage (h.staged.1 hphase)
  | announced =>
    obtain ⟨hsame, hstopping⟩ := s.server.shutdown_stopping
    have hstep : s.step .shutdown = { s.turn s.server.shutdown.2 with stage := .asked } :=
      if_pos hstage
    refine ⟨[.shutdown, .look, .finishStop], rfl, ?_⟩
    rw [Traffic.run, hstep]
    exact stopped_of_asked hstopping rfl (hsame.trans hcount)
  | asked => exact ⟨[.look, .finishStop], rfl, stopped_of_asked hphase hstage hcount⟩
  | idle =>
    have hstep : s.step .finishStop = _ := if_pos hstage
    refine ⟨[.finishStop], rfl, ?_⟩
    rw [Traffic.run, hstep]
    rfl

/-- Each commit and each release brings a stop nearer to its end. -/
theorem exists_run_stopped (h : Sound e db s) (hphase : s.server.phase = .stopping)
    (now : Instant) :
    ∃ moves : List Move, moves.all Move.isDrain ∧ (s.run moves).server.phase = .stopped := by
  induction hleft : 2 * s.queue.length + s.held.length using Nat.strong_induction_on
    generalizing s with
  | _ left ih =>
  have hnext : ∀ m : Move, m.isDrain → (s.step m).server.phase = .stopping →
      2 * (s.step m).queue.length + (s.step m).held.length < left →
      ∃ moves : List Move, moves.all Move.isDrain ∧ (s.run moves).server.phase = .stopped := by
    intro m hm hphase hless
    obtain ⟨moves, hdrain, hstopped⟩ := ih _ hless (h.step m) hphase rfl
    exact ⟨m :: moves, by simp [hm, hdrain], hstopped⟩
  cases hqueue : s.queue with
  | cons c queue =>
    obtain ⟨n, o⟩ := c
    have hfirst : s.queue[0]? = some (n, o) := by rw [hqueue]; rfl
    have hstep := step_commit h.waiting hfirst now
    apply hnext (.commit 0 now) rfl
    · rw [hstep]
      exact hphase
    · rw [hqueue] at hleft
      simp only [List.length_cons] at hleft
      simp [hstep, hqueue]
      omega
  | nil =>
    cases hheld : s.held with
    | cons c held =>
      obtain ⟨n, answer⟩ := c
      have hfirst : s.held[0]? = some (n, answer) := by rw [hheld]; rfl
      have hstep := step_release hfirst
      apply hnext (.release 0) rfl
      · rw [hstep]
        exact hphase
      · rw [hqueue, hheld] at hleft
        simp only [List.length_cons, List.length_nil] at hleft
        simp [hstep, hqueue, hheld]
        omega
    | nil =>
      have hcount := h.count
      rw [hqueue, hheld] at hcount
      exact h.stopped_of_idle hphase hcount

end Sound

/-- **A stop drains.**  What counts is exactly what was accepted and is not finished, so that a
    count is never dropped below zero.  When a stop is over nothing counts, and everything that was
    ever accepted has been committed, once, and is finished.  Nothing is committed between a stop
    and the next call to listen that succeeds.  The database is that of the events that were
    committed, in the order of their commits; those that are refused change nothing.  Submitters who
    leave make no difference to any of it. -/
theorem stop_drains (e : Engine) (db : Database) (moves : List Move) :
    let s := (fresh e db).run moves
    (s.server.inFlight = (unfinishedIn s.log).length ∧ s.held.length ≤ s.server.inFlight) ∧
    ((acceptedIn s.log).map (·.1)).Nodup ∧
    ((committedIn s.log).map (·.1) ++ s.queue).Perm (acceptedIn s.log) ∧
    (finishedIn s.log ++ s.held.map (·.1)).Perm ((committedIn s.log).map (·.1.1)) ∧
    (s.server.phase = .stopped → s.server.inFlight = 0 ∧ Drained s.log) ∧
    DrainedAtStops s.log ∧
    Calm s.log ∧
    s.service.database = db.afterEvents e (committedIn s.log) ∧
    (∀ o, s.server.phase ≠ .accepting → (s.step (.submit o)).service = s.service) ∧
    (∀ a ∈ s.answers, Told e db (committedIn s.log) a.1 a.2) ∧
    let t := (fresh e db).run (moves.filter fun m => !m.isLeave)
    t.service = s.service ∧ t.log = s.log := by
  intro s
  have h : Sound e db s := (Sound.fresh e db).run moves
  have hunheard := unheard_run (s := fresh e db) rfl moves
  refine ⟨⟨?_, ?_⟩, h.books.nodup, h.books.ran, h.books.done, ?_, h.books.drained, h.books.calm,
    h.database, ?_, ?_, (congrArg (·.service) hunheard).symm, (congrArg (·.log) hunheard).symm⟩
  · rw [h.books.unfinished.length_eq, h.count]
    simp [Nat.add_comm]
  · rw [h.count]
    exact Nat.le_add_left _ _
  · intro hphase
    have hcount : s.server.inFlight = 0 := h.closed (by rw [hphase]; nofun) (by rw [hphase]; nofun)
    obtain ⟨hqueue, hheld⟩ := h.nothing hcount
    have hbooks := h.books
    rw [hqueue, hheld] at hbooks
    exact ⟨hcount, hbooks.drained_of_nothing⟩
  · intro o hphase
    simp only [step]
    rw [Service.submit_of_not_accepting hphase]
    rfl
  · intro a ha
    exact h.told a (List.mem_append_right _ ha)

/-- So a stop that comes when no event is between its commit and its release is itself a run, to
    which all of this applies. -/
theorem stop_of_run (e : Engine) (db : Database) (moves : List Move) (now : Instant)
    (hheld : ((fresh e db).run moves).held = []) :
    let s := (fresh e db).run moves
    (s.service.stop now).2 = ((fresh e db).run (moves ++ s.wholeStop now)).service := by
  intro s
  rw [run_append]
  exact stop_eq ((Sound.fresh e db).run moves).waiting hheld now

/-- A database with a root and a client that has joined it. -/
def joined : Database :=
  ((Session.fresh Session.plain).run
    [.registerClient ⟨1⟩ "c" ⟨0, 0⟩, .registerRoot "r" "o" "s" [] ⟨0, 0⟩,
      .joinRoot "r" ⟨1⟩ "s"]).db

/-- Two files are reported and the first submitter leaves.  The stop is announced; a report that
    comes too late is refused, and the stop sees that one event counts, then that the other does.
    Both become versions, and who has stayed is told of the one that it submitted. -/
theorem stop_among_submitters :
    let first : Observation :=
      { root := "r", path := "d", client := ⟨1⟩, hash := "k", stamp := .next }
    let second := { first with path := "e" }
    let moves : List Move :=
      [.beginStart, .finishStart, .listen, .submit first, .submit second, .leave 0,
        .commit 1 ⟨1, 0⟩, .beginStop, .submit first, .shutdown, .look, .finishStop, .release 0,
        .commit 0 ⟨2, 0⟩, .look, .finishStop, .release 0, .look, .finishStop]
    let s := (fresh Session.plain joined).run moves
    let v : Version :=
      { root := "r", before := none, after := "e", date := ⟨1, 0⟩, client := ⟨1⟩, timestamp := 1,
        hash := "k", change := .created }
    s.server.phase = .stopped ∧ s.server.inFlight = 0 ∧ Drained s.log ∧
      acceptedIn s.log = [(0, first), (1, second)] ∧
      s.service.database = Database.afterEvents Session.plain joined
        [((1, second), ⟨1, 0⟩), ((0, first), ⟨2, 0⟩)] ∧
      (s.answers.map fun a => (a.1, a.2.toOption)) = [(1, some (.recorded v))] ∧
      (History.get "r" "e" 1 s.service.database.records).answer.toOption = some v ∧
      (History.get "r" "d" 1 s.service.database.records).answer.toOption
        = some { v with after := "d", date := ⟨2, 0⟩ } := by
  intro first second moves s v
  have hphase : s.server.phase = .stopped := by decide +kernel
  have hcommitted : committedIn s.log = [((1, second), ⟨1, 0⟩), ((0, first), ⟨2, 0⟩)] := by
    decide +kernel
  have haccepted : acceptedIn s.log = [(0, first), (1, second)] := by decide +kernel
  have hs : (fresh Session.plain joined).run moves = s := rfl
  obtain ⟨-, -, -, -, hstopped, -, -, hdatabase, -⟩ := stop_drains Session.plain joined moves
  obtain ⟨hcount, hdrained⟩ := hstopped hphase
  rw [hs, hcommitted] at hdatabase
  exact ⟨hphase, hcount, hdrained, haccepted, hdatabase, by decide +kernel, by decide +kernel,
    by decide +kernel⟩

end Traffic

end SyncLedger
