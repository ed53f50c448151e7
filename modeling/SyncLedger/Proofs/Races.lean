/-
  SyncLedger/Proofs/Races.lean
  ============================
  **Events that race lose nothing and double nothing.**  Calls to record an event interleave at
  their attempts: each attempt is one transaction, and between its attempts a call keeps only the
  observation as it will be made next and the delays that are left.  A race is run by a schedule,
  which names the call that moves next and the time (`Race.run`).

  A step commits at most one version, that of the call that moves, and a call that is answered
  does not move again (`Race.Sound.attempt`).  From one step to the next the journal grows by
  what was committed (`Journal.ShownIn.reconcile`), so the timestamps of each path increase
  whatever the order is, whoever holds a stale stamp takes a greater one, and a rename that moves
  the floor of two paths is a version of both.

  The attempts of a race are those of the engine: a call that moves alone is answered as the engine
  answers it, and leaves the same table (`Race.run_alone`).
-/
import SyncLedger.Proofs.Conflicts
import SyncLedger.Proofs.Delays
import SyncLedger.Proofs.Reached

namespace SyncLedger

variable {o o' : Observation} {s t : Records} {now : Instant} {v : Version}

/-! ### Stamps -/

/-- Both leave the choice, or the second asks for a timestamp that is not smaller. -/
def Stamp.AtMost : Stamp → Stamp → Prop
  | .next, .next => True
  | .exact ts, .exact us => ts ≤ us
  | _, _ => False

namespace Stamp.AtMost

variable {a b c : Stamp}

theorem refl (a : Stamp) : a.AtMost a := by
  cases a with
  | exact ts => exact UInt64.le_refl ts
  | next => trivial

theorem trans (h : a.AtMost b) (h' : b.AtMost c) : a.AtMost c := by
  cases a <;> cases b <;> cases c <;> simp only [AtMost] at h h' ⊢
  exact UInt64.le_trans h h'

theorem exact {ts : UInt64} (h : (Stamp.exact ts).AtMost b) : ∃ us, b = .exact us ∧ ts ≤ us := by
  cases b with
  | exact us => exact ⟨us, rfl, h⟩
  | next => exact h.elim

end Stamp.AtMost

/-- A conflict moves a stamp up or leaves it. -/
theorem Observation.afterConflict_later {latest : UInt64} (h : o.afterConflict latest = some o') :
    ∃ stamp, o' = { o with stamp } ∧ o.stamp.AtMost stamp := by
  unfold afterConflict at h
  split at h
  · obtain rfl := Option.some.inj h
    exact ⟨o.stamp, rfl, .refl _⟩
  · rename_i ts hts
    split at h
    · obtain rfl := Option.some.inj h
      exact ⟨o.stamp, rfl, .refl _⟩
    · rename_i hle
      split at h
      · contradiction
      · rename_i hmax
        obtain rfl := Option.some.inj h
        refine ⟨_, rfl, ?_⟩
        rw [hts]
        have hbound := latest.toNat_lt
        have hne : latest.toNat ≠ 0xFFFFFFFFFFFFFFFF := fun heq => hmax (UInt64.toNat_inj.1 heq)
        rw [UInt64.lt_iff_toNat_lt] at hle
        show ts ≤ latest + 1
        rw [UInt64.le_iff_toNat_le, UInt64.toNat_add, UInt64.toNat_one]
        omega

theorem Observation.exact_of_timestampAbove {floor ts us : UInt64}
    (h : o.timestampAbove floor = .ok us) (hts : o.stamp = .exact ts) : ts = us := by
  unfold timestampAbove at h
  rw [hts] at h
  dsimp only at h
  split at h
  · exact Except.ok.inj h
  · contradiction

/-- A version that is recorded is that of the observation, at the time asked for if one was. -/
theorem Files.recorded_of_reconcile (h : Files.reconcile o now t = .ok (.recorded v, s)) :
    ∃ current source ts, v = o.versionAt current source now ts ∧
      ∀ us, o.stamp = .exact us → us = ts := by
  obtain ⟨-, -, -, current, source, -, -, hcases⟩ := Files.reconcile_ok h
  rcases hcases with ⟨f, -, hrefresh⟩ | hrecord
  · obtain ⟨hduplicate, -⟩ := Files.refresh_ok hrefresh
    contradiction
  · obtain ⟨ts, hts, -, hd, -⟩ := Files.record_eq_ok_iff.1 hrecord
    exact ⟨current, source, ts, Decision.recorded.inj hd,
      fun us hus => Observation.exact_of_timestampAbove hts hus⟩

/-! ### Callers -/

namespace Attempt

/-- The first attempt of a call. -/
def first (o : Observation) (retry : RetryConfig) : Attempt :=
  { observation := o, backoff := { base := retry.baseDelayMs, budget := retry.maxAttempts } }

/-- An attempt that a call may come to after so many others: it has spent one delay for each of
    them, and only the stamp has changed, upwards. -/
structure Follows (o : Observation) (retry : RetryConfig) (made : Nat) (a : Attempt) : Prop where
  budget : a.backoff.budget = retry.maxAttempts
  used : a.backoff.used.toNat = made
  within : made ≤ retry.maxAttempts.toNat
  stamp : ∃ stamp, a.observation = { o with stamp } ∧ o.stamp.AtMost stamp

theorem follows_first (o : Observation) (retry : RetryConfig) : (first o retry).Follows o retry 0 :=
  ⟨rfl, rfl, Nat.zero_le _, o.stamp, rfl, .refl _⟩

/-- The version that an attempt has committed. -/
def committed? : Except Error Decision → Option Version
  | .ok d => d.version?
  | .error _ => none

/-- An attempt decides, or it failed and another follows. -/
theorem Follows.judge {retry : RetryConfig} {made : Nat} {a : Attempt} (h : a.Follows o retry made)
    (outcome : Except Error Decision) : a.judge outcome = .done outcome ∨
      ∃ e wait next, outcome = .error e ∧ a.judge outcome = .again wait next ∧
        next.Follows o retry (made + 1) := by
  cases hjudge : a.judge outcome with
  | done answer => exact Or.inl (congrArg _ (judge_done hjudge))
  | again wait next =>
    obtain ⟨key, latest, rfl, hnext, hafter⟩ := conflict_of_judge hjudge
    obtain ⟨hbudget, hused, hlt⟩ := Backoff.used_of_next hnext
    obtain ⟨stamp, hstamp, hlater⟩ := h.stamp
    obtain ⟨stamp', hobservation, hlater'⟩ := Observation.afterConflict_later hafter
    rw [hstamp] at hobservation hlater'
    rw [h.budget, h.used] at hlt
    rw [h.budget] at hbudget
    rw [h.used] at hused
    exact Or.inr ⟨_, wait, next, rfl, rfl, hbudget, hused, hlt, stamp', hobservation,
      hlater.trans hlater'⟩

theorem Follows.fits {retry : RetryConfig} {made : Nat} {a : Attempt} (h : a.Follows o retry made)
    (ho : o.Fits) : a.observation.Fits := by
  obtain ⟨stamp, hstamp, -⟩ := h.stamp
  rw [hstamp]
  exact ⟨ho.root, ho.path, ho.hash, ho.metadata, ho.former⟩

/-- What a later attempt records is a version of the call, and not before the time it asked for. -/
theorem Follows.versionAt {retry : RetryConfig} {made : Nat} {a : Attempt}
    (h : a.Follows o retry made) {current source : Option File} {ts : UInt64}
    (hts : ∀ us, a.observation.stamp = .exact us → us = ts) :
    a.observation.versionAt current source now ts = o.versionAt current source now ts ∧
      ∀ us, o.stamp = .exact us → us ≤ ts := by
  obtain ⟨stamp, hstamp, hlater⟩ := h.stamp
  rw [hstamp] at hts ⊢
  refine ⟨rfl, fun us hus => ?_⟩
  rw [hus] at hlater
  obtain ⟨vs, rfl, hle⟩ := hlater.exact
  obtain rfl := hts vs rfl
  exact hle

end Attempt

/-- A call to record an event: how many attempts it has made, and what follows the last. -/
structure Caller where
  made : Nat
  verdict : Verdict

/-- What a call has committed agrees with what it was answered.  As long as it is not answered that
    is nothing. -/
structure Caller.Sound (o : Observation) (retry : RetryConfig) (vs : List Version) (c : Caller) :
    Prop where
  attempts : c.made ≤ retry.maxAttempts.toNat + 1
  recorded : ∀ v, c.verdict = .done (.ok (.recorded v)) → vs = [v] ∧
    (∃ current source now ts, v = o.versionAt current source now ts) ∧
    ∀ ts, o.stamp = .exact ts → ts ≤ v.timestamp
  nothing : (∀ v, c.verdict ≠ .done (.ok (.recorded v))) → vs = []
  pending : ∀ wait a, c.verdict = .again wait a → a.Follows o retry c.made

/-- What a call has committed after an attempt agrees with what follows the attempt. -/
theorem Attempt.Follows.sound {retry : RetryConfig} {made : Nat} {a : Attempt}
    (h : a.Follows o retry made) {outcome : Except Error Decision}
    (hrecorded : ∀ v, outcome = .ok (.recorded v) →
      (∃ current source now ts, v = o.versionAt current source now ts) ∧
        ∀ ts, o.stamp = .exact ts → ts ≤ v.timestamp) :
    Caller.Sound o retry (committed? outcome).toList ⟨made + 1, a.judge outcome⟩ := by
  have hattempts : made + 1 ≤ retry.maxAttempts.toNat + 1 := Nat.succ_le_succ h.within
  rcases h.judge outcome with hdone | ⟨e, wait, next, rfl, hagain, hnext⟩
  · rw [hdone]
    constructor
    case attempts => exact hattempts
    case recorded =>
      intro v hv
      obtain rfl := Verdict.done.inj hv
      exact ⟨rfl, hrecorded v rfl⟩
    case nothing =>
      intro hother
      rcases outcome with e | ⟨v | f⟩
      · rfl
      · exact absurd rfl (hother v)
      · rfl
    case pending =>
      intro wait a ha
      contradiction
  · rw [hagain]
    constructor
    case attempts => exact hattempts
    case recorded =>
      intro v hv
      contradiction
    case nothing =>
      intro _
      rfl
    case pending =>
      intro wait' a' ha
      obtain ⟨-, rfl⟩ := Verdict.again.inj ha
      exact hnext

/-! ### Races -/

/-- Calls that race over one table, and what was committed, by which of them, oldest first. -/
structure Race (ι : Type) where
  records : Records
  callers : ι → Caller
  log : List (ι × Version)

namespace Race

variable {ι : Type}

/-- No attempt has been made. -/
def start (t : Records) (calls : ι → Observation × RetryConfig) : Race ι where
  records := t
  callers i := ⟨0, .again 0 (.first (calls i).1 (calls i).2)⟩
  log := []

/-- The versions committed for one path. -/
def commitsAt (race : Race ι) (r p : String) : List Version :=
  (race.log.map (·.2)).filter fun v => r = v.root ∧ v.Touches p

/-- A journal with all that was committed. -/
def journal (race : Race ι) (j : Journal) : Journal :=
  (race.log.map (·.2)).foldl Journal.record j

theorem journal_append (race : Race ι) (j : Journal) (i : ι) (v : Option Version)
    (records : Records) (callers : ι → Caller) :
    journal ⟨records, callers, race.log ++ v.toList.map (i, ·)⟩ j = (race.journal j).advance v := by
  cases v with
  | none => simp [journal, Journal.advance]
  | some v => simp [journal, Journal.advance]

theorem journal_eq (race : Race ι) (j : Journal) (r p : String) :
    race.journal j r p = j r p ++ race.commitsAt r p := by
  unfold journal commitsAt
  induction race.log.map (·.2) generalizing j with
  | nil => exact (List.append_nil _).symm
  | cons v vs ih =>
    rw [List.foldl_cons, ih]
    by_cases htouched : r = v.root ∧ v.Touches p
    · simp [Journal.record, htouched]
    · simp [Journal.record, htouched]

variable [DecidableEq ι]

/-- One call makes its next attempt, as one transaction; a call that was answered does nothing. -/
def attempt (race : Race ι) (i : ι) (now : Instant) : Race ι :=
  match (race.callers i).verdict with
  | .done _ => race
  | .again _ a =>
    let (outcome, t) := (Files.observe a.observation now).outcome race.records
    { records := t
      callers := Function.update race.callers i ⟨(race.callers i).made + 1, a.judge outcome⟩
      log := race.log ++ (Attempt.committed? outcome).toList.map (i, ·) }

/-- Calls make their attempts in the order of a schedule. -/
def run (race : Race ι) (schedule : List (ι × Instant)) : Race ι :=
  schedule.foldl (fun race turn => race.attempt turn.1 turn.2) race

/-- The versions that one call has committed. -/
def commitsOf (race : Race ι) (i : ι) : List Version := (race.log.filter (·.1 = i)).map (·.2)

theorem commitsOf_append (race : Race ι) (i k : ι) (v : Option Version) (records : Records)
    (callers : ι → Caller) :
    commitsOf ⟨records, callers, race.log ++ v.toList.map (i, ·)⟩ k
      = race.commitsOf k ++ if i = k then v.toList else [] := by
  cases v with
  | none => simp [commitsOf]
  | some v =>
    by_cases hik : i = k
    · simp [commitsOf, hik]
    · simp [commitsOf, hik]

/-! ### One attempt -/

variable {race : Race ι} {i : ι} {j : Journal} {calls : ι → Observation × RetryConfig}
  {turns : ι → Nat}

theorem attempt_done {answer : Except Error Decision}
    (h : (race.callers i).verdict = .done answer) (now : Instant) : race.attempt i now = race := by
  rw [attempt, h]

theorem attempt_again {wait : UInt64} {a : Attempt}
    (h : (race.callers i).verdict = .again wait a) {outcome : Except Error Decision}
    (houtcome : (Files.observe a.observation now).outcome race.records = (outcome, t)) :
    race.attempt i now =
      { records := t
        callers := Function.update race.callers i ⟨(race.callers i).made + 1, a.judge outcome⟩
        log := race.log ++ (Attempt.committed? outcome).toList.map (i, ·) } := by
  simp only [attempt, h, houtcome]

/-- What is true of a race over a table with the journal `j`, when each call has had so many
    turns. -/
structure Sound (j : Journal) (calls : ι → Observation × RetryConfig) (turns : ι → Nat)
    (race : Race ι) : Prop where
  shown : (race.journal j).ShownIn race.records
  caller : ∀ i, (race.callers i).Sound (calls i).1 (calls i).2 (race.commitsOf i)
  turn : ∀ i wait a, (race.callers i).verdict = .again wait a → (race.callers i).made = turns i

/-- One transaction commits the version that it answers with, or nothing. -/
theorem observe_shown (h : j.ShownIn s) (ho : o.Fits) (hnow : now.Representable) :
    ∃ outcome t, (Files.observe o now).outcome s = (outcome, t) ∧
      (j.advance (Attempt.committed? outcome)).ShownIn t ∧
      ∀ v, outcome = .ok (.recorded v) → ∃ current source ts,
        v = o.versionAt current source now ts ∧ ∀ us, o.stamp = .exact us → us = ts := by
  rw [Attempt.observe_outcome]
  cases hd : Files.reconcile o now s with
  | error e => exact ⟨_, _, rfl, h, by simp⟩
  | ok r =>
    refine ⟨_, _, rfl, h.reconcile ho hnow hd, ?_⟩
    intro v hv
    rw [show r = (r.1, r.2) from rfl, Except.ok.inj hv] at hd
    exact Files.recorded_of_reconcile hd

theorem Sound.attempt (h : race.Sound j calls turns) (hcalls : ∀ i, (calls i).1.Fits) (i : ι)
    (hnow : now.Representable) :
    (race.attempt i now).Sound j calls (Function.update turns i (turns i + 1)) := by
  cases hverdict : (race.callers i).verdict with
  | done answer =>
    rw [attempt_done hverdict]
    refine ⟨h.shown, h.caller, ?_⟩
    intro k wait a hk
    have hne : k ≠ i := by
      rintro rfl
      rw [hverdict] at hk
      contradiction
    rw [Function.update_of_ne hne, h.turn k wait a hk]
  | again wait a =>
    have hfollows := (h.caller i).pending wait a hverdict
    have hnothing : race.commitsOf i = [] := (h.caller i).nothing (by simp [hverdict])
    obtain ⟨outcome, t, houtcome, hshown, hrecorded⟩ :=
      observe_shown h.shown (hfollows.fits (hcalls i)) hnow
    have hanswered : ∀ v, outcome = .ok (.recorded v) →
        (∃ current source now ts, v = (calls i).1.versionAt current source now ts) ∧
          ∀ ts, (calls i).1.stamp = .exact ts → ts ≤ v.timestamp := by
      intro v hv
      obtain ⟨current, source, ts, rfl, hexact⟩ := hrecorded v hv
      obtain ⟨hsame, hle⟩ := hfollows.versionAt hexact
      exact ⟨⟨current, source, now, ts, hsame⟩, hle⟩
    have hsound := hfollows.sound hanswered
    rw [attempt_again hverdict houtcome]
    constructor
    case shown =>
      rw [journal_append]
      exact hshown
    case caller =>
      intro k
      rw [commitsOf_append]
      dsimp only
      by_cases hk : i = k
      · subst hk
        rw [Function.update_self, if_pos rfl, hnothing, List.nil_append]
        exact hsound
      · rw [Function.update_of_ne (Ne.symm hk), if_neg hk, List.append_nil]
        exact h.caller k
    case turn =>
      intro k wait' a' hk
      dsimp only at hk ⊢
      by_cases hik : k = i
      · subst hik
        rw [Function.update_self, Function.update_self, h.turn k wait a hverdict]
      · rw [Function.update_of_ne hik] at hk
        rw [Function.update_of_ne hik, Function.update_of_ne hik]
        exact h.turn k wait' a' hk

/-! ### Whole races -/

theorem run_cons (race : Race ι) (turn : ι × Instant) (schedule : List (ι × Instant)) :
    race.run (turn :: schedule) = (race.attempt turn.1 turn.2).run schedule := rfl

theorem Sound.run (h : race.Sound j calls turns) (hcalls : ∀ i, (calls i).1.Fits)
    {schedule : List (ι × Instant)} (hschedule : ∀ turn ∈ schedule, turn.2.Representable) :
    (race.run schedule).Sound j calls fun i => turns i + schedule.countP (·.1 = i) := by
  induction schedule generalizing race turns with
  | nil => exact h
  | cons turn schedule ih =>
    obtain ⟨hnow, hrest⟩ := List.forall_mem_cons.1 hschedule
    have hall := ih (h.attempt hcalls turn.1 hnow) hrest
    rw [run_cons]
    refine ⟨hall.shown, hall.caller, fun k wait a hk => ?_⟩
    rw [hall.turn k wait a hk, List.countP_cons]
    by_cases hik : k = turn.1
    · subst hik
      rw [Function.update_self]
      simp only [decide_true, if_true]
      omega
    · rw [Function.update_of_ne hik]
      simp [Ne.symm hik]

theorem sound_start (h : j.ShownIn t) (calls : ι → Observation × RetryConfig) :
    (start t calls).Sound j calls fun _ => 0 where
  shown := h
  caller i := by
    constructor
    case attempts => exact Nat.zero_le _
    case recorded =>
      intro v hv
      contradiction
    case nothing =>
      intro _
      rfl
    case pending =>
      intro wait a ha
      obtain ⟨-, rfl⟩ := Verdict.again.inj ha
      exact Attempt.follows_first _ _
  turn i wait a ha := rfl

theorem run_done {answer : Except Error Decision}
    (h : (race.callers i).verdict = .done answer) (now : Instant) (n : Nat) :
    race.run (List.replicate n (i, now)) = race := by
  induction n with
  | zero => rfl
  | succ n ih => rw [List.replicate_succ, run_cons, attempt_done h, ih]

/-- A call that is alone is answered as the engine answers it, and leaves what the engine
    leaves. -/
theorem run_alone {wait : UInt64} {a : Attempt} (h : (race.callers i).verdict = .again wait a)
    (now : Instant) {n : Nat} (hn : a.left < n) :
    let after := race.run (List.replicate n (i, now))
    (after.callers i).verdict = .done ((a.run now).outcome race.records).1 ∧
      after.records = ((a.run now).outcome race.records).2 := by
  induction n generalizing race wait a with
  | zero => contradiction
  | succ n ih =>
    obtain ⟨outcome, t, houtcome⟩ :
        ∃ outcome t, (Files.observe a.observation now).outcome race.records = (outcome, t) :=
      ⟨_, _, rfl⟩
    have hnext := attempt_again h houtcome
    have hverdict : ((race.attempt i now).callers i).verdict = a.judge outcome := by
      rw [hnext]
      dsimp only
      rw [Function.update_self]
    have hrecords : (race.attempt i now).records = t := by rw [hnext]
    rw [List.replicate_succ, run_cons, Attempt.outcome_run, houtcome]
    cases hjudge : a.judge outcome with
    | done answer =>
      rw [hjudge] at hverdict
      rw [run_done hverdict]
      exact ⟨hverdict, hrecords⟩
    | again wait' next =>
      rw [hjudge] at hverdict
      have hless := Attempt.left_of_judge hjudge
      have halone := ih hverdict (by omega)
      rw [hrecords] at halone
      exact halone

/-- **Racing events lose nothing and double nothing.**  Take any table that can be met, any calls
    to record an event, and any order of their attempts.  A call that is answered with a version
    has committed that version, once, at a timestamp no smaller than the one it asked for; a call
    that is answered with a duplicate or an error, or not yet, has committed none.  No call makes
    more attempts than its budget and one, and one that had so many turns is answered.

    The listing of every path is what it was, with the versions committed for the path in the
    order of their commits; all its timestamps increase strictly; and the latest state of the path
    is what the last of them left. -/
theorem race_exact (ht : Reached t) (calls : ι → Observation × RetryConfig)
    (hcalls : ∀ i, (calls i).1.Fits) (schedule : List (ι × Instant))
    (hschedule : ∀ turn ∈ schedule, turn.2.Representable) :
    let race := (start t calls).run schedule
    (∀ i, (race.callers i).Sound (calls i).1 (calls i).2 (race.commitsOf i)) ∧
    (∀ i, (calls i).2.maxAttempts.toNat < schedule.countP (·.1 = i) →
      ∃ answer, (race.callers i).verdict = .done answer) ∧
    ∀ r p, Short r → Short p →
      (∃ vs, (History.list (.path r p) t).answer = .ok vs ∧
        (History.list (.path r p) race.records).answer = .ok (vs ++ race.commitsAt r p) ∧
        (vs ++ race.commitsAt r p).Pairwise (·.timestamp < ·.timestamp)) ∧
      ∀ v, (race.commitsAt r p).getLast? = some v →
        ∃ m, (Files.latest r p race.records).answer = .ok (v.fileAt p m) := by
  intro race
  obtain ⟨j, hj⟩ := ht.shown
  obtain ⟨hshown, hcallers, hturns⟩ := (sound_start hj calls).run hcalls hschedule
  refine ⟨hcallers, ?_, ?_⟩
  · intro i hi
    cases hverdict : (race.callers i).verdict with
    | done answer => exact ⟨answer, rfl⟩
    | again wait a =>
      have hwithin := ((hcallers i).pending wait a hverdict).within
      rw [hturns i wait a hverdict] at hwithin
      omega
  · intro r p hr hp
    have hafter := race.journal_eq j r p
    refine ⟨⟨j r p, hj.answer_list hr hp, ?_, ?_⟩, ?_⟩
    · rw [← hafter]
      exact hshown.answer_list hr hp
    · rw [← hafter]
      exact (hshown.isHistory hr hp).increasing
    · intro v hv
      apply hshown.answer_latest hr hp
      rw [hafter, List.getLast?_append, hv]
      rfl

/-- Three calls ask for the same timestamp, two for one path and the third to move it away; the
    fourth is for a path that is being removed. -/
def collision (i : Fin 4) : Observation × RetryConfig :=
  let seen : Observation :=
    { root := "r", path := "a", client := ⟨1⟩, hash := "x", stamp := .exact 2 }
  let o : Observation := match i with
    | 0 => seen
    | 1 => { seen with hash := "y" }
    | 2 => { seen with path := "c", renamedFrom := some "a" }
    | 3 => { seen with path := "b" }
  (o, { maxAttempts := 3 })

theorem collision_fits (i : Fin 4) : (collision i).1.Fits := by
  have hnames : ∀ i, Short (collision i).1.root ∧ Short (collision i).1.path ∧
      Short (collision i).1.hash ∧ (collision i).1.metadata.modified = none ∧
      ∀ p ∈ (collision i).1.renamedFrom, Short p := by decide
  obtain ⟨hroot, hpath, hhash, hnone, hformer⟩ := hnames i
  refine ⟨hroot, hpath, hhash, ?_, hformer⟩
  intro t ht
  rw [hnone] at ht
  contradiction

/-- The first to commit keeps the timestamp and the others move on, the move being a version of
    both paths; the last gives up. -/
theorem race_of_collision :
    let t := Files.detached "r" "b" ((Session.fresh Session.plain).run Session.twoRoots).records
    let schedule : List (Fin 4 × Instant) :=
      (List.replicate 4 [0, 1, 2, 3]).flatten.map (·, ⟨0, 0⟩)
    let race := (start t collision).run schedule
    Reached t ∧ race.log.map (fun c => (c.1, c.2.timestamp)) = [(0, 2), (1, 3), (2, 4)] ∧
      (∀ i, ∃ answer, (race.callers i).verdict = .done answer) ∧
      (race.callers 3).made ≤ 4 ∧ race.commitsOf 3 = [] ∧
      ∃ vs, (History.list (.path "r" "a") t).answer = .ok vs ∧
        (History.list (.path "r" "a") race.records).answer
          = .ok (vs ++ race.commitsAt "r" "a") := by
  intro t schedule race
  have ht : Reached t := by
    refine .between Session.plain Session.twoRoots_fits Removal.stepwise (m := .path "r" "b") ?_ ?_
      .refl
    · exact ⟨by decide, by decide⟩
    · decide +kernel
  have hschedule : ∀ turn ∈ schedule, turn.2.Representable := by
    intro turn hturn
    obtain ⟨i, -, rfl⟩ := List.mem_map.1 hturn
    show Instant.Representable ⟨0, 0⟩
    exact ⟨by decide, by decide⟩
  have hturns : ∀ i, (collision i).2.maxAttempts.toNat < schedule.countP (·.1 = i) := by
    decide +kernel
  have hexact := race_exact ht collision collision_fits schedule hschedule
  rw [show (start t collision).run schedule = race from rfl] at hexact
  obtain ⟨hcallers, hanswered, hpaths⟩ := hexact
  obtain ⟨⟨vs, hbefore, hafter, -⟩, -⟩ := hpaths "r" "a" (by decide) (by decide)
  refine ⟨ht, by decide +kernel, ?_, ?_, by decide +kernel, vs, hbefore, hafter⟩
  · intro i
    exact hanswered i (hturns i)
  · exact (hcallers 3).attempts

end Race

end SyncLedger
