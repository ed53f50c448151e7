/-
  SyncLedger/Proofs/Retries.lean
  ==============================
  **Trying again is asking for a timestamp that is free.**  A call to record an event makes one
  observation after another, at most one more than it has delays (`Attempt.length_again_le`), and
  what it does is what these do in turn (`Attempt.run_eq_inTurn`).

  There are two reasons for a conflict (`Sight.conflict_cases`).  Over a path that is being removed
  the stamp has no part in it, so every attempt meets the same one.  Otherwise the timestamp that
  was asked for is not above the floor.  The first one above it is free, as no other caller comes
  in between, and the second attempt takes it (`Sight.first_after`).
-/
import SyncLedger.Proofs.Races
import SyncLedger.Proofs.Redelivery

namespace SyncLedger

variable {t : Records} {o : Observation} {see : Sight} {now : Instant} {stamp : Stamp}

/-! ### The observations of a call -/

/-- Makes observations one after another, whatever becomes of them; the last one answers. -/
def Files.inTurn (now : Instant) : Observation → List Observation → Op Decision
  | o, [] => observe o now
  | o, next :: rest => do
    let _ ← Op.attempt (observe o now)
    inTurn now next rest

theorem Files.inTurn_cons (next : Observation) (rest : List Observation) :
    inTurn now o (next :: rest) t =
      let r := observe o now t
      let r' := inTurn now next rest (r.final t)
      ⟨r.commits ++ r'.commits, r'.answer⟩ :=
  rfl

namespace Attempt

variable {a next : Attempt} {answer : Except Error Decision} {wait : UInt64}

/-- The observations that are made after the first, in order. -/
def again (a : Attempt) (now : Instant) (t : Records) : List Observation :=
  match _h : a.judge (Files.observe a.observation now t).answer with
  | .done _ => []
  | .again _ next =>
    next.observation :: next.again now ((Files.observe a.observation now t).final t)
termination_by a.left
decreasing_by exact left_of_judge _h

theorem again_of_done (h : a.judge (Files.observe a.observation now t).answer = .done answer) :
    a.again now t = [] := by
  rw [again]
  split
  · rfl
  · rename_i hagain
    rw [h] at hagain
    contradiction

theorem again_of_again (h : a.judge (Files.observe a.observation now t).answer = .again wait next) :
    a.again now t
      = next.observation :: next.again now ((Files.observe a.observation now t).final t) := by
  rw [again]
  split
  · rename_i hdone
    rw [h] at hdone
    contradiction
  · rename_i hagain
    obtain ⟨-, rfl⟩ := Verdict.again.inj (h.symm.trans hagain)
    rfl

theorem run_of_done (h : a.judge (Files.observe a.observation now t).answer = .done answer) :
    a.run now t = Files.observe a.observation now t := by
  rw [run]
  simp only [Op.attempt]
  split
  · rename_i hdone
    rw [judge_done hdone]
  · rename_i hagain
    rw [h] at hagain
    contradiction

theorem run_of_again (h : a.judge (Files.observe a.observation now t).answer = .again wait next) :
    a.run now t =
      let r := Files.observe a.observation now t
      let r' := next.run now (r.final t)
      ⟨r.commits ++ r'.commits, r'.answer⟩ := by
  rw [run]
  simp only [Op.attempt]
  split
  · rename_i hdone
    rw [h] at hdone
    contradiction
  · rename_i hagain
    obtain ⟨-, rfl⟩ := Verdict.again.inj (h.symm.trans hagain)
    rfl

/-- An observation that fails leaves the table to the next one as it was. -/
theorem run_of_refused {e : Error} (h : Files.observe a.observation now t = ⟨[], .error e⟩)
    (hj : a.judge (.error e) = .again wait next) : a.run now t = next.run now t := by
  have hagain : a.judge (Files.observe a.observation now t).answer = .again wait next := h ▸ hj
  rw [run_of_again hagain]
  simp only [h]
  rfl

/-- Every further observation uses up a delay. -/
theorem length_again_le (a : Attempt) (now : Instant) (t : Records) :
    (a.again now t).length ≤ a.left := by
  induction hn : a.left using Nat.strong_induction_on generalizing a t with
  | _ n ih =>
    subst hn
    cases hj : a.judge (Files.observe a.observation now t).answer with
    | done answer => simp [again_of_done hj]
    | again wait next =>
      have hless := left_of_judge hj
      have hrest := ih _ hless next ((Files.observe a.observation now t).final t) rfl
      rw [again_of_again hj, List.length_cons]
      omega

/-- A call does what its observations do in turn. -/
theorem run_eq_inTurn (a : Attempt) (now : Instant) (t : Records) :
    a.run now t = Files.inTurn now a.observation (a.again now t) t := by
  induction hn : a.left using Nat.strong_induction_on generalizing a t with
  | _ n ih =>
    subst hn
    cases hj : a.judge (Files.observe a.observation now t).answer with
    | done answer => rw [run_of_done hj, again_of_done hj, Files.inTurn]
    | again wait next =>
      have hrest := ih _ (left_of_judge hj) next ((Files.observe a.observation now t).final t) rfl
      rw [run_of_again hj, again_of_again hj, Files.inTurn_cons]
      simp only [hrest]

end Attempt

/-! ### What the stamp has a part in -/

/-- The timestamp after one that is not the last. -/
theorem toNat_after {ts : UInt64} (h : ts ≠ 0xFFFFFFFFFFFFFFFF) :
    (ts + 1).toNat = ts.toNat + 1 := by
  have hbound := ts.toNat_lt
  have hne : ts.toNat ≠ 0xFFFFFFFFFFFFFFFF := fun heq => h (UInt64.toNat_inj.1 heq)
  rw [UInt64.toNat_add, UInt64.toNat_one]
  omega

namespace Sight

/-- The lines that are taken before the stamp is looked at. -/
def early (see : Sight) (o : Observation) (now : Instant) : List Row := (see.rows o now).take 8

/-- No line applies before the stamp is looked at. -/
def Late (see : Sight) (o : Observation) (now : Instant) : Prop :=
  (see.early o now).find? (·.applies) = none

/-- Where an early line applies, every stamp comes to the same. -/
theorem first_of_early {row : Row} (h : (see.early o now).find? (·.applies) = some row)
    (stamp : Stamp) : see.first { o with stamp } now = row := by
  have hsplit : see.rows { o with stamp } now
      = see.early o now ++ (see.rows { o with stamp } now).drop 8 := rfl
  have hfirst := find?_rows see { o with stamp } now
  rw [hsplit, List.find?_append, h] at hfirst
  exact (Option.some.inj hfirst).symm

namespace Late

variable (h : see.Late o now)
include h

theorem restamp (stamp : Stamp) : see.Late { o with stamp } now := h

theorem find? : ((see.rows o now).drop 8).find? (·.applies) = some (see.first o now) := by
  have hsplit : see.rows o now = see.early o now ++ (see.rows o now).drop 8 := rfl
  have hfirst := find?_rows see o now
  rw [hsplit, List.find?_append, h] at hfirst
  exact hfirst

/-- The stamp is stale, there is no timestamp left, or a version is recorded. -/
theorem cases :
    (o.stamp.isStale (see.floor o) = true ∧
      (see.first o now).answer = .error (.conflict (place o.root o.path) (see.floor o))) ∨
    (o.stamp.isSpent (see.floor o) = true ∧ (see.first o now).answer
      = .error (.invalidArgument (.noTimestampLeft o.root o.path (see.floor o)))) ∨
    (o.stamp.isStale (see.floor o) = false ∧
      (see.first o now).answer = .ok (.recorded (see.version o now))) := by
  rcases Row.find?_cons_cases h.find? with ⟨hstale, hfirst⟩ | ⟨hlate, hrest⟩
  · exact Or.inl ⟨hstale, congrArg Row.answer hfirst.symm⟩
  rcases Row.find?_cons_cases hrest with ⟨hspent, hfirst⟩ | ⟨-, hlast⟩
  · exact Or.inr (Or.inl ⟨hspent, congrArg Row.answer hfirst.symm⟩)
  · exact Or.inr (Or.inr ⟨hlate, congrArg Row.answer (Option.some.inj hlast).symm⟩)

/-- No path of the observation is being removed. -/
theorem unmarked {p : String} (hp : o.Concerns p) : see.marked p = false := by
  have hnone {row : Row} (hrow : row ∈ see.early o now) : row.applies = false := by
    simpa using List.find?_eq_none.1 h row hrow
  have htarget : see.marked o.path = false :=
    hnone (List.mem_of_getElem? (i := 4) rfl)
  have horigin : (o.moves && see.marked o.origin) = false :=
    hnone (List.mem_of_getElem? (i := 5) rfl)
  rcases hp with rfl | rfl
  · exact htarget
  · cases hmoves : o.moves with
    | false => exact Observation.origin_eq_path hmoves ▸ htarget
    | true => simpa [hmoves] using horigin

/-- The timestamp after the floor is free. -/
theorem first_after (hfloor : see.floor o ≠ 0xFFFFFFFFFFFFFFFF) :
    (see.first { o with stamp := .exact (see.floor o + 1) } now).answer = .ok (.recorded
      (see.version { o with stamp := .exact (see.floor o + 1) } now)) := by
  have hnext := toNat_after hfloor
  have hlate : (Stamp.exact (see.floor o + 1)).isStale (see.floor o) = false := by
    simp only [Stamp.isStale, decide_eq_false_iff_not, UInt64.le_iff_toNat_le]
    omega
  rcases (h.restamp (.exact (see.floor o + 1))).cases with ⟨hstale, -⟩ | ⟨hspent, -⟩ | ⟨-, hlast⟩
  · exact absurd (hlate.symm.trans hstale) Bool.false_ne_true
  · exact absurd hspent Bool.false_ne_true
  · exact hlast

end Late

/-- An early line that is a conflict is about a path that is being removed. -/
theorem marked_of_early {row : Row} (hrow : row ∈ see.early o now) (happlies : row.applies = true)
    {key : String} {latest : UInt64} (h : row.answer = .error (.conflict key latest)) :
    latest = 0 ∧ ∃ p, o.Concerns p ∧ see.marked p = true := by
  simp only [early, rows, List.take_succ_cons, List.take_zero, List.mem_cons, List.not_mem_nil,
    or_false] at hrow
  rcases hrow with rfl | rfl | rfl | rfl | rfl | rfl | rfl | rfl
  all_goals try cases h
  · exact ⟨rfl, o.path, Or.inl rfl, happlies⟩
  · exact ⟨rfl, o.origin, Or.inr rfl, (Bool.and_eq_true_iff.1 happlies).2⟩

end Sight

/-! ### The theorem -/

variable {key : String} {latest : UInt64}

/-- Over a path that is being removed every attempt meets the same conflict. -/
theorem Sight.Shown.recordEvent_marked (h : see.Shown t o) {row : Row}
    (hrow : (see.early o now).find? (·.applies) = some row)
    (hconflict : row.answer = .error (.conflict key latest)) (e : Engine) :
    e.recordEvent o now t = ⟨[], .error (.conflict key latest)⟩ := by
  refine Attempt.run_conflict (o := o) (fun stamp => ?_) _ ⟨o.stamp, rfl⟩
  rw [(h.restamp stamp).observe_eq now, Sight.first_of_early hrow, Row.run]
  simp only [hconflict]

namespace Attempt

variable {a : Attempt} {ts : UInt64}

/-- A conflict is the answer where there is no delay left, or no timestamp. -/
theorem judge_spent (hts : a.observation.stamp = .exact ts) (hstale : ts ≤ latest)
    (h : a.backoff.next = none ∨ latest = 0xFFFFFFFFFFFFFFFF) :
    a.judge (.error (.conflict key latest)) = .done (.error (.conflict key latest)) := by
  have hle : ¬ latest < ts := UInt64.not_lt.2 hstale
  rcases h with hnone | rfl
  · simp [judge, hnone]
  · simp [judge, Observation.afterConflict, hts, hle]

/-- Otherwise the stamp moves to the timestamp after the latest. -/
theorem judge_stale (hts : a.observation.stamp = .exact ts) (hstale : ts ≤ latest)
    {wait : UInt64} {left : Backoff} (hnext : a.backoff.next = some (wait, left))
    (hlatest : latest ≠ 0xFFFFFFFFFFFFFFFF) :
    a.judge (.error (.conflict key latest))
      = .again wait ⟨{ a.observation with stamp := .exact (latest + 1) }, left⟩ := by
  have hle : ¬ latest < ts := UInt64.not_lt.2 hstale
  simp [judge, Observation.afterConflict, hnext, hts, hle, hlatest]

end Attempt

namespace Sight

/-- What an observation with a stale stamp is answered. -/
theorem Late.stale (h : see.Late o now) {ts : UInt64} (hts : o.stamp = .exact ts)
    (hstale : ts ≤ see.floor o) :
    (see.first o now).answer = .error (.conflict (place o.root o.path) (see.floor o)) := by
  rcases h.cases with ⟨-, hconflict⟩ | ⟨hspent, -⟩ | ⟨hlate, -⟩
  · exact hconflict
  · simp [hts, Stamp.isSpent] at hspent
  · simp [hts, Stamp.isStale, hstale] at hlate

namespace Shown

variable (h : see.Shown t o) (hlate : see.Late o now) {ts : UInt64} (hts : o.stamp = .exact ts)
  (hstale : ts ≤ see.floor o)
include h hlate hts hstale

theorem observe_stale :
    Files.observe o now t = ⟨[], .error (.conflict (place o.root o.path) (see.floor o))⟩ := by
  rw [h.observe_eq, Row.run, hlate.stale hts hstale]

theorem recordEvent_spent (e : Engine)
    (hspent : e.config.retry.maxAttempts = 0 ∨ see.floor o = 0xFFFFFFFFFFFFFFFF) :
    e.recordEvent o now t = ⟨[], .error (.conflict (place o.root o.path) (see.floor o))⟩ := by
  have hobserve := h.observe_stale hlate hts hstale
  have hdone : (Attempt.first o e.config.retry).judge (Files.observe o now t).answer
      = .done (.error (.conflict (place o.root o.path) (see.floor o))) := by
    rw [hobserve]
    apply Attempt.judge_spent hts hstale
    rcases hspent with hnone | hlast
    · left
      rw [Backoff.next_eq_none_iff, Attempt.first, hnone]
      exact UInt32.lt_irrefl 0
    · exact Or.inr hlast
  exact (Attempt.run_of_done hdone).trans hobserve

theorem recordEvent_moved (e : Engine) (hleft : ¬ (e.config.retry.maxAttempts = 0 ∨
      see.floor o = 0xFFFFFFFFFFFFFFFF)) :
    e.recordEvent o now t = Files.observe { o with stamp := .exact (see.floor o + 1) } now t ∧
      ∃ v, (e.recordEvent o now t).answer = .ok (.recorded v) ∧
        v.timestamp.toNat = (see.floor o).toNat + 1 := by
  obtain ⟨hn, hfloor⟩ := not_or.1 hleft
  obtain ⟨wait, left, hnext⟩ : ∃ wait left,
      (Attempt.first o e.config.retry).backoff.next = some (wait, left) := by
    have hlt : (0 : UInt32) < e.config.retry.maxAttempts := UInt32.pos_iff_ne_zero.2 hn
    exact ⟨_, _, Backoff.next_eq_some_iff.2 ⟨hlt, rfl, rfl⟩⟩
  have hobserve := h.observe_stale hlate hts hstale
  have hfirst : (Attempt.first o e.config.retry).judge
      (.error (.conflict (place o.root o.path) (see.floor o)))
        = .again wait ⟨{ o with stamp := .exact (see.floor o + 1) }, left⟩ :=
    Attempt.judge_stale hts hstale hnext hfloor
  have hsecond : (Files.observe { o with stamp := .exact (see.floor o + 1) } now t).answer
      = .ok (.recorded (see.version { o with stamp := .exact (see.floor o + 1) } now)) := by
    rw [(h.restamp _).observe_eq, Row.answer_run, hlate.first_after hfloor]
  have hrest : (Attempt.mk { o with stamp := .exact (see.floor o + 1) } left).run now t
      = Files.observe { o with stamp := .exact (see.floor o + 1) } now t :=
    Attempt.run_of_done (congrArg (Attempt.judge _) hsecond)
  have hmoved : e.recordEvent o now t
      = Files.observe { o with stamp := .exact (see.floor o + 1) } now t :=
    (Attempt.run_of_refused hobserve hfirst).trans hrest
  exact ⟨hmoved, _, (congrArg Run.answer hmoved).trans hsecond, toNat_after hfloor⟩

end Shown

end Sight

/-- A conflict is over a path that is being removed, or the stamp is stale. -/
theorem Sight.Shown.conflict_cases (h : see.Shown t o)
    (hconflict : (Files.observe o now t).answer = .error (.conflict key latest)) :
    ((∃ p, o.Concerns p ∧ see.marked p = true) ∧ latest = 0 ∧
      ∀ e : Engine, e.recordEvent o now t = ⟨[], .error (.conflict key latest)⟩) ∨
    (see.Late o now ∧ key = place o.root o.path ∧ latest = see.floor o ∧
      ∃ ts, o.stamp = .exact ts ∧ ts ≤ see.floor o) := by
  rw [h.observe_eq, Row.answer_run] at hconflict
  cases hearly : (see.early o now).find? (·.applies) with
  | some row =>
    obtain rfl : see.first o now = row := first_of_early hearly o.stamp
    obtain ⟨hlatest, hmarked⟩ := marked_of_early (List.mem_of_find?_eq_some hearly)
      (List.find?_some hearly) hconflict
    exact Or.inl ⟨hmarked, hlatest, h.recordEvent_marked hearly hconflict⟩
  | none =>
    have hlate : see.Late o now := hearly
    right
    rcases hlate.cases with ⟨hstale, hanswer⟩ | ⟨-, hanswer⟩ | ⟨-, hanswer⟩
    · rw [hanswer] at hconflict
      obtain ⟨rfl, rfl⟩ := Error.conflict.inj (Except.error.inj hconflict)
      refine ⟨hlate, rfl, rfl, ?_⟩
      cases hstamp : o.stamp with
      | exact ts => exact ⟨ts, rfl, by simpa [hstamp, Stamp.isStale] using hstale⟩
      | next => simp [hstamp, Stamp.isStale] at hstale
    · cases hanswer.symm.trans hconflict
    · cases hanswer.symm.trans hconflict

/-- What is recorded for an exact stamp has the timestamp that was asked for, above the floor. -/
theorem Sight.Shown.recorded_at (h : see.Shown t o) {v : Version}
    (hv : (Files.observe o now t).answer = .ok (.recorded v)) {ts : UInt64}
    (hts : o.stamp = .exact ts) : v.timestamp = ts ∧ see.floor o < ts := by
  rw [h.observe_eq, Row.answer_run] at hv
  have hlate : see.Late o now := by
    cases hearly : (see.early o now).find? (·.applies) with
    | none => exact hearly
    | some row =>
      obtain rfl : see.first o now = row := first_of_early hearly o.stamp
      have hrow := List.mem_of_find?_eq_some hearly
      simp only [early, rows, List.take_succ_cons, List.take_zero, List.mem_cons,
        List.not_mem_nil, or_false] at hrow
      rcases hrow with hrow | hrow | hrow | hrow | hrow | hrow | hrow | hrow
      all_goals
        rw [hrow] at hv
        cases hv
  rcases hlate.cases with ⟨-, hanswer⟩ | ⟨-, hanswer⟩ | ⟨hfresh, hanswer⟩
  · cases hanswer.symm.trans hv
  · cases hanswer.symm.trans hv
  · obtain rfl : see.version o now = v := by simpa [hanswer] using hv
    refine ⟨by simp [version, timestamp, hts], ?_⟩
    simpa [hts, Stamp.isStale] using hfresh

/-- An observation that meets no conflict is made once. -/
theorem Engine.recordEvent_of_no_conflict (e : Engine)
    (h : ∀ key latest, (Files.observe o now t).answer ≠ .error (.conflict key latest)) :
    e.recordEvent o now t = Files.observe o now t := by
  have hdone : (Attempt.first o e.config.retry).judge (Files.observe o now t).answer
      = .done (Files.observe o now t).answer := by
    unfold Attempt.judge
    split
    · rename_i key latest hconflict
      exact absurd hconflict (h key latest)
    · rfl
  exact Attempt.run_of_done hdone

/-- What is recorded for an exact stamp has the greater of that timestamp and the first above the
    floor. -/
theorem Sight.Shown.timestamp_of_recordEvent (h : see.Shown t o) (e : Engine) {ts : UInt64}
    (hts : o.stamp = .exact ts) {v : Version}
    (hv : (e.recordEvent o now t).answer = .ok (.recorded v)) :
    v.timestamp.toNat = max ts.toNat ((see.floor o).toNat + 1) := by
  by_cases hquiet : ∀ key latest, (Files.observe o now t).answer ≠ .error (.conflict key latest)
  · rw [e.recordEvent_of_no_conflict hquiet] at hv
    obtain ⟨rfl, habove⟩ := h.recorded_at hv hts
    exact (max_eq_left (UInt64.lt_iff_toNat_lt.1 habove)).symm
  · simp only [not_forall, not_not] at hquiet
    obtain ⟨key, latest, hconflict⟩ := hquiet
    rcases h.conflict_cases hconflict with ⟨-, -, hrun⟩ | ⟨hlate, -, -, us, hus, hle⟩
    · rw [hrun e] at hv
      contradiction
    · obtain rfl : us = ts := Stamp.exact.inj (hus.symm.trans hts)
      by_cases hspent : e.config.retry.maxAttempts = 0 ∨ see.floor o = 0xFFFFFFFFFFFFFFFF
      · rw [h.recordEvent_spent hlate hts hle e hspent] at hv
        contradiction
      · obtain ⟨-, w, hw, hafter⟩ := h.recordEvent_moved hlate hts hle e hspent
        obtain rfl : w = v := Decision.recorded.inj (Except.ok.inj (hw.symm.trans hv))
        rw [hafter]
        exact (max_eq_right (Nat.le_succ_of_le (UInt64.le_iff_toNat_le.1 hle))).symm

/-- **Trying again is asking for a timestamp that is free.**  In every table that can be met, also
    while a root or a file is being removed, a call to record an event does what its observations do
    in turn, of which there is at most one more than the call has delays.
    If the first meets no conflict the call is that one observation.  If it meets one while the path
    or the origin is being removed, the call answers a conflict with 0 and commits nothing.
    Otherwise its stamp names a timestamp that is not above the floor.  Without a delay, or with the
    last timestamp taken, the call then answers that conflict and commits nothing; else it is the
    observation of the timestamp after the floor, and this is recorded.  So what is recorded for an
    exact stamp has the greater of that timestamp and the first above the floor. -/
theorem retry_clamps (ht : Met t) (ho : o.Fits) (e : Engine) (now : Instant) :
    let floor := (Sight.of t o.root).floor o
    let again := (Attempt.first o e.config.retry).again now t
    let marked := ∃ p, o.Concerns p ∧ t.has (.marker o.root (some p)) = true
    let spent := e.config.retry.maxAttempts = 0 ∨ floor = 0xFFFFFFFFFFFFFFFF
    (e.recordEvent o now t = Files.inTurn now o again t ∧
      (o :: again).length ≤ e.config.retry.maxAttempts.toNat + 1) ∧
    ((∀ key latest, (Files.observe o now t).answer ≠ .error (.conflict key latest)) →
      e.recordEvent o now t = Files.observe o now t) ∧
    (∀ key latest, (Files.observe o now t).answer = .error (.conflict key latest) →
      (marked → latest = 0 ∧ e.recordEvent o now t = ⟨[], .error (.conflict key 0)⟩) ∧
      (¬ marked → ∃ ts, o.stamp = .exact ts ∧ ts ≤ floor ∧ latest = floor ∧
        (spent → e.recordEvent o now t = ⟨[], .error (.conflict key floor)⟩) ∧
        (¬ spent →
          e.recordEvent o now t = Files.observe { o with stamp := .exact (floor + 1) } now t ∧
          ∃ v, (e.recordEvent o now t).answer = .ok (.recorded v) ∧
            v.timestamp.toNat = floor.toNat + 1))) ∧
    ∀ ts v, o.stamp = .exact ts → (e.recordEvent o now t).answer = .ok (.recorded v) →
      v.timestamp.toNat = max ts.toNat (floor.toNat + 1) := by
  intro floor again marked spent
  have hshown : (Sight.of t o.root).Shown t o := ht.shown ho
  refine ⟨⟨Attempt.run_eq_inTurn _ now t, ?_⟩, e.recordEvent_of_no_conflict, ?_, ?_⟩
  · exact Nat.succ_le_succ (Attempt.length_again_le (.first o e.config.retry) now t)
  · intro key latest hconflict
    rcases hshown.conflict_cases hconflict with ⟨hmarked, rfl, hrun⟩ | ⟨hlate, rfl, rfl, hstamp⟩
    · exact ⟨fun _ => ⟨rfl, hrun e⟩, fun hopen => absurd hmarked hopen⟩
    · constructor
      · rintro ⟨p, hp, hmark⟩
        rw [hshown.marked p hp, hlate.unmarked hp] at hmark
        contradiction
      · intro _
        obtain ⟨ts, hts, hle⟩ := hstamp
        exact ⟨ts, hts, hle, rfl, hshown.recordEvent_spent hlate hts hle e,
          hshown.recordEvent_moved hlate hts hle e⟩
  · exact fun ts v hts hv => hshown.timestamp_of_recordEvent e hts hv

/-- While the first file is being removed the second is changed, with the timestamp that the first
    had. -/
theorem changed_while_removing :
    let t := Session.halfCleared
    let o : Observation :=
      { root := "r", path := "b", client := ⟨1⟩, hash := "k", stamp := .exact 1 }
    Met t ∧ o.Fits ∧ (Files.observe o ⟨0, 0⟩ t).answer = .error (.conflict "r:b" 2) ∧
      ∃ v, (Session.plain.recordEvent o ⟨0, 0⟩ t).answer = .ok (.recorded v) ∧
        v.timestamp.toNat = 3 := by
  intro t o
  have ho : o.Fits := ⟨by decide, by decide, by decide, nofun, by simp [o]⟩
  have hobserve : (Files.observe o ⟨0, 0⟩ t).answer = .error (.conflict "r:b" 2) := by
    decide +kernel
  have hfloor : (Sight.of t o.root).floor o = 2 := by decide +kernel
  have hunmarked : t.has (.marker "r" (some "b")) = false := by decide +kernel
  have hopen : ¬ ∃ p, o.Concerns p ∧ t.has (.marker o.root (some p)) = true := by
    rintro ⟨p, hp, hmarked⟩
    obtain rfl : p = "b" := hp.elim id id
    exact absurd (hunmarked.symm.trans hmarked) Bool.false_ne_true
  refine ⟨Session.halfCleared_met, ho, hobserve, ?_⟩
  obtain ⟨-, -, hconflict, -⟩ := retry_clamps Session.halfCleared_met ho Session.plain ⟨0, 0⟩
  obtain ⟨ts, -, -, -, -, hmoved⟩ := (hconflict _ _ hobserve).2 hopen
  obtain ⟨-, v, hv, hafter⟩ := hmoved (by rw [hfloor]; decide)
  refine ⟨v, hv, ?_⟩
  rw [hafter, hfloor]
  rfl

end SyncLedger
