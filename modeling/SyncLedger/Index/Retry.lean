/-
  SyncLedger/Index/Retry.lean
  ===========================
  **Observations that are tried again after a conflict.**  An attempt is the observation as it
  will be made next and the delays that are left.  What to do after it is a function of its
  outcome alone (`Attempt.judge`), so the same rule serves a caller that is alone and callers
  whose attempts interleave.

  A conflict moves an exact timestamp up to the first that is free, unless it is above the
  latest already.  There is no attempt after the budget is spent or the greatest timestamp is
  taken.
-/
import SyncLedger.Backoff
import SyncLedger.Index.Files

namespace SyncLedger

/-- An observation to be made, and the delays that are left for it. -/
structure Attempt where
  observation : Observation
  backoff : Backoff

/-- What follows an attempt. -/
inductive Verdict where
  | done (answer : Except Error Decision)
  /-- Wait so many milliseconds, then make the next attempt. -/
  | again (wait : UInt64) (next : Attempt)

/-- The observation to make after a conflict with the timestamp `latest`, if there is one. -/
def Observation.afterConflict (o : Observation) (latest : UInt64) : Option Observation :=
  match o.stamp with
  | .next => some o
  | .exact ts =>
    if latest < ts then some o
    else if latest = 0xFFFFFFFFFFFFFFFF then none
    else some { o with stamp := .exact (latest + 1) }

namespace Attempt

/-- What follows an attempt with a given outcome. -/
def judge (a : Attempt) (outcome : Except Error Decision) : Verdict :=
  match outcome with
  | .error (.conflict key latest) =>
    match a.backoff.next, a.observation.afterConflict latest with
    | some (wait, left), some o => .again wait ⟨o, left⟩
    | _, _ => .done (.error (.conflict key latest))
  | answer => .done answer

/-- How many delays are left. -/
def left (a : Attempt) : Nat := a.backoff.budget.toNat - a.backoff.used.toNat

/-- Every further attempt has one delay fewer. -/
theorem left_of_judge {a next : Attempt} {outcome : Except Error Decision} {wait : UInt64}
    (h : a.judge outcome = .again wait next) : next.left < a.left := by
  unfold judge at h
  split at h
  · split at h
    · rename_i w after o hb _
      injection h with _ hnext
      subst hnext
      simp only [Backoff.next] at hb
      split at hb
      · rename_i hlt
        injection hb with hb
        injection hb with _ hb
        subst hb
        have hlt : a.backoff.used.toNat < a.backoff.budget.toNat := UInt32.lt_iff_toNat_lt.1 hlt
        have := a.backoff.budget.toNat_lt
        simp only [left, UInt32.toNat_add, UInt32.toNat_one]
        omega
      · contradiction
    · contradiction
  · contradiction

/-- Makes attempts until one decides. -/
def run (a : Attempt) (now : Instant) : Op Decision := fun t =>
  let r := Op.attempt (Files.observe a.observation now) t
  match r.answer with
  | .error e => ⟨r.commits, .error e⟩
  | .ok outcome =>
    match _h : a.judge outcome with
    | .done answer => ⟨r.commits, answer⟩
    | .again _ next =>
      let r' := run next now (r.final t)
      ⟨r.commits ++ r'.commits, r'.answer⟩
termination_by a.left
decreasing_by exact left_of_judge _h

end Attempt

end SyncLedger
