/-
  SyncLedger/Proofs/Deeds.lean
  ============================
  **What a run has done to the registry.**  A deed is a call on clients or roots that was granted.
  The deeds of a run are read off what was asked and answered, as the commit log is, and say
  nothing of tables.

  Much of what holds of a registry is about deeds that nothing has undone: `lately` has the deeds
  after the last one that ends something, and `since` says whether one of them began it.
-/
import SyncLedger.Proofs.Sessions

namespace SyncLedger

/-- What was done to clients and roots. -/
inductive Deed where
  | clientRegistered (id : Uuid)
  | clientRemoved (id : Uuid)
  | clientsRemoved
  | rootRegistered (path password : String)
  | rootJoined (path : String) (id : Uuid)
  /-- A root has another password, chosen, restored or made up. -/
  | secretChanged (path password : String)
  | rootRemoved (path : String)
  | rootsRemoved
  deriving DecidableEq

/-- What a call has done, if it was granted. -/
def Event.deed? (ev : Event) : Option Deed :=
  match ev.call, ev.answer with
  | .registerClient id _ _, .ok _ => some (.clientRegistered id)
  | .removeClient id, .ok _ => some (.clientRemoved id)
  | .removeAllClients, .ok _ => some .clientsRemoved
  | .registerRoot path _ password _ _, .ok _ => some (.rootRegistered path password)
  | .joinRoot path id _, .ok _ => some (.rootJoined path id)
  | .setPassword path password _, .ok _ => some (.secretChanged path password)
  | .resetPassword path _ _, .ok (.secret password) => some (.secretChanged path password)
  | .removeRoot path, .ok _ => some (.rootRemoved path)
  | .removeAllRoots, .ok _ => some .rootsRemoved
  | _, _ => none

theorem Event.call_of_clientRegistered {ev : Event} {id : Uuid}
    (h : ev.deed? = some (.clientRegistered id)) :
    ∃ address now, ev.call = .registerClient id address now := by
  unfold deed? at h
  split at h
  · rename_i c address now _ hcall _
    obtain rfl := Deed.clientRegistered.inj (Option.some.inj h)
    exact ⟨address, now, hcall⟩
  all_goals cases h

/-- What a run has done. -/
def deeds (log : List Event) : List Deed := log.filterMap Event.deed?

theorem deeds_append (log : List Event) (ev : Event) :
    deeds (log ++ [ev]) = deeds log ++ ev.deed?.toList := by
  rw [deeds, List.filterMap_append]
  cases h : ev.deed? with
  | none => rw [List.filterMap_cons_none h]; rfl
  | some d => rw [List.filterMap_cons_some h]; rfl

theorem Session.length_events (s : Session) (qs : List Call) :
    (s.events qs).length = qs.length := by
  induction qs generalizing s with
  | nil => rfl
  | cons q qs ih => exact congrArg (· + 1) (ih (s.serve q).2)

theorem length_deeds_le (log : List Event) : (deeds log).length ≤ log.length :=
  List.length_filterMap_le _ _

namespace Deed

def registersClient (c : Uuid) : Deed → Bool
  | clientRegistered id => c == id
  | _ => false

def removesClient (c : Uuid) : Deed → Bool
  | clientRemoved id => c == id
  | clientsRemoved => true
  | _ => false

def registersRoot (r : String) : Deed → Bool
  | rootRegistered path _ => r == path
  | _ => false

def removesRoot (r : String) : Deed → Bool
  | rootRemoved path => r == path
  | rootsRemoved => true
  | _ => false

def joins (r : String) (c : Uuid) : Deed → Bool
  | rootJoined path id => r == path && c == id
  | _ => false

def rotates (r : String) : Deed → Bool
  | secretChanged path _ => r == path
  | _ => false

/-- The password that a root was given. -/
def secretFor? (r : String) : Deed → Option String
  | rootRegistered path password | secretChanged path password =>
    if r == path then some password else none
  | _ => none

end Deed

/-! ### Deeds that nothing has undone -/

section Lately

variable {ds : List Deed} {d : Deed} {ends starts : Deed → Bool}

/-- The deeds after the last one that ends something, the newest first. -/
def lately (ds : List Deed) (ends : Deed → Bool) : List Deed :=
  ds.reverse.takeWhile fun d => !ends d

/-- Something was begun and has not been ended since. -/
def since (ds : List Deed) (ends starts : Deed → Bool) : Bool := (lately ds ends).any starts

theorem lately_append_of_ends (h : ends d = true) : lately (ds ++ [d]) ends = [] := by
  rw [lately, List.reverse_append]
  simp [h]

theorem lately_append (h : ends d = false) : lately (ds ++ [d]) ends = d :: lately ds ends := by
  rw [lately, List.reverse_append]
  simp [h, lately]

theorem since_append :
    since (ds ++ [d]) ends starts = true ↔
      ends d = false ∧ (starts d = true ∨ since ds ends starts = true) := by
  unfold since
  cases h : ends d with
  | true => simp [lately_append_of_ends h]
  | false => simp [lately_append h]

theorem length_lately_le (ds : List Deed) (ends : Deed → Bool) :
    (lately ds ends).length ≤ ds.length := by
  have hprefix : lately ds ends <+: ds.reverse := List.takeWhile_prefix _
  have hlength := hprefix.length_le
  rwa [List.length_reverse] at hlength

end Lately

end SyncLedger
