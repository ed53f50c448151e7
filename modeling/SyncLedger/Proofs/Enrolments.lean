/-
  SyncLedger/Proofs/Enrolments.lean
  =================================
  **Changes of a roster.**  A client is enrolled in a root, clients are taken out of the roster, or
  roots are.  Each change is made on both sides and so keeps membership mutual.

  A removal does not look at every record.  It strikes a client from the roots that its own
  record names, or a root from the clients that its own record names.  That this strikes them
  from all (`Mutual.dropEach_eq`, `Mutual.forgetEach_eq`) is what membership must be mutual for.
-/
import SyncLedger.Proofs.Rosters

namespace SyncLedger

namespace Roster

variable {g : Roster} {n : Nat} {t s : Records} {id c : Uuid} {r q : String} {x : Root} {y : Client}

/-! ### Changes of membership -/

/-- A client becomes a member of a root. -/
def enrol (g : Roster) (r : String) (id : Uuid) : Roster :=
  (g.setRoot r ((g.roots r).map fun x => { x with members := x.members.insert id })).setClient id
    ((g.clients id).map fun y => { y with roots := y.roots.insert r })

/-- A root drops a client. -/
def drop (g : Roster) (id : Uuid) (r : String) : Roster :=
  g.setRoot r ((g.roots r).map fun x => { x with members := x.members.erase id })

def dropEach (g : Roster) (id : Uuid) : List String → Roster
  | [] => g
  | r :: rs => (g.drop id r).dropEach id rs

/-- A client forgets a root. -/
def forget (g : Roster) (r : String) (id : Uuid) : Roster :=
  g.setClient id ((g.clients id).map fun y => { y with roots := y.roots.erase r })

def forgetEach (g : Roster) (r : String) : List Uuid → Roster
  | [] => g
  | id :: ids => (g.forget r id).forgetEach r ids

/-- The roster without some clients, which no root has as members any more. -/
def withoutClients (g : Roster) (gone : Uuid → Bool) : Roster where
  clients id := if gone id then none else g.clients id
  roots r := (g.roots r).map fun x => { x with members := x.members.without gone }

/-- The roster without some roots, which no client is in any more. -/
def withoutRoots (g : Roster) (gone : String → Bool) : Roster where
  clients id := (g.clients id).map fun y => { y with roots := y.roots.without gone }
  roots r := if gone r then none else g.roots r

theorem enrol_eq (hx : g.roots r = some x) (hy : g.clients id = some y) :
    g.enrol r id = (g.setRoot r (some { x with members := x.members.insert id })).setClient id
      (some { y with roots := y.roots.insert r }) := by
  rw [enrol, hx, hy]
  rfl

theorem lists_setRoot {z : Option Root} :
    (g.setRoot r z).Lists q c ↔ if q = r then ∃ x, z = some x ∧ c ∈ x.members else g.Lists q c := by
  unfold Lists setRoot
  by_cases hq : q = r
  · subst hq
    simp
  · simp [hq]

theorem joined_setClient {z : Option Client} :
    (g.setClient id z).Joined c q ↔
      if c = id then ∃ y, z = some y ∧ q ∈ y.roots else g.Joined c q := by
  unfold Joined setClient
  by_cases hc : c = id
  · subst hc
    simp
  · simp [hc]

/-! ### Both sides together -/

theorem lists_enrol (hx : g.roots r = some x) :
    (g.enrol r id).Lists q c ↔ g.Lists q c ∨ (q = r ∧ c = id) := by
  show (g.setRoot r _).Lists q c ↔ _
  rw [lists_setRoot, hx]
  by_cases hq : q = r
  · subst hq
    simp [Lists, hx, or_comm]
  · simp [hq]

theorem joined_enrol (hy : g.clients id = some y) :
    (g.enrol r id).Joined c q ↔ g.Joined c q ∨ (q = r ∧ c = id) := by
  show (Roster.setClient _ id _).Joined c q ↔ _
  rw [joined_setClient, hy]
  by_cases hc : c = id
  · subst hc
    simp [Joined, hy, or_comm]
  · simp only [hc, if_false, and_false, or_false]
    exact Iff.rfl

theorem Mutual.enrol (h : g.Mutual) (hx : g.roots r = some x) (hy : g.clients id = some y) :
    (g.enrol r id).Mutual := by
  intro q c
  rw [lists_enrol hx, joined_enrol hy, h q c]

theorem lists_withoutClients {gone : Uuid → Bool} :
    (g.withoutClients gone).Lists r c ↔ g.Lists r c ∧ gone c = false := by
  simp only [Lists, withoutClients]
  cases g.roots r with
  | none => simp
  | some x => simp

theorem joined_withoutClients {gone : Uuid → Bool} :
    (g.withoutClients gone).Joined c r ↔ g.Joined c r ∧ gone c = false := by
  simp only [Joined, withoutClients]
  by_cases hc : gone c = true
  · simp [hc]
  · simp [hc]

theorem Mutual.withoutClients (h : g.Mutual) (gone : Uuid → Bool) :
    (g.withoutClients gone).Mutual := by
  intro r c
  rw [lists_withoutClients, joined_withoutClients, h r c]

theorem lists_withoutRoots {gone : String → Bool} :
    (g.withoutRoots gone).Lists r c ↔ g.Lists r c ∧ gone r = false := by
  simp only [Lists, withoutRoots]
  by_cases hr : gone r = true
  · simp [hr]
  · simp [hr]

theorem joined_withoutRoots {gone : String → Bool} :
    (g.withoutRoots gone).Joined c r ↔ g.Joined c r ∧ gone r = false := by
  simp only [Joined, withoutRoots]
  cases g.clients c with
  | none => simp
  | some y => simp

theorem Mutual.withoutRoots (h : g.Mutual) (gone : String → Bool) :
    (g.withoutRoots gone).Mutual := by
  intro r c
  rw [lists_withoutRoots, joined_withoutRoots, h r c]

/-- Whether clients that are not there are taken away makes no difference. -/
theorem Mutual.withoutClients_congr (h : g.Mutual) {p p' : Uuid → Bool}
    (hp : ∀ id y, g.clients id = some y → p id = p' id) :
    g.withoutClients p = g.withoutClients p' := by
  apply Roster.ext
  · funext id
    simp only [Roster.withoutClients]
    cases hy : g.clients id with
    | none => simp
    | some y => rw [hp id y hy]
  · funext r
    simp only [Roster.withoutClients]
    cases hx : g.roots r with
    | none => rfl
    | some x =>
      have hsame : x.members.without p = x.members.without p' := by
        apply OrderedSet.without_congr
        intro id hid
        obtain ⟨y, hy, -⟩ := (h r id).1 ⟨x, hx, hid⟩
        exact hp id y hy
      rw [Option.map_some, Option.map_some, hsame]

theorem Mutual.withoutRoots_congr (h : g.Mutual) {p p' : String → Bool}
    (hp : ∀ r x, g.roots r = some x → p r = p' r) : g.withoutRoots p = g.withoutRoots p' := by
  apply Roster.ext
  · funext id
    simp only [Roster.withoutRoots]
    cases hy : g.clients id with
    | none => rfl
    | some y =>
      have hsame : y.roots.without p = y.roots.without p' := by
        apply OrderedSet.without_congr
        intro r hr
        obtain ⟨x, hx, -⟩ := (h r id).2 ⟨y, hy, hr⟩
        exact hp r x hx
      rw [Option.map_some, Option.map_some, hsame]
  · funext r
    simp only [Roster.withoutRoots]
    cases hx : g.roots r with
    | none => simp
    | some x => rw [hp r x hx]

theorem withoutClients_false (g : Roster) : g.withoutClients (fun _ => false) = g := by
  apply Roster.ext
  · funext id
    simp [Roster.withoutClients]
  · funext r
    simp only [Roster.withoutClients]
    cases g.roots r with
    | none => rfl
    | some x => rw [Option.map_some, OrderedSet.without_eq_self fun _ _ => rfl]

theorem withoutRoots_false (g : Roster) : g.withoutRoots (fun _ => false) = g := by
  apply Roster.ext
  · funext id
    simp only [Roster.withoutRoots]
    cases g.clients id with
    | none => rfl
    | some y => rw [Option.map_some, OrderedSet.without_eq_self fun _ _ => rfl]
  · funext r
    simp [Roster.withoutRoots]

theorem withoutClients_withoutClients (g : Roster) (p p' : Uuid → Bool) :
    (g.withoutClients p).withoutClients p' = g.withoutClients fun id => p id || p' id := by
  apply Roster.ext
  · funext id
    simp only [Roster.withoutClients, Bool.or_eq_true]
    by_cases hp : p id = true
    · simp [hp]
    · simp [hp]
  · funext r
    simp [Roster.withoutClients, Function.comp_def, OrderedSet.without_without]

theorem withoutRoots_withoutRoots (g : Roster) (p p' : String → Bool) :
    (g.withoutRoots p).withoutRoots p' = g.withoutRoots fun r => p r || p' r := by
  apply Roster.ext
  · funext id
    simp [Roster.withoutRoots, Function.comp_def, OrderedSet.without_without]
  · funext r
    simp only [Roster.withoutRoots, Bool.or_eq_true]
    by_cases hp : p r = true
    · simp [hp]
    · simp [hp]

/-! ### Striking a client or a root everywhere -/

theorem dropEach_clients (g : Roster) (id : Uuid) (rs : List String) :
    (g.dropEach id rs).clients = g.clients := by
  induction rs generalizing g with
  | nil => rfl
  | cons r rs ih => exact ih (g.drop id r)

theorem dropEach_roots (g : Roster) (id : Uuid) (rs : List String) (r : String) :
    (g.dropEach id rs).roots r =
      if r ∈ rs then (g.roots r).map fun x => { x with members := x.members.erase id }
      else g.roots r := by
  induction rs generalizing g with
  | nil => simp [dropEach]
  | cons q rs ih =>
    rw [dropEach, ih, drop, setRoot]
    by_cases hr : r = q
    · subst hr
      cases g.roots r with
      | none => simp
      | some x => simp [OrderedSet.erase_eq_without, OrderedSet.without_without]
    · simp [hr]

theorem forgetEach_roots (g : Roster) (r : String) (ids : List Uuid) :
    (g.forgetEach r ids).roots = g.roots := by
  induction ids generalizing g with
  | nil => rfl
  | cons id ids ih => exact ih (g.forget r id)

theorem forgetEach_clients (g : Roster) (r : String) (ids : List Uuid) (id : Uuid) :
    (g.forgetEach r ids).clients id =
      if id ∈ ids then (g.clients id).map fun y => { y with roots := y.roots.erase r }
      else g.clients id := by
  induction ids generalizing g with
  | nil => simp [forgetEach]
  | cons c ids ih =>
    rw [forgetEach, ih, forget, setClient]
    by_cases hid : id = c
    · subst hid
      cases g.clients id with
      | none => simp
      | some y => simp [OrderedSet.erase_eq_without, OrderedSet.without_without]
    · simp [hid]

/-- The roots that a client's record names are all that have it. -/
theorem Mutual.dropEach_eq (h : g.Mutual) (hy : g.clients id = some y) :
    (g.setClient id none).dropEach id y.roots.toList = g.withoutClients (· == id) := by
  apply Roster.ext
  · funext c
    rw [dropEach_clients]
    by_cases hc : c = id
    · simp [setClient, Roster.withoutClients, hc]
    · simp [setClient, Roster.withoutClients, hc]
  · funext r
    rw [dropEach_roots]
    split
    · rfl
    · rename_i hr
      show g.roots r = (g.roots r).map _
      cases hx : g.roots r with
      | none => rfl
      | some x =>
        have hfree : ¬ id ∈ x.members := by
          intro hid
          obtain ⟨z, hz, hmem⟩ := (h r id).1 ⟨x, hx, hid⟩
          obtain rfl : z = y := Option.some.inj (hz.symm.trans hy)
          exact hr hmem
        rw [Option.map_some, ← OrderedSet.erase_eq_without, OrderedSet.erase_of_not_mem hfree]

/-- The members that a root's record names are all that are in it. -/
theorem Mutual.forgetEach_eq (h : g.Mutual) (hx : g.roots r = some x) :
    (g.forgetEach r x.members.toList).setRoot r none = g.withoutRoots (· == r) := by
  apply Roster.ext
  · funext id
    show (g.forgetEach r x.members.toList).clients id = _
    rw [forgetEach_clients]
    split
    · rfl
    · rename_i hid
      show g.clients id = (g.clients id).map _
      cases hy : g.clients id with
      | none => rfl
      | some y =>
        have hfree : ¬ r ∈ y.roots := by
          intro hr
          obtain ⟨z, hz, hmem⟩ := (h r id).2 ⟨y, hy, hr⟩
          obtain rfl : z = x := Option.some.inj (hz.symm.trans hx)
          exact hid hmem
        rw [Option.map_some, ← OrderedSet.erase_eq_without, OrderedSet.erase_of_not_mem hfree]
  · funext q
    show Function.update (g.forgetEach r x.members.toList).roots r none q = _
    rw [forgetEach_roots]
    by_cases hq : q = r
    · simp [Roster.withoutRoots, hq]
    · simp [Roster.withoutRoots, hq]

end Roster

end SyncLedger
