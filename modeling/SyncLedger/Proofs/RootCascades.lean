/-
  SyncLedger/Proofs/RootCascades.lean
  ===================================
  **Removing all roots is all or nothing for each root.**  The roots are removed in the order of
  their keys, up to the first with a member whose record cannot be read (`Roots.outcome_removeEach`).
  What is left is what the removals of the roots before it leave one after another
  (`Roots.leftByEach`), for the one that fails commits nothing.

  The removals share the records of clients.  A client forgets every root that is removed and lists
  it as a member (`Roots.fetch_client_leftByEach`), but no record becomes readable or unreadable on
  the way, so which removal fails can be told from the table at the beginning.
-/
import SyncLedger.Proofs.Neighbours
import SyncLedger.Proofs.RootErasures

namespace SyncLedger

variable {t s : Records} {r q : String} {id : Uuid} {k : Bytes} {x : Root} {xs : List Root}

/-! ### What several removals leave -/

/-- A client without some of its roots. -/
def Client.without (c : Client) (gone : String → Bool) : Client :=
  { c with roots := c.roots.without gone }

theorem Client.without_nothing (c : Client) : c.without (fun _ => false) = c := by
  rw [without, OrderedSet.without_eq_self fun _ _ => rfl]

theorem Client.forget_without (gone : String → Bool) (r : String) (c : Client) :
    (c.forget r).without gone = c.without fun q => q == r || gone q := by
  simp only [forget, without, OrderedSet.erase_eq_without, OrderedSet.without_without]

/-- The record of a root goes with that root alone, however long the names are. -/
theorem Key.erasedWith_root_iff : Key.ErasedWith r (Key.root q).bytes ↔ q = r := by
  constructor
  · rintro (h | h | h | h)
    · exact ofRoot_root_iff.1 (Or.inl h)
    · exact ofRoot_root_iff.1 (ofRoot_of_filesOf h)
    · exact ofRoot_root_iff.1 (ofRoot_of_versionsOf h)
    · exact ofRoot_root_iff.1 (h ▸ ofRoot_marker r none)
  · rintro rfl
    exact Or.inl rfl

/-- No key is that of two roots. -/
theorem Key.isOfRoot_unique {key : Key} (hr : key.isOfRoot r = true) (hq : key.isOfRoot q = true) :
    r = q := by
  cases key with
  | client => contradiction
  | root | file | version => exact (of_decide_eq_true hr).symm.trans (of_decide_eq_true hq)
  | marker _ o =>
    cases o with
    | none => exact (of_decide_eq_true hr).symm.trans (of_decide_eq_true hq)
    | some => contradiction

namespace Roots

/-- What is left of a table by the removals of several roots, one after another. -/
def leftByEach (xs : List Root) (t : Records) : Records :=
  xs.foldl (fun t x => leftBy x.path x.members.toList t) t

/-- Whether the removal of one of several roots makes a client forget a root. -/
def forgottenBy (xs : List Root) (id : Uuid) (r : String) : Bool :=
  xs.any fun x => r == x.path && x.members.contains id

theorem get?_leftByEach_of_kept (hclient : ∀ id, k ≠ (Key.client id).bytes)
    (h : ∀ x ∈ xs, ¬ Key.ErasedWith x.path k) : (leftByEach xs t).get? k = t.get? k := by
  induction xs generalizing t with
  | nil => rfl
  | cons x xs ih =>
    refine (ih fun y hy => h y (List.mem_cons_of_mem _ hy)).trans ?_
    exact get?_leftBy_of_kept (h x List.mem_cons_self) fun id _ _ _ _ => hclient id

/-- What has gone with one root does not come back with the next. -/
theorem get?_leftByEach_of_erased (hx : x ∈ xs) (h : Key.ErasedWith x.path k) :
    (leftByEach xs t).get? k = none := by
  have hclient (id : Uuid) : k ≠ (Key.client id).bytes := by
    rintro rfl
    exact Key.not_erasedWith_client _ id h
  have hgone {u : Records} {ys : List Root} (hu : u.get? k = none) :
      (leftByEach ys u).get? k = none := by
    induction ys generalizing u with
    | nil => exact hu
    | cons y ys ih =>
      apply ih
      by_cases hy : Key.ErasedWith y.path k
      · exact get?_leftBy_of_erased hy
      · exact (get?_leftBy_of_kept hy fun id _ _ _ _ => hclient id).trans hu
  induction xs generalizing t with
  | nil => contradiction
  | cons y ys ih =>
    rcases List.mem_cons.1 hx with rfl | hx
    · exact hgone (u := leftBy x.path x.members.toList t) (get?_leftBy_of_erased h)
    · exact ih hx

/-- A client forgets the roots that list it, and nothing else of it changes. -/
theorem fetch_client_leftByEach (xs : List Root) (t : Records) (id : Uuid) :
    (leftByEach xs t).fetch Codec.client (Key.client id).bytes =
      (t.fetch Codec.client (Key.client id).bytes).map
        (Option.map fun c => c.without (forgottenBy xs id)) := by
  induction xs generalizing t with
  | nil =>
    show t.fetch Codec.client (Key.client id).bytes
      = (t.fetch Codec.client (Key.client id).bytes).map
        (Option.map fun c => c.without fun _ => false)
    simp only [Client.without_nothing]
    cases t.fetch Codec.client (Key.client id).bytes with
    | error e => rfl
    | ok c => cases c <;> rfl
  | cons x xs ih =>
    refine (ih (leftBy x.path x.members.toList t)).trans ?_
    rw [fetch_client_leftBy]
    split
    · rename_i hlists
      have hmember : x.members.contains id = true := OrderedSet.contains_iff.2 hlists
      have hcons : forgottenBy (x :: xs) id = fun r => r == x.path || forgottenBy xs id r := by
        funext r
        simp [forgottenBy, hmember]
      simp only [hcons, ← Client.forget_without]
      cases t.fetch Codec.client (Key.client id).bytes with
      | error e => rfl
      | ok c => cases c <;> rfl
    · rename_i hout
      have hstranger : x.members.contains id = false := OrderedSet.contains_eq_false_iff.2 hout
      have hcons : forgottenBy (x :: xs) id = forgottenBy xs id := by
        funext r
        simp [forgottenBy, hstranger]
      rw [hcons]

/-- No member of a root that was removed lists it any more. -/
theorem not_mem_of_leftByEach (hx : x ∈ xs) (hid : id ∈ x.members) {c : Client}
    (hc : (leftByEach xs t).fetch Codec.client (Key.client id).bytes = .ok (some c)) :
    ¬ x.path ∈ c.roots := by
  rw [fetch_client_leftByEach] at hc
  cases hold : t.fetch Codec.client (Key.client id).bytes with
  | error e => simp [hold, Except.map] at hc
  | ok old =>
    rw [hold] at hc
    obtain ⟨c', -, rfl⟩ := Option.map_eq_some_iff.1 (Except.ok.inj hc)
    intro hmem
    have hkept : forgottenBy xs id x.path = false := (OrderedSet.mem_without.1 hmem).2
    have hgone : forgottenBy xs id x.path = true :=
      List.any_eq_true.2 ⟨x, hx, by simpa using hid⟩
    exact absurd (hkept.symm.trans hgone) Bool.false_ne_true

/-- No record of a client becomes readable or unreadable. -/
theorem reads_leftBy (r : String) (ids : List Uuid) (t : Records) :
    (leftBy r ids t).reads = t.reads := by
  funext ids'
  unfold Table.reads
  congr 1
  funext id
  rw [fetch_client_leftBy]
  split
  · cases t.fetch Codec.client (Key.client id).bytes <;> rfl
  · rfl

theorem reads_leftByEach (xs : List Root) (t : Records) : (leftByEach xs t).reads = t.reads := by
  induction xs generalizing t with
  | nil => rfl
  | cons x xs ih => exact (ih _).trans (reads_leftBy _ _ t)

/-- The records of the other roots stay. -/
theorem fetch_root_leftBy (ids : List Uuid) (t : Records) (hne : q ≠ r) :
    (leftBy r ids t).fetch Codec.root (Key.root q).bytes
      = t.fetch Codec.root (Key.root q).bytes := by
  apply Table.fetch_congr
  apply get?_leftBy_of_kept (mt Key.erasedWith_root_iff.1 hne)
  exact fun id _ _ _ _ => RegistryOnly.root_ne_client q id

/-! ### The cascade -/

/-- Whether the records of the members of a root can be read. -/
def Intact (t : Records) (x : Root) : Bool := t.reads x.members.toList

/-- The roots are removed one after another, up to the first with a member whose record cannot be
    read. -/
theorem outcome_removeEach
    (hthere : ∀ x ∈ xs, t.fetch Codec.root (Key.root x.path).bytes = .ok (some x))
    (hpaths : (xs.map (·.path)).Nodup) (batch n : Nat) :
    (removeEach batch xs n).outcome t =
      (if xs.all (Intact t) then .ok (n + xs.length) else .error (.serialization none),
        leftByEach (xs.takeWhile (Intact t)) t) := by
  -- the removals before the first that fails change neither the other roots nor who can be read
  induction xs generalizing t n with
  | nil => rfl
  | cons x xs ih =>
    have hx := hthere x List.mem_cons_self
    obtain ⟨hnew, hpaths⟩ := List.nodup_cons.1 hpaths
    unfold removeEach
    cases hintact : Intact t x with
    | false =>
      have hremove : (Op.attempt (remove x.path batch)).outcome t
          = (.ok (.error (.serialization none)), t) := by
        rw [Op.outcome_attempt, Op.outcome, remove_unreadable hx hintact]
        rfl
      rw [Op.outcome_bind_ok hremove]
      simp [hintact, leftByEach]
    | true =>
      have hremove := outcome_remove_of_reads hx hintact batch
      have hrest : ∀ y ∈ xs, (leftBy x.path x.members.toList t).fetch Codec.root
          (Key.root y.path).bytes = .ok (some y) := by
        intro y hy
        have hne : y.path ≠ x.path := by
          intro heq
          exact hnew (List.mem_map.2 ⟨y, hy, heq⟩)
        rw [fetch_root_leftBy _ _ hne]
        exact hthere y (List.mem_cons_of_mem _ hy)
      have hcascade := ih hrest hpaths (n + 1)
      have hsame : Intact (leftBy x.path x.members.toList t) = Intact t := by
        funext y
        rw [Intact, reads_leftBy, Intact]
      have hcount : n + 1 + xs.length = n + (x :: xs).length := by
        rw [List.length_cons]
        omega
      rw [hsame, hcount] at hcascade
      rw [Op.outcome_bind_ok (by rw [Op.outcome_attempt, hremove])]
      refine hcascade.trans ?_
      simp [hintact, leftByEach]

end Roots

/-! ### The theorem -/

/-- Every record of a root can be read and stands under the key of its path. -/
def RootsInPlace (t : Records) : Prop :=
  ∀ e ∈ t.under Key.roots, (Codec.root.read? e.2).map (fun x => (Key.root x.path).bytes) = some e.1

instance (t : Records) : Decidable (RootsInPlace t) :=
  inferInstanceAs (Decidable (∀ e ∈ t.under Key.roots,
    (Codec.root.read? e.2).map (fun x => (Key.root x.path).bytes) = some e.1))

/-- The roots are listed in the order of their keys, each once. -/
theorem RootsInPlace.list (h : RootsInPlace t) :
    ∃ xs, Roots.list t = ⟨[], .ok xs⟩ ∧
      xs.map (fun x => (Key.root x.path).bytes) = t.keysUnder Key.roots ∧
      (∀ x ∈ xs, t.fetch Codec.root (Key.root x.path).bytes = .ok (some x)) ∧
      (xs.map (·.path)).Nodup := by
  have hread : ∀ e ∈ t.under Key.roots, ∃ x, Codec.root.read? e.2 = some x := by
    intro e he
    obtain ⟨x, hx, -⟩ := Option.map_eq_some_iff.1 (h e he)
    exact ⟨x, hx⟩
  obtain ⟨found, hfound⟩ := Table.exists_decodeAll hread
  have hscan : t.scan Codec.root Key.roots = .ok found := hfound
  have hplace : ∀ f ∈ found, f.1 = (Key.root f.2.path).bytes := by
    rintro ⟨k, x⟩ hf
    obtain ⟨hk, hfetch⟩ := (Table.mem_scan hscan).1 hf
    obtain ⟨b, hb, hx⟩ := Table.fetch_eq_some_iff.1 hfetch
    have hkey := h (k, b) (Table.mem_under.2 ⟨hk, hb⟩)
    rw [hx] at hkey
    exact (Option.some.inj hkey).symm
  have hkeys : (found.map (·.2)).map (fun x => (Key.root x.path).bytes)
      = t.keysUnder Key.roots := by
    rw [← Table.map_fst_scan hscan, List.map_map]
    exact List.map_congr_left fun f hf => (hplace f hf).symm
  refine ⟨found.map (·.2), ?_, hkeys, ?_, ?_⟩
  · simp [Roots.list, hscan, Except.map]
  · intro x hx
    obtain ⟨f, hf, rfl⟩ := List.mem_map.1 hx
    rw [← hplace f hf]
    exact ((Table.mem_scan hscan).1 hf).2
  · have hnodup := Table.nodup_keysUnder t Key.roots
    rw [← hkeys] at hnodup
    have hcompose : (found.map (·.2)).map (fun x => (Key.root x.path).bytes)
        = ((found.map (·.2)).map (·.path)).map fun r => (Key.root r).bytes := by
      simp only [List.map_map, Function.comp_def]
    exact List.Nodup.of_map _ (hcompose ▸ hnodup)

namespace Roots

/-- The listed roots, cut at the first with a member whose record cannot be read. -/
structure Cut (t : Records) (done rest : List Root) : Prop where
  list : Roots.list t = ⟨[], .ok (done ++ rest)⟩
  keys : (done ++ rest).map (fun x => (Key.root x.path).bytes) = t.keysUnder Key.roots
  fetch : ∀ x ∈ done ++ rest, t.fetch Codec.root (Key.root x.path).bytes = .ok (some x)
  paths : ((done ++ rest).map (·.path)).Nodup
  intact : ∀ x ∈ done, Intact t x = true
  broken : ∀ x ∈ rest.head?, Intact t x = false

theorem exists_cut (h : RootsInPlace t) : ∃ done rest, Cut t done rest := by
  obtain ⟨xs, hlist, hkeys, hfetch, hpaths⟩ := h.list
  refine ⟨xs.takeWhile (Intact t), xs.dropWhile (Intact t), ?_⟩
  have hcut : xs.takeWhile (Intact t) ++ xs.dropWhile (Intact t) = xs :=
    List.takeWhile_append_dropWhile
  constructor
  case list => rw [hcut, hlist]
  case keys => rw [hcut, hkeys]
  case fetch => rwa [hcut]
  case paths => rwa [hcut]
  case intact => exact fun x hx => List.mem_takeWhile_imp hx
  case broken =>
    intro x hx
    have hhead := List.head?_dropWhile_not (Intact t) xs
    rw [Option.mem_def.1 hx] at hhead
    exact hhead

namespace Cut

variable {done rest : List Root} (h : Cut t done rest)
include h

theorem outcome_done (batch : Nat) :
    (removeEach batch done 0).outcome t = (.ok done.length, leftByEach done t) := by
  have hfetch : ∀ x ∈ done, t.fetch Codec.root (Key.root x.path).bytes = .ok (some x) :=
    fun x hx => h.fetch x (List.mem_append_left _ hx)
  have hpaths : (done.map (·.path)).Nodup := by
    have hall := h.paths
    rw [List.map_append] at hall
    exact hall.of_append_left
  have hall : done.all (Intact t) = true := List.all_eq_true.2 h.intact
  rw [outcome_removeEach hfetch hpaths, if_pos hall, List.takeWhile_eq_self_iff.2 h.intact,
    Nat.zero_add]

theorem outcome_removeAll (batch : Nat) :
    (removeAll batch).outcome t =
      (if rest = [] then .ok (done ++ rest).length else .error (.serialization none),
        leftByEach done t) := by
  have hcut : (done ++ rest).takeWhile (Intact t) = done ∧
      ((done ++ rest).all (Intact t) = true ↔ rest = []) := by
    have hall : done.all (Intact t) = true := List.all_eq_true.2 h.intact
    rw [List.takeWhile_append_of_pos h.intact, List.all_append, hall]
    cases rest with
    | nil => simp
    | cons y ys => simp [h.broken y rfl]
  have hlist : Roots.list.outcome t = (.ok (done ++ rest), t) := Op.outcome_of_run h.list
  rw [removeAll, Op.outcome_bind_ok hlist, outcome_removeEach h.fetch h.paths, hcut.1,
    Nat.zero_add]
  simp only [hcut.2]

theorem ne_path {x y : Root} (hx : x ∈ done) (hy : y ∈ rest) : x.path ≠ y.path := by
  have hall := h.paths
  rw [List.map_append, List.nodup_append] at hall
  exact hall.2.2 _ (List.mem_map_of_mem hx) _ (List.mem_map_of_mem hy)

/-- What a root owns that is not reached stays. -/
theorem get?_rest {y : Root} (hy : y ∈ rest) {key : Key} (hkey : key.Fits)
    (hof : key.isOfRoot y.path = true) : (leftByEach done t).get? key.bytes = t.get? key.bytes := by
  apply get?_leftByEach_of_kept
  · intro id heq
    obtain rfl := (Key.bytes_inj (l := .client id) hkey trivial).1 heq
    contradiction
  · intro x hx herased
    exact h.ne_path hx hy (Key.isOfRoot_unique ((Key.erasedWith_iff hkey).1 herased) hof)

theorem get?_rest_root {y : Root} (hy : y ∈ rest) :
    (leftByEach done t).get? (Key.root y.path).bytes = t.get? (Key.root y.path).bytes := by
  apply get?_leftByEach_of_kept
  · exact RegistryOnly.root_ne_client y.path
  · intro x hx herased
    exact h.ne_path hx hy (Key.erasedWith_root_iff.1 herased).symm

/-- The removal that stops the cascade fails in the table that the cascade leaves. -/
theorem remove_broken {y : Root} (hy : y ∈ rest.head?) (batch : Nat) :
    remove y.path batch (leftByEach done t) = ⟨[], .error (.serialization none)⟩ := by
  have hmem : y ∈ rest := List.mem_of_head? hy
  have hfetch : (leftByEach done t).fetch Codec.root (Key.root y.path).bytes = .ok (some y) :=
    (Table.fetch_congr (h.get?_rest_root hmem) _).trans
      (h.fetch y (List.mem_append_right _ hmem))
  apply remove_unreadable hfetch
  rw [reads_leftByEach]
  exact h.broken y hy

end Cut

end Roots

/-- **Removing all roots is all or nothing for each root.**  Let every record of a root be readable
    and stand under the key of its path; nothing is asked of the clients.  The listing gives the
    roots in the order of their keys, and the cascade cuts it in two.  It succeeds, with the number
    of the roots, just if there is no second part, and the roots of the first part are removed one
    after another, as by a cascade over them alone.
    Of each of these the members can be read, neither the root nor a file, a version or its marker
    is left, and no client that can be read and that it lists as a member lists it.  Each root of
    the second part has its record, its files and its versions as they were.  Of the other keys only
    clients differ, and they have forgotten the roots of the first part that list them.  The second
    part begins with a root that lists a client whose record cannot be read; its removal commits
    nothing, so the clients of that root are as the removals before it have left them. -/
theorem removeAllRoots_cut (h : RootsInPlace t) (e : Engine) :
    ∃ done rest s, Roots.list t = ⟨[], .ok (done ++ rest)⟩ ∧
      (done ++ rest).map (fun x => (Key.root x.path).bytes) = t.keysUnder Key.roots ∧
      (rest = [] → e.removeAllRoots.outcome t = (.ok (t.keysUnder Key.roots).length, s)) ∧
      (rest ≠ [] → e.removeAllRoots.outcome t = (.error (.serialization none), s)) ∧
      (Roots.removeEach e.batch done 0).outcome t = (.ok done.length, s) ∧
      (∀ x ∈ done,
        (∀ id ∈ x.members, ∃ c, t.fetch Codec.client (Key.client id).bytes = .ok c) ∧
        (∀ k, Key.ErasedWith x.path k → s.get? k = none) ∧
        ∀ id ∈ x.members, ∀ c, s.fetch Codec.client (Key.client id).bytes = .ok (some c) →
          ¬ x.path ∈ c.roots) ∧
      (∀ x ∈ rest, s.get? (Key.root x.path).bytes = t.get? (Key.root x.path).bytes ∧
        ∀ key : Key, key.Fits → key.isOfRoot x.path = true →
          s.get? key.bytes = t.get? key.bytes) ∧
      (∀ k, (∀ x ∈ done, ¬ Key.ErasedWith x.path k) → (∀ id, k ≠ (Key.client id).bytes) →
        s.get? k = t.get? k) ∧
      (∀ id, s.fetch Codec.client (Key.client id).bytes =
        (t.fetch Codec.client (Key.client id).bytes).map
          (Option.map fun c => c.without (Roots.forgottenBy done id))) ∧
      ∀ x ∈ rest.head?,
        (∃ id ∈ x.members,
          t.fetch Codec.client (Key.client id).bytes = .error (.serialization none)) ∧
        e.removeRoot x.path s = ⟨[], .error (.serialization none)⟩ := by
  obtain ⟨done, rest, hcut⟩ := Roots.exists_cut h
  refine ⟨done, rest, Roots.leftByEach done t, hcut.list, hcut.keys, ?_, ?_,
    hcut.outcome_done e.batch, ?_, fun x hx => ⟨hcut.get?_rest_root hx, fun key => hcut.get?_rest hx⟩,
    fun k hkept hclient => Roots.get?_leftByEach_of_kept hclient hkept,
    Roots.fetch_client_leftByEach done t, ?_⟩
  · intro hall
    refine (hcut.outcome_removeAll e.batch).trans ?_
    rw [if_pos hall, ← hcut.keys, List.length_map]
  · intro hstopped
    refine (hcut.outcome_removeAll e.batch).trans ?_
    rw [if_neg hstopped]
  · intro x hx
    exact ⟨Table.reads_iff.1 (hcut.intact x hx), fun k => Roots.get?_leftByEach_of_erased hx,
      fun id hid c hc => Roots.not_mem_of_leftByEach hx hid hc⟩
  · intro x hx
    exact ⟨Table.exists_unreadable (hcut.broken x hx), hcut.remove_broken hx e.batch⟩

/-- Three roots, of which the first two share a member and the last two share another. -/
def Session.chained : List Call :=
  [.registerClient ⟨1⟩ "c" ⟨0, 0⟩, .registerClient ⟨2⟩ "d" ⟨0, 0⟩,
    .registerRoot "a" "o" "s" [] ⟨0, 0⟩, .registerRoot "b" "o" "s" [] ⟨0, 0⟩,
    .registerRoot "c" "o" "s" [] ⟨0, 0⟩, .joinRoot "a" ⟨1⟩ "s", .joinRoot "b" ⟨1⟩ "s",
    .joinRoot "b" ⟨2⟩ "s", .joinRoot "c" ⟨2⟩ "s"]

/-- The record of the second client is damaged, so the cascade stops at the second root. -/
theorem stopped_at_damaged_member :
    let t := ((Session.fresh Session.plain).run Session.chained).records.insert
      (Key.client ⟨2⟩).bytes []
    RootsInPlace t ∧ ∃ s,
      Session.plain.removeAllRoots.outcome t = (.error (.serialization none), s) ∧
      s.get? (Key.root "a").bytes = none ∧
      s.get? (Key.root "b").bytes = t.get? (Key.root "b").bytes ∧
      ∃ c, s.fetch Codec.client (Key.client ⟨1⟩).bytes = .ok (some c) ∧ c.roots.toList = ["b"] := by
  intro t
  have hplace : RootsInPlace t := by decide +kernel
  refine ⟨hplace, ?_⟩
  obtain ⟨done, rest, s, hlist, -, -, hstopped, -, hdone, hrest, -, hclients, hhead⟩ :=
    removeAllRoots_cut hplace Session.plain
  have hread : (t.fetch Codec.client (Key.client ⟨1⟩).bytes).toOption.join.any
      (fun c => c.roots.toList = ["a", "b"]) = true := by decide +kernel
  obtain ⟨c, hc, hjoined⟩ := (Option.any_eq_true _ _).1 hread
  have hroots : c.roots.toList = ["a", "b"] := of_decide_eq_true hjoined
  have hfirst := eq_ok_of_toOption (Option.join_eq_some_iff.1 hc)
  have hsecond : (t.fetch Codec.client (Key.client ⟨2⟩).bytes).isOk = false := by decide +kernel
  have hlisted : (Roots.list t).answer.toOption.map
      (·.map fun x => (x.path, x.members.toList))
        = some [("a", [⟨1⟩]), ("b", [⟨1⟩, ⟨2⟩]), ("c", [⟨2⟩])] := by decide +kernel
  rw [hlist] at hlisted
  have hparts : (done ++ rest).map (fun x => (x.path, x.members.toList))
      = [("a", [⟨1⟩]), ("b", [⟨1⟩, ⟨2⟩]), ("c", [⟨2⟩])] := Option.some.inj hlisted
  rcases done with _ | ⟨x, _ | ⟨y, ys⟩⟩
  · -- the member of the first root can be read, so the cascade passes it
    obtain ⟨y, ys, rfl, hy, -⟩ := List.map_eq_cons_iff.1 hparts
    have hmembers : y.members.toList = [⟨1⟩] := (Prod.ext_iff.1 hy).2
    obtain ⟨⟨id, hid, herror⟩, -⟩ := hhead y rfl
    obtain rfl : id = ⟨1⟩ := by simpa [← OrderedSet.mem_toList, hmembers] using hid
    exact absurd (hfirst.symm.trans herror) (by simp)
  · obtain ⟨hx, hothers⟩ := List.cons.inj hparts
    obtain ⟨hpath, hmembers⟩ : x.path = "a" ∧ x.members.toList = [⟨1⟩] := Prod.ext_iff.1 hx
    obtain ⟨y, ys, rfl, hy, -⟩ := List.map_eq_cons_iff.1 hothers
    have hnext : y.path = "b" := (Prod.ext_iff.1 hy).1
    refine ⟨s, hstopped (List.cons_ne_nil _ _), ?_, ?_, ?_⟩
    · rw [← hpath]
      exact (hdone x List.mem_cons_self).2.1 _ (Or.inl rfl)
    · rw [← hnext]
      exact (hrest y List.mem_cons_self).1
    · have hleft := hclients ⟨1⟩
      rw [hfirst] at hleft
      have hlists : x.members.contains ⟨1⟩ = true := by simp [← OrderedSet.mem_toList, hmembers]
      have hforgotten : Roots.forgottenBy [x] ⟨1⟩ = fun r => r == "a" := by
        funext r
        rw [Roots.forgottenBy, List.any_cons, hpath, hlists, Bool.and_true, List.any_nil,
          Bool.or_false]
      refine ⟨_, hleft, ?_⟩
      show c.roots.toList.filter (!Roots.forgottenBy [x] ⟨1⟩ ·) = ["b"]
      rw [hforgotten, hroots]
      decide
  · -- a member of the second root cannot be read, so the cascade does not pass it
    obtain ⟨-, hothers⟩ := List.cons.inj hparts
    obtain ⟨hy, -⟩ := List.cons.inj hothers
    have hmembers : y.members.toList = [⟨1⟩, ⟨2⟩] := (Prod.ext_iff.1 hy).2
    have hlists : (⟨2⟩ : Uuid) ∈ y.members := by simp [← OrderedSet.mem_toList, hmembers]
    obtain ⟨c, hc⟩ := (hdone y (by simp)).1 _ hlists
    rw [hc] at hsecond
    exact absurd hsecond.symm Bool.false_ne_true

end SyncLedger
