/-
  SyncLedger/Proofs/Sights.lean
  =============================
  **What an observation sees.**  Of a whole table an observation looks at the record of its root, at
  the markers and the file records of its paths, and at the key of the version that it would add
  (`Sight`).  In a table that can be met all of these can be read, and the key is free whenever the
  observation gets as far as to look at it (`Met.shown`).

  Tables are met after a session, between the commits of a removal that goes on or was cut short,
  and after callers have made observations of any of these (`Met`).
-/
import SyncLedger.Proofs.Memberships
import SyncLedger.Proofs.Reached

namespace SyncLedger

variable {t s : Records} {o : Observation} {g : Roster} {n : Nat}

/-! ### Several writes -/

/-- Puts one record after another. -/
def Table.putAll (t : Records) (ws : List (Key × Bytes)) : Records :=
  ws.foldl (fun t w => t.insert w.1.bytes w.2) t

namespace Table

variable {ws vs : List (Key × Bytes)} {k : Bytes}

theorem putAll_append (t : Records) (ws vs : List (Key × Bytes)) :
    t.putAll (ws ++ vs) = (t.putAll ws).putAll vs :=
  List.foldl_append

/-- A key that is not written keeps its value. -/
theorem get?_putAll_of_ne (h : ∀ w ∈ ws, w.1.bytes ≠ k) : (t.putAll ws).get? k = t.get? k := by
  induction ws generalizing t with
  | nil => rfl
  | cons w ws ih =>
    have hfirst : (t.insert w.1.bytes w.2).get? k = t.get? k := by
      rw [get?_insert, if_neg (h w List.mem_cons_self).symm]
    exact (ih fun v hv => h v (List.mem_cons_of_mem w hv)).trans hfirst

/-- What stands under a key that is written does not depend on the table. -/
theorem get?_putAll_congr (h : s.get? k = t.get? k ∨ ∃ w ∈ ws, w.1.bytes = k) :
    (s.putAll ws).get? k = (t.putAll ws).get? k := by
  induction ws generalizing s t with
  | nil =>
    rcases h with h | ⟨w, hw, -⟩
    · exact h
    · contradiction
  | cons w ws ih =>
    apply ih
    rw [get?_insert, get?_insert]
    split
    · exact Or.inl rfl
    · rename_i hne
      rcases h with h | ⟨v, hv, rfl⟩
      · exact Or.inl h
      · rcases List.mem_cons.1 hv with rfl | hv
        · exact absurd rfl hne
        · exact Or.inr ⟨v, hv, rfl⟩

/-- Each of several writes to different keys is there afterwards. -/
theorem get?_putAll_of_mem (h : (ws.map (·.1.bytes)).Nodup) {w : Key × Bytes} (hw : w ∈ ws) :
    (t.putAll ws).get? w.1.bytes = some w.2 := by
  induction ws generalizing t with
  | nil => contradiction
  | cons v ws ih =>
    rw [List.map_cons, List.nodup_cons] at h
    obtain ⟨hnew, hrest⟩ := h
    rcases List.mem_cons.1 hw with rfl | hw
    · have hlater : ∀ v ∈ ws, v.1.bytes ≠ w.1.bytes := by
        rintro v hv heq
        exact hnew (heq ▸ List.mem_map_of_mem (f := (·.1.bytes)) hv)
      show (Table.putAll _ ws).get? _ = _
      rw [get?_putAll_of_ne hlater, get?_insert, if_pos rfl]
    · exact ih hrest hw

theorem fetch_putAll_of_mem {α : Type} {c : Codec α} {v : α} {key : Key}
    (h : (ws.map (·.1.bytes)).Nodup) (hw : (key, c.encode v) ∈ ws)
    (hread : c.read? (c.encode v) = some v) : (t.putAll ws).fetch c key.bytes = .ok (some v) :=
  fetch_eq_some_iff.2 ⟨_, get?_putAll_of_mem h hw, hread⟩

/-- Writes to different keys may be exchanged. -/
theorem putAll_comm (h : ∀ w ∈ ws, ∀ v ∈ vs, w.1.bytes ≠ v.1.bytes) :
    (t.putAll ws).putAll vs = (t.putAll vs).putAll ws := by
  apply ext
  intro k
  by_cases hk : ∃ w ∈ ws, w.1.bytes = k
  · have hother : ∀ v ∈ vs, v.1.bytes ≠ k := by
      obtain ⟨w, hw, rfl⟩ := hk
      intro v hv
      exact (h w hw v hv).symm
    rw [get?_putAll_of_ne hother]
    exact get?_putAll_congr (Or.inr hk)
  · have hother : ∀ w ∈ ws, w.1.bytes ≠ k := by
      intro w hw heq
      exact hk ⟨w, hw, heq⟩
    rw [get?_putAll_of_ne hother]
    exact get?_putAll_congr (Or.inl (get?_putAll_of_ne hother))

end Table

/-! ### Sights -/

namespace Observation

/-- The path that the observation moves from; its own if it moves none. -/
def origin (o : Observation) : String := o.source?.getD o.path

/-- Whether the observation moves a file to its path. -/
def moves (o : Observation) : Bool := o.source?.isSome

theorem origin_eq_path (h : o.moves = false) : o.origin = o.path := by
  have hnone : o.source? = none := by simpa [moves] using h
  rw [origin, hnone]
  rfl

theorem source?_of_moves (h : o.moves = true) : o.source? = some o.origin := by
  obtain ⟨p, hp⟩ := Option.isSome_iff_exists.1 h
  rw [origin, hp]
  rfl

theorem origin_ne_path (h : o.moves = true) : o.origin ≠ o.path :=
  (source?_eq_some (source?_of_moves h)).2

theorem Fits.short_origin (h : o.Fits) : Short o.origin := by
  cases hmoves : o.moves with
  | false => exact origin_eq_path hmoves ▸ h.path
  | true => exact h.former _ (source?_eq_some (source?_of_moves hmoves)).1

/-- The paths that the observation is about. -/
def Concerns (o : Observation) (p : String) : Prop := p = o.path ∨ p = o.origin

theorem Fits.short (h : o.Fits) {p : String} (hp : o.Concerns p) : Short p := by
  rcases hp with rfl | rfl
  · exact h.path
  · exact h.short_origin

end Observation

/-- What is there of a root: its record, and for each path whether it is being removed and its file
    record. -/
structure Sight where
  root : Option Root
  marked : String → Bool
  file : String → Option File

namespace Sight

/-- What a table has of a root. -/
def of (t : Records) (r : String) : Sight where
  root := (t.fetch Codec.root (Key.root r).bytes).toOption.join
  marked p := t.has (.marker r (some p))
  file p := (t.fetch Codec.file (Key.file r p).bytes).toOption.join

/-- The latest timestamp of a path, 0 if it has no record. -/
def latest (see : Sight) (p : String) : UInt64 := ((see.file p).map (·.timestamp)).getD 0

/-- The greater of the latest timestamps of the two paths of an observation. -/
def floor (see : Sight) (o : Observation) : UInt64 := max (see.latest o.path) (see.latest o.origin)

def lists (see : Sight) (id : Uuid) : Bool := see.root.any (·.members.contains id)

/-- A table shows the observation what it looks at. -/
structure Shown (see : Sight) (t : Records) (o : Observation) : Prop where
  root : t.fetch Codec.root (Key.root o.root).bytes = .ok see.root
  marked : ∀ p, o.Concerns p → t.has (.marker o.root (some p)) = see.marked p
  file : ∀ p, o.Concerns p → t.fetch Codec.file (Key.file o.root p).bytes = .ok (see.file p)
  named : ∀ p, o.Concerns p → ∀ f ∈ see.file p, f.path = p
  free : see.root.isSome = true → see.marked o.path = false →
    ∀ ts, see.floor o < ts → t.has (.version o.root o.path ts) = false

/-- The stamp of an observation has no part in what it looks at. -/
theorem Shown.restamp {see : Sight} (h : see.Shown t o) (stamp : Stamp) :
    see.Shown t { o with stamp } :=
  ⟨h.root, h.marked, h.file, h.named, h.free⟩

end Sight

/-! ### Rosters between commits -/

namespace Roster.StoredIn

theorem detach_root (h : g.StoredIn n t) {r : String} {x : Root} (hx : g.roots r = some x) :
    ∃ v, Roots.detach r t = .ok ((), Roots.detached r v) ∧
      ((g.forgetEach r x.members.toList).setRoot r none).StoredIn n (Roots.detached r v) := by
  obtain ⟨v, hv, hforgot⟩ := h.forgetBy r x.members.toList
  refine ⟨v, ?_, ?_⟩
  · unfold Roots.detach
    rw [Txn.bind_of_ok (h.require_root hx _), Txn.bind_of_ok hv]
    exact Txn.bind_of_ok (Txn.delete_eq_ok_iff.2 ⟨rfl, rfl⟩)
  · apply (hforgot.eraseRoot r).sameRegistry
    exact (SameRegistry.refl _).insert (Key.outside_marker r none) _

/-- Every commit of a removal stores a roster. -/
theorem between (h : g.StoredIn n t) {m : Removal} (e : Engine)
    (hs : s ∈ (m.op e t).commits) : ∃ g' : Roster, g'.StoredIn n s := by
  rw [Removal.commits_op] at hs
  cases m with
  | path r p =>
    exact ⟨g, h.sameRegistry (SameRegistry.keeps_removeFile r p e.batch t (.refl t) s hs)⟩
  | root r =>
    cases hx : g.roots r with
    | none =>
      have hdetach : Roots.detach r t = .error (.notFound (.root r)) :=
        Txn.bind_of_error (Txn.require_of_none (hx ▸ h.fetch_root r))
      have hrun : Roots.remove r e.batch t = ⟨[], .error (.notFound (.root r))⟩ :=
        Op.run_bind_error (Op.commit_of_error hdetach)
      simp [hrun] at hs
    | some x =>
      obtain ⟨v, hdetach, hless⟩ := h.detach_root hx
      rcases Op.mem_commits_bind.1 hs with hs | ⟨_, -, hs⟩
      · obtain rfl : s = Roots.detached r v := by simpa [Op.commit_of_ok hdetach] using hs
        exact ⟨_, hless⟩
      · rw [Op.commit_of_ok hdetach] at hs
        exact ⟨_, hless.sameRegistry (SameRegistry.keeps_purgeRoot r e.batch _ (.refl _) s hs)⟩

theorem of_interrupted (h : g.StoredIn n t)
    (hs : Relation.ReflTransGen Removal.Interrupted t s) : g.StoredIn n s := by
  induction hs with
  | refl => exact h
  | tail _ hstep ih =>
    obtain ⟨e, hmem⟩ := hstep
    exact ih.sameRegistry (SameRegistry.keeps_pending e.batch _ (.refl _) _ hmem)

end Roster.StoredIn

/-! ### Tables that can be met -/

/-- A table that a session leaves; or one that a removal over it has committed, whether it goes on
    or was cut short; or one that recoveries which are themselves cut short make of that; or what an
    observation makes of any of these. -/
inductive Met : Records → Prop where
  | run {e : Engine} {qs : List Call} (h : Session.Feasible e qs) (hqs : ∀ q ∈ qs, q.Fits) :
      Met ((Session.fresh e).run qs).records
  | between {e : Engine} {qs : List Call} (h : Session.Feasible e qs) (hqs : ∀ q ∈ qs, q.Fits)
      (e' : Engine) {m : Removal} (hm : m.Fits) {t u : Records}
      (ht : t ∈ (m.op e' ((Session.fresh e).run qs).records).commits)
      (hu : Relation.ReflTransGen Removal.Interrupted t u) : Met u
  | observed {t : Records} (h : Met t) {o : Observation} (ho : o.Fits) {now : Instant}
      (hnow : now.Representable) : Met ((Files.observe o now).outcome t).2

namespace Met

/-- Beside what is being removed, a table that can be met stores a journal. -/
theorem exists_journal (h : Met t) : ∃ j : Journal, j.ShownIn t := by
  induction h with
  | run _ hqs => exact (Reached.run _ hqs).shown
  | between _ hqs e' hm ht hu => exact (Reached.between _ hqs e' hm ht hu).shown
  | @observed t _ o ho now hnow ih =>
    obtain ⟨j, hj⟩ := ih
    rw [Attempt.observe_outcome]
    cases hd : Files.reconcile o now t with
    | error e => exact ⟨j, hj⟩
    | ok r => exact ⟨_, hj.reconcile ho hnow hd⟩

theorem exists_roster (h : Met t) : ∃ g : Roster, ∃ n < 2 ^ 63, g.StoredIn n t := by
  induction h with
  | @run e qs h _ =>
    obtain ⟨g, hg⟩ := Session.traced_run h
    exact ⟨g, _, h.count, hg.stored⟩
  | @between e qs h _ e' m hm t u ht hu =>
    obtain ⟨g, hg⟩ := Session.traced_run h
    obtain ⟨g', hg'⟩ := hg.stored.between e' ht
    exact ⟨g', _, h.count, hg'.of_interrupted hu⟩
  | @observed t _ o ho now _ ih =>
    obtain ⟨g, n, hn, hg⟩ := ih
    exact ⟨g, n, hn, hg.sameRegistry (SameRegistry.observe o now t)⟩

/-- In a table that can be met an observation can read all that it looks at. -/
theorem shown (h : Met t) (ho : o.Fits) : (Sight.of t o.root).Shown t o := by
  obtain ⟨j, hfiled, u, hstored, hbeside⟩ := h.exists_journal
  obtain ⟨g, n, -, hroster⟩ := h.exists_roster
  have hroot : t.fetch Codec.root (Key.root o.root).bytes = .ok (Sight.of t o.root).root := by
    rw [Sight.of, hroster.fetch_root]
    rfl
  have hfile (p : String) (hp : o.Concerns p) :
      t.fetch Codec.file (Key.file o.root p).bytes = .ok ((Sight.of t o.root).file p) ∧
        ∀ f ∈ (Sight.of t o.root).file p, f.path = p := by
    cases hget : t.get? (Key.file o.root p).bytes with
    | none =>
      have hnone := Table.fetch_eq_none_iff (c := Codec.file).2 hget
      simp [Sight.of, hnone, Except.toOption]
    | some b =>
      obtain ⟨f, hread, hparse⟩ := hfiled.file _ b (Key.files_prefix_iff.2 ⟨_, _, rfl⟩) hget
      rw [Key.parseFile?_bytes ho.root (ho.short hp)] at hparse
      have hsome := Table.fetch_eq_some_iff.2 ⟨b, hget, hread⟩
      have hpath : f.path = p := (Prod.ext_iff.1 (Option.some.inj hparse)).2.symm
      simp [Sight.of, hsome, Except.toOption, hpath]
  refine ⟨hroot, fun _ _ => rfl, fun p hp => (hfile p hp).1, fun p hp => (hfile p hp).2, ?_⟩
  intro hthere hopen ts hts
  -- no marker stands over the path, so its versions are those of the journal
  have hhas : t.has (.root o.root) = true := by
    obtain ⟨x, hx⟩ := Option.isSome_iff_exists.1 hthere
    obtain ⟨b, hb, -⟩ := Table.fetch_eq_some_iff.1 (hx ▸ hroot)
    exact Table.has_iff.2 ⟨b, hb⟩
  have hspared := hbeside.spared ho.root ho.path hhas hopen
  have hcurrent := (hfile o.path (Or.inl rfl)).1
  rw [Table.fetch_congr (hbeside.file hspared) Codec.file] at hcurrent
  have habove (f : File) (hf : (Sight.of t o.root).file o.path = some f) : f.timestamp < ts := by
    have hle : f.timestamp ≤ (Sight.of t o.root).floor o := Files.timestamp_le_floorOf (Or.inl hf)
    exact UInt64.lt_of_le_of_lt hle hts
  have hlate := hstored.late ho.root ho.path hcurrent habove
  rw [Table.has_eq_false_iff, hbeside.version hspared]
  exact hstored.get?_version_of_late ho.root ho.path hlate

end Met

end SyncLedger
