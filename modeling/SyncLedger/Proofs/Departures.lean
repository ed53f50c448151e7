/-
  SyncLedger/Proofs/Departures.lean
  =================================
  **Removals of clients that are cut short.**  A removal commits once for the record of the client
  and once for each root that the client joined, and leaves no marker.  So if it stops early
  nothing finishes it: opening an engine over what is left does not touch clients or roots.  The
  roots whose turn had not come still have the client among their members
  (`removal_cut_short`), and on these it is still let in (`removed_client_let_in`).
-/
import SyncLedger.Proofs.Memberships

namespace SyncLedger

variable {g : Roster} {n : Nat} {t u : Records} {c d : Uuid} {r : String} {y : Client}

theorem OrderedSet.nodup_toList {α : Type} [LT α] [Std.Irrefl (α := α) (· < ·)]
    (s : OrderedSet α) : s.toList.Nodup := by
  apply s.increasing.imp
  rintro a b hlt rfl
  exact Std.Irrefl.irrefl (r := (· < ·)) a hlt

namespace Roster

theorem lists_dropEach (g : Roster) (c : Uuid) (rs : List String) (r : String) (d : Uuid) :
    (g.dropEach c rs).Lists r d ↔ g.Lists r d ∧ ¬ (d = c ∧ r ∈ rs) := by
  unfold Lists
  rw [dropEach_roots]
  split
  · rename_i hr
    cases g.roots r with
    | none => simp
    | some x => simp [hr]
  · rename_i hr
    simp [hr]

/-- After `k` drops the roots that were to come are those that have the client. -/
theorem Mutual.lists_dropEach_take (h : g.Mutual) (hy : g.clients c = some y) (k : Nat)
    (r : String) :
    ((g.setClient c none).dropEach c (y.roots.toList.take k)).Lists r c ↔
      r ∈ y.roots.toList.drop k := by
  have hjoined : (g.setClient c none).Lists r c ↔ r ∈ y.roots.toList := by
    have hsame : g.Joined c r ↔ r ∈ y.roots := by simp [Joined, hy]
    exact (h r c).trans hsame
  -- no root comes twice, so none that has dropped the client is still to come
  have hnodup := y.roots.nodup_toList
  rw [← List.take_append_drop k y.roots.toList] at hnodup
  have hapart : r ∈ y.roots.toList.take k → r ∉ y.roots.toList.drop k :=
    fun hin hout => (List.nodup_append.1 hnodup).2.2 r hin r hout rfl
  have hsplit : r ∈ y.roots.toList ↔
      r ∈ y.roots.toList.take k ∨ r ∈ y.roots.toList.drop k := by
    rw [← List.mem_append, List.take_append_drop]
  rw [lists_dropEach, hjoined, hsplit]
  constructor
  · rintro ⟨hin | hin, hout⟩
    · exact absurd ⟨rfl, hin⟩ hout
    · exact hin
  · exact fun hin => ⟨Or.inr hin, fun hout => hapart hout.2 hin⟩

end Roster

/-- **What a removal that is cut short leaves.**  A client that joined some roots is removed in one
    commit more.  If the removal stops after the record is gone and `k` roots have dropped the
    client, and an engine is opened over what is left, then the client has no record, and the roots
    that come later in the order of its record are exactly those that still have it as a member.
    Nobody else's membership has changed, and all other members have records.  On the other roots
    the client is refused.

    So nothing of the client is left exactly if the removal came to its end. -/
theorem removal_cut_short {e : Engine} {cs : List Call} (h : Session.Feasible e cs) {c : Uuid}
    {y : Client} (hy : ((Session.fresh e).run cs).records.fetch Codec.client (Key.client c).bytes
      = .ok (some y)) :
    let s := (Session.fresh e).run cs
    (Clients.remove c s.records).commits.length = y.roots.toList.length + 1 ∧
    ∀ k u, (Clients.remove c s.records).commits[k]? = some u →
      ∀ config schemes e' db db', db.records = u →
        Engine.openOver config db schemes = .ok (e', db') →
        db'.records.has (.client c) = false ∧
        (∀ r, RootLists db'.records r c ↔ r ∈ y.roots.toList.drop k) ∧
        (∀ r d, d ≠ c → (RootLists db'.records r d ↔ RootLists s.records r d) ∧
          (RootLists db'.records r d → db'.records.has (.client d) = true)) ∧
        ∀ (o : Observation) now, o.client = c → o.refusal? = none →
          db'.records.has (.root o.root) = true → o.root ∉ y.roots.toList.drop k →
          Files.observe o now db'.records
            = ⟨[], .error (.unauthorized (.notMember o.client o.root))⟩ := by
  intro s
  obtain ⟨g, hg⟩ := Session.traced_run h
  have hmutual := hg.trace.mutual
  rw [hg.stored.fetch_client, Except.ok.injEq] at hy
  obtain ⟨us, hremove, hlength, hcommits⟩ := hg.stored.remove_client hy
  have hcuts : (Clients.remove c s.records).commits = us := congrArg Run.commits hremove
  rw [hcuts]
  refine ⟨hlength, ?_⟩
  rintro k _ hu config schemes e' db db' rfl hopen
  have hleft := (hcommits k db.records hu).sameRegistry (SameRegistry.openOver hopen)
  -- the index of the first commit is 0: by then no root has dropped the client
  have hlists := hmutual.lists_dropEach_take hy k
  refine ⟨?_, ?_, ?_, ?_⟩
  · rw [hleft.has_client, Roster.dropEach_clients]
    simp [Roster.setClient]
  · intro r
    rw [hleft.rootLists_iff, hlists]
  · intro r d hd
    have hsame : ((g.setClient c none).dropEach c (y.roots.toList.take k)).Lists r d ↔
        g.Lists r d := by
      rw [Roster.lists_dropEach, and_iff_left fun hc => hd hc.1]
      exact Iff.rfl
    rw [hleft.rootLists_iff, hg.stored.rootLists_iff, hsame, hleft.has_client,
      Roster.dropEach_clients]
    refine ⟨Iff.rfl, ?_⟩
    intro hin
    obtain ⟨z, hz, -⟩ := (hmutual r d).1 hin
    simp [Roster.setClient, hd, hz]
  · rintro o now rfl hwell hroot hout
    exact hleft.observe_stranger hwell hroot (fun hin => hout ((hlists o.root).1 hin)) now

/-! ### A run -/

namespace Session

/-- A client joins two roots. -/
def joinedTwice : List Call :=
  [.registerClient ⟨1⟩ "c" ⟨0, 0⟩, .registerRoot "a" "o" "s" salt ⟨0, 0⟩,
    .registerRoot "b" "o" "s" salt ⟨0, 0⟩, .joinRoot "a" ⟨1⟩ "s", .joinRoot "b" ⟨1⟩ "s"]

theorem joinedTwice_feasible : Feasible plain joinedTwice where
  engine := storable_plain
  calls := by
    simp only [joinedTwice, List.forall_mem_cons]
    exact ⟨storable_registerClient (by decide), storable_registerRoot (by decide) (by decide),
      storable_registerRoot (by decide) (by decide), trivial, trivial, nofun⟩
  fresh := by decide
  count := by decide

/-- An engine with standard settings. -/
def standard : Engine :=
  let config : Config := { dataDir := "" }
  ⟨config, .standard, Password.scheme config.security.costs⟩

theorem ofConfig_standard : Engine.ofConfig standard.config = .ok standard := rfl

end Session

/-- After the record and the first root the second root still has the client. -/
theorem removal_cut_after_two :
    let t := ((Session.fresh Session.plain).run Session.joinedTwice).records
    Session.Feasible Session.plain Session.joinedTwice ∧
      ∃ y u, t.fetch Codec.client (Key.client ⟨1⟩).bytes = .ok (some y) ∧
        (Clients.remove ⟨1⟩ t).commits[1]? = some u ∧
        Engine.openOver Session.standard.config { records := u }
          = .ok (Session.standard, { records := u }) ∧
        ¬ RootLists u "a" ⟨1⟩ ∧ RootLists u "b" ⟨1⟩ := by
  intro t
  obtain ⟨g, hg⟩ := Session.traced_run Session.joinedTwice_feasible
  have hjoined : (t.fetch Codec.client (Key.client ⟨1⟩).bytes).toOption.join.map
      (·.roots.toList) = some ["a", "b"] := by decide +kernel
  have hfetch : t.fetch Codec.client (Key.client ⟨1⟩).bytes = .ok (g.clients ⟨1⟩) :=
    hg.stored.fetch_client ⟨1⟩
  rw [hfetch] at hjoined
  obtain ⟨y, hy, hroots⟩ := Option.map_eq_some_iff.1 hjoined
  have hclient : g.clients ⟨1⟩ = some y := hy
  rw [hclient] at hfetch
  obtain ⟨u, hu, hunmarked⟩ : ∃ u, (Clients.remove ⟨1⟩ t).commits[1]? = some u ∧
      u.under Key.markers = [] := by
    have hcut : ((Clients.remove ⟨1⟩ t).commits[1]?.map (·.under Key.markers)) = some [] := by
      decide +kernel
    exact Option.map_eq_some_iff.1 hcut
  have hopen : Engine.openOver Session.standard.config { records := u }
      = .ok (Session.standard, { records := u }) :=
    Removal.openOver_of_unmarked Session.ofConfig_standard hunmarked
  obtain ⟨-, hleft⟩ := removal_cut_short Session.joinedTwice_feasible hfetch
  obtain ⟨-, hlists, -, -⟩ := hleft 1 u hu _ _ _ { records := u } _ rfl hopen
  rw [hroots] at hlists
  exact ⟨Session.joinedTwice_feasible, y, u, hfetch, hu, hopen, (hlists "a").not.2 (by decide),
    (hlists "b").2 (by decide)⟩

/-- A removal stops when the record of the client is gone.  After an engine is opened over what is
    left, the roots still have the client, which has no record, and what it observes is
    recorded. -/
theorem removed_client_let_in :
    let t := ((Session.fresh Session.plain).run Session.joinedTwice).records
    let o : Observation :=
      { root := "a", path := "p", client := ⟨1⟩, hash := "h", stamp := .next }
    ∃ u, (Clients.remove ⟨1⟩ t).commits[0]? = some u ∧
      Engine.openOver Session.standard.config { records := u }
        = .ok (Session.standard, { records := u }) ∧
      u.has (.client ⟨1⟩) = false ∧ RootLists u "a" ⟨1⟩ ∧
      ∃ v, (Files.observe o ⟨0, 0⟩ u).answer = .ok (.recorded v) := by
  intro t o
  have hcut : (Clients.remove ⟨1⟩ t).commits[0]?.map (fun u =>
      (u.under Key.markers, u.has (.client ⟨1⟩),
        (u.fetch Codec.root (Key.root "a").bytes).toOption.join.map (·.members.toList),
        ((Files.observe o ⟨0, 0⟩ u).answer.toOption.bind Decision.version?).isSome))
      = some ([], false, some [⟨1⟩], true) := by decide +kernel
  obtain ⟨u, hu, hfacts⟩ := Option.map_eq_some_iff.1 hcut
  obtain ⟨hunmarked, hgone, hmembers, hrecorded⟩ :
      u.under Key.markers = [] ∧ u.has (.client ⟨1⟩) = false ∧
      (u.fetch Codec.root (Key.root "a").bytes).toOption.join.map (·.members.toList)
        = some [⟨1⟩] ∧
      ((Files.observe o ⟨0, 0⟩ u).answer.toOption.bind Decision.version?).isSome = true := by
    simpa only [Prod.mk.injEq] using hfacts
  refine ⟨u, hu, Removal.openOver_of_unmarked Session.ofConfig_standard hunmarked, hgone, ?_, ?_⟩
  · obtain ⟨x, hx, hlisted⟩ := Option.map_eq_some_iff.1 hmembers
    refine ⟨x, eq_ok_of_toOption (Option.join_eq_some_iff.1 hx), ?_⟩
    rw [← OrderedSet.mem_toList, hlisted]
    exact List.mem_singleton_self _
  · obtain ⟨v, hv⟩ := Option.isSome_iff_exists.1 hrecorded
    obtain ⟨d, hd, hversion⟩ := Option.bind_eq_some_iff.1 hv
    cases d with
    | duplicate f => simp only [Decision.version?, reduceCtorEq] at hversion
    | recorded w => exact ⟨w, eq_ok_of_toOption hd⟩

end SyncLedger
