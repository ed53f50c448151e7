/-
  SyncLedger/Proofs/Cascades.lean
  ===============================
  **Operations of many steps keep what their steps keep.**  A cascade goes over a list that was
  read at its beginning, and an observation may be made several times.  The inductions are made
  here, once for any property of tables; a module that follows one property through all operations
  has only the single steps left to look at.
-/
import SyncLedger.Engine
import SyncLedger.Proofs.Reconciling
import SyncLedger.Proofs.Removals

namespace SyncLedger

namespace Sweep

theorem reserve_root (r : String) (t : Records) : reserve r none t =
    if t.has (.root r) || t.has (.marker r none) then .ok (false, t)
    else .ok (true, t.insert (Key.marker r none).bytes (Codec.marker.encode ⟨r, none⟩)) := by
  unfold reserve
  dsimp only
  rw [Txn.bind_of_ok (Txn.has_eq_ok_iff.2 ⟨rfl, rfl⟩),
    Txn.bind_of_ok (Txn.has_eq_ok_iff.2 ⟨rfl, rfl⟩)]
  by_cases hused : (t.has (.root r) || t.has (.marker r none)) = true
  · rw [if_pos hused, if_pos hused]
    rfl
  · rw [if_neg hused, if_neg hused]
    rfl

theorem reserve_path (r p : String) (t : Records) : reserve r (some p) t =
    if t.has (.file r p) || t.has (.marker r (some p)) || !t.has (.root r) then .ok (false, t)
    else .ok (true, t.insert (Key.marker r (some p)).bytes (Codec.marker.encode ⟨r, some p⟩)) := by
  unfold reserve
  dsimp only
  rw [Txn.bind_of_ok (Txn.has_eq_ok_iff.2 ⟨rfl, rfl⟩),
    Txn.bind_of_ok (Txn.has_eq_ok_iff.2 ⟨rfl, rfl⟩)]
  by_cases hused : (t.has (.file r p) || t.has (.marker r (some p))) = true
  · rw [if_pos hused, hused]
    rfl
  · rw [if_neg hused, Txn.bind_of_ok (Txn.has_eq_ok_iff.2 ⟨rfl, rfl⟩),
      Bool.eq_false_of_not_eq_true hused]
    cases t.has (.root r) <;> rfl

/-- A reservation leaves a marker where there was none, or changes nothing. -/
theorem reserve_cases (r : String) (p : Option String) (t : Records) :
    reserve r p t = .ok (false, t) ∨
      (t.has (.marker r p) = false ∧ reserve r p t
        = .ok (true, t.insert (Key.marker r p).bytes (Codec.marker.encode ⟨r, p⟩))) := by
  cases p with
  | none =>
    rw [reserve_root]
    split
    · exact Or.inl rfl
    · rename_i hfree
      simp only [Bool.or_eq_true, not_or, Bool.not_eq_true] at hfree
      exact Or.inr ⟨hfree.2, rfl⟩
  | some q =>
    rw [reserve_path]
    split
    · exact Or.inl rfl
    · rename_i hfree
      simp only [Bool.or_eq_true, not_or, Bool.not_eq_true] at hfree
      exact Or.inr ⟨hfree.1.2, rfl⟩

end Sweep

/-- What an observation writes, write by write: its version under the paths that it touches, and the
    file records there. -/
theorem Files.reconcile_writes {P : Records → Prop} {o : Observation} {now : Instant} {d : Decision}
    {t s : Records} (h : Files.reconcile o now t = .ok (d, s)) (ht : P t)
    (hversion : ∀ u (v : Version), P u →
      P (u.insert (Key.version o.root o.path v.timestamp).bytes (Codec.version.encode v)))
    (htarget : ∀ u ts, P u →
      P (u.insert (Key.file o.root o.path).bytes (Codec.file.encode (o.fileAt ts))))
    (hrefresh : ∀ f, t.fetch Codec.file (Key.file o.root o.path).bytes = .ok (some f) →
      P (t.insert (Key.file o.root o.path).bytes
        (Codec.file.encode { f with metadata := o.metadata })))
    (hsource : ∀ p f, o.source? = some p → t.has (.marker o.root (some p)) = false →
      t.fetch Codec.file (Key.file o.root p).bytes = .ok (some f) →
      (∀ u (v : Version), P u →
        P (u.insert (Key.version o.root f.path v.timestamp).bytes (Codec.version.encode v))) ∧
      ∀ u ts, P u → P (u.insert (Key.file o.root f.path).bytes
        (Codec.file.encode { f with hash := o.hash, timestamp := ts, present := false }))) :
    P s := by
  obtain ⟨-, -, -, current, source, hcurrent, hread, hdone⟩ := Files.reconcile_ok h
  rcases hdone with ⟨f, rfl, hrefreshed⟩ | hrecord
  · rcases (Files.refresh_ok hrefreshed).2 with rfl | rfl
    · exact ht
    · exact hrefresh f hcurrent
  · obtain ⟨ts, -, -, -, rfl⟩ := Files.record_eq_ok_iff.1 hrecord
    have hfirst := hversion t (o.versionAt current source now ts) ht
    rcases (Files.sourceOf_ok hread).2 with ⟨-, rfl⟩ | ⟨p, f, hp, rfl, hopen, hfetch, -⟩
    · exact htarget _ ts hfirst
    · obtain ⟨hsecond, hleft⟩ := hsource p f hp hopen hfetch
      exact htarget _ ts (hleft _ ts (hsecond _ _ hfirst))

namespace Op.Keeps

variable {P : Records → Prop} {batch : Nat} {r p : String}

/-! ### Single steps -/

theorem erase {k : Bytes} (h : ∀ t, P t → P (t.erase k)) : Keeps P (Op.erase k) := by
  apply keeps_commit
  intro t v s ht hs
  obtain ⟨-, rfl⟩ := Prod.ext_iff.1 (Except.ok.inj hs)
  exact h t ht

theorem drop {k : Key} (h : ∀ t, P t → P (t.erase k.bytes)) : Keeps P (Op.drop k) :=
  (erase h).bind fun _ => keeps_pure ()

theorem reserve {p : Option String} (h : ∀ t, t.has (.marker r p) = false → P t →
      P (t.insert (Key.marker r p).bytes (Codec.marker.encode ⟨r, p⟩))) :
    Keeps P (Op.commit (Sweep.reserve r p)) := by
  apply keeps_commit
  intro t v s ht hs
  rcases Sweep.reserve_cases r p t with hno | ⟨hfree, hyes⟩
  · obtain ⟨-, rfl⟩ := Prod.ext_iff.1 (Except.ok.inj (hno.symm.trans hs))
    exact ht
  · obtain ⟨-, rfl⟩ := Prod.ext_iff.1 (Except.ok.inj (hyes.symm.trans hs))
    exact h t hfree ht

theorem purgeRoot (hfiles : Keeps P (Op.purge (Key.filesOf r) batch))
    (hversions : Keeps P (Op.purge (Key.versionsOf r) batch))
    (hdrop : Keeps P (Op.drop (.marker r none))) : Keeps P (Roots.purge r batch) := by
  apply hfiles.bind
  intro _
  apply hversions.bind
  intro _
  exact hdrop.bind fun _ => keeps_pure _

/-- What is purged, and the marker that is dropped, may depend on the file that was there. -/
theorem removeFile (hdetach : ∀ t, P t → P (Files.detached r p t))
    (hrest : ∀ t, t.has (.file r p) = true → P t →
      Keeps P (History.purge r p batch) ∧ Keeps P (Op.drop (.marker r (some p)))) :
    Keeps P (Files.remove r p batch) := by
  have hcommit : Keeps P (Op.commit (Files.detach r p)) := by
    apply keeps_commit
    intro t v s ht hs
    obtain ⟨-, -, rfl⟩ := Files.detach_ok hs
    exact hdetach t ht
  apply hcommit.bind_of_ok
  intro t v ht hv
  obtain ⟨s, hs⟩ := exists_of_commit hv
  obtain ⟨hpurge, hdrop⟩ := hrest t (Files.detach_ok hs).2.1 ht
  apply hpurge.bind
  intro _
  exact hdrop.bind fun _ => keeps_pure _

/-! ### Clients -/

theorem leaveEach {id : Uuid} (h : ∀ r, Keeps P (Op.commit (Clients.leave id r)))
    (rs : List String) : Keeps P (Clients.leaveEach id rs) := by
  induction rs with
  | nil => exact keeps_pure ()
  | cons r rs ih => exact (h r).attempt.bind fun _ => ih

theorem removeClient {id : Uuid} (hdetach : Keeps P (Op.commit (Clients.detach id)))
    (hleave : ∀ r, Keeps P (Op.commit (Clients.leave id r))) : Keeps P (Clients.remove id) :=
  hdetach.bind fun c => (leaveEach hleave c.roots.toList).bind fun _ => keeps_pure c

theorem removeClients (h : ∀ id, Keeps P (Clients.remove id)) (cs : List Client) (n : Nat) :
    Keeps P (Clients.removeEach cs n) := by
  induction cs generalizing n with
  | nil => exact keeps_pure n
  | cons c cs ih =>
    apply (h c.uuid).attempt.bind
    intro answer
    split
    · exact ih (n + 1)
    · exact ih n
    · exact keeps_fail _

theorem removeAllClients (h : ∀ id, Keeps P (Clients.remove id)) : Keeps P Clients.removeAll :=
  (keeps_read _).bind fun cs => removeClients h cs 0

/-! ### Roots and files -/

theorem removeRoots (h : ∀ r, Keeps P (Roots.remove r batch)) (rs : List Root) (n : Nat) :
    Keeps P (Roots.removeEach batch rs n) := by
  induction rs generalizing n with
  | nil => exact keeps_pure n
  | cons r rs ih =>
    apply (h r.path).attempt.bind
    intro answer
    split
    · exact ih (n + 1)
    · exact ih n
    · exact keeps_fail _

theorem removeAllRoots (h : ∀ r, Keeps P (Roots.remove r batch)) : Keeps P (Roots.removeAll batch) :=
  (keeps_read _).bind fun rs => removeRoots h rs 0

theorem removeFiles {fs : List File} (h : ∀ f ∈ fs, Keeps P (Files.remove f.root f.path batch))
    (n : Nat) : Keeps P (Files.removeEach batch fs n) := by
  induction fs generalizing n with
  | nil => exact keeps_pure n
  | cons f fs ih =>
    have hrest := ih fun g hg => h g (List.mem_cons_of_mem f hg)
    apply (h f List.mem_cons_self).attempt.bind
    intro answer
    split
    · exact hrest (n + 1)
    · exact hrest n
    · exact keeps_fail _

theorem listFiles (scope : Scope) : Keeps P (Files.list scope) := by
  cases scope with
  | all | root => exact keeps_read _
  | path r p =>
    have hlatest : Keeps P (Files.latest r p) := keeps_read _
    apply hlatest.attempt.bind
    intro answer
    split
    · exact keeps_pure _
    · exact keeps_pure _
    · exact keeps_fail _

theorem removeAllFiles {scope : Scope}
    (h : ∀ t fs, P t → (Files.list scope t).answer = .ok fs →
      ∀ f ∈ fs, Keeps P (Files.remove f.root f.path batch)) :
    Keeps P (Files.removeAll scope batch) :=
  (listFiles scope).bind_of_ok fun t fs ht hfs => removeFiles (h t fs ht hfs) 0

/-! ### Sweeps -/

section Sweep

variable (hreserve : ∀ r p, Keeps P (Op.commit (Sweep.reserve r p)))

include hreserve

theorem purgeRoots
    (hpurge : ∀ r t, P t → (Op.commit (Sweep.reserve r none) t).answer = .ok true →
      Keeps P (Roots.purge r batch)) (rs : List String) (report : Sweep.Report) :
    Keeps P (Sweep.purgeRoots batch rs report) := by
  induction rs generalizing report with
  | nil => exact keeps_pure _
  | cons r rs ih =>
    apply (hreserve r none).bind_of_ok
    intro t reserved ht hreserved
    split
    · rename_i htrue
      exact (hpurge r t ht (htrue ▸ hreserved)).bind fun _ => ih _
    · exact ih report

theorem purgePaths
    (hpurge : ∀ r p t, P t → (Op.commit (Sweep.reserve r (some p)) t).answer = .ok true →
      Keeps P (History.purge r p batch) ∧ Keeps P (Op.drop (.marker r (some p))))
    (ls : List Sweep.Location) (report : Sweep.Report) :
    Keeps P (Sweep.purgePaths batch ls report) := by
  induction ls generalizing report with
  | nil => exact keeps_pure _
  | cons l ls ih =>
    apply (hreserve l.root (some l.path)).bind_of_ok
    intro t reserved ht hreserved
    split
    · rename_i htrue
      obtain ⟨hversions, hdrop⟩ := hpurge l.root l.path t ht (htrue ▸ hreserved)
      exact hversions.bind fun _ => hdrop.bind fun _ => ih _
    · exact ih report

theorem orphans
    (hroot : ∀ r t, P t → (Op.commit (Sweep.reserve r none) t).answer = .ok true →
      Keeps P (Roots.purge r batch))
    (hpath : ∀ r p t, P t → (Op.commit (Sweep.reserve r (some p)) t).answer = .ok true →
      Keeps P (History.purge r p batch) ∧ Keeps P (Op.drop (.marker r (some p)))) :
    Keeps P (Sweep.orphans batch) := by
  refine (keeps_read _).bind fun rs => (keeps_read _).bind fun ls => ?_
  exact (purgeRoots hreserve hroot rs {}).bind fun report => purgePaths hreserve hpath ls report

end Sweep

/-! ### Recovery -/

section Recovery

variable (hroot : ∀ r, Keeps P (Roots.purge r batch)) (hpath : ∀ r p, Keeps P (History.purge r p batch))

include hroot hpath

theorem finish (m : Marker) : Keeps P (Sweep.finish m batch) := by
  unfold Sweep.finish
  split
  · refine (keeps_read _).bind ?_
    intro live
    split
    · exact keeps_pure _
    · exact (hroot m.root).bind fun _ => keeps_pure _
  · refine (keeps_read _).bind ?_
    intro live
    split
    · exact keeps_pure _
    · exact (hpath m.root _).bind fun _ => keeps_pure _

theorem finishEach {ms : List (Bytes × Marker)} (herase : ∀ e ∈ ms, ∀ t, P t → P (t.erase e.1))
    (report : Sweep.Report) : Keeps P (Sweep.finishEach batch ms report) := by
  induction ms generalizing report with
  | nil => exact keeps_pure _
  | cons e ms ih =>
    apply (finish hroot hpath e.2).bind
    intro done
    apply (erase (herase e List.mem_cons_self)).bind
    intro _
    exact ih (fun e' he' => herase e' (List.mem_cons_of_mem e he')) _

/-- The keys that are erased are those under which markers were found. -/
theorem pending (herase : ∀ k, Key.markers <+: k → ∀ t, P t → P (t.erase k)) :
    Keeps P (Sweep.pending batch) := by
  intro s hs u hu
  rcases mem_commits_bind.1 hu with hu | ⟨ms, hms, hu⟩
  · simp at hu
  · refine finishEach hroot hpath ?_ {} s hs u hu
    intro e he
    exact herase e.1 ((Table.mem_scan hms).1 he).1

end Recovery

/-! ### Attempts -/

/-- Only the stamp of an observation changes from one attempt to the next. -/
theorem attempts {o : Observation} {now : Instant}
    (h : ∀ stamp, Keeps P (Files.observe { o with stamp } now)) (a : Attempt)
    (ha : ∃ stamp, a.observation = { o with stamp }) : Keeps P (a.run now) := by
  induction hn : a.left using Nat.strong_induction_on generalizing a with
  | _ n ih =>
    subst hn
    obtain ⟨stamp, hstamp⟩ := ha
    have hobserve : Keeps P (Files.observe a.observation now) := hstamp ▸ h stamp
    intro t ht s hs
    rw [Attempt.run] at hs
    simp only [Op.attempt] at hs
    split at hs
    · exact hobserve t ht s hs
    · rename_i hnext
      rcases List.mem_append.1 hs with hs | hs
      · exact hobserve t ht s hs
      · obtain ⟨-, stamp', hstamp'⟩ := Attempt.judge_again hnext
        refine ih _ (Attempt.left_of_judge hnext) _ ⟨stamp', ?_⟩ rfl _ (hobserve.final ht) s hs
        rw [hstamp', hstamp]

end Op.Keeps

end SyncLedger
