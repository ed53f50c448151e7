/-
  SyncLedger/Proofs/Redelivery.lean
  =================================
  **A report that arrives again changes nothing.**  Once a report is accepted, what it says is in a
  file record: in that of its path, or, where a file was moved, in the tombstone at the path that it
  was moved from (`Settled`).  Whether a report is a duplicate, and whether its source is there, is
  looked at before its stamp.  So the same report with any stamp is answered from that record, and
  nothing is written (`Delivery.log_settled`).

  The record stays settled while nothing else is about its paths, its root or its client
  (`Settled.run`, `Settled.delivered`).  Deliveries that are repeated in this way leave the table that
  they leave when each is made once (`Delivery.Redelivers.after_eq`).
-/
import SyncLedger.Proofs.Commuting
import SyncLedger.Proofs.StoredForms
import SyncLedger.Proofs.Untouched

namespace SyncLedger

variable {t u : Records} {o o' : Observation} {f : File} {now : Instant} {see : Sight}

/-! ### Reports that are repeated -/

namespace Observation

/-- The same report again, with any stamp.  It may name its own path as the former one, or not. -/
structure Repeats (o' o : Observation) : Prop where
  same : o' = { o with stamp := o'.stamp, renamedFrom := o'.renamedFrom }
  source : o'.source? = o.source?
  well : o'.refusal? = none

theorem repeats_restamp (h : o.refusal? = none) (stamp : Stamp) :
    ({ o with stamp } : Observation).Repeats o :=
  ⟨rfl, rfl, h⟩

/-- A file record says what was reported, or that the file has been moved away. -/
def SaidBy (o : Observation) (f : File) : Prop :=
  if o.moves then f.present = false
  else f.present = o.present ∧ f.hash = o.hash ∧ f.metadata = o.metadata

/-- What the report is answered when it arrives again. -/
def echo (o : Observation) (f : File) : Except Error Decision :=
  if o.moves then .error (.notFound (.renameSource o.root o.origin)) else .ok (.duplicate f)

end Observation

/-- The paths of the report have records, and that of the path that it is from says the report. -/
structure Stated (o : Observation) (f : File) (t : Records) : Prop where
  filed : ∀ p, o.Concerns p → ∃ g, t.fetch Codec.file (Key.file o.root p).bytes = .ok (some g)
  latest : t.fetch Codec.file (Key.file o.root o.origin).bytes = .ok (some f)
  said : o.SaidBy f

/-- The report can be answered from the record: its client is a member, and its paths are open. -/
structure Settled (o : Observation) (f : File) (t : Records) : Prop extends Stated o f t where
  member : ∃ x, t.fetch Codec.root (Key.root o.root).bytes = .ok (some x) ∧ o.client ∈ x.members
  opened : ∀ p, o.Concerns p → t.has (.marker o.root (some p)) = false

namespace Settled

theorem restamp {stamp : Stamp} (h : Settled o' f t) (hsame : o' = { o with stamp }) :
    Settled o f t := by
  subst hsame
  exact ⟨⟨h.filed, h.latest, h.said⟩, h.member, h.opened⟩

/-- It does not matter to the report what else is in the table. -/
theorem transfer (h : Settled o f t)
    (hmember : ∃ x, u.fetch Codec.root (Key.root o.root).bytes = .ok (some x) ∧
      o.client ∈ x.members)
    (hopened : ∀ p, o.Concerns p → u.has (.marker o.root (some p)) = false)
    (hfile : ∀ p, o.Concerns p →
      u.get? (Key.file o.root p).bytes = t.get? (Key.file o.root p).bytes) : Settled o f u where
  member := hmember
  opened := hopened
  filed p hp := by
    rw [Table.fetch_congr (hfile p hp)]
    exact h.filed p hp
  latest := by
    rw [Table.fetch_congr (hfile o.origin (Or.inr rfl))]
    exact h.latest
  said := h.said

/-- What settles a report settles it when it arrives again. -/
theorem repeated (h : Settled o f t) (hrepeats : o'.Repeats o) :
    Settled o' f t ∧ o'.echo f = o.echo f := by
  obtain ⟨hsame, hsource, -⟩ := hrepeats
  have hroot : o'.root = o.root := by rw [hsame]
  have hpath : o'.path = o.path := by rw [hsame]
  have hclient : o'.client = o.client := by rw [hsame]
  have horigin : o'.origin = o.origin := by rw [Observation.origin, hsource, hpath]; rfl
  have hmoves : o'.moves = o.moves := by rw [Observation.moves, hsource]; rfl
  have hconcerns (p : String) : o'.Concerns p ↔ o.Concerns p := by
    rw [Observation.Concerns, hpath, horigin]
    rfl
  have hsaid : o'.SaidBy f ↔ o.SaidBy f := by
    rw [Observation.SaidBy, hmoves, hsame]
    rfl
  refine ⟨⟨⟨?_, ?_, hsaid.2 h.said⟩, ?_, ?_⟩, by rw [Observation.echo, hmoves, hroot, horigin]; rfl⟩
  · intro p hp
    rw [hroot]
    exact h.filed p ((hconcerns p).1 hp)
  · rw [hroot, horigin]
    exact h.latest
  · rw [hroot, hclient]
    exact h.member
  · intro p hp
    rw [hroot]
    exact h.opened p ((hconcerns p).1 hp)

/-- The report is answered from the record, and nothing is written. -/
theorem observe (h : Settled o f t) (hwell : o.refusal? = none) (now : Instant) :
    (Files.observe o now).outcome t = (o.echo f, t) := by
  have hopen := h.opened o.path (Or.inl rfl)
  obtain ⟨x, hx, hin⟩ := h.member
  obtain ⟨g, hg⟩ := h.filed o.path (Or.inl rfl)
  have hsaid := h.said
  rw [Attempt.observe_outcome, Files.reconcile_member hwell hx hin]
  cases hmoves : o.moves with
  | true =>
    have hgone : f.present = false := by simpa [Observation.SaidBy, hmoves] using hsaid
    have hmissing := Files.sourceOf_missing (Observation.source?_of_moves hmoves)
      (h.opened o.origin (Or.inr rfl)) h.latest (by simpa using hgone)
    rw [Files.settle_sourceless hopen hg hmissing]
    simp [Observation.echo, hmoves]
  | false =>
    have hlatest := h.latest
    rw [Observation.origin_eq_path hmoves, hg, Except.ok.injEq, Option.some.injEq] at hlatest
    subst hlatest
    have hnone : o.source? = none := by simpa [Observation.moves] using hmoves
    simp only [Observation.SaidBy, hmoves, Bool.false_eq_true, if_false] at hsaid
    obtain ⟨hpresent, hhash, hmetadata⟩ := hsaid
    have hduplicate : Files.isDuplicate o (some g) none = true := by
      simp [Files.isDuplicate, hpresent, hhash]
    rw [Files.settle_sourced hopen hg (Files.sourceOf_of_none hnone)]
    simp only [hduplicate, if_true]
    rw [Files.refresh_eq, ← hmetadata]
    simp [Observation.echo, hmoves, Table.putAll]

end Settled

/-- However a settled report arrives again, and however often, nothing is written. -/
theorem Delivery.outcome_settled (h : Settled o f t) {d : Delivery}
    (hd : d.observation.Repeats o) : d.op.outcome t = (o.echo f, t) := by
  obtain ⟨hagain, hecho⟩ := h.repeated hd
  have hobserve := hagain.observe hd.well d.now
  rw [hecho] at hobserve
  unfold Delivery.op
  cases d.retrying with
  | none => exact hobserve
  | some engine =>
    have hdone (a : Attempt) : a.judge (o.echo f) = .done (o.echo f) := by
      unfold Observation.echo
      split
      · rfl
      · rfl
    unfold Engine.recordEvent
    rw [Attempt.outcome_run, hobserve, hdone]

theorem Delivery.log_settled (h : Settled o f t) {ds : List Delivery}
    (hds : ∀ d ∈ ds, d.observation.Repeats o) :
    Delivery.log ds t = ds.map (fun d => (d, o.echo f)) ∧ Delivery.after ds t = t := by
  induction ds with
  | nil => exact ⟨rfl, rfl⟩
  | cons d ds ih =>
    obtain ⟨hd, hrest⟩ := List.forall_mem_cons.1 hds
    have houtcome := Delivery.outcome_settled h hd
    obtain ⟨hlog, hafter⟩ := ih hrest
    constructor
    · simp [Delivery.log, houtcome, hlog]
    · show Delivery.after ds (d.op.outcome t).2 = t
      rw [houtcome]
      exact hafter

/-! ### Reports that are accepted -/

theorem Codec.storable_of_fetch_file {k : Bytes} (h : t.fetch Codec.file k = .ok (some f)) :
    f.Storable := by
  obtain ⟨b, -, hread⟩ := Table.fetch_eq_some_iff.1 h
  obtain ⟨⟨g, rest⟩, hdecode, rfl⟩ := Option.map_eq_some_iff.1 hread
  exact (Codec.strict_file b g rest hdecode).1

/-- The first line decides, or it is passed over. -/
theorem Row.find?_cons_cases {row first : Row} {rows : List Row}
    (h : (row :: rows).find? (·.applies) = some first) :
    (row.applies = true ∧ row = first) ∨
      (row.applies = false ∧ rows.find? (·.applies) = some first) := by
  cases happlies : row.applies with
  | true => exact Or.inl ⟨rfl, by simpa [List.find?_cons, happlies] using h⟩
  | false => exact Or.inr ⟨rfl, by simpa [List.find?_cons, happlies] using h⟩

/-- A line that is an error does not decide a report that is accepted. -/
theorem Row.find?_cons_of_error {row first : Row} {rows : List Row} {e : Error} {d : Decision}
    (h : (row :: rows).find? (·.applies) = some first) (hrow : row.answer = .error e)
    (hfirst : first.answer = .ok d) :
    row.applies = false ∧ rows.find? (·.applies) = some first := by
  rcases find?_cons_cases h with ⟨-, rfl⟩ | hrest
  · rw [hrow] at hfirst
    contradiction
  · exact hrest

namespace Sight

/-- What is accepted is well-formed, of a member, and about open paths; it says nothing new or it
    becomes a version. -/
theorem accepted_cases {d : Decision} (h : (see.first o now).answer = .ok d) :
    o.refusal? = none ∧ see.lists o.client = true ∧ see.Open o ∧
      ((see.agrees o = true ∧ (see.first o now).writes =
          if (see.file o.path).any (·.metadata ≠ o.metadata) then
            [(.file o.root o.path, Codec.file.encode (see.refreshed o))]
          else []) ∨
        (see.first o now).writes = see.additions o now) := by
  obtain ⟨hpath, h1⟩ := Row.find?_cons_of_error (find?_rows see o now) rfl h
  obtain ⟨hkeeps, h2⟩ := Row.find?_cons_of_error h1 rfl h
  obtain ⟨-, h3⟩ := Row.find?_cons_of_error h2 rfl h
  obtain ⟨hmember, h4⟩ := Row.find?_cons_of_error h3 rfl h
  obtain ⟨htarget, h5⟩ := Row.find?_cons_of_error h4 rfl h
  obtain ⟨horigin, h6⟩ := Row.find?_cons_of_error h5 rfl h
  obtain ⟨hthere, h7⟩ := Row.find?_cons_of_error h6 rfl h
  refine ⟨?_, by simpa using hmember, ⟨htarget, horigin, hthere⟩, ?_⟩
  · rw [Observation.refusal?, if_neg (by simpa using hpath), if_neg (by simpa using hkeeps)]
  · rcases Row.find?_cons_cases h7 with ⟨hagrees, hfirst⟩ | ⟨-, h8⟩
    · exact Or.inl ⟨hagrees, congrArg Row.writes hfirst.symm⟩
    · obtain ⟨-, h9⟩ := Row.find?_cons_of_error h8 rfl h
      obtain ⟨-, h10⟩ := Row.find?_cons_of_error h9 rfl h
      exact Or.inr (congrArg Row.writes (Option.some.inj h10).symm)

theorem Open.unmarked (h : see.Open o) {p : String} (hp : o.Concerns p) : see.marked p = false := by
  rcases hp with rfl | rfl
  · exact h.target
  · cases hmoves : o.moves with
    | false => exact Observation.origin_eq_path hmoves ▸ h.target
    | true => simpa [hmoves] using h.origin

namespace Shown

variable (h : see.Shown t o) (ho : o.Fits) {ws : List (Key × Bytes)}

include h ho

theorem stated_of_agrees (hagrees : see.agrees o = true)
    (hws : ws = if (see.file o.path).any (·.metadata ≠ o.metadata) then
        [(.file o.root o.path, Codec.file.encode (see.refreshed o))] else []) :
    Stated o (see.refreshed o) (t.putAll ws) := by
  obtain ⟨hstays, hsame⟩ := Bool.and_eq_true_iff.1 hagrees
  have hstays : o.moves = false := by simpa using hstays
  have horigin := Observation.origin_eq_path hstays
  obtain ⟨g, hg, hreport⟩ := (Option.any_eq_true _ _).1 hsame
  have hrefreshed : see.refreshed o = { g with metadata := o.metadata } := by
    simp [refreshed, hg]
  have hfetch : t.fetch Codec.file (Key.file o.root o.path).bytes = .ok (some g) :=
    hg ▸ h.file o.path (Or.inl rfl)
  have hlatest : (t.putAll ws).fetch Codec.file (Key.file o.root o.path).bytes
      = .ok (some (see.refreshed o)) := by
    by_cases hknown : g.metadata = o.metadata
    · rw [hws, hg, if_neg (by simpa using hknown), hrefreshed, ← hknown]
      exact hfetch
    · have hstorable : (see.refreshed o).Storable := by
        rw [hrefreshed]
        exact { Codec.storable_of_fetch_file hfetch with metadata := ho.metadata }
      rw [hws, hg, if_pos (by simpa using hknown)]
      apply Table.fetch_putAll_of_mem _ (List.mem_singleton_self _) _
      · simp
      · exact (Codec.restores_storable_file hstorable).read?
  refine ⟨?_, horigin ▸ hlatest, ?_⟩
  · rintro p (rfl | rfl)
    · exact ⟨_, hlatest⟩
    · exact ⟨_, horigin ▸ hlatest⟩
  · simpa [Observation.SaidBy, hstays, hrefreshed] using hreport

theorem stated_of_additions (hopen : see.Open o) (hws : ws = see.additions o now)
    (hnodup : (ws.map (·.1.bytes)).Nodup) : ∃ f, Stated o f (t.putAll ws) := by
  have hwritten {p : String} {f : File} (hf : f.Storable)
      (hmem : (Key.file o.root p, Codec.file.encode f) ∈ see.additions o now) :
      (t.putAll ws).fetch Codec.file (Key.file o.root p).bytes = .ok (some f) :=
    Table.fetch_putAll_of_mem hnodup (hws ▸ hmem) (Codec.restores_storable_file hf).read?
  have htarget : File.Storable (o.fileAt (see.timestamp o)) :=
    File.Fits.storable ⟨ho.root, ho.path, ho.hash, ho.metadata⟩
  have hfiled := hwritten (p := o.path) htarget (by simp [additions])
  cases hmoves : o.moves with
  | false =>
    have horigin := Observation.origin_eq_path hmoves
    refine ⟨_, ?_, horigin ▸ hfiled, ?_⟩
    · rintro p (rfl | rfl)
      · exact ⟨_, hfiled⟩
      · exact ⟨_, horigin ▸ hfiled⟩
    · simp [Observation.SaidBy, hmoves, Observation.fileAt]
  | true =>
    have hlive : (see.file o.origin).any (·.present) = true := by simpa [hmoves] using hopen.there
    obtain ⟨g, hg, -⟩ := (Option.any_eq_true _ _).1 hlive
    have hfetch : t.fetch Codec.file (Key.file o.root o.origin).bytes = .ok (some g) :=
      hg ▸ h.file o.origin (Or.inr rfl)
    have hvacated : see.vacated o (see.timestamp o)
        = { g with hash := o.hash, timestamp := see.timestamp o, present := false } := by
      simp [vacated, hg]
    have hstorable : (see.vacated o (see.timestamp o)).Storable := by
      rw [hvacated]
      exact { Codec.storable_of_fetch_file hfetch with hash := ho.hash.held }
    have hleft := hwritten (p := o.origin) hstorable (by simp [additions, hmoves])
    refine ⟨_, ?_, hleft, ?_⟩
    · rintro p (rfl | rfl)
      · exact ⟨_, hfiled⟩
      · exact ⟨_, hleft⟩
    · simp [Observation.SaidBy, hmoves, hvacated]

/-- Once a report is accepted it is settled. -/
theorem settled {d : Decision} (hd : (see.first o now).answer = .ok d) :
    ∃ f, Settled o f (t.putAll (see.first o now).writes) := by
  obtain ⟨-, hlists, hopen, hcases⟩ := accepted_cases hd
  have howns := fun w => owns_of_mem_writes (w := w) (first_mem see o now)
  have hstated : ∃ f, Stated o f (t.putAll (see.first o now).writes) := by
    rcases hcases with ⟨hagrees, hws⟩ | hws
    · exact ⟨_, h.stated_of_agrees ho hagrees hws⟩
    · exact h.stated_of_additions ho hopen hws (nodup_writes ho (first_mem see o now))
  obtain ⟨f, hf⟩ := hstated
  refine ⟨f, hf, ?_, ?_⟩
  · obtain ⟨x, hx, hin⟩ := (Option.any_eq_true _ _).1 hlists
    have hroot := ho.get?_putAll (t := t) howns (.root o.root) ho.root (by simp [Observation.Owns])
    refine ⟨x, ?_, OrderedSet.contains_iff.1 hin⟩
    rw [Table.fetch_congr hroot, h.root, hx]
  · intro p hp
    have hmarker := ho.get?_putAll (t := t) howns (.marker o.root (some p))
      ⟨ho.root, by simpa using ho.short hp⟩ (by simp [Observation.Owns])
    rw [Table.has_congr hmarker, h.marked p hp]
    exact hopen.unmarked hp

end Shown

end Sight

namespace Delivery

variable {e d : Delivery} {es ds later : List Delivery}

/-- The deciding observation of a delivery is one that fits. -/
theorem Fits.deciding (he : e.Fits) (see : Sight) : (e.deciding see).Fits := by
  obtain ⟨stamp, hstamp⟩ := e.deciding_eq see
  rw [hstamp]
  exact { he.observation with }

theorem met (ht : Met t) (he : e.Fits) : Met (e.op.outcome t).2 := by
  rw [outcome_deciding (ht.shown he.observation)]
  exact ht.observed (he.deciding _) he.now

theorem met_after (ht : Met t) (hes : ∀ e ∈ es, e.Fits) : Met (after es t) := by
  induction es generalizing t with
  | nil => exact ht
  | cons e es ih =>
    obtain ⟨he, hrest⟩ := List.forall_mem_cons.1 hes
    exact ih (met ht he) hrest

theorem settled (ht : Met t) (he : e.Fits) {v : Decision} (hv : (e.op.outcome t).1 = .ok v) :
    ∃ f, Settled e.observation f (e.op.outcome t).2 := by
  have hshown := ht.shown he.observation
  have houtcome := outcome_eq hshown
  rw [houtcome] at hv ⊢
  obtain ⟨stamp, hstamp⟩ := e.deciding_eq (Sight.of t e.observation.root)
  have hdeciding : (Sight.of t e.observation.root).Shown t (e.deciding _) :=
    hstamp ▸ hshown.restamp stamp
  obtain ⟨f, hf⟩ := hdeciding.settled (he.deciding _) hv
  exact ⟨f, hf.restamp hstamp⟩

end Delivery

/-! ### What leaves a report settled -/

namespace Settled

/-- Another delivery, of other paths. -/
theorem delivered (h : Settled o f t) (ho : o.Fits) (ht : Met t) {d : Delivery} (hd : d.Fits)
    (hapart : o.Apart d.observation) : Settled o f (d.op.outcome t).2 := by
  have howns : ∀ w ∈ (d.line (Sight.of t d.observation.root)).writes, d.observation.Owns w.1 :=
    fun w => Delivery.owns_of_mem_line
  rw [Delivery.outcome_eq (ht.shown hd.observation)]
  apply h.transfer
  · obtain ⟨x, hx, hin⟩ := h.member
    have hroot := hd.observation.get?_putAll (t := t) howns (.root o.root) ho.root
      (by simp [Observation.Owns])
    exact ⟨x, (Table.fetch_congr hroot Codec.root).trans hx, hin⟩
  · intro p hp
    have hmarker := hd.observation.get?_putAll (t := t) howns (.marker o.root (some p))
      ⟨ho.root, by simpa using ho.short hp⟩ (by simp [Observation.Owns])
    rw [Table.has_congr hmarker]
    exact h.opened p hp
  · intro p hp
    exact hd.observation.get?_putAll howns (.file o.root p) ⟨ho.root, ho.short hp⟩
      (hapart.not_owns_file hp)

theorem after (h : Settled o f t) (ho : o.Fits) (ht : Met t) {ds : List Delivery}
    (hds : ∀ d ∈ ds, d.Fits) (hapart : ∀ d ∈ ds, o.Apart d.observation) :
    Settled o f (Delivery.after ds t) := by
  induction ds generalizing t with
  | nil => exact h
  | cons d ds ih =>
    obtain ⟨hd, hrest⟩ := List.forall_mem_cons.1 hds
    obtain ⟨hother, hothers⟩ := List.forall_mem_cons.1 hapart
    exact ih (h.delivered ho ht hd hother) (Delivery.met ht hd) hrest hothers

theorem resting (h : Settled o f t) {p : String} (hp : o.Concerns p) :
    ∃ b, Resting o.root p b t := by
  obtain ⟨x, hx, -⟩ := h.member
  obtain ⟨c, hc, -⟩ := Table.fetch_eq_some_iff.1 hx
  obtain ⟨g, hg⟩ := h.filed p hp
  obtain ⟨b, hb, -⟩ := Table.fetch_eq_some_iff.1 hg
  exact ⟨b, Table.has_iff.2 ⟨c, hc⟩, h.opened p hp, hb⟩

/-- Any calls that are not about the paths, the root or the client of the report. -/
theorem run {s : Session} (h : Settled o f s.records) (ho : o.Fits) (ht : Met s.records)
    (hengine : s.engine.Storable) {qs : List Call}
    (hqs : ∀ q ∈ qs, q.Fits ∧ q.Storable ∧ q.KeepsMember o.root o.client ∧
      ∀ p, o.Concerns p → q.Spares o.root p) (hcount : qs.length < 2 ^ 63) :
    Settled o f (s.run qs).records := by
  obtain ⟨j, hfiled, -⟩ := ht.exists_journal
  obtain ⟨g, n, hn, hroster⟩ := ht.exists_roster
  have hresting {p : String} (hp : o.Concerns p) :
      ∃ b, Resting o.root p b s.records ∧ Resting o.root p b (s.run qs).records := by
    obtain ⟨b, hb⟩ := h.resting hp
    refine ⟨b, hb, hb.run ho.root (ho.short hp) hfiled.inPlace ?_⟩
    intro q hq
    exact ⟨(hqs q hq).1, (hqs q hq).2.2.2 p hp⟩
  apply h.transfer
  · obtain ⟨x, hx, hin⟩ := h.member
    have hstored : g.roots o.root = some x := by
      simpa [hroster.fetch_root o.root] using hx
    have henrolled : Enrolled n o.root o.client s.records :=
      ⟨x, hx, (hroster.root _ x hstored).2, hin⟩
    obtain ⟨y, hy, -, hin⟩ := henrolled.run hengine
      (fun q hq => ⟨(hqs q hq).2.1, (hqs q hq).2.2.1⟩) (by omega)
    exact ⟨y, hy, hin⟩
  · intro p hp
    obtain ⟨b, -, hb⟩ := hresting hp
    exact hb.opened
  · intro p hp
    obtain ⟨b, hb, hb'⟩ := hresting hp
    exact hb'.file.trans hb.file.symm

end Settled

/-! ### Deliveries at least once -/

namespace Delivery

variable {e d : Delivery} {es ds later : List Delivery}

theorem log_append (es ds : List Delivery) (t : Records) :
    log (es ++ ds) t = log es t ++ log ds (after es t) := by
  induction es generalizing t with
  | nil => rfl
  | cons e es ih => exact congrArg (_ :: ·) (ih _)

theorem after_append (es ds : List Delivery) (t : Records) :
    after (es ++ ds) t = after ds (after es t) :=
  List.foldl_append

/-- Every delivery was accepted. -/
def Accepted (es : List Delivery) (t : Records) : Prop := ∀ x ∈ log es t, ∃ v, x.2 = .ok v

theorem accepted_append : Accepted (es ++ ds) t ↔ Accepted es t ∧ Accepted ds (after es t) := by
  rw [Accepted, log_append, List.forall_mem_append]
  rfl

theorem accepted_cons : Accepted (e :: es) t ↔
    (∃ v, (e.op.outcome t).1 = .ok v) ∧ Accepted es (e.op.outcome t).2 := by
  rw [Accepted, log, List.forall_mem_cons]
  rfl

/-- Deliveries in which those of a list are made in their order, and each of them may be repeated
    as long as there has been no further one of its paths. -/
inductive Redelivers : List Delivery → List Delivery → Prop where
  | nil : Redelivers [] []
  | first {es ds : List Delivery} (h : Redelivers es ds) (e : Delivery) :
      Redelivers (es ++ [e]) (ds ++ [e])
  | again {es ds later : List Delivery} {e e' : Delivery} (h : Redelivers (es ++ e :: later) ds)
      (hlater : ∀ d ∈ later, e.Apart d) (hrepeats : e'.observation.Repeats e.observation) :
      Redelivers (es ++ e :: later) (ds ++ [e'])

/-- What was accepted stays settled until there is a delivery of its paths. -/
theorem settled_after (ht : Met t) (hes : ∀ d ∈ es ++ e :: later, d.Fits)
    (hapart : ∀ d ∈ later, e.Apart d) (haccepted : Accepted (es ++ e :: later) t) :
    ∃ f, Settled e.observation f (after (es ++ e :: later) t) := by
  obtain ⟨hfirst, hrest⟩ := List.forall_mem_append.1 hes
  obtain ⟨he, hlater⟩ := List.forall_mem_cons.1 hrest
  obtain ⟨⟨v, hv⟩, -⟩ := accepted_cons.1 (accepted_append.1 haccepted).2
  have hmet := met_after ht hfirst
  obtain ⟨f, hf⟩ := settled hmet he hv
  refine ⟨f, ?_⟩
  rw [after_append]
  exact hf.after he.observation (met hmet he) hlater hapart

theorem Redelivers.after_eq (h : Redelivers es ds) (ht : Met t) (hes : ∀ e ∈ es, e.Fits)
    (haccepted : Accepted es t) : after ds t = after es t := by
  induction h with
  | nil => rfl
  | first h e ih =>
    have hrest := ih (fun d hd => hes d (List.mem_append_left _ hd)) (accepted_append.1 haccepted).1
    rw [after_append, after_append, hrest]
  | @again es ds later e e' h hlater hrepeats ih =>
    obtain ⟨f, hf⟩ := settled_after ht hes hlater haccepted
    rw [after_append, ih hes haccepted]
    show (e'.op.outcome _).2 = _
    rw [outcome_settled hf hrepeats]

end Delivery

/-- A session after a delivery over its records. -/
def Session.deliver (s : Session) (e : Delivery) : Session :=
  { s with db := { s.db with records := (e.op.outcome s.records).2 } }

/-- **A report that arrives again is harmless.**  Let a report be accepted in a table that can be
    met, and then let there be calls that are not about its paths and remove neither its root nor its
    client.  However often the same report arrives after that, with whatever stamps and whether or
    not it is tried again, it is answered as a duplicate of the file that is stored, or, where it
    moved a file, that there is none to be moved; and the table stays as it is.

    So if reports are all accepted when each is made once, the same table is left when each is
    repeated until there is another of its paths. -/
theorem redelivery_harmless {s : Session} (hs : Met s.records) :
    (s.engine.Storable → ∀ e : Delivery, e.Fits → ∀ v, (e.op.outcome s.records).1 = .ok v →
      ∀ qs : List Call, (∀ q ∈ qs, q.Fits ∧ q.Storable ∧
        q.KeepsMember e.observation.root e.observation.client ∧
        ∀ p, e.observation.Concerns p → q.Spares e.observation.root p) → qs.length < 2 ^ 63 →
      let u := ((s.deliver e).run qs).records
      ∃ f, (Files.latest e.observation.root e.observation.origin u).answer = .ok f ∧
        ∀ ds : List Delivery, (∀ d ∈ ds, d.observation.Repeats e.observation) →
          Delivery.log ds u = ds.map (fun d => (d, if e.observation.moves then
              .error (.notFound (.renameSource e.observation.root e.observation.origin))
            else .ok (.duplicate f))) ∧
          Delivery.after ds u = u) ∧
    ∀ es ds : List Delivery, (∀ e ∈ es, e.Fits) → Delivery.Accepted es s.records →
      Delivery.Redelivers es ds → Delivery.after ds s.records = Delivery.after es s.records := by
  constructor
  · intro hengine e he v hv qs hqs hcount u
    obtain ⟨f, hf⟩ := Delivery.settled hs he hv
    have hmet : Met (s.deliver e).records := Delivery.met hs he
    have hsettled : Settled e.observation f u :=
      Settled.run (s := s.deliver e) hf he.observation hmet hengine hqs hcount
    obtain ⟨x, hx, -⟩ := hsettled.member
    obtain ⟨b, hb, -⟩ := Table.fetch_eq_some_iff.1 hx
    refine ⟨f, ?_, fun ds hds => Delivery.log_settled hsettled hds⟩
    exact Op.answer_eq (Journal.StoredIn.latest_there (Table.has_iff.2 ⟨b, hb⟩) hsettled.latest)
  · intro es ds hes haccepted h
    exact h.after_eq hs hes haccepted

/-! ### A run -/

namespace Session

/-- An engine over the records of the half-cleared shelf. -/
def shelfLeft : Session := ⟨plain, { records := halfCleared }⟩

/-- The first file is not cleared yet when the second is removed, a client comes, and another file
    is reported. -/
def meanwhile : List Call :=
  [.removeFile "r" "b", .registerClient ⟨2⟩ "c" ⟨0, 0⟩, seen "e" "g" 9 none]

/-- A report of a new file, and the same with a stamp that is long past. -/
def newFile : Delivery := report "d" "k" ⟨1⟩ none none 1

def newFileAgain : Delivery :=
  { newFile with
    observation := { newFile.observation with stamp := .exact 0 }, retrying := some plain }

/-- Another file is renamed. -/
def renamedAfter : Delivery := report "c" "g" ⟨1⟩ (some "b") none 2

theorem shelfLeft_met : Met shelfLeft.records := by
  dsimp only [shelfLeft, records]
  exact halfCleared_met

theorem newFile_fits : newFile.Fits :=
  report_fits (by decide) (by decide) (by simp) ⟨by decide +kernel, by decide⟩ _ _

theorem renamedAfter_fits : renamedAfter.Fits :=
  report_fits (by decide) (by decide) (by simp; decide) ⟨by decide +kernel, by decide⟩ _ _

theorem newFile_repeats (stamp : Stamp) :
    ({ newFile.observation with stamp } : Observation).Repeats newFile.observation :=
  Observation.repeats_restamp rfl stamp

theorem meanwhile_apart : ∀ q ∈ meanwhile, q.Fits ∧ q.Storable ∧ q.KeepsMember "r" ⟨1⟩ ∧
    ∀ p, newFile.observation.Concerns p → q.Spares "r" p := by
  have hpath (p : String) (hp : newFile.observation.Concerns p) : p = "d" := by
    rcases hp with rfl | rfl
    · rfl
    · rfl
  simp only [meanwhile, List.forall_mem_cons]
  refine ⟨⟨?_, trivial, trivial, ?_⟩, ⟨trivial, ?_, trivial, ?_⟩, ⟨?_, trivial, trivial, ?_⟩, by simp⟩
  · exact ⟨by decide, by decide⟩
  · rintro p hp ⟨-, heq⟩
    exact absurd (heq.trans (hpath p hp)) (by decide)
  · exact storable_registerClient (by decide)
  · exact fun _ _ => trivial
  · exact seen_fits (by decide) (by decide) (by simp)
  · rintro p hp -
    obtain rfl := hpath p hp
    rintro (heq | hsource)
    · exact absurd heq (by decide)
    · cases hsource

end Session

/-- The report of the new file is a duplicate from then on, also after a rename elsewhere. -/
theorem new_file_arrives_again :
    let s := Session.shelfLeft
    let e := Session.newFile
    let u := ((s.deliver e).run Session.meanwhile).records
    let renamed := Session.renamedAfter
    Met s.records ∧ s.engine.Storable ∧ e.Fits ∧ Delivery.Accepted [e, renamed] s.records ∧
      (∃ f, (Files.latest "r" "d" u).answer = .ok f ∧
        Delivery.log [e, Session.newFileAgain] u
          = [(e, .ok (.duplicate f)), (Session.newFileAgain, .ok (.duplicate f))] ∧
        Delivery.after [e, Session.newFileAgain] u = u) ∧
      Delivery.after [e, e, renamed, Session.newFileAgain] s.records
        = Delivery.after [e, renamed] s.records := by
  intro s e u renamed
  have hmet : Met s.records := Session.shelfLeft_met
  have hfits := Session.newFile_fits
  have haccepted : Delivery.Accepted [e, renamed] s.records := by
    have hall : (Delivery.log [e, renamed] s.records).all (·.2.toOption.isSome) = true := by
      decide +kernel
    intro x hx
    obtain ⟨v, hv⟩ := Option.isSome_iff_exists.1 (List.all_eq_true.1 hall x hx)
    exact ⟨v, eq_ok_of_toOption hv⟩
  obtain ⟨hechoes, honce⟩ := redelivery_harmless hmet
  refine ⟨hmet, Session.storable_plain, hfits, haccepted, ?_, ?_⟩
  · obtain ⟨⟨v, hv⟩, -⟩ := Delivery.accepted_cons.1 haccepted
    obtain ⟨f, hlatest, hrest⟩ := hechoes Session.storable_plain e hfits v hv Session.meanwhile
      Session.meanwhile_apart (by decide)
    obtain ⟨hlog, hafter⟩ := hrest [e, Session.newFileAgain] (by
      simp only [List.forall_mem_cons]
      exact ⟨Session.newFile_repeats _, Session.newFile_repeats _, by simp⟩)
    exact ⟨f, hlatest, hlog, hafter⟩
  · apply honce [e, renamed] _ (by simpa using ⟨hfits, Session.renamedAfter_fits⟩) haccepted
    have hfirst : Delivery.Redelivers [e] [e, e] :=
      @Delivery.Redelivers.again [] _ [] _ _ (.first .nil e) (by simp) (Session.newFile_repeats _)
    apply @Delivery.Redelivers.again [] _ [renamed] _ _ (hfirst.first renamed)
    · simp only [List.forall_mem_cons]
      exact ⟨Observation.Apart.of_ne (by decide), by simp⟩
    · exact Session.newFile_repeats _

end SyncLedger
