/-
  SyncLedger/Proofs/Commuting.lean
  ================================
  **Observations of different paths commute.**  What an observation reads, and what it writes, is of
  its own paths; the reconciliation table says both.  So the writes of one leave the sight of
  another as it is, when their roots differ or they have no path in common
  (`Sight.Shown.putAll`).

  An observation that is tried again is decided by one of its attempts, and by the sight alone which
  one it is (`Attempt.outcome_last`).  Deliveries that are apart are therefore each answered as if
  they were alone (`Delivery.log_apart`), and what is left of them is the same in any order, but for
  the dates of the versions (`deliveries_commute`).
-/
import SyncLedger.Proofs.ReconciliationTable

namespace SyncLedger

variable {t s u : Records} {o o' : Observation} {see : Sight} {now : Instant}

/-! ### Observations apart -/

/-- Observations of different roots, or without a path in common. -/
def Observation.Apart (o o' : Observation) : Prop :=
  o.root = o'.root → ∀ p, o.Concerns p → ¬ o'.Concerns p

namespace Observation.Apart

theorem symm (h : o.Apart o') : o'.Apart o :=
  fun hroot p hp' hp => h hroot.symm p hp hp'

theorem of_ne (h : ∀ p ∈ [o.path, o.origin], ∀ q ∈ [o'.path, o'.origin], p ≠ q) : o.Apart o' := by
  rintro - p hp hp'
  exact h p (List.mem_pair.2 hp) p (List.mem_pair.2 hp') rfl

theorem not_owns_file (h : o.Apart o') {p : String} (hp : o.Concerns p) :
    ¬ o'.Owns (.file o.root p) := by
  rintro ⟨q, hq, heq | ⟨ts, heq⟩⟩
  · obtain ⟨hroot, rfl⟩ := Key.file.inj heq
    exact h hroot p hp hq
  · contradiction

theorem not_owns_version (h : o.Apart o') {p : String} (hp : o.Concerns p) (ts : UInt64) :
    ¬ o'.Owns (.version o.root p ts) := by
  rintro ⟨q, hq, heq | ⟨ts', heq⟩⟩
  · contradiction
  · obtain ⟨hroot, rfl, -⟩ := Key.version.inj heq
    exact h hroot p hp hq

theorem not_owns (h : o.Apart o') {k : Key} (hk : o.Owns k) : ¬ o'.Owns k := by
  obtain ⟨p, hp, rfl | ⟨ts, rfl⟩⟩ := hk
  · exact h.not_owns_file hp
  · exact h.not_owns_version hp ts

end Observation.Apart

/-- Writes at the paths of an observation leave all other records alone. -/
theorem Observation.Fits.get?_putAll (ho : o.Fits) {ws : List (Key × Bytes)}
    (hws : ∀ w ∈ ws, o.Owns w.1) (k : Key) (hk : k.Fits) (hother : ¬ o.Owns k) :
    (t.putAll ws).get? k.bytes = t.get? k.bytes := by
  apply Table.get?_putAll_of_ne
  intro w hw heq
  obtain rfl := (Key.bytes_inj (ho.owned (hws w hw)) hk).1 heq
  exact hother (hws w hw)

/-- An observation sees the same after writes at the paths of another. -/
theorem Sight.Shown.putAll (h : see.Shown t o) (ho : o.Fits) (ho' : o'.Fits) (hapart : o.Apart o')
    {ws : List (Key × Bytes)} (hws : ∀ w ∈ ws, o'.Owns w.1) : see.Shown (t.putAll ws) o := by
  have hroot := ho'.get?_putAll (t := t) hws (.root o.root) ho.root (by simp [Observation.Owns])
  have hmarker (p : String) (hp : o.Concerns p) :=
    ho'.get?_putAll (t := t) hws (.marker o.root (some p)) ⟨ho.root, by simpa using ho.short hp⟩
      (by simp [Observation.Owns])
  have hfile (p : String) (hp : o.Concerns p) :=
    ho'.get?_putAll (t := t) hws (.file o.root p) ⟨ho.root, ho.short hp⟩ (hapart.not_owns_file hp)
  have hversion (ts : UInt64) :=
    ho'.get?_putAll (t := t) hws (.version o.root o.path ts) ⟨ho.root, ho.path⟩
      (hapart.not_owns_version (Or.inl rfl) ts)
  constructor
  · rw [Table.fetch_congr hroot]
    exact h.root
  · intro p hp
    rw [Table.has_congr (hmarker p hp)]
    exact h.marked p hp
  · intro p hp
    rw [Table.fetch_congr (hfile p hp)]
    exact h.file p hp
  · exact h.named
  · intro hthere hopen ts hts
    rw [Table.has_congr (hversion ts)]
    exact h.free hthere hopen ts hts

/-! ### Attempts -/

namespace Attempt

/-- The observation of the attempt that decides, when every attempt sees the same. -/
def last (see : Sight) (a : Attempt) : Observation :=
  match _h : a.judge (see.first a.observation ⟨0, 0⟩).answer with
  | .done _ => a.observation
  | .again _ next => last see next
termination_by a.left
decreasing_by exact left_of_judge _h

theorem last_of_done {a : Attempt} {answer : Except Error Decision}
    (h : a.judge (see.first a.observation ⟨0, 0⟩).answer = .done answer) :
    a.last see = a.observation := by
  rw [last]
  split
  · rfl
  · rename_i hagain
    rw [h] at hagain
    contradiction

theorem last_of_again {a next : Attempt} {wait : UInt64}
    (h : a.judge (see.first a.observation ⟨0, 0⟩).answer = .again wait next) :
    a.last see = next.last see := by
  rw [last]
  split
  · rename_i hdone
    rw [h] at hdone
    contradiction
  · rename_i hagain
    obtain ⟨-, rfl⟩ := Verdict.again.inj (h.symm.trans hagain)
    rfl

/-- Attempts differ in their stamps. -/
theorem last_eq (see : Sight) (a : Attempt) :
    ∃ stamp, a.last see = { a.observation with stamp } := by
  induction hn : a.left using Nat.strong_induction_on generalizing a with
  | _ n ih =>
    subst hn
    cases hj : a.judge (see.first a.observation ⟨0, 0⟩).answer with
    | done answer => exact ⟨a.observation.stamp, last_of_done hj⟩
    | again wait next =>
      obtain ⟨-, stamp, hstamp⟩ := judge_again hj
      obtain ⟨stamp', hlast⟩ := ih _ (left_of_judge hj) next rfl
      exact ⟨stamp', by rw [last_of_again hj, hlast, hstamp]⟩

/-- An observation that is tried again comes to what its last attempt does. -/
theorem outcome_last (a : Attempt) (h : see.Shown t a.observation) (now : Instant) :
    (a.run now).outcome t = (Files.observe (a.last see) now).outcome t := by
  -- on the attempts that are left: one that is not the last is an error and writes nothing
  induction hn : a.left using Nat.strong_induction_on generalizing a with
  | _ n ih =>
    subst hn
    rw [outcome_run, h.outcome_eq now]
    rcases Sight.first_cases see a.observation with ⟨row, hrow⟩ | hadd
    · cases hj : a.judge row.answer with
      | done answer =>
        have hlast : a.last see = a.observation := last_of_done (hrow ⟨0, 0⟩ ▸ hj)
        rw [hlast, h.outcome_eq now, hrow now, hj, judge_done hj]
      | again wait next =>
        obtain ⟨⟨e, he⟩, stamp, hstamp⟩ := judge_again hj
        have hmem : row ∈ see.rows a.observation now := hrow now ▸ Sight.first_mem _ _ now
        have hshown : see.Shown t next.observation := hstamp ▸ h.restamp stamp
        have hlast : a.last see = next.last see := last_of_again (hrow ⟨0, 0⟩ ▸ hj)
        rw [hlast, hrow now, hj, Sight.writes_eq_nil hmem he]
        exact ih _ (left_of_judge hj) next hshown rfl
    · have hj (now : Instant) : a.judge (see.first a.observation now).answer
          = .done (see.first a.observation now).answer := by
        rw [hadd now]
        rfl
      rw [last_of_done (hj ⟨0, 0⟩), h.outcome_eq now, hj now]

end Attempt

/-! ### Dates -/

/-- A stored version with another date in place of its own, and any other record as it is. -/
def undated (k b : Bytes) : Bytes :=
  if Key.versions.isPrefixOf k then
    ((Codec.version.read? b).map fun v => Codec.version.encode { v with date := ⟨0, 0⟩ }).getD b
  else b

/-- Tables with the same records but for the dates of versions. -/
def SameButDates (s t : Records) : Prop :=
  ∀ k, (s.get? k).map (undated k) = (t.get? k).map (undated k)

namespace SameButDates

theorem refl (t : Records) : SameButDates t t := fun _ => rfl

theorem symm (h : SameButDates s t) : SameButDates t s := fun k => (h k).symm

theorem trans (h : SameButDates s t) (h' : SameButDates t u) : SameButDates s u :=
  fun k => (h k).trans (h' k)

/-- Writes that differ in dates only. -/
def Writes (ws vs : List (Key × Bytes)) : Prop :=
  List.Forall₂ (fun w v => w.1 = v.1 ∧ undated w.1.bytes w.2 = undated v.1.bytes v.2) ws vs

theorem Writes.refl (ws : List (Key × Bytes)) : Writes ws ws :=
  List.forall₂_same.2 fun _ _ => ⟨rfl, rfl⟩

theorem putAll {ws vs : List (Key × Bytes)} (h : SameButDates s t) (hws : Writes ws vs) :
    SameButDates (s.putAll ws) (t.putAll vs) := by
  induction hws generalizing s t with
  | nil => exact h
  | @cons w v ws vs hfirst _ ih =>
    obtain ⟨hkey, hvalue⟩ := hfirst
    apply ih
    intro k
    rw [Table.get?_insert, Table.get?_insert, ← hkey]
    split
    · rename_i hk
      subst hk
      simpa [hkey] using hvalue
    · exact h k

end SameButDates

/-- A decision without the date of its version. -/
def Decision.undated : Decision → Decision
  | .recorded v => .recorded { v with date := ⟨0, 0⟩ }
  | .duplicate f => .duplicate f

namespace Sight

theorem version_fits (see : Sight) (ho : o.Fits) (hnow : now.Representable) :
    (see.version o now).Fits where
  root := ho.root
  before p hp := ho.former p (Observation.source?_eq_some hp).1
  after := ho.path
  date := hnow
  hash := ho.hash

theorem undated_version (see : Sight) (ho : o.Fits) (hnow : now.Representable) (r p : String)
    (ts : UInt64) :
    undated (Key.version r p ts).bytes (Codec.version.encode (see.version o now))
      = Codec.version.encode (see.version o ⟨0, 0⟩) := by
  have hversion : Key.versions.isPrefixOf (Key.version r p ts).bytes = true :=
    List.isPrefixOf_iff_prefix.2 (Key.versions_prefix_iff.2 ⟨r, p, ts, rfl⟩)
  rw [undated, if_pos hversion, (Codec.restores_version (see.version_fits ho hnow)).read?]
  rfl

theorem first_undated (see : Sight) (ho : o.Fits) {now now' : Instant} (hnow : now.Representable)
    (hnow' : now'.Representable) :
    (see.first o now).answer.map Decision.undated
        = (see.first o now').answer.map Decision.undated ∧
      SameButDates.Writes (see.first o now).writes (see.first o now').writes := by
  rcases first_cases see o with ⟨row, hrow⟩ | hadd
  · rw [hrow now, hrow now']
    exact ⟨rfl, .refl _⟩
  · rw [hadd now, hadd now']
    refine ⟨rfl, ?_⟩
    have hsame (p : String) := (see.undated_version ho hnow o.root p (see.timestamp o)).trans
      (see.undated_version ho hnow' o.root p (see.timestamp o)).symm
    unfold SameButDates.Writes additions
    cases o.moves with
    | false => exact .cons ⟨rfl, hsame _⟩ (.cons ⟨rfl, rfl⟩ .nil)
    | true =>
      exact .cons ⟨rfl, hsame _⟩
        (.cons ⟨rfl, hsame _⟩ (.cons ⟨rfl, rfl⟩ (.cons ⟨rfl, rfl⟩ .nil)))

end Sight

/-! ### Deliveries -/

/-- An observation that is handed in at some date, to be made once, or to be tried again as the
    settings of an engine allow. -/
structure Delivery where
  observation : Observation
  retrying : Option Engine
  now : Instant

namespace Delivery

variable {e d : Delivery} {es ds : List Delivery}

def op (e : Delivery) : Op Decision :=
  match e.retrying with
  | none => Files.observe e.observation e.now
  | some engine => engine.recordEvent e.observation e.now

/-- What is there of the root of a delivery. -/
def sight (t : Records) (e : Delivery) : Sight := Sight.of t e.observation.root

structure Fits (e : Delivery) : Prop where
  observation : e.observation.Fits
  now : e.now.Representable

def Apart (e d : Delivery) : Prop := e.observation.Apart d.observation

/-- The delivery without its date. -/
def undated (e : Delivery) : Delivery := { e with now := ⟨0, 0⟩ }

/-- Makes deliveries one after another; notes what each is answered. -/
def log : List Delivery → Records → List (Delivery × Except Error Decision)
  | [], _ => []
  | e :: es, t => (e, (e.op.outcome t).1) :: log es (e.op.outcome t).2

/-- The table after deliveries were made one after another. -/
def after (es : List Delivery) (t : Records) : Records :=
  es.foldl (fun t e => (e.op.outcome t).2) t

/-- The observation that decides a delivery. -/
def deciding (e : Delivery) (see : Sight) : Observation :=
  match e.retrying with
  | none => e.observation
  | some engine => Attempt.last see
    { observation := e.observation
      backoff := { base := engine.config.retry.baseDelayMs, budget := engine.config.retry.maxAttempts } }

/-- The line that decides a delivery. -/
def line (e : Delivery) (see : Sight) : Row := see.first (e.deciding see) e.now

theorem deciding_eq (e : Delivery) (see : Sight) :
    ∃ stamp, e.deciding see = { e.observation with stamp } := by
  unfold deciding
  cases e.retrying with
  | none => exact ⟨e.observation.stamp, rfl⟩
  | some engine => exact Attempt.last_eq see _

/-- A delivery comes to what the observation does that decides it. -/
theorem outcome_deciding (h : see.Shown t e.observation) :
    e.op.outcome t = (Files.observe (e.deciding see) e.now).outcome t := by
  unfold op deciding
  cases e.retrying with
  | none => rfl
  | some engine => exact Attempt.outcome_last _ h e.now

theorem outcome_eq (h : see.Shown t e.observation) :
    e.op.outcome t = ((e.line see).answer, t.putAll (e.line see).writes) := by
  obtain ⟨stamp, hstamp⟩ := e.deciding_eq see
  have hshown : see.Shown t (e.deciding see) := hstamp ▸ h.restamp stamp
  rw [outcome_deciding h, hshown.outcome_eq e.now]
  rfl

theorem owns_of_mem_line {w : Key × Bytes} (hw : w ∈ (e.line see).writes) :
    e.observation.Owns w.1 := by
  obtain ⟨stamp, hstamp⟩ := e.deciding_eq see
  have howns := Sight.owns_of_mem_writes (Sight.first_mem _ _ _) hw
  rwa [hstamp] at howns

theorem line_undated (he : e.Fits) (hd : d.Fits) (h : e.undated = d.undated) (see : Sight) :
    (e.line see).answer.map Decision.undated = (d.line see).answer.map Decision.undated ∧
      SameButDates.Writes (e.line see).writes (d.line see).writes := by
  obtain ⟨o, retrying, now⟩ := e
  obtain ⟨o', retrying', now'⟩ := d
  obtain ⟨rfl, rfl, -⟩ := Delivery.mk.inj h
  obtain ⟨stamp, hstamp⟩ := deciding_eq ⟨o, retrying, now⟩ see
  have hfits : (deciding ⟨o, retrying, now⟩ see).Fits := by
    rw [hstamp]
    exact { he.observation with }
  exact see.first_undated hfits he.now hd.now

/-- Deliveries that are apart are each answered as if they were alone, and leave what they write
    alone. -/
theorem log_apart (hes : ∀ e ∈ es, e.Fits ∧ (e.sight t).Shown s e.observation)
    (hapart : es.Pairwise Apart) :
    log es s = es.map (fun e => (e, (e.line (e.sight t)).answer)) ∧
      after es s = s.putAll (es.flatMap fun e => (e.line (e.sight t)).writes) := by
  induction es generalizing s with
  | nil => exact ⟨rfl, rfl⟩
  | cons e es ih =>
    obtain ⟨hfirst, hrest⟩ := List.forall_mem_cons.1 hes
    obtain ⟨hnew, hpairs⟩ := List.pairwise_cons.1 hapart
    have houtcome := outcome_eq hfirst.2
    have hnext : ∀ d ∈ es, d.Fits ∧
        (d.sight t).Shown (s.putAll (e.line (e.sight t)).writes) d.observation := by
      intro d hd
      refine ⟨(hrest d hd).1, ?_⟩
      exact (hrest d hd).2.putAll (hrest d hd).1.observation hfirst.1.observation (hnew d hd).symm
        fun w => owns_of_mem_line
    obtain ⟨hlog, hafter⟩ := ih hnext hpairs
    constructor
    · simp [log, houtcome, hlog]
    · rw [List.flatMap_cons, Table.putAll_append, ← hafter]
      show after es (e.op.outcome s).2 = _
      rw [houtcome]

/-- Deliveries that are apart write to different keys. -/
theorem writes_apart (he : e.Fits) (hd : d.Fits) (h : e.Apart d) {see see' : Sight} :
    ∀ w ∈ (e.line see).writes, ∀ v ∈ (d.line see').writes, w.1.bytes ≠ v.1.bytes := by
  intro w hw v hv heq
  have howns := owns_of_mem_line hw
  rw [(Key.bytes_inj (he.observation.owned howns)
    (hd.observation.owned (owns_of_mem_line hv))).1 heq] at howns
  exact h.not_owns howns (owns_of_mem_line hv)

theorem putAll_perm (hes : ∀ e ∈ es, e.Fits) (hapart : es.Pairwise Apart) (hperm : ds.Perm es)
    (see : Delivery → Sight) (t : Records) :
    t.putAll (ds.flatMap fun e => (e.line (see e)).writes)
      = t.putAll (es.flatMap fun e => (e.line (see e)).writes) := by
  have hfold (es : List Delivery) (t : Records) :
      t.putAll (es.flatMap fun e => (e.line (see e)).writes)
        = es.foldl (fun t e => t.putAll (e.line (see e)).writes) t := by
    induction es generalizing t with
    | nil => rfl
    | cons e es ih => rw [List.flatMap_cons, Table.putAll_append, List.foldl_cons, ih]
  rw [hfold, hfold]
  apply hperm.foldl_eq'
  intro e he d hd t
  have he := hperm.subset he
  have hd := hperm.subset hd
  by_cases hed : e = d
  · rw [hed]
  · have hsymm : Std.Symm Apart := ⟨fun _ _ h => h.symm⟩
    exact Table.putAll_comm (writes_apart (hes e he) (hes d hd) (hapart.forall he hd hed))

/-- A note without the dates in it. -/
def undatedNote (x : Delivery × Except Error Decision) : Delivery × Except Error Decision :=
  (x.1.undated, x.2.map Decision.undated)

theorem undated_fits (he : e.Fits) : e.undated.Fits where
  observation := he.observation
  now := show (⟨0, 0⟩ : Instant).Representable from ⟨by decide, by decide⟩

end Delivery

theorem SameButDates.Writes.flatMap_undated {es : List Delivery} (hes : ∀ e ∈ es, e.Fits)
    (see : Delivery → Sight) (hsee : ∀ e, see e.undated = see e) :
    SameButDates.Writes (es.flatMap fun e => (e.line (see e)).writes)
      ((es.map Delivery.undated).flatMap fun e => (e.line (see e)).writes) := by
  induction es with
  | nil => exact .nil
  | cons e es ih =>
    obtain ⟨hfirst, hrest⟩ := List.forall_mem_cons.1 hes
    rw [List.map_cons, List.flatMap_cons, List.flatMap_cons, hsee]
    have hline := (Delivery.line_undated hfirst (Delivery.undated_fits hfirst) rfl (see e)).2
    exact List.rel_append hline (ih hrest)

/-- **Observations of different paths commute.**  In a table that can be met let observations be
    made that are pairwise of different roots or without a path in common, each once or tried again
    by some engine.  Each is answered as it would be alone.  In any other order, at whatever dates,
    each has the same decision or the same error and the table that is left is the same, but for the
    dates of the versions; and where the dates are kept too, nothing differs. -/
theorem deliveries_commute (ht : Met t) {es es' : List Delivery} (hes : ∀ e ∈ es, e.Fits)
    (hes' : ∀ e ∈ es', e.Fits) (hapart : es.Pairwise Delivery.Apart)
    (hsame : (es'.map Delivery.undated).Perm (es.map Delivery.undated)) :
    Delivery.log es t = es.map (fun e => (e, (e.op.outcome t).1)) ∧
      ((Delivery.log es' t).map Delivery.undatedNote).Perm
        ((Delivery.log es t).map Delivery.undatedNote) ∧
      SameButDates (Delivery.after es' t) (Delivery.after es t) ∧
      (es'.Perm es → (Delivery.log es' t).Perm (Delivery.log es t) ∧
        Delivery.after es' t = Delivery.after es t) := by
  -- each list is settled by lines that its first table shows already
  have hlines {ds : List Delivery} (hds : ∀ e ∈ ds, e.Fits) (hpairs : ds.Pairwise Delivery.Apart) :=
    Delivery.log_apart (s := t) (t := t) (fun e he => ⟨hds e he, ht.shown (hds e he).observation⟩)
      hpairs
  have hpairs : es'.Pairwise Delivery.Apart := by
    have hundated : (es.map Delivery.undated).Pairwise Delivery.Apart := List.pairwise_map.2 hapart
    show es'.Pairwise fun e d => e.undated.Apart d.undated
    exact List.pairwise_map.1 (hsame.symm.pairwise hundated fun h => h.symm)
  obtain ⟨hlog, hafter⟩ := hlines hes hapart
  obtain ⟨hlog', hafter'⟩ := hlines hes' hpairs
  -- without the dates the notes are a function of the deliveries
  have hnotes {ds : List Delivery} (hds : ∀ e ∈ ds, e.Fits) :
      (ds.map fun e => (e, (e.line (e.sight t)).answer)).map Delivery.undatedNote
        = (ds.map Delivery.undated).map
            fun e => (e, (e.line (e.sight t)).answer.map Decision.undated) := by
    rw [List.map_map, List.map_map]
    apply List.map_congr_left
    intro e he
    have hline := Delivery.line_undated (hds e he) (Delivery.undated_fits (hds e he)) rfl (e.sight t)
    exact Prod.ext rfl hline.1
  refine ⟨?_, ?_, ?_, ?_⟩
  · rw [hlog]
    apply List.map_congr_left
    intro e he
    rw [Delivery.outcome_eq (ht.shown (hes e he).observation)]
    rfl
  · rw [hlog, hlog', hnotes hes, hnotes hes']
    exact hsame.map _
  · have hdates {ds : List Delivery} (hds : ∀ e ∈ ds, e.Fits) :=
      (SameButDates.refl t).putAll (SameButDates.Writes.flatMap_undated hds (Delivery.sight t)
        fun _ => rfl)
    have hundated : ∀ e ∈ es.map Delivery.undated, e.Fits := by
      intro e he
      obtain ⟨d, hd, rfl⟩ := List.mem_map.1 he
      exact Delivery.undated_fits (hes d hd)
    have hexchanged := Delivery.putAll_perm hundated (List.pairwise_map.2 hapart) hsame
      (Delivery.sight t) t
    rw [hafter, hafter']
    exact (hdates hes').trans (hexchanged ▸ (hdates hes).symm)
  · intro hperm
    rw [hlog, hlog', hafter, hafter']
    exact ⟨hperm.map _, Delivery.putAll_perm hes hapart hperm (Delivery.sight t) t⟩

/-! ### A run -/

namespace Session

/-- A report on the root `r`, so many seconds after the first date. -/
def report (path hash : String) (client : Uuid) (renamedFrom : Option String)
    (retrying : Option Engine) (seconds : Int) : Delivery :=
  ⟨{ root := "r", path, client, hash, stamp := .next, renamedFrom }, retrying, ⟨seconds, 0⟩⟩

theorem report_fits {path hash : String} {renamedFrom : Option String} {seconds : Int}
    (hpath : Short path) (hhash : Short hash) (hformer : ∀ p ∈ renamedFrom, Short p)
    (hnow : Instant.Representable ⟨seconds, 0⟩) (client : Uuid) (retrying : Option Engine) :
    (report path hash client renamedFrom retrying seconds).Fits :=
  ⟨⟨show Short "r" by decide, hpath, hhash, nofun, hformer⟩, hnow⟩

/-- A rename that is tried again, a new file, and a report of somebody who is no member. -/
def threeReports : List Delivery :=
  [report "c" "g" ⟨1⟩ (some "b") (some plain) 1, report "d" "k" ⟨1⟩ none none 2,
    report "e" "k" ⟨2⟩ none none 3]

theorem threeReports_fits : ∀ e ∈ threeReports, e.Fits := by
  have hdate : ∀ n ∈ [1, 2, 3], Instant.Representable ⟨n, 0⟩ := by
    simp only [List.forall_mem_cons]
    exact ⟨⟨by decide +kernel, by decide⟩, ⟨by decide +kernel, by decide⟩,
      ⟨by decide +kernel, by decide⟩, nofun⟩
  simp only [threeReports, List.forall_mem_cons]
  refine ⟨?_, ?_, ?_, by simp⟩
  · exact report_fits (by decide) (by decide) (by simp; decide) (hdate 1 (by simp)) _ _
  · exact report_fits (by decide) (by decide) (by simp) (hdate 2 (by simp)) _ _
  · exact report_fits (by decide) (by decide) (by simp) (hdate 3 (by simp)) _ _

theorem threeReports_apart : threeReports.Pairwise Delivery.Apart := by
  simp only [threeReports, List.pairwise_cons, List.forall_mem_cons]
  refine ⟨⟨?_, ?_, by simp⟩, ⟨?_, by simp⟩, by simp, .nil⟩
  all_goals exact Observation.Apart.of_ne (by decide)

end Session

/-- Made in the other order and at one date, the three come to the same. -/
theorem three_reports_in_either_order :
    let t := Session.halfCleared
    let es := Session.threeReports
    let es' := (es.map Delivery.undated).reverse
    Met t ∧ es.Pairwise Delivery.Apart ∧ (es'.map Delivery.undated).Perm (es.map Delivery.undated) ∧
      SameButDates (Delivery.after es' t) (Delivery.after es t) ∧
      Delivery.after es.reverse t = Delivery.after es t := by
  intro t es es'
  have hfits := Session.threeReports_fits
  have hfits' : ∀ e ∈ es', e.Fits := by
    intro e he
    obtain ⟨d, hd, rfl⟩ := List.mem_map.1 (List.mem_reverse.1 he)
    exact Delivery.undated_fits (hfits d hd)
  have hsame : (es'.map Delivery.undated).Perm (es.map Delivery.undated) := by
    rw [List.map_reverse, List.map_map]
    exact List.reverse_perm _
  have hreverse : (es.reverse.map Delivery.undated).Perm (es.map Delivery.undated) :=
    (List.reverse_perm es).map _
  refine ⟨Session.halfCleared_met, Session.threeReports_apart, hsame, ?_, ?_⟩
  · exact (deliveries_commute Session.halfCleared_met hfits hfits' Session.threeReports_apart
      hsame).2.2.1
  · have hall := deliveries_commute Session.halfCleared_met hfits
      (fun e he => hfits e (List.mem_reverse.1 he)) Session.threeReports_apart hreverse
    exact (hall.2.2.2 (List.reverse_perm es)).2

end SyncLedger
