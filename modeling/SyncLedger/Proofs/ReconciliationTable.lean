/-
  SyncLedger/Proofs/ReconciliationTable.lean
  ==========================================
  **The reconciliation table.**  What becomes of an observation is laid down in eleven lines, each
  with a condition, an answer and the records that are written (`Sight.rows`); the first line that
  applies decides.  The conditions are about what the observation sees, so a line says all that
  can be asked of a reconciliation: what it reads, what it answers and what it leaves.

  `Sight.Shown.reconcile_eq` takes the lines one after another.  For each there is a lemma that the
  transaction ends there, given that no line above it applies.  In every table that can be met the
  observation is one commit of what its line writes, or an error and no commit
  (`observe_by_table`).
-/
import SyncLedger.Proofs.Conflicts
import SyncLedger.Proofs.Sights

namespace SyncLedger

variable {t s : Records} {o : Observation} {see : Sight} {now : Instant}

/-! ### Lines -/

/-- A line of the table: whether it applies, what is answered, and what is written. -/
structure Row where
  applies : Bool
  answer : Except Error Decision
  writes : List (Key × Bytes) := []

namespace Row

/-- What a transaction makes of a table by a line. -/
def outcome (row : Row) (t : Records) : Except Error (Decision × Records) :=
  row.answer.map fun d => (d, t.putAll row.writes)

/-- How an operation goes by a line: in one commit, or in none where the line is an error. -/
def run (row : Row) (t : Records) : Run Decision :=
  match row.answer with
  | .ok d => ⟨[t.putAll row.writes], .ok d⟩
  | .error e => ⟨[], .error e⟩

theorem answer_run (row : Row) (t : Records) : (row.run t).answer = row.answer := by
  unfold run
  cases h : row.answer with
  | ok d => rfl
  | error e => rfl

/-- The first line of a list that applies gives the result. -/
def Decides (rows : List Row) (t : Records) (result : Except Error (Decision × Records)) : Prop :=
  ∃ row, rows.find? (·.applies) = some row ∧ result = row.outcome t

theorem decides_cons {row : Row} {rows : List Row} {result : Except Error (Decision × Records)}
    (hthis : row.applies = true → result = row.outcome t)
    (hrest : row.applies = false → Decides rows t result) : Decides (row :: rows) t result := by
  cases h : row.applies with
  | true => exact ⟨row, List.find?_cons_of_pos h, hthis h⟩
  | false =>
    obtain ⟨first, hfirst, hresult⟩ := hrest h
    have hskip : ¬ row.applies = true := by simp [h]
    exact ⟨first, (List.find?_cons_of_neg hskip).trans hfirst, hresult⟩

end Row

/-- Whether a stamp names a timestamp that is not above the floor. -/
def Stamp.isStale (floor : UInt64) : Stamp → Bool
  | .exact ts => ts ≤ floor
  | .next => false

/-- Whether a stamp asks for the timestamp after the last that there is. -/
def Stamp.isSpent (floor : UInt64) : Stamp → Bool
  | .exact _ => false
  | .next => floor = 0xFFFFFFFFFFFFFFFF

namespace Sight

/-- Whether the observation moves nothing and reports what the file record says already. -/
def agrees (see : Sight) (o : Observation) : Bool :=
  !o.moves && (see.file o.path).any fun f => f.present == o.present && f.hash == o.hash

/-- The file record of the target as a duplicate leaves it. -/
def refreshed (see : Sight) (o : Observation) : File :=
  { (see.file o.path).getD (o.fileAt 0) with metadata := o.metadata }

/-- The file record of the source as a rename leaves it. -/
def vacated (see : Sight) (o : Observation) (timestamp : UInt64) : File :=
  { (see.file o.origin).getD (o.fileAt 0) with hash := o.hash, timestamp, present := false }

/-- The timestamp that a version gets. -/
def timestamp (see : Sight) (o : Observation) : UInt64 :=
  match o.stamp with
  | .exact ts => ts
  | .next => see.floor o + 1

/-- What happens to the path. -/
def change (see : Sight) (o : Observation) : Change :=
  if o.moves then .renamed
  else if !o.present then .deleted
  else if (see.file o.path).any (·.present) then .modified
  else .created

/-- The version that is added. -/
def version (see : Sight) (o : Observation) (now : Instant) : Version :=
  { root := o.root, before := o.source?, after := o.path, date := now, client := o.client,
    timestamp := see.timestamp o, hash := o.hash, change := see.change o }

/-- What a line writes that adds a version: the version under both paths, and their files. -/
def additions (see : Sight) (o : Observation) (now : Instant) : List (Key × Bytes) :=
  let ts := see.timestamp o
  let v := Codec.version.encode (see.version o now)
  (.version o.root o.path ts, v) ::
    (if o.moves then
      [(.version o.root o.origin ts, v),
        (.file o.root o.origin, Codec.file.encode (see.vacated o ts))]
    else []) ++
    [(.file o.root o.path, Codec.file.encode (o.fileAt ts))]

/-- The table, line by line. -/
def rows (see : Sight) (o : Observation) (now : Instant) : List Row :=
  [ { applies := o.path.isEmpty
      answer := .error (.invalidArgument .emptyPath) },
    { applies := o.renamedFrom.isSome && !o.present
      answer := .error (.invalidArgument (.renameDeletes o.root o.path)) },
    { applies := see.root.isNone
      answer := .error (.notFound (.root o.root)) },
    { applies := !see.lists o.client
      answer := .error (.unauthorized (.notMember o.client o.root)) },
    { applies := see.marked o.path
      answer := .error (.conflict (place o.root o.path) 0) },
    { applies := o.moves && see.marked o.origin
      answer := .error (.conflict (place o.root o.origin) 0) },
    { applies := o.moves && !(see.file o.origin).any (·.present)
      answer := .error (.notFound (.renameSource o.root o.origin)) },
    { applies := see.agrees o
      answer := .ok (.duplicate (see.refreshed o))
      writes := if (see.file o.path).any (·.metadata ≠ o.metadata) then
          [(.file o.root o.path, Codec.file.encode (see.refreshed o))]
        else [] },
    { applies := o.stamp.isStale (see.floor o)
      answer := .error (.conflict (place o.root o.path) (see.floor o)) },
    { applies := o.stamp.isSpent (see.floor o)
      answer := .error (.invalidArgument (.noTimestampLeft o.root o.path (see.floor o))) },
    { applies := true
      answer := .ok (.recorded (see.version o now))
      writes := see.additions o now } ]

end Sight

/-! ### The transaction, line by line -/

namespace Files

/-- What is left of a reconciliation once the client is known to be a member. -/
def settle (o : Observation) (now : Instant) : Txn Decision := do
  ensureOpen o.root o.path
  let current ← Txn.fetch Codec.file (.file o.root o.path)
  let source ← sourceOf o
  match current with
  | some f => if isDuplicate o current source then refresh o f else record o current source now
  | none => record o current source now

theorem reconcile_refused {why : Refusal} (h : o.refusal? = some why) :
    reconcile o now t = .error (.invalidArgument why) := by
  unfold reconcile
  simp only [h]
  exact Txn.bind_of_error rfl

theorem reconcile_unknown (hwell : o.refusal? = none)
    (h : t.fetch Codec.root (Key.root o.root).bytes = .ok none) :
    reconcile o now t = .error (.notFound (.root o.root)) := by
  unfold reconcile
  simp only [hwell]
  exact Txn.bind_of_error (Txn.require_of_none h)

theorem reconcile_member {x : Root} (hwell : o.refusal? = none)
    (hx : t.fetch Codec.root (Key.root o.root).bytes = .ok (some x)) (hin : o.client ∈ x.members) :
    reconcile o now t = settle o now t := by
  have hmember : (!x.members.contains o.client) = false := by
    simpa using hin
  unfold reconcile
  simp only [hwell]
  refine (Txn.bind_of_ok (Txn.require_eq_ok_iff.2 ⟨hx, rfl⟩)).trans ?_
  simp only [hmember, Bool.false_eq_true, if_false]
  rfl

theorem settle_marked (h : t.has (.marker o.root (some o.path)) = true) :
    settle o now t = .error (.conflict (place o.root o.path) 0) :=
  Txn.bind_of_error (ensureOpen_marked h)

section Open

variable {current source : Option File}

variable (hopen : t.has (.marker o.root (some o.path)) = false)
  (hcurrent : t.fetch Codec.file (Key.file o.root o.path).bytes = .ok current)

include hopen hcurrent

theorem settle_sourceless {e : Error} (h : sourceOf o t = .error e) :
    settle o now t = .error e := by
  unfold settle
  rw [Txn.bind_of_ok ((ensureOpen_eq_ok_iff (u := ())).2 ⟨hopen, rfl⟩),
    Txn.bind_of_ok (Txn.fetch_eq_ok_iff.2 ⟨hcurrent, rfl⟩)]
  exact Txn.bind_of_error h

theorem settle_sourced (h : sourceOf o t = .ok (source, t)) :
    settle o now t = (match current with
      | some f => if isDuplicate o current source then refresh o f else record o current source now
      | none => record o current source now) t := by
  unfold settle
  rw [Txn.bind_of_ok ((ensureOpen_eq_ok_iff (u := ())).2 ⟨hopen, rfl⟩),
    Txn.bind_of_ok (Txn.fetch_eq_ok_iff.2 ⟨hcurrent, rfl⟩)]
  exact Txn.bind_of_ok h

end Open

theorem sourceOf_marked {p : String} (h : o.source? = some p)
    (hmarked : t.has (.marker o.root (some p)) = true) :
    sourceOf o t = .error (.conflict (place o.root p) 0) := by
  unfold sourceOf
  simp only [h]
  exact Txn.bind_of_error (ensureOpen_marked hmarked)

theorem sourceOf_missing {p : String} (h : o.source? = some p)
    (hopen : t.has (.marker o.root (some p)) = false) {current : Option File}
    (hcurrent : t.fetch Codec.file (Key.file o.root p).bytes = .ok current)
    (hgone : current.any (·.present) = false) :
    sourceOf o t = .error (.notFound (.renameSource o.root p)) := by
  unfold sourceOf
  simp only [h]
  rw [Txn.bind_of_ok ((ensureOpen_eq_ok_iff (u := ())).2 ⟨hopen, rfl⟩),
    Txn.bind_of_ok (Txn.fetch_eq_ok_iff.2 ⟨hcurrent, rfl⟩)]
  cases current with
  | none => rfl
  | some f =>
    have hlost : f.present = false := by simpa using hgone
    simp only [hlost, Bool.false_eq_true, if_false]
    rfl

theorem refresh_eq (f : File) : refresh o f t = .ok (.duplicate { f with metadata := o.metadata },
    t.putAll (if f.metadata ≠ o.metadata then
      [(.file o.root o.path, Codec.file.encode { f with metadata := o.metadata })] else [])) := by
  unfold refresh
  split
  · exact Txn.bind_of_ok (Txn.put_eq_ok_iff (u := ()).2 rfl)
  · rfl

theorem record_refused {current source : Option File} {e : Error}
    (h : o.timestampAbove (floorOf current source) = .error e) :
    record o current source now t = .error e := by
  unfold record
  rw [h]
  exact Txn.bind_of_error rfl

end Files

namespace Sight

/-- The state that the observation moves from, if it moves one. -/
def source (see : Sight) (o : Observation) : Option File :=
  if o.moves then see.file o.origin else none

theorem floorOf_eq (see : Sight) (o : Observation) :
    Files.floorOf (see.file o.path) (see.source o) = see.floor o := by
  have hzero (a : UInt64) : max a 0 = a := by
    show (if a ≤ 0 then 0 else a) = a
    split
    · rename_i hle
      exact (UInt64.le_zero_iff.1 hle).symm
    · rfl
  have hself (a : UInt64) : max a a = a := ite_self _
  cases hmoves : o.moves with
  | true =>
    rw [source, hmoves]
    rfl
  | false =>
    rw [source, hmoves, floor, Observation.origin_eq_path hmoves, hself]
    exact hzero _

/-- A timestamp is refused by one of two lines, or it is the one that the version gets. -/
theorem timestampAbove_eq (see : Sight) (o : Observation) :
    o.timestampAbove (see.floor o) =
      if o.stamp.isStale (see.floor o) then .error (.conflict (place o.root o.path) (see.floor o))
      else if o.stamp.isSpent (see.floor o) then
        .error (.invalidArgument (.noTimestampLeft o.root o.path (see.floor o)))
      else .ok (see.timestamp o) := by
  unfold Observation.timestampAbove timestamp
  cases o.stamp with
  | exact ts =>
    by_cases hlt : see.floor o < ts
    · simp [Stamp.isStale, Stamp.isSpent, hlt, UInt64.not_le]
    · simp [Stamp.isStale, hlt, UInt64.not_lt.1 hlt]
  | next => simp [Stamp.isStale, Stamp.isSpent]

/-- Both paths are open, and the file that is moved is there. -/
structure Open (see : Sight) (o : Observation) : Prop where
  target : see.marked o.path = false
  origin : (o.moves && see.marked o.origin) = false
  there : (o.moves && !(see.file o.origin).any (·.present)) = false

namespace Shown

variable (h : see.Shown t o)

include h

theorem unmarked (hopen : see.Open o) : t.has (.marker o.root (some o.path)) = false :=
  (h.marked o.path (Or.inl rfl)).trans hopen.target

section Open

variable (hopen : see.Open o)

include hopen

/-- A source that is there is the file of the other path. -/
theorem source_cases :
    (o.moves = false ∧ o.source? = none ∧ see.source o = none) ∨
      ∃ f, o.moves = true ∧ o.source? = some o.origin ∧ see.file o.origin = some f ∧
        see.source o = some f ∧ f.path = o.origin ∧ f.present = true := by
  cases hmoves : o.moves with
  | false =>
    have hnone : o.source? = none := by simpa [Observation.moves] using hmoves
    exact Or.inl ⟨rfl, hnone, by simp [source, hmoves]⟩
  | true =>
    have hlive : (see.file o.origin).any (·.present) = true := by
      simpa [hmoves] using hopen.there
    obtain ⟨f, hf, hpresent⟩ := (Option.any_eq_true _ _).1 hlive
    exact Or.inr ⟨f, rfl, Observation.source?_of_moves hmoves, hf, by simp [source, hmoves, hf],
      h.named o.origin (Or.inr rfl) f hf, hpresent⟩

theorem sourceOf_eq : Files.sourceOf o t = .ok (see.source o, t) := by
  rcases h.source_cases hopen with ⟨-, hnone, hsource⟩ | ⟨f, hmoves, hsome, hf, hsource, -, hpresent⟩
  · rw [hsource]
    exact Files.sourceOf_of_none hnone
  · have hfree : t.has (.marker o.root (some o.origin)) = false := by
      rw [h.marked o.origin (Or.inr rfl)]
      simpa [hmoves] using hopen.origin
    rw [hsource]
    exact Files.sourceOf_of_some hsome hfree (hf ▸ h.file o.origin (Or.inr rfl)) hpresent

theorem versionAt_eq (now : Instant) :
    o.versionAt (see.file o.path) (see.source o) now (see.timestamp o) = see.version o now := by
  rcases h.source_cases hopen with ⟨hmoves, hnone, hsource⟩ | ⟨f, hmoves, hsome, -, hsource, hpath, -⟩
  · simp [Observation.versionAt, version, change, Observation.changeOf, hsource, hnone, hmoves]
  · simp [Observation.versionAt, version, change, Observation.changeOf, hsource, hsome, hmoves, hpath]

theorem written_eq (now : Instant) :
    Files.written o (see.source o) (see.version o now) t = t.putAll (see.additions o now) := by
  rcases h.source_cases hopen with ⟨hmoves, -, hsource⟩ | ⟨f, hmoves, -, hf, hsource, hpath, -⟩
  · simp [Files.written, additions, hsource, hmoves, Table.putAll, version]
  · simp [Files.written, additions, hsource, hmoves, Table.putAll, version, vacated, hf, hpath]

theorem settle_duplicate (hagrees : see.agrees o = true) (now : Instant) :
    Files.settle o now t = .ok (.duplicate (see.refreshed o),
      t.putAll (if (see.file o.path).any (·.metadata ≠ o.metadata) then
        [(.file o.root o.path, Codec.file.encode (see.refreshed o))] else [])) := by
  rw [agrees, Bool.and_eq_true, Bool.not_eq_true'] at hagrees
  obtain ⟨hmoves, hsame⟩ := hagrees
  obtain ⟨f, hf, hsame⟩ := (Option.any_eq_true _ _).1 hsame
  have hduplicate : Files.isDuplicate o (some f) (see.source o) = true := by
    simpa [Files.isDuplicate, source, hmoves] using hsame
  rw [Files.settle_sourced (h.unmarked hopen) (h.file o.path (Or.inl rfl)) (h.sourceOf_eq hopen), hf]
  simp only [hduplicate, if_true]
  rw [Files.refresh_eq]
  simp [refreshed, hf]

theorem settle_new (hnew : see.agrees o = false) (now : Instant) :
    Files.settle o now t = Files.record o (see.file o.path) (see.source o) now t := by
  rw [Files.settle_sourced (h.unmarked hopen) (h.file o.path (Or.inl rfl)) (h.sourceOf_eq hopen)]
  cases hcurrent : see.file o.path with
  | none => rfl
  | some f =>
    have hdistinct : Files.isDuplicate o (some f) (see.source o) = false := by
      rcases h.source_cases hopen with ⟨hmoves, -, hsource⟩ | ⟨g, -, -, -, hsource, -⟩
      · simpa [Files.isDuplicate, agrees, hsource, hmoves, hcurrent] using hnew
      · simp [Files.isDuplicate, hsource]
    simp only [hdistinct, Bool.false_eq_true, if_false]

theorem settle_refused (hnew : see.agrees o = false) {e : Error}
    (hrefused : o.timestampAbove (see.floor o) = .error e) (now : Instant) :
    Files.settle o now t = .error e := by
  rw [h.settle_new hopen hnew]
  exact Files.record_refused (floorOf_eq see o ▸ hrefused)

theorem settle_recorded (hroot : see.root.isSome = true) (hnew : see.agrees o = false)
    (hts : o.timestampAbove (see.floor o) = .ok (see.timestamp o)) (now : Instant) :
    Files.settle o now t
      = .ok (.recorded (see.version o now), t.putAll (see.additions o now)) := by
  have hfree := h.free hroot hopen.target _ (Observation.lt_of_timestampAbove hts)
  rw [h.settle_new hopen hnew, Files.record_eq_ok_iff, floorOf_eq]
  refine ⟨_, hts, hfree, ?_, ?_⟩
  · rw [h.versionAt_eq hopen]
  · rw [h.versionAt_eq hopen, h.written_eq hopen]

end Open

/-- The first line that applies says what becomes of the observation. -/
theorem reconcile_eq (now : Instant) :
    Row.Decides (see.rows o now) t (Files.reconcile o now t) := by
  refine Row.decides_cons (fun hempty => ?_) fun hpath => ?_
  · exact Files.reconcile_refused (if_pos hempty)
  refine Row.decides_cons (fun hdeletes => ?_) fun hkeeps => ?_
  · apply Files.reconcile_refused
    rw [Observation.refusal?, if_neg (by simpa using hpath), if_pos hdeletes]
  have hwell : o.refusal? = none := by
    rw [Observation.refusal?, if_neg (by simpa using hpath), if_neg (by simpa using hkeeps)]
  refine Row.decides_cons (fun hunknown => ?_) fun hknown => ?_
  · exact Files.reconcile_unknown hwell (Option.isNone_iff_eq_none.1 hunknown ▸ h.root)
  obtain ⟨x, hx⟩ : ∃ x, see.root = some x := Option.isSome_iff_exists.1 (by simpa using hknown)
  refine Row.decides_cons (fun hstranger => ?_) fun hmember => ?_
  · have hout : ¬ o.client ∈ x.members := by
      rw [← OrderedSet.contains_eq_false_iff]
      simpa [lists, hx] using hstranger
    exact Files.reconcile_stranger hwell (hx ▸ h.root) hout now
  have hin : o.client ∈ x.members := by simpa [lists, hx] using hmember
  rw [Files.reconcile_member hwell (hx ▸ h.root) hin]
  refine Row.decides_cons (fun hmarked => ?_) fun htarget => ?_
  · exact Files.settle_marked ((h.marked o.path (Or.inl rfl)).trans hmarked)
  have hfree : t.has (.marker o.root (some o.path)) = false :=
    (h.marked o.path (Or.inl rfl)).trans htarget
  have hcurrent := h.file o.path (Or.inl rfl)
  refine Row.decides_cons (fun hmarked => ?_) fun horigin => ?_
  · obtain ⟨hmoves, hmarked⟩ := Bool.and_eq_true_iff.1 hmarked
    apply Files.settle_sourceless hfree hcurrent
    exact Files.sourceOf_marked (Observation.source?_of_moves hmoves)
      ((h.marked o.origin (Or.inr rfl)).trans hmarked)
  refine Row.decides_cons (fun hgone => ?_) fun hthere => ?_
  · obtain ⟨hmoves, hgone⟩ := Bool.and_eq_true_iff.1 hgone
    have hopen : t.has (.marker o.root (some o.origin)) = false := by
      rw [h.marked o.origin (Or.inr rfl)]
      simpa [hmoves] using horigin
    apply Files.settle_sourceless hfree hcurrent
    exact Files.sourceOf_missing (Observation.source?_of_moves hmoves) hopen
      (h.file o.origin (Or.inr rfl)) (by simpa using hgone)
  have hopen : see.Open o := ⟨htarget, horigin, hthere⟩
  refine Row.decides_cons (fun hagrees => ?_) fun hnew => ?_
  · exact h.settle_duplicate hopen hagrees now
  refine Row.decides_cons (fun hstale => ?_) fun hlate => ?_
  · exact h.settle_refused hopen hnew ((timestampAbove_eq see o).trans (if_pos hstale)) now
  have hbound := (timestampAbove_eq see o).trans (if_neg (by simpa using hlate))
  refine Row.decides_cons (fun hspent => ?_) fun hleft => ?_
  · exact h.settle_refused hopen hnew (hbound.trans (if_pos hspent)) now
  refine Row.decides_cons (fun _ => ?_) nofun
  have hts := hbound.trans (if_neg (by simpa using hleft))
  exact h.settle_recorded hopen (by simp [hx]) hnew hts now

end Shown

/-! ### What the lines write -/

theorem writes_eq_nil {row : Row} (hrow : row ∈ see.rows o now) {e : Error}
    (he : row.answer = .error e) : row.writes = [] := by
  simp only [rows, List.mem_cons, List.not_mem_nil, or_false] at hrow
  rcases hrow with rfl | rfl | rfl | rfl | rfl | rfl | rfl | rfl | rfl | rfl | rfl
  all_goals first | rfl | contradiction

/-- A line writes nothing, the file record of the target, or what adding a version takes. -/
theorem writes_cases {row : Row} (hrow : row ∈ see.rows o now) :
    row.writes = [] ∨
      row.writes = [(.file o.root o.path, Codec.file.encode (see.refreshed o))] ∨
      row.writes = see.additions o now := by
  simp only [rows, List.mem_cons, List.not_mem_nil, or_false] at hrow
  rcases hrow with rfl | rfl | rfl | rfl | rfl | rfl | rfl | rfl | rfl | rfl | rfl
  case inr.inr.inr.inr.inr.inr.inr.inl =>
    dsimp only
    split
    · exact Or.inr (Or.inl rfl)
    · exact Or.inl rfl
  case inr.inr.inr.inr.inr.inr.inr.inr.inr.inr => exact Or.inr (Or.inr rfl)
  all_goals exact Or.inl rfl

end Sight

namespace Observation

/-- The keys that an observation may write to: of the files and the versions of its paths. -/
def Owns (o : Observation) (k : Key) : Prop :=
  ∃ p, o.Concerns p ∧ (k = .file o.root p ∨ ∃ ts, k = .version o.root p ts)

theorem Fits.owned (h : o.Fits) {k : Key} (hk : o.Owns k) : k.Fits := by
  obtain ⟨p, hp, rfl | ⟨ts, rfl⟩⟩ := hk
  · exact ⟨h.root, h.short hp⟩
  · exact ⟨h.root, h.short hp⟩

end Observation

namespace Sight

theorem owns_of_mem_additions {w : Key × Bytes} (hw : w ∈ see.additions o now) : o.Owns w.1 := by
  have hpath : o.Concerns o.path := Or.inl rfl
  have horigin : o.Concerns o.origin := Or.inr rfl
  unfold additions at hw
  rcases List.mem_cons.1 hw with rfl | hw
  · exact ⟨_, hpath, Or.inr ⟨_, rfl⟩⟩
  · rcases List.mem_append.1 hw with hw | hw
    · split at hw
      · rcases List.mem_pair.1 hw with rfl | rfl
        · exact ⟨_, horigin, Or.inr ⟨_, rfl⟩⟩
        · exact ⟨_, horigin, Or.inl rfl⟩
      · contradiction
    · obtain rfl := List.mem_singleton.1 hw
      exact ⟨_, hpath, Or.inl rfl⟩

theorem owns_of_mem_writes {row : Row} (hrow : row ∈ see.rows o now) {w : Key × Bytes}
    (hw : w ∈ row.writes) : o.Owns w.1 := by
  rcases writes_cases hrow with hnil | hfile | hadd
  · rw [hnil] at hw
    contradiction
  · rw [hfile] at hw
    obtain rfl := List.mem_singleton.1 hw
    exact ⟨_, Or.inl rfl, Or.inl rfl⟩
  · rw [hadd] at hw
    exact owns_of_mem_additions hw

/-- A version is written under each path once, and so is a file. -/
theorem nodup_keys_additions (see : Sight) (o : Observation) (now : Instant) :
    ((see.additions o now).map (·.1)).Nodup := by
  cases hmoves : o.moves with
  | false => simp [additions, hmoves]
  | true =>
    have hne := Observation.origin_ne_path hmoves
    simp [additions, hmoves, hne, hne.symm]

theorem nodup_writes (ho : o.Fits) {row : Row} (hrow : row ∈ see.rows o now) :
    (row.writes.map (·.1.bytes)).Nodup := by
  have hkeys : (row.writes.map (·.1)).Nodup := by
    rcases writes_cases hrow with hnil | hfile | hadd
    · simp [hnil]
    · simp [hfile]
    · exact hadd ▸ nodup_keys_additions see o now
  have hbytes : (row.writes.map (·.1.bytes)) = (row.writes.map (·.1)).map Key.bytes := by simp
  rw [hbytes]
  apply hkeys.map_on
  intro k hk l hl heq
  obtain ⟨w, hw, rfl⟩ := List.mem_map.1 hk
  obtain ⟨v, hv, rfl⟩ := List.mem_map.1 hl
  exact (Key.bytes_inj (ho.owned (owns_of_mem_writes hrow hw))
    (ho.owned (owns_of_mem_writes hrow hv))).1 heq

/-- The first line that applies; the last one does whatever is seen. -/
def first (see : Sight) (o : Observation) (now : Instant) : Row :=
  ((see.rows o now).find? (·.applies)).getD
    ⟨true, .ok (.recorded (see.version o now)), see.additions o now⟩

theorem find?_rows (see : Sight) (o : Observation) (now : Instant) :
    (see.rows o now).find? (·.applies) = some (see.first o now) := by
  have hlast : ((see.rows o now).find? (·.applies)).isSome = true := by
    rw [List.find?_isSome]
    exact ⟨_, List.mem_of_getLast? (l := see.rows o now) rfl, rfl⟩
  obtain ⟨row, hrow⟩ := Option.isSome_iff_exists.1 hlast
  rw [first, hrow, Option.getD_some]

theorem first_mem (see : Sight) (o : Observation) (now : Instant) :
    see.first o now ∈ see.rows o now :=
  List.mem_of_find?_eq_some (find?_rows see o now)

/-- Only the last line knows of the date. -/
theorem first_cases (see : Sight) (o : Observation) :
    (∃ row, ∀ now, see.first o now = row) ∨
      ∀ now, see.first o now
        = ⟨true, .ok (.recorded (see.version o now)), see.additions o now⟩ := by
  have hsplit (now : Instant) : see.rows o now = (see.rows o ⟨0, 0⟩).dropLast ++
      [⟨true, .ok (.recorded (see.version o now)), see.additions o now⟩] := rfl
  cases hearly : (see.rows o ⟨0, 0⟩).dropLast.find? (·.applies) with
  | some row =>
    left
    refine ⟨row, fun now => ?_⟩
    rw [first, hsplit, List.find?_append, hearly]
    rfl
  | none =>
    right
    intro now
    rw [first, hsplit, List.find?_append, hearly]
    rfl

/-- An observation is what its line says. -/
theorem Shown.observe_eq (h : see.Shown t o) (now : Instant) :
    Files.observe o now t = (see.first o now).run t := by
  obtain ⟨row, hrow, hresult⟩ := h.reconcile_eq now
  obtain rfl : see.first o now = row := Option.some.inj ((find?_rows see o now).symm.trans hrow)
  unfold Row.run
  unfold Row.outcome at hresult
  cases hanswer : (see.first o now).answer with
  | ok d =>
    rw [hanswer] at hresult
    exact Op.commit_of_ok hresult
  | error e =>
    rw [hanswer] at hresult
    exact Op.commit_of_error hresult

theorem Shown.outcome_eq (h : see.Shown t o) (now : Instant) :
    (Files.observe o now).outcome t
      = ((see.first o now).answer, t.putAll (see.first o now).writes) := by
  rw [Op.outcome, h.observe_eq now, Row.run]
  cases hanswer : (see.first o now).answer with
  | ok d => rfl
  | error e =>
    rw [writes_eq_nil (first_mem see o now) hanswer]
    rfl

end Sight

/-- **An observation is reconciled as the table says.**  In every table that can be met, also while
    a root or a file is being removed, the observation reads what the table has of its root and its
    paths, and the first line that applies to that decides: its answer is the answer, and its writes
    are made in one commit.  Every record that the line does not write stays as it was; a line that
    is an error commits nothing. -/
theorem observe_by_table (ht : Met t) (ho : o.Fits) (now : Instant) :
    let see := Sight.of t o.root
    see.Shown t o ∧ ∃ row, (see.rows o now).find? (·.applies) = some row ∧
      Files.observe o now t = row.run t ∧
      (∀ w ∈ row.writes, ((Files.observe o now).outcome t).2.get? w.1.bytes = some w.2) ∧
      ∀ k, (∀ w ∈ row.writes, w.1.bytes ≠ k) →
        ((Files.observe o now).outcome t).2.get? k = t.get? k := by
  intro see
  have hshown : see.Shown t o := ht.shown ho
  have houtcome := hshown.outcome_eq now
  refine ⟨hshown, see.first o now, Sight.find?_rows see o now, hshown.observe_eq now, ?_, ?_⟩
  · intro w hw
    rw [houtcome]
    exact Table.get?_putAll_of_mem (Sight.nodup_writes ho (Sight.first_mem see o now)) hw
  · intro k hk
    rw [houtcome]
    exact Table.get?_putAll_of_ne hk

/-! ### A run -/

namespace Session

/-- Two files of a root. -/
def shelf : List Call :=
  [.registerClient ⟨1⟩ "c" ⟨0, 0⟩, .registerRoot "r" "o" "s" salt ⟨0, 0⟩, .joinRoot "r" ⟨1⟩ "s",
    seen "a" "h" 1 none, seen "b" "g" 2 none]

theorem shelf_feasible : Feasible plain shelf where
  engine := storable_plain
  calls := by
    simp only [shelf, List.forall_mem_cons]
    exact ⟨storable_registerClient (by decide), storable_registerRoot (by decide) (by decide),
      trivial, trivial, trivial, nofun⟩
  fresh := by decide
  count := by decide

theorem shelf_fits : ∀ c ∈ shelf, c.Fits := by
  simp only [shelf, List.forall_mem_cons]
  refine ⟨trivial, show Short "r" by decide, trivial, ?_, ?_, by simp⟩
  · exact seen_fits (by decide) (by decide) (by simp)
  · exact seen_fits (by decide) (by decide) (by simp)

/-- The first of the two is being removed: its record is gone, and its version is still there. -/
def halfCleared : Records :=
  ((Removal.path "r" "a").op plain ((fresh plain).run shelf).records).commits.headD .empty

theorem halfCleared_met : Met halfCleared := by
  have hmem : halfCleared ∈
      ((Removal.path "r" "a").op plain ((fresh plain).run shelf).records).commits := by
    rw [halfCleared, List.headD_eq_head?_getD]
    have hsome : ((Removal.path "r" "a").op plain
        ((fresh plain).run shelf).records).commits.head?.isSome = true := by decide +kernel
    obtain ⟨t, ht⟩ := Option.isSome_iff_exists.1 hsome
    rw [ht]
    exact List.mem_of_mem_head? ht
  exact Met.between shelf_feasible shelf_fits plain (m := .path "r" "a")
    ⟨by decide, by decide⟩ hmem .refl

end Session

/-- While the first file is being removed the second is renamed. -/
theorem renamed_while_removing :
    let t := Session.halfCleared
    let o : Observation :=
      { root := "r", path := "c", client := ⟨1⟩, hash := "g", stamp := .next,
        renamedFrom := some "b" }
    Met t ∧ o.Fits ∧ t.has (.marker "r" (some "a")) = true ∧
      ∃ v, (Files.observe o ⟨0, 0⟩ t).answer = .ok (.recorded v) ∧ v.timestamp = 3 ∧
        v.change = .renamed ∧ v.before = some "b" := by
  intro t o
  have ho : o.Fits :=
    ⟨by decide, by decide, by decide, nofun, by simpa [o] using (show Short "b" by decide)⟩
  refine ⟨Session.halfCleared_met, ho, by decide +kernel, ?_⟩
  obtain ⟨-, row, hrow, hrun, -, -⟩ := observe_by_table Session.halfCleared_met ho ⟨0, 0⟩
  -- the line is found by evaluation, and with it the version
  have hline : ((((Sight.of t o.root).rows o ⟨0, 0⟩).find? (·.applies)).bind fun row =>
      row.answer.toOption.bind Decision.version?).map (fun v => (v.timestamp, v.change, v.before))
        = some (3, Change.renamed, some "b") := by
    decide +kernel
  rw [hrow, Option.bind_some, Option.map_eq_some_iff] at hline
  obtain ⟨v, hversion, hv⟩ := hline
  simp only [Prod.mk.injEq] at hv
  obtain ⟨d, hd, hdv⟩ := Option.bind_eq_some_iff.1 hversion
  refine ⟨v, ?_, hv⟩
  rw [hrun, Row.answer_run, eq_ok_of_toOption hd]
  cases d with
  | duplicate f => cases hdv
  | recorded w => exact congrArg (Except.ok ∘ Decision.recorded) (Option.some.inj hdv)

end SyncLedger
