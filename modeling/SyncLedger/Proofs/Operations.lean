/-
  SyncLedger/Proofs/Operations.lean
  =================================
  **How operations compose.**  For what an operation answers and leaves at its end there is
  `Op.outcome`, with an equation for each combinator.  For what it commits on the way there is
  `Op.mem_commits_bind`; a property that every commit keeps is kept by sequencing
  (`Op.Keeps`).  An operation that looks first, or that can fail in its first part only, fails
  without a trace if that part does (`Op.Quiet.bind_atomic`, `Op.Atomic.bind_total`).  A
  transaction that commits has run each of its steps (`Txn.bind_eq_ok_iff`).

  Purging a prefix leaves the table without the keys under it, answers with their number, and
  touches no other key in any of its commits (`outcome_purge`, `get?_of_mem_purge`).
-/
import SyncLedger.Store
import SyncLedger.Proofs.Tables

namespace SyncLedger

theorem eq_ok_of_toOption {α : Type} {x : Except Error α} {v : α} (h : x.toOption = some v) :
    x = .ok v := by
  cases x with
  | error e => contradiction
  | ok w => exact congrArg _ (Option.some.inj h)

/-! ### Transactions -/

namespace Txn

variable {α β : Type}

theorem bind_eq_ok_iff {x : Txn α} {f : α → Txn β} {t : Records} {r : β × Records} :
    (x >>= f) t = .ok r ↔ ∃ v s, x t = .ok (v, s) ∧ f v s = .ok r := by
  show Except.bind (x t) (fun p => f p.1 p.2) = .ok r ↔ _
  cases x t with
  | error e => simp [Except.bind]
  | ok p =>
    obtain ⟨v, s⟩ := p
    simp [Except.bind]

theorem bind_of_ok {x : Txn α} {f : α → Txn β} {t s : Records} {v : α} (h : x t = .ok (v, s)) :
    (x >>= f) t = f v s := by
  show Except.bind (x t) (fun p => f p.1 p.2) = _
  rw [h]
  rfl

theorem bind_of_error {x : Txn α} {f : α → Txn β} {t : Records} {e : Error}
    (h : x t = .error e) : (x >>= f) t = .error e := by
  show Except.bind (x t) (fun p => f p.1 p.2) = _
  rw [h]
  rfl

theorem pure_eq_ok_iff {v w : α} {t s : Records} :
    (pure v : Txn α) t = .ok (w, s) ↔ v = w ∧ t = s := by
  show Except.ok (v, t) = .ok (w, s) ↔ _
  simp

theorem abort_ne_ok {e : Error} {t : Records} {r : α × Records} : (abort e : Txn α) t ≠ .ok r := by
  simp [abort]

theorem has_eq_ok_iff {k : Key} {t s : Records} {b : Bool} :
    has k t = .ok (b, s) ↔ t.has k = b ∧ t = s := by
  simp [has, hasAt, Table.has]

theorem put_eq_ok_iff {c : Codec α} {k : Key} {v : α} {t s : Records} {u : Unit} :
    put c k v t = .ok (u, s) ↔ t.insert k.bytes (c.encode v) = s := by
  simp [put, putAt]

theorem delete_eq_ok_iff {k : Key} {t s : Records} {b : Bool} :
    delete k t = .ok (b, s) ↔ t.has k = b ∧ t.erase k.bytes = s := by
  simp [delete, deleteAt, Table.has]

theorem fetch_eq_ok_iff {c : Codec α} {k : Key} {t s : Records} {v : Option α} :
    fetch c k t = .ok (v, s) ↔ t.fetch c k.bytes = .ok v ∧ t = s := by
  simp only [fetch, fetchAt]
  cases t.fetch c k.bytes with
  | error e => simp [Except.map]
  | ok w => simp [Except.map]

theorem fetch_of_error {c : Codec α} {k : Key} {t : Records} {e : Error}
    (h : t.fetch c k.bytes = .error e) : fetch c k t = .error e := by
  simp [fetch, fetchAt, h, Except.map]

theorem require_eq_ok_iff {c : Codec α} {k : Key} {m : Missing} {t s : Records} {v : α} :
    require c k m t = .ok (v, s) ↔ t.fetch c k.bytes = .ok (some v) ∧ t = s := by
  unfold require
  rw [bind_eq_ok_iff]
  constructor
  · rintro ⟨w, u, hw, h⟩
    obtain ⟨hfetch, rfl⟩ := fetch_eq_ok_iff.1 hw
    cases w with
    | none => exact absurd h abort_ne_ok
    | some w =>
      obtain ⟨rfl, rfl⟩ := pure_eq_ok_iff.1 h
      exact ⟨hfetch, rfl⟩
  · rintro ⟨hv, rfl⟩
    exact ⟨some v, t, fetch_eq_ok_iff.2 ⟨hv, rfl⟩, pure_eq_ok_iff.2 ⟨rfl, rfl⟩⟩

theorem require_of_error {c : Codec α} {k : Key} {m : Missing} {t : Records} {e : Error}
    (h : t.fetch c k.bytes = .error e) : require c k m t = .error e :=
  bind_of_error (fetch_of_error h)

theorem require_of_none {c : Codec α} {k : Key} {m : Missing} {t : Records}
    (h : t.fetch c k.bytes = .ok none) : require c k m t = .error (.notFound m) :=
  bind_of_ok (fetch_eq_ok_iff.2 ⟨h, rfl⟩)

end Txn

namespace Table

variable {α : Type}

theorem fetch_eq_some_iff {t : Records} {c : Codec α} {k : Bytes} {v : α} :
    t.fetch c k = .ok (some v) ↔ ∃ b, t.get? k = some b ∧ c.read? b = some v := by
  unfold fetch
  cases hget : t.get? k with
  | none => simp
  | some b => cases hread : c.read? b <;> simp [hread]

theorem fetch_eq_none_iff {t : Records} {c : Codec α} {k : Bytes} :
    t.fetch c k = .ok none ↔ t.get? k = none := by
  unfold fetch
  cases hget : t.get? k with
  | none => simp
  | some b => cases hread : c.read? b <;> simp [hread]

theorem fetch_eq_error {t : Records} {c : Codec α} {k : Bytes} {e : Error}
    (h : t.fetch c k = .error e) : e = .serialization none := by
  unfold fetch at h
  split at h
  · contradiction
  · split at h
    · contradiction
    · exact (Except.error.inj h).symm

theorem has_iff {t : Records} {k : Key} : t.has k = true ↔ ∃ b, t.get? k.bytes = some b :=
  contains_iff

theorem has_eq_false_iff {t : Records} {k : Key} : t.has k = false ↔ t.get? k.bytes = none :=
  contains_eq_false_iff

theorem has_congr {s t : Records} {k : Key} (h : s.get? k.bytes = t.get? k.bytes) :
    s.has k = t.has k := by
  simp [has, contains, h]

theorem fetch_congr {s t : Records} {k : Bytes} (h : s.get? k = t.get? k) (c : Codec α) :
    s.fetch c k = t.fetch c k := by
  rw [fetch, fetch, h]

/-! ### Scans -/

/-- A scan that succeeds gives each entry with its value, in order. -/
theorem decodeAll_eq_ok_iff {c : Codec α} {es : List (Bytes × Bytes)} {vs : List (Bytes × α)} :
    decodeAll c es = .ok vs ↔
      List.Forall₂ (fun e v => v.1 = e.1 ∧ c.read? e.2 = some v.2) es vs := by
  induction es generalizing vs with
  | nil => simp [decodeAll, eq_comm]
  | cons e es ih =>
    rw [List.forall₂_cons_left_iff]
    unfold decodeAll
    cases hread : c.read? e.2 with
    | none => simp
    | some v =>
      constructor
      · intro h
        cases hrest : decodeAll c es with
        | error err => simp [hrest, Except.map] at h
        | ok ws =>
          simp only [hrest, Except.map, Except.ok.injEq] at h
          exact ⟨(e.1, v), ws, ⟨rfl, rfl⟩, ih.1 hrest, h.symm⟩
      · rintro ⟨w, ws, ⟨hkey, hvalue⟩, hws, rfl⟩
        obtain rfl : w = (e.1, v) := Prod.ext hkey (Option.some.inj hvalue).symm
        simp [ih.2 hws, Except.map]

theorem exists_decodeAll {c : Codec α} {es : List (Bytes × Bytes)}
    (h : ∀ e ∈ es, ∃ v, c.read? e.2 = some v) : ∃ vs, decodeAll c es = .ok vs := by
  induction es with
  | nil => exact ⟨[], rfl⟩
  | cons e es ih =>
    obtain ⟨v, hv⟩ := h e List.mem_cons_self
    obtain ⟨vs, hvs⟩ := ih fun e' he' => h e' (List.mem_cons_of_mem _ he')
    exact ⟨(e.1, v) :: vs, by simp [decodeAll, hv, hvs, Except.map]⟩

theorem mem_decodeAll {c : Codec α} {es : List (Bytes × Bytes)} {vs : List (Bytes × α)}
    (h : decodeAll c es = .ok vs) {k : Bytes} {v : α} :
    (k, v) ∈ vs ↔ ∃ e ∈ es, e.1 = k ∧ c.read? e.2 = some v := by
  have hall := decodeAll_eq_ok_iff.1 h
  clear h
  induction hall with
  | nil => simp
  | @cons e w es vs hstep _ ih =>
    obtain ⟨hkey, hvalue⟩ := hstep
    have hhead : (k, v) = w ↔ e.1 = k ∧ c.read? e.2 = some v := by
      rw [hvalue, Option.some.injEq, ← hkey, Prod.ext_iff, eq_comm, eq_comm (b := w.2)]
    simp [hhead, ih]

/-- What a scan gives is what stands under the prefix. -/
theorem mem_scan {t : Records} {c : Codec α} {p : Bytes} {vs : List (Bytes × α)}
    (h : t.scan c p = .ok vs) {k : Bytes} {v : α} :
    (k, v) ∈ vs ↔ p <+: k ∧ t.fetch c k = .ok (some v) := by
  rw [mem_decodeAll h, fetch_eq_some_iff]
  constructor
  · rintro ⟨e, he, rfl, hread⟩
    obtain ⟨hp, hv⟩ := mem_under.1 he
    exact ⟨hp, e.2, hv, hread⟩
  · rintro ⟨hp, b, hb, hread⟩
    exact ⟨(k, b), mem_under.2 ⟨hp, hb⟩, rfl, hread⟩

/-- Where a scan succeeds, nothing under the prefix is unreadable. -/
theorem fetch_of_scan {t : Records} {c : Codec α} {p k : Bytes} {vs : List (Bytes × α)}
    (h : t.scan c p = .ok vs) (hk : p <+: k) : ∃ v, t.fetch c k = .ok v := by
  have hread {es : List (Bytes × Bytes)} {ws : List (Bytes × α)}
      (hall : List.Forall₂ (fun e v => v.1 = e.1 ∧ c.read? e.2 = some v.2) es ws) {b : Bytes}
      (hmem : (k, b) ∈ es) : ∃ v, c.read? b = some v := by
    induction hall with
    | nil => contradiction
    | cons hstep _ ih =>
      rcases List.mem_cons.1 hmem with rfl | hmem
      · exact ⟨_, hstep.2⟩
      · exact ih hmem
  cases hget : t.get? k with
  | none => exact ⟨none, fetch_eq_none_iff.2 hget⟩
  | some b =>
    obtain ⟨v, hv⟩ := hread (decodeAll_eq_ok_iff.1 h) (mem_under.2 ⟨hk, hget⟩)
    exact ⟨some v, fetch_eq_some_iff.2 ⟨b, hget, hv⟩⟩

/-- A scan gives the keys in their order. -/
theorem map_fst_scan {t : Records} {c : Codec α} {p : Bytes} {vs : List (Bytes × α)}
    (h : t.scan c p = .ok vs) : vs.map (·.1) = t.keysUnder p := by
  have hall := decodeAll_eq_ok_iff.1 h
  unfold keysUnder
  generalize t.under p = es at hall
  clear h
  induction hall with
  | nil => rfl
  | cons hstep _ ih => simp [hstep.1, ih]

end Table

/-! ### Operations -/

namespace Op

variable {α β : Type}

/-- What an operation answers, and the table after its last commit. -/
def outcome (x : Op α) (t : Records) : Except Error α × Records := ((x t).answer, (x t).final t)

theorem answer_eq {x : Op α} {t s : Records} {a : Except Error α} (h : x.outcome t = (a, s)) :
    (x t).answer = a := congrArg Prod.fst h

theorem final_eq {x : Op α} {t s : Records} {a : Except Error α} (h : x.outcome t = (a, s)) :
    (x t).final t = s := congrArg Prod.snd h

theorem outcome_congr {x y : Op α} {t : Records} (h : x t = y t) : x.outcome t = y.outcome t := by
  simp [outcome, h]

theorem outcome_of_run {x : Op α} {t : Records} {cs : List Records} {a : Except Error α}
    (h : x t = ⟨cs, a⟩) : x.outcome t = (a, cs.getLast?.getD t) := by
  rw [outcome, h]
  rfl

@[simp] theorem outcome_pure (v : α) (t : Records) : (pure v : Op α).outcome t = (.ok v, t) := rfl

@[simp] theorem outcome_fail (e : Error) (t : Records) :
    (fail e : Op α).outcome t = (.error e, t) := rfl

@[simp] theorem outcome_read (f : Records → Except Error α) (t : Records) :
    (read f).outcome t = (f t, t) := rfl

@[simp] theorem outcome_attempt (x : Op α) (t : Records) :
    (attempt x).outcome t = (.ok (x.outcome t).1, (x.outcome t).2) := rfl

theorem outcome_attempt_of {x : Op α} {t s : Records} {a : Except Error α}
    (h : x.outcome t = (a, s)) : (attempt x).outcome t = (.ok a, s) := by
  rw [outcome_attempt, h]

theorem outcome_commit_ok {x : Txn α} {t s : Records} {v : α} (h : x t = .ok (v, s)) :
    (commit x).outcome t = (.ok v, s) := by
  simp [outcome, commit_of_ok h, Run.final]

theorem outcome_commit_error {x : Txn α} {t : Records} {e : Error} (h : x t = .error e) :
    (commit x).outcome t = (.error e, t) := by
  simp [outcome, commit_of_error h, Run.final]

theorem final_append (cs ds : List Records) (a : Except Error α) (b : Except Error β)
    (t : Records) :
    (Run.mk (cs ++ ds) a).final t = (Run.mk ds b).final ((Run.mk cs a).final t) := by
  simp only [Run.final, List.getLast?_append]
  cases ds.getLast? <;> rfl

theorem outcome_bind (x : Op α) (f : α → Op β) (t : Records) :
    (x >>= f).outcome t = match x.outcome t with
      | (.ok v, s) => (f v).outcome s
      | (.error e, s) => (.error e, s) := by
  cases ha : (x t).answer with
  | error e =>
    simp only [outcome, bind_of_error ha, ha]
    rfl
  | ok v =>
    simp only [outcome, bind_of_ok ha, ha]
    exact congrArg _ (final_append _ _ _ _ t)

theorem outcome_bind_ok {x : Op α} {f : α → Op β} {t s : Records} {v : α}
    (h : x.outcome t = (.ok v, s)) : (x >>= f).outcome t = (f v).outcome s := by
  rw [outcome_bind, h]

theorem outcome_bind_error {x : Op α} {f : α → Op β} {t s : Records} {e : Error}
    (h : x.outcome t = (.error e, s)) : (x >>= f).outcome t = (.error e, s) := by
  rw [outcome_bind, h]

/-- One run after another: the second begins with the last table of the first. -/
theorem run_bind {x : Op α} {f : α → Op β} {t : Records} {v : α} {cs ds : List Records}
    {a : Except Error β} (hx : x t = ⟨cs, .ok v⟩) (hf : f v (cs.getLast?.getD t) = ⟨ds, a⟩) :
    (x >>= f) t = ⟨cs ++ ds, a⟩ := by
  rw [bind_of_ok (v := v) (by rw [hx]), hx]
  simp only [Run.final, hf]

theorem run_bind_error {x : Op α} {f : α → Op β} {t : Records} {cs : List Records} {e : Error}
    (hx : x t = ⟨cs, .error e⟩) : (x >>= f) t = ⟨cs, .error e⟩ := by
  rw [bind_of_error (e := e) (by rw [hx]), hx]

/-- Looking at the table commits nothing. -/
theorem read_bind_of_ok {g : Records → Except Error α} {f : α → Op β} {t : Records} {v : α}
    (h : g t = .ok v) : (read g >>= f) t = f v t := by
  rw [bind_of_ok (v := v) h]
  rfl

theorem mem_commits_bind {x : Op α} {f : α → Op β} {t s : Records} :
    s ∈ ((x >>= f) t).commits ↔
      s ∈ (x t).commits ∨
        ∃ v, (x t).answer = .ok v ∧ s ∈ (f v ((x t).final t)).commits := by
  cases ha : (x t).answer with
  | error e => simp [bind_of_error ha]
  | ok v => simp [bind_of_ok ha]

/-- Forgetting the answer changes no commit. -/
theorem commits_discard (x : Op α) (w : β) (t : Records) :
    ((x >>= fun _ => pure w) t).commits = (x t).commits := by
  cases ha : (x t).answer with
  | error e => rw [bind_of_error ha]
  | ok v =>
    rw [bind_of_ok ha]
    exact List.append_nil _

/-! ### Properties that every commit keeps -/

/-- Every commit of an operation that began with the property has it too. -/
def Keeps (P : Records → Prop) (x : Op α) : Prop := ∀ t, P t → ∀ s ∈ (x t).commits, P s

section Keeps

variable {P : Records → Prop} {x : Op α} {f : α → Op β}

theorem Keeps.final (h : Keeps P x) {t : Records} (ht : P t) : P ((x t).final t) := by
  unfold Run.final
  cases hlast : (x t).commits.getLast? with
  | none => exact ht
  | some s => exact h t ht s (List.mem_of_getLast? hlast)

theorem Keeps.outcome (h : Keeps P x) {t : Records} (ht : P t) : P (x.outcome t).2 := h.final ht

theorem keeps_pure (v : α) : Keeps P (pure v : Op α) := by
  intro t _ s hs
  simp at hs

theorem keeps_fail (e : Error) : Keeps P (fail e : Op α) := by
  intro t _ s hs
  simp at hs

theorem keeps_read (g : Records → Except Error α) : Keeps P (read g) := by
  intro t _ s hs
  simp at hs

theorem keeps_commit {y : Txn α} (h : ∀ t v s, P t → y t = .ok (v, s) → P s) :
    Keeps P (commit y) := by
  intro t ht s hs
  cases hy : y t with
  | error e => simp [commit_of_error hy] at hs
  | ok r =>
    obtain rfl : s = r.2 := by simpa [commit_of_ok hy] using hs
    exact h t r.1 r.2 ht hy

theorem exists_of_commit {y : Txn α} {t : Records} {v : α} (h : (commit y t).answer = .ok v) :
    ∃ s, y t = .ok (v, s) := by
  cases hy : y t with
  | error e =>
    rw [commit_of_error hy] at h
    contradiction
  | ok r =>
    rw [commit_of_ok hy] at h
    obtain rfl := Except.ok.inj h
    exact ⟨r.2, rfl⟩

theorem Keeps.attempt (h : Keeps P x) : Keeps P (Op.attempt x) := h

/-- What goes on may depend on an answer that was given where the property held. -/
theorem Keeps.bind_of_ok (hx : Keeps P x)
    (hf : ∀ t v, P t → (x t).answer = .ok v → Keeps P (f v)) : Keeps P (x >>= f) := by
  intro t ht s hs
  rcases mem_commits_bind.1 hs with hs | ⟨v, hv, hs⟩
  · exact hx t ht s hs
  · exact hf t v ht hv _ (hx.final ht) s hs

theorem Keeps.bind (hx : Keeps P x) (hf : ∀ v, Keeps P (f v)) : Keeps P (x >>= f) :=
  hx.bind_of_ok fun _ v _ _ => hf v

end Keeps

/-! ### Operations that only look, and operations that cannot fail -/

/-- An operation that commits nothing, whatever it answers. -/
def Quiet (x : Op α) : Prop := ∀ t, (x t).commits = []

/-- An operation that never fails. -/
def Total (x : Op α) : Prop := ∀ t, ∃ v, (x t).answer = .ok v

section Quiet

variable {x : Op α} {f : α → Op β}

theorem quiet_pure (v : α) : Quiet (pure v : Op α) := fun _ => rfl

theorem quiet_fail (e : Error) : Quiet (fail e : Op α) := fun _ => rfl

theorem quiet_read (g : Records → Except Error α) : Quiet (read g) := fun _ => rfl

theorem Quiet.attempt (h : Quiet x) : Quiet (Op.attempt x) := h

theorem Quiet.final (h : Quiet x) (t : Records) : (x t).final t = t := by
  rw [Run.final, h t]
  rfl

theorem Quiet.bind (hx : Quiet x) (hf : ∀ v, Quiet (f v)) : Quiet (x >>= f) := by
  intro t
  cases ha : (x t).answer with
  | error e => rw [bind_of_error ha, hx t]
  | ok v => rw [bind_of_ok ha, hx t, hf v, List.append_nil]

theorem total_pure (v : α) : Total (pure v : Op α) := fun _ => ⟨v, rfl⟩

theorem total_attempt (x : Op α) : Total (attempt x) := fun t => ⟨(x t).answer, rfl⟩

theorem Total.bind (hx : Total x) (hf : ∀ v, Total (f v)) : Total (x >>= f) := by
  intro t
  obtain ⟨v, hv⟩ := hx t
  rw [bind_of_ok hv]
  exact hf v _

theorem answer_attempt_bind {f : Except Error α → Op β} (t : Records) :
    ((attempt x >>= f) t).answer = (f (x t).answer ((x t).final t)).answer := by
  rw [bind_of_ok (x := attempt x) (v := (x t).answer) rfl]
  rfl

end Quiet

/-! ### Operations that fail without a trace -/

/-- An operation that fails has committed nothing. -/
def Atomic (x : Op α) : Prop := ∀ t e, (x t).answer = .error e → (x t).commits = []

theorem atomic_fail (e : Error) : Atomic (fail e : Op α) := fun _ _ _ => rfl

theorem atomic_commit (y : Txn α) : Atomic (commit y) := by
  intro t e h
  cases hy : y t with
  | error err => rw [commit_of_error hy]
  | ok r =>
    rw [commit_of_ok hy] at h
    contradiction

/-- What is looked at first changes nothing. -/
theorem Quiet.bind_atomic {x : Op α} {f : α → Op β} (hx : Quiet x) (hf : ∀ v, Atomic (f v)) :
    Atomic (x >>= f) := by
  intro t e he
  cases ha : (x t).answer with
  | error err => rw [bind_of_error ha, hx t]
  | ok v =>
    rw [bind_of_ok ha] at he ⊢
    rw [hx t, hf v _ e he, List.append_nil]

theorem Total.atomic {x : Op α} (h : Total x) : Atomic x := by
  intro t e he
  obtain ⟨v, hv⟩ := h t
  rw [hv] at he
  contradiction

/-- Where only the first part can fail, nothing has been committed when it does. -/
theorem Atomic.bind_total {x : Op α} {f : α → Op β} (hx : Atomic x) (hf : ∀ v, Total (f v)) :
    Atomic (x >>= f) := by
  intro t e he
  cases ha : (x t).answer with
  | error err => rw [bind_of_error ha, hx t err ha]
  | ok v =>
    obtain ⟨w, hw⟩ := hf v ((x t).final t)
    rw [bind_of_ok ha, hw] at he
    contradiction

theorem Atomic.final_of_error {x : Op α} (h : Atomic x) {t : Records} {e : Error}
    (he : (x t).answer = .error e) : (x t).final t = t := by
  rw [Run.final, h t e he]
  rfl

/-! ### Operations that look at either of two tables -/

section Agrees

variable {s t : Records}

/-- An operation answers alike from both tables and commits nothing. -/
def Agrees (x : Op α) (s t : Records) : Prop := x s = x t ∧ (x t).commits = []

theorem agrees_pure (v : α) : Agrees (pure v : Op α) s t := ⟨rfl, rfl⟩

theorem agrees_fail (e : Error) : Agrees (fail e : Op α) s t := ⟨rfl, rfl⟩

theorem agrees_read {f : Records → Except Error α} (h : f s = f t) : Agrees (read f) s t := by
  refine ⟨?_, rfl⟩
  rw [read_apply, read_apply, h]

theorem Agrees.attempt {x : Op α} (h : Agrees x s t) : Agrees (Op.attempt x) s t := by
  refine ⟨?_, h.2⟩
  rw [Op.attempt, Op.attempt, h.1]

/-- What comes second need agree only for what the first has answered. -/
theorem Agrees.bind {x : Op α} {f : α → Op β} (hx : Agrees x s t)
    (hf : ∀ v, (x t).answer = .ok v → Agrees (f v) s t) : Agrees (x >>= f) s t := by
  obtain ⟨hsame, hnone⟩ := hx
  have hfinal (u : Records) : (x t).final u = u := by simp [Run.final, hnone]
  cases ha : (x t).answer with
  | error e =>
    have ha' : (x s).answer = .error e := hsame ▸ ha
    refine ⟨?_, ?_⟩
    · rw [bind_of_error ha, bind_of_error ha', hsame]
    · rw [bind_of_error ha]
      exact hnone
  | ok v =>
    have ha' : (x s).answer = .ok v := hsame ▸ ha
    obtain ⟨hthen, hquiet⟩ := hf v ha
    refine ⟨?_, ?_⟩
    · rw [bind_of_ok ha, bind_of_ok ha', hsame, hfinal, hfinal, hthen]
    · rw [bind_of_ok ha, hfinal]
      simp [hnone, hquiet]

end Agrees

end Op

/-! ### Purging -/

theorem Table.keysUnder_eq_nil_iff {t : Records} {p : Bytes} :
    t.keysUnder p = [] ↔ ∀ k, p <+: k → t.get? k = none := by
  rw [Table.keysUnder, List.map_eq_nil_iff, Table.under_eq_nil_iff]

theorem Table.mem_keysUnder {t : Records} {p k : Bytes} :
    k ∈ t.keysUnder p ↔ p <+: k ∧ ∃ v, t.get? k = some v := by
  simp only [Table.keysUnder, List.mem_map, Table.mem_under]
  constructor
  · rintro ⟨e, ⟨hp, hv⟩, rfl⟩
    exact ⟨hp, e.2, hv⟩
  · rintro ⟨hp, v, hv⟩
    exact ⟨(k, v), ⟨hp, hv⟩, rfl⟩

theorem Table.nodup_keysUnder (t : Records) (p : Bytes) : (t.keysUnder p).Nodup := by
  refine List.pairwise_map.2 ((Table.pairwise_under t p).imp ?_)
  intro a b hab heq
  exact List.lt_irrefl b.1 (heq ▸ hab)

theorem filter_take_eq_drop {γ : Type} [BEq γ] [LawfulBEq γ] {l : List γ} (h : l.Nodup) (n : Nat) :
    l.filter (fun k => !(l.take n).contains k) = l.drop n := by
  have hgone : (l.take n).filter (fun k => !(l.take n).contains k) = [] := by
    simp
  have hkept : (l.drop n).filter (fun k => !(l.take n).contains k) = l.drop n := by
    apply List.filter_eq_self.2
    intro k hk
    have hdisjoint := List.disjoint_take_drop h (Nat.le_refl n)
    simpa using fun hmem => hdisjoint hmem hk
  calc l.filter (fun k => !(l.take n).contains k)
      = (l.take n ++ l.drop n).filter (fun k => !(l.take n).contains k) := by
        rw [List.take_append_drop]
    _ = l.drop n := by rw [List.filter_append, hgone, hkept, List.nil_append]

/-- The batch leaves the rest of the keys. -/
theorem Table.keysUnder_batch (t : Records) (p : Bytes) (n : Nat) :
    (t.eraseAll ((t.keysUnder p).take n)).keysUnder p = (t.keysUnder p).drop n := by
  rw [Table.keysUnder_eraseAll, filter_take_eq_drop (Table.nodup_keysUnder t p)]

theorem get?_of_mem_purgeRun {p : Bytes} {batch : Nat} {t s : Records}
    (h : s ∈ (purgeRun p batch t).1) {k : Bytes} (hk : ¬ p <+: k) : s.get? k = t.get? k := by
  fun_induction purgeRun p batch t with
  | case1 t hnone => simp at h
  | case2 t hsome ks after rest ih =>
    have hkeep : after.get? k = t.get? k := by
      have hnot : k ∉ ks := fun hmem =>
        hk (Table.mem_keysUnder.1 (List.mem_of_mem_take hmem)).1
      simp [after, hnot]
    rcases List.mem_cons.1 h with rfl | h
    · exact hkeep
    · rw [ih h, hkeep]

/-- No commit of a purge has anything new. -/
theorem sub_of_mem_purgeRun {p : Bytes} {batch : Nat} {t s : Records}
    (h : s ∈ (purgeRun p batch t).1) : s.Sub t := by
  fun_induction purgeRun p batch t with
  | case1 t hnone => simp at h
  | case2 t hsome ks after rest ih =>
    rcases List.mem_cons.1 h with rfl | h
    · exact Table.sub_eraseAll t ks
    · exact (ih h).trans (Table.sub_eraseAll t ks)

theorem final_purgeRun (p : Bytes) (batch : Nat) (t : Records) :
    (purgeRun p batch t).1.getLast?.getD t = t.eraseUnder p := by
  fun_induction purgeRun p batch t with
  | case1 t hnone =>
    have hempty : t.keysUnder p = [] := by
      rcases List.take_eq_nil_iff.1 hnone with hzero | hempty
      · omega
      · exact hempty
    refine (Table.ext fun k => ?_).symm
    rw [Table.get?_eraseUnder]
    split
    · rename_i hk
      exact (Table.keysUnder_eq_nil_iff.1 hempty k hk).symm
    · rfl
  | case2 t hsome ks after rest ih =>
    rw [List.getLast?_cons, Option.getD_some, ih]
    apply Table.ext
    intro k
    rw [Table.get?_eraseUnder, Table.get?_eraseUnder]
    split
    · rfl
    · rename_i hk
      have hnot : k ∉ ks := fun hmem =>
        hk (Table.mem_keysUnder.1 (List.mem_of_mem_take hmem)).1
      simp [after, hnot]

theorem count_purgeRun (p : Bytes) (batch : Nat) (t : Records) :
    (purgeRun p batch t).2 = (t.under p).length := by
  have hlength (t : Records) : (t.under p).length = (t.keysUnder p).length := by
    simp [Table.keysUnder]
  rw [hlength]
  fun_induction purgeRun p batch t with
  | case1 t hnone =>
    rcases List.take_eq_nil_iff.1 hnone with hzero | hempty
    · omega
    · simp [hempty]
  | case2 t hsome ks after rest ih =>
    have hafter : after.keysUnder p = (t.keysUnder p).drop (max 1 batch) :=
      Table.keysUnder_batch t p _
    rw [ih, hafter, List.length_take, List.length_drop]
    omega

theorem outcome_purge (p : Bytes) (batch : Nat) (t : Records) :
    (Op.purge p batch).outcome t = (.ok (t.under p).length, t.eraseUnder p) := by
  show (Except.ok (purgeRun p batch t).2, (purgeRun p batch t).1.getLast?.getD t) = _
  rw [count_purgeRun, final_purgeRun]

theorem get?_of_mem_purge {p : Bytes} {batch : Nat} {t s : Records}
    (h : s ∈ (Op.purge p batch t).commits) {k : Bytes} (hk : ¬ p <+: k) :
    s.get? k = t.get? k :=
  get?_of_mem_purgeRun h hk

theorem sub_of_mem_purge {p : Bytes} {batch : Nat} {t s : Records}
    (h : s ∈ (Op.purge p batch t).commits) : s.Sub t :=
  sub_of_mem_purgeRun h

theorem total_purge (p : Bytes) (batch : Nat) : (Op.purge p batch).Total := fun _ => ⟨_, rfl⟩

theorem total_erase (k : Bytes) : (Op.erase k).Total := fun _ => ⟨_, rfl⟩

theorem total_drop (k : Key) : (Op.drop k).Total :=
  (total_erase k.bytes).bind fun _ => Op.total_pure ()

theorem outcome_erase (k : Bytes) (t : Records) :
    (Op.erase k).outcome t = (.ok (t.contains k), t.erase k) :=
  Op.outcome_commit_ok rfl

theorem outcome_drop (k : Key) (t : Records) :
    (Op.drop k).outcome t = (.ok (), t.erase k.bytes) :=
  Op.outcome_bind_ok (outcome_erase k.bytes t)

end SyncLedger
