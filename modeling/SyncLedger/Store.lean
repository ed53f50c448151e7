/-
  SyncLedger/Store.lean
  =====================
  **Transactions and operations over the record table.**

  A *transaction* (`Txn`) reads and writes the table and either commits as a whole or leaves it
  as it was: on an error the written table is simply not there.

  An *operation* (`Op`) is a sequence of commits.  Its run keeps every table that was committed
  on the way, oldest first, because each of them is a table that a crash can leave behind;
  `Run.final` is the table after the last one.  Removals of many records are operations: they
  detach in one transaction and then purge in batches (`Op.purge`), each batch a commit.

  Main statements: `keysUnder_eraseAll_lt` (a batch that is not empty makes progress, which is
  why purging ends) and the equations of `Op.commit`, `Op.read` and `>>=`.
-/
import SyncLedger.Error
import SyncLedger.Key
import SyncLedger.Record
import SyncLedger.Table

namespace SyncLedger

/-- The table of all records, by the bytes of their keys, in stored form. -/
abbrev Records := Table Bytes

namespace Table

/-- The value under a key, read in a stored form. -/
def fetch {α : Type} (t : Records) (c : Codec α) (k : Bytes) : Except Error (Option α) :=
  match t.get? k with
  | none => .ok none
  | some b => match c.read? b with
    | some v => .ok (some v)
    | none => .error (.serialization none)

/-- Reads the value of each of a list of entries; one that cannot be read spoils all. -/
def decodeAll {α : Type} (c : Codec α) : List (Bytes × Bytes) → Except Error (List (Bytes × α))
  | [] => .ok []
  | (k, b) :: rest => match c.read? b with
    | some v => (decodeAll c rest).map ((k, v) :: ·)
    | none => .error (.serialization none)

/-- Every value under a prefix, in key order. -/
def scan {α : Type} (t : Records) (c : Codec α) (p : Bytes) : Except Error (List (Bytes × α)) :=
  decodeAll c (t.under p)

/-- The value with the greatest key under a prefix. -/
def fetchLast {α : Type} (t : Records) (c : Codec α) (p : Bytes) : Except Error (Option α) :=
  match t.lastUnder? p with
  | none => .ok none
  | some (_, b) => match c.read? b with
    | some v => .ok (some v)
    | none => .error (.serialization none)

/-- Whether a record is there, whatever its value. -/
def has (t : Records) (k : Key) : Bool := t.contains k.bytes

end Table

/-! ### Transactions -/

/-- A transaction: what it answers, and the table it leaves if it commits. -/
abbrev Txn := StateT Records (Except Error)

namespace Txn

variable {α : Type}

def fetchAt (c : Codec α) (k : Bytes) : Txn (Option α) := fun t =>
  (t.fetch c k).map fun v => (v, t)

def hasAt (k : Bytes) : Txn Bool := fun t => .ok (t.contains k, t)

def putAt (c : Codec α) (k : Bytes) (v : α) : Txn Unit := fun t => .ok ((), t.insert k (c.encode v))

/-- Removes what is under a key and says whether anything was. -/
def deleteAt (k : Bytes) : Txn Bool := fun t => .ok (t.contains k, t.erase k)

def fetch (c : Codec α) (k : Key) : Txn (Option α) := fetchAt c k.bytes

def has (k : Key) : Txn Bool := hasAt k.bytes

def put (c : Codec α) (k : Key) (v : α) : Txn Unit := putAt c k.bytes v

def delete (k : Key) : Txn Bool := deleteAt k.bytes

def abort (e : Error) : Txn α := fun _ => .error e

/-- The record under a key; the transaction fails where there is none. -/
def require (c : Codec α) (k : Key) (missing : Missing) : Txn α := do
  match ← fetch c k with
  | some v => return v
  | none => abort (.notFound missing)

end Txn

/-! ### Operations -/

/-- How an operation went: the tables it committed, oldest first, and its answer. -/
structure Run (α : Type) where
  commits : List Records
  answer : Except Error α

/-- The table after a run that began with the table `before`. -/
def Run.final {α : Type} (r : Run α) (before : Records) : Records :=
  r.commits.getLast?.getD before

/-- An operation: how it runs from each table. -/
def Op (α : Type) : Type := Records → Run α

namespace Op

variable {α β : Type}

protected def pure (v : α) : Op α := fun _ => ⟨[], .ok v⟩

/-- Goes on from the table that the first operation left, unless it failed. -/
protected def bind (x : Op α) (f : α → Op β) : Op β := fun t =>
  let r := x t
  match r.answer with
  | .error e => ⟨r.commits, .error e⟩
  | .ok v =>
    let r' := f v (r.final t)
    ⟨r.commits ++ r'.commits, r'.answer⟩

instance : Monad Op where
  pure := Op.pure
  bind := Op.bind

def fail (e : Error) : Op α := fun _ => ⟨[], .error e⟩

def read (f : Records → Except Error α) : Op α := fun t => ⟨[], f t⟩

/-- Runs a transaction; if it does not fail, its table is committed. -/
def commit (x : Txn α) : Op α := fun t =>
  match x t with
  | .ok (v, t') => ⟨[t'], .ok v⟩
  | .error e => ⟨[], .error e⟩

/-- Makes a failure an answer, so that the operation can go on after it. -/
def attempt (x : Op α) : Op (Except Error α) := fun t =>
  let r := x t
  ⟨r.commits, .ok r.answer⟩

@[simp] theorem pure_apply (v : α) (t : Records) : (pure v : Op α) t = ⟨[], .ok v⟩ := rfl

@[simp] theorem fail_apply (e : Error) (t : Records) : (fail e : Op α) t = ⟨[], .error e⟩ := rfl

@[simp] theorem read_apply (f : Records → Except Error α) (t : Records) :
    read f t = ⟨[], f t⟩ := rfl

theorem commit_of_ok {x : Txn α} {t t' : Records} {v : α} (h : x t = .ok (v, t')) :
    commit x t = ⟨[t'], .ok v⟩ := by
  simp [commit, h]

theorem commit_of_error {x : Txn α} {t : Records} {e : Error} (h : x t = .error e) :
    commit x t = ⟨[], .error e⟩ := by
  simp [commit, h]

theorem bind_of_ok {x : Op α} {f : α → Op β} {t : Records} {v : α} (h : (x t).answer = .ok v) :
    (x >>= f) t = ⟨(x t).commits ++ (f v ((x t).final t)).commits,
      (f v ((x t).final t)).answer⟩ := by
  show Op.bind x f t = _
  simp [Op.bind, h]

theorem bind_of_error {x : Op α} {f : α → Op β} {t : Records} {e : Error}
    (h : (x t).answer = .error e) : (x >>= f) t = ⟨(x t).commits, .error e⟩ := by
  show Op.bind x f t = _
  simp [Op.bind, h]

end Op

/-! ### Purging -/

/-- Erasing removes exactly the erased keys from what is under a prefix. -/
theorem Table.keysUnder_eraseAll {β : Type} (t : Table β) (p : Bytes) (ks : List Bytes) :
    (t.eraseAll ks).keysUnder p = (t.keysUnder p).filter (fun k => !ks.contains k) := by
  simp only [Table.keysUnder, Table.under, Table.eraseAll, List.filter_map, List.filter_filter]
  congr 1
  apply List.filter_congr
  intro e _
  simp [Bool.and_comm]

/-- A batch that is not empty leaves fewer keys under the prefix. -/
theorem Table.keysUnder_eraseAll_lt {β : Type} (t : Table β) (p : Bytes) (n : Nat)
    (h : (t.keysUnder p).take n ≠ []) :
    ((t.eraseAll ((t.keysUnder p).take n)).keysUnder p).length < (t.keysUnder p).length := by
  rw [Table.keysUnder_eraseAll]
  obtain ⟨k, hk⟩ := List.exists_mem_of_ne_nil _ h
  refine List.length_filter_lt_length_iff_exists.2 ⟨k, List.mem_of_mem_take hk, ?_⟩
  simpa using hk

/-- Removes every key under a prefix, at most `batch` of them (and at least one) with each
    commit.  The keys are looked up again for every batch, until none is left.  Gives the
    tables committed and the number of keys removed. -/
def purgeRun (p : Bytes) (batch : Nat) (t : Records) : List Records × Nat :=
  if _h : (t.keysUnder p).take (max 1 batch) = [] then ([], 0)
  else
    let ks := (t.keysUnder p).take (max 1 batch)
    let after := t.eraseAll ks
    let rest := purgeRun p batch after
    (after :: rest.1, ks.length + rest.2)
termination_by (t.keysUnder p).length
decreasing_by exact Table.keysUnder_eraseAll_lt t p _ _h

/-- Purges a prefix; answers with the number of keys removed. -/
def Op.purge (p : Bytes) (batch : Nat) : Op Nat := fun t =>
  let (commits, removed) := purgeRun p batch t
  ⟨commits, .ok removed⟩

/-- Removes what is under a key, given by its bytes, and says whether anything was. -/
def Op.erase (k : Bytes) : Op Bool := Op.commit (Txn.deleteAt k)

/-- Removes one record, if it is there. -/
def Op.drop (k : Key) : Op Unit := do
  let _ ← Op.erase k.bytes

end SyncLedger
