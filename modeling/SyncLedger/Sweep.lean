/-
  SyncLedger/Sweep.lean
  =====================
  **Finishing what was interrupted, and removing what belongs to nothing.**

  `Sweep.pending` runs before anything else uses the table.  Each marker it finds belongs to a
  removal that a crash cut short: if the root (or file) is still out of use the purge is run
  again, otherwise the marker alone goes.

  `Sweep.orphans` runs at any time.  It looks for roots that are not registered and yet have
  records, and for paths of registered roots that have versions and no file.  Each is reserved
  by a marker first, so that nothing new can appear under it, and then purged; one that is
  already reserved is left to its owner.
-/
import SyncLedger.Registry.Roots
import SyncLedger.Index.Files

namespace SyncLedger

namespace Sweep

/-- What a sweep cleaned up. -/
structure Report where
  cascades : Nat := 0
  files : Nat := 0
  versions : Nat := 0
  deriving DecidableEq

def Report.add (a b : Report) : Report :=
  ⟨a.cascades + b.cascades, a.files + b.files, a.versions + b.versions⟩

/-! ### Interrupted removals -/

/-- Runs the purge that a marker asks for, unless its root or file is in use. -/
def finish (m : Marker) (batch : Nat) : Op Report := do
  match m.path with
  | none =>
    if ← Op.read fun t => .ok (t.has (.root m.root)) then return {}
    let purged ← Roots.purge m.root batch
    return ⟨1, purged.files, purged.versions⟩
  | some path =>
    if ← Op.read fun t => .ok (t.has (.file m.root path)) then return {}
    let n ← History.purge m.root path batch
    return ⟨1, 0, n⟩

/-- Finishes the listed removals one after another; each marker goes when its work is done. -/
def finishEach (batch : Nat) : List (Bytes × Marker) → Report → Op Report
  | [], report => pure report
  | (key, m) :: rest, report => do
    let done ← finish m batch
    let _ ← Op.erase key
    finishEach batch rest (report.add done)

/-- Finishes every removal that left a marker. -/
def pending (batch : Nat) : Op Report := do
  let markers ← Op.read fun t => t.scan Codec.marker Key.markers
  finishEach batch markers {}

/-! ### Orphans -/

/-- A path of a root.  Locations come in the order of their roots, and those of one root in the
    order of their paths. -/
structure Location where
  root : String
  path : String
  deriving DecidableEq

namespace Location

instance : LT Location := ⟨fun a b => a.root < b.root ∨ a.root = b.root ∧ a.path < b.path⟩

instance : DecidableLT Location := fun a b =>
  inferInstanceAs (Decidable (a.root < b.root ∨ a.root = b.root ∧ a.path < b.path))

instance : Trans (α := Location) (· < ·) (· < ·) (· < ·) where
  trans {a b c} hab hbc := by
    rcases hab with hab | ⟨hroot, hab⟩
    · rcases hbc with hbc | ⟨hroot, -⟩
      · exact Or.inl (String.lt_trans hab hbc)
      · exact Or.inl (hroot ▸ hab)
    · rcases hbc with hbc | ⟨hroot', hbc⟩
      · exact Or.inl (hroot ▸ hbc)
      · exact Or.inr ⟨hroot.trans hroot', String.lt_trans hab hbc⟩

end Location

/-- The roots that are not registered but have a file or version key, in order. -/
def deadRoots (t : Records) : List String :=
  let ofFiles := (t.keysUnder Key.files).filterMap fun k => (Key.parseFile? k).map (·.1)
  let ofVersions := (t.keysUnder Key.versions).filterMap fun k => (Key.parseVersion? k).map (·.1)
  (OrderedSet.ofList ((ofFiles ++ ofVersions).filter fun r => !t.has (.root r))).toList

/-- The paths of registered roots that have versions but no file, in order. -/
def deadPaths (t : Records) : List Location :=
  let ofVersions := (t.keysUnder Key.versions).filterMap fun k =>
    (Key.parseVersion? k).map fun (r, p, _) => Location.mk r p
  (OrderedSet.ofList
    (ofVersions.filter fun l => t.has (.root l.root) && !t.has (.file l.root l.path))).toList

/-- Leaves a marker for an orphaned root or path.  Answers false when its owner came back in
    the meantime or another removal has reserved it. -/
def reserve (root : String) (path : Option String) : Txn Bool := do
  let owner := match path with
    | none => Key.root root
    | some p => Key.file root p
  if (← Txn.has owner) || (← Txn.has (.marker root path)) then return false
  if path.isSome && !(← Txn.has (.root root)) then return false
  Txn.put Codec.marker (.marker root path) ⟨root, path⟩
  return true

/-- Reserves and purges the listed roots. -/
def purgeRoots (batch : Nat) : List String → Report → Op Report
  | [], report => pure report
  | root :: rest, report => do
    if ← Op.commit (reserve root none) then
      let purged ← Roots.purge root batch
      purgeRoots batch rest (report.add ⟨1, purged.files, purged.versions⟩)
    else purgeRoots batch rest report

/-- Reserves and purges the listed paths. -/
def purgePaths (batch : Nat) : List Location → Report → Op Report
  | [], report => pure report
  | ⟨root, path⟩ :: rest, report => do
    if ← Op.commit (reserve root (some path)) then
      let n ← History.purge root path batch
      Op.drop (.marker root (some path))
      purgePaths batch rest (report.add ⟨1, 0, n⟩)
    else purgePaths batch rest report

/-- Removes what belongs to no registered root or to no file. -/
def orphans (batch : Nat) : Op Report := do
  let roots ← Op.read fun t => .ok (deadRoots t)
  let paths ← Op.read fun t => .ok (deadPaths t)
  let report ← purgeRoots batch roots {}
  purgePaths batch paths report

end Sweep

end SyncLedger
