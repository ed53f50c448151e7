/-
  SyncLedger/Database.lean
  ========================
  **Everything that is kept**: the records, the contents, and how many client numbers have
  been given out.
-/
import SyncLedger.Content.Store
import SyncLedger.Store

namespace SyncLedger

structure Database where
  records : Records := .empty
  contents : Contents := .empty
  /-- How many client numbers have been given out. -/
  issued : UInt64 := 0

namespace Database

def perform {α : Type} (db : Database) (op : Op α) : Except Error α × Database :=
  let r := op db.records
  (r.answer, { db with records := r.final db.records })

/-- Stores a content; answers with its hash. -/
def putContent (db : Database) (s : ContentScheme) (data : Bytes) : String × Database :=
  let (hash, contents) := db.contents.put s data
  (hash, { db with contents })

def removeContent (db : Database) (hash : String) : Bool × Database :=
  (db.contents.has hash, { db with contents := db.contents.remove hash })

/-- How many records of each family there are, and how many contents. -/
structure Stats where
  clients : Nat
  roots : Nat
  files : Nat
  versions : Nat
  markers : Nat
  contents : Nat
  deriving DecidableEq

def stats (db : Database) : Stats :=
  let count (p : Bytes) : Nat := (db.records.keysUnder p).length
  { clients := count Key.clients, roots := count Key.roots, files := count Key.files,
    versions := count Key.versions, markers := count Key.markers, contents := db.contents.size }

end Database

end SyncLedger
