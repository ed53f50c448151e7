/-
  SyncLedger/Snapshot.lean
  ========================
  **A whole database as one byte string**, which is how the administration program keeps it
  between runs: the records, the contents and the count of client numbers, one after another.
-/
import SyncLedger.Codec
import SyncLedger.Database

namespace SyncLedger

namespace Codec

/-- A table as its entries; they may be read in any order, and a later one takes the place of
    an earlier one with its key. -/
def table : Codec (Table Bytes) :=
  (list (blob.pair blob)).via (·.entries)
    (fun es => some (es.foldl (fun t e => t.insert e.1 e.2) .empty))

def database : Codec Database :=
  (table.pair <| table.pair u64).via (fun db => (db.records, db.contents, db.issued))
    (fun (records, contents, issued) => some { records, contents, issued })

end Codec

end SyncLedger
