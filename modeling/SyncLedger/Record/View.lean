/-
  SyncLedger/Record/View.lean
  ===========================
  **Records as JSON**, for people and other programs to read.  Fields come in the order of the
  record, but those of a root in the order of their names; its password hash is left out.
-/
import SyncLedger.Json
import SyncLedger.Record

namespace SyncLedger

namespace Json

def ofU64 (n : UInt64) : Json := .natural n.toNat

def ofInstant (t : Instant) : Json := .text t.text

end Json

def Client.toJson (c : Client) : Json :=
  .record [
    ("uuid", .text c.uuid.text),
    ("id", .ofU64 c.ordinal),
    ("address", .text c.address),
    ("roots", .array (c.roots.toList.map .text)),
    ("registered_at", .ofInstant c.registeredAt)]

def Root.toJson (r : Root) : Json :=
  .record [
    ("created_at", .ofInstant r.createdAt),
    ("credential_epoch", .ofU64 r.epoch),
    ("members", .array (r.members.toList.map fun id => .text id.text)),
    ("owner", .text r.owner),
    ("path", .text r.path)]

def Metadata.toJson (m : Metadata) : Json :=
  .record [
    ("mod_time", .orNull .ofInstant m.modified),
    ("size", .ofU64 m.size),
    ("mode", .natural m.mode.toNat)]

def File.toJson (f : File) : Json :=
  .record [
    ("root", .text f.root),
    ("path", .text f.path),
    ("latest_hash", .text f.hash),
    ("latest_sync_timestamp", .ofU64 f.timestamp),
    ("exists", .bool f.present),
    ("metadata", f.metadata.toJson)]

def Version.toJson (v : Version) : Json :=
  .record [
    ("root", .text v.root),
    ("before_path", .orNull .text v.before),
    ("after_path", .text v.after),
    ("date", .ofInstant v.date),
    ("client", .text v.client.text),
    ("timestamp", .ofU64 v.timestamp),
    ("hash", .text v.hash),
    ("kind", .text v.change.name)]

end SyncLedger
