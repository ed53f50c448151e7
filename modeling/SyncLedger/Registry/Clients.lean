/-
  SyncLedger/Registry/Clients.lean
  ================================
  **Clients: registration and removal.**  Removing a client deletes its record first; each
  root it had joined then drops it in a transaction of its own.
-/
import SyncLedger.Store

namespace SyncLedger

namespace Clients

/-- Registers a client under an identity and a number that are new. -/
def register (id : Uuid) (ordinal : UInt64) (address : String) (now : Instant) : Op Client :=
  let c : Client := { uuid := id, ordinal, address, roots := .empty, registeredAt := now }
  Op.commit do
    Txn.put Codec.client (.client id) c
    return c

def get (id : Uuid) : Op Client := Op.read fun t => do
  match ← t.fetch Codec.client (Key.client id).bytes with
  | some c => return c
  | none => throw (.notFound (.client id))

def list : Op (List Client) :=
  Op.read fun t => (t.scan Codec.client Key.clients).map (·.map (·.2))

/-- Takes a client's record away. -/
def detach (id : Uuid) : Txn Client := do
  let c ← Txn.require Codec.client (.client id) (.client id)
  let _ ← Txn.delete (.client id)
  return c

/-- Takes a client out of a root's members, if the root is there. -/
def leave (id : Uuid) (root : String) : Txn Unit := do
  match ← Txn.fetch Codec.root (.root root) with
  | some r =>
    if r.members.contains id then
      Txn.put Codec.root (.root root) { r with members := r.members.erase id }
  | none => pure ()

/-- Takes a client out of each of a list of roots.  A root whose record cannot be read is
    passed over. -/
def leaveEach (id : Uuid) : List String → Op Unit
  | [] => pure ()
  | root :: rest => do
    let _ ← Op.attempt (Op.commit (leave id root))
    leaveEach id rest

/-- Removes a client and its memberships; answers with the record it had. -/
def remove (id : Uuid) : Op Client := do
  let c ← Op.commit (detach id)
  leaveEach id c.roots.toList
  return c

/-- Removes the listed clients one after another and counts them.  One that is gone already is
    passed over; any other failure stops. -/
def removeEach : List Client → Nat → Op Nat
  | [], n => pure n
  | c :: rest, n => do
    match ← Op.attempt (remove c.uuid) with
    | .ok _ => removeEach rest (n + 1)
    | .error (.notFound _) => removeEach rest n
    | .error e => Op.fail e

def removeAll : Op Nat := do
  let clients ← list
  removeEach clients 0

end Clients

end SyncLedger
