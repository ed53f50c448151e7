/-
  SyncLedger/Proofs/Registry.lean
  ===============================
  **Clients and roots do not touch the commit log.**  Every commit of an operation on clients
  and of a registration, a join or a new password writes client and root records only, and puts
  every root under its path (`StoredIn.registryWrite`), so a table that stores a journal goes on
  storing it.
-/
import SyncLedger.Proofs.RegistryWrites

namespace SyncLedger

variable {j : Journal} {t s : Records}

namespace Journal.StoredIn

/-! ### Writes -/

theorem put_client (h : j.StoredIn t) (id : Uuid) (c : Client) :
    j.StoredIn (t.insert (Key.client id).bytes (Codec.client.encode c)) :=
  h.registryOnly (.insert_client t id _)

theorem put_root (h : j.StoredIn t) {path : String} (hpath : Short path) {r : Root}
    (hr : r.path = path) : j.StoredIn (t.insert (Key.root path).bytes (Codec.root.encode r)) := by
  subst hr
  exact h.registryOnly (.insert_root hpath (Codec.text_prefix_root r))

/-- A root that is read may be written again under the same path. -/
theorem put_root_of_fetch (h : j.StoredIn t) {path : String} {old r : Root}
    (hold : t.fetch Codec.root (Key.root path).bytes = .ok (some old))
    (hr : r.path = old.path) :
    j.StoredIn (t.insert (Key.root path).bytes (Codec.root.encode r)) := by
  obtain ⟨b, hb, _⟩ := Table.fetch_eq_some_iff.1 hold
  have hpath := h.keyed.short_root (Table.has_iff.2 ⟨b, hb⟩)
  exact h.put_root hpath (hr.trans (h.named.path_of_fetch hpath hold))

theorem registryWrite (h : j.StoredIn t) {r : String} (hs : RegistryWrite r t s) :
    j.StoredIn s := by
  cases hs with
  | client id c => exact h.put_client id c
  | noClient id => exact h.registryOnly (.erase_client t id)
  | root hold hpath => exact h.put_root_of_fetch hold hpath

end Journal.StoredIn

/-! ### Operations -/

namespace Clients

theorem keeps_register (id : Uuid) (ordinal : UInt64) (address : String) (now : Instant) :
    Op.Keeps j.StoredIn (register id ordinal address now) :=
  RegistryWrite.keeps_registerClient (r := "") (fun _ _ hs h => h.registryWrite hs) id ordinal address now

theorem keeps_remove (id : Uuid) : Op.Keeps j.StoredIn (remove id) :=
  RegistryWrite.keeps_removeClient (fun _ _ _ hs h => h.registryWrite hs) id

theorem keeps_removeAll : Op.Keeps j.StoredIn removeAll :=
  RegistryWrite.keeps_removeAllClients fun _ _ _ hs h => h.registryWrite hs

end Clients

namespace Roots

theorem keeps_register (secrets : PasswordScheme) {path : String} (hpath : Short path)
    (owner password : String) (salt : Bytes) (now : Instant) :
    Op.Keeps j.StoredIn (register secrets path owner password salt now) := by
  apply RegistryWrite.keeps_registerRoot
  intro t x hx _ _ h
  exact h.put_root hpath hx

theorem keeps_join (secrets : PasswordScheme) (path : String) (id : Uuid) (password : String) :
    Op.Keeps j.StoredIn (join secrets path id password) :=
  RegistryWrite.keeps_join (fun _ _ hs h => h.registryWrite hs) secrets id password

theorem keeps_setPassword (secrets : PasswordScheme) (path password : String) (salt : Bytes) :
    Op.Keeps j.StoredIn (setPassword secrets path password salt) :=
  RegistryWrite.keeps_setPassword (fun _ _ hs h => h.registryWrite hs) secrets password salt

theorem keeps_resetPassword (secrets : PasswordScheme) (configured : Option String)
    (generated path : String) (salt : Bytes) :
    Op.Keeps j.StoredIn (resetPassword secrets configured generated path salt) :=
  RegistryWrite.keeps_resetPassword (fun _ _ hs h => h.registryWrite hs) secrets configured
    generated salt

end Roots

end SyncLedger
