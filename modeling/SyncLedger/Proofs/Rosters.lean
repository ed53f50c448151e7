/-
  SyncLedger/Proofs/Rosters.lean
  ==============================
  **Who is registered.**  A family of records has a mark, a key for each name and a stored form; a
  table stores a family when it has the records of the family, by name, and nothing else under
  the mark (`Family.StoredIn`).

  A roster has the clients by their identities and the roots by their paths.  `Roster.StoredIn`
  says that the table stores both families.  The number in it bounds the sets in the records,
  whose sizes are written in eight bytes.  Everything that the registry reads can then be read off
  the roster (`fetch_client`, `fetch_root`, `list_clients`, `list_roots`), and each of its writes
  changes the roster in one place.

  Membership is kept twice.  `Mutual` says that both sides agree, which no single record can.
-/
import SyncLedger.Proofs.Frames
import SyncLedger.Proofs.Sets

namespace SyncLedger

/-! ### Families of records -/

/-- Records of one kind: how they are stored, and where. -/
structure Family (ι α : Type) where
  codec : Codec α
  mark : Bytes
  key : ι → Bytes
  marked : ∀ i, mark <+: key i
  injective : Function.Injective key

namespace Family

variable {ι α : Type} {F : Family ι α} {f : ι → Option α} {s t : Records} {i : ι} {k : Bytes}

/-- Under the mark the table has the given records and nothing else. -/
structure StoredIn (F : Family ι α) (f : ι → Option α) (t : Records) : Prop where
  get : ∀ i, t.get? (F.key i) = (f i).map F.codec.encode
  only : ∀ k b, F.mark <+: k → t.get? k = some b → ∃ i, k = F.key i

/-- The records of a family are read back as they were written. -/
def Readable (F : Family ι α) (f : ι → Option α) : Prop :=
  ∀ i v, f i = some v → F.codec.read? (F.codec.encode v) = some v

theorem storedIn_empty (F : Family ι α) : F.StoredIn (fun _ => none) .empty where
  get _ := rfl
  only k b _ h := by simp at h

namespace StoredIn

theorem congr (h : F.StoredIn f t) (hs : ∀ k, F.mark <+: k → s.get? k = t.get? k) :
    F.StoredIn f s where
  get i := (hs _ (F.marked i)).trans (h.get i)
  only k b hk hb := h.only k b hk (hs k hk ▸ hb)

theorem insert_other (h : F.StoredIn f t) (hk : ¬ F.mark <+: k) (b : Bytes) :
    F.StoredIn f (t.insert k b) := by
  apply h.congr
  intro l hl
  rw [Table.get?_insert, if_neg]
  rintro rfl
  exact hk hl

theorem erase_other (h : F.StoredIn f t) (hk : ¬ F.mark <+: k) : F.StoredIn f (t.erase k) := by
  apply h.congr
  intro l hl
  rw [Table.get?_erase, if_neg]
  rintro rfl
  exact hk hl

variable [DecidableEq ι]

theorem insert (h : F.StoredIn f t) (i : ι) (v : α) :
    F.StoredIn (Function.update f i (some v)) (t.insert (F.key i) (F.codec.encode v)) where
  get j := by
    by_cases hj : j = i
    · subst hj
      simp
    · have hne : F.key j ≠ F.key i := fun heq => hj (F.injective heq)
      rw [Table.get?_insert, if_neg hne, Function.update_of_ne hj]
      exact h.get j
  only k b hk hb := by
    rw [Table.get?_insert] at hb
    split at hb
    · exact ⟨i, ‹_›⟩
    · exact h.only k b hk hb

theorem erase (h : F.StoredIn f t) (i : ι) :
    F.StoredIn (Function.update f i none) (t.erase (F.key i)) where
  get j := by
    by_cases hj : j = i
    · subst hj
      simp
    · have hne : F.key j ≠ F.key i := fun heq => hj (F.injective heq)
      rw [Table.get?_erase, if_neg hne, Function.update_of_ne hj]
      exact h.get j
  only k b hk hb := h.only k b hk (Table.sub_erase _ _ k b hb)

omit [DecidableEq ι]

/-! ### Reading -/

theorem fetch (h : F.StoredIn f t) (hread : F.Readable f) (i : ι) :
    t.fetch F.codec (F.key i) = .ok (f i) := by
  cases hv : f i with
  | none => rw [Table.fetch_eq_none_iff, h.get i, hv, Option.map_none]
  | some v =>
    rw [Table.fetch_eq_some_iff, h.get i, hv]
    exact ⟨_, rfl, hread i v hv⟩

theorem scan (h : F.StoredIn f t) (hread : F.Readable f) :
    ∃ es, t.scan F.codec F.mark = .ok es ∧ ∀ v, v ∈ es.map (·.2) ↔ ∃ i, f i = some v := by
  have hall : ∀ e ∈ t.under F.mark, ∃ v, F.codec.read? e.2 = some v := by
    intro e he
    obtain ⟨hk, hb⟩ := Table.mem_under.1 he
    obtain ⟨i, hi⟩ := h.only e.1 e.2 hk hb
    rw [hi, h.get i, Option.map_eq_some_iff] at hb
    obtain ⟨v, hv, hb⟩ := hb
    exact ⟨v, hb ▸ hread i v hv⟩
  obtain ⟨es, hes⟩ := Table.exists_decodeAll hall
  refine ⟨es, hes, ?_⟩
  intro v
  rw [List.mem_map]
  constructor
  · rintro ⟨⟨k, v⟩, he, rfl⟩
    obtain ⟨hk, hfetch⟩ := (Table.mem_scan hes).1 he
    obtain ⟨b, hb, -⟩ := Table.fetch_eq_some_iff.1 hfetch
    obtain ⟨i, rfl⟩ := h.only k b hk hb
    rw [h.fetch hread i, Except.ok.injEq] at hfetch
    exact ⟨i, hfetch⟩
  · rintro ⟨i, hv⟩
    refine ⟨(F.key i, v), (Table.mem_scan hes).2 ⟨F.marked i, ?_⟩, rfl⟩
    rw [h.fetch hread, hv]

end StoredIn

def clients : Family Uuid Client where
  codec := Codec.client
  mark := Key.clients
  key id := (Key.client id).bytes
  marked _ := List.prefix_append _ _
  injective a b h := Key.client.inj ((Key.bytes_inj (Key.fits_client a) (Key.fits_client b)).1 h)

def roots : Family String Root where
  codec := Codec.root
  mark := Key.roots
  key r := (Key.root r).bytes
  marked _ := List.prefix_append _ _
  injective _ _ h := (Key.root.inj (Key.root_bytes_inj.1 h)).symm

theorem not_clients_root (r : String) : ¬ clients.mark <+: (Key.root r).bytes := by
  intro h
  exact absurd (Key.mark_unique h (roots.marked r) rfl) (by decide)

theorem not_roots_client (id : Uuid) : ¬ roots.mark <+: (Key.client id).bytes := by
  intro h
  exact absurd (Key.mark_unique h (clients.marked id) rfl) (by decide)

end Family

/-! ### Rosters -/

/-- The registered clients and roots. -/
@[ext] structure Roster where
  clients : Uuid → Option Client
  roots : String → Option Root

namespace Roster

variable {g : Roster} {n m : Nat} {t s : Records} {id c : Uuid} {r : String} {x : Root} {y : Client}

def empty : Roster := ⟨fun _ => none, fun _ => none⟩

/-- A root has a client among its members. -/
def Lists (g : Roster) (r : String) (c : Uuid) : Prop := ∃ x, g.roots r = some x ∧ c ∈ x.members

/-- A client has a root among those that it joined. -/
def Joined (g : Roster) (c : Uuid) (r : String) : Prop :=
  ∃ y, g.clients c = some y ∧ r ∈ y.roots

/-- Membership is the same on both sides. -/
def Mutual (g : Roster) : Prop := ∀ r c, g.Lists r c ↔ g.Joined c r

theorem mutual_empty : empty.Mutual := by
  intro r c
  simp [Lists, Joined, empty]

def setClient (g : Roster) (id : Uuid) (y : Option Client) : Roster :=
  { g with clients := Function.update g.clients id y }

def setRoot (g : Roster) (r : String) (x : Option Root) : Roster :=
  { g with roots := Function.update g.roots r x }

theorem setClient_self (h : g.clients id = some y) : g.setClient id (some y) = g := by
  rw [setClient, ← h, Function.update_eq_self]

theorem setRoot_self (h : g.roots r = some x) : g.setRoot r (some x) = g := by
  rw [setRoot, ← h, Function.update_eq_self]

/-- The table stores the records of the roster, which are under their own names and whose texts
    and sets are of sizes that can be stored. -/
structure StoredIn (g : Roster) (n : Nat) (t : Records) : Prop where
  clients : Family.clients.StoredIn g.clients t
  roots : Family.roots.StoredIn g.roots t
  client : ∀ id y, g.clients id = some y → y.uuid = id ∧ y.Storable n
  root : ∀ r x, g.roots r = some x → x.path = r ∧ x.Storable n
  bound : n < 2 ^ 64

theorem storedIn_empty : empty.StoredIn 0 .empty where
  clients := Family.storedIn_empty _
  roots := Family.storedIn_empty _
  client id y h := by simp [empty] at h
  root r x h := by simp [empty] at h
  bound := by norm_num

namespace StoredIn

theorem mono (h : g.StoredIn n t) (hnm : n ≤ m) (hm : m < 2 ^ 64) : g.StoredIn m t where
  clients := h.clients
  roots := h.roots
  client id y hy := (h.client id y hy).imp_right (·.mono hnm)
  root r x hx := (h.root r x hx).imp_right (·.mono hnm)
  bound := hm

theorem sameRegistry (h : g.StoredIn n t) (hs : SameRegistry t s) : g.StoredIn n s where
  clients := h.clients.congr fun k hk => hs k (Or.inl hk)
  roots := h.roots.congr fun k hk => hs k (Or.inr hk)
  client := h.client
  root := h.root
  bound := h.bound

/-! ### Reading -/

theorem readable_clients (h : g.StoredIn n t) : Family.clients.Readable g.clients :=
  fun id y hy => (Codec.restores_client (h.client id y hy).2 h.bound).read?

theorem readable_roots (h : g.StoredIn n t) : Family.roots.Readable g.roots :=
  fun r x hx => (Codec.restores_root (h.root r x hx).2 h.bound).read?

theorem fetch_client (h : g.StoredIn n t) (id : Uuid) :
    t.fetch Codec.client (Key.client id).bytes = .ok (g.clients id) :=
  h.clients.fetch h.readable_clients id

theorem fetch_root (h : g.StoredIn n t) (r : String) :
    t.fetch Codec.root (Key.root r).bytes = .ok (g.roots r) :=
  h.roots.fetch h.readable_roots r

theorem has_client (h : g.StoredIn n t) (id : Uuid) :
    t.has (.client id) = (g.clients id).isSome := by
  have hget : t.get? (Key.client id).bytes = (g.clients id).map Codec.client.encode :=
    h.clients.get id
  rw [Table.has, Table.contains, hget, Option.isSome_map]

theorem has_root (h : g.StoredIn n t) (r : String) : t.has (.root r) = (g.roots r).isSome := by
  have hget : t.get? (Key.root r).bytes = (g.roots r).map Codec.root.encode := h.roots.get r
  rw [Table.has, Table.contains, hget, Option.isSome_map]

theorem list_clients (h : g.StoredIn n t) :
    ∃ ys, Clients.list t = ⟨[], .ok ys⟩ ∧ ∀ y, y ∈ ys ↔ g.clients y.uuid = some y := by
  obtain ⟨es, hes, hmem⟩ := h.clients.scan h.readable_clients
  refine ⟨es.map (·.2), ?_, ?_⟩
  · have hscan : t.scan Codec.client Key.clients = .ok es := hes
    rw [Clients.list, Op.read_apply, hscan]
    rfl
  · intro y
    rw [hmem]
    refine ⟨?_, fun hy => ⟨_, hy⟩⟩
    rintro ⟨id, hy⟩
    rw [(h.client id y hy).1, hy]

theorem list_roots (h : g.StoredIn n t) :
    ∃ xs, Roots.list t = ⟨[], .ok xs⟩ ∧ ∀ x, x ∈ xs ↔ g.roots x.path = some x := by
  obtain ⟨es, hes, hmem⟩ := h.roots.scan h.readable_roots
  refine ⟨es.map (·.2), ?_, ?_⟩
  · have hscan : t.scan Codec.root Key.roots = .ok es := hes
    rw [Roots.list, Op.read_apply, hscan]
    rfl
  · intro x
    rw [hmem]
    refine ⟨?_, fun hx => ⟨_, hx⟩⟩
    rintro ⟨r, hx⟩
    rw [(h.root r x hx).1, hx]

/-! ### Writing -/

theorem putClient (h : g.StoredIn n t) (hid : y.uuid = id) (hy : y.Storable n) :
    (g.setClient id (some y)).StoredIn n
      (t.insert (Key.client id).bytes (Codec.client.encode y)) where
  clients := h.clients.insert id y
  roots := h.roots.insert_other (Family.not_roots_client id) _
  client c z hz := by
    by_cases hc : c = id
    · subst hc
      simp only [setClient, Function.update_self, Option.some.injEq] at hz
      subst hz
      exact ⟨hid, hy⟩
    · simp only [setClient, Function.update_of_ne hc] at hz
      exact h.client c z hz
  root := h.root
  bound := h.bound

theorem eraseClient (h : g.StoredIn n t) (id : Uuid) :
    (g.setClient id none).StoredIn n (t.erase (Key.client id).bytes) where
  clients := h.clients.erase id
  roots := h.roots.erase_other (Family.not_roots_client id)
  client c z hz := by
    by_cases hc : c = id
    · subst hc
      simp [setClient] at hz
    · simp only [setClient, Function.update_of_ne hc] at hz
      exact h.client c z hz
  root := h.root
  bound := h.bound

theorem putRoot (h : g.StoredIn n t) (hr : x.path = r) (hx : x.Storable n) :
    (g.setRoot r (some x)).StoredIn n
      (t.insert (Key.root r).bytes (Codec.root.encode x)) where
  clients := h.clients.insert_other (Family.not_clients_root r) _
  roots := h.roots.insert r x
  client := h.client
  root q z hz := by
    by_cases hq : q = r
    · subst hq
      simp only [setRoot, Function.update_self, Option.some.injEq] at hz
      subst hz
      exact ⟨hr, hx⟩
    · simp only [setRoot, Function.update_of_ne hq] at hz
      exact h.root q z hz
  bound := h.bound

theorem eraseRoot (h : g.StoredIn n t) (r : String) :
    (g.setRoot r none).StoredIn n (t.erase (Key.root r).bytes) where
  clients := h.clients.erase_other (Family.not_clients_root r)
  roots := h.roots.erase r
  client := h.client
  root q z hz := by
    by_cases hq : q = r
    · subst hq
      simp [setRoot] at hz
    · simp only [setRoot, Function.update_of_ne hq] at hz
      exact h.root q z hz
  bound := h.bound

/-- A record that is not written because it is there. -/
theorem putClient_unless (h : g.StoredIn n t) (hid : y.uuid = id) (hy : y.Storable n) {b : Bool}
    (hb : b = false → g.clients id = some y) :
    (g.setClient id (some y)).StoredIn n
      (if b = true then t.insert (Key.client id).bytes (Codec.client.encode y) else t) := by
  cases b with
  | false => exact (setClient_self (hb rfl)).symm ▸ h
  | true => exact h.putClient hid hy

theorem putRoot_unless (h : g.StoredIn n t) (hr : x.path = r) (hx : x.Storable n) {b : Bool}
    (hb : b = false → g.roots r = some x) :
    (g.setRoot r (some x)).StoredIn n
      (if b = true then t.insert (Key.root r).bytes (Codec.root.encode x) else t) := by
  cases b with
  | false => exact (setRoot_self (hb rfl)).symm ▸ h
  | true => exact h.putRoot hr hx

end StoredIn

end Roster

end SyncLedger
