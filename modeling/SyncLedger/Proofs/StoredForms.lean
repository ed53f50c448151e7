/-
  SyncLedger/Proofs/StoredForms.lean
  ==================================
  **Stored forms say where they end.**  Reading takes what it needs from the front and is not
  disturbed by what follows (`Codec.Strict`).  A form that was cut short can therefore not be read:
  with the missing bytes put back the same reading would succeed and leave them over, but the whole
  form is read to its end.  For the same reason no stored form begins another.

  Reading is lax about the order of a set and about the text of a date.  It answers nevertheless
  with values that can be written (`strict_client` and the lemmas beside it), and these are read
  back as they were written, so reading, writing and reading again gives the same value.
-/
import SyncLedger.Proofs.DateReading
import SyncLedger.Proofs.Sets
import SyncLedger.Store

namespace SyncLedger

namespace Codec

variable {α β : Type} {c : Codec α} {d : Codec β} {P : α → Prop} {Q : β → Prop}

/-! ### Reading from the front -/

/-- What is read has the property, and is read as well when more bytes follow. -/
def Strict (c : Codec α) (P : α → Prop) : Prop := ∀ b v rest, c.decode b = some (v, rest) →
  P v ∧ ∀ more, c.decode (b ++ more) = some (v, rest ++ more)

theorem Strict.via {out : α → β} {into : β → Option α} (h : d.Strict Q)
    (hinto : ∀ w v, Q w → into w = some v → P v) : (d.via out into).Strict P := by
  intro b v rest hread
  simp only [Codec.via, Option.bind_eq_some_iff, Option.map_eq_some_iff] at hread
  obtain ⟨⟨w, left⟩, hw, u, hu, heq⟩ := hread
  obtain ⟨rfl, rfl⟩ := Prod.ext_iff.1 heq
  obtain ⟨hproperty, hfront⟩ := h b w left hw
  refine ⟨hinto w u hproperty hu, fun more => ?_⟩
  simp [Codec.via, hfront more, hu]

theorem Strict.pair (hc : c.Strict P) (hd : d.Strict Q) :
    (c.pair d).Strict fun v => P v.1 ∧ Q v.2 := by
  intro b v rest hread
  simp only [Codec.pair, Option.bind_eq_some_iff, Option.map_eq_some_iff] at hread
  obtain ⟨⟨x, left⟩, hx, ⟨y, left'⟩, hy, heq⟩ := hread
  obtain ⟨rfl, rfl⟩ := Prod.ext_iff.1 heq
  obtain ⟨hfirst, hfront⟩ := hc b x left hx
  obtain ⟨hsecond, hfront'⟩ := hd left y left' hy
  refine ⟨⟨hfirst, hsecond⟩, fun more => ?_⟩
  simp [Codec.pair, hfront more, hfront' more]

/-- So many bytes are the same ones when more follow. -/
theorem take?_append {n : Nat} {b v rest : Bytes} (h : take? n b = some (v, rest)) :
    v.length = n ∧ ∀ more, take? n (b ++ more) = some (v, rest ++ more) := by
  unfold take? at h
  split at h
  · contradiction
  · rename_i hlong
    obtain ⟨rfl, rfl⟩ := Prod.ext_iff.1 (Option.some.inj h)
    refine ⟨by simpa using hlong, fun more => ?_⟩
    have hlonger : ¬ (b ++ more).length < n := by
      rw [List.length_append]
      omega
    rw [take?, if_neg hlonger, List.take_append_of_le_length (by omega),
      List.drop_append_of_le_length (by omega)]

theorem word_decode (n : Nat) (b : Bytes) :
    (word n).decode b = (take? n b).map fun p => (Bytes.ofLittleEndian p.1, p.2) := by
  by_cases h : b.length < n
  · simp [word, take?, h]
  · simp [word, take?, h]

theorem strict_word (n : Nat) : (word n).Strict (· < 256 ^ n) := by
  intro b v rest hread
  rw [word_decode, Option.map_eq_some_iff] at hread
  obtain ⟨⟨w, left⟩, hw, heq⟩ := hread
  obtain ⟨rfl, rfl⟩ := Prod.ext_iff.1 heq
  obtain ⟨hlength, hfront⟩ := take?_append hw
  refine ⟨hlength ▸ Bytes.ofLittleEndian_lt w, fun more => ?_⟩
  rw [word_decode, hfront more]
  rfl

theorem strict_blob : blob.Strict (·.length < 2 ^ 64) := by
  intro b v rest hread
  simp only [blob, Option.bind_eq_some_iff] at hread
  obtain ⟨⟨n, left⟩, hn, hv⟩ := hread
  obtain ⟨hbound, hfront⟩ := strict_word 8 b n left hn
  obtain ⟨rfl, hfront'⟩ := take?_append hv
  refine ⟨hbound, fun more => ?_⟩
  simp [blob, hfront more, hfront' more]

theorem strict_text : text.Strict Held := by
  refine strict_blob.via ?_
  intro b s hlength hs
  rwa [← Bytes.ofText_of_text? hs, Bytes.length_ofText] at hlength

theorem strict_u64 : u64.Strict fun _ => True := (strict_word 8).via fun _ _ _ _ => trivial

theorem strict_u32 : u32.Strict fun _ => True := (strict_word 4).via fun _ _ _ _ => trivial

theorem strict_bool : bool.Strict fun _ => True := (strict_word 1).via fun _ _ _ _ => trivial

theorem strict_change : change.Strict fun _ => True := (strict_word 4).via fun _ _ _ _ => trivial

theorem strict_uuid : uuid.Strict fun _ => True := strict_blob.via fun _ _ _ _ => trivial

theorem strict_instant : instant.Strict Instant.Representable :=
  strict_text.via fun _ _ _ ht => Instant.representable_of_parse? ht

theorem Strict.option (h : c.Strict P) : c.option.Strict fun v => ∀ w ∈ v, P w := by
  intro b v rest hread
  unfold Codec.option at hread
  dsimp only at hread
  split at hread
  · obtain ⟨rfl, rfl⟩ := Prod.ext_iff.1 (Option.some.inj hread)
    exact ⟨fun _ => nofun, fun more => rfl⟩
  · rename_i tail
    obtain ⟨⟨w, left⟩, hw, heq⟩ := Option.map_eq_some_iff.1 hread
    obtain ⟨rfl, rfl⟩ := Prod.ext_iff.1 heq
    obtain ⟨hproperty, hfront⟩ := h tail w left hw
    refine ⟨fun u hu => Option.some.inj hu ▸ hproperty, fun more => ?_⟩
    simp [Codec.option, hfront more]
  · contradiction

theorem Strict.decodeMany (h : c.Strict P) {n : Nat} {b rest : Bytes} {vs : List α}
    (hread : decodeMany c n b = some (vs, rest)) : (vs.length = n ∧ ∀ v ∈ vs, P v) ∧
      ∀ more, Codec.decodeMany c n (b ++ more) = some (vs, rest ++ more) := by
  induction n generalizing b vs with
  | zero =>
    obtain ⟨rfl, rfl⟩ := Prod.ext_iff.1 (Option.some.inj hread)
    exact ⟨⟨rfl, fun _ => nofun⟩, fun more => rfl⟩
  | succ n ih =>
    simp only [Codec.decodeMany, Option.bind_eq_some_iff, Option.map_eq_some_iff] at hread
    obtain ⟨⟨v, left⟩, hv, ⟨tail, left'⟩, htail, heq⟩ := hread
    obtain ⟨rfl, rfl⟩ := Prod.ext_iff.1 heq
    obtain ⟨hfirst, hfront⟩ := h b v left hv
    obtain ⟨⟨hlength, hrest⟩, hfront'⟩ := ih htail
    refine ⟨⟨?_, ?_⟩, fun more => ?_⟩
    · rw [List.length_cons, hlength]
    · exact List.forall_mem_cons.2 ⟨hfirst, hrest⟩
    · simp [Codec.decodeMany, hfront more, hfront' more]

theorem Strict.list (h : c.Strict P) :
    c.list.Strict fun vs => vs.length < 2 ^ 64 ∧ ∀ v ∈ vs, P v := by
  intro b vs rest hread
  simp only [Codec.list, Option.bind_eq_some_iff] at hread
  obtain ⟨⟨n, left⟩, hn, hvs⟩ := hread
  obtain ⟨hbound, hfront⟩ := strict_word 8 b n left hn
  obtain ⟨⟨rfl, hall⟩, hfront'⟩ := h.decodeMany hvs
  refine ⟨⟨hbound, hall⟩, fun more => ?_⟩
  simp [Codec.list, hfront more, hfront' more]

/-- However a set is listed, what is read has no more elements than the list. -/
theorem Strict.set [LT α] [DecidableLT α] [Trans (α := α) (· < ·) (· < ·) (· < ·)]
    (h : c.Strict P) : c.set.Strict fun s => s.toList.length < 2 ^ 64 ∧ ∀ v ∈ s, P v := by
  refine h.list.via ?_
  rintro vs s ⟨hlength, hall⟩ hs
  obtain rfl := Option.some.inj hs
  refine ⟨Nat.lt_of_le_of_lt (OrderedSet.length_ofList_le vs) hlength, fun v hv => ?_⟩
  exact hall v (OrderedSet.mem_of_mem_ofList hv)

/-! ### Records -/

theorem strict_client : client.Strict (Client.Storable (2 ^ 64 - 1)) := by
  have hfields := strict_uuid.pair <| strict_u64.pair <| strict_text.pair <|
    strict_text.set.pair strict_instant
  refine hfields.via ?_
  rintro ⟨uuid, ordinal, address, roots, date⟩ v ⟨-, -, haddress, ⟨hsize, hroots⟩, hdate⟩ hv
  obtain rfl := Option.some.inj hv
  exact ⟨haddress, hroots, Nat.le_pred_of_lt hsize, hdate⟩

theorem strict_root : root.Strict (Root.Storable (2 ^ 64 - 1)) := by
  have hfields := strict_text.pair <| strict_text.pair <| strict_text.pair <|
    strict_u64.pair <| strict_uuid.set.pair strict_instant
  refine hfields.via ?_
  rintro ⟨path, owner, hash, epoch, members, date⟩ v
    ⟨hpath, howner, hhash, -, ⟨hsize, -⟩, hdate⟩ hv
  obtain rfl := Option.some.inj hv
  exact ⟨hpath, howner, hhash, Nat.le_pred_of_lt hsize, hdate⟩

theorem strict_metadata : metadata.Strict Metadata.Fits := by
  have hfields := strict_instant.option.pair <| strict_u64.pair strict_u32
  refine hfields.via ?_
  rintro ⟨modified, size, mode⟩ v ⟨hmodified, -, -⟩ hv
  obtain rfl := Option.some.inj hv
  exact hmodified

theorem strict_file : file.Strict File.Storable := by
  have hfields := strict_text.pair <| strict_text.pair <| strict_text.pair <|
    strict_u64.pair <| strict_bool.pair strict_metadata
  refine hfields.via ?_
  rintro ⟨root, path, hash, timestamp, present, metadata⟩ v
    ⟨hroot, hpath, hhash, -, -, hmetadata⟩ hv
  obtain rfl := Option.some.inj hv
  exact ⟨hroot, hpath, hhash, hmetadata⟩

theorem strict_version : version.Strict Version.Storable := by
  have hfields := strict_text.pair <| strict_text.option.pair <| strict_text.pair <|
    strict_instant.pair <| strict_uuid.pair <| strict_u64.pair <| strict_text.pair strict_change
  refine hfields.via ?_
  rintro ⟨root, before, after, date, client, timestamp, hash, change⟩ v
    ⟨hroot, hbefore, hafter, hdate, -, -, hhash, -⟩ hv
  obtain rfl := Option.some.inj hv
  exact ⟨hroot, hbefore, hafter, hdate, hhash⟩

theorem strict_marker : marker.Strict Marker.Storable := by
  have hfields := strict_text.pair strict_text.option
  refine hfields.via ?_
  rintro ⟨root, path⟩ v ⟨hroot, hpath⟩ hv
  obtain rfl := Option.some.inj hv
  exact ⟨hroot, hpath⟩

/-! ### Whole values -/

/-- The stored form is exact for the values with a property: they are read back whatever follows,
    from nothing less than their whole form, no form begins another, and whatever is read at all
    is read again after it is written. -/
structure Exact (c : Codec α) (P : α → Prop) : Prop where
  restored : ∀ v, P v → ∀ rest, c.read? (c.encode v ++ rest) = some v
  refused : ∀ v, P v → ∀ b, b <+: c.encode v → b ≠ c.encode v →
    ∀ (t : Records) k, t.get? k = some b → t.fetch c k = .error (.serialization none)
  apart : ∀ v w, P v → P w → c.encode v <+: c.encode w → v = w
  again : ∀ b v, c.read? b = some v → P v ∧ c.read? (c.encode v) = some v

theorem Restores.read?_append {v : α} (h : c.Restores v) (rest : Bytes) :
    c.read? (c.encode v ++ rest) = some v := by
  simp [Codec.read?, h rest]

/-- A form that was cut short is not read: the rest of it would be left over. -/
theorem Strict.read?_eq_none (h : c.Strict P) {v : α} (hv : c.Restores v) {b : Bytes}
    (hb : b <+: c.encode v) (hne : b ≠ c.encode v) : c.read? b = none := by
  obtain ⟨more, heq⟩ := hb
  rcases hread : c.decode b with _ | ⟨w, rest⟩
  · simp [read?, hread]
  · exfalso
    have hlonger := (h b w rest hread).2 more
    have hwhole := hv []
    rw [List.append_nil, ← heq, hlonger] at hwhole
    obtain ⟨-, hnothing⟩ := Prod.ext_iff.1 (Option.some.inj hwhole)
    obtain ⟨-, rfl⟩ := List.append_eq_nil_iff.1 hnothing
    exact hne (by rw [← heq, List.append_nil])

/-- A codec that reads from the front and restores what it reads is exact. -/
theorem Strict.exact (h : c.Strict P) (hc : ∀ v, P v → c.Restores v) : c.Exact P where
  restored v hv rest := (hc v hv).read?_append rest
  refused v hv b hb hne t k hk := by
    simp [Table.fetch, hk, h.read?_eq_none (hc v hv) hb hne]
  apart v w hv hw hprefix := by
    obtain ⟨rest, heq⟩ := hprefix
    have hfirst := (hc v hv).read?_append rest
    rw [heq, (hc w hw).read?] at hfirst
    exact (Option.some.inj hfirst).symm
  again b v hread := by
    obtain ⟨⟨w, rest⟩, hdecode, rfl⟩ := Option.map_eq_some_iff.1 hread
    have hw := (h b w rest hdecode).1
    exact ⟨hw, (hc w hw).read?⟩

/-- **Stored records are exact.**  This holds of clients, roots, files, versions and markers whose
    texts and sets have sizes below `2 ^ 64` and whose dates are read back from their texts. -/
theorem exact_records :
    (∀ t : Instant, t.Representable ↔ Instant.parse? t.text = some t) ∧
      client.Exact (Client.Storable (2 ^ 64 - 1)) ∧ root.Exact (Root.Storable (2 ^ 64 - 1)) ∧
      file.Exact File.Storable ∧ version.Exact Version.Storable ∧
      marker.Exact Marker.Storable := by
  have hbelow : 2 ^ 64 - 1 < 2 ^ 64 := by norm_num
  refine ⟨fun t => Instant.representable_iff, ?_, ?_, ?_, ?_, ?_⟩
  · exact strict_client.exact fun v hv => restores_client hv hbelow
  · exact strict_root.exact fun v hv => restores_root hv hbelow
  · exact strict_file.exact fun v hv => restores_storable_file hv
  · exact strict_version.exact fun v hv => restores_storable_version hv
  · exact strict_marker.exact fun v hv => restores_storable_marker hv

/-- A client whose roots are listed out of order and twice, with a byte left over, is written as
    another text; both are read as that client, and the new one is not when its end is missing. -/
theorem exact_records_of_disordered :
    let c : Client := {
      uuid := ⟨7⟩, ordinal := 1, address := "a:1", roots := OrderedSet.ofList ["/b", "/a"]
      registeredAt := ⟨0, 0⟩ }
    let b := uuid.encode c.uuid ++ u64.encode 1 ++ text.encode "a:1" ++
      text.list.encode ["/b", "/a", "/b"] ++ text.encode "1970-01-01 0:0:0Z" ++ [0]
    client.read? b = some c ∧ b ≠ client.encode c ∧ c.Storable (2 ^ 64 - 1) ∧
      client.read? (client.encode c) = some c ∧
      ∀ (t : Records) k, t.get? k = some (client.encode c).dropLast →
        t.fetch client k = .error (.serialization none) := by
  intro c b
  obtain ⟨-, hclient, -⟩ := exact_records
  have hread : client.read? b = some c := by decide +kernel
  have hother : b ≠ client.encode c := by decide +kernel
  have hshort : (client.encode c).dropLast ≠ client.encode c := by decide +kernel
  obtain ⟨hstorable, hagain⟩ := hclient.again b c hread
  exact ⟨hread, hother, hstorable, hagain,
    hclient.refused c hstorable _ (List.dropLast_prefix _) hshort⟩

end Codec

end SyncLedger
