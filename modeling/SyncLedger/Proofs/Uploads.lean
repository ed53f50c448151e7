/-
  SyncLedger/Proofs/Uploads.lean
  ==============================
  **What an upload is worth.**  An upload answers with the hash of its content, touches no other
  blob, and is the same made twice (`Contents.put_put`).  Whether the content can be fetched then is
  decided by what was stored under the hash before (`Contents.fetch_put_iff`): a blob that is there
  is trusted, so an upload does not repair a damaged one.  It has to be taken out first
  (`Contents.fetch_put_remove`).
-/
import SyncLedger.Proofs.Contents

namespace SyncLedger

namespace Table

variable {β : Type} {k : Bytes}

theorem length_insertIn (v : β) {es : List (Bytes × β)} (h : lookupIn k es = none) :
    (insertIn k v es).length = es.length + 1 := by
  induction es with
  | nil => rfl
  | cons e es ih =>
    have hne : k ≠ e.1 := by
      rintro rfl
      simp [lookupIn] at h
    have hrest : lookupIn k es = none := by simpa [lookupIn, hne] using h
    rw [insertIn, if_neg hne]
    split
    · rfl
    · rw [List.length_cons, ih hrest, List.length_cons]

/-- A table grows by one entry if the key was free. -/
theorem size_insert {t : Table β} (v : β) (h : t.contains k = false) :
    (t.insert k v).size = t.size + 1 :=
  length_insertIn v (contains_eq_false_iff.1 h)

end Table

namespace Contents

variable {σ : ContentScheme} {c : Contents} {data : Bytes}

/-! ### What is stored after an upload -/

theorem put_of_has (h : c.has (σ.hash data) = true) : c.put σ data = (σ.hash data, c) := by
  unfold has at h
  simp only [put, h, if_true]

theorem put_of_not_has (h : c.has (σ.hash data) = false) : c.put σ data =
    (σ.hash data, c.insert (Bytes.ofText (σ.hash data)) (σ.pack data)) := by
  unfold has at h
  simp only [put, h, Bool.false_eq_true, if_false]

theorem fst_put (σ : ContentScheme) (c : Contents) (data : Bytes) :
    (c.put σ data).1 = σ.hash data := rfl

theorem get?_put_of_ne {k : Bytes} (h : k ≠ Bytes.ofText (σ.hash data)) :
    (c.put σ data).2.get? k = c.get? k := by
  cases hthere : c.has (σ.hash data) with
  | true => rw [put_of_has hthere]
  | false => rw [put_of_not_has hthere, Table.get?_insert, if_neg h]

/-- The same upload again changes nothing. -/
theorem put_put (σ : ContentScheme) (c : Contents) (data : Bytes) :
    (c.put σ data).2.put σ data = (σ.hash data, (c.put σ data).2) :=
  put_of_has (has_put_self σ c data)

theorem size_put (σ : ContentScheme) (c : Contents) (data : Bytes) :
    (c.put σ data).2.size = c.size + if c.has (σ.hash data) then 0 else 1 := by
  cases hthere : c.has (σ.hash data) with
  | true =>
    rw [put_of_has hthere]
    rfl
  | false =>
    rw [put_of_not_has hthere]
    exact Table.size_insert _ hthere

/-! ### What is fetched after an upload -/

/-- A content is fetched under its hash just if the blob there unpacks to it. -/
theorem fetch_hash_iff : c.fetch σ (σ.hash data) = .ok (some data) ↔
    ∃ packed, c.get? (Bytes.ofText (σ.hash data)) = some packed ∧ σ.unpack? packed = some data := by
  constructor
  · intro h
    unfold fetch at h
    split at h
    · exact absurd (Except.ok.inj h) nofun
    · rename_i packed hget
      split at h
      · contradiction
      · rename_i d hunpacked
        split at h
        · obtain rfl := Option.some.inj (Except.ok.inj h)
          exact ⟨packed, hget, hunpacked⟩
        · contradiction
  · rintro ⟨packed, hget, hunpacked⟩
    simp only [fetch, hget, hunpacked, if_true]

section Packed

variable (hpack : σ.unpack? (σ.pack data) = some data)

include hpack

/-- After an upload its content is fetched unless what was stored under the hash is something
    else. -/
theorem fetch_put_iff : (c.put σ data).2.fetch σ (σ.hash data) = .ok (some data) ↔
    ∀ packed, c.get? (Bytes.ofText (σ.hash data)) = some packed → σ.unpack? packed = some data := by
  rw [fetch_hash_iff]
  cases hthere : c.has (σ.hash data) with
  | true =>
    obtain ⟨packed, hget⟩ := Table.contains_iff.1 hthere
    rw [put_of_has hthere, hget]
    simp
  | false =>
    rw [put_of_not_has hthere, Table.get?_insert, if_pos rfl, Table.contains_eq_false_iff.1 hthere]
    simp [hpack]

/-- A content whose blob was taken out is fetched after it is put again, whatever the blob was. -/
theorem fetch_put_remove (c : Contents) :
    ((c.remove (σ.hash data)).put σ data).2.fetch σ (σ.hash data) = .ok (some data) := by
  rw [fetch_put_iff hpack]
  intro packed hget
  rw [remove, Table.get?_erase, if_pos rfl] at hget
  contradiction

/-- **An upload can be fetched unless its hash was taken by something else.**  Whatever blobs there
    are, an upload answers with the hash of the content and changes no other blob; the same upload
    again changes nothing, and there is one blob more just if there was none under the hash.  The
    content can be fetched afterwards exactly if there was no blob under the hash, or one that
    unpacks to the content; a blob that was there is left as it was, so that fetching says the same
    as before.  Once it is taken out the upload succeeds. -/
theorem put_exact (c : Contents) :
    let hash := σ.hash data
    let after := (c.put σ data).2
    (c.put σ data).1 = hash ∧
    (∀ k, k ≠ Bytes.ofText hash → after.get? k = c.get? k) ∧
    after.put σ data = (hash, after) ∧
    after.size = c.size + (if c.has hash then 0 else 1) ∧
    (after.fetch σ hash = .ok (some data) ↔
      ∀ packed, c.get? (Bytes.ofText hash) = some packed → σ.unpack? packed = some data) ∧
    (c.has hash = true → after = c) ∧
    ((c.remove hash).put σ data).2.fetch σ hash = .ok (some data) := by
  intro hash after
  refine ⟨fst_put σ c data, fun k => get?_put_of_ne, put_put σ c data, size_put σ c data,
    fetch_put_iff hpack, ?_, fetch_put_remove hpack c⟩
  intro hthere
  exact congrArg Prod.snd (put_of_has hthere)

end Packed

/-- A content is put beside a damaged blob of another one, and fetched. -/
theorem put_beside_damaged :
    let σ := ContentScheme.standard
    let c : Contents := Table.empty.insert (Bytes.ofText (σ.hash [])) [7]
    σ.unpack? (σ.pack [104, 105]) = some [104, 105] ∧
      (c.put σ [104, 105]).2.fetch σ (σ.hash [104, 105]) = .ok (some [104, 105]) ∧
      (c.put σ [104, 105]).2.get? (Bytes.ofText (σ.hash [])) = some [7] := by
  intro σ c
  have hpack : σ.unpack? (σ.pack [104, 105]) = some [104, 105] := Lz4.unpack?_pack (by decide)
  have hne : Bytes.ofText (σ.hash []) ≠ Bytes.ofText (σ.hash [104, 105]) := by decide +kernel
  obtain ⟨-, hothers, -, -, hfetch, -⟩ := put_exact hpack c
  have hkept := hothers _ hne
  refine ⟨hpack, hfetch.2 ?_, hkept.trans (by simp [c])⟩
  intro packed hget
  rw [Table.get?_insert, if_neg hne.symm] at hget
  contradiction

/-- Under the hash of a content stands a blob that does not unpack: the upload answers with the hash
    as if all were well, and the content cannot be fetched. -/
theorem upload_lost :
    let σ := ContentScheme.standard
    let c : Contents := Table.empty.insert (Bytes.ofText (σ.hash [104, 105])) [7]
    σ.unpack? (σ.pack [104, 105]) = some [104, 105] ∧ (c.put σ [104, 105]).1 = σ.hash [104, 105] ∧
      (c.put σ [104, 105]).2.fetch σ (σ.hash [104, 105]) = .error (.corrupted .undecodableBlob) := by
  intro σ c
  have hthere : c.has (σ.hash [104, 105]) = true := by simp [has, c, Table.contains]
  have hblob : c.get? (Bytes.ofText (σ.hash [104, 105])) = some [7] := by simp [c]
  have hdamaged : σ.unpack? [7] = none := rfl
  refine ⟨Lz4.unpack?_pack (by decide), fst_put σ c _, ?_⟩
  rw [put_of_has hthere]
  simp only [fetch, hblob, hdamaged]

end Contents

end SyncLedger
