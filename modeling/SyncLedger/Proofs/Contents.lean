/-
  SyncLedger/Proofs/Contents.lean
  ===============================
  **Contents are what their hashes say.**  Whatever blobs there are, a fetch gives bytes that hash
  to what was asked for, or says that there are none, or that they are corrupted
  (`Contents.fetch_cases`).  Where all blobs come from contents that were put (`Contents.PutFrom`), a
  fetch gives back the content of the hash; what is asked of the scheme is that unpacking undoes
  packing, as it does for literals (`Lz4.unpack?_pack`), and that these contents have hashes of their
  own.
-/
import SyncLedger.Content.Store
import SyncLedger.Proofs.Bytes
import SyncLedger.Proofs.Tables

namespace SyncLedger

/-! ### Packing -/

namespace Lz4

theorem readExtra?_writeExtra (n : Nat) (rest : Bytes) :
    readExtra? (writeExtra n ++ rest) = some (n, rest) := by
  induction n using writeExtra.induct with
  | case1 n hn =>
    have hne : UInt8.ofNat n ≠ 255 := by
      intro heq
      have := congrArg UInt8.toNat heq
      simp at this
      omega
    rw [writeExtra, if_pos hn]
    simp only [List.singleton_append, readExtra?, if_neg hne, UInt8.toNat_ofNat']
    rw [Nat.mod_eq_of_lt (by omega)]
  | case2 n hn ih =>
    rw [writeExtra, if_neg hn]
    simp only [List.cons_append, readExtra?, if_true, ih, Option.map_some]
    rw [Nat.add_sub_cancel' (by omega)]

/-- The length of the literals is read back, whether it fits in half a byte or not. -/
theorem packBlock_eq (data : Bytes) :
    ∃ token rest, packBlock data = token :: rest ∧
      readLength? (token.toNat / 16) rest = some (data.length, data) := by
  unfold packBlock
  split
  · rename_i hshort
    refine ⟨_, _, rfl, ?_⟩
    have hnibble : (UInt8.ofNat (16 * data.length)).toNat / 16 = data.length := by
      rw [UInt8.toNat_ofNat', Nat.mod_eq_of_lt (by omega), Nat.mul_div_cancel_left _ (by omega)]
    rw [hnibble, readLength?, if_neg (by omega)]
  · rename_i hlong
    refine ⟨_, _, rfl, ?_⟩
    have hnibble : (0xF0 : UInt8).toNat / 16 = 15 := rfl
    show readLength? ((0xF0 : UInt8).toNat / 16) (writeExtra (data.length - 15) ++ data) = _
    have hsum : 15 + (data.length - 15) = data.length := by omega
    rw [hnibble, readLength?, if_pos rfl, readExtra?_writeExtra, Option.map_some]
    dsimp only
    rw [hsum]

theorem unpackBlock?_literals {token : UInt8} {rest data : Bytes}
    (h : readLength? (token.toNat / 16) rest = some (data.length, data)) :
    unpackBlock? data.length #[] (token :: rest) = some data.toArray := by
  unfold unpackBlock?
  split
  · rename_i hnone
    rw [h] at hnone
    contradiction
  · rename_i literals found hsome
    rw [h] at hsome
    obtain ⟨rfl, rfl⟩ := Prod.ext_iff.1 (Option.some.inj hsome)
    have hroom : ¬ (data.length < data.length ∨
        data.length < (#[] : Array UInt8).size + data.length) := by simp
    dsimp only
    rw [if_neg hroom]
    split
    · simp
    · rename_i hdrop
      simp at hdrop
    · rename_i hdrop
      simp at hdrop

/-- Unpacking undoes packing, for contents whose size can be written down. -/
theorem unpack?_pack {data : Bytes} (h : data.length < 2 ^ 32) :
    unpack? (pack data) = some data := by
  obtain ⟨token, rest, hblock, hlength⟩ := packBlock_eq data
  have hlong : ¬ (pack data).length < 4 := by simp [pack]
  have htake : (pack data).take 4 = Bytes.littleEndian 4 data.length :=
    List.take_left' (Bytes.length_littleEndian 4 _)
  have hdrop : (pack data).drop 4 = token :: rest := by
    rw [← hblock]
    exact List.drop_left' (Bytes.length_littleEndian 4 _)
  have hsize : Bytes.ofLittleEndian (Bytes.littleEndian 4 data.length) = data.length := by
    rw [Bytes.ofLittleEndian_littleEndian]
    exact Nat.mod_eq_of_lt h
  unfold unpack?
  rw [if_neg hlong, htake, hdrop, hsize, unpackBlock?_literals hlength]
  rfl

end Lz4

/-- For these contents unpacking undoes packing, and no two of them have the same hash. -/
structure ContentScheme.SoundOn (σ : ContentScheme) (puts : Bytes → Prop) : Prop where
  unpack : ∀ d, puts d → σ.unpack? (σ.pack d) = some d
  hash : ∀ d d', puts d → puts d' → σ.hash d = σ.hash d' → d = d'

/-! ### Blobs -/

namespace Contents

variable {σ : ContentScheme} {c : Contents} {hash h : String} {data : Bytes}

/-- Whatever is stored, a fetch never gives bytes that belong to another hash. -/
theorem fetch_cases (σ : ContentScheme) (c : Contents) (hash : String) :
    (c.has hash = false ∧ c.fetch σ hash = .ok none) ∨
      (c.has hash = true ∧ ((∃ data, σ.hash data = hash ∧ c.fetch σ hash = .ok (some data)) ∨
        ∃ w, c.fetch σ hash = .error (.corrupted w))) := by
  unfold has fetch Table.contains
  cases c.get? (Bytes.ofText hash) with
  | none => exact Or.inl ⟨rfl, rfl⟩
  | some packed =>
    right
    refine ⟨rfl, ?_⟩
    dsimp only
    cases σ.unpack? packed with
    | none => exact Or.inr ⟨_, rfl⟩
    | some data =>
      dsimp only
      split
      · rename_i hsame
        exact Or.inl ⟨data, hsame, rfl⟩
      · exact Or.inr ⟨_, rfl⟩

theorem has_put_self (σ : ContentScheme) (c : Contents) (data : Bytes) :
    (c.put σ data).2.has (σ.hash data) = true := by
  unfold put has
  dsimp only
  split
  · assumption
  · rw [Table.contains, Table.get?_insert, if_pos rfl]
    rfl

theorem has_put (hthere : c.has hash = true) (data : Bytes) :
    (c.put σ data).2.has hash = true := by
  unfold put
  dsimp only
  split
  · exact hthere
  · rw [has, Table.contains, Table.get?_insert]
    split
    · rfl
    · exact hthere

theorem has_remove (hthere : c.has hash = true) (hne : h ≠ hash) :
    (c.remove h).has hash = true := by
  rw [has, remove, Table.contains, Table.get?_erase, if_neg]
  · exact hthere
  · intro heq
    exact hne (Bytes.ofText_injective heq).symm

/-- Every blob is one of the contents, packed, under the hash of it. -/
def PutFrom (σ : ContentScheme) (puts : Bytes → Prop) (c : Contents) : Prop :=
  ∀ key packed, c.get? key = some packed →
    ∃ data, puts data ∧ key = Bytes.ofText (σ.hash data) ∧ packed = σ.pack data

namespace PutFrom

variable {puts : Bytes → Prop}

theorem put (hc : PutFrom σ puts c) (hdata : puts data) : PutFrom σ puts (c.put σ data).2 := by
  unfold Contents.put
  dsimp only
  split
  · exact hc
  · intro key packed hget
    rw [Table.get?_insert] at hget
    split at hget
    · rename_i hkey
      exact ⟨data, hdata, hkey, (Option.some.inj hget).symm⟩
    · exact hc key packed hget

theorem remove (hc : PutFrom σ puts c) (hash : String) : PutFrom σ puts (c.remove hash) := by
  intro key packed hget
  exact hc key packed (Table.sub_erase c _ key packed hget)

theorem fetch (hc : PutFrom σ puts c) (hσ : σ.SoundOn puts) (hdata : puts data)
    (hthere : c.has (σ.hash data) = true) : c.fetch σ (σ.hash data) = .ok (some data) := by
  obtain ⟨packed, hget⟩ := Table.contains_iff.1 hthere
  obtain ⟨d, hd, hkey, rfl⟩ := hc _ packed hget
  obtain rfl : data = d := hσ.hash data d hdata hd (Bytes.ofText_injective hkey)
  simp only [Contents.fetch, hget, hσ.unpack data hdata, if_true]

end PutFrom

end Contents

end SyncLedger
