/-
  SyncLedger/Proofs/Secrets.lean
  ==============================
  **What is assumed of password schemes, and what the ones in use have.**  A scheme is `Bounded` if
  what it keeps of a password that can be stored can be stored too.  Argon2id is, at any costs that
  settings can name: its written hashes have a few hundred bytes (`Schemes.bounded_standard`).

  What one scheme keeps another `Checks`, among some passwords, if it accepts just the one that was
  kept.  That is the assumption that everybody makes of a password hash, and no scheme whose hashes
  have a bounded size fulfils it among all passwords there are.
-/
import SyncLedger.Registry.Password
import SyncLedger.Engine
import SyncLedger.Proofs.Sets

namespace SyncLedger

namespace PasswordScheme

/-- With a salt of sixteen bytes a password that can be stored is kept as a text that can. -/
def Bounded (s : PasswordScheme) : Prop :=
  ∀ salt password kept, salt.length = 16 → Held password → s.hash salt password = .ok kept →
    Held kept

/-- Among some passwords the second scheme accepts, of what the first keeps of one of them, that
    password and no other. -/
def Checks (s : PasswordScheme) (among : Set String) (s' : PasswordScheme) : Prop :=
  ∀ salt password kept, salt.length = 16 → password ∈ among → s.hash salt password = .ok kept →
    ∀ w ∈ among, s'.verify w kept = .ok (w == password)

theorem hash_empty (s : PasswordScheme) (salt : Bytes) :
    s.hash salt "" = .error (.password .empty) := rfl

end PasswordScheme

/-! ### Written hashes -/

namespace Base64

theorem length_encodeChars_le (b : Bytes) : (encodeChars b).length ≤ 4 * b.length := by
  fun_induction encodeChars b with
  | case1 => simp
  | case2 => simp
  | case3 => simp
  | case4 a b c rest n ih =>
    simp only [List.length_cons]
    omega

theorem utf8ByteSize_encode_le (b : Bytes) : (encode b).utf8ByteSize ≤ 16 * b.length := by
  have hsize := Text.utf8ByteSize_le (encodeChars b)
  have hlength := length_encodeChars_le b
  rw [encode]
  omega

end Base64

theorem utf8ByteSize_repr_le {n : Nat} (h : n < 2 ^ 32) : n.repr.utf8ByteSize ≤ 40 := by
  have hdigits : (Nat.toDigits 10 n).length ≤ 10 :=
    (Nat.length_toDigits_le_iff (by norm_num) (by norm_num)).2 (by omega)
  have hsize := Text.utf8ByteSize_le (Nat.toDigits 10 n)
  show (String.ofList (Nat.toDigits 10 n)).utf8ByteSize ≤ 40
  omega

namespace Password

theorem held_write {costs : Argon2.Costs} (hm : costs.memory < 2 ^ 32) (ht : costs.passes < 2 ^ 32)
    (hp : costs.lanes < 2 ^ 32) {salt : Bytes} (hsalt : salt.length = 16) (password : String) :
    Held (write costs salt password) := by
  have hsize := Base64.utf8ByteSize_encode_le salt
  have houtput := Base64.utf8ByteSize_encode_le (Argon2.derive { costs, salt } password)
  have hlength : (Argon2.derive { costs, salt } password).length = 32 := Argon2.length_hash _
  have hmemory := utf8ByteSize_repr_le hm
  have hpasses := utf8ByteSize_repr_le ht
  have hlanes := utf8ByteSize_repr_le hp
  have hfields : "$argon2id".utf8ByteSize = 9 ∧ "$v=".utf8ByteSize = 3 ∧
      (Nat.repr 19).utf8ByteSize = 2 ∧ "$".utf8ByteSize = 1 ∧ ",".utf8ByteSize = 1 ∧
      "m=".utf8ByteSize = 2 ∧ "t=".utf8ByteSize = 2 ∧ "p=".utf8ByteSize = 2 := by decide +kernel
  have hall : (write costs salt password).utf8ByteSize < 2 ^ 32 := by
    rw [write, PasswordHash.text]
    simp [String.utf8ByteSize_append, PasswordHash.parameterText]
    omega
  exact Nat.lt_trans hall (by norm_num)

end Password

/-- The scheme of any settings is the one at their costs. -/
theorem SecurityConfig.scheme_ok {c : SecurityConfig} {s : PasswordScheme}
    (h : c.scheme = .ok s) : s = Password.scheme c.costs := by
  unfold SecurityConfig.scheme at h
  split at h
  · exact (Except.ok.inj h).symm
  · contradiction

theorem Password.hash_scheme (costs : Argon2.Costs) (salt : Bytes) {password : String}
    (h : password ≠ "") :
    (Password.scheme costs).hash salt password = .ok (Password.write costs salt password) := by
  unfold PasswordScheme.hash
  rw [if_neg (by simpa using h)]
  rfl

/-- The scheme of any settings is bounded. -/
theorem SecurityConfig.bounded_scheme {c : SecurityConfig} {s : PasswordScheme}
    (h : c.scheme = .ok s) : s.Bounded := by
  obtain rfl := SecurityConfig.scheme_ok h
  intro salt password kept hsalt _ hkept
  unfold PasswordScheme.hash at hkept
  split at hkept
  · contradiction
  · obtain rfl := Except.ok.inj hkept
    exact Password.held_write c.argon2MemoryKib.toNat_lt c.argon2Iterations.toNat_lt
      c.argon2Parallelism.toNat_lt hsalt password

/-- Whatever the settings choose is bounded. -/
def Schemes.Bounded (k : Schemes) : Prop := ∀ c s, k.passwords c = .ok s → s.Bounded

theorem Schemes.bounded_standard : Schemes.standard.Bounded := fun _ _ h =>
  SecurityConfig.bounded_scheme h

/-! ### Generated passwords -/

namespace Secret

theorem utf8Len_eq_length {cs : List Char} (h : ∀ c ∈ cs, c.utf8Size = 1) :
    String.utf8Len cs = cs.length := by
  induction cs with
  | nil => rfl
  | cons c cs ih =>
    rw [String.utf8Len_cons, h c List.mem_cons_self, ih fun d hd => h d (List.mem_cons_of_mem c hd),
      List.length_cons]

theorem utf8ByteSize_generate_le (length : Nat) (random : Bytes) :
    (generate length random).utf8ByteSize ≤ length := by
  have hletters : alphabet.toList.all (fun c => c.utf8Size == 1) = true := by rfl
  rw [generate, String.utf8ByteSize_ofList, utf8Len_eq_length]
  · refine (List.length_filterMap_le _ _).trans ?_
    rw [List.length_take]
    exact Nat.min_le_left _ _
  · intro c hc
    obtain ⟨b, -, hb⟩ := List.mem_filterMap.1 hc
    exact eq_of_beq (List.all_eq_true.1 hletters c (List.mem_of_getElem? hb))

theorem held_generate (length : UInt64) (random : Bytes) :
    Held (generate length.toNat random) :=
  Nat.lt_of_le_of_lt (utf8ByteSize_generate_le _ random) length.toNat_lt

theorem generate_zero (random : Bytes) : generate 0 random = "" := rfl

end Secret

end SyncLedger
