/-
  SyncLedger/Proofs/HashingCosts.lean
  ===================================
  **Passwords outlive a change of hashing costs.**  A written hash carries everything it was made
  with, and reading gives just that back (`Terms.ofHash?_made`), so checking a password against it
  is hashing that password on the same terms again.  The settings in force have no part in it.
-/
import SyncLedger.Proofs.PasswordHashes
import SyncLedger.Proofs.Secrets

namespace SyncLedger

/-! ### Costs in decimal digits -/

theorem length_toDigits_le_ten {n : Nat} (h : n < 2 ^ 32) : (Nat.toDigits 10 n).length ≤ 10 :=
  (Nat.length_toDigits_le_iff (by norm_num) (by norm_num)).2 (by omega)

theorem utf8ByteSize_repr_le_ten {n : Nat} (h : n < 2 ^ 32) : n.repr.utf8ByteSize ≤ 10 := by
  have hone : ∀ c ∈ Nat.toDigits 10 n, c.utf8Size = 1 := by
    intro c hc
    have hdigit := (Text.isNumeral_toDigits n).digits c hc
    simp only [Char.isDigit, Bool.and_eq_true, decide_eq_true_eq] at hdigit
    exact Char.utf8Size_eq_one_iff.2 (UInt32.le_trans hdigit.2 (by decide))
  rw [Nat.repr_eq_ofList_toDigits, String.utf8ByteSize_ofList, Secret.utf8Len_eq_length hone]
  exact length_toDigits_le_ten h

theorem PasswordHash.isValue_repr {n : Nat} (h : n < 2 ^ 32) : isValue n.repr.toList = true := by
  have hlength := length_toDigits_le_ten h
  rw [isValue_iff, Nat.toList_repr]
  refine ⟨by omega, fun c hc => ?_⟩
  have hdigit := (Text.isNumeral_toDigits n).digits c hc
  simp [isValueChar, hdigit]

/-! ### The hash that is written -/

theorem SecurityConfig.areUsable_of_scheme {c : SecurityConfig} {s : PasswordScheme}
    (h : c.scheme = .ok s) : c.costs.areUsable = true := by
  unfold SecurityConfig.scheme at h
  split at h
  · assumption
  · contradiction

/-- Costs that settings can name. -/
structure Argon2.Costs.Named (c : Argon2.Costs) : Prop where
  memory : c.memory < 2 ^ 32
  passes : c.passes < 2 ^ 32
  lanes : c.lanes < 2 ^ 32

theorem SecurityConfig.named_costs (c : SecurityConfig) : c.costs.Named :=
  ⟨c.argon2MemoryKib.toNat_lt, c.argon2Iterations.toNat_lt, c.argon2Parallelism.toNat_lt⟩

namespace Password

variable {costs : Argon2.Costs} {salt : Bytes} {password w kept : String} {h : PasswordHash}

/-- What is written of a password. -/
def made (costs : Argon2.Costs) (salt : Bytes) (password : String) : PasswordHash where
  algorithm := "argon2id"
  version := some 19
  parameters :=
    [("m", toString costs.memory), ("t", toString costs.passes), ("p", toString costs.lanes)]
  salt := some (Base64.encode salt)
  output := some (Argon2.derive { costs, salt } password)

theorem write_eq (costs : Argon2.Costs) (salt : Bytes) (password : String) :
    write costs salt password = (made costs salt password).text := rfl

theorem length_derive (t : Argon2.Terms) (password : String) :
    (Argon2.derive t password).length = t.length := Argon2.length_hash _

theorem made_wellFormed (hcosts : costs.Named) (hsalt : salt.length = 16) (password : String) :
    (made costs salt password).WellFormed where
  algorithm := show PasswordHash.isName "argon2id".toList = true by decide
  version := by
    rintro _ ⟨⟩
    decide
  parameters := by
    simp only [made, List.forall_mem_cons]
    have hname : PasswordHash.isName "m".toList = true ∧ PasswordHash.isName "t".toList = true ∧
        PasswordHash.isName "p".toList = true := by decide
    exact ⟨⟨hname.1, PasswordHash.isValue_repr hcosts.memory⟩,
      ⟨hname.2.1, PasswordHash.isValue_repr hcosts.passes⟩,
      ⟨hname.2.2, PasswordHash.isValue_repr hcosts.lanes⟩, nofun⟩
  size := by
    have hmemory := utf8ByteSize_repr_le_ten hcosts.memory
    have hpasses := utf8ByteSize_repr_le_ten hcosts.passes
    have hlanes := utf8ByteSize_repr_le_ten hcosts.lanes
    have hsigns : ",".utf8ByteSize = 1 ∧ "m=".utf8ByteSize = 2 ∧ "t=".utf8ByteSize = 2 ∧
      "p=".utf8ByteSize = 2 := by decide +kernel
    simp [made, PasswordHash.parametersText, PasswordHash.parameterText,
      String.utf8ByteSize_append]
    omega
  unambiguous := nofun
  salt := by
    rintro _ ⟨⟩
    have hlength : (Base64.encodeChars salt).length = 22 := by
      rw [Base64.length_encodeChars, hsalt]
    rw [Base64.encode, String.length_ofList, String.toList_ofList, PasswordHash.isValue_iff]
    exact ⟨by omega, by omega, fun c hc => PasswordHash.isValueChar_of_mem_encodeChars hc⟩
  output := by
    rintro _ ⟨⟩
    rw [length_derive]
    exact ⟨by norm_num, by norm_num⟩
  salted _ := rfl

/-! ### Checking -/

theorem decimal?_toDigits {n : Nat} (h : n < 2 ^ 32) :
    PasswordHash.decimal? (Nat.toDigits 10 n) = some n :=
  PasswordHash.decimal?_eq_some_iff.2 ⟨h, rfl⟩

/-- The terms that a written hash names are those that it was made on. -/
theorem ofHash?_made (hcosts : costs.Named) (husable : costs.areUsable = true)
    (hsalt : salt.length = 16) (password : String) :
    Argon2.Terms.ofHash? (made costs salt password) (Base64.encode salt) 32
      = some { costs, salt } := by
  have hdecode : Base64.decode? (Base64.encode salt) = some salt := by
    rw [Base64.decode?, Base64.encode, String.toList_ofList, Base64.decodeChars?_encodeChars]
  simp [Argon2.Terms.ofHash?, made, Argon2.Variant.ofName?, Argon2.Version.ofNumber?, hdecode,
    Argon2.Terms.withParameter?, decimal?_toDigits hcosts.memory, decimal?_toDigits hcosts.passes,
    decimal?_toDigits hcosts.lanes, husable, hsalt, guard]

theorem parse?_write (hcosts : costs.Named) (hsalt : salt.length = 16) (password : String) :
    PasswordHash.parse? (write costs salt password) = some (made costs salt password) :=
  PasswordHash.parse?_eq_some_iff.2 ⟨made_wellFormed hcosts hsalt password, write_eq _ _ _⟩

/-- A password is checked against a hash by hashing it on the terms that this was made on. -/
theorem verify_write (hcosts : costs.Named) (husable : costs.areUsable = true)
    (hsalt : salt.length = 16) (w password : String) :
    verify w (write costs salt password) = .ok
      (Argon2.derive { costs, salt } w == Argon2.derive { costs, salt } password) := by
  have hparse := parse?_write hcosts hsalt password
  have hlength : (Argon2.derive { costs, salt } password).length = 32 := length_derive _ _
  have hterms := ofHash?_made hcosts husable hsalt password
  simp only [verify, hparse]
  simp only [made] at hterms ⊢
  rw [hlength, hterms]

/-- The costs of a scheme have no part in checking. -/
theorem verify_scheme (costs : Argon2.Costs) : (scheme costs).verify = verify := rfl

/-- A kept text is damaged just if it is the text of no hash. -/
theorem verify_eq_corrupted_iff : verify w kept = .error (.corrupted .passwordHash) ↔
    ∀ h : PasswordHash, h.WellFormed → kept ≠ h.text := by
  rw [← PasswordHash.parse?_eq_none_iff, verify]
  cases PasswordHash.parse? kept with
  | none => simp
  | some h =>
    simp only [reduceCtorEq, iff_false]
    split
    · split
      · nofun
      · nofun
    · nofun

end Password

/-- The hashes made at some costs are checked at any others, among passwords that have different
    digests at the first. -/
theorem SecurityConfig.checks_scheme {c c' : SecurityConfig} {s s' : PasswordScheme}
    (h : c.scheme = .ok s) (h' : c'.scheme = .ok s') {among : Set String}
    (hdigests : ∀ salt : Bytes, salt.length = 16 →
      among.InjOn (Argon2.derive { costs := c.costs, salt })) : s.Checks among s' := by
  have husable := SecurityConfig.areUsable_of_scheme h
  obtain rfl := SecurityConfig.scheme_ok h
  obtain rfl := SecurityConfig.scheme_ok h'
  intro salt password kept hsalt hpassword hkept w hw
  have hne : password ≠ "" := by
    intro hempty
    rw [hempty, PasswordScheme.hash_empty] at hkept
    exact nomatch hkept
  rw [Password.hash_scheme _ _ hne, Except.ok.injEq] at hkept
  have hverify := Password.verify_write c.named_costs husable hsalt w password
  rw [← hkept, Password.verify_scheme, hverify]
  congr 1
  by_cases hsame : w = password
  · rw [hsame, beq_self_eq_true, beq_self_eq_true]
  · rw [beq_false_of_ne hsame]
    exact beq_false_of_ne fun hdigest => hsame (hdigests salt hsalt hw hpassword hdigest)

/-- **Passwords outlive a change of hashing costs.**  Let two configurations be accepted.  What is
    hashed under the first is read back as a hash that names the first one's costs, and under the
    second just those passwords are accepted for it that have the same digest on these terms, the
    password itself among them.  On any text whatever both give the same verdict, and a text that
    is no written hash is reported as damage. -/
theorem passwords_outlive_costs {c c' : SecurityConfig} {s s' : PasswordScheme}
    (h : c.scheme = .ok s) (h' : c'.scheme = .ok s') :
    (∀ salt password, salt.length = 16 → password ≠ "" → ∃ kept,
      s.hash salt password = .ok kept ∧
      PasswordHash.parse? kept = some (Password.made c.costs salt password) ∧
      s'.verify password kept = .ok true ∧
      ∀ w, s'.verify w kept = .ok (Argon2.derive { costs := c.costs, salt } w
        == Argon2.derive { costs := c.costs, salt } password)) ∧
    (∀ w kept, s.verify w kept = s'.verify w kept) ∧
    ∀ w kept, s'.verify w kept = .error (.corrupted .passwordHash) ↔
      ∀ hash : PasswordHash, hash.WellFormed → kept ≠ hash.text := by
  have husable : c.costs.areUsable = true := SecurityConfig.areUsable_of_scheme h
  obtain rfl := SecurityConfig.scheme_ok h
  obtain rfl := SecurityConfig.scheme_ok h'
  simp only [Password.verify_scheme, implies_true, true_and]
  refine ⟨fun salt password hsalt hne => ?_, fun w kept => ?_⟩
  · have hverify := Password.verify_write c.named_costs husable hsalt
    refine ⟨_, Password.hash_scheme c.costs salt hne,
      Password.parse?_write c.named_costs hsalt password, ?_, fun w => hverify w password⟩
    rw [hverify, beq_self_eq_true]
  · exact Password.verify_eq_corrupted_iff

/-- A password in several scripts, kept at the default costs, is accepted at others. -/
theorem accepted_at_other_costs :
    let c : SecurityConfig := {}
    let c' : SecurityConfig :=
      { argon2MemoryKib := 64, argon2Iterations := 3, argon2Parallelism := 2 }
    c.costs ≠ c'.costs ∧ ∃ s s' kept, c.scheme = .ok s ∧ c'.scheme = .ok s' ∧
      s.hash (List.replicate 16 0x80) "pä$s 密🔑" = .ok kept ∧
      s'.verify "pä$s 密🔑" kept = .ok true ∧
      s'.verify "pä$s 密🔑" "not-a-phc-string" = .error (.corrupted .passwordHash) := by
  intro c c'
  have h : c.scheme = .ok (Password.scheme c.costs) := if_pos (by decide)
  have h' : c'.scheme = .ok (Password.scheme c'.costs) := if_pos (by decide)
  obtain ⟨hkeeps, -, hdamaged⟩ := passwords_outlive_costs h h'
  obtain ⟨kept, hkept, -, haccepted, -⟩ :=
    hkeeps (List.replicate 16 0x80) "pä$s 密🔑" rfl (by decide)
  have hnone : PasswordHash.parse? "not-a-phc-string" = none := by decide
  exact ⟨by decide, _, _, kept, h, h', hkept, haccepted,
    (hdamaged _ _).2 (PasswordHash.parse?_eq_none_iff.1 hnone)⟩

end SyncLedger
