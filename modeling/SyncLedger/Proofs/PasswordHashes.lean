/-
  SyncLedger/Proofs/PasswordHashes.lean
  =====================================
  **What is read as a written password hash is what would be written.**  Each reader takes exactly
  the texts that its writer gives, so a text is read as a hash just if the hash is well-formed and
  the text is its text (`parse?_eq_some_iff`).  Splitting a text at a character and joining the parts
  with it again are inverse to each other; all that remains is that no field has the character in
  it that stands between fields.

  A hash without a version must not have a single parameter called `v`, since this would be read as
  a version; apart from that each field is well-formed or not on its own.
-/
import SyncLedger.Registry.PasswordHash
import SyncLedger.Proofs.Base64
import SyncLedger.Proofs.Numerals

namespace SyncLedger

/-! ### Splitting and joining -/

namespace Text

variable {sep : Char} {cs rest part : List Char} {parts : List (List Char)}

theorem splitAt_of_notMem (h : sep ∉ cs) : splitAt sep cs = [cs] := by
  induction cs with
  | nil => rfl
  | cons c cs ih =>
    rw [List.mem_cons, not_or] at h
    rw [splitAt, if_neg (Ne.symm h.1), ih h.2]

theorem splitAt_append_cons (h : sep ∉ cs) :
    splitAt sep (cs ++ sep :: rest) = cs :: splitAt sep rest := by
  induction cs with
  | nil => rw [List.nil_append, splitAt, if_pos rfl]
  | cons c cs ih =>
    rw [List.mem_cons, not_or] at h
    rw [List.cons_append, splitAt, if_neg (Ne.symm h.1), ih h.2]

theorem notMem_of_mem_splitAt (h : part ∈ splitAt sep cs) : sep ∉ part := by
  induction cs generalizing part with
  | nil => simp_all [splitAt]
  | cons c cs ih =>
    rw [splitAt] at h
    split at h
    · rcases List.mem_cons.1 h with rfl | h
      · exact List.not_mem_nil
      · exact ih h
    · rename_i hc
      split at h
      · rename_i hnil
        exact absurd hnil (splitAt_ne_nil sep cs)
      · rename_i first others hsplit
        rw [hsplit] at ih
        rcases List.mem_cons.1 h with rfl | h
        · rw [List.mem_cons, not_or]
          exact ⟨Ne.symm hc, ih List.mem_cons_self⟩
        · exact ih (List.mem_cons_of_mem first h)

/-- Joined with a character, the first part is followed by the others, each after the character. -/
theorem intercalate_cons (part : List Char) (parts : List (List Char)) :
    [sep].intercalate (part :: parts) = part ++ parts.flatMap (sep :: ·) := by
  induction parts generalizing part with
  | nil => simp
  | cons next parts ih => simp [ih]

theorem mem_intercalate {c : Char} (h : c ∈ [sep].intercalate parts) :
    c = sep ∨ ∃ part ∈ parts, c ∈ part := by
  cases parts with
  | nil => contradiction
  | cons part parts =>
    rw [intercalate_cons, List.mem_append, List.mem_flatMap] at h
    rcases h with hc | ⟨next, hnext, hc⟩
    · exact Or.inr ⟨part, List.mem_cons_self, hc⟩
    · rcases List.mem_cons.1 hc with rfl | hc
      · exact Or.inl rfl
      · exact Or.inr ⟨next, List.mem_cons_of_mem part hnext, hc⟩

theorem intercalate_splitAt (sep : Char) (cs : List Char) :
    [sep].intercalate (splitAt sep cs) = cs := by
  induction cs with
  | nil => rfl
  | cons c cs ih =>
    rw [splitAt]
    split
    · rename_i hc
      rw [List.intercalate_cons_of_ne_nil (splitAt_ne_nil sep cs), ih, hc]
      rfl
    · split
      · rename_i hnil
        exact absurd hnil (splitAt_ne_nil sep cs)
      · rename_i first others hsplit
        rw [intercalate_cons, List.cons_append, ← intercalate_cons, ← hsplit, ih]

theorem splitAt_intercalate (hne : parts ≠ []) (h : ∀ p ∈ parts, sep ∉ p) :
    splitAt sep ([sep].intercalate parts) = parts := by
  induction parts with
  | nil => contradiction
  | cons part parts ih =>
    obtain ⟨hpart, hparts⟩ := List.forall_mem_cons.1 h
    by_cases hlast : parts = []
    · subst hlast
      rw [List.intercalate_singleton, splitAt_of_notMem hpart]
    · rw [List.intercalate_cons_of_ne_nil hlast, List.append_assoc, List.singleton_append,
        splitAt_append_cons hpart, ih hlast hparts]

theorem splitAt_eq_iff : splitAt sep cs = parts ↔
    parts ≠ [] ∧ (∀ p ∈ parts, sep ∉ p) ∧ cs = [sep].intercalate parts := by
  constructor
  · rintro rfl
    exact ⟨splitAt_ne_nil sep cs, fun p hp => notMem_of_mem_splitAt hp,
      (intercalate_splitAt sep cs).symm⟩
  · rintro ⟨hne, hparts, rfl⟩
    exact splitAt_intercalate hne hparts

end Text

namespace PasswordHash

variable {cs : List Char} {n : Nat} {p : String × String} {ps : List (String × String)} {s : String}
  {b : Bytes} {h : PasswordHash} {fs rest : List (List Char)} {version : Option Nat}

/-! ### Single fields -/

/-- A base 64 text is made of characters that values can have. -/
theorem isValueChar_of_mem_encodeChars {c : Char} (h : c ∈ Base64.encodeChars b) :
    isValueChar c = true := by
  have hall : ∀ i : Fin 64, isValueChar (Base64.digit i) = true := by decide +kernel
  obtain ⟨n, hn, rfl⟩ := Base64.mem_encodeChars h
  exact hall ⟨n, hn⟩

theorem decimal?_eq_some_iff :
    decimal? cs = some n ↔ n < UInt32.size ∧ cs = Nat.toDigits 10 n := by
  constructor
  · intro h
    simp only [decimal?] at h
    split at h
    · contradiction
    · rename_i hdigits
      split at h
      · contradiction
      · rename_i hfront
        split at h
        · rename_i hsize
          obtain rfl := Option.some.inj h
          have hnumeral : Text.IsNumeral cs := by
            simp only [not_or, Bool.not_eq_true'] at hdigits
            refine ⟨hdigits.1, by simpa using hdigits.2, fun hzero => ?_⟩
            have hpos := List.length_pos_of_ne_nil hdigits.1
            have hmost : ¬ 1 < cs.length := fun hlong => hfront ⟨hzero, hlong⟩
            omega
          exact ⟨hsize, hnumeral.toDigits_ofDigits.symm⟩
        · contradiction
  · rintro ⟨hsize, rfl⟩
    have hnumeral := Text.isNumeral_toDigits n
    have hdigits : ¬ (Nat.toDigits 10 n = [] ∨ (!(Nat.toDigits 10 n).all Char.isDigit) = true) := by
      rw [not_or, Bool.not_eq_true', Bool.not_eq_false]
      exact ⟨hnumeral.nonempty, List.all_eq_true.2 hnumeral.digits⟩
    have hfront : ¬ ((Nat.toDigits 10 n).head? = some '0' ∧ 1 < (Nat.toDigits 10 n).length) :=
      fun hzero => absurd (hnumeral.front hzero.1) (Nat.ne_of_gt hzero.2)
    rw [decimal?, if_neg hdigits, if_neg hfront]
    simp only [Text.ofDigits_toDigits]
    rw [if_pos hsize]

theorem isName_iff : isName cs = true ↔
    cs ≠ [] ∧ cs.length ≤ 32 ∧ ∀ c ∈ cs, isNameChar c = true := by
  simp [isName, and_assoc]

theorem isValue_iff : isValue cs = true ↔ cs.length ≤ 64 ∧ ∀ c ∈ cs, isValueChar c = true := by
  simp [isValue]

/-- A character that names cannot have. -/
theorem notMem_of_isName (h : isName cs = true) {c : Char} (hc : isNameChar c = false) :
    c ∉ cs := fun hmem => absurd ((isName_iff.1 h).2.2 c hmem) (by simp [hc])

/-- A character that values cannot have. -/
theorem notMem_of_isValue (h : isValue cs = true) {c : Char} (hc : isValueChar c = false) :
    c ∉ cs := fun hmem => absurd ((isValue_iff.1 h).2 c hmem) (by simp [hc])

/-- A parameter that can be written. -/
def IsParameter (p : String × String) : Prop :=
  isName p.1.toList = true ∧ isValue p.2.toList = true

theorem toList_parameterText (p : String × String) :
    (parameterText p).toList = p.1.toList ++ '=' :: p.2.toList := by
  simp [parameterText]

theorem parameter?_eq_some_iff :
    parameter? cs = some p ↔ IsParameter p ∧ cs = (parameterText p).toList := by
  rw [toList_parameterText]
  constructor
  · intro h
    unfold parameter? at h
    split at h
    · rename_i name value hsplit
      split at h
      · rename_i hboth
        obtain rfl := Option.some.inj h
        obtain ⟨-, -, rfl⟩ := Text.splitAt_eq_iff.1 hsplit
        simpa [IsParameter] using hboth
      · contradiction
    · contradiction
  · rintro ⟨⟨hname, hvalue⟩, rfl⟩
    rw [parameter?, Text.splitAt_append_cons (notMem_of_isName hname (by decide)),
      Text.splitAt_of_notMem (notMem_of_isValue hvalue (by decide))]
    simp [hname, hvalue]

theorem mapM_parameter?_eq_some_iff : fs.mapM parameter? = some ps ↔
    (∀ p ∈ ps, IsParameter p) ∧ fs = ps.map fun p => (parameterText p).toList := by
  induction fs generalizing ps with
  | nil => cases ps <;> simp
  | cons field fs ih =>
    simp only [List.mapM_cons, Option.bind_eq_bind, Option.bind_eq_some_iff, Option.pure_def,
      Option.some.injEq, parameter?_eq_some_iff, ih]
    constructor
    · rintro ⟨p, ⟨hp, rfl⟩, ps, ⟨hps, rfl⟩, rfl⟩
      exact ⟨List.forall_mem_cons.2 ⟨hp, hps⟩, rfl⟩
    · rintro ⟨hall, hfs⟩
      cases ps with
      | nil => contradiction
      | cons p ps =>
        obtain ⟨rfl, rfl⟩ := List.cons.inj hfs
        obtain ⟨hp, hps⟩ := List.forall_mem_cons.1 hall
        exact ⟨p, ⟨hp, rfl⟩, ps, ⟨hps, rfl⟩, rfl⟩

/-- The field of some parameters. -/
def parametersText (ps : List (String × String)) : String := ",".intercalate (ps.map parameterText)

theorem toList_parametersText (ps : List (String × String)) : (parametersText ps).toList
    = [','].intercalate (ps.map fun p => (parameterText p).toList) := by
  have hsep : ",".toList = [','] := rfl
  rw [parametersText, String.toList_intercalate, hsep, List.map_map]
  rfl

theorem IsParameter.notMem (h : IsParameter p) {c : Char} (hc : isNameChar c = false)
    (hc' : isValueChar c = false) (hne : c ≠ '=') : c ∉ (parameterText p).toList := by
  rw [toList_parameterText, List.mem_append, List.mem_cons]
  rintro (hmem | rfl | hmem)
  · exact notMem_of_isName h.1 hc hmem
  · exact hne rfl
  · exact notMem_of_isValue h.2 hc' hmem

theorem parameters?_eq_some_iff : parameters? cs = some ps ↔
    ps ≠ [] ∧ (∀ p ∈ ps, IsParameter p) ∧ (parametersText ps).utf8ByteSize ≤ 127 ∧
      cs = (parametersText ps).toList := by
  unfold parameters?
  constructor
  · intro h
    split at h
    · contradiction
    · rename_i hsize
      obtain ⟨hall, hsplit⟩ := mapM_parameter?_eq_some_iff.1 h
      obtain ⟨hne, -, hcs⟩ := Text.splitAt_eq_iff.1 hsplit
      rw [← toList_parametersText] at hcs
      refine ⟨by simpa using hne, hall, ?_, hcs⟩
      rw [hcs, String.ofList_toList] at hsize
      omega
  · rintro ⟨hne, hall, hsize, rfl⟩
    rw [String.ofList_toList, if_neg (by omega), mapM_parameter?_eq_some_iff]
    refine ⟨hall, ?_⟩
    rw [toList_parametersText]
    refine Text.splitAt_intercalate (by simpa using hne) fun field hfield => ?_
    obtain ⟨p, hp, rfl⟩ := List.mem_map.1 hfield
    exact (hall p hp).notMem (by decide) (by decide) (by decide)

theorem salt?_eq_some_iff : salt? cs = some s ↔
    4 ≤ s.length ∧ isValue s.toList = true ∧ cs = s.toList := by
  unfold salt?
  constructor
  · intro h
    split at h
    · rename_i hboth
      obtain rfl := Option.some.inj h
      simpa using hboth
    · contradiction
  · rintro ⟨hlength, hvalue, rfl⟩
    have hboth : (4 ≤ s.toList.length && isValue s.toList) = true := by
      rw [hvalue, String.length_toList, Bool.and_true, decide_eq_true hlength]
    rw [if_pos hboth, String.ofList_toList]

theorem output?_eq_some_iff : output? cs = some b ↔
    10 ≤ b.length ∧ b.length ≤ 64 ∧ cs = Base64.encodeChars b := by
  rw [output?, Option.filter_eq_some_iff, Base64.decodeChars?_eq_some_iff]
  simp [and_assoc, and_comm]

/-! ### Fields in a row -/

/-- The fields of the salt and of the hash itself. -/
def ending (h : PasswordHash) : List (List Char) :=
  (h.salt.map String.toList).toList ++ (h.output.map Base64.encodeChars).toList

/-- The field of the parameters, if there are any, and what follows it. -/
def afterVersion (h : PasswordHash) : List (List Char) :=
  (if h.parameters = [] then [] else [(parametersText h.parameters).toList]) ++ h.ending

/-- The fields after the algorithm, as they are written. -/
def fields (h : PasswordHash) : List (List Char) :=
  (h.version.map fun n => 'v' :: '=' :: Nat.toDigits 10 n).toList ++ h.afterVersion

theorem toList_text (h : PasswordHash) :
    h.text.toList = ['$'].intercalate ([] :: h.algorithm.toList :: h.fields) := by
  rcases h with ⟨algorithm, version, parameters, salt, output⟩
  have hdollar : "$".toList = ['$'] := rfl
  have hversion : "$v=".toList = ['$', 'v', '='] := rfl
  rw [Text.intercalate_cons]
  cases version <;> cases salt <;> cases output <;> cases parameters <;>
    simp [text, fields, afterVersion, ending, parametersText, Base64.encode, hdollar, hversion]

/-- A hash that can be written such that it is read back. -/
structure WellFormed (h : PasswordHash) : Prop where
  algorithm : isName h.algorithm.toList = true
  version : ∀ n ∈ h.version, n < UInt32.size
  parameters : ∀ p ∈ h.parameters, IsParameter p
  size : (parametersText h.parameters).utf8ByteSize ≤ 127
  /-- What looks like a version is the version. -/
  unambiguous : h.version = none → ∀ value, h.parameters ≠ [("v", value)]
  salt : ∀ s ∈ h.salt, 4 ≤ s.length ∧ isValue s.toList = true
  output : ∀ b ∈ h.output, 10 ≤ b.length ∧ b.length ≤ 64
  salted : h.output.isSome = true → h.salt.isSome = true

theorem versionOf?_eq_some_iff {digits : List Char} : versionOf? cs = some digits ↔
    ',' ∉ digits ∧ cs = 'v' :: '=' :: digits := by
  unfold versionOf?
  split
  · rename_i rest
    split
    · rename_i hcomma
      simp only [reduceCtorEq, List.cons.injEq, true_and, false_iff, not_and]
      rintro hdigits rfl
      exact hdigits (List.contains_iff_mem.1 hcomma)
    · rename_i hcomma
      simp only [Option.some.injEq, List.cons.injEq, true_and]
      constructor
      · rintro rfl
        exact ⟨fun hmem => hcomma (List.contains_iff_mem.2 hmem), rfl⟩
      · exact fun hdigits => hdigits.2
  · rename_i hother
    simp only [reduceCtorEq, false_iff, not_and]
    rintro - rfl
    exact hother _ rfl

/-- A field that is a version, or none is. -/
theorem takeVersion?_eq_some_iff : takeVersion? fs = some (version, rest) ↔
    (∃ n < UInt32.size, version = some n ∧ fs = ('v' :: '=' :: Nat.toDigits 10 n) :: rest) ∨
      version = none ∧ fs = rest ∧ ∀ field ∈ rest.head?, versionOf? field = none := by
  unfold takeVersion?
  cases fs with
  | nil =>
    simp only [Option.some.injEq, Prod.mk.injEq]
    constructor
    · rintro ⟨rfl, rfl⟩
      exact Or.inr ⟨rfl, rfl, nofun⟩
    · rintro (⟨n, -, -, hfs⟩ | ⟨rfl, rfl, -⟩)
      · contradiction
      · exact ⟨rfl, rfl⟩
  | cons field fs =>
    cases hfield : versionOf? field with
    | some digits =>
      obtain ⟨-, rfl⟩ := versionOf?_eq_some_iff.1 hfield
      simp only [hfield, Option.map_eq_some_iff, Prod.mk.injEq, decimal?_eq_some_iff]
      constructor
      · rintro ⟨n, ⟨hn, rfl⟩, rfl, rfl⟩
        exact Or.inl ⟨n, hn, rfl, rfl⟩
      · rintro (⟨n, hn, rfl, hfs⟩ | ⟨-, rfl, hnone⟩)
        · obtain ⟨hdigits, rfl⟩ := List.cons.inj hfs
          exact ⟨n, ⟨hn, (List.cons.inj (List.cons.inj hdigits).2).2⟩, rfl, rfl⟩
        · rw [hnone _ rfl] at hfield
          contradiction
    | none =>
      simp only [hfield, Option.some.injEq, Prod.mk.injEq]
      constructor
      · rintro ⟨rfl, rfl⟩
        exact Or.inr ⟨rfl, rfl, by simpa using hfield⟩
      · rintro (⟨n, -, -, hfs⟩ | ⟨rfl, rfl, -⟩)
        · obtain ⟨rfl, -⟩ := List.cons.inj hfs
          rw [versionOf?_eq_some_iff.2 ⟨Text.notMem_toDigits (by decide), rfl⟩] at hfield
          contradiction
        · exact ⟨rfl, rfl⟩

theorem equals_mem_parametersText (hne : ps ≠ []) : '=' ∈ (parametersText ps).toList := by
  cases ps with
  | nil => contradiction
  | cons p ps =>
    rw [toList_parametersText, List.map_cons, Text.intercalate_cons, toList_parameterText]
    simp

/-- A field of parameters, or there are none. -/
theorem takeParameters?_eq_some_iff : takeParameters? fs = some (ps, rest) ↔
    (ps ≠ [] ∧ (∀ p ∈ ps, IsParameter p) ∧ (parametersText ps).utf8ByteSize ≤ 127 ∧
        fs = (parametersText ps).toList :: rest) ∨
      ps = [] ∧ fs = rest ∧ ∀ field ∈ rest.head?, '=' ∉ field := by
  unfold takeParameters?
  cases fs with
  | nil =>
    simp only [Option.some.injEq, Prod.mk.injEq]
    constructor
    · rintro ⟨rfl, rfl⟩
      exact Or.inr ⟨rfl, rfl, nofun⟩
    · rintro (⟨-, -, -, hfs⟩ | ⟨rfl, rfl, -⟩)
      · contradiction
      · exact ⟨rfl, rfl⟩
  | cons field fs =>
    by_cases hfield : '=' ∈ field
    · simp only [List.contains_iff_mem, if_pos hfield, Option.map_eq_some_iff, Prod.mk.injEq,
        parameters?_eq_some_iff]
      constructor
      · rintro ⟨ps, ⟨hne, hall, hsize, rfl⟩, rfl, rfl⟩
        exact Or.inl ⟨hne, hall, hsize, rfl⟩
      · rintro (⟨hne, hall, hsize, hfs⟩ | ⟨-, rfl, hnone⟩)
        · obtain ⟨rfl, rfl⟩ := List.cons.inj hfs
          exact ⟨ps, ⟨hne, hall, hsize, rfl⟩, rfl, rfl⟩
        · exact absurd hfield (hnone field rfl)
    · simp only [List.contains_iff_mem, if_neg hfield, Option.some.injEq, Prod.mk.injEq]
      constructor
      · rintro ⟨rfl, rfl⟩
        exact Or.inr ⟨rfl, rfl, by simpa using hfield⟩
      · rintro (⟨hne, -, -, hfs⟩ | ⟨rfl, rfl, -⟩)
        · obtain ⟨rfl, -⟩ := List.cons.inj hfs
          exact absurd (equals_mem_parametersText hne) hfield
        · exact ⟨rfl, rfl⟩

/-! ### The whole text -/

/-- Reading a text is reading its fields one after another. -/
theorem parse?_eq_some_iff_fields : parse? s = some h ↔
    ∃ fs mid, Text.splitAt '$' s.toList = [] :: h.algorithm.toList :: fs ∧
      isName h.algorithm.toList = true ∧ takeVersion? fs = some (h.version, mid) ∧
      takeParameters? mid = some (h.parameters, h.ending) ∧
      (∀ s ∈ h.salt, 4 ≤ s.length ∧ isValue s.toList = true) ∧
      (∀ b ∈ h.output, 10 ≤ b.length ∧ b.length ≤ 64) ∧
      (h.output.isSome = true → h.salt.isSome = true) := by
  unfold parse?
  constructor
  · intro hparse
    split at hparse
    · rename_i algorithm fs hsplit
      simp only [Option.bind_eq_bind, Option.bind_eq_some_iff, Option.guard_eq_some'] at hparse
      obtain ⟨-, hname, ⟨version, mid⟩, hversion, ⟨ps, rest⟩, hps, hend⟩ := hparse
      have hname' : algorithm = (String.ofList algorithm).toList := String.toList_ofList.symm
      rw [hname'] at hname hsplit
      rcases rest with _ | ⟨salt, _ | ⟨output, _ | ⟨more, rest⟩⟩⟩
      · obtain rfl := Option.some.inj hend
        exact ⟨fs, mid, hsplit, hname, hversion, hps, nofun, nofun, nofun⟩
      · simp only [Option.bind_eq_some_iff, salt?_eq_some_iff] at hend
        obtain ⟨salt, ⟨hlength, hvalue, rfl⟩, hend⟩ := hend
        obtain rfl := Option.some.inj hend
        refine ⟨fs, mid, hsplit, hname, hversion, hps, ?_, nofun, nofun⟩
        rintro _ ⟨⟩
        exact ⟨hlength, hvalue⟩
      · simp only [Option.bind_eq_some_iff, salt?_eq_some_iff, output?_eq_some_iff] at hend
        obtain ⟨salt, ⟨hlength, hvalue, rfl⟩, output, ⟨hshort, hlong, rfl⟩, hend⟩ := hend
        obtain rfl := Option.some.inj hend
        refine ⟨fs, mid, hsplit, hname, hversion, hps, ?_, ?_, fun _ => rfl⟩
        · rintro _ ⟨⟩
          exact ⟨hlength, hvalue⟩
        · rintro _ ⟨⟩
          exact ⟨hshort, hlong⟩
      · contradiction
    · contradiction
  · rintro ⟨fs, mid, hsplit, hname, hversion, hps, hsalt, houtput, hsalted⟩
    rcases h with ⟨algorithm, version, parameters, salt, output⟩
    rw [hsplit]
    cases salt with
    | none =>
      cases output with
      | none => simp [hname, hversion, hps, ending, guard]
      | some b => exact absurd (hsalted rfl) (by simp)
    | some salt =>
      have hsalt? : salt? salt.toList = some salt :=
        salt?_eq_some_iff.2 ⟨(hsalt salt rfl).1, (hsalt salt rfl).2, rfl⟩
      cases output with
      | none => simp [hname, hversion, hps, ending, guard, hsalt?]
      | some b =>
        have houtput? : output? (Base64.encodeChars b) = some b :=
          output?_eq_some_iff.2 ⟨(houtput b rfl).1, (houtput b rfl).2, rfl⟩
        simp [hname, hversion, hps, ending, guard, hsalt?, houtput?]

theorem WellFormed.isValueChar_of_mem_ending (hh : h.WellFormed) {field : List Char}
    (hfield : field ∈ h.ending) {c : Char} (hc : c ∈ field) : isValueChar c = true := by
  rw [ending, List.mem_append, Option.mem_toList, Option.mem_toList, Option.map_eq_some_iff,
    Option.map_eq_some_iff] at hfield
  rcases hfield with ⟨salt, hsalt, rfl⟩ | ⟨output, -, rfl⟩
  · exact (isValue_iff.1 (hh.salt salt hsalt).2).2 c hc
  · exact isValueChar_of_mem_encodeChars hc

/-- Parameters look like a version if they are a single one of that name. -/
theorem versionOf?_parametersText (hall : ∀ p ∈ ps, IsParameter p) (hne : ps ≠ []) :
    versionOf? (parametersText ps).toList = none ↔ ∀ value, ps ≠ [("v", value)] := by
  rw [Option.eq_none_iff_forall_ne_some]
  constructor
  · rintro hnone value rfl
    have hvalue := (hall _ List.mem_cons_self).2
    refine hnone value.toList (versionOf?_eq_some_iff.2 ⟨notMem_of_isValue hvalue (by decide), ?_⟩)
    simp [toList_parametersText, toList_parameterText]
  · intro hother digits hdigits
    obtain ⟨hcomma, htext⟩ := versionOf?_eq_some_iff.1 hdigits
    cases ps with
    | nil => contradiction
    | cons p ps =>
      obtain ⟨name, value⟩ := p
      obtain ⟨⟨hname, -⟩, -⟩ := List.forall_mem_cons.1 hall
      rw [toList_parametersText, List.map_cons, Text.intercalate_cons,
        toList_parameterText] at htext
      have hequals : '=' ∉ name.toList := notMem_of_isName hname (by decide)
      -- the name ends where the first equals sign stands
      obtain ⟨c, cs, hcs⟩ := List.exists_cons_of_ne_nil (isName_iff.1 hname).1
      simp only [hcs, List.cons_append, List.cons.injEq] at htext hequals
      obtain ⟨rfl, htext⟩ := htext
      cases cs with
      | cons d cs =>
        obtain ⟨rfl, -⟩ := List.cons.inj htext
        exact hequals (by simp)
      | nil =>
        obtain ⟨-, rfl⟩ := List.cons.inj htext
        cases ps with
        | nil => exact hother value (by rw [← String.ofList_toList (s := name), hcs])
        | cons q ps => simp at hcomma

theorem WellFormed.notMem_fields (hh : h.WellFormed) : ∀ field ∈ h.fields, '$' ∉ field := by
  intro field hfield
  rw [fields, afterVersion, List.mem_append, List.mem_append, Option.mem_toList,
    Option.map_eq_some_iff] at hfield
  rcases hfield with ⟨n, -, rfl⟩ | hfield | hfield
  · have hdigits : '$' ∉ Nat.toDigits 10 n := Text.notMem_toDigits (by decide)
    simp [hdigits]
  · split at hfield
    · contradiction
    · obtain rfl := List.mem_singleton.1 hfield
      rw [toList_parametersText]
      intro hmem
      rcases Text.mem_intercalate hmem with hdollar | ⟨text, htext, hmem⟩
      · exact absurd hdollar (by decide)
      · obtain ⟨p, hp, rfl⟩ := List.mem_map.1 htext
        exact (hh.parameters p hp).notMem (by decide) (by decide) (by decide) hmem
  · exact fun hmem => absurd (hh.isValueChar_of_mem_ending hfield hmem) (by decide)

theorem WellFormed.equals_notMem_ending (hh : h.WellFormed) : ∀ field ∈ h.ending, '=' ∉ field :=
  fun _ hfield hmem => absurd (hh.isValueChar_of_mem_ending hfield hmem) (by decide)

theorem WellFormed.takeParameters?_afterVersion (hh : h.WellFormed) :
    takeParameters? h.afterVersion = some (h.parameters, h.ending) := by
  rw [takeParameters?_eq_some_iff, afterVersion]
  by_cases hnone : h.parameters = []
  · refine Or.inr ⟨hnone, by rw [if_pos hnone, List.nil_append], fun field hfield => ?_⟩
    exact hh.equals_notMem_ending field (List.mem_of_mem_head? hfield)
  · exact Or.inl ⟨hnone, hh.parameters, hh.size, by rw [if_neg hnone, List.singleton_append]⟩

theorem WellFormed.takeVersion?_fields (hh : h.WellFormed) :
    takeVersion? h.fields = some (h.version, h.afterVersion) := by
  rw [takeVersion?_eq_some_iff, fields]
  cases hversion : h.version with
  | some n => exact Or.inl ⟨n, hh.version n hversion, rfl, rfl⟩
  | none =>
    refine Or.inr ⟨rfl, rfl, fun field hfield => ?_⟩
    by_cases hnone : h.parameters = []
    · rw [afterVersion, if_pos hnone, List.nil_append] at hfield
      have hequals := hh.equals_notMem_ending field (List.mem_of_mem_head? hfield)
      rw [Option.eq_none_iff_forall_ne_some]
      intro digits hdigits
      obtain ⟨-, rfl⟩ := versionOf?_eq_some_iff.1 hdigits
      exact hequals (by simp)
    · rw [afterVersion, if_neg hnone] at hfield
      obtain rfl := Option.some.inj hfield
      exact (versionOf?_parametersText hh.parameters hnone).2 (hh.unambiguous hversion)

/-- **A text is read as a hash just if the hash is well-formed and this is its text.** -/
theorem parse?_eq_some_iff : parse? s = some h ↔ h.WellFormed ∧ s = h.text := by
  rw [parse?_eq_some_iff_fields]
  constructor
  · rintro ⟨fs, mid, hsplit, hname, hversion, hps, hsalt, houtput, hsalted⟩
    have hmid : mid = h.afterVersion ∧ (∀ p ∈ h.parameters, IsParameter p) ∧
        (parametersText h.parameters).utf8ByteSize ≤ 127 := by
      rw [afterVersion]
      rcases takeParameters?_eq_some_iff.1 hps with ⟨hne, hall, hsize, rfl⟩ | ⟨hnone, rfl, -⟩
      · exact ⟨by rw [if_neg hne, List.singleton_append], hall, hsize⟩
      · rw [hnone]
        exact ⟨rfl, nofun, by decide⟩
    obtain ⟨rfl, hall, hsize⟩ := hmid
    have hfields : fs = h.fields ∧ (∀ n ∈ h.version, n < UInt32.size) ∧
        (h.version = none → ∀ value, h.parameters ≠ [("v", value)]) := by
      rw [fields]
      rcases takeVersion?_eq_some_iff.1 hversion with ⟨n, hn, hsome, rfl⟩ | ⟨hnone, rfl, hother⟩
      · rw [hsome]
        refine ⟨rfl, ?_, nofun⟩
        rintro _ ⟨⟩
        exact hn
      · rw [hnone]
        refine ⟨rfl, nofun, fun _ value hvalue => ?_⟩
        have hne : h.parameters ≠ [] := by simp [hvalue]
        rw [afterVersion, if_neg hne] at hother
        exact (versionOf?_parametersText hall hne).1 (hother _ rfl) value hvalue
    obtain ⟨rfl, hversion, hunambiguous⟩ := hfields
    refine ⟨⟨hname, hversion, hall, hsize, hunambiguous, hsalt, houtput, hsalted⟩, ?_⟩
    rw [← String.toList_inj, toList_text, ← hsplit, Text.intercalate_splitAt]
  · rintro ⟨hh, rfl⟩
    refine ⟨h.fields, h.afterVersion, ?_, hh.algorithm, hh.takeVersion?_fields,
      hh.takeParameters?_afterVersion, hh.salt, hh.output, hh.salted⟩
    rw [toList_text]
    refine Text.splitAt_intercalate (List.cons_ne_nil _ _) ?_
    simp only [List.forall_mem_cons]
    exact ⟨List.not_mem_nil, notMem_of_isName hh.algorithm (by decide), hh.notMem_fields⟩

theorem parse?_eq_none_iff :
    parse? s = none ↔ ∀ h : PasswordHash, h.WellFormed → s ≠ h.text := by
  rw [Option.eq_none_iff_forall_ne_some]
  exact forall_congr' fun h => by rw [ne_eq, parse?_eq_some_iff, not_and]

end PasswordHash

end SyncLedger
