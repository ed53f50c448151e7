/-
  SyncLedger/Proofs/Substitution.lean
  ===================================
  **What becomes of the references in a text.**  A simultaneous pass reads a text once, from left to
  right, puts values in the place of references and copies everything else, so that nothing in a
  value is read (`expand`).  Replacing one reference everywhere is a pass for a single variable
  (`replaceAll_reference`); substituting makes such a pass for each reference of the text, one after
  another, over what the passes before it have left (`substitute_eq_passes`).

  A later pass finds more than the text had if a value has a reference in it, or if one comes about
  where a value meets what stands beside it.  Where neither can happen (`Apart`) two passes are one
  (`expand_expand`), and substituting is the simultaneous pass.
-/
import SyncLedger.Config.Environment
import Mathlib.Data.List.Infix
import Mathlib.Data.List.TakeWhile
import Mathlib.Tactic

namespace SyncLedger.Environment

variable {ρ σ : List Char → Option (List Char)} {n m x w cs after : List Char}

/-! ### References -/

/-- What a variable that is referred to can be called. -/
def IsName (n : List Char) : Prop :=
  ∃ c rest, n = c :: rest ∧ isNameStart c = true ∧ ∀ d ∈ rest, isNamePart d = true

theorem IsName.ne_dollar (h : IsName n) : ∀ d ∈ n, d ≠ '$' := by
  obtain ⟨c, rest, rfl, hc, hrest⟩ := h
  have hpart : ∀ d, isNamePart d = true → d ≠ '$' := by
    rintro d hd rfl
    exact absurd hd (by decide)
  rintro d hd
  rcases List.mem_cons.1 hd with rfl | hd
  · exact hpart d (by rw [isNamePart, hc, Bool.true_or])
  · exact hpart d (hrest d hd)

/-- After its first character a reference has no dollar sign. -/
theorem IsName.plain (h : IsName n) : ∀ d ∈ '{' :: n ++ ['}'], d ≠ '$' := by
  simp only [List.cons_append, List.mem_cons, List.mem_append, List.not_mem_nil, or_false]
  rintro d (rfl | hd | rfl)
  · decide
  · exact h.ne_dollar d hd
  · decide

theorem reference_ne_nil (n : List Char) : reference n ≠ [] := List.cons_ne_nil _ _

theorem length_reference (n : List Char) : (reference n).length = n.length + 3 := by
  simp [reference]

theorem referenceAt?_eq_some_iff : referenceAt? cs = some n ↔ IsName n ∧ reference n <+: cs := by
  constructor
  · intro h
    unfold referenceAt? at h
    split at h
    · rename_i c rest
      dsimp only at h
      split at h
      · rename_i hstart
        obtain rfl := Option.some.inj h
        rw [Bool.and_eq_true, beq_iff_eq] at hstart
        obtain ⟨hc, hend⟩ := hstart
        refine ⟨⟨c, _, rfl, hc, fun d hd => List.mem_takeWhile_imp hd⟩, ?_⟩
        -- after the longest run of name characters stands the closing brace
        obtain ⟨after, hafter⟩ := List.head?_eq_some_iff.1 (List.head?_drop.trans hend)
        have hrest : rest.takeWhile isNamePart ++ '}' :: after = rest := by
          rw [← hafter]
          exact List.prefix_iff_eq_append.1 (List.takeWhile_prefix _)
        refine ⟨after, ?_⟩
        conv_rhs => rw [← hrest]
        simp [reference]
      · contradiction
    · contradiction
  · rintro ⟨⟨c, rest, rfl, hc, hrest⟩, after, rfl⟩
    have htail : (rest ++ '}' :: after).takeWhile isNamePart = rest := by
      rw [List.takeWhile_append_of_pos hrest, List.takeWhile_cons_of_neg (by decide),
        List.append_nil]
    show referenceAt? ('$' :: '{' :: c :: ((rest ++ ['}']) ++ after)) = _
    rw [List.append_assoc, List.singleton_append]
    simp [referenceAt?, htail, hc]

/-- Two references that a text begins with are the same. -/
theorem reference_unique (hn : IsName n) (hm : IsName m) (h : reference n <+: cs)
    (h' : reference m <+: cs) : n = m := by
  have hat := referenceAt?_eq_some_iff.2 ⟨hn, h⟩
  rw [referenceAt?_eq_some_iff.2 ⟨hm, h'⟩] at hat
  exact (Option.some.inj hat).symm

theorem mem_references_iff : n ∈ references cs ↔ IsName n ∧ reference n <:+: cs := by
  induction cs with
  | nil => simp [references, reference_ne_nil]
  | cons c rest ih =>
    rw [references, List.infix_cons_iff, and_or_left, ← ih, ← referenceAt?_eq_some_iff]
    cases referenceAt? (c :: rest) with
    | none => simp
    | some m => simp [eq_comm]

/-! ### The simultaneous pass -/

/-- The value of a variable. -/
def value? (env : Environment) (n : List Char) : Option (List Char) :=
  (env.get? (String.ofList n)).map (·.toList)

/-- The variable with a value that the reference at the beginning of a text names, and its value. -/
def hit? (ρ : List Char → Option (List Char)) (cs : List Char) : Option (List Char × List Char) :=
  (referenceAt? cs).bind fun n => (ρ n).map (n, ·)

/-- Reads a text once from left to right, puts the value in the place of every reference to a
    variable that has one, and copies everything else. -/
def expand (ρ : List Char → Option (List Char)) : List Char → List Char
  | [] => []
  | c :: rest => match hit? ρ (c :: rest) with
    | some (n, x) => x ++ expand ρ (rest.drop (n.length + 2))
    | none => c :: expand ρ rest
termination_by cs => cs.length
decreasing_by all_goals simp only [List.length_drop, List.length_cons]; omega

@[simp] theorem expand_nil : expand ρ [] = [] := by
  rw [expand]

theorem hit?_eq_some_iff :
    hit? ρ cs = some (n, x) ↔ (IsName n ∧ reference n <+: cs) ∧ ρ n = some x := by
  simp only [hit?, Option.bind_eq_some_iff, Option.map_eq_some_iff, referenceAt?_eq_some_iff,
    Prod.mk.injEq]
  constructor
  · rintro ⟨m, hm, y, hy, rfl, rfl⟩
    exact ⟨hm, hy⟩
  · rintro ⟨hn, hx⟩
    exact ⟨n, hn, x, hx, rfl, rfl⟩

theorem expand_cons_of_hit {c : Char} {rest : List Char} (h : hit? ρ (c :: rest) = some (n, x)) :
    expand ρ (c :: rest) = x ++ expand ρ (rest.drop (n.length + 2)) := by
  rw [expand, h]

theorem expand_cons_of_miss {c : Char} {rest : List Char} (h : hit? ρ (c :: rest) = none) :
    expand ρ (c :: rest) = c :: expand ρ rest := by
  rw [expand, h]

theorem hit?_eq_none_iff :
    hit? ρ cs = none ↔ ∀ n, IsName n → reference n <+: cs → ρ n = none := by
  constructor
  · intro h n hn hbegins
    cases hx : ρ n with
    | none => rfl
    | some x => exact absurd (hit?_eq_some_iff.2 ⟨⟨hn, hbegins⟩, hx⟩) (by simp [h])
  · intro h
    rw [Option.eq_none_iff_forall_ne_some]
    rintro ⟨n, x⟩ hhit
    obtain ⟨⟨hn, hbegins⟩, hx⟩ := hit?_eq_some_iff.1 hhit
    rw [h n hn hbegins] at hx
    contradiction

theorem expand_reference (hn : IsName n) (hx : ρ n = some x) :
    expand ρ (reference n ++ after) = x ++ expand ρ after := by
  have hhit : hit? ρ (reference n ++ after) = some (n, x) :=
    hit?_eq_some_iff.2 ⟨⟨hn, List.prefix_append _ _⟩, hx⟩
  have hcut : ('{' :: n ++ ['}'] ++ after).drop (n.length + 2) = after :=
    List.drop_left' (by simp)
  exact (expand_cons_of_hit hhit).trans (congrArg (fun cs => x ++ expand ρ cs) hcut)

/-- Without a dollar sign there is nothing to replace. -/
theorem expand_plain (h : ∀ d ∈ cs, d ≠ '$') : expand ρ (cs ++ after) = cs ++ expand ρ after := by
  induction cs with
  | nil => rfl
  | cons d cs ih =>
    have hmiss : hit? ρ (d :: (cs ++ after)) = none := by
      rw [hit?_eq_none_iff]
      rintro n - hbegins
      exact absurd (List.cons_prefix_cons.1 hbegins).1.symm (h d List.mem_cons_self)
    rw [List.cons_append, expand_cons_of_miss hmiss, ih fun e he => h e (List.mem_cons_of_mem d he)]
    rfl

/-- A reference to a variable without a value is copied. -/
theorem expand_reference_of_none (hn : IsName n) (hnone : ρ n = none) :
    expand ρ (reference n ++ after) = reference n ++ expand ρ after := by
  have hmiss : hit? ρ (reference n ++ after) = none := by
    rw [hit?_eq_none_iff]
    intro m hm hbegins
    rw [reference_unique hm hn hbegins (List.prefix_append _ _), hnone]
  exact (expand_cons_of_miss hmiss).trans (congrArg _ (expand_plain hn.plain))

theorem expand_congr (h : ∀ n ∈ references cs, ρ n = σ n) : expand ρ cs = expand σ cs := by
  fun_induction expand ρ cs with
  | case1 => rw [expand_nil]
  | case2 c rest n x hhit ih =>
    obtain ⟨⟨hn, hbegins⟩, hx⟩ := hit?_eq_some_iff.1 hhit
    have hsame := h n (mem_references_iff.2 ⟨hn, hbegins.isInfix⟩)
    have hhit' : hit? σ (c :: rest) = some (n, x) :=
      hit?_eq_some_iff.2 ⟨⟨hn, hbegins⟩, hsame ▸ hx⟩
    rw [expand_cons_of_hit hhit', ih]
    intro m hm
    obtain ⟨hm, hinfix⟩ := mem_references_iff.1 hm
    refine h m (mem_references_iff.2 ⟨hm, hinfix.trans ?_⟩)
    exact ((List.drop_suffix _ _).trans (List.suffix_cons _ _)).isInfix
  | case3 c rest hmiss ih =>
    have hmiss' : hit? σ (c :: rest) = none := by
      rw [hit?_eq_none_iff] at hmiss ⊢
      intro n hn hbegins
      rw [← h n (mem_references_iff.2 ⟨hn, hbegins.isInfix⟩), hmiss n hn hbegins]
    rw [expand_cons_of_miss hmiss', ih]
    intro m hm
    obtain ⟨hm, hinfix⟩ := mem_references_iff.1 hm
    exact h m (mem_references_iff.2 ⟨hm, hinfix.trans (List.suffix_cons _ _).isInfix⟩)

theorem expand_none (h : ∀ n, ρ n = none) : expand ρ cs = cs := by
  induction cs with
  | nil => rw [expand_nil]
  | cons c rest ih =>
    rw [expand_cons_of_miss (hit?_eq_none_iff.2 fun n _ _ => h n), ih]

/-! ### Passes for some of the variables -/

/-- The values of some of the variables. -/
def only (ns : List (List Char)) (ρ : List Char → Option (List Char)) (n : List Char) :
    Option (List Char) :=
  if n ∈ ns then ρ n else none

theorem only_eq_some_iff {ns : List (List Char)} :
    only ns ρ n = some x ↔ n ∈ ns ∧ ρ n = some x := by
  unfold only
  split <;> simp_all

/-- A variable without a value makes no difference to a pass. -/
theorem only_cons_of_none {ns : List (List Char)} (h : ρ n = none) :
    only (n :: ns) ρ = only ns ρ := by
  funext m
  by_cases hm : m = n
  · rw [only, only, hm, h, ite_self, ite_self]
  · simp [only, hm]

theorem expand_only_of_none (h : ρ n = none) : expand (only [n] ρ) cs = cs := by
  rw [only_cons_of_none h]
  exact expand_none fun _ => rfl

/-- Replacing a reference everywhere is a pass for its variable. -/
theorem replaceAll_reference (hn : IsName n) (hx : ρ n = some x) :
    replaceAll (reference n) x cs = expand (only [n] ρ) cs := by
  fun_induction replaceAll (reference n) x cs with
  | case1 => rw [expand_nil]
  | case2 c rest h ih =>
    have hbegins : reference n <+: c :: rest := List.isPrefixOf_iff_prefix.1 h.2
    have hhit : hit? (only [n] ρ) (c :: rest) = some (n, x) :=
      hit?_eq_some_iff.2 ⟨⟨hn, hbegins⟩, only_eq_some_iff.2 ⟨List.mem_singleton_self n, hx⟩⟩
    rw [expand_cons_of_hit hhit, ih, length_reference]
    rfl
  | case3 c rest h ih =>
    have hmiss : hit? (only [n] ρ) (c :: rest) = none := by
      rw [hit?_eq_none_iff]
      intro m _ hbegins
      refine if_neg fun hm => h ⟨reference_ne_nil n, List.isPrefixOf_iff_prefix.2 ?_⟩
      exact List.mem_singleton.1 hm ▸ hbegins
    rw [expand_cons_of_miss hmiss, ih]

/-- Substituting makes a pass for the variable of each reference in the text as it came. -/
theorem substitute_eq_passes (env : Environment) (text : String) :
    env.substitute text = String.ofList ((references text.toList).foldl
      (fun cs n => expand (only [n] env.value?) cs) text.toList) := by
  unfold substitute
  refine congrArg String.ofList (List.foldl_ext _ _ _ fun cs n hn => ?_)
  obtain ⟨hname, -⟩ := mem_references_iff.1 hn
  cases hget : env.get? (String.ofList n) with
  | some value =>
    have hx : env.value? n = some value.toList := by rw [value?, hget, Option.map_some]
    exact replaceAll_reference hname hx
  | none =>
    have hx : env.value? n = none := by rw [value?, hget, Option.map_none]
    exact (expand_only_of_none hx).symm

/-! ### Two passes in one -/

/-- What a text begins with after a pass it had before, or the beginning comes up to a reference
    that was replaced. -/
theorem prefix_of_prefix_expand (h : w <+: expand ρ cs) :
    w <+: cs ∨ ∃ u m after, u <+: w ∧ u ≠ w ∧ IsName m ∧ (ρ m).isSome = true ∧
      cs = u ++ (reference m ++ after) := by
  fun_induction expand ρ cs generalizing w with
  | case1 => exact Or.inl h
  | case2 c rest m y hhit _ =>
    obtain ⟨⟨hm, after, hcut⟩, hy⟩ := hit?_eq_some_iff.1 hhit
    by_cases hw : w = []
    · exact Or.inl (hw ▸ List.nil_prefix)
    · exact Or.inr ⟨[], m, after, List.nil_prefix, Ne.symm hw, hm, by simp [hy], hcut.symm⟩
  | case3 c rest _ ih =>
    cases w with
    | nil => exact Or.inl List.nil_prefix
    | cons d w =>
      obtain ⟨rfl, hrest⟩ := List.cons_prefix_cons.1 h
      rcases ih hrest with hw | ⟨u, m, after, hu, hne, hm, hy, rfl⟩
      · exact Or.inl (List.cons_prefix_cons.2 ⟨rfl, hw⟩)
      · refine Or.inr ⟨d :: u, m, after, List.cons_prefix_cons.2 ⟨rfl, hu⟩, ?_, hm, hy, rfl⟩
        exact fun heq => hne (List.cons.inj heq).2

/-- A value without the reference in it, and without a beginning of it at its end. -/
def Inert (n x : List Char) : Prop :=
  ¬ reference n <:+: x ∧ ∀ u, u ≠ [] → u <:+ x → ¬ u <+: reference n

/-- A pass for the variable copies the value, whatever stands after it. -/
theorem Inert.expand_append (h : Inert n x) :
    expand (only [n] ρ) (x ++ after) = x ++ expand (only [n] ρ) after := by
  obtain ⟨hin, hend⟩ := h
  induction x with
  | nil => rfl
  | cons c x ih =>
    have hmiss : hit? (only [n] ρ) (c :: (x ++ after)) = none := by
      rw [hit?_eq_none_iff]
      intro m _ hbegins
      refine if_neg fun hm => ?_
      rw [List.mem_singleton.1 hm] at hbegins
      have hvalue : c :: x <+: c :: (x ++ after) := List.prefix_append (c :: x) after
      rcases List.prefix_or_prefix_of_prefix hbegins hvalue with h | h
      · exact hin h.isInfix
      · exact hend _ (List.cons_ne_nil c x) List.suffix_rfl h
    rw [List.cons_append, expand_cons_of_miss hmiss, ih, List.cons_append]
    · exact fun h => hin (h.trans (List.suffix_cons c x).isInfix)
    · exact fun u hu hsuffix => hend u hu (hsuffix.trans (List.suffix_cons c x))

/-- No reference that is replaced comes right after the beginning of a reference to the variable. -/
def Undisturbed (ρ : List Char → Option (List Char)) (n cs : List Char) : Prop :=
  ∀ u m after, u ≠ [] → u <+: reference n → u ≠ reference n → IsName m → (ρ m).isSome = true →
    ¬ u ++ (reference m ++ after) <:+ cs

theorem Undisturbed.suffix {ds : List Char} (h : Undisturbed ρ n cs) (hsuffix : ds <:+ cs) :
    Undisturbed ρ n ds :=
  fun u m after hu hbegins hne hm hy hend => h u m after hu hbegins hne hm hy (hend.trans hsuffix)

section TwoPasses

variable {ns : List (List Char)} {c : Char} {rest : List Char}

theorem only_cons_eq_some_iff :
    only (n :: ns) ρ m = some x ↔ only [n] ρ m = some x ∨ only ns ρ m = some x := by
  simp only [only_eq_some_iff, List.mem_cons, List.not_mem_nil, or_false, or_and_right]

/-- A reference that the first pass has copied is replaced by the second. -/
theorem expand_expand_reference (hn : IsName n)
    (hafter : expand (only [n] ρ) (expand (only ns ρ) after) = expand (only (n :: ns) ρ) after) :
    expand (only [n] ρ) (reference n ++ expand (only ns ρ) after)
      = expand (only (n :: ns) ρ) (reference n ++ after) := by
  cases hx : ρ n with
  | some x =>
    have hn' : only [n] ρ n = some x := only_eq_some_iff.2 ⟨List.mem_singleton_self n, hx⟩
    rw [expand_reference hn hn', expand_reference hn (only_cons_eq_some_iff.2 (Or.inl hn')),
      hafter]
  | none =>
    have hnone (ms : List (List Char)) : only ms ρ n = none := by
      rw [only, hx, ite_self]
    rw [expand_reference_of_none hn (hnone _), expand_reference_of_none hn (hnone _), hafter]

variable (hmiss : hit? (only ns ρ) (c :: rest) = none) (hstart : ¬ reference n <+: c :: rest)
include hmiss hstart

theorem hit?_only_cons_eq_none : hit? (only (n :: ns) ρ) (c :: rest) = none := by
  rw [hit?_eq_none_iff] at hmiss ⊢
  intro m hm hbegins
  rw [Option.eq_none_iff_forall_ne_some]
  intro y hy
  rcases only_cons_eq_some_iff.1 hy with hy | hy
  · rw [List.mem_singleton.1 (only_eq_some_iff.1 hy).1] at hbegins
    exact hstart hbegins
  · rw [hmiss m hm hbegins] at hy
    contradiction

/-- Where the text has no reference to the variable, none comes about by the first pass. -/
theorem hit?_cons_expand_eq_none (hbefore : Undisturbed (only ns ρ) n (c :: rest)) :
    hit? (only [n] ρ) (c :: expand (only ns ρ) rest) = none := by
  rw [hit?_eq_none_iff]
  intro m _ hbegins
  refine if_neg fun hm => ?_
  rw [List.mem_singleton.1 hm, ← expand_cons_of_miss hmiss] at hbegins
  rcases prefix_of_prefix_expand hbegins with h | ⟨u, k, after, hu, hne, hk, hy, hcut⟩
  · exact hstart h
  · by_cases hnil : u = []
    · subst hnil
      rw [hit?_eq_none_iff.1 hmiss k hk ⟨after, hcut.symm⟩] at hy
      contradiction
    · exact hbefore u k after hnil hu hne hk hy (hcut ▸ List.suffix_rfl)

end TwoPasses

/-- A pass for one more variable makes the pass for all of them, if all values are inert and the
    references to the variable are undisturbed. -/
theorem expand_expand {ns : List (List Char)} (hn : IsName n)
    (hvalues : ∀ m y, only ns ρ m = some y → Inert n y) (hbefore : Undisturbed (only ns ρ) n cs) :
    expand (only [n] ρ) (expand (only ns ρ) cs) = expand (only (n :: ns) ρ) cs := by
  fun_induction expand (only ns ρ) cs with
  | case1 => simp
  | case2 c rest m y hhit ih =>
    obtain ⟨hm, hy⟩ := hit?_eq_some_iff.1 hhit
    have hhit' : hit? (only (n :: ns) ρ) (c :: rest) = some (m, y) :=
      hit?_eq_some_iff.2 ⟨hm, only_cons_eq_some_iff.2 (Or.inr hy)⟩
    have hsuffix : rest.drop (m.length + 2) <:+ c :: rest :=
      (List.drop_suffix _ _).trans (List.suffix_cons c rest)
    have hafter := hbefore.suffix hsuffix
    rw [(hvalues m y hy).expand_append, expand_cons_of_hit hhit', ih hafter]
  | case3 c rest hmiss ih =>
    have hrest := ih (hbefore.suffix (List.suffix_cons c rest))
    by_cases hstart : reference n <+: c :: rest
    · obtain ⟨after, hcut⟩ := hstart
      obtain ⟨rfl, rfl⟩ : '$' = c ∧ '{' :: n ++ ['}'] ++ after = rest := List.cons.inj hcut
      rw [expand_plain hn.plain, expand_plain hn.plain, expand_plain hn.plain,
        List.append_cancel_left_eq] at hrest
      rw [expand_plain hn.plain]
      exact expand_expand_reference hn hrest
    · rw [expand_cons_of_miss (hit?_cons_expand_eq_none hmiss hstart hbefore),
        expand_cons_of_miss (hit?_only_cons_eq_none hmiss hstart), hrest]

/-! ### Texts and values that keep apart -/

/-- A text ends in the middle of a reference to one of the names. -/
def EndsInside (names : List (List Char)) (cs : List Char) : Prop :=
  ∃ u ∈ cs.tails, u ≠ [] ∧ ∃ n ∈ names, u <+: reference n ∧ u ≠ reference n

instance (names : List (List Char)) (cs : List Char) : Decidable (EndsInside names cs) :=
  inferInstanceAs (Decidable (∃ u ∈ cs.tails, u ≠ [] ∧
    ∃ n ∈ names, u <+: reference n ∧ u ≠ reference n))

/-- The variables with a value that a text refers to. -/
def used (ρ : List Char → Option (List Char)) (cs : List Char) : List (List Char) :=
  (references cs).filter fun n => (ρ n).isSome

/-- The values of a text's variables have none of its references in them and do not end in the
    middle of one, and no reference that is replaced comes right after the beginning of another. -/
structure Apart (ρ : List Char → Option (List Char)) (cs : List Char) : Prop where
  inside : ∀ m ∈ used ρ cs, ∀ x ∈ ρ m, ∀ n ∈ used ρ cs, ¬ reference n <:+: x
  atEnd : ∀ m ∈ used ρ cs, ∀ x ∈ ρ m, ¬ EndsInside (used ρ cs) x
  before : ∀ i < cs.length, (∃ m ∈ used ρ cs, reference m <+: cs.drop i) →
    ¬ EndsInside (used ρ cs) (cs.take i)

instance (ρ : List Char → Option (List Char)) (cs : List Char) : Decidable (Apart ρ cs) :=
  decidable_of_iff
    ((∀ m ∈ used ρ cs, ∀ x ∈ ρ m, ∀ n ∈ used ρ cs, ¬ reference n <:+: x) ∧
      (∀ m ∈ used ρ cs, ∀ x ∈ ρ m, ¬ EndsInside (used ρ cs) x) ∧
      ∀ i < cs.length, (∃ m ∈ used ρ cs, reference m <+: cs.drop i) →
        ¬ EndsInside (used ρ cs) (cs.take i))
    ⟨fun h => ⟨h.1, h.2.1, h.2.2⟩, fun h => ⟨h.inside, h.atEnd, h.before⟩⟩

namespace Apart

variable {ns : List (List Char)}

theorem mem_used (hns : ∀ m ∈ ns, m ∈ references cs) {m y : List Char}
    (hy : only ns ρ m = some y) : m ∈ used ρ cs ∧ y ∈ ρ m := by
  obtain ⟨hm, hy⟩ := only_eq_some_iff.1 hy
  exact ⟨List.mem_filter.2 ⟨hns m hm, by simp [hy]⟩, hy⟩

/-- One more pass. -/
theorem expand_expand (h : Apart ρ cs) (hn : n ∈ used ρ cs) (hns : ∀ m ∈ ns, m ∈ references cs) :
    expand (only [n] ρ) (expand (only ns ρ) cs) = expand (only (n :: ns) ρ) cs := by
  obtain ⟨hname, -⟩ := mem_references_iff.1 (List.mem_filter.1 hn).1
  apply Environment.expand_expand hname
  · intro m y hy
    obtain ⟨hm, hy⟩ := mem_used hns hy
    refine ⟨h.inside m hm y hy n hn, fun u hu hsuffix hbegins => ?_⟩
    refine h.atEnd m hm y hy ⟨u, (List.mem_tails u y).2 hsuffix, hu, n, hn, hbegins, ?_⟩
    rintro rfl
    exact h.inside m hm y hy n hn hsuffix.isInfix
  · rintro u m after hu hbegins hne hm hsome ⟨front, hcut⟩
    obtain ⟨y, hy⟩ := Option.isSome_iff_exists.1 hsome
    obtain ⟨hm, -⟩ := mem_used hns hy
    have hlength : (front ++ u).length < cs.length := by
      rw [← hcut]
      simp [length_reference]
    have hsplit : cs = (front ++ u) ++ (reference m ++ after) := by
      rw [← hcut, List.append_assoc]
    refine h.before (front ++ u).length hlength ⟨m, hm, after, ?_⟩ ?_
    · conv_rhs => rw [hsplit]
      rw [List.drop_left]
    · have htake : cs.take (front ++ u).length = front ++ u := by
        conv_lhs => rw [hsplit]
        rw [List.take_left]
      rw [htake]
      exact ⟨u, (List.mem_tails u _).2 (List.suffix_append front u), hu, n, hn, hbegins, hne⟩

/-- Passes one after another are a pass for all of their variables. -/
theorem foldl_expand (h : Apart ρ cs) {done todo : List (List Char)}
    (hdone : ∀ m ∈ done, m ∈ references cs) (htodo : ∀ m ∈ todo, m ∈ references cs) :
    todo.foldl (fun cs n => expand (only [n] ρ) cs) (expand (only done ρ) cs)
      = expand (only (todo.reverse ++ done) ρ) cs := by
  induction todo generalizing done with
  | nil => rfl
  | cons n todo ih =>
    have hn := htodo n List.mem_cons_self
    have hstep : expand (only [n] ρ) (expand (only done ρ) cs)
        = expand (only (n :: done) ρ) cs := by
      cases hx : ρ n with
      | some x => exact h.expand_expand (List.mem_filter.2 ⟨hn, by simp [hx]⟩) hdone
      | none => rw [expand_only_of_none hx, only_cons_of_none hx]
    rw [List.foldl_cons, hstep, ih (List.forall_mem_cons.2 ⟨hn, hdone⟩)
      fun m hm => htodo m (List.mem_cons_of_mem n hm)]
    rw [List.reverse_cons, List.append_assoc, List.singleton_append]

end Apart

/-- **Substituting is a pass after another, and one pass where nothing can come about between
    them.**  Substituting makes one pass over the text for each of its references, from left to
    right, and each reads what the passes before it have left.  If the values and the references
    keep apart, this is what one pass over the text as it came gives: each reference to a variable
    with a value is replaced by that value, and everything else is copied. -/
theorem substitute_simultaneous (env : Environment) (text : String) :
    env.substitute text = String.ofList ((references text.toList).foldl
        (fun cs n => expand (only [n] env.value?) cs) text.toList) ∧
      (Apart env.value? text.toList →
        env.substitute text = String.ofList (expand env.value? text.toList)) := by
  refine ⟨substitute_eq_passes env text, fun h => ?_⟩
  rw [substitute_eq_passes]
  refine congrArg String.ofList ?_
  have hnone : expand (only [] env.value?) text.toList = text.toList := expand_none fun _ => rfl
  have hall : ∀ m ∈ references text.toList, m ∈ references text.toList := fun _ hm => hm
  have hpasses := h.foldl_expand (List.forall_mem_nil _) hall
  rw [hnone, List.append_nil] at hpasses
  rw [hpasses]
  exact expand_congr fun n hn => if_pos (List.mem_reverse.2 hn)

/-- A text with a dollar sign in a value and a reference to a variable that is not set. -/
theorem substitute_path :
    let env : Environment := [("A", "x$y"), ("B", "z")]
    let text := String.ofList
      (reference "A".toList ++ '/' :: reference "B".toList ++ reference "C".toList)
    Apart env.value? text.toList ∧
      env.substitute text = String.ofList ("x$y/z".toList ++ reference "C".toList) := by
  intro env text
  have h : Apart env.value? text.toList := by decide +kernel
  refine ⟨h, ?_⟩
  rw [(substitute_simultaneous env text).2 h]
  decide +kernel

/-- The value of the first variable is a reference to the second: it is replaced if the second comes
    later in the text, and copied if it came before. -/
theorem substitute_nested :
    let b := String.ofList (reference "B".toList)
    let env : Environment := [("A", b), ("B", "x")]
    let text := String.ofList (reference "A".toList ++ reference "B".toList)
    env.substitute text = "xx" ∧ String.ofList (expand env.value? text.toList) = b ++ "x" ∧
      env.substitute (String.ofList (reference "B".toList ++ reference "A".toList)) = "x" ++ b := by
  decide +kernel

end SyncLedger.Environment
