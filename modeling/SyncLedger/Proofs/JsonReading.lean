/-
  SyncLedger/Proofs/JsonReading.lean
  ==================================
  **What is written as JSON is read back.**  A value is read wherever its text stands, whatever
  comes after it, as long as that can follow a value (`Reads`); values are put together from values
  that are read, so this is proved for one constructor after another (`Spelled.reads`).

  The reader goes down one level where its depth allows; it never needs more of it than the text is
  long.
-/
import SyncLedger.Json
import SyncLedger.Proofs.Numerals

namespace SyncLedger.Json

variable {cs ws rest : List Char} {c : Char} {n level depth : Nat} {v : Json} {s : String}

/-! ### Blanks -/

theorem skipSpace_append (h : ∀ c ∈ ws, isSpace c = true) : skipSpace (ws ++ cs) = skipSpace cs :=
  List.dropWhile_append_of_pos h

theorem skipSpace_cons (h : isSpace c = false) : skipSpace (c :: cs) = c :: cs :=
  List.dropWhile_cons_of_neg (by simp [h])

theorem toList_indent (level : Nat) : (indent level).toList = List.replicate (2 * level) ' ' := by
  rw [indent, String.toList_ofList]

theorem isSpace_of_mem_indent (h : c ∈ (indent level).toList) : isSpace c = true := by
  rw [toList_indent] at h
  rw [List.eq_of_mem_replicate h]
  rfl

theorem isSpace_newline : ∀ c ∈ ['\n'], isSpace c = true :=
  List.forall_mem_singleton.2 rfl

/-- The beginning of a line before its text. -/
theorem isSpace_of_mem_line (h : c ∈ '\n' :: (indent level).toList) : isSpace c = true := by
  rcases List.mem_cons.1 h with rfl | h
  · rfl
  · exact isSpace_of_mem_indent h

theorem value?_blank (h : ∀ c ∈ ws, isSpace c = true) :
    value? depth (ws ++ cs) = value? depth cs := by
  cases depth with
  | zero => rw [value?, value?]
  | succ depth => rw [value?, value?, skipSpace_append h]

/-! ### Strings -/

theorem hexValue?_hexDigit (h : n < 16) : Bytes.hexValue? (Bytes.hexDigit n) = some n := by
  have hall : ∀ i : Fin 16, Bytes.hexValue? (Bytes.hexDigit i) = some i.val := by decide +kernel
  exact hall ⟨n, h⟩

/-- The characters that are written as a backslash and a letter or sign. -/
def named : List Char := ['"', '\\', '\n', '\r', '\t', '\x08', '\x0c']

/-- The piece that a character is written as. -/
def pieceOf (c : Char) : Piece :=
  if c ∈ named ∨ 0x20 ≤ c.toNat then .char c else .unit c.toNat

theorem escape_of_notMem_named (h : c ∉ named) : escape c =
    if c.toNat < 0x20 then
      ['\\', 'u', '0', '0', Bytes.hexDigit (c.toNat / 16), Bytes.hexDigit (c.toNat % 16)]
    else [c] := by
  simp only [named, List.mem_cons, List.not_mem_nil, or_false, not_or] at h
  simp only [escape, h, if_false]

theorem pieces?_named (h : c ∈ named) (cs : List Char) :
    pieces? (escape c ++ cs) = (pieces? cs).bind fun p => some (.char c :: p.1, p.2) := by
  simp only [named, List.mem_cons, List.not_mem_nil, or_false] at h
  rcases h with rfl | rfl | rfl | rfl | rfl | rfl | rfl <;> rfl

theorem pieces?_unit {a b : Nat} (ha : a < 16) (hb : b < 16) (cs : List Char) :
    pieces? ('\\' :: 'u' :: '0' :: '0' :: Bytes.hexDigit a :: Bytes.hexDigit b :: cs)
      = (pieces? cs).bind fun p => some (.unit (a * 16 + b) :: p.1, p.2) := by
  have hzero : Bytes.hexValue? '0' = some 0 := by decide
  simp [pieces?, hex4?, hzero, hexValue?_hexDigit ha, hexValue?_hexDigit hb]

theorem pieces?_escape (c : Char) (cs : List Char) :
    pieces? (escape c ++ cs) = (pieces? cs).bind fun p => some (pieceOf c :: p.1, p.2) := by
  unfold pieceOf
  by_cases hnamed : c ∈ named
  · rw [pieces?_named hnamed, if_pos (Or.inl hnamed)]
  · rw [escape_of_notMem_named hnamed]
    by_cases hcontrol : c.toNat < 0x20
    · have hsum : c.toNat / 16 * 16 + c.toNat % 16 = c.toNat := by omega
      have hneither : ¬ (c ∈ named ∨ 0x20 ≤ c.toNat) := by
        rw [not_or]
        exact ⟨hnamed, by omega⟩
      rw [if_pos hcontrol, if_neg hneither]
      simp only [List.cons_append, List.nil_append]
      rw [pieces?_unit (by omega) (by omega), hsum]
    · rw [if_neg hcontrol, if_pos (Or.inr (by omega)), List.singleton_append, pieces?.eq_def]
      split
      · contradiction
      · rename_i hquote
        exact absurd ((List.cons.inj hquote).1 ▸ by decide) hnamed
      · rename_i hbackslash
        exact absurd ((List.cons.inj hbackslash).1 ▸ by decide) hnamed
      · rename_i hbackslash
        exact absurd ((List.cons.inj hbackslash).1 ▸ by decide) hnamed
      · rename_i hcons
        obtain ⟨rfl, rfl⟩ := List.cons.inj hcons
        rw [if_neg hcontrol, Option.map_eq_bind]
        rfl

theorem spell?_pieceOf (c : Char) (ps : List Piece) :
    spell? (pieceOf c :: ps) = (spell? ps).map (c :: ·) := by
  unfold pieceOf
  split
  · rw [spell?]
  · rename_i hcontrol
    have hn : c.toNat < 0x20 := by
      simp only [not_or] at hcontrol
      omega
    have hhigh : isHighSurrogate c.toNat = false := by
      simp only [isHighSurrogate, Bool.and_eq_false_iff, decide_eq_false_iff_not]
      omega
    have hlow : isLowSurrogate c.toNat = false := by
      simp only [isLowSurrogate, Bool.and_eq_false_iff, decide_eq_false_iff_not]
      omega
    rcases ps with _ | ⟨p | lo, ps⟩ <;> simp [spell?, hhigh, hlow]

theorem pieces?_flatMap_escape (cs rest : List Char) :
    pieces? (cs.flatMap escape ++ '"' :: rest) = some (cs.map pieceOf, rest) := by
  induction cs with
  | nil => rw [List.flatMap_nil, List.nil_append, pieces?, List.map_nil]
  | cons c cs ih =>
    rw [List.flatMap_cons, List.append_assoc, pieces?_escape, ih]
    rfl

theorem spell?_map_pieceOf (cs : List Char) : spell? (cs.map pieceOf) = some cs := by
  induction cs with
  | nil => rw [List.map_nil, spell?]
  | cons c cs ih => rw [List.map_cons, spell?_pieceOf, ih, Option.map_some]

/-- A quoted text is read back, after its first quote. -/
theorem string?_quote (s : String) (rest : List Char) :
    string? (s.toList.flatMap escape ++ '"' :: rest) = some (some s, rest) := by
  rw [string?, pieces?_flatMap_escape, Option.map_some]
  simp only [spell?_map_pieceOf, Option.map_some, String.ofList_toList]

theorem toList_quote (s : String) :
    (quote s).toList = '"' :: (s.toList.flatMap escape ++ ['"']) := by
  rw [quote, String.toList_ofList]
  rfl

/-! ### Values in a text -/

/-- What can stand after a value. -/
def Closes (rest : List Char) : Prop := ∀ c ∈ rest.head?, c = ',' ∨ c = '\n'

theorem closes_nil : Closes [] := nofun

theorem closes_comma (cs : List Char) : Closes (',' :: cs) := by
  rintro _ ⟨⟩
  exact Or.inl rfl

theorem closes_newline (cs : List Char) : Closes ('\n' :: cs) := by
  rintro _ ⟨⟩
  exact Or.inr rfl

/-- The value is read where its text stands, if there is depth enough for its text. -/
def Reads (v : Json) : Prop :=
  ∀ level depth rest, Closes rest → (renderAt level v).toList.length ≤ depth →
    value? depth ((renderAt level v).toList ++ rest) = some (v, rest)

theorem Reads.of_toList {t : List Char} (ht : ∀ level, (renderAt level v).toList = t)
    (hne : t ≠ [])
    (h : ∀ depth rest, Closes rest → value? (depth + 1) (t ++ rest) = some (v, rest)) :
    Reads v := by
  intro level depth rest hrest hdepth
  rw [ht] at hdepth ⊢
  cases depth with
  | zero => exact absurd (List.eq_nil_of_length_eq_zero (by omega)) hne
  | succ depth => exact h depth rest hrest

theorem toList_renderAt_null (level : Nat) : (renderAt level .null).toList = "null".toList := by
  rw [renderAt]

theorem toList_renderAt_bool (level : Nat) (b : Bool) :
    (renderAt level (.bool b)).toList = if b then "true".toList else "false".toList := by
  cases b <;> simp [renderAt]

theorem toList_renderAt_natural (level n : Nat) :
    (renderAt level (.natural n)).toList = Nat.toDigits 10 n := by
  rw [renderAt]
  exact Nat.toList_repr

theorem toList_renderAt_text (level : Nat) (s : String) :
    (renderAt level (text s)).toList = (quote s).toList := by
  rw [text, renderAt, Option.getD_some]

theorem reads_null : Reads .null := by
  refine Reads.of_toList toList_renderAt_null (by decide) ?_
  intro depth rest _
  rw [value?]
  rfl

theorem reads_bool (b : Bool) : Reads (.bool b) := by
  cases b with
  | false =>
    refine Reads.of_toList (toList_renderAt_bool · false) (by decide) ?_
    intro depth rest _
    rw [value?]
    rfl
  | true =>
    refine Reads.of_toList (toList_renderAt_bool · true) (by decide) ?_
    intro depth rest _
    rw [value?]
    rfl

theorem reads_text (s : String) : Reads (text s) := by
  refine Reads.of_toList (fun level => (toList_renderAt_text level s).trans (toList_quote s))
    (List.cons_ne_nil _ _) ?_
  intro depth rest _
  have hstring := string?_quote s rest
  rw [List.cons_append, List.append_assoc, List.singleton_append, value?,
    skipSpace_cons (by decide)]
  simp only [hstring]
  rfl

theorem digits?_append (hne : cs ≠ []) (hdigits : ∀ c ∈ cs, c.isDigit = true)
    (hrest : ∀ c ∈ rest.head?, c.isDigit = false) : digits? (cs ++ rest) = some (cs, rest) := by
  have hnone : rest.takeWhile (·.isDigit) = [] := by
    cases rest with
    | nil => rfl
    | cons c rest => exact List.takeWhile_cons_of_neg (by simp [hrest c rfl])
  have htake : (cs ++ rest).takeWhile (·.isDigit) = cs := by
    rw [List.takeWhile_append_of_pos hdigits, hnone, List.append_nil]
  simp only [digits?, htake, if_neg hne, List.drop_left]

/-- What can stand after a value continues no number. -/
theorem Closes.ends_number (h : Closes rest) : (∀ c ∈ rest.head?, c.isDigit = false) ∧
    fraction? rest = some (false, rest) ∧ exponent? rest = some (false, rest) := by
  cases rest with
  | nil => exact ⟨nofun, rfl, rfl⟩
  | cons c rest =>
    rcases h c rfl with rfl | rfl
    · exact ⟨by simp, rfl, rfl⟩
    · exact ⟨by simp, rfl, rfl⟩

theorem number?_toDigits (n : Nat) (hrest : Closes rest) :
    number? (Nat.toDigits 10 n ++ rest) = some (.natural n, rest) := by
  obtain ⟨hdigit, hfraction, hexponent⟩ := hrest.ends_number
  have hnumeral := Text.isNumeral_toDigits n
  have hread := digits?_append hnumeral.nonempty hnumeral.digits hdigit
  have hfront : (Nat.toDigits 10 n).head? ≠ some '0' ∨ (Nat.toDigits 10 n).length = 1 :=
    or_iff_not_imp_left.2 fun hzero => hnumeral.front (not_not.1 hzero)
  have hsign : ∀ after, Nat.toDigits 10 n ++ rest ≠ '-' :: after := by
    intro after hminus
    obtain ⟨d, ds, hds⟩ := List.exists_cons_of_ne_nil hnumeral.nonempty
    rw [hds, List.cons_append] at hminus
    have hd := hnumeral.digits d (hds ▸ List.mem_cons_self)
    rw [(List.cons.inj hminus).1] at hd
    exact absurd hd (by decide)
  unfold number?
  split
  rename_i negative unsigned hunsigned
  split at hunsigned
  · rename_i after hminus
    exact absurd hminus (hsign after)
  obtain ⟨rfl, rfl⟩ := Prod.mk.inj hunsigned
  simp [hread, hfraction, hexponent, hfront, guard, Text.ofDigits_toDigits]

theorem value?_digit (h : c.isDigit = true) : value? (depth + 1) (c :: cs) = number? (c :: cs) := by
  have hne {d : Char} (hd : d.isDigit = false) : c ≠ d := by
    rintro rfl
    simp [hd] at h
  have hspace : isSpace c = false := by
    simp only [isSpace, Bool.or_eq_false_iff, beq_eq_false_iff_ne]
    exact ⟨⟨⟨hne (by decide), hne (by decide)⟩, hne (by decide)⟩, hne (by decide)⟩
  rw [value?, skipSpace_cons hspace]
  split
  case h_7 => rfl
  -- a digit begins none of the other values
  all_goals
    rename_i heq
    exact absurd (List.cons.inj heq).1 (hne (by decide))

theorem reads_natural (n : Nat) : Reads (.natural n) := by
  refine Reads.of_toList (toList_renderAt_natural · n) Nat.toDigits_ne_nil ?_
  intro depth rest hrest
  have hread := number?_toDigits n hrest
  obtain ⟨d, ds, hds⟩ := List.exists_cons_of_ne_nil (Nat.toDigits_ne_nil (n := n) (b := 10))
  have hd := (Text.isNumeral_toDigits n).digits d (hds ▸ List.mem_cons_self)
  rw [hds, List.cons_append] at hread ⊢
  rw [value?_digit hd, hread]

/-! ### Values in values -/

/-- Items as they stand between the lines of their brackets. -/
def itemsText (level : Nat) (vs : List Json) : List Char :=
  (",\n".intercalate (renderItems level vs)).toList

theorem itemsText_singleton (level : Nat) (v : Json) :
    itemsText level [v] = (indent level).toList ++ (renderAt level v).toList := by
  simp [itemsText, renderItems]

theorem itemsText_cons_cons (level : Nat) (v w : Json) (vs : List Json) :
    itemsText level (v :: w :: vs) = (indent level).toList ++ (renderAt level v).toList
      ++ ',' :: '\n' :: itemsText level (w :: vs) := by
  have hcomma : ",\n".toList = [',', '\n'] := rfl
  simp [itemsText, renderItems, hcomma]

theorem toList_renderAt_array (level : Nat) (v : Json) (vs : List Json) :
    (renderAt level (.array (v :: vs))).toList
      = '[' :: '\n' :: itemsText (level + 1) (v :: vs)
        ++ '\n' :: (indent level).toList ++ [']'] := by
  have hopen : "[\n".toList = ['[', '\n'] := rfl
  have hline : "\n".toList = ['\n'] := rfl
  have hclose : "]".toList = [']'] := rfl
  simp only [renderAt, itemsText, String.toList_append, hopen, hline, hclose]
  simp

theorem skipSpace_line {k : Nat} (hc : isSpace c = false) :
    skipSpace ('\n' :: ((indent k).toList ++ c :: cs)) = c :: cs := by
  rw [← List.cons_append, skipSpace_append fun _ => isSpace_of_mem_line, skipSpace_cons hc]

/-- Items are read up to their closing bracket, after any blanks. -/
theorem items?_itemsText {vs : List Json} (h : ∀ v ∈ vs, Reads v) (hne : vs ≠ [])
    (hws : ∀ c ∈ ws, isSpace c = true) (k : Nat)
    (hdepth : (itemsText level vs).length < depth) :
    items? depth (ws ++ (itemsText level vs ++ '\n' :: ((indent k).toList ++ ']' :: rest)))
      = some (vs, rest) := by
  induction vs generalizing ws depth with
  | nil => contradiction
  | cons v vs ih =>
    obtain ⟨hv, hvs⟩ := List.forall_mem_cons.1 h
    cases depth with
    | zero => omega
    | succ depth =>
      rw [items?, value?_blank hws]
      cases vs with
      | nil =>
        rw [itemsText_singleton] at hdepth ⊢
        rw [List.length_append] at hdepth
        rw [List.append_assoc, value?_blank fun _ => isSpace_of_mem_indent,
          hv level depth _ (closes_newline _) (by omega)]
        simp only [Option.bind_eq_bind, Option.bind_some,
          skipSpace_line (show isSpace ']' = false by decide)]
        rfl
      | cons w vs =>
        rw [itemsText_cons_cons] at hdepth ⊢
        simp only [List.length_append, List.length_cons] at hdepth
        have hothers := @ih ['\n'] depth hvs (List.cons_ne_nil w vs) isSpace_newline (by omega)
        rw [List.append_assoc, List.append_assoc, value?_blank fun _ => isSpace_of_mem_indent,
          List.cons_append, hv level depth _ (closes_comma _) (by omega)]
        simp only [Option.bind_eq_bind, Option.bind_some,
          skipSpace_cons (show isSpace ',' = false by decide)]
        exact congrArg (Option.map _) hothers

/-- No item begins with the closing bracket. -/
theorem items?_of_bracket (h : skipSpace cs = ']' :: rest) : items? depth cs = none := by
  have hvalue (depth : Nat) : value? depth cs = none := by
    cases depth with
    | zero => rw [value?]
    | succ depth =>
      rw [value?, h]
      rfl
  cases depth with
  | zero => rw [items?]
  | succ depth =>
    rw [items?, hvalue]
    rfl

theorem reads_array {vs : List Json} (h : ∀ v ∈ vs, Reads v) : Reads (.array vs) := by
  cases vs with
  | nil =>
    refine Reads.of_toList (t := "[]".toList) (fun _ => by simp [renderAt]) (by decide) ?_
    intro depth rest _
    rw [value?]
    rfl
  | cons v vs =>
    intro level depth rest _ hdepth
    rw [toList_renderAt_array] at hdepth ⊢
    simp only [List.length_append, List.length_cons] at hdepth
    cases depth with
    | zero => omega
    | succ depth =>
      have hitems := @items?_itemsText ['\n'] rest (level + 1) depth _
        h (List.cons_ne_nil v vs) isSpace_newline level (by omega)
      simp only [List.cons_append, List.append_assoc, List.nil_append] at hitems ⊢
      rw [value?, skipSpace_cons (by decide)]
      simp only
      split
      · rename_i hbracket
        rw [items?_of_bracket hbracket] at hitems
        contradiction
      · rw [hitems]
        rfl

/-- Fields as they stand between the lines of their braces. -/
def fieldsText (level : Nat) (fs : List (Option String × Json)) : List Char :=
  (",\n".intercalate (renderFields level fs)).toList

theorem fieldsText_singleton (level : Nat) (name : String) (v : Json) :
    fieldsText level [(some name, v)] = (indent level).toList
      ++ ((quote name).toList ++ ':' :: ' ' :: (renderAt level v).toList) := by
  have hcolon : ": ".toList = [':', ' '] := rfl
  simp [fieldsText, renderFields, hcolon]

theorem fieldsText_cons_cons (level : Nat) (f g : Option String × Json)
    (fs : List (Option String × Json)) :
    fieldsText level (f :: g :: fs)
      = fieldsText level [f] ++ ',' :: '\n' :: fieldsText level (g :: fs) := by
  have hcomma : ",\n".toList = [',', '\n'] := rfl
  simp [fieldsText, renderFields, hcomma]

theorem toList_renderAt_object (level : Nat) (f : Option String × Json)
    (fs : List (Option String × Json)) :
    (renderAt level (.object (f :: fs))).toList
      = '\x7b' :: '\n' :: fieldsText (level + 1) (f :: fs)
        ++ '\n' :: (indent level).toList ++ ['\x7d'] := by
  have hopen : "\x7b\n".toList = ['\x7b', '\n'] := rfl
  have hline : "\n".toList = ['\n'] := rfl
  have hclose : "\x7d".toList = ['\x7d'] := rfl
  simp only [renderAt, fieldsText, String.toList_append, hopen, hline, hclose]
  simp

/-- The first field is read up to what stands after its value. -/
theorem fields?_fieldsText_append {name : String} {after : List Char} (hv : Reads v)
    (hws : ∀ c ∈ ws, isSpace c = true) (hafter : Closes after)
    (hdepth : (fieldsText level [(some name, v)]).length ≤ depth) :
    fields? (depth + 1) (ws ++ (fieldsText level [(some name, v)] ++ after)) =
      match skipSpace after with
      | ',' :: rest => (fields? depth rest).map fun p => ((some name, v) :: p.1, p.2)
      | '\x7d' :: rest => some ([(some name, v)], rest)
      | _ => none := by
  rw [fieldsText_singleton, toList_quote] at hdepth ⊢
  simp only [List.length_append, List.length_cons] at hdepth
  have hname := string?_quote name (':' :: ' ' :: ((renderAt level v).toList ++ after))
  have hvalue : value? depth (' ' :: ((renderAt level v).toList ++ after)) = some (v, after) := by
    have hblank : ∀ c ∈ [' '], isSpace c = true := List.forall_mem_singleton.2 rfl
    exact (value?_blank hblank).trans (hv level depth after hafter (by omega))
  rw [fields?, skipSpace_append hws, List.append_assoc,
    skipSpace_append fun _ => isSpace_of_mem_indent, List.cons_append, List.cons_append,
    skipSpace_cons (by decide)]
  simp only [List.append_assoc, List.cons_append, List.nil_append, hname, Option.bind_eq_bind,
    Option.bind_some, skipSpace_cons (show isSpace ':' = false by decide), hvalue]
  rfl

/-- Fields are read up to their closing brace, after any blanks. -/
theorem fields?_fieldsText {fs : List (Option String × Json)}
    (h : ∀ f ∈ fs, f.1.isSome = true ∧ Reads f.2) (hne : fs ≠ [])
    (hws : ∀ c ∈ ws, isSpace c = true) (k : Nat)
    (hdepth : (fieldsText level fs).length < depth) :
    fields? depth (ws ++ (fieldsText level fs ++ '\n' :: ((indent k).toList ++ '\x7d' :: rest)))
      = some (fs, rest) := by
  induction fs generalizing ws depth with
  | nil => contradiction
  | cons f fs ih =>
    obtain ⟨⟨hname, hv⟩, hfs⟩ := List.forall_mem_cons.1 h
    obtain ⟨name, v⟩ := f
    obtain ⟨name, rfl⟩ := Option.isSome_iff_exists.1 hname
    replace hv : Reads v := hv
    cases depth with
    | zero => omega
    | succ depth =>
      cases fs with
      | nil =>
        rw [fields?_fieldsText_append hv hws (closes_newline _) (by omega),
          skipSpace_line (by decide)]
        rfl
      | cons g fs =>
        rw [fieldsText_cons_cons] at hdepth ⊢
        simp only [List.length_append, List.length_cons] at hdepth
        have hothers := @ih ['\n'] depth hfs (List.cons_ne_nil g fs) isSpace_newline (by omega)
        rw [List.append_assoc, List.cons_append,
          fields?_fieldsText_append hv hws (closes_comma _) (by omega), skipSpace_cons (by decide)]
        exact congrArg (Option.map _) hothers

/-- No field begins with the closing brace. -/
theorem fields?_of_brace (h : skipSpace cs = '\x7d' :: rest) : fields? depth cs = none := by
  cases depth with
  | zero => rw [fields?]
  | succ depth =>
    rw [fields?, h]
    rfl

theorem reads_object {fs : List (Option String × Json)}
    (h : ∀ f ∈ fs, f.1.isSome = true ∧ Reads f.2) : Reads (.object fs) := by
  cases fs with
  | nil =>
    refine Reads.of_toList (t := "\x7b\x7d".toList) (fun _ => by simp [renderAt]) (by decide) ?_
    intro depth rest _
    rw [value?]
    rfl
  | cons f fs =>
    intro level depth rest _ hdepth
    rw [toList_renderAt_object] at hdepth ⊢
    simp only [List.length_append, List.length_cons] at hdepth
    cases depth with
    | zero => omega
    | succ depth =>
      have hfields := @fields?_fieldsText ['\n'] rest (level + 1) depth _
        h (List.cons_ne_nil f fs) isSpace_newline level (by omega)
      simp only [List.cons_append, List.append_assoc, List.nil_append] at hfields ⊢
      rw [value?, skipSpace_cons (by decide)]
      simp only
      split
      · rename_i hbrace
        rw [fields?_of_brace hbrace] at hfields
        contradiction
      · rw [hfields]
        rfl

/-! ### Whole texts -/

/-- A value that its text says fully: every string and every name of a field is a text, and one with
    the property, and every number is a natural number. -/
inductive Spelled (p : String → Prop) : Json → Prop where
  | null : Spelled p .null
  | bool (b : Bool) : Spelled p (.bool b)
  | natural (n : Nat) : Spelled p (.natural n)
  | text {s : String} : p s → Spelled p (.text s)
  | array {vs : List Json} : (∀ v ∈ vs, Spelled p v) → Spelled p (.array vs)
  | object {fs : List (Option String × Json)} : (∀ f ∈ fs, ∃ name, f.1 = some name ∧ p name) →
      (∀ f ∈ fs, Spelled p f.2) → Spelled p (.object fs)

theorem Spelled.reads {p : String → Prop} (h : v.Spelled p) : Reads v := by
  induction h with
  | null => exact reads_null
  | bool b => exact reads_bool b
  | natural n => exact reads_natural n
  | text _ => exact reads_text _
  | array _ ih => exact reads_array ih
  | object hnames _ ih =>
    refine reads_object fun f hf => ⟨?_, ih f hf⟩
    obtain ⟨name, hname, -⟩ := hnames f hf
    rw [hname, Option.isSome_some]

/-- What is written is read back. -/
theorem parse?_render {p : String → Prop} (h : v.Spelled p) : parse? (render v) = some v := by
  have hread := h.reads 0 (2 * (render v).toList.length + 2) [] closes_nil (by rw [render]; omega)
  rw [List.append_nil] at hread
  simp only [parse?]
  rw [render] at hread ⊢
  rw [hread]
  rfl

end SyncLedger.Json
