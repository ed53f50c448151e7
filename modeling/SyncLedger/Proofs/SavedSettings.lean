/-
  SyncLedger/Proofs/SavedSettings.lean
  ====================================
  **Settings that were saved are loaded again.**  Loading is more than the inverse of writing: the
  text goes through the substitution of variables before it is read, and what is read through
  defaults, overrides and validation.  Each of these leaves alone what saving can give.

  For the substitution this needs an argument.  Where texts stand side by side a reference could come
  about that none of them has.  It does not if the text in front never ends in the middle of one
  (`Confined`), and quoted strings do not: they end in a quote.  What is escaped in a string is never
  a part of a reference, so the references of the written text are those of the strings in it.
  These are replaced if their variables are set; there is no way to write one that is not.
-/
import SyncLedger.Config.File
import SyncLedger.Proofs.Bytes
import SyncLedger.Proofs.JsonReading
import SyncLedger.Proofs.Substitution

namespace SyncLedger

/-! ### References in a text that is put together -/

namespace Environment

variable {P : List Char → Prop} {n u cs ds front : List Char} {c : Char}

/-- All references in the text are to variables with the property, and it does not end in the middle
    of any. -/
structure Confined (P : List Char → Prop) (cs : List Char) : Prop where
  names : ∀ n ∈ references cs, P n
  closed : ∀ n, IsName n → ¬ EndsInside [n] cs

theorem endsInside_singleton : EndsInside [n] cs ↔
    ∃ u, u ≠ [] ∧ u <:+ cs ∧ u <+: reference n ∧ u ≠ reference n := by
  simp only [EndsInside, List.mem_tails, List.mem_singleton, exists_eq_left]
  exact exists_congr fun u => and_left_comm

/-- A character that references do not have. -/
theorem IsName.notMem_reference (h : IsName n) (hc : isNamePart c = false)
    (hsign : c ∉ ['$', '{', '}']) : c ∉ reference n := by
  obtain ⟨d, rest, rfl, hd, hrest⟩ := h
  have hname : c ∉ d :: rest := by
    intro hmem
    rcases List.mem_cons.1 hmem with rfl | hmem
    · rw [isNamePart, hd, Bool.true_or] at hc
      contradiction
    · rw [hrest c hmem] at hc
      contradiction
  simp only [List.mem_cons, List.not_mem_nil, or_false, not_or] at hsign
  simp only [reference, List.cons_append, List.mem_cons, List.mem_append, List.not_mem_nil, or_false,
    not_or] at hname ⊢
  exact ⟨hsign.1, hsign.2.1, hname.1, hname.2, hsign.2.2⟩

theorem dollar_mem_of_begins (hne : u ≠ []) (h : u <+: reference n) : '$' ∈ u := by
  cases u with
  | nil => contradiction
  | cons d u =>
    obtain ⟨rfl, -⟩ := List.cons_prefix_cons.1 h
    exact List.mem_cons_self

theorem Confined.append (hcs : Confined P cs) (hds : Confined P ds) : Confined P (cs ++ ds) where
  names n hn := by
    obtain ⟨hname, hwithin⟩ := mem_references_iff.1 hn
    rcases List.infix_append_iff_ne_nil.1 hwithin with h | h | ⟨u, w, hu, hw, hsplit, hsuffix, -⟩
    · exact hcs.names n (mem_references_iff.2 ⟨hname, h⟩)
    · exact hds.names n (mem_references_iff.2 ⟨hname, h⟩)
    · -- the text in front would end in the middle of the reference
      refine absurd (endsInside_singleton.2 ⟨u, hu, hsuffix, ?_, ?_⟩) (hcs.closed n hname)
      · exact hsplit ▸ List.prefix_append u w
      · rw [hsplit]
        exact fun heq => hw (List.append_cancel_left (heq.symm.trans (List.append_nil u).symm))
  closed n hname hends := by
    obtain ⟨u, hu, hsuffix, hbegins, hne⟩ := endsInside_singleton.1 hends
    rcases List.suffix_or_suffix_of_suffix hsuffix (List.suffix_append cs ds) with h | ⟨w, rfl⟩
    · exact hds.closed n hname (endsInside_singleton.2 ⟨u, hu, h, hbegins, hne⟩)
    · rw [List.suffix_append_self_iff] at hsuffix
      by_cases hw : w = []
      · subst hw
        exact hds.closed n hname (endsInside_singleton.2 ⟨ds, hu, List.suffix_rfl, hbegins, hne⟩)
      · have hfront : w <+: reference n := (List.prefix_append w ds).trans hbegins
        refine hcs.closed n hname (endsInside_singleton.2 ⟨w, hw, hsuffix, hfront, ?_⟩)
        rintro rfl
        exact hne (hbegins.eq_of_length_le (by simp))

/-- Without a dollar sign there are no references. -/
theorem confined_plain (h : '$' ∉ cs) : Confined P cs where
  names n hn := by
    obtain ⟨-, hwithin⟩ := mem_references_iff.1 hn
    exact absurd (hwithin.subset List.mem_cons_self) h
  closed n _ hends := by
    obtain ⟨u, hne, hsuffix, hbegins, -⟩ := endsInside_singleton.1 hends
    exact h (hsuffix.subset (dollar_mem_of_begins hne hbegins))

/-! ### References in what is written -/

theorem escape_cases (c : Char) :
    Json.escape c = [c] ∨ ∃ tail, Json.escape c = '\\' :: tail ∧ '$' ∉ tail := by
  by_cases hnamed : c ∈ Json.named
  · simp only [Json.named, List.mem_cons, List.not_mem_nil, or_false] at hnamed
    rcases hnamed with rfl | rfl | rfl | rfl | rfl | rfl | rfl <;>
      exact Or.inr ⟨_, rfl, by decide⟩
  · rw [Json.escape_of_notMem_named hnamed]
    split
    · rename_i hcontrol
      have hall : ∀ i : Fin 16, '$' ≠ Bytes.hexDigit i := by decide
      have hhigh := hall ⟨c.toNat / 16, by omega⟩
      have hlow := hall ⟨c.toNat % 16, by omega⟩
      exact Or.inr ⟨_, rfl, by simp [hhigh, hlow]⟩
    · exact Or.inl rfl

/-- What a text begins with after it was escaped it had before, if no backslash is in it. -/
theorem prefix_of_prefix_escape (hu : '\\' ∉ u) (h : u <+: cs.flatMap Json.escape) : u <+: cs := by
  induction cs generalizing u with
  | nil => exact h
  | cons c cs ih =>
    cases u with
    | nil => exact List.nil_prefix
    | cons d u =>
      rw [List.mem_cons, not_or] at hu
      rw [List.flatMap_cons] at h
      rcases escape_cases c with hplain | ⟨tail, hescape, -⟩
      · rw [hplain, List.singleton_append, List.cons_prefix_cons] at h
        exact List.cons_prefix_cons.2 ⟨h.1, ih hu.2 h.2⟩
      · rw [hescape, List.cons_append, List.cons_prefix_cons] at h
        exact absurd h.1.symm hu.1

/-- No reference begins in a text without a dollar sign. -/
theorem infix_of_infix_append (hfront : '$' ∉ front) (h : reference n <:+: front ++ cs) :
    reference n <:+: cs := by
  rcases List.infix_append_iff_ne_nil.1 h with h | h | ⟨u, w, hu, -, hsplit, hsuffix, -⟩
  · exact absurd (h.subset List.mem_cons_self) hfront
  · exact h
  · have hdollar := dollar_mem_of_begins hu (hsplit ▸ List.prefix_append u w)
    exact absurd (hsuffix.subset hdollar) hfront

theorem infix_of_infix_escape (hn : IsName n) (h : reference n <:+: cs.flatMap Json.escape) :
    reference n <:+: cs := by
  induction cs with
  | nil => exact h
  | cons c cs ih =>
    have hbackslash : '\\' ∉ reference n := hn.notMem_reference (by decide) (by decide)
    rw [List.flatMap_cons] at h
    rcases escape_cases c with hplain | ⟨tail, hescape, htail⟩
    · rw [hplain, List.singleton_append, List.infix_cons_iff] at h
      rcases h with h | h
      · have hbegins : reference n <+: (c :: cs).flatMap Json.escape := by
          rw [List.flatMap_cons, hplain]
          exact h
        exact (prefix_of_prefix_escape hbackslash hbegins).isInfix
      · exact (ih h).trans (List.suffix_cons c cs).isInfix
    · have hfront : '$' ∉ '\\' :: tail := by
        rw [List.mem_cons, not_or]
        exact ⟨by decide, htail⟩
      exact (ih (infix_of_infix_append hfront (hescape ▸ h))).trans (List.suffix_cons c cs).isInfix

/-- A quoted string has the references of the string. -/
theorem confined_quote {s : String} (h : ∀ n ∈ references s.toList, P n) :
    Confined P (Json.quote s).toList where
  names n hn := by
    obtain ⟨hname, hwithin⟩ := mem_references_iff.1 hn
    rw [Json.toList_quote, ← List.singleton_append] at hwithin
    have hquote : '"' ∉ reference n := hname.notMem_reference (by decide) (by decide)
    rcases List.infix_append_iff_ne_nil.1 (infix_of_infix_append (by decide) hwithin) with
      hin | hin | ⟨u, w, -, hw, hsplit, -, hbegins⟩
    · exact h n (mem_references_iff.2 ⟨hname, infix_of_infix_escape hname hin⟩)
    · exact absurd (hin.subset List.mem_cons_self) (by decide)
    · cases w with
      | nil => exact absurd rfl hw
      | cons d w =>
        obtain ⟨rfl, -⟩ := List.cons_prefix_cons.1 hbegins
        exact absurd (by simp [hsplit]) hquote
  closed n hname hends := by
    obtain ⟨u, hu, hsuffix, hbegins, -⟩ := endsInside_singleton.1 hends
    have hquote : '"' ∉ reference n := hname.notMem_reference (by decide) (by decide)
    rw [Json.toList_quote, ← List.cons_append] at hsuffix
    rcases List.suffix_or_suffix_of_suffix hsuffix (List.suffix_append _ ['"']) with h | h
    · rcases List.suffix_cons_iff.1 h with rfl | h
      · exact hquote (hbegins.subset (List.mem_singleton_self _))
      · exact hu (List.suffix_nil.1 h)
    · exact hquote (hbegins.subset (h.subset (List.mem_singleton_self _)))

end Environment

/-! ### References in a written value -/

namespace Json

open Environment (Confined references)

variable {P : List Char → Prop} {v : Json} {level : Nat}

theorem confined_indent (level : Nat) : Confined P (indent level).toList := by
  refine Environment.confined_plain fun hmem => ?_
  rw [toList_indent] at hmem
  exact absurd (List.eq_of_mem_replicate hmem) (by decide)

theorem confined_itemsText {vs : List Json} (hne : vs ≠ [])
    (h : ∀ v ∈ vs, ∀ level, Confined P (renderAt level v).toList) :
    Confined P (itemsText level vs) := by
  induction vs with
  | nil => contradiction
  | cons v vs ih =>
    obtain ⟨hv, hvs⟩ := List.forall_mem_cons.1 h
    cases vs with
    | nil =>
      rw [itemsText_singleton]
      exact (confined_indent level).append (hv level)
    | cons w vs =>
      have hcomma : Confined P [',', '\n'] := Environment.confined_plain (by decide)
      rw [itemsText_cons_cons]
      exact ((confined_indent level).append (hv level)).append
        (hcomma.append (ih (List.cons_ne_nil w vs) hvs))

theorem confined_fieldsText {fs : List (Option String × Json)} (hne : fs ≠ [])
    (hnames : ∀ f ∈ fs, ∃ name, f.1 = some name ∧ ∀ n ∈ references name.toList, P n)
    (h : ∀ f ∈ fs, ∀ level, Confined P (renderAt level f.2).toList) :
    Confined P (fieldsText level fs) := by
  induction fs with
  | nil => contradiction
  | cons f fs ih =>
    obtain ⟨hname, hothers⟩ := List.forall_mem_cons.1 hnames
    obtain ⟨hv, hfs⟩ := List.forall_mem_cons.1 h
    obtain ⟨name, v⟩ := f
    obtain ⟨name, rfl, hname⟩ := hname
    have hcolon : Confined P [':', ' '] := Environment.confined_plain (by decide)
    have hfirst : Confined P (fieldsText level [(some name, v)]) := by
      rw [fieldsText_singleton]
      exact (confined_indent level).append
        ((Environment.confined_quote hname).append (hcolon.append (hv level)))
    cases fs with
    | nil => exact hfirst
    | cons g fs =>
      have hcomma : Confined P [',', '\n'] := Environment.confined_plain (by decide)
      rw [fieldsText_cons_cons]
      exact hfirst.append (hcomma.append (ih (List.cons_ne_nil g fs) hothers hfs))

/-- The references in a written value are those of its strings and names. -/
theorem Spelled.confined (h : v.Spelled fun s => ∀ n ∈ references s.toList, P n) (level : Nat) :
    Confined P (renderAt level v).toList := by
  induction h generalizing level with
  | null =>
    rw [toList_renderAt_null]
    exact Environment.confined_plain (by decide)
  | bool b =>
    rw [toList_renderAt_bool]
    cases b <;> exact Environment.confined_plain (by decide)
  | natural n =>
    rw [toList_renderAt_natural]
    exact Environment.confined_plain (Text.notMem_toDigits (by decide))
  | text hs =>
    rw [toList_renderAt_text]
    exact Environment.confined_quote hs
  | @array vs _ ih =>
    cases vs with
    | nil => exact Environment.confined_plain (by simp [renderAt])
    | cons v vs =>
      have hopen : Confined P ['[', '\n'] := Environment.confined_plain (by decide)
      have hline : Confined P ['\n'] := Environment.confined_plain (by decide)
      have hclose : Confined P [']'] := Environment.confined_plain (by decide)
      rw [toList_renderAt_array]
      exact ((hopen.append (confined_itemsText (List.cons_ne_nil v vs) ih)).append
        (hline.append (confined_indent level))).append hclose
  | @object fs hnames _ ih =>
    cases fs with
    | nil => exact Environment.confined_plain (by simp [renderAt])
    | cons f fs =>
      have hopen : Confined P ['\x7b', '\n'] := Environment.confined_plain (by decide)
      have hline : Confined P ['\n'] := Environment.confined_plain (by decide)
      have hclose : Confined P ['\x7d'] := Environment.confined_plain (by decide)
      rw [toList_renderAt_object]
      exact ((hopen.append (confined_fieldsText (List.cons_ne_nil f fs) hnames ih)).append
        (hline.append (confined_indent level))).append hclose

end Json

/-! ### Settings from their document -/

namespace Document

/-- A record's fields by name. -/
def named (fs : List (String × Json)) : Group Json :=
  .named (fs.map fun (name, v) => (some name, v))

@[simp] theorem group?_record {size : Nat} (fs : List (String × Json)) :
    group? size (Json.record fs) = some (named fs) := rfl

@[simp] theorem isNamed_named (fs : List (String × Json)) : (named fs).isNamed = true := by
  simp [named, Group.isNamed]

theorem filter_name {fs : List (String × Json)} (h : (fs.map Prod.fst).Nodup) (name : String) :
    (fs.map fun (name, v) => (some name, v)).filter (·.1 == some name)
      = ((fs.lookup name).map fun v => (some name, v)).toList := by
  induction fs with
  | nil => rfl
  | cons f fs ih =>
    obtain ⟨other, v⟩ := f
    obtain ⟨hnot, hnodup⟩ := List.nodup_cons.1 h
    rw [List.map_cons, List.filter_cons, List.lookup_cons, ih hnodup]
    by_cases hsame : other = name
    · subst hsame
      have hnone : fs.lookup other = none := by
        rw [List.lookup_eq_none_iff]
        rintro ⟨name, w⟩ hf
        rw [bne_iff_ne]
        rintro rfl
        exact hnot (List.mem_map.2 ⟨_, hf, rfl⟩)
      simp [hnone]
    · have hdiffer : (name == other) = false := beq_false_of_ne (Ne.symm hsame)
      simp [hsame, hdiffer]

/-- In a record with different names each field is there once. -/
@[simp] theorem lookup_named {fs : List (String × Json)} (h : (fs.map Prod.fst).Nodup) (index : Nat)
    (name : String) : (named fs).lookup index name = some (fs.lookup name) := by
  simp only [named, Group.lookup, filter_name h]
  cases fs.lookup name <;> rfl

theorem below_natural {bound n : Nat} (h : n < bound) : below bound (Json.natural n) = some n :=
  Option.filter_eq_some_iff.2 ⟨rfl, decide_eq_true h⟩

@[simp] theorem u64_natural (n : UInt64) : u64 (Json.natural n.toNat) = some n := by
  rw [u64, below_natural n.toNat_lt, Option.map_some, UInt64.ofNat_toNat]

@[simp] theorem u32_natural (n : UInt32) : u32 (Json.natural n.toNat) = some n := by
  rw [u32, below_natural n.toNat_lt, Option.map_some, UInt32.ofNat_toNat]

@[simp] theorem u16_natural (n : UInt16) : u16 (Json.natural n.toNat) = some n := by
  rw [u16, below_natural n.toNat_lt, Option.map_some, UInt16.ofNat_toNat]

@[simp] theorem text?_text (s : String) : text? (Json.text s) = some s := rfl

@[simp] theorem flag?_bool (b : Bool) : flag? (Json.bool b) = some b := rfl

@[simp] theorem orNull_u64 (o : Option UInt64) :
    orNull u64 (Json.orNull (fun n => .natural n.toNat) o) = some o := by
  cases o with
  | none => rfl
  | some n => exact congrArg (Option.bind · fun n => some (some n)) (u64_natural n)

@[simp] theorem orNull_text (o : Option String) :
    orNull text? (Json.orNull .text o) = some o := by
  cases o <;> rfl

end Document

section Groups

open Document (group?_record Group.required Group.optional Group.withDefault)

/-- The document of each group of settings. -/
def StorageConfig.toJson (c : StorageConfig) : Json :=
  .record [("path", .text c.path), ("cache_capacity", .natural c.cacheCapacity.toNat),
    ("flush_every_ms", .orNull (fun n => .natural n.toNat) c.flushEveryMs),
    ("temporary", .bool c.temporary), ("cascade_batch", .natural c.cascadeBatch.toNat)]

def ServerConfig.toJson (c : ServerConfig) : Json :=
  .record [("address", .text c.address), ("port", .natural c.port.toNat),
    ("port3", .natural c.port3.toNat)]

def SecurityConfig.toJson (c : SecurityConfig) : Json :=
  .record [("argon2_memory_kib", .natural c.argon2MemoryKib.toNat),
    ("argon2_iterations", .natural c.argon2Iterations.toNat),
    ("argon2_parallelism", .natural c.argon2Parallelism.toNat),
    ("default_password", .orNull .text c.defaultPassword),
    ("generated_password_len", .natural c.generatedPasswordLength.toNat)]

def RetryConfig.toJson (c : RetryConfig) : Json :=
  .record [("max_attempts", .natural c.maxAttempts.toNat),
    ("base_delay_ms", .natural c.baseDelayMs.toNat)]

def LoggingConfig.toJson (c : LoggingConfig) : Json :=
  .record [("level", .text c.level), ("file", .orNull .text c.file)]

theorem Config.toJson_eq (c : Config) : c.toJson = .record [("storage", c.storage.toJson),
    ("server", c.server.toJson), ("security", c.security.toJson), ("retry", c.retry.toJson),
    ("logging", c.logging.toJson), ("data_dir", .text c.dataDir)] := rfl

theorem Document.storage_toJson (c : StorageConfig) : storage c.toJson = some c := by
  simp [storage, StorageConfig.toJson, Group.required, Group.optional, Group.withDefault, guard,
    List.lookup_cons]

theorem Document.server_toJson (c : ServerConfig) : server c.toJson = some c := by
  simp [server, ServerConfig.toJson, Group.required, guard, List.lookup_cons]

theorem Document.security_toJson (c : SecurityConfig) : security c.toJson = some c := by
  simp [security, SecurityConfig.toJson, Group.required, Group.withDefault, guard, List.lookup_cons]

theorem Document.retry_toJson (c : RetryConfig) : retry c.toJson = some c := by
  simp [retry, RetryConfig.toJson, Group.required, guard, List.lookup_cons]

theorem Document.logging_toJson (c : LoggingConfig) : logging c.toJson = some c := by
  simp [logging, LoggingConfig.toJson, Group.required, Group.optional, guard, List.lookup_cons]

/-- The settings that a document says are those that it was made of. -/
theorem Document.config?_toJson (c : Config) : config? c.toJson = some c := by
  rw [Config.toJson_eq]
  simp [config?, Group.required, Group.withDefault, guard, List.lookup_cons, storage_toJson,
    server_toJson, security_toJson, retry_toJson, logging_toJson]

end Groups

/-! ### Loading what was saved -/

namespace Json.Spelled

variable {p : String → Prop}

theorem record {fs : List (String × Json)} (hplain : ∀ s, '$' ∉ s.toList → p s)
    (hnames : ∀ name ∈ fs.map Prod.fst, '$' ∉ name.toList)
    (h : ∀ v ∈ fs.map Prod.snd, Spelled p v) : (Json.record fs).Spelled p := by
  refine .object ?_ ?_
  · intro g hg
    obtain ⟨f, hf, rfl⟩ := List.mem_map.1 hg
    exact ⟨f.1, rfl, hplain f.1 (hnames f.1 (List.mem_map_of_mem hf))⟩
  · intro g hg
    obtain ⟨f, hf, rfl⟩ := List.mem_map.1 hg
    exact h f.2 (List.mem_map_of_mem hf)

theorem orNull {α : Type} {f : α → Json} {o : Option α} (h : ∀ a ∈ o, Spelled p (f a)) :
    (Json.orNull f o).Spelled p := by
  cases o with
  | none => exact .null
  | some a => exact h a rfl

end Json.Spelled

/-- The strings among the settings. -/
def Config.texts (c : Config) : List String :=
  [c.storage.path, c.server.address, c.logging.level, c.dataDir]
    ++ c.security.defaultPassword.toList ++ c.logging.file.toList

theorem Config.spelled_toJson {c : Config} {p : String → Prop} (hplain : ∀ s, '$' ∉ s.toList → p s)
    (h : ∀ s ∈ c.texts, p s) : c.toJson.Spelled p := by
  obtain ⟨⟨⟨hpath, haddress, hlevel, hdir, -⟩, hpassword⟩, hfile⟩ :
      ((p c.storage.path ∧ p c.server.address ∧ p c.logging.level ∧ p c.dataDir ∧ True) ∧
        ∀ s ∈ c.security.defaultPassword, p s) ∧ ∀ s ∈ c.logging.file, p s := by
    simpa [Config.texts, or_imp, forall_and, and_assoc] using h
  rw [Config.toJson_eq]
  refine .record hplain (by simp only [List.map]; decide) ?_
  simp only [List.map, List.forall_mem_cons]
  refine ⟨?_, ?_, ?_, ?_, ?_, .text hdir, nofun⟩
  · refine .record hplain (by simp only [List.map]; decide) ?_
    simp only [List.map, List.forall_mem_cons]
    exact ⟨.text hpath, .natural _, .orNull fun n _ => .natural _, .bool _, .natural _, nofun⟩
  · refine .record hplain (by simp only [List.map]; decide) ?_
    simp only [List.map, List.forall_mem_cons]
    exact ⟨.text haddress, .natural _, .natural _, nofun⟩
  · refine .record hplain (by simp only [List.map]; decide) ?_
    simp only [List.map, List.forall_mem_cons]
    exact ⟨.natural _, .natural _, .natural _, .orNull fun s hs => .text (hpassword s hs),
      .natural _, nofun⟩
  · refine .record hplain (by simp only [List.map]; decide) ?_
    simp only [List.map, List.forall_mem_cons]
    exact ⟨.natural _, .natural _, nofun⟩
  · refine .record hplain (by simp only [List.map]; decide) ?_
    simp only [List.map, List.forall_mem_cons]
    exact ⟨.text hlevel, .orNull fun s hs => .text (hfile s hs), nofun⟩

namespace Environment

/-- A text without references to variables that are set is left alone. -/
theorem substitute_of_unset {env : Environment} {text : String}
    (h : ∀ n ∈ references text.toList, env.value? n = none) : env.substitute text = text := by
  have hpasses : ∀ (ns : List (List Char)) (cs : List Char), (∀ n ∈ ns, env.value? n = none) →
      ns.foldl (fun cs n => expand (only [n] env.value?) cs) cs = cs := by
    intro ns
    induction ns with
    | nil => exact fun _ _ => rfl
    | cons n ns ih =>
      intro cs hns
      obtain ⟨hn, hns⟩ := List.forall_mem_cons.1 hns
      rw [List.foldl_cons, expand_only_of_none hn, ih cs hns]
  rw [substitute_eq_passes, hpasses _ _ h, String.ofList_toList]

theorem references_append (hfront : '$' ∉ front) : references (front ++ cs) = references cs := by
  induction front with
  | nil => rfl
  | cons c front ih =>
    rw [List.mem_cons, not_or] at hfront
    have hnone : referenceAt? (c :: (front ++ cs)) = none := by
      rw [Option.eq_none_iff_forall_ne_some]
      intro n hn
      have hbegins := (referenceAt?_eq_some_iff.1 hn).2
      exact hfront.1 (List.cons_prefix_cons.1 hbegins).1
    rw [List.cons_append, references, hnone]
    exact ih hfront.2

/-- What stands after the reference that begins with the first dollar sign. -/
def afterReference (n cs : List Char) : List Char := (cs.dropWhile (· ≠ '$')).drop (n.length + 3)

/-- The only reference of a text is replaced by its value. -/
theorem substitute_only {env : Environment} {text text' : String} {x : List Char} (hn : IsName n)
    (hx : env.value? n = some x) (hcs : text.toList = cs) (hds : text'.toList = ds)
    (hafter : '$' ∉ afterReference n cs)
    (hsplit : cs.takeWhile (· ≠ '$') ++ (reference n ++ afterReference n cs) = cs)
    (hsplit' : cs.takeWhile (· ≠ '$') ++ (x ++ afterReference n cs) = ds) :
    env.substitute text = text' := by
  have hbefore : '$' ∉ cs.takeWhile (· ≠ '$') := fun hmem => by
    simpa using List.mem_takeWhile_imp hmem
  have hplain {cs : List Char} (h : '$' ∉ cs) : ∀ d ∈ cs, d ≠ '$' := fun d hd heq => h (heq ▸ hd)
  generalize cs.takeWhile (· ≠ '$') = front at hbefore hsplit hsplit'
  generalize afterReference n cs = back at hafter hsplit hsplit'
  subst hsplit hsplit'
  have hnone (ρ : List Char → Option (List Char)) :
      references back = [] ∧ expand ρ back = back := by
    have hreferences : references (back ++ []) = references [] := references_append hafter
    have hexpand : expand ρ (back ++ []) = back ++ expand ρ [] := expand_plain (hplain hafter)
    rw [expand_nil] at hexpand
    rw [List.append_nil] at hreferences hexpand
    exact ⟨hreferences, hexpand⟩
  have hbegin : referenceAt? (reference n ++ back) = some n :=
    referenceAt?_eq_some_iff.2 ⟨hn, List.prefix_append _ _⟩
  have hreferences : references (front ++ (reference n ++ back)) = [n] := by
    have hinside : '$' ∉ '{' :: n ++ ['}'] := fun hmem => hn.plain '$' hmem rfl
    have hstart : references (reference n ++ back)
        = n :: references ('{' :: n ++ ['}'] ++ back) := by
      simp only [reference, List.cons_append] at hbegin ⊢
      rw [references, hbegin]
    rw [references_append hbefore, hstart, references_append hinside, (hnone fun _ => none).1]
  have hone : only [n] env.value? n = some x := only_eq_some_iff.2 ⟨List.mem_singleton_self n, hx⟩
  rw [substitute_eq_passes, hcs, hreferences, List.foldl_cons, List.foldl_nil,
    expand_plain (hplain hbefore), expand_reference hn hone, (hnone _).2, ← hds,
    String.ofList_toList]

/-- No variable that overrides a setting is set. -/
def Silent (env : Environment) : Prop := ∀ x, "QUICS_".toList <+: x.toList → env.get? x = none

theorem silent_of_names {env : Environment}
    (h : ∀ e ∈ env, ¬ "QUICS_".toList <+: e.1.toList) : env.Silent := by
  intro x hx
  refine List.lookup_eq_none_iff.2 fun e he => ?_
  rw [bne_iff_ne]
  rintro rfl
  exact h e he hx

theorem Silent.trimmed? {env : Environment} (h : env.Silent) {x : String}
    (hx : "QUICS_".toList <+: x.toList) : env.trimmed? x = none := by
  rw [Environment.trimmed?, h x hx]
  rfl

theorem Silent.port? {env : Environment} (h : env.Silent) {x : String}
    (hx : "QUICS_".toList <+: x.toList) : env.port? x = none := by
  rw [Environment.port?, h x hx]
  rfl

end Environment

namespace Config

variable {c : Config} {env : Environment} {name : String}

theorem override_silent (h : env.Silent) (c : Config) : c.override env = c := by
  rw [override, h.trimmed? (by decide), h.trimmed? (by decide), h.trimmed? (by decide),
    h.port? (by decide), h.port? (by decide)]
  rfl

/-- The text of saved settings has the references of their strings. -/
theorem references_written (hjson : Format.ofName name = .json) {P : List Char → Prop}
    (h : ∀ s ∈ c.texts, ∀ n ∈ Environment.references s.toList, P n) :
    ∀ n ∈ Environment.references (c.written name).toList, P n := by
  have hplain : ∀ s : String, '$' ∉ s.toList → ∀ n ∈ Environment.references s.toList, P n :=
    fun s hs => (Environment.confined_plain hs).names
  rw [written, hjson]
  exact ((spelled_toJson hplain h).confined 0).names

theorem parse_written (hjson : Format.ofName name = .json) (c : Config) :
    parse .json (c.written name) = .ok c := by
  have hread := Json.parse?_render (spelled_toJson (c := c) (p := fun _ => True)
    (fun _ _ => trivial) fun _ _ => trivial)
  simp only [parse, written, hjson, hread, Option.bind_some, Document.config?_toJson]

/-- If substituting makes the text of acceptable settings of what was saved, these are loaded. -/
theorem load_of_substitute {c' : Config} (hvalid : c'.validate = .ok ()) (hdir : c'.dataDir ≠ "")
    (hjson : Format.ofName name = .json) (hsilent : env.Silent)
    (h : env.substitute (c.written name) = c'.written name) :
    load name (some (Bytes.ofText (c.written name))) env = .ok c' := by
  have hfilled : c'.withDataDir env = c' := if_neg (by simpa using hdir)
  have hsettled : c'.settle env = .ok c' := by
    simp only [settle, override_silent hsilent, hvalid]
    rfl
  simp only [load, Option.bind_some, Bytes.text?_ofText, ofText, h, hjson, parse_written hjson]
  exact (congrArg (settle · env) hfilled).trans hsettled

/-- **Saved settings are loaded again.**  Let acceptable settings with a data directory be saved as
    JSON.  In an environment without overriding variables they are loaded just as they were,
    whatever characters their strings contain, if no variable is set that one of these strings
    refers to. -/
theorem load_written (hvalid : c.validate = .ok ()) (hdir : c.dataDir ≠ "")
    (hjson : Format.ofName name = .json) (hsilent : env.Silent)
    (hunset : ∀ s ∈ c.texts, ∀ n ∈ Environment.references s.toList, env.value? n = none) :
    load name (some (Bytes.ofText (c.written name))) env = .ok c :=
  load_of_substitute hvalid hdir hjson hsilent
    (Environment.substitute_of_unset (references_written hjson hunset))

/-- Strings with quotes, a backslash, control characters, other scripts and a reference to a
    variable that is not set; and so many lanes that the bound on the memory wraps around. -/
theorem load_written_special :
    let c : Config :=
      { storage := { path := "d\"b\\" }
        server := { address := "\x00\x1f\n\t" }
        security :=
          { argon2MemoryKib := 8
            argon2Parallelism := 0x20000000
            defaultPassword := some (String.ofList (Environment.reference "NONE".toList)) }
        logging := { level := "größe 密🔑", file := some "$HOME" }
        dataDir := "/srv/é" }
    let env : Environment := [("HOME", "/home/u")]
    c.validate = .ok () ∧ env.Silent ∧
      Config.load "c.json" (some (Bytes.ofText (c.written "c.json"))) env = .ok c := by
  intro c env
  have hvalid : c.validate = .ok () := by decide
  have hjson : Format.ofName "c.json" = .json := by decide +kernel
  have hsilent : env.Silent := Environment.silent_of_names (by decide)
  refine ⟨hvalid, hsilent, load_written hvalid (by decide) hjson hsilent ?_⟩
  decide +kernel

/-- A password that is a reference to a variable that is set is loaded as the value of that
    variable. -/
theorem load_reference :
    let c : Config :=
      { security := { defaultPassword := some (String.ofList (Environment.reference "HOME".toList)) }
        dataDir := "/d" }
    let c' : Config := { c with security := { defaultPassword := some "/home/u" } }
    let env : Environment := [("HOME", "/home/u")]
    c.validate = .ok () ∧ c.dataDir ≠ "" ∧ Format.ofName "c.json" = .json ∧ env.Silent ∧
      Config.load "c.json" (some (Bytes.ofText (c.written "c.json"))) env = .ok c' ∧ c' ≠ c := by
  intro c c' env
  have hjson : Format.ofName "c.json" = .json := by decide +kernel
  have hsilent : env.Silent := Environment.silent_of_names (by decide)
  have hreplaced : env.substitute (c.written "c.json") = c'.written "c.json" := by
    apply Environment.substitute_only (n := "HOME".toList) (x := "/home/u".toList)
    case hn => exact ⟨'H', "OME".toList, rfl, by decide, List.all_eq_true.1 (by decide)⟩
    case hx => rfl
    case hcs | hds =>
      simp only [written, hjson, toJson_eq, StorageConfig.toJson, ServerConfig.toJson,
        SecurityConfig.toJson, RetryConfig.toJson, LoggingConfig.toJson, Json.record, List.map,
        Json.render, Json.toList_renderAt_object, Json.fieldsText_cons_cons,
        Json.fieldsText_singleton, Json.toList_renderAt_text, Json.toList_renderAt_natural,
        Json.toList_renderAt_bool, Json.toList_renderAt_null, Json.orNull, Json.toList_quote,
        Json.toList_indent, c', c]
      rfl
    case hafter | hsplit | hsplit' => decide +kernel
  exact ⟨by decide, by decide, hjson, hsilent,
    load_of_substitute (by decide) (by decide) hjson hsilent hreplaced, by decide⟩

end Config

end SyncLedger
