/-
  SyncLedger/Proofs/KeyReading.lean
  =================================
  **What keys are read as.**  Reading a file or version key accepts exactly what writing makes of
  short names (`parseFile?_eq_some_iff`, `parseVersion?_eq_some_iff`).  With what is known of the
  writing this makes the layout as a whole exact (`layout_exact`).

  A name of 2 ^ 32 bytes or more can be asked for but not be stored: only the rest of its length
  is written before it.  The key of such a name is never that of a short one
  (`file_bytes_inj_of_short`, `version_bytes_inj_of_short`), and the prefix of such a root covers
  no file of a short name (`filesOf_prefix_file_iff`).  The latter is not a matter of lengths
  alone.  The length of the path would have to stand where the name of the root goes on, and it
  would begin with the byte 255, which is in no text.
-/
import SyncLedger.Proofs.Keys

namespace SyncLedger

namespace Bytes

/-! ### Bytes of a text -/

/-- A character is written without the byte 255. -/
theorem ne_of_mem_utf8EncodeChar {c : Char} {x : UInt8} (h : x ∈ String.utf8EncodeChar c) :
    x ≠ 255 := by
  have hbyte {n : Nat} (hn : n < 255) : UInt8.ofNat n ≠ 255 := by
    intro heq
    have hnat := congrArg UInt8.toNat heq
    rw [UInt8.toNat_ofNat', Nat.mod_eq_of_lt (by omega)] at hnat
    exact absurd hnat (Nat.ne_of_lt hn)
  unfold String.utf8EncodeChar at h
  simp only at h
  split at h
  · obtain rfl := List.mem_singleton.1 h
    exact hbyte (by omega)
  · split at h
    · rcases List.mem_pair.1 h with rfl | rfl
      · exact hbyte (by omega)
      · exact hbyte (by omega)
    · split at h
      · simp only [List.mem_cons, List.not_mem_nil, or_false] at h
        rcases h with rfl | rfl | rfl
        all_goals exact hbyte (by omega)
      · simp only [List.mem_cons, List.not_mem_nil, or_false] at h
        rcases h with rfl | rfl | rfl | rfl
        all_goals exact hbyte (by omega)

theorem ne_of_mem_ofText {s : String} {x : UInt8} (h : x ∈ ofText s) : x ≠ 255 := by
  obtain ⟨cs, hcs⟩ := s.isValidUTF8
  have hmem : x ∈ cs.flatMap String.utf8EncodeChar := by
    simpa [ofText, hcs, List.utf8Encode] using h
  obtain ⟨c, _, hx⟩ := List.mem_flatMap.1 hmem
  exact ne_of_mem_utf8EncodeChar hx

/-- Any bytes are those of the number that they denote. -/
theorem bigEndian_ofBigEndian (b : Bytes) : bigEndian b.length (ofBigEndian b) = b := by
  have hnumber : ofBigEndian (bigEndian b.length (ofBigEndian b)) = ofBigEndian b := by
    rw [ofBigEndian_bigEndian]
    exact Nat.mod_eq_of_lt (ofBigEndian_lt b)
  have hlength : (bigEndian b.length (ofBigEndian b)).length = b.length := length_bigEndian _ _
  apply List.le_antisymm
  · intro hlt
    rw [lt_iff_ofBigEndian_lt hlength.symm, hnumber] at hlt
    exact Nat.lt_irrefl _ hlt
  · intro hlt
    rw [lt_iff_ofBigEndian_lt hlength, hnumber] at hlt
    exact Nat.lt_irrefl _ hlt

end Bytes

namespace Key

variable {r p q o : String} {k x y : Bytes}

/-! ### Reading accepts what writing makes -/

theorem readSegment?_eq_some_iff {b rest : Bytes} {name : String} :
    readSegment? b = some (name, rest) ↔ Short name ∧ b = segment name ++ rest := by
  constructor
  · intro h
    unfold readSegment? at h
    split at h
    · contradiction
    · rename_i hfour
      simp only at h
      split at h
      · contradiction
      · rename_i hlong
        obtain ⟨s, hs, heq⟩ := Option.map_eq_some_iff.1 h
        obtain ⟨rfl, rfl⟩ := Prod.ext_iff.1 heq
        have hfront : (b.take 4).length = 4 := by
          rw [List.length_take]
          omega
        have htext := Bytes.ofText_of_text? hs
        have hsize : s.utf8ByteSize = Bytes.ofBigEndian (b.take 4) := by
          rw [← Bytes.length_ofText, htext, List.length_take]
          omega
        have hbound := Bytes.ofBigEndian_lt (b.take 4)
        rw [hfront] at hbound
        refine ⟨?_, ?_⟩
        · rw [Short, hsize]
          exact hbound
        · have hlength := Bytes.bigEndian_ofBigEndian (b.take 4)
          rw [hfront] at hlength
          rw [segment, hsize, hlength, htext, List.append_assoc, List.take_append_drop,
            List.take_append_drop]
  · rintro ⟨hshort, rfl⟩
    exact readSegment?_segment hshort rest

theorem after?_eq_some_iff {mark b : Bytes} : after? mark b = some x ↔ b = mark ++ x := by
  unfold after?
  constructor
  · intro h
    split at h
    · rename_i hstarts
      obtain ⟨rest, rfl⟩ := List.isPrefixOf_iff_prefix.1 hstarts
      rw [List.drop_left] at h
      rw [Option.some.inj h]
    · contradiction
  · rintro rfl
    simp

/-- A key is read as that of a file just if it is the key of one with short names. -/
theorem parseFile?_eq_some_iff :
    parseFile? k = some (r, p) ↔ (Short r ∧ Short p) ∧ k = (Key.file r p).bytes := by
  constructor
  · intro h
    simp only [parseFile?, Option.bind_eq_bind, Option.bind_eq_some_iff] at h
    obtain ⟨body, hbody, ⟨r', rest⟩, hr, ⟨p', rest'⟩, hp, h⟩ := h
    obtain rfl := after?_eq_some_iff.1 hbody
    obtain ⟨hroot, rfl⟩ := readSegment?_eq_some_iff.1 hr
    obtain ⟨hpath, rfl⟩ := readSegment?_eq_some_iff.1 hp
    simp only at h
    split at h
    · rename_i hend
      obtain ⟨rfl, rfl⟩ := Prod.ext_iff.1 (Option.some.inj h)
      rw [List.isEmpty_iff.1 hend, List.append_nil, bytes_file]
      exact ⟨⟨hroot, hpath⟩, rfl⟩
    · contradiction
  · rintro ⟨⟨hr, hp⟩, rfl⟩
    exact parseFile?_bytes hr hp

/-- A key is read as that of a version just if it is the key of one with short names. -/
theorem parseVersion?_eq_some_iff {ts : UInt64} :
    parseVersion? k = some (r, p, ts) ↔ (Short r ∧ Short p) ∧ k = (Key.version r p ts).bytes := by
  constructor
  · intro h
    simp only [parseVersion?, Option.bind_eq_bind, Option.bind_eq_some_iff] at h
    obtain ⟨body, hbody, ⟨r', rest⟩, hr, ⟨p', rest'⟩, hp, h⟩ := h
    obtain rfl := after?_eq_some_iff.1 hbody
    obtain ⟨hroot, rfl⟩ := readSegment?_eq_some_iff.1 hr
    obtain ⟨hpath, rfl⟩ := readSegment?_eq_some_iff.1 hp
    simp only at h
    split at h
    · rename_i height
      simp only [Option.pure_def, Option.some.injEq, Prod.mk.injEq] at h
      obtain ⟨rfl, rfl, rfl⟩ := h
      have hbound := Bytes.ofBigEndian_lt rest'
      rw [height] at hbound
      have hnumber : (UInt64.ofNat (Bytes.ofBigEndian rest')).toNat = Bytes.ofBigEndian rest' :=
        UInt64.toNat_ofNat_of_lt' hbound
      have hbytes := Bytes.bigEndian_ofBigEndian rest'
      rw [height] at hbytes
      rw [bytes_version, hnumber, hbytes]
      exact ⟨⟨hroot, hpath⟩, rfl⟩
    · contradiction
  · rintro ⟨⟨hr, hp⟩, rfl⟩
    exact parseVersion?_bytes hr hp ts

/-! ### Names of any length -/

/-- A segment in front of bytes is that of a short name, or its name goes on for 2 ^ 32 bytes or
    more behind the short one. -/
theorem segment_append_cases (hq : Short q) (h : segment r ++ x = segment q ++ y) :
    (r = q ∧ x = y) ∨
      ∃ z, z ++ x = y ∧ 2 ^ 32 ≤ z.length ∧ ∀ b ∈ z, b ≠ 255 := by
  have hfront (name : String) (w : Bytes) :
      (segment name ++ w).take 4 = Bytes.bigEndian 4 name.utf8ByteSize := by
    rw [segment, List.append_assoc]
    exact List.take_left' (Bytes.length_bigEndian 4 _)
  have hback (name : String) (w : Bytes) :
      (segment name ++ w).drop 4 = Bytes.ofText name ++ w := by
    rw [segment, List.append_assoc]
    exact List.drop_left' (Bytes.length_bigEndian 4 _)
  have hlengths := congrArg (fun b => Bytes.ofBigEndian (b.take 4)) h
  simp only [hfront, Bytes.ofBigEndian_bigEndian] at hlengths
  rw [Nat.mod_eq_of_lt (show q.utf8ByteSize < 256 ^ 4 from hq)] at hlengths
  have htexts := congrArg (List.drop 4) h
  rw [hback, hback] at htexts
  have hle : (Bytes.ofText q).length ≤ (Bytes.ofText r).length := by
    rw [Bytes.length_ofText, Bytes.length_ofText, ← hlengths]
    exact Nat.mod_le _ _
  obtain ⟨z, hz⟩ : Bytes.ofText q <+: Bytes.ofText r :=
    List.prefix_of_prefix_length_le ⟨y, htexts.symm⟩
      (List.prefix_append _ _) hle
  rw [← hz, List.append_assoc, List.append_cancel_left_eq] at htexts
  have hsize := congrArg List.length hz
  rw [List.length_append, Bytes.length_ofText, Bytes.length_ofText] at hsize
  by_cases hnil : z = []
  · subst hnil
    left
    rw [List.append_nil] at hz
    exact ⟨(Bytes.ofText_injective hz).symm, htexts⟩
  · right
    refine ⟨z, htexts, ?_, ?_⟩
    · have hpos := List.length_pos_iff.2 hnil
      omega
    · intro b hb
      exact Bytes.ne_of_mem_ofText (hz ▸ List.mem_append_right _ hb)

theorem length_segment (name : String) : (segment name).length = 4 + name.utf8ByteSize := by
  simp [segment]

/-- The key of a file of short names is the key of no other file, however long its names. -/
theorem file_bytes_inj_of_short (hq : Short q) (ho : Short o) :
    (Key.file r p).bytes = (Key.file q o).bytes ↔ r = q ∧ p = o := by
  have hlong {z : Bytes} (hz : 2 ^ 32 ≤ z.length) : z ++ segment p ≠ segment o := by
    intro h
    have hlength := congrArg List.length h
    rw [List.length_append, length_segment, length_segment] at hlength
    have hshort : o.utf8ByteSize < 2 ^ 32 := ho
    omega
  constructor
  · intro h
    rw [bytes_file, bytes_file, List.append_cancel_left_eq] at h
    rcases segment_append_cases hq h with ⟨rfl, hpath⟩ | ⟨z, hz, hsize, _⟩
    · refine ⟨rfl, ?_⟩
      have hpath' : segment p ++ [] = segment o ++ [] := by simpa using hpath
      rcases segment_append_cases ho hpath' with ⟨rfl, _⟩ | ⟨z, hz, hsize, _⟩
      · rfl
      · have hnil := congrArg List.length hz
        rw [List.length_append, List.length_nil] at hnil
        omega
    · exact absurd hz (hlong hsize)
  · rintro ⟨rfl, rfl⟩
    rfl

/-- The key of a version of short names is the key of no other version, however long its
    names. -/
theorem version_bytes_inj_of_short (hq : Short q) (ho : Short o) {ts us : UInt64} :
    (Key.version r p ts).bytes = (Key.version q o us).bytes ↔ r = q ∧ p = o ∧ ts = us := by
  have hshort : o.utf8ByteSize < 2 ^ 32 := ho
  constructor
  · intro h
    rw [bytes_version, bytes_version, List.append_cancel_left_eq] at h
    rcases segment_append_cases hq h with ⟨rfl, hpath⟩ | ⟨z, hz, hsize, _⟩
    · rcases segment_append_cases ho hpath with ⟨rfl, htime⟩ | ⟨z, hz, hsize, _⟩
      · exact ⟨rfl, rfl, timestamp_bytes_inj.1 htime⟩
      · have hlength := congrArg List.length hz
        rw [List.length_append, Bytes.length_bigEndian, Bytes.length_bigEndian] at hlength
        omega
    · have hlength := congrArg List.length hz
      simp only [List.length_append, length_segment, Bytes.length_bigEndian] at hlength
      omega
  · rintro ⟨rfl, rfl, rfl⟩
    rfl

/-- The length of a name of almost 2 ^ 32 bytes begins with the byte 255. -/
theorem head?_segment (ho : Short o) (hlong : 2 ^ 32 - 2 ^ 24 ≤ o.utf8ByteSize) :
    (segment o).head? = some 255 := by
  have hshort : o.utf8ByteSize < 2 ^ 32 := ho
  have hbyte : o.utf8ByteSize >>> (8 * 3) = 255 := by
    rw [Nat.shiftRight_eq_div_pow]
    omega
  rw [segment, Bytes.bigEndian, hbyte]
  rfl

/-- No text of 2 ^ 32 bytes begins with the segment of a short name and at most eight bytes. -/
theorem not_text_of_segment {z : Bytes} (ho : Short o) (hy : y.length ≤ 8)
    (hz : z ++ x = segment o ++ y) (hsize : 2 ^ 32 ≤ z.length) (htext : ∀ b ∈ z, b ≠ 255) :
    False := by
  have hlength := congrArg List.length hz
  simp only [List.length_append, length_segment] at hlength
  have hhead := head?_segment ho (by omega)
  cases z with
  | nil => simp at hsize
  | cons b z =>
    have hfirst := congrArg List.head? hz
    rw [List.head?_append, List.head?_append, hhead] at hfirst
    exact htext b List.mem_cons_self (Option.some.inj hfirst)

/-- In front of two short names and at most eight bytes, a segment is that of the first name. -/
theorem segment_prefix_iff_of_short (hq : Short q) (ho : Short o) (hy : y.length ≤ 8) :
    segment r <+: segment q ++ (segment o ++ y) ↔ r = q := by
  constructor
  · rintro ⟨x, h⟩
    rcases segment_append_cases hq h with ⟨rfl, _⟩ | ⟨z, hz, hsize, htext⟩
    · rfl
    · exact (not_text_of_segment ho hy hz hsize htext).elim
  · rintro rfl
    exact List.prefix_append _ _

/-- The marker of short names is the marker of nothing else, however long its names. -/
theorem marker_bytes_inj_of_short {m n : Option String} (hq : Short q) (hn : ∀ o ∈ n, Short o) :
    (Key.marker r m).bytes = (Key.marker q n).bytes ↔ r = q ∧ m = n := by
  constructor
  · intro h
    rw [bytes_marker, bytes_marker, List.append_cancel_left_eq] at h
    rcases segment_append_cases hq h with ⟨rfl, hpath⟩ | ⟨z, hz, hsize, htext⟩
    · refine ⟨rfl, ?_⟩
      cases m with
      | none =>
        cases n with
        | none => rfl
        | some o => exact absurd hpath.symm (segment_ne_nil o)
      | some p =>
        cases n with
        | none => exact absurd hpath (segment_ne_nil p)
        | some o =>
          have hpath' : segment p ++ [] = segment o ++ [] := by simpa using hpath
          rcases segment_append_cases (hn o rfl) hpath' with ⟨rfl, _⟩ | ⟨z, hz, hsize, _⟩
          · rfl
          · have hnil := congrArg List.length hz
            rw [List.length_append, List.length_nil] at hnil
            omega
    · exfalso
      cases n with
      | none =>
        have hnil := (List.append_eq_nil_iff.1 hz).1
        simp [hnil] at hsize
      | some o =>
        have hz' : z ++ (m.map segment).getD [] = segment o ++ [] := by simpa using hz
        exact not_text_of_segment (hn o rfl) (by simp) hz' hsize htext
  · rintro ⟨rfl, rfl⟩
    rfl

/-- The prefix of a root covers the files of that root and no others, however long its name. -/
theorem filesOf_prefix_file_iff (hq : Short q) (ho : Short o) :
    filesOf r <+: (Key.file q o).bytes ↔ r = q := by
  have hsegments := segment_prefix_iff_of_short (r := r) (y := []) hq ho (by simp)
  rw [List.append_nil] at hsegments
  rw [bytes_file, filesOf, List.prefix_append_right_inj, hsegments]

theorem versionsOf_prefix_version_iff (hq : Short q) (ho : Short o) {ts : UInt64} :
    versionsOf r <+: (Key.version q o ts).bytes ↔ r = q := by
  rw [bytes_version, versionsOf, List.prefix_append_right_inj]
  exact segment_prefix_iff_of_short hq ho (Bytes.length_bigEndian 8 _).le

theorem versionsAt_prefix_version_iff (hq : Short q) (ho : Short o) {ts : UInt64} :
    versionsAt r p <+: (Key.version q o ts).bytes ↔ r = q ∧ p = o := by
  constructor
  · intro h
    obtain rfl := (versionsOf_prefix_version_iff hq ho).1 ((List.prefix_append _ _).trans h)
    refine ⟨rfl, ?_⟩
    rw [bytes_version, versionsAt, versionsOf, List.append_assoc, List.prefix_append_right_inj,
      List.prefix_append_right_inj] at h
    obtain ⟨x, hx⟩ := h
    rcases segment_append_cases ho hx with ⟨rfl, _⟩ | ⟨z, hz, hsize, _⟩
    · rfl
    · have hlength := congrArg List.length hz
      rw [List.length_append, Bytes.length_bigEndian] at hlength
      omega
  · rintro ⟨rfl, rfl⟩
    exact List.prefix_append _ _

/-! ### Families -/

/-- A key has one mark. -/
theorem mark_unique (hx : x <+: k) (hy : y <+: k) (hlength : x.length = y.length) : x = y :=
  (List.prefix_of_prefix_length_le hx hy hlength.le).eq_of_length hlength

/-- A key is not that of a file and of a version. -/
theorem files_apart_versions (hx : files <+: x) (hy : versions <+: y) (k : Bytes)
    (h : x <+: k) : ¬ y <+: k := by
  intro h'
  exact absurd (mark_unique (hx.trans h) (hy.trans h') rfl) (by decide)

theorem parseFile?_of_not_prefix (h : ¬ files <+: k) : parseFile? k = none := by
  simp [parseFile?, after?, h]

theorem parseVersion?_of_not_prefix (h : ¬ versions <+: k) : parseVersion? k = none := by
  simp [parseVersion?, after?, h]

/-! ### The layout -/

theorem parseFile?_eq_none_iff :
    parseFile? k = none ↔ ∀ r p, Short r → Short p → k ≠ (Key.file r p).bytes := by
  rw [Option.eq_none_iff_forall_ne_some]
  constructor
  · intro h r p hr hp hk
    exact h (r, p) (parseFile?_eq_some_iff.2 ⟨⟨hr, hp⟩, hk⟩)
  · rintro h ⟨r, p⟩ hread
    obtain ⟨⟨hr, hp⟩, hk⟩ := parseFile?_eq_some_iff.1 hread
    exact h r p hr hp hk

theorem parseVersion?_eq_none_iff :
    parseVersion? k = none ↔ ∀ r p ts, Short r → Short p → k ≠ (Key.version r p ts).bytes := by
  rw [Option.eq_none_iff_forall_ne_some]
  constructor
  · intro h r p ts hr hp hk
    exact h (r, p, ts) (parseVersion?_eq_some_iff.2 ⟨⟨hr, hp⟩, hk⟩)
  · rintro h ⟨r, p, ts⟩ hread
    obtain ⟨⟨hr, hp⟩, hk⟩ := parseVersion?_eq_some_iff.1 hread
    exact h r p ts hr hp hk

/-- **The key layout is unambiguous, is read back exactly, and is in order.**  Different keys of
    short names have different bytes.  Of all byte strings the key of a file is read as that file
    and as nothing else, the same for versions, and what is no such key is refused.  The prefix of
    a root, or of a path, covers the keys of that root or path alone.  The versions of a path stand
    in the order of their timestamps. -/
theorem layout_exact :
    (∀ k l : Key, k.Fits → l.Fits → (k.bytes = l.bytes ↔ k = l)) ∧
    (∀ b : Bytes,
      (∀ r p, Short r → Short p → (parseFile? b = some (r, p) ↔ b = (Key.file r p).bytes)) ∧
      (parseFile? b = none ↔ ∀ r p, Short r → Short p → b ≠ (Key.file r p).bytes) ∧
      (∀ r p ts, Short r → Short p →
        (parseVersion? b = some (r, p, ts) ↔ b = (Key.version r p ts).bytes)) ∧
      (parseVersion? b = none ↔
        ∀ r p ts, Short r → Short p → b ≠ (Key.version r p ts).bytes)) ∧
    (∀ r, Short r → ∀ k : Key, k.Fits →
      (filesOf r <+: k.bytes ↔ ∃ p, k = .file r p) ∧
      (versionsOf r <+: k.bytes ↔ ∃ p ts, k = .version r p ts) ∧
      ∀ p, Short p → (versionsAt r p <+: k.bytes ↔ ∃ ts, k = .version r p ts)) ∧
    ∀ r p ts us, (Key.version r p ts).bytes < (Key.version r p us).bytes ↔ ts < us := by
  refine ⟨fun k l => bytes_inj, ?_, ?_, fun r p ts us => version_lt_iff r p⟩
  · intro b
    refine ⟨fun r p hr hp => ?_, parseFile?_eq_none_iff, fun r p ts hr hp => ?_,
      parseVersion?_eq_none_iff⟩
    · rw [parseFile?_eq_some_iff]
      exact and_iff_right ⟨hr, hp⟩
    · rw [parseVersion?_eq_some_iff]
      exact and_iff_right ⟨hr, hp⟩
  · intro r hr k hk
    exact ⟨filesOf_prefix_iff hr hk, versionsOf_prefix_iff hr hk,
      fun p hp => versionsAt_prefix_iff hr hp hk⟩

/-- The files of `/docs` and of its longer neighbour are kept apart, whatever is in the names. -/
theorem layout_of_neighbours :
    let inner := Key.file "/docs" "2/\x00a"
    let outer := Key.file "/docs2" "/\x00a"
    inner.Fits ∧ outer.Fits ∧ inner.bytes ≠ outer.bytes ∧
      parseFile? outer.bytes = some ("/docs2", "/\x00a") ∧ parseVersion? outer.bytes = none ∧
      ¬ filesOf "/docs" <+: outer.bytes ∧
      (Key.version "/docs" "2" 255).bytes < (Key.version "/docs" "2" 256).bytes := by
  intro inner outer
  have hinner : inner.Fits := ⟨by decide, by decide⟩
  have houter : outer.Fits := ⟨by decide, by decide⟩
  obtain ⟨hinj, hread, hcovers, horder⟩ := layout_exact
  obtain ⟨hfile, -, -, hversion⟩ := hread outer.bytes
  refine ⟨hinner, houter, ?_, ?_, ?_, ?_, (horder _ _ _ _).2 (by decide)⟩
  · rw [Ne, hinj inner outer hinner houter]
    simp [inner, outer]
  · exact (hfile "/docs2" "/\x00a" houter.1 houter.2).2 rfl
  · refine hversion.2 fun r p ts hr hp heq => ?_
    have hkey : (Key.version r p ts).Fits := ⟨hr, hp⟩
    have hsame := (hinj outer _ houter hkey).1 heq
    simp [outer] at hsame
  · rw [(hcovers "/docs" hinner.1 outer houter).1]
    simp [outer]

end Key

end SyncLedger
