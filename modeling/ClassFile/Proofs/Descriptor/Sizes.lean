/-
# The walk over bytes agrees with the parser

`argumentAndResultSlots` walks over the bytes of a descriptor, `MethodType.parse` over its
characters.  A position of the walk and a rest of the text correspond when the rest is what is ahead
of the position (`Ahead`).  The two compare bytes and characters with the same ASCII letters, and
in UTF-8 such a letter is one byte that is part of no other character, so they take the same types one
by one (`agrees_fieldType`) and the same arguments (`counts_arguments`).

What the walk measures is the distance between two positions; the parser has taken the rendering of
a type from there (`readFieldType_eq_ok_iff`), so a type is wide exactly if that is one of two
letters.
-/
import ClassFile.Descriptor.WellFormed
import ClassFile.Proofs.Descriptor.Parser

namespace ClassFile.Descriptor

/-! ## 1. Letters in UTF-8 -/

/-- The bytes of a text. -/
def utf8 (cs : List Char) : List UInt8 := cs.flatMap String.utf8EncodeChar

@[simp] theorem utf8_nil : utf8 [] = [] := rfl

@[simp] theorem utf8_append (cs ds : List Char) : utf8 (cs ++ ds) = utf8 cs ++ utf8 ds :=
  List.flatMap_append

theorem data_toUTF8 (s : String) : s.toUTF8.data = (utf8 s.toList).toArray := by
  have h : s.toByteArray = (utf8 s.toList).toByteArray := String.utf8Encode_toList.symm
  rw [String.toUTF8, h, List.data_toByteArray]

/-- The characters that descriptors give a meaning. -/
def Ascii (c : Char) : Prop := c.toNat < 0x80

instance (c : Char) : Decidable (Ascii c) := inferInstanceAs (Decidable (c.toNat < 0x80))

theorem utf8_cons {c : Char} (hc : Ascii c) (cs : List Char) :
    utf8 (c :: cs) = c.toUInt8 :: utf8 cs := by
  have hsize : c.utf8Size = 1 := Char.utf8Size_eq_one_iff.2 (Nat.le_of_lt_succ hc)
  rw [utf8, List.flatMap_cons, String.utf8EncodeChar_eq_singleton hsize]
  rfl

theorem toNat_toUInt8 {c : Char} (hc : Ascii c) : c.toUInt8.toNat = c.toNat := by
  have hmod : c.toUInt8.toNat = c.toNat % 256 := rfl
  have hlt : c.toNat < 0x80 := hc
  omega

theorem toUInt8_inj {a c : Char} (ha : Ascii a) (hc : Ascii c) : a.toUInt8 = c.toUInt8 ↔ a = c := by
  rw [← UInt8.toNat_inj, toNat_toUInt8 ha, toNat_toUInt8 hc, Char.toNat_inj]

/-- A character that is no ASCII letter has no byte in common with one. -/
theorem ne_of_mem_utf8EncodeChar {a c : Char} (ha : Ascii a) (hc : ¬ Ascii c) :
    ∀ b ∈ String.utf8EncodeChar c, b ≠ a.toUInt8 := by
  intro b hb heq
  have hge : 0x80 ≤ c.val.toNat := Nat.le_of_not_lt hc
  have hlt : b.toNat < 0x80 := by
    rw [heq, toNat_toUInt8 ha]
    exact ha
  have hbig : 0x80 ≤ b.toNat := by
    unfold String.utf8EncodeChar at hb
    simp only at hb
    split at hb
    · omega
    · split at hb
      · simp only [List.mem_cons, List.not_mem_nil, or_false] at hb
        rcases hb with rfl | rfl <;> rw [UInt8.toNat_ofNat'] <;> omega
      · split at hb
        · simp only [List.mem_cons, List.not_mem_nil, or_false] at hb
          rcases hb with rfl | rfl | rfl <;> rw [UInt8.toNat_ofNat'] <;> omega
        · simp only [List.mem_cons, List.not_mem_nil, or_false] at hb
          rcases hb with rfl | rfl | rfl | rfl <;> rw [UInt8.toNat_ofNat'] <;> omega
  omega

theorem mem_utf8_iff {a : Char} (ha : Ascii a) {cs : List Char} : a.toUInt8 ∈ utf8 cs ↔ a ∈ cs := by
  constructor
  · intro h
    obtain ⟨c, hc, hb⟩ := List.mem_flatMap.1 h
    by_cases hascii : Ascii c
    · have heq : utf8 [c] = [c.toUInt8] := utf8_cons hascii []
      have hmem : a.toUInt8 ∈ utf8 [c] := List.mem_flatMap.2 ⟨c, by simp, hb⟩
      rw [heq, List.mem_singleton, toUInt8_inj ha hascii] at hmem
      exact hmem ▸ hc
    · exact absurd rfl (ne_of_mem_utf8EncodeChar ha hascii _ hb)
  · intro h
    obtain ⟨front, back, rfl⟩ := List.append_of_mem h
    simp [utf8_cons ha]

/-- The first byte of a text is a letter exactly if the first character is. -/
theorem head?_utf8_eq_iff {a : Char} (ha : Ascii a) {cs : List Char} :
    (utf8 cs).head? = some a.toUInt8 ↔ cs.head? = some a := by
  cases cs with
  | nil => simp
  | cons c cs =>
    by_cases hc : Ascii c
    · rw [utf8_cons hc, List.head?_cons, List.head?_cons, Option.some_inj, Option.some_inj,
        toUInt8_inj hc ha]
    · have hne : c ≠ a := fun h => hc (h ▸ ha)
      obtain ⟨b, bs, hbytes⟩ := List.exists_cons_of_ne_nil (String.utf8EncodeChar_ne_nil (c := c))
      have hb : b ≠ a.toUInt8 :=
        ne_of_mem_utf8EncodeChar ha hc b (by rw [hbytes]; simp)
      rw [utf8, List.flatMap_cons, hbytes]
      simp [hb, hne]

/-- The bytes of a text are one letter exactly if the text is. -/
theorem utf8_eq_singleton_iff {a : Char} (ha : Ascii a) {cs : List Char} :
    utf8 cs = [a.toUInt8] ↔ cs = [a] := by
  constructor
  · intro h
    have hhead := (head?_utf8_eq_iff ha).1 (by rw [h]; rfl)
    obtain ⟨rest, rfl⟩ := List.head?_eq_some_iff.1 hhead
    rw [utf8_cons ha] at h
    cases rest with
    | nil => rfl
    | cons c rest =>
      have hne := String.utf8EncodeChar_ne_nil (c := c)
      simp [utf8, hne] at h
  · rintro rfl
    exact utf8_cons ha []

theorem utf8_eq_nil_iff {cs : List Char} : utf8 cs = [] ↔ cs = [] := by
  cases cs with
  | nil => simp
  | cons c cs => simp [utf8, String.utf8EncodeChar_ne_nil]

/-! ## 2. Positions -/

/-- The text `cs` is what is ahead of a position of the bytes. -/
def Ahead (bytes : Bytes) (position : Nat) (cs : List Char) : Prop :=
  ∃ front : List UInt8, front.length = position ∧ bytes = (front ++ utf8 cs).toArray

section

variable {bytes : Bytes} {position stop : Nat} {cs ds : List Char} {a : Char}

theorem ahead_toUTF8 (s : String) : Ahead s.toUTF8.data 0 s.toList :=
  ⟨[], rfl, data_toUTF8 s⟩

theorem Ahead.getElem?_eq_iff (h : Ahead bytes position cs) (ha : Ascii a) :
    bytes[position]? = some a.toUInt8 ↔ cs.head? = some a := by
  obtain ⟨front, rfl, rfl⟩ := h
  rw [← head?_utf8_eq_iff ha, List.head?_eq_getElem?, List.getElem?_toArray,
    List.getElem?_append_right (Nat.le_refl _), Nat.sub_self]

theorem Ahead.append (ds : List Char) (h : Ahead bytes position (ds ++ cs)) :
    Ahead bytes (position + (utf8 ds).length) cs := by
  obtain ⟨front, rfl, rfl⟩ := h
  exact ⟨front ++ utf8 ds, by simp, by simp⟩

theorem Ahead.tail (h : Ahead bytes position (a :: cs)) (ha : Ascii a) :
    Ahead bytes (position + 1) cs := by
  have htail := Ahead.append [a] h
  rwa [utf8_cons ha] at htail

theorem Ahead.eq_size_iff (h : Ahead bytes position cs) : position = bytes.size ↔ cs = [] := by
  obtain ⟨front, rfl, rfl⟩ := h
  rw [← utf8_eq_nil_iff, ← List.length_eq_zero_iff]
  simp

/-- Two positions with the same text ahead are the same. -/
theorem Ahead.unique (h : Ahead bytes position cs) (h' : Ahead bytes stop cs) : position = stop := by
  obtain ⟨front, rfl, rfl⟩ := h
  obtain ⟨front', rfl, heq⟩ := h'
  have hsize := congrArg Array.size heq
  simp at hsize
  exact hsize

theorem Ahead.extract (h : Ahead bytes position (ds ++ cs)) (h' : Ahead bytes stop cs) :
    (bytes.extract position stop).toList = utf8 ds := by
  obtain rfl := (Ahead.append ds h).unique h'
  obtain ⟨front, rfl, rfl⟩ := h
  simp

theorem Ahead.extract_eq_iff (h : Ahead bytes position (ds ++ cs)) (h' : Ahead bytes stop cs)
    (ha : Ascii a) : bytes.extract position stop = #[a.toUInt8] ↔ ds = [a] := by
  rw [← Array.toList_inj, h.extract h', utf8_eq_singleton_iff ha]

theorem Ahead.end (h : Ahead bytes position cs) : Ahead bytes bytes.size [] := by
  obtain ⟨front, rfl, rfl⟩ := h
  exact ⟨front ++ utf8 cs, by simp, by simp⟩

/-! ## 3. Field types -/

/-- A walk over bytes and a reader of characters either take the same part of a text or refuse
it. -/
inductive Agrees (bytes : Bytes) {α : Type} : Option Nat → Read α → Prop where
  | took {stop : Nat} {x : α} {rest : List Char} (h : Ahead bytes stop rest) :
    Agrees bytes (some stop) (.ok (x, rest))
  | refused {e : DescriptorError} : Agrees bytes none (.error e)

theorem Agrees.map {α β : Type} {o : Option Nat} {r : Read α} (h : Agrees bytes o r) (f : α → β) :
    Agrees bytes o (r.map fun (x, rest) => (f x, rest)) := by
  cases h with
  | took h => exact .took h
  | refused => exact .refused

theorem Agrees.eq_none {α : Type} {o : Option Nat} {e : DescriptorError}
    (h : Agrees bytes o (.error e : Read α)) : o = none := by
  cases h
  rfl

theorem Agrees.exists_stop {α : Type} {o : Option Nat} {x : α} {rest : List Char}
    (h : Agrees bytes o (.ok (x, rest))) : ∃ stop, o = some stop ∧ Ahead bytes stop rest := by
  cases h with
  | took h => exact ⟨_, rfl, h⟩

theorem bracketsEnd_of_bracket (h : Ahead bytes position ('[' :: cs)) :
    bracketsEnd bytes position = bracketsEnd bytes (position + 1) := by
  rw [bracketsEnd, dif_pos ((h.getElem?_eq_iff (by decide)).2 rfl)]

theorem bracketsEnd_of_not_bracket (h : Ahead bytes position cs)
    (hcs : ∀ rest, cs ≠ '[' :: rest) : bracketsEnd bytes position = position := by
  have hhead : ¬ bytes[position]? = some '['.toUInt8 := by
    rw [h.getElem?_eq_iff (by decide), List.head?_eq_some_iff]
    rintro ⟨rest, rfl⟩
    exact hcs rest rfl
  rw [bracketsEnd, dif_neg hhead]

/-- The letter of a base type is the first byte exactly if it is the first character. -/
theorem Ahead.mem_baseLetters_iff (h : Ahead bytes position cs) :
    (∃ b, bytes[position]? = some b ∧ b ∈ baseLetters) ↔ ∃ t : BaseType, cs.head? = some t.letter := by
  have hascii : ∀ t : BaseType, Ascii t.letter := by
    intro t
    cases t <;> decide
  constructor
  · rintro ⟨b, hb, hmem⟩
    obtain ⟨l, hl, rfl⟩ := List.mem_map.1 hmem
    have hletter : ∀ l ∈ ['Z', 'B', 'C', 'S', 'I', 'F', 'J', 'D'], ∃ t : BaseType, l = t.letter := by
      have hof : ∀ l ∈ ['Z', 'B', 'C', 'S', 'I', 'F', 'J', 'D'], (BaseType.ofLetter? l).isSome := by
        simp [BaseType.ofLetter?]
      intro l hl
      obtain ⟨t, ht⟩ := Option.isSome_iff_exists.1 (hof l hl)
      exact ⟨t, BaseType.ofLetter?_eq_some_iff.1 ht⟩
    obtain ⟨t, rfl⟩ := hletter l hl
    exact ⟨t, (h.getElem?_eq_iff (hascii t)).1 hb⟩
  · rintro ⟨t, ht⟩
    exact ⟨t.letter.toUInt8, (h.getElem?_eq_iff (hascii t)).2 ht, by cases t <;> decide⟩

theorem Ahead.extract_size (h : Ahead bytes position cs) :
    bytes.extract position bytes.size = (utf8 cs).toArray := by
  rw [← Array.toList_inj, Ahead.extract (by simpa using h) h.end]

theorem findIdx?_utf8_of_notMem (hcs : ';' ∉ cs) :
    (utf8 cs).findIdx? (· == ';'.toUInt8) = none := by
  rw [List.findIdx?_eq_none_iff]
  intro b hb
  rw [beq_eq_false_iff_ne]
  rintro rfl
  exact hcs ((mem_utf8_iff (by decide)).1 hb)

/-- The first semicolon among the bytes is the first one of the text. -/
theorem findIdx?_utf8_append (hds : ';' ∉ ds) :
    (utf8 (ds ++ ';' :: cs)).findIdx? (· == ';'.toUInt8) = some (utf8 ds).length := by
  rw [utf8_append, utf8_cons (by decide), List.findIdx?_append, findIdx?_utf8_of_notMem hds]
  simp [List.findIdx?_cons]

/-- A class name is taken up to its semicolon, and refused without one or if it is empty. -/
theorem agrees_object (h : Ahead bytes position ('L' :: cs)) :
    Agrees bytes (elementEnd? bytes position) (readName [] cs) := by
  have hfirst : bytes[position]? = some 'L'.toUInt8 := (h.getElem?_eq_iff (by decide)).2 rfl
  rw [elementEnd?, hfirst, Option.bind_eq_bind, Option.bind_some, if_pos rfl, h.extract_size,
    List.findIdx?_toArray]
  by_cases hcs : ';' ∈ cs
  · obtain ⟨name, rest, rfl, hname⟩ := List.eq_append_cons_of_mem hcs
    have hL : ';' ∉ 'L' :: name := by simpa using hname
    have hlen : (utf8 ('L' :: name)).length = (utf8 name).length + 1 := by
      rw [utf8_cons (by decide), List.length_cons]
    rw [show 'L' :: (name ++ ';' :: rest) = ('L' :: name) ++ ';' :: rest from rfl,
      findIdx?_utf8_append hL, hlen]
    by_cases hne : name = []
    · subst hne
      exact .refused
    · have hread : readName [] (name ++ ';' :: rest) = .ok (String.ofList name, rest) :=
        readName_eq_ok_iff.2 ⟨name, rfl, hname, hne, rfl⟩
      have hpos : (utf8 name).length ≠ 0 := by
        rwa [Ne, List.length_eq_zero_iff, utf8_eq_nil_iff]
      have hstop : Ahead bytes (position + ((utf8 name).length + 1) + 1) rest := by
        have hbehind := Ahead.append ('L' :: name) h
        rw [hlen] at hbehind
        exact hbehind.tail (by decide)
      rw [hread]
      obtain ⟨n, hn⟩ := Nat.exists_eq_succ_of_ne_zero hpos
      rw [hn] at hstop ⊢
      exact .took hstop
  · have hL : ';' ∉ 'L' :: cs := by simpa using hcs
    rw [findIdx?_utf8_of_notMem hL]
    cases hread : readName [] cs with
    | error e => exact .refused
    | ok v =>
      obtain ⟨more, rfl, -⟩ := readName_eq_ok_iff.1 hread
      simp at hcs

/-- A letter is taken if it is one of a base type. -/
theorem agrees_base (h : Ahead bytes position cs) (hcs : ∀ rest, cs ≠ 'L' :: rest) :
    Agrees bytes (elementEnd? bytes position) (readBase cs) := by
  have hnot : bytes[position]? ≠ some 'L'.toUInt8 := by
    rw [Ne, h.getElem?_eq_iff (by decide), List.head?_eq_some_iff]
    rintro ⟨rest, rfl⟩
    exact hcs rest rfl
  have hmem := h.mem_baseLetters_iff
  cases hread : readBase cs with
  | error e =>
    have hletter : ¬ ∃ t : BaseType, cs.head? = some t.letter := by
      rintro ⟨t, ht⟩
      obtain ⟨rest, rfl⟩ := List.head?_eq_some_iff.1 ht
      rw [readBase_eq_ok_iff.2 rfl] at hread
      exact nomatch hread
    have hend : elementEnd? bytes position = none := by
      rw [elementEnd?]
      cases hb : bytes[position]? with
      | none => rfl
      | some b =>
        rw [Option.bind_eq_bind, Option.bind_some, if_neg fun heq => hnot (hb.trans (by rw [heq])),
          if_neg fun hb' => hletter (hmem.1 ⟨b, hb, hb'⟩)]
    rw [hend]
    exact .refused
  | ok v =>
    obtain ⟨t, rest⟩ := v
    obtain rfl := readBase_eq_ok_iff.1 hread
    obtain ⟨b, hb, hb'⟩ := hmem.2 ⟨t, rfl⟩
    have hend : elementEnd? bytes position = some (position + 1) := by
      rw [elementEnd?, hb, Option.bind_eq_bind, Option.bind_some,
        if_neg fun heq => hnot (hb.trans (by rw [heq])), if_pos hb']
      rfl
    rw [hend]
    exact .took (h.tail (by cases t <;> decide))

theorem agrees_element (h : Ahead bytes position cs) :
    Agrees bytes (elementEnd? bytes position) (readElement cs) := by
  unfold readElement
  split
  · exact (agrees_object h).map _
  · rename_i hcs
    exact (agrees_base h hcs).map _

theorem agrees_array (h : Ahead bytes position cs) (dimensions : Nat) :
    Agrees bytes (fieldTypeEnd? bytes position) (readArray dimensions cs) := by
  fun_induction readArray dimensions cs generalizing position with
  | case1 dimensions cs ih =>
    rw [fieldTypeEnd?, bracketsEnd_of_bracket h]
    exact ih (h.tail (by decide))
  | case2 dimensions cs hcs =>
    rw [fieldTypeEnd?, bracketsEnd_of_not_bracket h hcs]
    exact (agrees_element h).map _

/-- **The walk and the parser take the same field types.** -/
theorem agrees_fieldType (h : Ahead bytes position cs) :
    Agrees bytes (fieldTypeEnd? bytes position) (readFieldType cs) := by
  have harray := agrees_array h 0
  cases hread : readFieldType cs with
  | error e =>
    cases hr : readArray 0 cs with
    | error e' =>
      rw [hr] at harray
      rw [harray.eq_none]
      exact .refused
    | ok v =>
      rw [readFieldType_eq_ok_iff_readArray.2 hr] at hread
      exact nomatch hread
  | ok v => rwa [readFieldType_eq_ok_iff_readArray.1 hread] at harray

/-- What the walk measures are the slots of the type that the parser takes. -/
theorem slotsBetween_eq {t : FieldType} (h : Ahead bytes position cs)
    (hread : readFieldType cs = .ok (t, ds)) (hstop : Ahead bytes stop ds) :
    slotsBetween bytes position stop = t.slots := by
  obtain ⟨-, rfl⟩ := readFieldType_eq_ok_iff.1 hread
  have hJ := h.extract_eq_iff hstop (a := 'J') (by decide)
  have hD := h.extract_eq_iff hstop (a := 'D') (by decide)
  simp only [slotsBetween, t.slots_eq, hJ, hD]

/-! ## 4. Methods -/

/-- The walk counts the slots of the parameters that the parser reads, up to the same closing
parenthesis, or both refuse. -/
inductive Counts (bytes : Bytes) : Option (Nat × Nat) → Read (List FieldType) → Prop where
  | took {closing : Nat} {parameters : List FieldType} {rest : List Char}
      (h : Ahead bytes closing (')' :: rest)) :
    Counts bytes (some (MethodType.parameterSlots ⟨parameters, none⟩ true, closing))
      (.ok (parameters, rest))
  | refused {e : DescriptorError} : Counts bytes none (.error e)

theorem Counts.eq_none {o : Option (Nat × Nat)} {e : DescriptorError}
    (h : Counts bytes o (.error e)) : o = none := by
  cases h
  rfl

theorem Counts.exists_closing {o : Option (Nat × Nat)} {parameters : List FieldType}
    {rest : List Char} (h : Counts bytes o (.ok (parameters, rest))) :
    ∃ closing, o = some (MethodType.parameterSlots ⟨parameters, none⟩ true, closing) ∧
      Ahead bytes closing (')' :: rest) := by
  cases h with
  | took h => exact ⟨_, rfl, h⟩

theorem extract_succ {b : UInt8} (hb : bytes[position]? = some b) :
    bytes.extract position (position + 1) = #[b] := by
  obtain ⟨hlt, rfl⟩ := Array.getElem?_eq_some_iff.1 hb
  rw [Array.extract_succ_right (Nat.lt_succ_self position) hlt, Array.extract_empty_of_stop_le_start
    (Nat.le_refl position)]
  rfl

/-- The letter of a base type is a field type. -/
theorem fieldTypeEnd?_of_letter {b : UInt8} (hb : bytes[position]? = some b) (hmem : b ∈ baseLetters) :
    fieldTypeEnd? bytes position = some (position + 1) := by
  have hother : baseLetters.all (fun b => b != '['.toUInt8 && b != 'L'.toUInt8) = true := by decide
  obtain ⟨hbracket, hL⟩ : b ≠ '['.toUInt8 ∧ b ≠ 'L'.toUInt8 := by
    simpa using List.all_eq_true.1 hother b hmem
  have hend : bracketsEnd bytes position = position := by
    rw [bracketsEnd, dif_neg]
    rw [hb, Option.some_inj]
    exact hbracket
  rw [fieldTypeEnd?, hend, elementEnd?, hb, Option.bind_eq_bind, Option.bind_some, if_neg hL,
    if_pos hmem]
  rfl

/-- What starts with a letter of a wide type and ends behind it is wide. -/
theorem slotsBetween_of_wide {b : UInt8} (hb : bytes[position]? = some b)
    (hwide : b = 'J'.toUInt8 ∨ b = 'D'.toUInt8) : slotsBetween bytes position (position + 1) = 2 := by
  rw [slotsBetween, extract_succ hb, if_pos]
  rcases hwide with rfl | rfl
  · exact .inl rfl
  · exact .inr rfl

/-- What starts with another letter is not. -/
theorem slotsBetween_of_not_wide {b : UInt8} (hb : bytes[position]? = some b)
    (hwide : ¬ (b = 'J'.toUInt8 ∨ b = 'D'.toUInt8)) : slotsBetween bytes position stop = 1 := by
  have hfirst : ∀ letter, bytes.extract position stop = #[letter] → b = letter := by
    intro letter h
    have hzero : (bytes.extract position stop)[0]? = some letter := by rw [h]; rfl
    rw [Array.getElem?_extract, Nat.add_zero, hb] at hzero
    split at hzero
    · exact Option.some.inj hzero
    · exact nomatch hzero
  rw [slotsBetween, if_neg]
  exact fun h => hwide (h.imp (hfirst _) (hfirst _))

theorem countArguments_of_none {slots : Nat} (hclosing : bytes[position]? ≠ some ')'.toUInt8)
    (hend : fieldTypeEnd? bytes position = none) : countArguments bytes slots position = none := by
  rw [countArguments]
  split
  · rfl
  · rename_i first hfirst
    rw [if_neg fun h => hclosing (hfirst.trans (congrArg some h))]
    split
    · rename_i hwide
      have hmem : first ∈ baseLetters := by rcases hwide with rfl | rfl <;> decide
      cases hend.symm.trans (fieldTypeEnd?_of_letter hfirst hmem)
    · split
      · rfl
      · rename_i stop heq
        cases hend.symm.trans heq

theorem countArguments_of_some {slots : Nat} (hclosing : bytes[position]? ≠ some ')'.toUInt8)
    (hend : fieldTypeEnd? bytes position = some stop) :
    countArguments bytes slots position =
      countArguments bytes (slots + slotsBetween bytes position stop) stop := by
  rw [countArguments]
  split
  · rename_i hnone
    obtain ⟨hlt, hle⟩ := lt_of_fieldTypeEnd? hend
    have hge := Array.getElem?_eq_none_iff.1 hnone
    omega
  · rename_i first hfirst
    rw [if_neg fun h => hclosing (hfirst.trans (congrArg some h))]
    split
    · rename_i hwide
      have hmem : first ∈ baseLetters := by rcases hwide with rfl | rfl <;> decide
      cases hend.symm.trans (fieldTypeEnd?_of_letter hfirst hmem)
      rw [slotsBetween_of_wide hfirst hwide]
    · rename_i hwide
      rw [slotsBetween_of_not_wide hfirst hwide]
      split
      · rename_i heq
        cases hend.symm.trans heq
      · rename_i stop' heq
        cases hend.symm.trans heq
        rfl

theorem countArguments_of_closing {slots : Nat} (hclosing : bytes[position]? = some ')'.toUInt8) :
    countArguments bytes slots position = some (slots, position) := by
  rw [countArguments]
  split
  · rename_i hnone
    cases hclosing.symm.trans hnone
  · rename_i first hfirst
    rw [if_pos (Option.some.inj (hfirst.symm.trans hclosing))]

theorem parameterSlots_reverse_cons (t : FieldType) (done : List FieldType) :
    MethodType.parameterSlots ⟨(t :: done).reverse, none⟩ true =
      MethodType.parameterSlots ⟨done.reverse, none⟩ true + t.slots := by
  simp [MethodType.parameterSlots]

/-- **The walk and the parser take the same arguments.**  The slots so far are those of the parameters
so far. -/
theorem counts_arguments (h : Ahead bytes position cs) (done : List FieldType) :
    Counts bytes (countArguments bytes (MethodType.parameterSlots ⟨done.reverse, none⟩ true) position)
      (readParameters done cs) := by
  have hhead := h.getElem?_eq_iff (a := ')') (by decide)
  have hagrees := agrees_fieldType h
  fun_induction readParameters done cs generalizing position with
  | case1 done =>
    rw [countArguments_of_none (by rw [Ne, hhead]; simp) hagrees.eq_none]
    exact .refused
  | case2 done rest =>
    rw [countArguments_of_closing (hhead.2 rfl)]
    exact .took h
  | case3 done c rest hc e hread =>
    have hne : bytes[position]? ≠ some ')'.toUInt8 := by
      rw [Ne, hhead]
      simpa using fun h => hc h
    rw [hread] at hagrees
    rw [countArguments_of_none hne hagrees.eq_none]
    exact .refused
  | case4 done c rest hc t rest' hread ih =>
    have hne : bytes[position]? ≠ some ')'.toUInt8 := by
      rw [Ne, hhead]
      simpa using fun h => hc h
    rw [hread] at hagrees
    obtain ⟨stop, hend, hstop⟩ := hagrees.exists_stop
    rw [countArguments_of_some hne hend, slotsBetween_eq h hread hstop, ← parameterSlots_reverse_cons]
    exact ih hstop (hstop.getElem?_eq_iff (by decide)) (agrees_fieldType hstop)

/-- The result takes the same slots, and both refuse one that does not use up the text. -/
theorem resultSlots?_eq (h : Ahead bytes position cs) :
    resultSlots? bytes position =
      (whole (readResult cs)).toOption.map fun result => MethodType.resultSlots ⟨[], result⟩ := by
  have hvoid : bytes.extract position bytes.size = #['V'.toUInt8] ↔ cs = ['V'] := by
    have hsplit : Ahead bytes position (cs ++ []) := by simpa using h
    exact hsplit.extract_eq_iff h.end (by decide)
  have hagrees := agrees_fieldType h
  rw [resultSlots?]
  by_cases hV : ∃ rest, cs = 'V' :: rest
  · obtain ⟨rest, rfl⟩ := hV
    cases rest with
    | nil =>
      rw [if_pos (hvoid.2 rfl)]
      rfl
    | cons c rest =>
      have hrefused : fieldTypeEnd? bytes position = none := hagrees.eq_none
      rw [if_neg (by rw [hvoid]; simp), hrefused]
      rfl
  · rw [if_neg fun heq => hV ⟨[], hvoid.1 heq⟩, readResult.eq_2 cs fun rest heq => hV ⟨rest, heq⟩]
    cases hread : readFieldType cs with
    | error e =>
      rw [hread] at hagrees
      rw [hagrees.eq_none]
      rfl
    | ok v =>
      obtain ⟨t, rest⟩ := v
      rw [hread] at hagrees
      obtain ⟨stop, hend, hstop⟩ := hagrees.exists_stop
      simp only [hend, hstop.eq_size_iff, slotsBetween_eq h hread hstop]
      cases rest <;> rfl

theorem readMethodType_of_parameters {parameters : List FieldType} {rest : List Char}
    (hread : readParameters [] cs = .ok (parameters, rest)) :
    readMethodType ('(' :: cs) = (readResult rest).map fun v => (⟨parameters, v.1⟩, v.2) := by
  rw [readMethodType, hread]
  change (Except.bind (readResult rest) fun v => .ok ((⟨parameters, v.1⟩ : MethodType), v.2)) = _
  cases readResult rest <;> rfl

theorem sizes?_eq (h : Ahead bytes 0 cs) :
    sizes? bytes =
      (whole (readMethodType cs)).toOption.map fun t => (t.parameterSlots true, t.resultSlots) := by
  have hopening := h.getElem?_eq_iff (a := '(') (by decide)
  rw [sizes?]
  by_cases hcs : ∃ rest, cs = '(' :: rest
  · obtain ⟨rest, rfl⟩ := hcs
    have hcounts : Counts bytes (countArguments bytes 1 1) (readParameters [] rest) :=
      counts_arguments (h.tail (by decide)) []
    rw [if_pos (hopening.2 rfl)]
    cases hread : readParameters [] rest with
    | error e =>
      rw [hread] at hcounts
      rw [hcounts.eq_none, readMethodType, hread]
      rfl
    | ok v =>
      obtain ⟨parameters, rest'⟩ := v
      rw [hread] at hcounts
      obtain ⟨closing, hcount, hclosing⟩ := hcounts.exists_closing
      simp only [hcount, readMethodType_of_parameters hread, Option.bind_eq_bind, Option.bind_some,
        resultSlots?_eq (hclosing.tail (by decide))]
      cases hresult : readResult rest' with
      | error e => rfl
      | ok r =>
        obtain ⟨result, left⟩ := r
        cases left <;> rfl
  · have hne : bytes[0]? ≠ some '('.toUInt8 := by
      rw [Ne, hopening, List.head?_eq_some_iff]
      exact hcs
    rw [if_neg hne, readMethodType.eq_2 cs fun rest heq => hcs ⟨rest, heq⟩]
    rfl

/-- **Counting slots over the bytes of a descriptor is parsing it and counting the slots of its type.**
Both refuse the same texts. -/
theorem argumentAndResultSlots_eq_ok_iff (descriptor : String) (sizes : Nat × Nat) :
    argumentAndResultSlots descriptor = .ok sizes ↔
      ∃ t, MethodType.parse descriptor = .ok t ∧ sizes = (t.parameterSlots true, t.resultSlots) := by
  rw [argumentAndResultSlots, sizes?_eq (ahead_toUTF8 descriptor), MethodType.parse]
  cases whole (readMethodType descriptor.toList) with
  | error e => simp [Except.toOption]
  | ok t => simp [Except.toOption, eq_comm]

/-! ## 5. Results -/

/-- Text is decoded from where it is ahead. -/
theorem Ahead.decode (h : Ahead bytes position cs) :
    String.fromUTF8? ⟨bytes.extract position bytes.size⟩ = some (String.ofList cs) := by
  have hbytes : (⟨bytes.extract position bytes.size⟩ : ByteArray) = (String.ofList cs).toByteArray := by
    rw [h.extract_size, String.toByteArray_ofList]
    exact ByteArray.ext List.data_toByteArray.symm
  rw [hbytes, String.fromUTF8?, dif_pos (String.isValidUTF8 _)]
  rfl

/-- The walk finds the result type where the parser reads it. -/
theorem resultStart?_cases (h : Ahead bytes 0 cs) :
    (∃ parameters rest start, readMethodType cs =
        ((readResult rest).map fun v => (⟨parameters, v.1⟩, v.2)) ∧
      resultStart? bytes = some start ∧ Ahead bytes start rest) ∨
    (∃ e, readMethodType cs = .error e) ∧ resultStart? bytes = none := by
  have hopening := h.getElem?_eq_iff (a := '(') (by decide)
  rw [resultStart?]
  by_cases hcs : ∃ rest, cs = '(' :: rest
  · obtain ⟨rest, rfl⟩ := hcs
    have hcounts : Counts bytes (countArguments bytes 1 1) (readParameters [] rest) :=
      counts_arguments (h.tail (by decide)) []
    rw [if_pos (hopening.2 rfl)]
    cases hread : readParameters [] rest with
    | error e =>
      rw [hread] at hcounts
      exact .inr ⟨⟨e, by rw [readMethodType, hread]; rfl⟩, by rw [hcounts.eq_none]; rfl⟩
    | ok v =>
      obtain ⟨parameters, rest'⟩ := v
      rw [hread] at hcounts
      obtain ⟨closing, hcount, hclosing⟩ := hcounts.exists_closing
      exact .inl ⟨parameters, rest', closing + 1, readMethodType_of_parameters hread,
        by rw [hcount]; rfl, hclosing.tail (by decide)⟩
  · have hne : bytes[0]? ≠ some '('.toUInt8 := by
      rw [Ne, hopening, List.head?_eq_some_iff]
      exact hcs
    exact .inr ⟨⟨_, readMethodType.eq_2 cs fun rest heq => hcs ⟨rest, heq⟩⟩, if_neg hne⟩

/-- **Passing over the arguments loses nothing**: the result is that of the type of the method, and the
same descriptors are refused. -/
theorem methodResult_eq (descriptor : String) :
    methodResult descriptor = (methodType descriptor).map MethodType.result := by
  have hahead := ahead_toUTF8 descriptor
  rw [methodResult, methodType, MethodType.parse]
  rcases resultStart?_cases hahead with ⟨parameters, rest, start, hread, hstart, hrest⟩ |
    ⟨⟨e, hread⟩, hstart⟩
  · have hdecode : String.fromUTF8? (descriptor.toUTF8.extract start descriptor.toUTF8.size) =
        some (String.ofList rest) := by
      rw [← hrest.decode]
      exact congrArg String.fromUTF8? (ByteArray.ext ByteArray.data_extract)
    simp only [hstart, Option.bind_some, hdecode, String.toList_ofList, hread]
    cases hresult : readResult rest with
    | error e => rfl
    | ok v =>
      obtain ⟨result, left⟩ := v
      cases left <;> rfl
  · rw [hread]
    simp only [hstart]
    rfl

end

end ClassFile.Descriptor
