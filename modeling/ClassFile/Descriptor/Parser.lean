/-
# Reading descriptors

Each reader takes the characters it needs from the front of a text and returns what is left.
`FieldType.parse` and `MethodType.parse` read a whole text; what a descriptor cannot hold is a
`DescriptorError`, which says what was missing or out of place.

Reading a field type always takes at least one character (`readFieldType_length`), which is why
the reader of a parameter list ends.
-/
import ClassFile.Descriptor.Basic

namespace ClassFile

/-! ## 1. Errors -/

/-- Why a text is no descriptor. -/
inductive DescriptorError where
  | leftover (c : Char)
  | noBaseType
  | notBaseType (c : Char)
  | noSemicolon (name : String)
  | emptyName
  | notObject
  | notReference (c : Char)
  | noFieldType
  | notFieldType (c : Char)
  | noOpening
  | noClosing
  | malformedMethod (descriptor : String)
  deriving DecidableEq, Repr

namespace DescriptorError

/-- Did the text end too early, rather than hold something out of place? -/
def endsEarly : DescriptorError → Bool
  | noBaseType | noSemicolon _ | noFieldType | noClosing => true
  | _ => false

/-- The error in words. -/
def message : DescriptorError → String
  | leftover c => "Unexpected leftover input '" ++ c.toString ++ "'"
  | noBaseType => "Missing base type character"
  | notBaseType c => "Invalid base type character '" ++ c.toString ++ "'"
  | noSemicolon name => "Missing terminator for 'L" ++ name ++ "'"
  | emptyName => "Empty class name in object type"
  | notObject => "Expected object type to start with `L`"
  | notReference c => "Invalid reference type character '" ++ c.toString ++ "'"
  | noFieldType => "Missing field type"
  | notFieldType c => "Invalid field type character '" ++ c.toString ++ "'"
  | noOpening => "Expected '(' for method"
  | noClosing => "Expected ')' for method"
  | malformedMethod descriptor => "Malformed method descriptor '" ++ descriptor ++ "'"

end DescriptorError

namespace Descriptor

/-- A reader's answer: what it read and the text that is left, or an error. -/
abbrev Read (α : Type) := Except DescriptorError (α × List Char)

/-! ## 2. Readers -/

/-- Reads the letter of a base type. -/
def readBase : List Char → Read BaseType
  | [] => .error .noBaseType
  | c :: rest =>
    match BaseType.ofLetter? c with
    | some t => .ok (t, rest)
    | none => .error (.notBaseType c)

/-- Reads a class name up to its semicolon; `name` holds the characters already read, the last
one first. -/
def readName (name : List Char) : List Char → Read String
  | [] => .error (.noSemicolon (String.ofList name.reverse))
  | c :: rest =>
    if c = ';' then
      if name.isEmpty then .error .emptyName else .ok (String.ofList name.reverse, rest)
    else readName (c :: name) rest

/-- Reads a class: `L`, its name, and a semicolon. -/
def readObject : List Char → Read String
  | 'L' :: rest => readName [] rest
  | _ => .error .notObject

/-- Reads what stands behind the brackets of an array type. -/
def readElement : List Char → Read ElementType
  | 'L' :: rest => (readName [] rest).map fun (name, rest) => (.object name, rest)
  | cs => (readBase cs).map fun (t, rest) => (.base t, rest)

/-- Reads brackets, then an element type. -/
def readArray (dimensions : Nat) : List Char → Read FieldType
  | '[' :: rest => readArray (dimensions + 1) rest
  | cs => (readElement cs).map fun (e, rest) => (⟨dimensions, e⟩, rest)

/-- Reads a class or an array type. -/
def readReference : List Char → Read FieldType
  | [] => .error .noFieldType
  | c :: rest =>
    if c = 'L' || c = '[' then readArray 0 (c :: rest) else .error (.notReference c)

/-- Reads a field type. -/
def readFieldType : List Char → Read FieldType
  | [] => .error .noFieldType
  | c :: rest =>
    if c = 'L' || c = '[' then readArray 0 (c :: rest)
    else
      match BaseType.ofLetter? c with
      | some t => .ok (.base t, rest)
      | none => .error (.notFieldType c)

/-! ## 3. Readers take something -/

theorem readBase_length {cs rest : List Char} {t : BaseType} (h : readBase cs = .ok (t, rest)) :
    rest.length < cs.length := by
  unfold readBase at h
  split at h
  · cases h
  · split at h
    · cases h
      simp
    · cases h

theorem readName_length {name cs rest : List Char} {s : String}
    (h : readName name cs = .ok (s, rest)) : rest.length < cs.length := by
  induction cs generalizing name with
  | nil => simp [readName] at h
  | cons c cs ih =>
    unfold readName at h
    split at h
    · split at h
      · cases h
      · cases h
        simp
    · have := ih h
      simp
      omega

theorem readElement_length {cs rest : List Char} {e : ElementType}
    (h : readElement cs = .ok (e, rest)) : rest.length < cs.length := by
  unfold readElement at h
  split at h
  · rename_i cs
    cases hr : readName [] cs with
    | error => simp [hr, Except.map] at h
    | ok v =>
      simp only [hr, Except.map, Except.ok.injEq, Prod.mk.injEq] at h
      have := readName_length hr
      simp
      rw [← h.2]
      omega
  · cases hr : readBase cs with
    | error => simp [hr, Except.map] at h
    | ok v =>
      simp only [hr, Except.map, Except.ok.injEq, Prod.mk.injEq] at h
      have := readBase_length hr
      rw [← h.2]
      omega

theorem readArray_length {dimensions : Nat} {cs rest : List Char} {t : FieldType}
    (h : readArray dimensions cs = .ok (t, rest)) : rest.length < cs.length := by
  fun_induction readArray dimensions cs with
  | case1 dimensions cs ih =>
    have := ih h
    simp
    omega
  | case2 dimensions cs =>
    cases hr : readElement cs with
    | error => simp [hr, Except.map] at h
    | ok v =>
      simp only [hr, Except.map, Except.ok.injEq, Prod.mk.injEq] at h
      have := readElement_length hr
      rw [← h.2]
      omega

/-- Reading a field type takes at least one character. -/
theorem readFieldType_length {cs rest : List Char} {t : FieldType}
    (h : readFieldType cs = .ok (t, rest)) : rest.length < cs.length := by
  unfold readFieldType at h
  split at h
  · cases h
  · split at h
    · exact readArray_length h
    · split at h
      · cases h
        simp
      · cases h

/-! ## 4. Method types and whole texts -/

/-- Reads parameters up to the closing parenthesis, and drops it; `done` holds the parameters
already read, the last one first. -/
def readParameters (done : List FieldType) (cs : List Char) : Read (List FieldType) :=
  match cs with
  | [] => .error .noClosing
  | ')' :: rest => .ok (done.reverse, rest)
  | c :: rest =>
    match _h : readFieldType (c :: rest) with
    | .error e => .error e
    | .ok (t, rest') => readParameters (t :: done) rest'
termination_by cs.length
decreasing_by exact readFieldType_length ‹_›

/-- Reads a result type, where `V` stands for none. -/
def readResult : List Char → Read (Option FieldType)
  | 'V' :: rest => .ok (none, rest)
  | cs => (readFieldType cs).map fun (t, rest) => (some t, rest)

/-- Reads a method type. -/
def readMethodType : List Char → Except DescriptorError (MethodType × List Char)
  | '(' :: rest => do
    let (parameters, rest) ← readParameters [] rest
    let (result, rest) ← readResult rest
    return (⟨parameters, result⟩, rest)
  | _ => .error .noOpening

/-- A reader's answer for a text that has to be used up. -/
def whole {α : Type} : Read α → Except DescriptorError α
  | .error e => .error e
  | .ok (_, c :: _) => .error (.leftover c)
  | .ok (x, []) => .ok x

end Descriptor

/-- Parses the letter of a base type. -/
def BaseType.parse (s : String) : Except DescriptorError BaseType :=
  Descriptor.whole (Descriptor.readBase s.toList)

/-- Parses the descriptor of a class; gives the name of the class. -/
def Descriptor.parseObject (s : String) : Except DescriptorError String :=
  Descriptor.whole (Descriptor.readObject s.toList)

/-- Parses the descriptor of a class or an array type. -/
def FieldType.parseReference (s : String) : Except DescriptorError FieldType :=
  Descriptor.whole (Descriptor.readReference s.toList)

/-- Parses the descriptor of a field. -/
def FieldType.parse (s : String) : Except DescriptorError FieldType :=
  Descriptor.whole (Descriptor.readFieldType s.toList)

/-- Parses the descriptor of a method. -/
def MethodType.parse (s : String) : Except DescriptorError MethodType :=
  Descriptor.whole (Descriptor.readMethodType s.toList)

end ClassFile
