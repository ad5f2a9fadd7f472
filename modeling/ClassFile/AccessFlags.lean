/-
# Access flags

Classes, methods, fields and inner classes carry a word of flags.  Each kind of declaration
names some of the bits (`FlagKind.names`); bits without a name are kept as they are.
-/
namespace ClassFile

/-- The kinds of declarations that carry access flags. -/
inductive FlagKind where
  | ofClass
  | ofMethod
  | ofField
  | ofInnerClass
  deriving DecidableEq, Repr

/-- The bits that a kind of declaration names, in the order of their values. -/
def FlagKind.names : FlagKind → List (String × UInt16)
  | .ofClass =>
    [("PUBLIC", 0x0001), ("FINAL", 0x0010), ("SUPER", 0x0020), ("INTERFACE", 0x0200),
     ("ABSTRACT", 0x0400), ("SYNTHETIC", 0x1000), ("ANNOTATION", 0x2000), ("ENUM", 0x4000),
     ("MODULE", 0x8000)]
  | .ofMethod =>
    [("PUBLIC", 0x0001), ("PRIVATE", 0x0002), ("PROTECTED", 0x0004), ("STATIC", 0x0008),
     ("FINAL", 0x0010), ("SYNCHRONIZED", 0x0020), ("BRIDGE", 0x0040), ("VARARGS", 0x0080),
     ("NATIVE", 0x0100), ("ABSTRACT", 0x0400), ("STRICT", 0x0800), ("SYNTHETIC", 0x1000)]
  | .ofField =>
    [("PUBLIC", 0x0001), ("PRIVATE", 0x0002), ("PROTECTED", 0x0004), ("STATIC", 0x0008),
     ("FINAL", 0x0010), ("VOLATILE", 0x0040), ("TRANSIENT", 0x0080), ("SYNTHETIC", 0x1000),
     ("ENUM", 0x4000)]
  | .ofInnerClass =>
    [("PUBLIC", 0x0001), ("PRIVATE", 0x0002), ("PROTECTED", 0x0004), ("STATIC", 0x0008),
     ("FINAL", 0x0010), ("INTERFACE", 0x0200), ("ABSTRACT", 0x0400), ("SYNTHETIC", 0x1000),
     ("ANNOTATION", 0x2000), ("ENUM", 0x4000)]

/-- The names of the bits that are set. -/
def FlagKind.namesOf (kind : FlagKind) (bits : UInt16) : List String :=
  (kind.names.filter fun (_, bit) => bits &&& bit == bit).map (·.1)

/-- The bits that are set and have a name. -/
def FlagKind.knownBits (kind : FlagKind) (bits : UInt16) : UInt16 :=
  bits &&& kind.names.foldl (fun all (_, bit) => all ||| bit) 0

namespace AccessFlags

/-- Can only the declaring class use it? -/
def isPrivate (bits : UInt16) : Bool := bits &&& 0x0002 != 0

/-- Can every class, or every class below the declaring one, use it? -/
def isPublicOrProtected (bits : UInt16) : Bool := bits &&& 0x0005 != 0

/-- Does it belong to the class rather than to its instances? -/
def isStatic (bits : UInt16) : Bool := bits &&& 0x0008 != 0

/-- The bit of declarations that do not appear in the source text. -/
def syntheticBit : UInt16 := 0x1000

end AccessFlags

end ClassFile
