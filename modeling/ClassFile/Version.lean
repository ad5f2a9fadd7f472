/-
# Versions of the class file format

Versions are ordered by their major number first.  From 50.0 on the verifier reads stack map
frames.
-/
import ClassFile.Bytes

namespace ClassFile

/-- The version of a class file, written as major and minor number. -/
structure Version where
  major : UInt16
  minor : UInt16
  deriving DecidableEq, Repr

namespace Version

/-- The first version with stack map frames. -/
def firstWithFrames : Version := ⟨50, 0⟩

/-- The first version with nest mates and dynamic constants. -/
def firstWithNests : Version := ⟨55, 0⟩

/-- Compares the major numbers, then the minor ones. -/
def compare (a b : Version) : Ordering :=
  (Ord.compare a.major b.major).then (Ord.compare a.minor b.minor)

/-- Does the verifier expect stack map frames? -/
def usesStackMapFrames (v : Version) : Bool := (v.compare firstWithFrames).isGE

/-- The minor number comes first. -/
def put (b : Bytes) (v : Version) : Bytes := (b.putU16 v.minor).putU16 v.major

end Version

end ClassFile
