/-
# Constructors for subclasses

Every constructor of a class calls one of its super class.  For generated subclasses any of them
will do, so the one with the shortest descriptor is chosen; it has the fewest arguments to make
up.  From another package only public and protected constructors can be called.

Finding constructors takes reading the super class.  A `ConstructorCache` remembers them by the
name of the class, so that no class is read twice.
-/
import ClassFile.ClassBytes.Events
import Std.Data.HashMap.Basic

namespace ClassFile

/-- The shortest descriptors among the constructors of a class. -/
structure Constructors where
  /-- Among the public and protected ones. -/
  accessible : Option String
  /-- Among all that are not private. -/
  package : Option String
  deriving DecidableEq, Repr

namespace Constructors

/-- The shorter one of the best descriptor so far and another one; of two that have the same
length, the first one. -/
def shorter (best : Option String) (descriptor : String) : Option String :=
  match best with
  | some b => if descriptor.utf8ByteSize < b.utf8ByteSize then some descriptor else some b
  | none => some descriptor

/-- Considers a method. -/
def add (c : Constructors) (m : MethodInfo) : Constructors :=
  if m.name ≠ "<init>" || AccessFlags.isPrivate m.access then c
  else
    { accessible :=
        if AccessFlags.isPublicOrProtected m.access then shorter c.accessible m.descriptor
        else c.accessible
      package := shorter c.package m.descriptor }

/-- The constructors of a class, which is read without going into its members. -/
def ofClass (c : ClassBytes) : Except Error Constructors := do
  let (answer, events) := (c.events .none).all
  answer
  return events.foldl (fun found e =>
    match e with
    | .method info _ => found.add info
    | _ => found) ⟨none, none⟩

/-- The package of a class: its name up to the last slash. -/
def packageOf (className : String) : List Char :=
  ((className.toList.reverse.dropWhile (· ≠ '/')).drop 1).reverse

/-- The descriptor for a class with a name, where these are the constructors of `superclass`. -/
def choose (c : Constructors) (superclass className : String) : Option String :=
  if packageOf className = packageOf superclass then c.package else c.accessible

end Constructors

/-- The constructors of classes by their names. -/
structure ConstructorCache where
  known : Std.HashMap String Constructors

namespace ConstructorCache

/-- No class is known. -/
def empty : ConstructorCache := ⟨∅⟩

/-- The number of classes that are known. -/
def size (c : ConstructorCache) : Nat := c.known.size

end ConstructorCache

/-- A look-up that may fail, with a cache that is kept in both cases. -/
abbrev CacheM := ExceptT Error (StateM ConstructorCache)

namespace ConstructorCache

/-- The constructors of a class with a name, which is read if it is not known yet. -/
def constructors (name : String) (source : ClassBytes) : CacheM Constructors := do
  match (← get).known[name]? with
  | some found => return found
  | none =>
    let found ← Constructors.ofClass source
    modify fun c => ⟨c.known.insert name found⟩
    return found

/-- The descriptor of the constructor that a class calls, when its super class is in a class
file.  A class file that cannot be read is not remembered. -/
def find (className : String) (superclass : Bytes) : CacheM (Option String) := do
  let source ← ClassBytes.ofBytes superclass
  let name ← source.className
  let found ← constructors name source
  return found.choose name className

end ConstructorCache

end ClassFile
