/-
# Nearest common super classes

Merging two object types asks for the nearest class above both.  A `Hierarchy` is whatever answers
this.  One of them knows that a class is above itself, and nothing else (`Hierarchy.empty`).  Others look
into what is known about super classes: a map from classes to their super class (`SuperclassMap`).  The
map that knows nothing answers only for a class and itself as well (`SuperclassMap.hierarchy_empty`).

The chain of ancestors in a map is cut after as many steps as the map has entries, so a cycle in the
map does no harm, and no chain without a cycle is cut short.
-/
namespace ClassFile

/-- What is asked for the nearest common super class of two classes.  The inference of frames stops
after as many changes as `depth` classes above one another account for. -/
structure Hierarchy where
  commonSuperclass : String → String → Option String
  depth : Nat

/-- Only a class and itself are known to have a common super class. -/
def Hierarchy.empty : Hierarchy := ⟨fun a b => if a = b then some a else none, 0⟩

/-- A map from classes to their super classes, at most one for each class. -/
structure SuperclassMap where
  links : List (String × String)

namespace SuperclassMap

/-- Nothing is known. -/
def empty : SuperclassMap := ⟨[]⟩

/-- Makes `superclass` the super class of a class, whatever it was before. -/
def add (m : SuperclassMap) (name superclass : String) : SuperclassMap :=
  ⟨(name, superclass) :: m.links.filter fun link => link.1 != name⟩

/-- The map to which each pair was added in order. -/
def ofList (pairs : List (String × String)) : SuperclassMap :=
  pairs.foldl (fun m (name, superclass) => m.add name superclass) empty

/-- The super class of a class, if it is known. -/
def superclass? (m : SuperclassMap) (name : String) : Option String := m.links.lookup name

/-- At most `limit + 1` classes: the class itself and its ancestors, from below. -/
def chain (m : SuperclassMap) : Nat → String → List String
  | 0, name => [name]
  | limit + 1, name =>
    name :: match m.superclass? name with
      | some superclass => m.chain limit superclass
      | none => []

/-- The class itself and all its ancestors, from below. -/
def ancestors (m : SuperclassMap) (name : String) : List String := m.chain m.links.length name

/-- The first ancestor of the second class that is also one of the first. -/
def commonSuperclass (m : SuperclassMap) (a b : String) : Option String :=
  if a = b then some a
  else
    let above := m.ancestors a
    (m.ancestors b).find? fun name => above.contains name

/-- The hierarchy that asks the map. -/
def hierarchy (m : SuperclassMap) : Hierarchy := ⟨m.commonSuperclass, m.links.length⟩

@[simp] theorem superclass?_add (m : SuperclassMap) (a superclass b : String) :
    (m.add a superclass).superclass? b = if b = a then some superclass else m.superclass? b := by
  simp only [superclass?, add, List.lookup_cons]
  by_cases hb : b = a
  · simp [hb]
  · simp only [beq_eq_false_iff_ne.2 hb, hb, if_false]
    induction m.links with
    | nil => rfl
    | cons link links ih =>
      obtain ⟨c, s⟩ := link
      by_cases hc : c = a
      · simp [hc, List.lookup_cons, beq_eq_false_iff_ne.2 hb, ih]
      · simp [hc, List.lookup_cons, ih]

/-- Knowing nothing, only a class and itself have a common super class. -/
theorem commonSuperclass_empty (a b : String) :
    empty.commonSuperclass a b = if a = b then some a else none := by
  unfold commonSuperclass
  split
  · rfl
  · rename_i h
    simp [ancestors, empty, chain, List.find?, Ne.symm h]

/-- The map that knows nothing answers as the hierarchy that knows nothing. -/
theorem hierarchy_empty : empty.hierarchy = Hierarchy.empty := by
  rw [hierarchy, Hierarchy.empty]
  congr 1
  funext a b
  exact commonSuperclass_empty a b

end SuperclassMap

/-- The hierarchy of the map to which each pair was added in order. -/
def Hierarchy.ofList (pairs : List (String × String)) : Hierarchy :=
  (SuperclassMap.ofList pairs).hierarchy

end ClassFile
