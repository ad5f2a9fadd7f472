/-
# The cache of constructors

A look-up in a `ConstructorCache` that has been used before answers as if the first class file of each
name that could be replayed had been kept, and nothing else (`find_transparent`): the cache changes
only which of two class files of the same name counts.  The answer is the first one of the shortest
descriptors of the constructors that the class can call (`isShortest_choose`), and a look-up that fails
leaves the cache as it is.

What a history of look-ups leaves in the cache is said by `Remembers`, without the cache; each look-up
keeps it (`Remembers.find`).
-/
import ClassFile.Constructors
import ClassFile.Proofs.Stateful
import Mathlib.Data.Finset.Card
import Mathlib.Data.List.Induction
import Mathlib.Data.List.TakeWhile
import Std.Data.HashMap.Lemmas

namespace ClassFile

/-! ## 1. The shortest descriptor -/

namespace Constructors

/-- It is the first one of the shortest descriptors, or there is no descriptor. -/
def IsShortest (descriptors : List String) : Option String → Prop
  | none => descriptors = []
  | some d => ∃ before after, descriptors = before ++ d :: after ∧
      (∀ e ∈ before, d.utf8ByteSize < e.utf8ByteSize) ∧
        ∀ e ∈ after, d.utf8ByteSize ≤ e.utf8ByteSize

theorem IsShortest.snoc {descriptors : List String} {best : Option String}
    (h : IsShortest descriptors best) (d : String) :
    IsShortest (descriptors ++ [d]) (shorter best d) := by
  cases best with
  | none =>
    obtain rfl : descriptors = [] := h
    exact ⟨[], [], rfl, List.forall_mem_nil _, List.forall_mem_nil _⟩
  | some b =>
    obtain ⟨before, after, rfl, hbefore, hafter⟩ := h
    rw [shorter]
    split
    case isTrue hlt =>
      refine ⟨before ++ b :: after, [], rfl, ?_, List.forall_mem_nil _⟩
      intro e he
      rcases List.mem_append.1 he with he | he
      · exact Nat.lt_trans hlt (hbefore e he)
      · rcases List.mem_cons.1 he with rfl | he
        · exact hlt
        · exact Nat.lt_of_lt_of_le hlt (hafter e he)
    case isFalse hge =>
      refine ⟨before, after ++ [d], by simp, hbefore, ?_⟩
      intro e he
      rcases List.mem_append.1 he with he | he
      · exact hafter e he
      · rw [List.mem_singleton.1 he]
        exact Nat.le_of_not_lt hge

theorem isShortest_foldl (descriptors : List String) :
    IsShortest descriptors (descriptors.foldl shorter none) := by
  induction descriptors using List.reverseRecOn with
  | nil => exact rfl
  | append_singleton ds d ih =>
    rw [List.foldl_append]
    exact ih.snoc d

/-! ## 2. Packages -/

/-- A class is in a package: its name is that of the package, a slash and a rest without one.  A name
without a slash is that of a class in the package without a name. -/
def InPackage (className : String) (package : List Char) : Prop :=
  (∃ rest, className.toList = package ++ '/' :: rest ∧ '/' ∉ rest) ∨
    '/' ∉ className.toList ∧ package = []

/-- Two classes are in the same package. -/
def SamePackage (className superclass : String) : Prop :=
  ∃ package, InPackage className package ∧ InPackage superclass package

theorem packageOf_of_append {className : String} {package rest : List Char}
    (h : className.toList = package ++ '/' :: rest) (hrest : '/' ∉ rest) :
    packageOf className = package := by
  have hskip : ∀ c ∈ rest.reverse, decide (c ≠ '/') = true := by
    intro c hc
    exact decide_eq_true fun heq => hrest (heq ▸ List.mem_reverse.1 hc)
  rw [packageOf, h, List.reverse_append, List.reverse_cons, List.append_assoc,
    List.dropWhile_append_of_pos hskip]
  simp

theorem packageOf_of_not_mem {className : String} (h : '/' ∉ className.toList) :
    packageOf className = [] := by
  have hskip : ∀ c ∈ className.toList.reverse, decide (c ≠ '/') = true := by
    intro c hc
    exact decide_eq_true fun heq => h (heq ▸ List.mem_reverse.1 hc)
  rw [packageOf, List.dropWhile_eq_nil_iff.2 hskip]
  rfl

theorem InPackage.eq_packageOf {className : String} {package : List Char}
    (h : InPackage className package) : package = packageOf className := by
  rcases h with ⟨rest, h, hrest⟩ | ⟨h, rfl⟩
  · exact (packageOf_of_append h hrest).symm
  · exact (packageOf_of_not_mem h).symm

theorem inPackage_packageOf (className : String) : InPackage className (packageOf className) := by
  by_cases hmem : '/' ∈ className.toList
  · -- The last slash is the first one from behind.
    obtain ⟨rest, package, h, hrest⟩ := List.eq_append_cons_of_mem (List.mem_reverse.2 hmem)
    have hlist : className.toList = package.reverse ++ '/' :: rest.reverse := by
      rw [← List.reverse_reverse className.toList, h]
      simp
    have hrest' : '/' ∉ rest.reverse := fun h => hrest (List.mem_reverse.1 h)
    rw [packageOf_of_append hlist hrest']
    exact .inl ⟨rest.reverse, hlist, hrest'⟩
  · exact .inr ⟨hmem, packageOf_of_not_mem hmem⟩

theorem samePackage_iff {className superclass : String} :
    SamePackage className superclass ↔ packageOf className = packageOf superclass := by
  constructor
  · rintro ⟨package, hclass, hsuper⟩
    rw [← hclass.eq_packageOf, ← hsuper.eq_packageOf]
  · intro h
    exact ⟨packageOf className, inPackage_packageOf className, h ▸ inPackage_packageOf superclass⟩

instance (className superclass : String) : Decidable (SamePackage className superclass) :=
  decidable_of_iff _ samePackage_iff.symm

/-! ## 3. The constructors of a class -/

/-- A method is a constructor that can be called from outside of its class. -/
def isOpen (m : MethodInfo) : Bool := m.name = "<init>" && !AccessFlags.isPrivate m.access

/-- The descriptors of the constructors that a class can call: those that are public or protected, and
in the same package all that are not private. -/
def callable (className superclass : String) (methods : List MethodInfo) : List String :=
  (methods.filter fun m => isOpen m &&
    (AccessFlags.isPublicOrProtected m.access || decide (SamePackage className superclass))).map
      (·.descriptor)

/-- What is remembered of the methods of a class. -/
def ofMethods (methods : List MethodInfo) : Constructors := methods.foldl add ⟨none, none⟩

theorem add_of_open (c : Constructors) {m : MethodInfo} (h : isOpen m = true) :
    c.add m = ⟨if AccessFlags.isPublicOrProtected m.access then shorter c.accessible m.descriptor
      else c.accessible, shorter c.package m.descriptor⟩ := by
  unfold isOpen at h
  simp_all [add]

theorem add_of_not_open (c : Constructors) {m : MethodInfo} (h : isOpen m = false) : c.add m = c := by
  unfold isOpen at h
  simp_all [add]

theorem ofMethods_eq (methods : List MethodInfo) :
    ofMethods methods =
      ⟨((methods.filter fun m => isOpen m && AccessFlags.isPublicOrProtected m.access).map
          (·.descriptor)).foldl shorter none,
        ((methods.filter isOpen).map (·.descriptor)).foldl shorter none⟩ := by
  induction methods using List.reverseRecOn with
  | nil => rfl
  | append_singleton ms m ih =>
    rw [ofMethods, List.foldl_append, ← ofMethods, ih]
    simp only [List.foldl_cons, List.foldl_nil, List.filter_append, List.map_append, List.foldl_append,
      List.filter_cons, List.filter_nil]
    cases hopen : isOpen m with
    | true =>
      cases haccess : AccessFlags.isPublicOrProtected m.access <;>
        simp [add_of_open _ hopen, haccess]
    | false => simp [add_of_not_open _ hopen]

/-- **The descriptor that is chosen** is the first one of the shortest that the class can call. -/
theorem isShortest_choose (methods : List MethodInfo) (superclass className : String) :
    IsShortest (callable className superclass methods)
      ((ofMethods methods).choose superclass className) := by
  rw [ofMethods_eq, choose, callable]
  by_cases hsame : packageOf className = packageOf superclass
  · simp only [hsame, if_true, samePackage_iff, decide_true, Bool.or_true, Bool.and_true]
    exact isShortest_foldl _
  · simp only [hsame, if_false, samePackage_iff, decide_false, Bool.or_false]
    exact isShortest_foldl _

/-! ## 4. Class files -/

/-- The method that an event is about. -/
def methodInfo? : ClassEvent → Option MethodInfo
  | .method info _ => some info
  | _ => none

/-- The methods of a class in their order, when it is replayed without going into its members. -/
def methodsOf (c : ClassBytes) : Except Error (List MethodInfo) := do
  let (answer, events) := (c.events .none).all
  answer
  return events.toList.filterMap methodInfo?

theorem ofClass_eq (c : ClassBytes) : ofClass c = (methodsOf c).map ofMethods := by
  have hfold : ∀ (events : List ClassEvent) (found : Constructors),
      events.foldl (fun found e => match e with
        | .method info _ => found.add info
        | _ => found) found = (events.filterMap methodInfo?).foldl add found := by
    intro events found
    rw [List.foldl_filterMap]
    refine congrArg (fun f => events.foldl f found) (funext fun found => funext fun e => ?_)
    cases e <;> rfl
  unfold ofClass methodsOf
  rcases (c.events .none).all with ⟨e | u, events⟩
  · rfl
  · refine congrArg Except.ok ?_
    rw [ofMethods, ← hfold]
    exact (Array.foldl_toList ..).symm

end Constructors

namespace ConstructorCache

open Constructors (ofMethods methodsOf callable IsShortest)

/-- The name of the class in a class file. -/
def nameIn (b : Bytes) : Except Error String := do (← ClassBytes.ofBytes b).className

/-- The name of the class in a class file, and its methods. -/
def replay (b : Bytes) : Except Error (String × List MethodInfo) := do
  let c ← ClassBytes.ofBytes b
  let name ← c.className
  return (name, ← methodsOf c)

/-- The methods in a class file, if it can be replayed and has a class with this name. -/
def replayed? (name : String) (b : Bytes) : Option (List MethodInfo) :=
  match replay b with
  | .ok (n, methods) => if n = name then some methods else none
  | .error _ => none

/-- The names of the classes in class files, of those that can be replayed. -/
def replayedNames (bs : List Bytes) : List String :=
  bs.filterMap fun b => (replay b).toOption.map (·.1)

/-- The cache behind some look-ups, the first of which had an empty cache. -/
def after (calls : List (String × Bytes)) : ConstructorCache :=
  calls.foldl (fun cache call => ((find call.1 call.2).run cache).2) empty

/-! ## 5. One look-up -/

variable {className name : String} {b : Bytes} {cache : ConstructorCache} {e : Error}

theorem find_of_unnamed (h : nameIn b = .error e) :
    (find className b).run cache = (.error e, cache) := by
  unfold find
  rcases bind_eq_error_iff.1 h with h | ⟨c, hc, h⟩
  · rw [h]
    rfl
  · rw [hc]
    change (liftM c.className >>= _ : CacheM (Option String)) cache = _
    rw [h]
    rfl

/-- A class that has a name is looked up by it. -/
theorem find_of_named {c : ClassBytes} (hc : ClassBytes.ofBytes b = .ok c)
    (hname : c.className = .ok name) :
    find className b = (do
      let found ← constructors name c
      return found.choose name className) := by
  unfold find
  rw [hc]
  change (liftM c.className >>= _ : CacheM (Option String)) = _
  rw [hname]
  rfl

theorem replay_of_named {c : ClassBytes} (hc : ClassBytes.ofBytes b = .ok c)
    (hname : c.className = .ok name) : replay b = (methodsOf c).map fun methods => (name, methods) := by
  unfold replay
  rw [hc]
  change (c.className >>= _ : Except Error (String × List MethodInfo)) = _
  rw [hname]
  cases methodsOf c <;> rfl

theorem nameIn_of_replay {methods : List MethodInfo} (h : replay b = .ok (name, methods)) :
    nameIn b = .ok name := by
  obtain ⟨c, hc, h⟩ := bind_eq_ok_iff.1 h
  obtain ⟨n, hn, h⟩ := bind_eq_ok_iff.1 h
  obtain ⟨ms, -, h⟩ := bind_eq_ok_iff.1 h
  cases h
  exact bind_eq_ok_iff.2 ⟨c, hc, hn⟩

theorem constructors_apply (name : String) (c : ClassBytes) (cache : ConstructorCache) :
    (constructors name c).run cache = match cache.known[name]? with
      | some found => (.ok found, cache)
      | none => match methodsOf c with
        | .error e => (.error e, cache)
        | .ok methods => (.ok (ofMethods methods), ⟨cache.known.insert name (ofMethods methods)⟩) := by
  have hget : (constructors name c).run cache = ((match cache.known[name]? with
      | some found => pure found
      | none => do
        let found ← Constructors.ofClass c
        modify fun c => ⟨c.known.insert name found⟩
        return found : CacheM Constructors).run cache) := rfl
  rw [hget]
  cases cache.known[name]? with
  | some found => rfl
  | none =>
    rw [Constructors.ofClass_eq]
    cases methodsOf c <;> rfl

/-- **The name is known**: the class file is not replayed. -/
theorem find_of_known {found : Constructors} (h : nameIn b = .ok name)
    (hknown : cache.known[name]? = some found) :
    (find className b).run cache = (.ok (found.choose name className), cache) := by
  obtain ⟨c, hc, hname⟩ := bind_eq_ok_iff.1 h
  have happly := constructors_apply name c cache
  rw [hknown] at happly
  rw [find_of_named hc hname]
  exact returns_bind.2 ⟨found, cache, happly, rfl⟩

/-- **The name is new**: the class file is replayed, and remembered if this succeeds. -/
theorem find_of_new (h : nameIn b = .ok name) (hnew : cache.known[name]? = none) :
    (find className b).run cache = match replay b with
      | .error e => (.error e, cache)
      | .ok (_, methods) => (.ok ((ofMethods methods).choose name className),
          ⟨cache.known.insert name (ofMethods methods)⟩) := by
  obtain ⟨c, hc, hname⟩ := bind_eq_ok_iff.1 h
  have happly := constructors_apply name c cache
  rw [hnew] at happly
  rw [find_of_named hc hname, replay_of_named hc hname]
  change (constructors name c >>= _ : CacheM (Option String)) cache = _
  rw [bind_apply]
  change (constructors name c) cache = _ at happly
  rw [happly]
  cases methodsOf c <;> rfl

/-! ## 6. Histories -/

/-- **What is in a cache** behind look-ups in these class files: for each name the first one that could
be replayed. -/
structure Remembers (cache : ConstructorCache) (bs : List Bytes) : Prop where
  known : ∀ name, cache.known[name]? = (bs.findSome? (replayed? name)).map ofMethods
  size : cache.size = (replayedNames bs).toFinset.card

theorem remembers_empty : Remembers empty [] where
  known name := by simp [empty]
  size := by simp [empty, size, replayedNames]

/-- A name is known if a class of that name could be replayed. -/
theorem Remembers.isSome_iff {bs : List Bytes} (h : Remembers cache bs) :
    cache.known[name]?.isSome ↔ name ∈ replayedNames bs := by
  rw [h.known, Option.isSome_map, List.isSome_findSome?, List.any_eq_true, replayedNames,
    List.mem_filterMap]
  refine exists_congr fun b => and_congr_right fun _ => ?_
  rw [replayed?]
  rcases replay b with e | ⟨n, methods⟩
  · simp [Except.toOption]
  · by_cases hn : n = name <;> simp [Except.toOption, hn]

theorem replayedNames_append (bs : List Bytes) (b : Bytes) :
    replayedNames (bs ++ [b]) = replayedNames bs ++ ((replay b).toOption.map (·.1)).toList := by
  rw [replayedNames, List.filterMap_append, ← replayedNames, List.filterMap_cons, List.filterMap_nil]
  cases (replay b).toOption <;> rfl

/-- Nothing is remembered of a class file that cannot be replayed, or of a name that is known. -/
theorem Remembers.keeps {bs : List Bytes} (h : Remembers cache bs)
    (hb : ∀ n methods, replay b = .ok (n, methods) → cache.known[n]?.isSome) :
    Remembers cache (bs ++ [b]) := by
  cases hreplay : replay b with
  | error e =>
    constructor
    · intro name
      rw [h.known, List.findSome?_append, List.findSome?_singleton, replayed?, hreplay, Option.or_none]
    · rw [h.size, replayedNames_append, hreplay]
      simp [Except.toOption]
  | ok found =>
    obtain ⟨n, methods⟩ := found
    have hknown := hb n methods hreplay
    constructor
    · intro name
      rw [h.known, List.findSome?_append, List.findSome?_singleton, replayed?, hreplay]
      by_cases hn : n = name
      · subst hn
        rw [h.known, Option.isSome_map] at hknown
        rw [Option.or_of_isSome hknown]
      · simp [hn]
    · rw [h.size, replayedNames_append, hreplay]
      have hmem := List.mem_toFinset.2 (h.isSome_iff.1 hknown)
      simp [Except.toOption, Finset.insert_eq_of_mem hmem]

/-- A class of a new name is remembered. -/
theorem Remembers.insert {bs : List Bytes} (h : Remembers cache bs) {methods : List MethodInfo}
    (hb : replay b = .ok (name, methods)) (hnew : cache.known[name]? = none) :
    Remembers ⟨cache.known.insert name (ofMethods methods)⟩ (bs ++ [b]) := by
  constructor
  · intro n
    rw [Std.HashMap.getElem?_insert, List.findSome?_append, List.findSome?_singleton, replayed?, hb]
    by_cases hn : name = n
    · subst hn
      have hnone := h.known name
      rw [hnew, eq_comm, Option.map_eq_none_iff] at hnone
      simp [hnone]
    · simp [hn, h.known]
  · have hmem : name ∉ replayedNames bs := by
      rw [← h.isSome_iff, hnew]
      simp
    have hfresh : name ∉ cache.known := by
      rw [Std.HashMap.mem_iff_isSome_getElem?, hnew]
      simp
    have hmem' : name ∉ (replayedNames bs).toFinset := fun hn => hmem (List.mem_toFinset.1 hn)
    have hsize : (⟨cache.known.insert name (ofMethods methods)⟩ : ConstructorCache).size =
        cache.size + 1 := by
      rw [ConstructorCache.size, Std.HashMap.size_insert, if_neg hfresh]
      rfl
    rw [hsize, h.size, replayedNames_append, hb]
    simp [Except.toOption, Finset.card_insert_of_notMem hmem']

theorem Remembers.find {bs : List Bytes} (h : Remembers cache bs) (className : String) (b : Bytes) :
    Remembers ((ConstructorCache.find className b).run cache).2 (bs ++ [b]) := by
  cases hname : nameIn b with
  | error e =>
    rw [find_of_unnamed hname]
    refine h.keeps fun n methods hb => ?_
    cases hname.symm.trans (nameIn_of_replay hb)
  | ok name =>
    cases hknown : cache.known[name]? with
    | some found =>
      rw [find_of_known hname hknown]
      refine h.keeps fun n methods hb => ?_
      cases hname.symm.trans (nameIn_of_replay hb)
      rw [hknown]
      rfl
    | none =>
      rw [find_of_new hname hknown]
      cases hb : replay b with
      | error e =>
        refine h.keeps fun n methods hok => ?_
        rw [hb] at hok
        cases hok
      | ok found =>
        obtain ⟨n, methods⟩ := found
        cases hname.symm.trans (nameIn_of_replay hb)
        exact h.insert hb hknown

theorem remembers_after (calls : List (String × Bytes)) :
    Remembers (after calls) (calls.map (·.2)) := by
  induction calls using List.reverseRecOn with
  | nil => exact remembers_empty
  | append_singleton calls call ih =>
    rw [after, List.foldl_append, List.map_append]
    exact ih.find call.1 call.2

/-- **The cache cannot be seen** but for the class file that counts.  Behind any look-ups, one in a class
file without a name, or in one that cannot be replayed and of which no name is known, fails with that error
and leaves the cache as it is.  All others answer from the first class file of that name that could be
replayed: with the first one of the shortest descriptors that the class can call, or with none if there is
none.  The size of the cache is the number of names of classes that could be replayed. -/
theorem find_transparent (calls : List (String × Bytes)) (className : String) (superclass : Bytes) :
    (match nameIn superclass with
      | .error e => (find className superclass).run (after calls) = (.error e, after calls)
      | .ok name =>
        match (calls.map (·.2) ++ [superclass]).findSome? (replayed? name) with
        | none => ∃ e, replay superclass = .error e ∧
            (find className superclass).run (after calls) = (.error e, after calls)
        | some methods => ∃ d, ((find className superclass).run (after calls)).1 = .ok d ∧
            IsShortest (callable className name methods) d) ∧
      (after calls).size = (replayedNames (calls.map (·.2))).toFinset.card := by
  refine ⟨?_, (remembers_after calls).size⟩
  have hknown := (remembers_after calls).known
  cases hname : nameIn superclass with
  | error e => exact find_of_unnamed hname
  | ok name =>
    specialize hknown name
    dsimp only
    rw [List.findSome?_append, List.findSome?_singleton]
    cases hfirst : (calls.map (·.2)).findSome? (replayed? name) with
    | some methods =>
      rw [hfirst] at hknown
      rw [find_of_known hname hknown]
      exact ⟨_, rfl, Constructors.isShortest_choose methods name className⟩
    | none =>
      rw [hfirst] at hknown
      rw [find_of_new hname hknown, replayed?]
      cases hb : replay superclass with
      | error e => exact ⟨e, rfl, rfl⟩
      | ok found =>
        obtain ⟨n, methods⟩ := found
        cases hname.symm.trans (nameIn_of_replay hb)
        simp only [Option.none_or, if_true]
        exact ⟨_, rfl, Constructors.isShortest_choose methods name className⟩

end ConstructorCache

end ClassFile
