/-
# Annotations of parameters

A method has two tables of annotations of its parameters, one of the visible ones and one of the others.
A table has an entry for each parameter, in their order: as many as the descriptor has parameters, or as
many as are annotated if these are more.  Events fill the entries one after the other (`Tells.add`), and
at the end of the method the tables are the last ones of its attributes.

The number of entries is written as one byte, and it is not checked that it fits.  The reader takes the
number of parameters from that byte, so what it reports ends there: a table with 256 entries is read as
one without any (`parameters_lost_last`).  Up to there, annotations keep their parameters and their order
(`ClassWriter.Run.parameters_survive`), and nothing is lost just if no annotated parameter is beyond.
-/
import ClassFile.Proofs.Annotation.Survival
import ClassFile.Proofs.Code.StackHeight
import ClassFile.Proofs.Outline.Survival

namespace ClassFile

open ConstantPool

variable {h : Hierarchy} {p p' : ConstantPool} {visible : Bool} {n : Nat}

/-! ## 1. Events on parameters -/

/-- The annotation was replayed from a tree up to its end, and the numbers of its values fit. -/
def AnnotationInfo.Whole (a : AnnotationInfo) : Prop :=
  ∃ tree : Annotation, tree.CountsFit ∧ tree.descriptor = a.descriptor ∧ tree.events = a.values

namespace MethodEvent

/-- Annotations of parameters are whole. -/
def Whole : MethodEvent → Prop
  | parameterAnnotated _ a => a.Whole
  | _ => True

/-- Is the event an annotation of this parameter, in the table of this visibility? -/
def onParameter (visible : Bool) (n : Nat) : MethodEvent → Bool
  | parameterAnnotated parameter a => a.visible == visible && parameter.toNat == n
  | _ => false

/-- How many entries the table needs for the event. -/
def entriesFor (visible : Bool) : MethodEvent → Nat
  | parameterAnnotated parameter a => if a.visible = visible then parameter.toNat + 1 else 0
  | _ => 0

/-- How many entries the table needs for several events. -/
def entriesUsed (visible : Bool) (es : List MethodEvent) : Nat :=
  es.foldl (fun n e => max n (e.entriesFor visible)) 0

/-- How many entries of the table are read, in a method with so many parameters. -/
def entriesRead (visible : Bool) (parameters : Nat) (es : List MethodEvent) : Nat :=
  max (entriesUsed visible es) parameters % 256

/-- The annotations of so many parameters, in the order of the parameters, and for each in the order in
which they came. -/
def onParameters (visible : Bool) (count : Nat) (es : List MethodEvent) : List MethodEvent :=
  (List.range count).flatMap fun n => es.filter (onParameter visible n)

variable {e : MethodEvent} {es : List MethodEvent}

theorem onParameter_iff {parameter : UInt8} {a : AnnotationInfo} :
    (parameterAnnotated parameter a).onParameter visible n = true ↔
      a.visible = visible ∧ parameter.toNat = n := by
  simp [onParameter]

theorem entriesUsed_concat (es : List MethodEvent) (e : MethodEvent) :
    entriesUsed visible (es ++ [e]) = max (entriesUsed visible es) (e.entriesFor visible) := by
  rw [entriesUsed, List.foldl_append]
  rfl

theorem entriesFor_le (e : MethodEvent) : e.entriesFor visible ≤ 256 := by
  cases e with
  | parameterAnnotated parameter a =>
    rw [entriesFor]
    split
    · exact parameter.toNat_lt
    · exact Nat.zero_le _
  | _ => exact Nat.zero_le _

theorem lt_entriesFor (he : e.onParameter visible n = true) : n < e.entriesFor visible := by
  cases e with
  | parameterAnnotated parameter a =>
    obtain ⟨rfl, rfl⟩ := onParameter_iff.1 he
    simp [entriesFor]
  | _ => exact absurd he Bool.false_ne_true

theorem onParameter_of_entriesFor (he : e.entriesFor visible = n + 1) :
    e.onParameter visible n = true := by
  cases e with
  | parameterAnnotated parameter a =>
    rw [entriesFor] at he
    split at he
    · exact onParameter_iff.2 ⟨‹_›, Nat.succ.inj he⟩
    · exact absurd he.symm (Nat.succ_ne_zero n)
  | _ => exact absurd he.symm (Nat.succ_ne_zero n)

theorem entriesUsed_le (es : List MethodEvent) : entriesUsed visible es ≤ 256 := by
  induction es using List.reverseRecOn with
  | nil => exact Nat.zero_le _
  | append_singleton es e ih => exact entriesUsed_concat es e ▸ Nat.max_le.2 ⟨ih, e.entriesFor_le⟩

theorem lt_entriesUsed (he : e ∈ es) (hn : e.onParameter visible n = true) :
    n < entriesUsed visible es := by
  induction es using List.reverseRecOn with
  | nil => exact absurd he List.not_mem_nil
  | append_singleton es e' ih =>
    rw [entriesUsed_concat, lt_max_iff]
    rcases List.mem_append.1 he with he | he
    · exact .inl (ih he)
    · exact .inr (List.mem_singleton.1 he ▸ lt_entriesFor hn)

theorem exists_of_entriesUsed (hn : entriesUsed visible es = n + 1) :
    ∃ e ∈ es, e.onParameter visible n = true := by
  induction es using List.reverseRecOn with
  | nil => exact absurd hn.symm (Nat.succ_ne_zero n)
  | append_singleton es e ih =>
    rw [entriesUsed_concat] at hn
    rcases max_choice (entriesUsed visible es) (e.entriesFor visible) with hmax | hmax
    · obtain ⟨e', he', hn⟩ := ih (hmax ▸ hn)
      exact ⟨e', List.mem_append_left _ he', hn⟩
    · exact ⟨e, by simp, onParameter_of_entriesFor (hmax ▸ hn)⟩

/-- There is nothing on parameters behind the last annotated one. -/
theorem filter_onParameter_eq_nil (hn : entriesUsed visible es ≤ n) :
    es.filter (onParameter visible n) = [] :=
  List.filter_eq_nil_iff.2 fun _ he hon => absurd (lt_entriesUsed he hon) (Nat.not_lt.2 hn)

/-- **Nothing is lost** just if no annotated parameter is beyond the first ones. -/
theorem onParameters_eq_iff {count : Nat} (hcount : count ≤ 256) :
    onParameters visible count es = onParameters visible 256 es ↔ entriesUsed visible es ≤ count := by
  obtain ⟨rest, hrest⟩ := Nat.exists_eq_add_of_le hcount
  rw [hrest, onParameters, onParameters, List.range_add, List.flatMap_append, eq_comm,
    List.append_right_eq_self, List.flatMap_eq_nil_iff]
  constructor
  · intro hnil
    by_contra hlt
    obtain ⟨n, hn⟩ := Nat.exists_eq_succ_of_ne_zero (Nat.ne_zero_of_lt (Nat.not_le.1 hlt))
    obtain ⟨e, he, hon⟩ := exists_of_entriesUsed hn
    have hle : entriesUsed visible es ≤ 256 := entriesUsed_le es
    have hmem : n ∈ (List.range rest).map (count + ·) :=
      List.mem_map.2 ⟨n - count, List.mem_range.2 (by omega), by omega⟩
    exact List.filter_eq_nil_iff.1 (hnil n hmem) e he hon
  · intro hle n hn
    obtain ⟨k, -, rfl⟩ := List.mem_map.1 hn
    exact filter_onParameter_eq_nil (Nat.le_trans hle (Nat.le_add_right _ _))

end MethodEvent

open MethodEvent

/-! ## 2. Entries that are filled -/

/-- The bytes are the annotation that an event has for a parameter. -/
def MethodEvent.EncodesOn (p : ConstantPool) (visible : Bool) (n : Nat) (e : MethodEvent) (l : Bytes) :
    Prop :=
  ∃ tree : Annotation, tree.CountsFit ∧ tree.Encodes p l.toList ∧
    e = .parameterAnnotated (UInt8.ofNat n) ⟨tree.descriptor, visible, tree.events⟩

/-- The set has the annotations of these events, in their order. -/
def AnnotationSet.Tells (p : ConstantPool) (visible : Bool) (n : Nat) (s : AnnotationSet)
    (es : List MethodEvent) : Prop :=
  List.Forall₂ (EncodesOn p visible n) es s.annotations.toList

namespace AnnotationSet.Tells

variable {s : AnnotationSet} {es : List MethodEvent} {e : MethodEvent}

theorem later (hs : s.Tells p visible n es) (hle : p ≤ p') : s.Tells p' visible n es :=
  hs.imp fun _ _ ⟨tree, hfit, hencodes, he⟩ => ⟨tree, hfit, hencodes.later hle, he⟩

/-- An event on something else. -/
theorem other (hs : s.Tells p visible n (es.filter (onParameter visible n))) (hle : p ≤ p')
    (he : ¬ e.onParameter visible n = true) :
    s.Tells p' visible n ((es ++ [e]).filter (onParameter visible n)) := by
  rw [List.filter_append, List.filter_cons_of_neg he, List.filter_nil, List.append_nil]
  exact hs.later hle

/-- One more annotation. -/
theorem push (hs : s.Tells p visible n (es.filter (onParameter visible n))) (hle : p ≤ p')
    (he : e.onParameter visible n = true) {l : Bytes} (hl : e.EncodesOn p' visible n l) :
    AnnotationSet.Tells p' visible n ⟨s.annotations.push l⟩
      ((es ++ [e]).filter (onParameter visible n)) := by
  rw [List.filter_append, List.filter_cons_of_pos he, List.filter_nil, Tells, Array.toList_push]
  exact List.rel_append (hs.later hle) (.cons hl .nil)

end AnnotationSet.Tells

namespace ParameterAnnotations

/-- The sets of one visibility. -/
def sets (annotations : ParameterAnnotations) (visible : Bool) : Array AnnotationSet :=
  if visible then annotations.visible else annotations.invisible

/-- The entries are those of these events. -/
structure Tells (p : ConstantPool) (annotations : ParameterAnnotations) (es : List MethodEvent) :
    Prop where
  size : ∀ visible, (annotations.sets visible).size = entriesUsed visible es
  entry : ∀ visible n, ((annotations.sets visible).getD n .empty).Tells p visible n
    (es.filter (onParameter visible n))

variable {annotations annotations' : ParameterAnnotations} {es : List MethodEvent}

theorem tells_empty : empty.Tells p [] where
  size visible := by cases visible <;> rfl
  entry visible n := by cases visible <;> exact .nil

theorem Tells.later (ha : annotations.Tells p es) (hle : p ≤ p') : annotations.Tells p' es :=
  ⟨ha.size, fun visible n => (ha.entry visible n).later hle⟩

/-- An event that has nothing to do with parameters. -/
theorem Tells.other (ha : annotations.Tells p es) (hle : p ≤ p') {e : MethodEvent}
    (he : ∀ visible, e.entriesFor visible = 0) : annotations.Tells p' (es ++ [e]) where
  size visible := by
    rw [ha.size, entriesUsed_concat, he, Nat.max_zero]
  entry visible n := (ha.entry visible n).other hle fun hon =>
    absurd (lt_entriesFor hon) (he visible ▸ Nat.not_lt_zero n)

/-- Empty sets behind the others make the table long enough … -/
theorem size_padded (sets : Array AnnotationSet) (count : Nat) :
    (sets ++ Array.replicate (count - sets.size) AnnotationSet.empty).size = max sets.size count := by
  rw [Array.size_append, Array.size_replicate]
  omega

/-- … and cannot be told from entries that are not there. -/
theorem getD_padded (sets : Array AnnotationSet) (count n : Nat) :
    (sets ++ Array.replicate count AnnotationSet.empty).getD n .empty = sets.getD n .empty := by
  simp only [Array.getD_eq_getD_getElem?, Array.getElem?_append, Array.getElem?_replicate]
  split
  · rfl
  · rw [Array.getElem?_eq_none (Nat.not_lt.1 ‹_›)]
    split <;> rfl

/-- One annotation is pushed to the set of its parameter, for which there is an entry from then on. -/
theorem returns_addTo {sets sets' : Array AnnotationSet} {parameter : Nat} {a : AnnotationInfo}
    (hret : Returns (addTo sets parameter a) p sets' p') :
    ∃ l, Returns (AnnotationWriter.encode a.descriptor a.values) p l p' ∧
      sets'.size = max sets.size (parameter + 1) ∧ ∀ n, sets'.getD n .empty =
        if n = parameter then ⟨(sets.getD n .empty).annotations.push l⟩ else sets.getD n .empty := by
  obtain ⟨set, p₁, hadd, hret⟩ := returns_bind.1 hret
  obtain ⟨rfl, rfl⟩ := returns_pure.1 hret
  obtain ⟨l, p₂, hencode, hadd⟩ := returns_bind.1 hadd
  obtain ⟨rfl, rfl⟩ := returns_pure.1 hadd
  have hsize := size_padded sets (parameter + 1)
  refine ⟨l, hencode, (Array.size_setIfInBounds ..).trans hsize, fun n => ?_⟩
  rw [Array.getD_eq_getD_getElem?, Array.getElem?_setIfInBounds]
  by_cases hn : n = parameter
  · -- the padding is what puts the parameter in bounds
    have hlt : parameter < max sets.size (parameter + 1) := lt_max_of_lt_right (Nat.lt_succ_self _)
    rw [hn, if_pos rfl, if_pos rfl, if_pos (hsize.symm ▸ hlt), Option.getD_some, getD_padded]
  · rw [if_neg (Ne.symm hn), if_neg hn, ← Array.getD_eq_getD_getElem?, getD_padded]

theorem returns_add {parameter : UInt8} {a : AnnotationInfo}
    (hret : Returns (annotations.add parameter a) p annotations' p') :
    Returns (addTo (annotations.sets a.visible) parameter.toNat a) p (annotations'.sets a.visible) p' ∧
      annotations'.sets (!a.visible) = annotations.sets (!a.visible) := by
  unfold add at hret
  cases hvisible : a.visible <;> rw [hvisible] at hret
  all_goals
    obtain ⟨sets, p₁, hadd, hret⟩ := returns_bind.1 hret
    obtain ⟨rfl, rfl⟩ := returns_pure.1 hret
    exact ⟨hadd, rfl⟩

/-- **One more annotation of a parameter.** -/
theorem Tells.add (ha : annotations.Tells p es) (hp : p.Sound h) {parameter : UInt8}
    {a : AnnotationInfo} (hwhole : a.Whole)
    (hret : Returns (annotations.add parameter a) p annotations' p') :
    annotations'.Tells p' (es ++ [.parameterAnnotated parameter a]) := by
  obtain ⟨tree, hfit, hdescriptor, hvalues⟩ := hwhole
  obtain ⟨hadd, hother⟩ := returns_add hret
  obtain ⟨l, hencode, hsize, hentry⟩ := returns_addTo hadd
  rw [← hdescriptor, ← hvalues] at hencode
  obtain ⟨-, hle, hencodes⟩ := AnnotationWriter.encodes_encode hp hencode
  constructor
  · intro visible
    rw [entriesUsed_concat, entriesFor, ← ha.size]
    rcases Bool.eq_or_eq_not visible a.visible with rfl | rfl
    · rw [hsize, if_pos rfl]
    · rw [hother, if_neg (by simp), Nat.max_zero]
  · intro visible n
    have hkept := ha.entry visible n
    by_cases hon : (parameterAnnotated parameter a).onParameter visible n = true
    · obtain ⟨rfl, rfl⟩ := onParameter_iff.1 hon
      rw [hentry, if_pos rfl]
      refine hkept.push hle hon ⟨tree, hfit, hencodes, ?_⟩
      rw [hdescriptor, hvalues, UInt8.ofNat_toNat]
    · have hsame : (annotations'.sets visible).getD n .empty =
          (annotations.sets visible).getD n .empty := by
        rcases Bool.eq_or_eq_not visible a.visible with rfl | rfl
        · rw [hentry, if_neg fun hn => hon (onParameter_iff.2 ⟨rfl, hn.symm⟩)]
        · rw [hother]
      rw [hsame]
      exact hkept.other hle hon

end ParameterAnnotations

namespace MethodWriter

variable {m m' : MethodWriter} {c : ClassContext} {e : MethodEvent} {es done : List MethodEvent}

/-- An event, other than the end. -/
theorem tells_event (hm : m.parameterAnnotations.Tells p done) (hp : p.Sound h) (he : e ≠ .finish)
    (hwhole : e.Whole) (hle : p ≤ p') (hret : Returns (m.event c e) p m' p') :
    m'.parameterAnnotations.Tells p' (done ++ [e]) ∧ m'.attributes = m.attributes := by
  cases e
  case finish => exact absurd rfl he
  case parameterAnnotated parameter a =>
    obtain ⟨annotations, p₁, hadd, hdone⟩ := returns_bind.1 hret
    obtain ⟨rfl, rfl⟩ := returns_pure.1 hdone
    exact ⟨hm.add hp hwhole hadd, rfl⟩
  case code =>
    obtain ⟨rfl, rfl⟩ := returns_pure.1 hret
    exact ⟨hm.other hle fun _ => rfl, rfl⟩
  case default | annotated =>
    obtain ⟨_, _, -, hdone⟩ := returns_bind.1 hret
    obtain ⟨rfl, rfl⟩ := returns_pure.1 hdone
    exact ⟨hm.other hle fun _ => rfl, rfl⟩
  all_goals
    obtain ⟨_, -, rfl⟩ := returns_onCode.1 hret
    exact ⟨hm.other hle fun _ => rfl, rfl⟩

/-- **Events without an end** fill the entries; the attributes of the declaration stay. -/
theorem tells_events (hm : m.parameterAnnotations.Tells p done) (hkept : CodeWriter.Kept h m.code p)
    (hopen : .finish ∉ es) (hwhole : ∀ e ∈ es, e.Whole) (hret : Returns (m.events c es) p m' p') :
    m'.parameterAnnotations.Tells p' (done ++ es) ∧ m'.attributes = m.attributes ∧
      CodeWriter.Kept h m'.code p' ∧ p ≤ p' := by
  induction es generalizing m p done with
  | nil =>
    obtain ⟨rfl, rfl⟩ := returns_pure.1 hret
    exact ⟨(List.append_nil done).symm ▸ hm, rfl, hkept, ConstantPool.le_refl _⟩
  | cons e es ih =>
    obtain ⟨m₁, p₁, he, hrest⟩ := returns_events_cons.1 hret
    rw [List.mem_cons, not_or] at hopen
    obtain ⟨hkept₁, hle₁⟩ := kept_event hkept (Ne.symm hopen.1) he
    obtain ⟨hm₁, hattributes₁⟩ :=
      tells_event hm hkept.sound (Ne.symm hopen.1) (hwhole e (by simp)) hle₁ he
    obtain ⟨hm', hattributes, hkept', hle⟩ :=
      ih hm₁ hkept₁ hopen.2 (fun e he => hwhole e (by simp [he])) hrest
    refine ⟨?_, hattributes.trans hattributes₁, hkept', ConstantPool.le_trans hle₁ hle⟩
    rwa [List.append_assoc] at hm'

end MethodWriter

/-! ## 3. Tables that are written -/

namespace AnnotationSet

/-- A set as it is written. -/
def encoded (s : AnnotationSet) : List UInt8 :=
  wordBytes 2 (UInt16.ofNat s.annotations.size).toNat ++ s.annotations.toList.flatMap Array.toList

/-- A table with so many entries as it is written. -/
def tableEncoded (sets : Array AnnotationSet) (count : Nat) : List UInt8 :=
  UInt8.ofNat count :: (List.range count).flatMap fun n => (sets.getD n .empty).encoded

theorem toList_table (sets : Array AnnotationSet) (count : Nat) :
    ((List.range count).foldl (fun b n => (sets.getD n empty).put b)
      (Bytes.empty.putU8 (UInt8.ofNat count))).toList = tableEncoded sets count := by
  rw [Bytes.toList_foldl_put fun b n => toList_put b (sets.getD n .empty), Bytes.toList_putU8]
  rfl

theorem getD_of_all_isEmpty {sets : Array AnnotationSet} (hsets : sets.all isEmpty = true) (n : Nat) :
    sets.getD n .empty = .empty := by
  rw [Array.getD_eq_getD_getElem?]
  cases hget : sets[n]? with
  | none => rfl
  | some s =>
    obtain ⟨hn, rfl⟩ := Array.getElem?_eq_some_iff.1 hget
    have hempty : sets[n].annotations = #[] := Array.isEmpty_iff.1 (Array.all_eq_true.1 hsets n hn)
    exact congrArg mk hempty

/-- **The table of one visibility**: it is left out if all sets are empty. -/
theorem returns_parametersAttribute? {sets : Array AnnotationSet} {parameters : Nat} {name : String}
    (hp : p.Sound h) {a : Option RawAttribute}
    (hret : Returns (parametersAttribute? sets parameters name) p a p') :
    p'.Sound h ∧ p ≤ p' ∧ ((a = none ∧ ∀ n, sets.getD n .empty = .empty) ∨
      ∃ i payload, a = some ⟨i, payload⟩ ∧ p'.text? i = some name ∧
        payload.toList = tableEncoded sets (max sets.size parameters)) := by
  unfold parametersAttribute? at hret
  split at hret
  · obtain ⟨rfl, rfl⟩ := returns_pure.1 hret
    exact ⟨hp, ConstantPool.le_refl _, .inl ⟨rfl, getD_of_all_isEmpty ‹_›⟩⟩
  · obtain ⟨i, p₁, hname, hdone⟩ := returns_bind.1 hret
    obtain ⟨rfl, rfl⟩ := returns_pure.1 hdone
    obtain ⟨hs, hle, hname⟩ := hp.utf8 hname
    exact ⟨hs, hle, .inr ⟨i, _, rfl, hname, toList_table _ _⟩⟩

end AnnotationSet

/-! ## 4. Tables that are read -/

namespace ClassBytes

variable {c : ClassBytes} {o : Nat}

/-- The annotations of a set are reported one after the other. -/
theorem HoldsRecords.reads_annotations (hc : c.HoldsRecords p) {es : List MethodEvent}
    {ls : List Bytes} (hes : List.Forall₂ (EncodesOn p visible n) es ls) :
    ∀ {o : Nat} (done : Array MethodEvent), c.bytes.Has o (ls.flatMap Array.toList) →
      Returns (c.readAnnotations (fun descriptor values =>
          .parameterAnnotated (UInt8.ofNat n) ⟨descriptor, visible, values⟩) ls.length o) done
        (o + (ls.flatMap Array.toList).length) (done ++ es) := by
  induction hes with
  | nil => exact fun done _ => returns_pure.2 ⟨rfl, rfl⟩
  | @cons e l es ls he _ ih =>
    intro o done hat
    obtain ⟨tree, hfit, hencodes, rfl⟩ := he
    rw [List.flatMap_cons] at hat
    obtain ⟨htype, hread⟩ := hc.reads_annotation hencodes hfit hat.left #[]
    refine returns_bind.2 ⟨_, done, returns_lift.2 ⟨htype, rfl⟩, ?_⟩
    refine returns_bind.2 ⟨_, _, Replay.returns_nest hread done, ?_⟩
    rw [Array.toList_appendList, List.flatMap_cons, List.length_append, ← Nat.add_assoc]
    exact ih _ hat.right

/-- **An entry is read** up to where it ends. -/
theorem HoldsRecords.reads_parameter (hc : c.HoldsRecords p) {s : AnnotationSet} {es : List MethodEvent}
    (hs : s.Tells p visible n es) (hcount : es.length ≤ 65535) (hat : c.bytes.Has o s.encoded)
    (done : Array MethodEvent) :
    Returns (c.readAnnotationTable (.parameterAnnotated (UInt8.ofNat n)) visible o) done
      (o + s.encoded.length) (done ++ es) := by
  have hlength : es.length = s.annotations.size := hs.length_eq
  obtain ⟨hread, hnumber⟩ := hat.left.count (hlength ▸ hcount)
  have hrest := hat.right
  rw [length_wordBytes] at hrest
  refine returns_bind.2 ⟨_, done, returns_lift.2 ⟨hread, rfl⟩, ?_⟩
  rw [hnumber, AnnotationSet.encoded, List.length_append, length_wordBytes, ← Nat.add_assoc,
    ← Array.length_toList]
  exact hc.reads_annotations hs done hrest

/-- Entries that are read one after the other. -/
theorem HoldsRecords.reads_parameters (hc : c.HoldsRecords p) {sets : Array AnnotationSet}
    {on : Nat → List MethodEvent} (hsets : ∀ n, (sets.getD n .empty).Tells p visible n (on n))
    (hcount : ∀ n, (on n).length ≤ 65535) (ns : List Nat) :
    ∀ {o : Nat} (done : Array MethodEvent),
      c.bytes.Has o (ns.flatMap fun n => (sets.getD n .empty).encoded) →
      ∃ stop, Returns (forIn ns o fun n offset => do
          let offset ← c.readAnnotationTable (.parameterAnnotated (UInt8.ofNat n)) visible offset
          pure (.yield offset) : Replay MethodEvent Nat) done stop (done ++ ns.flatMap on) := by
  induction ns with
  | nil => exact fun done _ => ⟨_, returns_pure.2 ⟨rfl, rfl⟩⟩
  | cons n ns ih =>
    intro o done hat
    rw [List.flatMap_cons] at hat
    have hone := hc.reads_parameter (hsets n) (hcount n) hat.left done
    obtain ⟨stop, hrest⟩ := ih (done ++ on n) hat.right
    refine ⟨stop, ?_⟩
    rw [List.forIn_cons, List.flatMap_cons, appendList_append]
    exact returns_bind.2 ⟨_, _, returns_bind.2 ⟨_, _, hone, rfl⟩, hrest⟩

/-- **A table is read**, as far as the byte says that counts its entries. -/
theorem HoldsRecords.reads_parameterTable (hc : c.HoldsRecords p) {sets : Array AnnotationSet}
    {on : Nat → List MethodEvent} (hsets : ∀ n, (sets.getD n .empty).Tells p visible n (on n))
    (hcount : ∀ n, (on n).length ≤ 65535) {count : Nat}
    (hat : c.bytes.Has o (AnnotationSet.tableEncoded sets count)) (done : Array MethodEvent) :
    Returns (c.readParameterTables [(o, visible)]) done ()
      (done ++ (List.range (count % 256)).flatMap on) := by
  have hentries := hat.tail
  -- the byte counts only a front of the entries that are there
  have hsplit : count = count % 256 + (count - count % 256) := by omega
  rw [hsplit, List.range_add, List.flatMap_append] at hentries
  obtain ⟨stop, hread⟩ := hc.reads_parameters hsets hcount _ done hentries.left
  have hbyte : (UInt8.ofNat count).toNat = count % 256 := rfl
  refine returns_bind.2 ⟨(), _, ?_, rfl⟩
  rw [List.forIn_cons]
  refine returns_bind.2 ⟨.yield (), _, ?_, rfl⟩
  refine returns_bind.2 ⟨_, done, returns_lift.2 ⟨hat.head.u8At, rfl⟩, ?_⟩
  rw [hbyte]
  exact returns_bind.2 ⟨stop, _, hread, rfl⟩

theorem readParameterTables_cons (t : Nat × Bool) (ts : List (Nat × Bool)) :
    c.readParameterTables (t :: ts) = (do
      c.readParameterTables [t]
      c.readParameterTables ts) := by
  simp [readParameterTables]

/-- Tables that are read one after the other. -/
theorem returns_readParameterTables_append {ts ts' : List (Nat × Bool)} {s s₁ s₂ : Array MethodEvent}
    (hfirst : Returns (c.readParameterTables ts) s () s₁)
    (hsecond : Returns (c.readParameterTables ts') s₁ () s₂) :
    Returns (c.readParameterTables (ts ++ ts')) s () s₂ := by
  induction ts generalizing s with
  | nil =>
    obtain ⟨-, rfl⟩ := returns_pure.1 hfirst
    exact hsecond
  | cons t ts ih =>
    rw [readParameterTables_cons] at hfirst
    obtain ⟨_, s', hone, hrest⟩ := returns_bind.1 hfirst
    rw [List.cons_append, readParameterTables_cons]
    exact returns_bind.2 ⟨(), s', hone, ih hrest⟩

end ClassBytes

/-! ## 5. Attributes that are reported -/

namespace ConstantPool

/-- What the attributes say about parameters is these events, in any class file with the records of the
pool in which they are found. -/
def Reports (p : ConstantPool) (as : List RawAttribute) (es : List MethodEvent) : Prop :=
  ∀ (c : ClassBytes) fs, c.HoldsRecords p → List.Forall₂ (c.Locates p) as fs →
    ∀ done, Returns (c.readParameterTables (ClassBytes.parameterTables fs)) done () (done ++ es)

variable {as as' : List RawAttribute} {es es' : List MethodEvent}

theorem Reports.append (has : p.Reports as es) (has' : p.Reports as' es') :
    p.Reports (as ++ as') (es ++ es') := by
  intro c fs hc hfs done
  obtain ⟨gs, gs', rfl, hgs, hgs'⟩ := of_forall₂_append hfs
  rw [appendList_append]
  have hboth := ClassBytes.returns_readParameterTables_append (has c gs hc hgs done)
    (has' c gs' hc hgs' (done ++ es))
  rwa [ClassBytes.parameterTables, ClassBytes.annotationTables, ClassBytes.annotationTables,
    ← List.filterMap_append] at hboth

/-- Attributes with other names say nothing. -/
theorem Called.reports {names : List String} (has : p.Called names as)
    (hnames : "RuntimeVisibleParameterAnnotations" ∉ names ∧
      "RuntimeInvisibleParameterAnnotations" ∉ names) : p.Reports as [] := by
  intro c fs hc hfs done
  obtain ⟨found, hfound, hsublist⟩ := has
  have hin : ∀ f ∈ fs, f.name ∈ names := by
    intro f hf
    obtain ⟨a, ha, hlocates⟩ := exists_of_forall₂ hfs hf
    obtain ⟨name, hname, htext⟩ := exists_of_forall₂ hfound ha
    obtain rfl : name = f.name := Option.some.inj (htext.symm.trans hlocates.name)
    exact hsublist.subset hname
  have hnone : ClassBytes.parameterTables fs = [] := ClassBytes.annotationTables_eq_nil fun f hf =>
    ⟨fun heq => hnames.1 (heq ▸ hin f hf), fun heq => hnames.2 (heq ▸ hin f hf)⟩
  rw [hnone]
  exact returns_pure.2 ⟨rfl, rfl⟩

/-- The name of the table of a visibility. -/
def tableName (visible : Bool) : String :=
  if visible then "RuntimeVisibleParameterAnnotations" else "RuntimeInvisibleParameterAnnotations"

end ConstantPool

namespace ParameterAnnotations

variable {annotations : ParameterAnnotations} {es : List MethodEvent}

/-- **The table of one visibility** says what the byte in it lets the reader see. -/
theorem Tells.reports (ha : annotations.Tells p es) (hp : p.Sound h)
    (hcount : ∀ n, (es.filter (onParameter visible n)).length ≤ 65535) {parameters : Nat}
    {a : Option RawAttribute} (hret : Returns (AnnotationSet.parametersAttribute?
      (annotations.sets visible) parameters (tableName visible)) p a p') :
    p'.Sound h ∧ p ≤ p' ∧ ∀ q, p' ≤ q →
      q.Called [tableName visible] a.toList ∧
        q.Reports a.toList (onParameters visible (entriesRead visible parameters es) es) := by
  obtain ⟨hs, hle, hcases⟩ := AnnotationSet.returns_parametersAttribute? hp hret
  refine ⟨hs, hle, fun q hq => ?_⟩
  rcases hcases with ⟨rfl, hempty⟩ | ⟨i, payload, rfl, hname, hpayload⟩
  · refine ⟨.nil, fun c fs hc hfs done => ?_⟩
    cases hfs
    have hnone : onParameters visible (entriesRead visible parameters es) es = [] :=
      List.flatMap_eq_nil_iff.2 fun n _ =>
        List.forall₂_nil_right_iff.1 (hempty n ▸ ha.entry visible n)
    rw [hnone]
    exact returns_pure.2 ⟨rfl, rfl⟩
  · have hname := text?_later hq hname
    refine ⟨.singleton hname, fun c fs hc hfs done => ?_⟩
    obtain ⟨f, rest, hf, hnil, rfl⟩ := List.forall₂_cons_left_iff.1 hfs
    cases hnil
    have htable : ClassBytes.parameterTables [f] = [(f.payload, visible)] := by
      have hcalled : tableName visible = f.name := Option.some.inj (hname.symm.trans hf.name)
      cases visible <;> simp [ClassBytes.parameterTables, ClassBytes.annotationTables, ← hcalled, tableName]
    have hat := hf.payload
    rw [hpayload, ha.size] at hat
    rw [htable]
    exact hc.reads_parameterTable (fun n => (ha.entry visible n).later (le_trans hle hq)) hcount hat done

/-- Both tables, at the end of a method. -/
theorem Tells.reports_attributes (ha : annotations.Tells p es) (hp : p.Sound h)
    (hcount : ∀ visible n, (es.filter (onParameter visible n)).length ≤ 65535) {parameters : Nat}
    {as : List RawAttribute} (hret : Returns (annotations.attributes parameters) p as p') :
    p'.Sound h ∧ p ≤ p' ∧ ∀ q, p' ≤ q →
      q.Called [tableName true, tableName false] as ∧
        q.Reports as (onParameters true (entriesRead true parameters es) es ++
          onParameters false (entriesRead false parameters es) es) := by
  obtain ⟨first, p₁, hfirst, hret⟩ := returns_bind.1 hret
  obtain ⟨second, p₂, hsecond, hret⟩ := returns_bind.1 hret
  obtain ⟨rfl, rfl⟩ := returns_pure.1 hret
  obtain ⟨hs₁, hle₁, hfirst⟩ := ha.reports hp (hcount true) hfirst
  obtain ⟨hs₂, hle₂, hsecond⟩ := (ha.later hle₁).reports hs₁ (hcount false) hsecond
  refine ⟨hs₂, le_trans hle₁ hle₂, fun q hq => ?_⟩
  obtain ⟨hcalled₁, hreports₁⟩ := hfirst q (le_trans hle₂ hq)
  obtain ⟨hcalled₂, hreports₂⟩ := hsecond q hq
  exact ⟨hcalled₁.append hcalled₂, hreports₁.append hreports₂⟩

end ParameterAnnotations

/-! ## 6. Methods -/

/-- Wherever the attributes stand in a class file with the records of the pool, they are found, and the
reader reports these events from the tables of parameters among them. -/
def ConstantPool.ReportsParameters (q : ConstantPool) (attributes : List RawAttribute)
    (es : List MethodEvent) : Prop :=
  ∀ (c : ClassBytes) (o : Nat), c.HoldsRecords q → c.bytes.Has o (RawAttribute.allEncoded attributes) →
    ∃ found stop, c.attributesAt o = .ok (found, stop) ∧
      (c.readParameterTables (ClassBytes.parameterTables found)).all = (.ok (), es.toArray)

theorem ConstantPool.Reports.parameters {q : ConstantPool} {as : List RawAttribute}
    {es : List MethodEvent} {names : List String} (has : q.Reports as es) (hcalled : q.Called names as)
    (hnames : names.length ≤ 65535) (hlength : ∀ a ∈ as, a.payload.size < 4294967296) :
    q.ReportsParameters as es := by
  intro c o hc hat
  have hnamed : ∀ a ∈ as, ∃ name, q.text? a.name = some name := by
    intro a ha
    obtain ⟨found, hfound, -⟩ := hcalled
    obtain ⟨name, -, hname⟩ := exists_of_forall₂ hfound ha
    exact ⟨name, hname⟩
  have hcount := Nat.le_trans hcalled.length_le hnames
  obtain ⟨fs, stop, hfs, hfound, -⟩ := hc.locates_attributesAt none hnamed (by simp) hlength
    (by simpa using hcount) (by simpa using hat)
  refine ⟨fs, stop, hfound, ?_⟩
  have hlist : (#[] : Array MethodEvent) ++ es = es.toArray := by simp
  rw [← hlist]
  exact has c fs hc (by simpa using hfs) #[]

namespace MethodWriter

variable {m m' : MethodWriter} {c : ClassContext} {info : MethodInfo} {body : List MethodEvent}

/-- **What a method reports** about its parameters, from its start to its end. -/
theorem reports_parameters (hp : p.Sound c.hierarchy) {mode : ComputeMode} {table : MemberTable}
    {p₁ : ConstantPool} (hstart : Returns (start mode info table) p m p₁)
    (hopen : .finish ∉ body) (hwhole : ∀ e ∈ body, e.Whole)
    (hcount : ∀ visible n, (body.filter (onParameter visible n)).length ≤ 65535)
    (hret : Returns (m.events c (body ++ [.finish])) p₁ m' p') :
    p'.Sound c.hierarchy ∧ ∃ type attributes, Descriptor.methodType info.descriptor = .ok type ∧
      m'.table = table.add info.access m.header.name m.header.descriptor attributes ∧
      ∀ q, p' ≤ q → (∀ a ∈ attributes, a.payload.size < 4294967296) →
        q.ReportsParameters attributes
          (onParameters true (entriesRead true type.parameters.length body) body ++
            onParameters false (entriesRead false type.parameters.length body) body) := by
  obtain ⟨slots, hm, hinfo, htable⟩ := returns_start hstart
  obtain ⟨hs₁, -⟩ := leads_start _ _ _ _ _ _ hstart hp
  obtain ⟨hattributes, hempty, type, htype, hparameters⟩ := called_start hp hstart
  obtain ⟨m₂, p₂, hevents, hfinish⟩ := returns_events_append.1 hret
  have hfinish := returns_events_singleton.1 hfinish
  have htells : m.parameterAnnotations.Tells p₁ [] := hempty ▸ ParameterAnnotations.tells_empty
  have hkept : CodeWriter.Kept c.hierarchy m.code p₁ := hm ▸ CodeWriter.kept_start hs₁ _ slots
  obtain ⟨htells, hsame, hkept, hle₂⟩ := tells_events htells hkept hopen hwhole hevents
  obtain ⟨hheader, htable₂, -⟩ := header_events hopen hevents
  obtain ⟨front, parameters, p₃, hs₃, hle₃, hfront, hwritten, htable₃⟩ :=
    called_finish hkept (hsame ▸ hattributes.later hle₂) hfinish
  rw [hheader, hparameters] at hwritten
  obtain ⟨hs', hle', hreports⟩ := (htells.later hle₃).reports_attributes hs₃ hcount hwritten
  refine ⟨hs', type, front ++ parameters, htype, ?_, fun q hq hlength => ?_⟩
  · rw [htable₃, htable₂, htable, hheader, hinfo]
  · obtain ⟨hcalled, hboth⟩ := hreports q hq
    have hfront := hfront.later (le_trans hle' hq)
    have hall := (hfront.reports (by decide)).append hboth
    exact hall.parameters (hfront.append hcalled) (by decide) hlength

end MethodWriter

/-- **Annotations of parameters survive**, as far as one byte can count them, in a class that is being
written.  Annotations are replayed up to their ends, and two bytes can count those of each parameter.

In a class file with the constants of the method, the reader finds the attributes of the method, and
reports the visible annotations of the parameters and then the others: those of the first parameters, as
many as the table has entries modulo 256, in the order of the parameters and then of the events.  These
are all just if no annotated parameter is beyond. -/
theorem ClassWriter.Run.parameters_survive {options : WriterOptions} {w w₁ : ClassWriter}
    {p p₁ p' : ConstantPool} {m m' : MethodWriter} {info : MethodInfo} {body : List MethodEvent}
    (hrun : Run options w p) (hstart : Returns (w.startMethod info) p (m, w₁) p₁)
    (hopen : .finish ∉ body) (hwhole : ∀ e ∈ body, e.Whole)
    (hcount : ∀ visible n, (body.filter (onParameter visible n)).length ≤ 65535)
    (hret : Returns (m.events w₁.context (body ++ [.finish])) p₁ m' p') :
    (∀ (es : List ClassEvent) b p'', (∀ e ∈ es, e.Closed) →
      Returns (do (← es.foldlM ClassWriter.event (w₁.endMethod m')).bytes) p' b p'' → p' ≤ p'') ∧
    ∃ type attributes, Descriptor.methodType info.descriptor = .ok type ∧
      m'.table = w.methods.add info.access m.header.name m.header.descriptor attributes ∧
      (∀ q, p' ≤ q → (∀ a ∈ attributes, a.payload.size < 4294967296) →
        q.ReportsParameters attributes
          (onParameters true (entriesRead true type.parameters.length body) body ++
            onParameters false (entriesRead false type.parameters.length body) body)) ∧
      ∀ visible, onParameters visible (entriesRead visible type.parameters.length body) body =
          onParameters visible 256 body ↔
        entriesUsed visible body ≤ entriesRead visible type.parameters.length body := by
  obtain ⟨hp, rfl⟩ := hrun.sound
  obtain ⟨hstart', rfl⟩ := ClassWriter.returns_startMethod.1 hstart
  obtain ⟨hs', type, attributes, htype, htable, hreports⟩ :=
    MethodWriter.reports_parameters hp hstart' hopen hwhole hcount hret
  refine ⟨fun es b p'' hes hclass => ?_, type, attributes, htype, htable, hreports,
    fun visible => onParameters_eq_iff (Nat.le_of_lt (Nat.mod_lt _ (by decide)))⟩
  exact (ClassWriter.later_class (w := { w with methods := m'.table }) hs' hes hclass).2

/-! ## 7. A method with one annotation -/

section Marked

open ClassBytes (Light marker add_marker)

/-- An annotation of a parameter. -/
def marked (parameter : UInt8) : MethodEvent :=
  .parameterAnnotated parameter ⟨marker.descriptor, true, marker.events⟩

theorem whole_marked (parameter : UInt8) : ∀ e ∈ [marked parameter], e.Whole := by
  intro e he
  obtain rfl := List.mem_singleton.1 he
  exact ⟨marker, ⟨by decide, trivial, trivial⟩, rfl, rfl⟩

theorem length_filter_marked (parameter : UInt8) (visible : Bool) (n : Nat) :
    ([marked parameter].filter (onParameter visible n)).length ≤ 65535 :=
  Nat.le_trans (List.length_filter_le _ _) (Nat.le_of_ble_eq_true rfl)

theorem finish_notMem_marked (parameter : UInt8) : .finish ∉ [marked parameter] := by
  simp [marked]

theorem starts_light (options : WriterOptions) : ∃ name descriptor p,
    Returns ((ClassWriter.start options).startMethod staticInfo) .empty
      (staticWriter name descriptor false (.start (ClassWriter.start options).context.mode 0),
        ClassWriter.start options) p ∧ Light 3 p := by
  have hfits : ModifiedUtf8.Fits "m" ∧ ModifiedUtf8.Fits "()V" := by decide
  obtain ⟨name, p₁, hname, hp₁⟩ := ClassBytes.light_empty.utf8 hfits.1 (by decide)
  obtain ⟨descriptor, p₂, hdescriptor, hp₂⟩ := hp₁.utf8 hfits.2 (by decide)
  refine ⟨name, descriptor, p₂, ClassWriter.returns_startMethod.2 ⟨?_, rfl⟩, hp₂⟩
  have htype : Descriptor.methodType "()V" = .ok ⟨[], none⟩ := by decide +kernel
  exact returns_bind.2 ⟨_, _, returns_lift.2 ⟨htype, rfl⟩, returns_bind.2 ⟨_, _, hname,
    returns_bind.2 ⟨_, _, hdescriptor, rfl⟩⟩⟩

/-- The sets of a method in which one parameter has an annotation. -/
def markedSets (parameter : Nat) (l : Bytes) : Array AnnotationSet :=
  (Array.replicate (parameter + 1) AnnotationSet.empty).setIfInBounds parameter ⟨#[l]⟩

theorem adds_marked {k : Nat} (hp : Light k p) (hk : k + 3 ≤ 65535) (parameter : UInt8) :
    ∃ l p', Returns (ParameterAnnotations.empty.add parameter ⟨marker.descriptor, true, marker.events⟩)
      p ⟨markedSets parameter.toNat l, #[]⟩ p' ∧ l.size = 9 ∧ Light (k + 3) p' := by
  obtain ⟨l, p', hadd, hl, hp'⟩ := add_marker hp hk
  refine ⟨l, p', returns_bind.2 ⟨markedSets parameter.toNat l, p', ?_, returns_pure.2 ⟨rfl, rfl⟩⟩, hl, hp'⟩
  have hsets : (#[] : Array AnnotationSet) ++ Array.replicate (parameter.toNat + 1 - 0) .empty =
      Array.replicate (parameter.toNat + 1) .empty := by simp
  have hset : (Array.replicate (parameter.toNat + 1) AnnotationSet.empty).getD parameter.toNat .empty =
      .empty := by simp
  show Returns (ParameterAnnotations.addTo #[] _ _) _ _ _
  rw [ParameterAnnotations.addTo, Array.size_empty, hsets, hset]
  exact returns_bind.2 ⟨⟨#[l]⟩, p', hadd, returns_pure.2 ⟨rfl, rfl⟩⟩

theorem length_encoded_marked (parameter : Nat) {l : Bytes} (hl : l.size = 9) (n : Nat) :
    ((markedSets parameter l).getD n .empty).encoded.length ≤ 11 := by
  rw [markedSets, Array.getD_eq_getD_getElem?, Array.getElem?_setIfInBounds]
  split
  · simp [AnnotationSet.encoded, hl]
  · rw [Array.getElem?_replicate]
    split <;> simp [AnnotationSet.encoded, AnnotationSet.empty]

/-- The table of the visible annotations is written. -/
theorem writes_marked {k : Nat} (hp : Light k p) (hk : k < 65535) (parameter : UInt8) {l : Bytes}
    (hl : l.size = 9) : ∃ a p', Returns (ParameterAnnotations.attributes 0
      ⟨markedSets parameter.toNat l, #[]⟩) p [a] p' ∧ a.payload.size ≤ 4096 ∧ Light (k + 1) p' := by
  have hfits : ModifiedUtf8.Fits "RuntimeVisibleParameterAnnotations" := by decide
  obtain ⟨i, p', hname, hp'⟩ := hp.utf8 hfits hk
  have hfull : ¬ (markedSets parameter.toNat l).all AnnotationSet.isEmpty = true := by
    intro hall
    have hset := AnnotationSet.getD_of_all_isEmpty hall parameter.toNat
    simp [markedSets, AnnotationSet.empty] at hset
  let count := max (markedSets parameter.toNat l).size 0
  let a : RawAttribute := ⟨i, (List.range count).foldl
    (fun b n => ((markedSets parameter.toNat l).getD n .empty).put b)
    (Bytes.empty.putU8 (UInt8.ofNat count))⟩
  have hvisible : Returns (AnnotationSet.parametersAttribute? (markedSets parameter.toNat l) 0
      "RuntimeVisibleParameterAnnotations") p (some a) p' := by
    rw [AnnotationSet.parametersAttribute?, if_neg hfull]
    exact returns_bind.2 ⟨i, p', hname, returns_pure.2 ⟨rfl, rfl⟩⟩
  have hinvisible : Returns (AnnotationSet.parametersAttribute? #[] 0
      "RuntimeInvisibleParameterAnnotations") p' none p' :=
    ParameterAnnotations.parametersAttribute?_empty 0 _ ▸ returns_pure.2 ⟨rfl, rfl⟩
  refine ⟨a, p', returns_bind.2 ⟨some a, p', hvisible, returns_bind.2 ⟨none, p', hinvisible,
    returns_pure.2 ⟨rfl, rfl⟩⟩⟩, ?_, hp'⟩
  have hcount : count = parameter.toNat + 1 := by simp [count, markedSets]
  have hlt := parameter.toNat_lt
  have hsum : ((List.range count).map fun n =>
      ((markedSets parameter.toNat l).getD n .empty).encoded.length).sum ≤ count * 11 := by
    refine le_of_le_of_eq (List.sum_le_card_nsmul _ 11 fun x hx => ?_) (by simp)
    obtain ⟨n, -, rfl⟩ := List.mem_map.1 hx
    exact length_encoded_marked _ hl n
  rw [← Array.length_toList, AnnotationSet.toList_table, AnnotationSet.tableEncoded, List.length_cons,
    List.length_flatMap]
  omega

/-- The method is written, with one attribute. -/
theorem runs_marked (options : WriterOptions) (parameter : UInt8) : ∃ m p₁ m' p' a,
    Returns ((ClassWriter.start options).startMethod staticInfo) .empty
      (m, ClassWriter.start options) p₁ ∧
    Returns (m.events (ClassWriter.start options).context ([marked parameter] ++ [.finish])) p₁ m' p' ∧
    m'.table = MemberTable.empty.add 8 m.header.name m.header.descriptor [a] ∧
    a.payload.size ≤ 4096 ∧ Light 7 p' := by
  obtain ⟨name, descriptor, p₁, hstart, hp₁⟩ := starts_light options
  obtain ⟨l, p₂, hadd, hl, hp₂⟩ := adds_marked hp₁ (by decide) parameter
  obtain ⟨a, p', hwrites, ha, hp'⟩ := writes_marked hp₂ (by decide) parameter hl
  generalize hcode : CodeWriter.start (ClassWriter.start options).context.mode 0 = code at hstart
  let m₂ : MethodWriter := { staticWriter name descriptor false code with
    parameterAnnotations := ⟨markedSets parameter.toNat l, #[]⟩ }
  have hevent : Returns ((staticWriter name descriptor false code).event
      (ClassWriter.start options).context (marked parameter)) p₁ m₂ p₂ :=
    returns_bind.2 ⟨_, p₂, hadd, returns_pure.2 ⟨rfl, rfl⟩⟩
  have hnone : Returns (MethodWriter.codeAttribute (ClassWriter.start options).context m₂) p₂
      ([], code) p₂ := returns_pure.2 ⟨rfl, rfl⟩
  have hempty : Returns (DeclaredAnnotations.attributes .empty) p₂ [] p₂ :=
    DeclaredAnnotations.attributes_empty ▸ returns_pure.2 ⟨rfl, rfl⟩
  have hfinish : Returns (m₂.event (ClassWriter.start options).context .finish) p₂ _ p' :=
    returns_bind.2 ⟨_, p₂, hnone, returns_bind.2 ⟨[], p₂, returns_pure.2 ⟨rfl, rfl⟩,
      returns_bind.2 ⟨[], p₂, hempty, returns_bind.2 ⟨[a], p', hwrites, returns_pure.2 ⟨rfl, rfl⟩⟩⟩⟩⟩
  exact ⟨_, p₁, _, p', a, hstart, MethodWriter.returns_events_cons.2 ⟨m₂, p₂, hevent,
    MethodWriter.returns_events_singleton.2 hfinish⟩, rfl, ha, hp'⟩

theorem infix_add (t : MemberTable) (access : UInt16) (name descriptor : ConstantIndex)
    (as : List RawAttribute) :
    RawAttribute.allEncoded as <:+: (t.add access name descriptor as).bytes.toList := by
  show _ <:+: (RawAttribute.putAll _ as).toList
  rw [RawAttribute.toList_putAll]
  exact (List.suffix_append _ _).isInfix

/-- What is in an attribute is in the table. -/
theorem size_le_of_add {t : MemberTable} {access : UInt16} {name descriptor : ConstantIndex}
    {as : List RawAttribute} {a : RawAttribute} (ha : a ∈ as) :
    a.payload.size ≤ (t.add access name descriptor as).bytes.size := by
  have hall := (infix_add t access name descriptor as).length_le
  have hone := List.single_le_sum (fun _ _ => Nat.zero_le _) _
    (List.mem_map_of_mem (f := fun a : RawAttribute => a.encoded.length) ha)
  have hpayload : a.payload.toList.length ≤ a.encoded.length := by
    simp only [RawAttribute.encoded, List.length_append]
    omega
  rw [RawAttribute.allEncoded, List.length_append, List.length_flatMap] at hall
  rw [← Array.length_toList, ← Array.length_toList]
  omega

/-- A class that has only methods is put together with two more constants. -/
theorem bytes_methods {k : Nat} (hp : Light k p) (hk : k + 2 ≤ 65535) (options : WriterOptions)
    (methods : MemberTable) : ∃ b p' classRef,
    Returns { ClassWriter.start options with methods }.bytes p b p' ∧
      b = { ClassWriter.start options with methods }.assemble p' classRef [] ∧ Light (k + 2) p' := by
  have hfits : ModifiedUtf8.Fits "" := by decide
  obtain ⟨i, p₁, hi, hp₁⟩ := hp.utf8 hfits (by omega)
  obtain ⟨classRef, p', hclass, hp'⟩ := hp₁.intern (k := .classRef i) (by rintro _ ⟨⟩) rfl (by omega)
  have hannotations : Returns (DeclaredAnnotations.attributes .empty) p' [] p' :=
    DeclaredAnnotations.attributes_empty ▸ returns_pure.2 ⟨rfl, rfl⟩
  have htable : Returns bootstrapAttribute? p' none p' := by
    refine returns_bind.2 ⟨p', p', returns_get.2 ⟨rfl, rfl⟩, ?_⟩
    dsimp only
    rw [hp'.bootstrap]
    exact returns_pure.2 ⟨rfl, rfl⟩
  have hattributes : Returns { ClassWriter.start options with methods }.attributes p' [] p' :=
    returns_bind.2 ⟨[], p', returns_pure.2 ⟨rfl, rfl⟩, returns_bind.2 ⟨[], p', hannotations,
      returns_bind.2 ⟨none, p', htable, returns_pure.2 ⟨rfl, rfl⟩⟩⟩⟩
  refine ⟨_, p', classRef, ?_, rfl, hp'⟩
  exact returns_bind.2 ⟨classRef, p', returns_bind.2 ⟨i, p₁, hi, hclass⟩,
    returns_bind.2 ⟨[], p', hattributes, returns_bind.2 ⟨p', p', returns_get.2 ⟨rfl, rfl⟩,
      returns_pure.2 ⟨rfl, rfl⟩⟩⟩⟩

/-- **A class with such a method is written and accepted.**  What the attributes of the method report with
the pool of the class file is what is read from it. -/
theorem accepts_marked (options : WriterOptions) (parameter : UInt8) : ∃ m p₁ m' p' b p'' c,
    Returns ((ClassWriter.start options).startMethod staticInfo) .empty
      (m, ClassWriter.start options) p₁ ∧
    Returns (m.events (ClassWriter.start options).context ([marked parameter] ++ [.finish])) p₁ m' p' ∧
    Returns ((ClassWriter.start options).endMethod m').bytes p' b p'' ∧ ClassBytes.ofBytes b = .ok c ∧
    p' ≤ p'' ∧ ∀ as es, m'.table = MemberTable.empty.add 8 m.header.name m.header.descriptor as →
      ((∀ a ∈ as, a.payload.size < 4294967296) → p''.ReportsParameters as es) →
        ∃ o found stop, c.attributesAt o = .ok (found, stop) ∧
          (c.readParameterTables (ClassBytes.parameterTables found)).all = (.ok (), es.toArray) := by
  obtain ⟨m, p₁, m', p', a, hstart, hevents, htable, ha, hlight⟩ := runs_marked options parameter
  obtain ⟨b, p'', classRef, hbytes, hb, hlight'⟩ := bytes_methods hlight (by decide) options m'.table
  have hp' : p'.Sound options.hierarchy := by
    obtain ⟨hstart', -⟩ := ClassWriter.returns_startMethod.1 hstart
    exact (MethodWriter.reports_parameters (sound_empty _) hstart' (finish_notMem_marked parameter)
      (whole_marked parameter) (length_filter_marked parameter) hevents).1
  obtain ⟨hp'', hle⟩ := ClassWriter.leads_bytes Interning.leads _ _ _ _ hbytes hp'
  have hsmall : m'.table.bytes.size < 4294967296 := by
    rw [htable, ← Array.length_toList]
    show (RawAttribute.putAll _ [a]).toList.length < _
    rw [RawAttribute.toList_putAll]
    simp [Bytes.empty, RawAttribute.allEncoded, RawAttribute.encoded]
    omega
  have hwritable : { ClassWriter.start options with methods := m'.table }.Writable p'' none [] :=
    { interfaces := Nat.zero_le _
      fields := ⟨[], MemberTable.lists_empty⟩
      methods := ⟨_, htable ▸ MemberTable.lists_empty.add ⟨8, m.header.name, m.header.descriptor, [a]⟩
        (by decide) ⟨by simp, by simp; omega⟩⟩
      count := Nat.zero_le _
      attributes := ⟨[], [], rfl, by simp, by simp⟩
      modest := hlight'.modest
      entries := by simp [hlight'.bootstrap] }
  have hnotable : p''.IsTable none := hlight'.bootstrap
  obtain ⟨c, hc, hholds⟩ := ClassBytes.ofBytes_assemble hp''.inOrder hnotable hwritable classRef
  subst hb
  refine ⟨m, p₁, m', p', _, p'', c, hstart, hevents, hbytes, hc, hle, fun as es has hreports => ?_⟩
  have hin : { ClassWriter.start options with methods := m'.table }.Carries
      (RawAttribute.allEncoded as) := .inr (.inl (has ▸ infix_add _ _ _ _ as))
  obtain ⟨o, hat⟩ := hin.has hbytes
  rw [← (ClassBytes.located_of_ofBytes hc).1] at hat
  have hlength : ∀ a ∈ as, a.payload.size < 4294967296 := fun _ ha =>
    Nat.lt_of_le_of_lt (has ▸ size_le_of_add ha) hsmall
  obtain ⟨found, stop, hfound, hread⟩ :=
    hreports hlength c o hholds.toHoldsPool.toHoldsRecords hat
  exact ⟨o, found, stop, hfound, hread⟩

theorem type_marked {type : MethodType} (htype : Descriptor.methodType "()V" = .ok type) :
    type = ⟨[], none⟩ := by
  have hnone : Descriptor.methodType "()V" = .ok ⟨[], none⟩ := by decide +kernel
  exact Except.ok.inj (htype.symm.trans hnone)

/-- An annotation of the parameter 3 comes back, although the method has no parameters. -/
theorem ClassWriter.Run.parameters_survive_marked : ∃ m p₁ m' p' b p'' c o found stop,
    Returns ((ClassWriter.start ⟨.maxStack, .empty⟩).startMethod staticInfo) .empty
      (m, ClassWriter.start ⟨.maxStack, .empty⟩) p₁ ∧
    Returns (m.events (ClassWriter.start ⟨.maxStack, .empty⟩).context ([marked 3] ++ [.finish]))
      p₁ m' p' ∧
    Returns ((ClassWriter.start ⟨.maxStack, .empty⟩).endMethod m').bytes p' b p'' ∧
    ClassBytes.ofBytes b = .ok c ∧ c.attributesAt o = .ok (found, stop) ∧
      (c.readParameterTables (ClassBytes.parameterTables found)).all = (.ok (), #[marked 3]) := by
  obtain ⟨m, p₁, m', p', b, p'', c, hstart, hevents, hbytes, hc, hle, hread⟩ :=
    accepts_marked ⟨.maxStack, .empty⟩ 3
  obtain ⟨-, type, attributes, htype, htable, hreports, -⟩ :=
    ClassWriter.Run.parameters_survive .fresh hstart (finish_notMem_marked 3) (whole_marked 3)
      (length_filter_marked 3) hevents
  obtain ⟨o, found, stop, hfound, hread⟩ := hread attributes _ htable (hreports p'' hle)
  obtain rfl := type_marked htype
  exact ⟨m, p₁, m', p', b, p'', c, o, found, stop, hstart, hevents, hbytes, hc, hfound, hread⟩

/-- An annotation of the parameter 255 is lost: the class is written and accepted, and the reader reports
nothing. -/
theorem ClassWriter.Run.parameters_lost_last : ∃ m p₁ m' p' b p'' c o found stop,
    Returns ((ClassWriter.start ⟨.maxStack, .empty⟩).startMethod staticInfo) .empty
      (m, ClassWriter.start ⟨.maxStack, .empty⟩) p₁ ∧
    Returns (m.events (ClassWriter.start ⟨.maxStack, .empty⟩).context ([marked 255] ++ [.finish]))
      p₁ m' p' ∧
    Returns ((ClassWriter.start ⟨.maxStack, .empty⟩).endMethod m').bytes p' b p'' ∧
    ClassBytes.ofBytes b = .ok c ∧ c.attributesAt o = .ok (found, stop) ∧
      (c.readParameterTables (ClassBytes.parameterTables found)).all = (.ok (), #[]) := by
  obtain ⟨m, p₁, m', p', b, p'', c, hstart, hevents, hbytes, hc, hle, hread⟩ :=
    accepts_marked ⟨.maxStack, .empty⟩ 255
  obtain ⟨hstart', -⟩ := ClassWriter.returns_startMethod.1 hstart
  obtain ⟨-, type, attributes, htype, htable, hreports⟩ := MethodWriter.reports_parameters
    (sound_empty _) hstart' (finish_notMem_marked 255) (whole_marked 255) (length_filter_marked 255)
      hevents
  obtain ⟨o, found, stop, hfound, hread⟩ := hread attributes _ htable (hreports p'' hle)
  obtain rfl := type_marked htype
  exact ⟨m, p₁, m', p', b, p'', c, o, found, stop, hstart, hevents, hbytes, hc, hfound, hread⟩

end Marked

end ClassFile
