/-
# Descriptors and types are the same thing

A descriptor is parsed to a type exactly if it is the rendering of that type, and the classes of the
type are named (`FieldType.parse_eq_ok_iff`, `MethodType.parse_eq_ok_iff`).  So no type has two
descriptors, no descriptor has two types, and what is accepted is what can be written.

The parameters of a method stand one behind the other without a separator.  They can be told apart
because no field type starts with the parenthesis that ends them, and because each one says itself
where it ends.
-/
import ClassFile.Proofs.Descriptor.Parser
import ClassFile.Proofs.Stateful

namespace ClassFile

/-- A method type whose classes a descriptor can write. -/
def MethodType.Named (t : MethodType) : Prop :=
  (∀ p ∈ t.parameters, p.Named) ∧ ∀ r ∈ t.result, r.Named

/-! ## 1. First characters -/

/-- A field type starts with a letter or a bracket, which is neither a parenthesis nor `V`. -/
theorem FieldType.exists_head (t : FieldType) :
    ∃ c more, t.render = c :: more ∧ c ≠ ')' ∧ c ≠ '(' ∧ c ≠ 'V' := by
  obtain ⟨dimensions, element⟩ := t
  cases dimensions with
  | zero =>
    cases element with
    | base b => cases b <;> exact ⟨_, _, rfl, by decide, by decide, by decide⟩
    | object name => exact ⟨'L', name.toList ++ [';'], rfl, by decide, by decide, by decide⟩
  | succ n =>
    refine ⟨'[', List.replicate n '[' ++ element.render, ?_, by decide, by decide, by decide⟩
    rw [FieldType.render, List.replicate_succ, List.cons_append]

namespace Descriptor

variable {cs rest : List Char}

/-! ## 2. Method types -/

/-- **Parameters are read up to the closing parenthesis**, each one exactly from its rendering. -/
theorem readParameters_eq_ok_iff {done ts : List FieldType} :
    readParameters done cs = .ok (ts, rest) ↔
      ∃ more, ts = done.reverse ++ more ∧ (∀ t ∈ more, t.Named) ∧
        cs = more.flatMap FieldType.render ++ ')' :: rest := by
  -- what is behind a first parameter starts with that parameter
  have hhead : ∀ {t : FieldType} {more : List FieldType} {c : Char} {cs : List Char},
      c :: cs = (t :: more).flatMap FieldType.render ++ ')' :: rest → c ≠ ')' := by
    intro t more c cs hcs
    obtain ⟨d, ds, hrender, hd, -⟩ := FieldType.exists_head t
    rw [List.flatMap_cons, hrender] at hcs
    rw [(List.cons.inj hcs).1]
    exact hd
  fun_induction readParameters done cs with
  | case1 done => simp
  | case2 done cs =>
    constructor
    · intro h
      cases h
      exact ⟨[], by simp⟩
    · rintro ⟨more, rfl, -, hcs⟩
      cases more with
      | nil =>
        cases hcs
        simp
      | cons t more => exact absurd rfl (hhead hcs)
  | case3 done c cs hc e hread =>
    constructor
    · exact nofun
    · rintro ⟨more, -, hnamed, hcs⟩
      cases more with
      | nil => exact absurd (List.cons.inj hcs).1 hc
      | cons t more =>
        rw [List.flatMap_cons, List.append_assoc] at hcs
        have hok := readFieldType_eq_ok_iff.2 ⟨hnamed t List.mem_cons_self, hcs⟩
        exact nomatch hread.symm.trans hok
  | case4 done c cs hc t cs' hread ih =>
    obtain ⟨hnamed, hcs⟩ := readFieldType_eq_ok_iff.1 hread
    refine Iff.trans ih ⟨?_, ?_⟩
    · rintro ⟨more, rfl, hmore, rfl⟩
      refine ⟨t :: more, by simp, fun x hx => ?_, by rw [hcs]; simp⟩
      rcases List.mem_cons.1 hx with rfl | hx
      · exact hnamed
      · exact hmore x hx
    · rintro ⟨more, rfl, hmore, hcs'⟩
      cases more with
      | nil => exact absurd (List.cons.inj hcs').1 hc
      | cons t' more =>
        rw [List.flatMap_cons, List.append_assoc] at hcs'
        have hok := readFieldType_eq_ok_iff.2 ⟨hmore t' List.mem_cons_self, hcs'⟩
        obtain ⟨rfl, rfl⟩ := Prod.mk.inj (Except.ok.inj (hread.symm.trans hok))
        exact ⟨more, by simp, fun x hx => hmore x (List.mem_cons_of_mem _ hx), rfl⟩

/-- **A result is read exactly from its rendering**, and none from `V`. -/
theorem readResult_eq_ok_iff {result : Option FieldType} :
    readResult cs = .ok (result, rest) ↔
      (∀ r ∈ result, r.Named) ∧ cs = (result.map FieldType.render).getD ['V'] ++ rest := by
  unfold readResult
  split
  · rename_i cs
    constructor
    · intro h
      cases h
      simp
    · rintro ⟨-, hcs⟩
      cases result with
      | none =>
        cases hcs
        rfl
      | some t =>
        obtain ⟨c, more, hrender, -, -, hc⟩ := FieldType.exists_head t
        rw [Option.map_some, Option.getD_some, hrender] at hcs
        exact absurd (List.cons.inj hcs).1.symm hc
  · rename_i hV
    rw [map_eq_ok_iff (f := some)]
    constructor
    · rintro ⟨t, ht, rfl⟩
      obtain ⟨hnamed, rfl⟩ := readFieldType_eq_ok_iff.1 ht
      exact ⟨fun r hr => Option.mem_some.1 hr ▸ hnamed, rfl⟩
    · rintro ⟨hnamed, hcs⟩
      cases result with
      | none => exact absurd hcs (hV _)
      | some t => exact ⟨t, readFieldType_eq_ok_iff.2 ⟨hnamed t rfl, hcs⟩, rfl⟩

/-- **A method type is read exactly from its rendering.** -/
theorem readMethodType_eq_ok_iff {t : MethodType} :
    readMethodType cs = .ok (t, rest) ↔ t.Named ∧ cs = t.render ++ rest := by
  obtain ⟨parameters, result⟩ := t
  unfold readMethodType
  split
  · rename_i cs
    constructor
    · intro h
      obtain ⟨⟨ts, rest₁⟩, hts, h⟩ := bind_eq_ok_iff.1 h
      obtain ⟨⟨r, rest₂⟩, hr, h⟩ := bind_eq_ok_iff.1 h
      cases h
      obtain ⟨more, rfl, hmore, rfl⟩ := readParameters_eq_ok_iff.1 hts
      obtain ⟨hresult, rfl⟩ := readResult_eq_ok_iff.1 hr
      exact ⟨⟨hmore, hresult⟩, by simp [MethodType.render]⟩
    · rintro ⟨⟨hparameters, hresult⟩, hcs⟩
      have hbody : cs = parameters.flatMap FieldType.render ++
          ')' :: ((result.map FieldType.render).getD ['V'] ++ rest) := by
        simpa [MethodType.render] using hcs
      have hread : readParameters [] cs = .ok (parameters, _) :=
        readParameters_eq_ok_iff.2 ⟨parameters, rfl, hparameters, hbody⟩
      exact bind_eq_ok_iff.2 ⟨_, hread, bind_eq_ok_iff.2 ⟨_, readResult_eq_ok_iff.2 ⟨hresult, rfl⟩,
        rfl⟩⟩
  · rename_i hopening
    constructor
    · exact nofun
    · rintro ⟨-, hcs⟩
      exact absurd hcs (hopening _)

/-! ## 3. Whole texts -/

/-- A text is used up exactly if nothing is left behind what is read. -/
theorem whole_eq_ok_iff {α : Type} {r : Read α} {x : α} : whole r = .ok x ↔ r = .ok (x, []) := by
  unfold whole
  split
  · simp
  · simp
  · simp

end Descriptor

theorem FieldType.parse_eq_ok_iff {s : String} {t : FieldType} :
    FieldType.parse s = .ok t ↔ t.Named ∧ s = t.text := by
  rw [FieldType.parse, Descriptor.whole_eq_ok_iff, Descriptor.readFieldType_eq_ok_iff,
    List.append_nil, ← String.toList_inj, FieldType.text, String.toList_ofList]

theorem MethodType.parse_eq_ok_iff {s : String} {t : MethodType} :
    MethodType.parse s = .ok t ↔ t.Named ∧ s = t.text := by
  rw [MethodType.parse, Descriptor.whole_eq_ok_iff, Descriptor.readMethodType_eq_ok_iff,
    List.append_nil, ← String.toList_inj, MethodType.text, String.toList_ofList]

/-- **Parsing and rendering undo each other.**  A type with named classes is parsed from its rendering;
what is parsed to a type is the rendering of it, and its classes are named.  A dimension that is added
is one more bracket in front, up to the 2^64 dimensions that a type can have. -/
theorem Descriptor.parse_text (t : FieldType) (m : MethodType) (s : String) (n : Nat) :
    (t.Named → FieldType.parse t.text = .ok t) ∧
    (FieldType.parse s = .ok t → t.text = s ∧ t.Named) ∧
    (m.Named → MethodType.parse m.text = .ok m) ∧
    (MethodType.parse s = .ok m → m.text = s ∧ m.Named) ∧
    (t.dimensions + n ≤ UInt64.size →
      (t.withDimensions n).text = String.ofList (List.replicate n '[') ++ t.text) := by
  refine ⟨fun ht => FieldType.parse_eq_ok_iff.2 ⟨ht, rfl⟩, fun h => ?_,
    fun hm => MethodType.parse_eq_ok_iff.2 ⟨hm, rfl⟩, fun h => ?_, fun hfits => ?_⟩
  · obtain ⟨hnamed, rfl⟩ := FieldType.parse_eq_ok_iff.1 h
    exact ⟨rfl, hnamed⟩
  · obtain ⟨hnamed, rfl⟩ := MethodType.parse_eq_ok_iff.1 h
    exact ⟨rfl, hnamed⟩
  · rw [FieldType.text, FieldType.render_withDimensions hfits, String.ofList_append]
    rfl

/-- Three dimensions around an array of strings. -/
theorem Descriptor.parse_text_strings :
    let t : FieldType := ⟨1, .object "S"⟩
    t.Named ∧ FieldType.parse t.text = .ok t ∧ t.dimensions + 3 ≤ UInt64.size ∧
      (t.withDimensions 3).text = String.ofList (List.replicate 3 '[') ++ t.text := by
  intro t
  have hnamed : t.Named := ⟨by decide, by decide⟩
  have hfits : t.dimensions + 3 ≤ UInt64.size := by decide
  obtain ⟨hparse, -, -, -, hdims⟩ := Descriptor.parse_text t ⟨[t], none⟩ t.text 3
  exact ⟨hnamed, hparse hnamed, hfits, hdims hfits⟩

/-- The dimensions of an array go round: it is taken for one with fewer. -/
theorem FieldType.withDimensions_past_largest :
    ((FieldType.mk 2 (.base .int)).withDimensions (UInt64.size - 1)).text = "[I" := by
  decide +kernel

end ClassFile
