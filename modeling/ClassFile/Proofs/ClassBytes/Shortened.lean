/-
# Readings of less input

Every reading of a class file comes down to words and bytes at offsets, and where those are not there, the
reading ends (`Error.unexpectedEof`).  `Shortened x y` says that `x` is what `y` becomes when there is less
input: it runs out of input, or does the same.  The relation is closed under sequencing, for readings that
fail or answer (`Shortened`) and for those that emit events as well (`Replay.Shortened`).
-/
import ClassFile.ClassBytes.Basic
import ClassFile.Proofs.Stateful
import ClassFile.Replay

namespace ClassFile

/-! ## 1. Without events -/

/-- A computation on less input does the same, unless it runs out of input. -/
def Shortened {α : Type} (x y : Except Error α) : Prop :=
  (∃ offset needed, x = .error (.unexpectedEof offset needed)) ∨ x = y

namespace Shortened

variable {α β : Type} {x y : Except Error α}

theorem refl (x : Except Error α) : Shortened x x := .inr rfl

theorem eof (offset needed : Nat) (y : Except Error α) :
    Shortened (.error (.unexpectedEof offset needed)) y := .inl ⟨offset, needed, rfl⟩

theorem bind {f g : α → Except Error β} (h : Shortened x y) (hf : ∀ a, Shortened (f a) (g a)) :
    Shortened (x >>= f) (y >>= g) := by
  obtain ⟨offset, needed, rfl⟩ | rfl := h
  · exact eof ..
  · cases x with
    | error e => exact refl _
    | ok a => exact hf a

theorem map {f : α → β} (h : Shortened x y) : Shortened (x.map f) (y.map f) := by
  obtain ⟨offset, needed, rfl⟩ | rfl := h
  · exact eof ..
  · exact refl _

theorem bind_map {γ : Type} {f : α → Except Error β} {g : α → Except Error γ} {k : γ → β}
    (h : Shortened x y) (hf : ∀ a, Shortened (f a) ((g a).map k)) :
    Shortened (x >>= f) ((y >>= g).map k) := by
  obtain ⟨offset, needed, rfl⟩ | rfl := h
  · exact eof ..
  · cases x with
    | error e => exact refl _
    | ok a => exact hf a

theorem ite {p : Prop} [Decidable p] {x' y' : Except Error α} (h : Shortened x y)
    (h' : Shortened x' y') : Shortened (if p then x else x') (if p then y else y') := by
  split
  · exact h
  · exact h'

theorem mapM {f g : α → Except Error β} (h : ∀ a, Shortened (f a) (g a)) (l : List α) :
    Shortened (l.mapM f) (l.mapM g) := by
  induction l with
  | nil => exact refl _
  | cons a l ih =>
    rw [List.mapM_cons, List.mapM_cons]
    exact (h a).bind fun b => ih.bind fun bs => refl _

theorem foldlM {f g : β → α → Except Error β} (h : ∀ b a, Shortened (f b a) (g b a)) (l : List α)
    (b : β) : Shortened (l.foldlM f b) (l.foldlM g b) := by
  induction l generalizing b with
  | nil => exact refl _
  | cons a l ih =>
    rw [List.foldlM_cons, List.foldlM_cons]
    exact (h b a).bind ih

/-- A step that is repeated. -/
theorem iterateM {f g : α → Except Error α} (h : ∀ a, Shortened (f a) (g a)) (count : Nat) (a : α) :
    Shortened (ClassFile.iterateM f count a) (ClassFile.iterateM g count a) := by
  induction count generalizing a with
  | zero => exact refl _
  | succ count ih =>
    have hsucc : ∀ k : α → Except Error α, ClassFile.iterateM k (count + 1) a =
        k a >>= ClassFile.iterateM k count := fun k => by
      unfold ClassFile.iterateM
      cases k a <;> rfl
    rw [hsucc, hsucc]
    exact (h a).bind ih

/-- A step that is repeated, on what `k` makes of the values. -/
theorem iterate {f : α → Except Error α} {g : β → Except Error β} {k : β → α}
    (h : ∀ b, Shortened (f (k b)) ((g b).map k)) (count : Nat) (b : β) :
    Shortened (ClassFile.iterateM f count (k b)) ((ClassFile.iterateM g count b).map k) := by
  induction count generalizing b with
  | zero => exact refl _
  | succ count ih =>
    have hb := h b
    unfold ClassFile.iterateM
    cases hg : g b with
    | error e =>
      rw [hg] at hb
      obtain ⟨offset, needed, hb⟩ | hb := hb <;> rw [hb]
      · exact eof ..
      · exact refl _
    | ok b' =>
      rw [hg] at hb
      obtain ⟨offset, needed, hb⟩ | hb := hb <;> rw [hb]
      · exact eof ..
      · exact ih b'

end Shortened

/-! ## 2. With events -/

namespace Replay

variable {ε δ α β : Type} {r r' : Replay ε α}

/-- A computation on less input does the same, unless it runs out of input. -/
structure Shortened (r r' : Replay ε α) : Prop where
  run : ∀ s, (∃ offset needed, (r s).1 = .error (.unexpectedEof offset needed)) ∨ r s = r' s

namespace Shortened

theorem refl (r : Replay ε α) : Shortened r r := ⟨fun _ => .inr rfl⟩

theorem eof (offset needed : Nat) (r : Replay ε α) :
    Shortened (throw (.unexpectedEof offset needed)) r := ⟨fun _ => .inl ⟨offset, needed, rfl⟩⟩

theorem bind {f g : α → Replay ε β} (h : Shortened r r') (hf : ∀ a, Shortened (f a) (g a)) :
    Shortened (r >>= f) (r' >>= g) := by
  refine ⟨fun s => ?_⟩
  rw [bind_apply, bind_apply]
  obtain ⟨offset, needed, heof⟩ | heq := h.run s
  · rcases hr : (r s : Except Error α × Array ε) with ⟨x, s'⟩
    rw [hr] at heof
    obtain rfl : x = _ := heof
    exact .inl ⟨offset, needed, rfl⟩
  · rw [heq]
    rcases (r' s : Except Error α × Array ε) with ⟨_ | a, s'⟩
    · exact .inr rfl
    · exact (hf a).run s'

theorem lift {x y : Except Error α} (h : ClassFile.Shortened x y) :
    Shortened (liftM x : Replay ε α) (liftM y) := by
  refine ⟨fun s => ?_⟩
  obtain ⟨offset, needed, rfl⟩ | rfl := h
  · exact .inl ⟨offset, needed, rfl⟩
  · exact .inr rfl

theorem nest {q q' : Replay δ α} (h : Shortened q q') (wrap : List δ → ε) :
    Shortened (Replay.nest q wrap) (Replay.nest q' wrap) := by
  refine ⟨fun s => ?_⟩
  obtain ⟨offset, needed, heof⟩ | heq := h.run #[]
  · refine .inl ⟨offset, needed, ?_⟩
    show (q.all).1 = _
    exact heof
  · have hall : q.all = q'.all := heq
    refine .inr ?_
    unfold Replay.nest
    rw [hall]

theorem ite {p : Prop} [Decidable p] {q q' : Replay ε α} (h : Shortened r r') (h' : Shortened q q') :
    Shortened (if p then r else q) (if p then r' else q') := by
  split
  · exact h
  · exact h'

theorem forM {f g : α → Replay ε PUnit} (h : ∀ a, Shortened (f a) (g a)) (l : List α) :
    Shortened (l.forM f) (l.forM g) := by
  induction l with
  | nil => exact refl _
  | cons a l ih => exact (h a).bind fun _ => ih

theorem forIn {f g : α → β → Replay ε (ForInStep β)} (h : ∀ a b, Shortened (f a b) (g a b))
    (l : List α) (b : β) : Shortened (ForIn.forIn l b f) (ForIn.forIn l b g) := by
  induction l generalizing b with
  | nil => exact refl _
  | cons a l ih =>
    rw [List.forIn_cons, List.forIn_cons]
    refine (h a b).bind fun s => ?_
    cases s with
    | done b => exact refl _
    | yield b => exact ih b

end Shortened

end Replay

end ClassFile
