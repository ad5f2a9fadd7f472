/-
# Traces show labels up to renaming

The name of a label in a trace is its rank in the order of first mention, so a trace cannot tell methods
apart that differ by an injective renaming of their labels.  It tells all others apart: methods that are
the same but for their labels, and have the same trace, are renamings of each other
(`allMethodLines_renaming`).

The lines of an event are a `layout` that the names of the mentioned labels are put into
(`methodLines_eq`).  The layout does not look at labels, and names can be read off the lines again
(`layout_injective`), whatever texts stand around them.  So all comes down to the ranks of labels in a
list (`ranks`), and these agree for two lists just if a renaming leads from one to the other.

A `lookupswitch` mentions only as many targets as it has keys.
-/
import ClassFile.Trace
import Mathlib.Data.List.Basic
import Mathlib.Data.Set.Function
import Mathlib.Logic.Equiv.Basic

namespace ClassFile

/-! ## 1. Other labels -/

namespace MethodEvent

/-- The same event with other labels. -/
def relabel (f : Label → Label) : MethodEvent → MethodEvent
  | .handler start stop target caught => .handler (f start) (f stop) (f target) caught
  | .instruction i => .instruction (i.map f)
  | .label l => .label (f l)
  | .line number start => .line number (f start)
  | .localVariable name descriptor start stop index =>
    .localVariable name descriptor (f start) (f stop) index
  | e => e

/-- The labels in an event. -/
def labels : MethodEvent → List Label
  | .handler start stop target _ => [start, stop, target]
  | .instruction i => i.targets
  | .label l => [l]
  | .line _ start => [start]
  | .localVariable _ _ start stop _ => [start, stop]
  | _ => []

/-- What is left of an event without its labels: they are all the same. -/
def blank (e : MethodEvent) : MethodEvent := e.relabel fun _ => ⟨0, false⟩

/-- A `lookupswitch` has a key for each target. -/
def Paired : MethodEvent → Prop
  | .instruction (.lookupSwitch _ keys targets) => keys.length = targets.length
  | _ => True

theorem labels_relabel (f : Label → Label) (e : MethodEvent) :
    (e.relabel f).labels = e.labels.map f := by
  cases e
  case instruction i => exact Instruction.targets_map f i
  all_goals rfl

theorem length_labels {e e' : MethodEvent} (h : e.blank = e'.blank) :
    e.labels.length = e'.labels.length := by
  have := congrArg (fun e => e.labels.length) h
  simpa only [blank, labels_relabel, List.length_map] using this

/-- **An event is its labels and the rest.** -/
theorem relabel_eq {e e' : MethodEvent} (h : e.blank = e'.blank) {f : Label → Label}
    (hl : e.labels.map f = e'.labels) : e.relabel f = e' := by
  cases e
  case instruction i =>
    cases e' <;> simp only [blank, relabel, reduceCtorEq] at h
    rename_i i'
    cases i <;> cases i' <;>
      simp_all [relabel, labels, Instruction.map, Instruction.targets]
  all_goals
    cases e' <;> simp_all [blank, relabel, labels]

end MethodEvent

namespace Trace

open Text

/-! ## 2. Lines with room for names -/

/-- The labels that an event mentions, in the order in which they get their names. -/
def mentions : MethodEvent → List Label
  | .instruction (.lookupSwitch default keys targets) =>
    default :: (keys.zip targets).map Prod.snd
  | e => e.labels

/-- A case of a `lookupswitch`. -/
def caseText (key : Int32) (target : String) : String := toString key.toInt ++ ": " ++ target

/-- The lines of an event that mentions labels of these names. -/
def layout : MethodEvent → List String → List String
  | .handler _ _ _ caught, names =>
    [indented 2 ("try " ++ commaSeparated names ++ " catch " ++ caught.getD "*")]
  | .instruction (.jump op _), names => [indented 2 (op.mnemonic ++ " " ++ commaSeparated names)]
  | .instruction (.tableSwitch low high _ _), names =>
    [indented 2 ("tableswitch " ++ toString low.toInt ++ ".." ++ toString high.toInt ++ " [" ++
      commaSeparated names.tail ++ "] default " ++ names.headD "")]
  | .instruction (.lookupSwitch _ keys _), names =>
    [indented 2 ("lookupswitch " ++ bracketed (List.zipWith caseText keys names.tail) ++
      " default " ++ names.headD "")]
  | .label _, names => ["   " ++ commaSeparated names ++ ":"]
  | .line number _, names =>
    [indented 2 ("line " ++ toString number.toNat ++ " " ++ commaSeparated names)]
  | .localVariable name descriptor _ _ index, names =>
    [indented 2 ("local " ++ name ++ " " ++ descriptor ++ " " ++ commaSeparated names ++ " slot " ++
      toString index.toNat)]
  | e, _ => ((methodLines e).run ⟨∅⟩).1

/-- The targets of the cases get their names in order, and are joined with their keys. -/
theorem mapM_caseText (keys : List Int32) (targets : List Label) :
    ((keys.zip targets).mapM fun (key, target) => do
        return toString key.toInt ++ ": " ++ (← labelName target)) =
      List.zipWith caseText keys <$> ((keys.zip targets).map Prod.snd).mapM labelName := by
  induction keys generalizing targets with
  | nil => simp
  | cons key keys ih =>
    cases targets with
    | nil => simp
    | cons target targets => simp_all [caseText]

/-- **The lines of an event are its layout**, with the names of the labels that it mentions. -/
theorem methodLines_eq (e : MethodEvent) :
    methodLines e = layout e <$> (mentions e).mapM labelName := by
  cases e
  case instruction i =>
    cases i
    case jump op target =>
      simp [methodLines, instruction, layout, mentions, MethodEvent.labels, Instruction.targets,
        commaSeparated]
    case tableSwitch =>
      simp [methodLines, instruction, layout, mentions, MethodEvent.labels, Instruction.targets,
        labelNames]
    case lookupSwitch default keys targets =>
      simp only [methodLines, instruction, mapM_caseText]
      simp [layout, mentions]
    all_goals rfl
  case handler | label | line | localVariable =>
    simp [methodLines, layout, mentions, MethodEvent.labels, labelNames, commaSeparated]
  all_goals rfl

theorem layout_relabel (f : Label → Label) (e : MethodEvent) :
    layout (e.relabel f) = layout e := by
  cases e
  case instruction i => cases i <;> rfl
  all_goals rfl

theorem layout_congr {e e' : MethodEvent} (h : e.blank = e'.blank) : layout e = layout e' := by
  rw [← layout_relabel (fun _ => ⟨0, false⟩) e, ← layout_relabel (fun _ => ⟨0, false⟩) e']
  exact congrArg layout h

/-! ## 3. Names can be read off lines -/

/-- The name of the label with a number. -/
def labelText (n : Nat) : String := "L" ++ toString n

theorem labelText_injective : Function.Injective labelText := by
  intro m n h
  have h := congrArg String.toList ((String.append_right_inj "L").1 h)
  simp only [Nat.toString_eq_repr, Nat.toList_repr] at h
  have h := congrArg (Nat.ofDigitChars 10 · 0) h
  simpa only [Nat.ofDigitChars_toDigits (by decide : 1 < 10) (by decide : 10 ≤ 10)] using h

theorem toString_chars (n : Nat) : ∀ c ∈ (toString n).toList, c.isDigit = true := by
  intro c hc
  rw [Nat.toString_eq_repr, Nat.toList_repr] at hc
  exact Nat.isDigit_of_mem_toDigits (by decide) (by decide) hc

theorem labelText_chars (n : Nat) : ∀ c ∈ (labelText n).toList, c = 'L' ∨ c.isDigit = true := by
  intro c hc
  rw [labelText, String.toList_append, List.mem_append] at hc
  rcases hc with hc | hc
  · exact .inl (by simpa using hc)
  · exact .inr (toString_chars n c hc)

theorem toString_int_chars (i : Int) :
    ∀ c ∈ (toString i).toList, c = '-' ∨ c.isDigit = true := by
  intro c hc
  cases i with
  | ofNat n => exact .inr (toString_chars n c hc)
  | negSucc n =>
    have hneg : toString (Int.negSucc n) = "-" ++ toString (n + 1) := rfl
    rw [hneg, String.toList_append, List.mem_append] at hc
    rcases hc with hc | hc
    · exact .inl (by simpa using hc)
    · exact .inr (toString_chars _ c hc)

/-- What stands in front of the first occurrence of a character, and what stands behind it. -/
theorem append_cons_inj_of_notMem {l l' r r' : List Char} {d : Char} (hl : d ∉ l) (hl' : d ∉ l')
    (h : l ++ d :: r = l' ++ d :: r') : l = l' ∧ r = r' := by
  induction l generalizing l' with
  | nil =>
    cases l' with
    | nil => exact ⟨rfl, (List.cons.inj h).2⟩
    | cons c l' => exact absurd ((List.cons.inj h).1 ▸ List.mem_cons_self) hl'
  | cons c l ih =>
    cases l' with
    | nil => exact absurd ((List.cons.inj h).1 ▸ List.mem_cons_self) hl
    | cons c' l' =>
      obtain ⟨rfl, htail⟩ := List.cons.inj h
      obtain ⟨rfl, rfl⟩ := ih (fun hm => hl (List.mem_cons_of_mem _ hm))
        (fun hm => hl' (List.mem_cons_of_mem _ hm)) htail
      exact ⟨rfl, rfl⟩

theorem append_inj_of_notMem {s s' t t' : String} {d : Char} (hs : d ∉ s.toList)
    (hs' : d ∉ s'.toList) (h : s ++ String.singleton d ++ t = s' ++ String.singleton d ++ t') :
    s = s' ∧ t = t' := by
  have h := congrArg String.toList h
  simp only [String.toList_append, String.toList_singleton, List.append_assoc,
    List.singleton_append] at h
  obtain ⟨hl, hr⟩ := append_cons_inj_of_notMem hs hs' h
  exact ⟨String.toList_inj.1 hl, String.toList_inj.1 hr⟩

theorem commaSeparated_cons_cons (x y : String) (xs : List String) :
    commaSeparated (x :: y :: xs) =
      x ++ String.singleton ',' ++ (" " ++ commaSeparated (y :: xs)) := by
  have hcomma : ", " = String.singleton ',' ++ " " := by decide
  have hsplit : commaSeparated (x :: y :: xs) = x ++ ", " ++ commaSeparated (y :: xs) :=
    String.intercalate_cons_cons
  rw [hsplit, hcomma, String.append_assoc, String.append_assoc, String.append_assoc]

/-- **Texts without commas can be read off** what they are put together to with commas. -/
theorem commaSeparated_injective {xs ys : List String} (hlength : xs.length = ys.length)
    (hx : ∀ x ∈ xs, ',' ∉ x.toList) (hy : ∀ y ∈ ys, ',' ∉ y.toList)
    (h : commaSeparated xs = commaSeparated ys) : xs = ys := by
  induction xs generalizing ys with
  | nil => exact (List.length_eq_zero_iff.1 hlength.symm).symm
  | cons x xs ih =>
    cases ys with
    | nil => cases hlength
    | cons y ys =>
      have hlength' : xs.length = ys.length := Nat.succ.inj hlength
      cases xs with
      | nil =>
        obtain rfl := List.length_eq_zero_iff.1 hlength'.symm
        simpa [commaSeparated] using h
      | cons x' xs =>
        obtain ⟨y', ys, rfl⟩ := List.exists_cons_of_length_eq_add_one hlength'.symm
        rw [commaSeparated_cons_cons, commaSeparated_cons_cons] at h
        obtain ⟨rfl, hrest⟩ := append_inj_of_notMem (hx x (by simp)) (hy y (by simp)) h
        rw [ih hlength' (fun z hz => hx z (by simp [hz])) (fun z hz => hy z (by simp [hz]))
          ((String.append_right_inj " ").1 hrest)]

theorem notMem_commaSeparated {xs : List String} {d : Char} (hcomma : d ≠ ',') (hspace : d ≠ ' ')
    (hd : ∀ x ∈ xs, d ∉ x.toList) : d ∉ (commaSeparated xs).toList := by
  induction xs with
  | nil => simp [commaSeparated]
  | cons x xs ih =>
    cases xs with
    | nil => simpa [commaSeparated] using hd x
    | cons y ys =>
      have hrest := ih fun z hz => hd z (List.mem_cons_of_mem _ hz)
      simp [commaSeparated_cons_cons, hd x, hrest, hcomma, hspace]

/-- What stands in the brackets of a switch can be read off, and the default behind them. -/
theorem brackets_inj {before inside inside' last last' : String} (h : ']' ∉ inside.toList)
    (h' : ']' ∉ inside'.toList)
    (heq : before ++ inside ++ "] default " ++ last = before ++ inside' ++ "] default " ++ last') :
    inside = inside' ∧ last = last' := by
  have hsplit : "] default " = String.singleton ']' ++ " default " := by decide
  have hgroup : ∀ i l : String, before ++ i ++ "] default " ++ l =
      before ++ (i ++ String.singleton ']' ++ (" default " ++ l)) := by
    intro i l
    simp only [hsplit, String.append_assoc]
  rw [hgroup, hgroup, String.append_right_inj] at heq
  obtain ⟨hinside, hlast⟩ := append_inj_of_notMem h h' heq
  exact ⟨hinside, (String.append_right_inj _).1 hlast⟩

theorem notMem_labelText {d : Char} (hL : d ≠ 'L') (hd : d.isDigit = false) (n : Nat) :
    d ∉ (labelText n).toList := by
  intro hmem
  rcases labelText_chars n d hmem with h | h
  · exact hL h
  · rw [hd] at h
    cases h

theorem notMem_caseText {d : Char} (hd : d.isDigit = false) (hother : d ∉ ['L', '-', ':', ' '])
    (key : Int32) (n : Nat) : d ∉ (caseText key (labelText n)).toList := by
  intro hmem
  rw [caseText, String.toList_append, String.toList_append, List.mem_append, List.mem_append] at hmem
  rcases hmem with (hmem | hmem) | hmem
  · rcases toString_int_chars _ d hmem with rfl | h
    · simp at hother
    · rw [hd] at h
      cases h
  · have : d = ':' ∨ d = ' ' := by simpa using hmem
    rcases this with rfl | rfl <;> simp at hother
  · exact notMem_labelText (by rintro rfl; simp at hother) hd n hmem

theorem notMem_cases {d : Char} (hd : d.isDigit = false) (hother : d ∉ ['L', '-', ':', ' '])
    (keys : List Int32) (ns : List Nat) :
    ∀ x ∈ List.zipWith caseText keys (ns.map labelText), d ∉ x.toList := by
  intro x hx
  rw [List.zipWith_map_right, ← List.map_uncurry_zip_eq_zipWith] at hx
  obtain ⟨⟨key, n⟩, -, rfl⟩ := List.mem_map.1 hx
  exact notMem_caseText hd hother key n

theorem zipWith_caseText_injective {keys : List Int32} {ns ns' : List String}
    (hn : keys.length = ns.length) (hn' : keys.length = ns'.length)
    (h : List.zipWith caseText keys ns = List.zipWith caseText keys ns') : ns = ns' := by
  induction keys generalizing ns ns' with
  | nil => rw [List.length_eq_zero_iff.1 hn.symm, List.length_eq_zero_iff.1 hn'.symm]
  | cons key keys ih =>
    obtain ⟨n, ns, rfl⟩ := List.exists_cons_of_length_eq_add_one hn.symm
    obtain ⟨n', ns', rfl⟩ := List.exists_cons_of_length_eq_add_one hn'.symm
    obtain ⟨hhead, htail⟩ := List.cons.inj h
    rw [(String.append_right_inj _).1 hhead, ih (Nat.succ.inj hn) (Nat.succ.inj hn') htail]

/-- The cases of a `lookupswitch` in their brackets. -/
theorem lookupText_eq (cases : List String) (last : String) :
    "lookupswitch " ++ bracketed cases ++ " default " ++ last =
      "lookupswitch [" ++ commaSeparated cases ++ "] default " ++ last := by
  have hopen : "lookupswitch [" = "lookupswitch " ++ "[" := by decide
  have hclose : "] default " = "]" ++ " default " := by decide
  simp only [bracketed, hopen, hclose, String.append_assoc]

/-- The names of labels are told apart by their numbers, in a list as well. -/
theorem names_injective {ns ns' : List Nat} (hlength : ns.length = ns'.length)
    (h : commaSeparated (ns.map labelText) = commaSeparated (ns'.map labelText)) : ns = ns' := by
  have hcomma : ∀ ns : List Nat, ∀ x ∈ ns.map labelText, ',' ∉ x.toList := by
    intro ns x hx
    obtain ⟨n, -, rfl⟩ := List.mem_map.1 hx
    exact notMem_labelText (by decide) (by decide) n
  exact List.map_injective_iff.2 labelText_injective
    (commaSeparated_injective (by simpa using hlength) (hcomma ns) (hcomma ns') h)

/-- **The numbers of the mentioned labels can be read off the lines.** -/
theorem layout_injective {e : MethodEvent} (he : e.Paired) {ns ns' : List Nat}
    (hn : ns.length = (mentions e).length) (hn' : ns'.length = (mentions e).length)
    (h : layout e (ns.map labelText) = layout e (ns'.map labelText)) : ns = ns' := by
  have hlength := hn.trans hn'.symm
  have hbracket : ∀ ns : List Nat, ']' ∉ (commaSeparated (ns.map labelText)).toList := by
    refine fun ns => notMem_commaSeparated (by decide) (by decide) fun x hx => ?_
    obtain ⟨n, -, rfl⟩ := List.mem_map.1 hx
    exact notMem_labelText (by decide) (by decide) n
  cases e
  case instruction i =>
    cases i
    case jump =>
      simp only [layout, indented, List.cons.injEq, and_true, String.append_right_inj] at h
      exact names_injective hlength h
    case tableSwitch low high default targets =>
      obtain ⟨n, ns, rfl⟩ := List.exists_cons_of_length_eq_add_one hn
      obtain ⟨n', ns', rfl⟩ := List.exists_cons_of_length_eq_add_one hn'
      simp only [layout, indented, List.cons.injEq, and_true, String.append_right_inj,
        List.map_cons, List.tail_cons, List.headD_cons] at h
      obtain ⟨hnames, hdefault⟩ := brackets_inj (hbracket ns) (hbracket ns') h
      rw [labelText_injective hdefault, names_injective (Nat.succ.inj hlength) hnames]
    case lookupSwitch default keys targets =>
      obtain ⟨n, ns, rfl⟩ := List.exists_cons_of_length_eq_add_one hn
      obtain ⟨n', ns', rfl⟩ := List.exists_cons_of_length_eq_add_one hn'
      have hkeys : keys.length = ns.length := by
        simpa [mentions, show keys.length = targets.length from he] using hn.symm
      have hkeys' : keys.length = ns'.length := hkeys.trans (Nat.succ.inj hlength)
      simp only [layout, indented, List.cons.injEq, and_true, String.append_right_inj,
        List.map_cons, List.tail_cons, List.headD_cons, lookupText_eq] at h
      obtain ⟨hcases, hdefault⟩ := brackets_inj
        (notMem_commaSeparated (by decide) (by decide) (notMem_cases rfl (by decide) keys ns))
        (notMem_commaSeparated (by decide) (by decide) (notMem_cases rfl (by decide) keys ns')) h
      have hnames := commaSeparated_injective (by simp [← hkeys, ← hkeys'])
        (notMem_cases rfl (by decide) keys ns) (notMem_cases rfl (by decide) keys ns') hcases
      have hnames := zipWith_caseText_injective (by simpa using hkeys) (by simpa using hkeys') hnames
      rw [labelText_injective hdefault, List.map_injective_iff.2 labelText_injective hnames]
    all_goals
      rw [List.length_eq_zero_iff.1 hn, List.length_eq_zero_iff.1 hn']
  case handler | label | line | localVariable =>
    simp only [layout, indented, List.cons.injEq, and_true, String.append_right_inj,
      String.append_left_inj] at h
    exact names_injective hlength h
  all_goals
    rw [List.length_eq_zero_iff.1 hn, List.length_eq_zero_iff.1 hn']

/-! ## 4. Ranks -/

/-- The labels that have been mentioned, when one more is. -/
def note (seen : List Label) (l : Label) : List Label := if l ∈ seen then seen else seen ++ [l]

/-- The ranks of labels in the order of first mention, behind some that have been mentioned. -/
def ranks : List Label → List Label → List Nat
  | _, [] => []
  | seen, l :: ls => seen.idxOf l :: ranks (note seen l) ls

theorem length_ranks (seen ls : List Label) : (ranks seen ls).length = ls.length := by
  induction ls generalizing seen with
  | nil => rfl
  | cons l ls ih => simp [ranks, ih]

theorem ranks_append (seen ls ls' : List Label) :
    ranks seen (ls ++ ls') = ranks seen ls ++ ranks (ls.foldl note seen) ls' := by
  induction ls generalizing seen with
  | nil => rfl
  | cons l ls ih => simp [ranks, ih]

/-- The table has the labels that have been mentioned, with their ranks. -/
structure Counts (seen : List Label) (s : Labels) : Prop where
  size : s.mentioned.size = seen.length
  rank : ∀ l, s.mentioned[l]? = if l ∈ seen then some (seen.idxOf l) else none

theorem Counts.nil : Counts [] ⟨∅⟩ := ⟨by simp, by simp⟩

/-- A label is named by its rank. -/
theorem run_labelName {seen : List Label} {s : Labels} (h : Counts seen s) (l : Label) :
    ∃ s', (labelName l).run s = pure (labelText (seen.idxOf l), s') ∧ Counts (note seen l) s' := by
  by_cases hl : l ∈ seen
  · refine ⟨s, ?_, by rwa [note, if_pos hl]⟩
    simp [labelName, h.rank, hl, labelText]
  · have hnone : s.mentioned[l]? = none := by rw [h.rank, if_neg hl]
    refine ⟨⟨s.mentioned.insert l seen.length⟩, ?_, ?_⟩
    · simp [labelName, hnone, h.size, List.idxOf_eq_length hl, labelText]
    · rw [note, if_neg hl]
      refine ⟨by simp [Std.HashMap.size_insert, h.size, Std.HashMap.mem_iff_isSome_getElem?, hnone],
        fun l' => ?_⟩
      rw [Std.HashMap.getElem?_insert, h.rank]
      by_cases hll : l = l'
      · simp [← hll, List.idxOf_append_of_notMem hl]
      · by_cases hmem : l' ∈ seen
        · simp [hll, hmem, List.idxOf_append_of_mem hmem]
        · simp [hll, hmem, Ne.symm hll]

theorem run_mapM_labelName {seen : List Label} {s : Labels} (h : Counts seen s) (ls : List Label) :
    ∃ s', (ls.mapM labelName).run s = pure ((ranks seen ls).map labelText, s') ∧
      Counts (ls.foldl note seen) s' := by
  induction ls generalizing seen s with
  | nil => exact ⟨s, rfl, h⟩
  | cons l ls ih =>
    obtain ⟨s₁, hl, h₁⟩ := run_labelName h l
    obtain ⟨s₂, hls, h₂⟩ := ih h₁
    refine ⟨s₂, ?_, h₂⟩
    simp [List.mapM_cons, StateT.run_bind, hl, hls, ranks]

/-- The lines of events, behind some labels that have been mentioned. -/
def linesFrom : List Label → List MethodEvent → List String
  | _, [] => []
  | seen, e :: es =>
    layout e ((ranks seen (mentions e)).map labelText) ++
      linesFrom ((mentions e).foldl note seen) es

/-- **The lines of a method show the ranks of its labels.** -/
theorem allMethodLines_eq (es : List MethodEvent) : allMethodLines es = linesFrom [] es := by
  have step : ∀ (es : List MethodEvent) (done : Array String) (seen : List Label) (s : Labels),
      Counts seen s →
      ((es.foldlM (fun done e => do return done ++ (← methodLines e)) done :
          StateM Labels (Array String)).run s).1.toList = done.toList ++ linesFrom seen es := by
    intro es
    induction es with
    | nil =>
      intro done seen s _
      exact (List.append_nil done.toList).symm
    | cons e es ih =>
      intro done seen s h
      obtain ⟨s', hrun, h'⟩ := run_mapM_labelName h (mentions e)
      have hfirst : (methodLines e).run s =
          pure (layout e ((ranks seen (mentions e)).map labelText), s') := by
        simp [methodLines_eq, hrun]
      simp only [List.foldlM_cons, bind_assoc, pure_bind, StateT.run_bind, hfirst, linesFrom]
      rw [ih _ _ _ h', Array.toList_appendList, List.append_assoc]
  exact step es #[] [] ⟨∅⟩ Counts.nil

/-! ## 5. Renamings -/

section Renaming

variable {f : Label → Label} {S : Set Label}

theorem idxOf_map (hf : Set.InjOn f S) {l : Label} (hl : l ∈ S) {seen : List Label}
    (hseen : ∀ s ∈ seen, s ∈ S) : (seen.map f).idxOf (f l) = seen.idxOf l := by
  induction seen with
  | nil => rfl
  | cons s seen ih =>
    have hs : f s = f l ↔ s = l := hf.eq_iff (hseen s (by simp)) hl
    have hbeq : (f s == f l) = (s == l) := by simp only [beq_eq_decide, hs]
    rw [List.map_cons, List.idxOf_cons, List.idxOf_cons, hbeq,
      ih fun s hs => hseen s (List.mem_cons_of_mem _ hs)]

theorem note_map (hf : Set.InjOn f S) {l : Label} (hl : l ∈ S) {seen : List Label}
    (hseen : ∀ s ∈ seen, s ∈ S) : note (seen.map f) (f l) = (note seen l).map f := by
  have hmem : f l ∈ seen.map f ↔ l ∈ seen := by
    refine ⟨fun h => ?_, List.mem_map_of_mem⟩
    obtain ⟨s, hs, heq⟩ := List.mem_map.1 h
    exact hf (hseen s hs) hl heq ▸ hs
  by_cases h : l ∈ seen <;> simp [note, hmem, h]

theorem note_subset {l : Label} (hl : l ∈ S) {seen : List Label} (hseen : ∀ s ∈ seen, s ∈ S) :
    ∀ s ∈ note seen l, s ∈ S := by
  unfold note
  split
  · exact hseen
  · simpa [or_imp, forall_and] using ⟨hseen, hl⟩

/-- Ranks are kept by renamings, and the labels that have been mentioned are renamed. -/
theorem ranks_map (hf : Set.InjOn f S) {ls seen : List Label} (hls : ∀ l ∈ ls, l ∈ S)
    (hseen : ∀ s ∈ seen, s ∈ S) :
    ranks (seen.map f) (ls.map f) = ranks seen ls ∧
      (ls.map f).foldl note (seen.map f) = (ls.foldl note seen).map f ∧
      ∀ s ∈ ls.foldl note seen, s ∈ S := by
  induction ls generalizing seen with
  | nil => exact ⟨rfl, rfl, hseen⟩
  | cons l ls ih =>
    have hl := hls l List.mem_cons_self
    obtain ⟨hranks, hnote, hmem⟩ := ih (fun l hl => hls l (List.mem_cons_of_mem _ hl))
      (note_subset hl hseen)
    simp only [List.map_cons, ranks, List.foldl_cons, note_map hf hl hseen, idxOf_map hf hl hseen]
    exact ⟨by rw [hranks], hnote, hmem⟩

end Renaming

theorem mentions_relabel (f : Label → Label) (e : MethodEvent) :
    mentions (e.relabel f) = (mentions e).map f := by
  cases e
  case instruction i =>
    cases i
    case lookupSwitch => simp [mentions, MethodEvent.relabel, Instruction.map, List.zip_map_right]
    all_goals rfl
  all_goals rfl

theorem mentions_subset (e : MethodEvent) : ∀ l ∈ mentions e, l ∈ e.labels := by
  intro l hl
  cases e
  case instruction i =>
    cases i
    case lookupSwitch default keys targets =>
      simp only [mentions, List.mem_cons, List.mem_map] at hl
      obtain rfl | ⟨⟨key, target⟩, hmem, rfl⟩ := hl
      · exact List.mem_cons_self
      · exact List.mem_cons_of_mem _ (List.of_mem_zip hmem).2
    all_goals exact hl
  all_goals exact hl

theorem mentions_eq_labels {e : MethodEvent} (he : e.Paired) : mentions e = e.labels := by
  cases e
  case instruction i =>
    cases i
    case lookupSwitch default keys targets =>
      have hkeys : keys.length = targets.length := he
      simp [mentions, MethodEvent.labels, Instruction.targets, List.map_snd_zip hkeys.ge]
    all_goals rfl
  all_goals rfl

/-- **A renaming is not seen in a trace.** -/
theorem linesFrom_relabel {f : Label → Label} {S : Set Label} (hf : Set.InjOn f S)
    {es : List MethodEvent} (hes : ∀ e ∈ es, ∀ l ∈ e.labels, l ∈ S) (seen : List Label)
    (hseen : ∀ s ∈ seen, s ∈ S) :
    linesFrom (seen.map f) (es.map (·.relabel f)) = linesFrom seen es := by
  induction es generalizing seen with
  | nil => rfl
  | cons e es ih =>
    obtain ⟨hranks, hnote, hmem⟩ := ranks_map hf
      (fun l hl => hes e (by simp) l (mentions_subset e l hl)) hseen
    simp only [List.map_cons, linesFrom, layout_relabel, mentions_relabel, hranks, hnote]
    rw [ih (fun e he => hes e (List.mem_cons_of_mem _ he)) _ hmem]

/-- The number of lines does not depend on names. -/
theorem length_layout (e : MethodEvent) (names names' : List String) :
    (layout e names).length = (layout e names').length := by
  cases e
  case instruction i => cases i <;> simp only [layout, List.length_singleton]
  all_goals simp only [layout, List.length_singleton]

theorem length_mentions {e e' : MethodEvent} (h : e.blank = e'.blank) :
    (mentions e).length = (mentions e').length := by
  have := congrArg (fun e => (mentions e).length) h
  simpa only [MethodEvent.blank, mentions_relabel, List.length_map] using this

/-- **The ranks of all labels can be read off a trace.** -/
theorem ranks_eq_of_linesFrom_eq {es es' : List MethodEvent} {seen seen' : List Label}
    (hblank : es.map (·.blank) = es'.map (·.blank)) (hpaired : ∀ e ∈ es, e.Paired)
    (h : linesFrom seen es = linesFrom seen' es') :
    ranks seen (es.flatMap mentions) = ranks seen' (es'.flatMap mentions) := by
  induction es generalizing es' seen seen' with
  | nil => rw [List.map_eq_nil_iff.1 hblank.symm]; rfl
  | cons e es ih =>
    cases es' with
    | nil => cases hblank
    | cons e' es' =>
      obtain ⟨he, hes⟩ := List.cons.inj hblank
      rw [linesFrom, linesFrom, ← layout_congr he] at h
      obtain ⟨hhead, htail⟩ := List.append_inj h (length_layout _ _ _)
      have hranks := layout_injective (hpaired e (by simp)) (length_ranks _ _)
        ((length_ranks _ _).trans (length_mentions he).symm) hhead
      rw [List.flatMap_cons, List.flatMap_cons, ranks_append, ranks_append, hranks,
        ih hes (fun e he => hpaired e (by simp [he])) htail]

/-- **Lists of labels with the same ranks are renamings of each other**, and a renaming of those that
have been mentioned can be kept. -/
theorem exists_renaming {ls ls' : List Label} (seen : List Label) (σ : Equiv.Perm Label)
    (h : ranks seen ls = ranks (seen.map σ) ls') :
    ∃ τ : Equiv.Perm Label, seen.map τ = seen.map σ ∧ ls.map τ = ls' := by
  induction ls generalizing ls' seen σ with
  | nil =>
    have hlength := congrArg List.length h
    rw [length_ranks, length_ranks] at hlength
    exact ⟨σ, rfl, (List.length_eq_zero_iff.1 hlength.symm).symm⟩
  | cons l ls ih =>
    cases ls' with
    | nil => cases h
    | cons l' ls' =>
      obtain ⟨hrank, hranks⟩ := List.cons.inj h
      by_cases hl : l ∈ seen
      · -- The label at this rank is known, and so is its new name.
        have hlt := List.idxOf_lt_length_iff.2 hl
        have hmem : l' ∈ seen.map σ := by
          rw [← List.idxOf_lt_length_iff, ← hrank, List.length_map]
          exact hlt
        have hl' : σ l = l' := by
          have h₁ := List.getElem_idxOf hlt
          have h₂ := List.getElem_idxOf (List.idxOf_lt_length_iff.2 hmem)
          simp only [← hrank, List.getElem_map, h₁] at h₂
          exact h₂
        rw [note, note, if_pos hl, if_pos hmem] at hranks
        obtain ⟨τ, hτ, hls⟩ := ih seen σ hranks
        have hτl : τ l = σ l := List.map_inj_left.1 hτ l hl
        exact ⟨τ, hτ, by rw [List.map_cons, hτl, hl', hls]⟩
      · -- The label is new on both sides: nothing that is known has either of the two names.
        have hl' : l' ∉ seen.map σ := by
          rw [← List.idxOf_lt_length_iff, ← hrank, List.idxOf_eq_length hl, List.length_map]
          exact lt_irrefl _
        have hkept : ∀ s ∈ seen, Equiv.swap (σ l) l' (σ s) = σ s := by
          intro s hs
          refine Equiv.swap_apply_of_ne_of_ne ?_ ?_
          · rintro heq
            exact hl (σ.injective heq ▸ hs)
          · rintro rfl
            exact hl' (List.mem_map_of_mem hs)
        have hknown : seen.map (σ.trans (Equiv.swap (σ l) l')) = seen.map σ :=
          List.map_congr_left hkept
        have hnote : (note seen l).map (σ.trans (Equiv.swap (σ l) l')) = note (seen.map σ) l' := by
          rw [note, note, if_neg hl, if_neg hl', List.map_append, hknown]
          simp
        rw [← hnote] at hranks
        obtain ⟨τ, hτ, hls⟩ := ih _ _ hranks
        rw [hnote, note, note, if_neg hl, if_neg hl', List.map_append] at hτ
        obtain ⟨hseen, hlast⟩ := List.append_inj hτ (by simp)
        have hτl : τ l = l' := by simpa using hlast
        exact ⟨τ, hseen, by rw [List.map_cons, hτl, hls]⟩

/-- Events are renamed as their labels are. -/
theorem relabel_eq_of_labels_eq {es es' : List MethodEvent} {f : Label → Label}
    (hblank : es.map (·.blank) = es'.map (·.blank))
    (h : (es.flatMap (·.labels)).map f = es'.flatMap (·.labels)) :
    es.map (·.relabel f) = es' := by
  induction es generalizing es' with
  | nil => exact (List.map_eq_nil_iff.1 hblank.symm).symm
  | cons e es ih =>
    cases es' with
    | nil => cases hblank
    | cons e' es' =>
      obtain ⟨he, hes⟩ := List.cons.inj hblank
      rw [List.flatMap_cons, List.flatMap_cons, List.map_append] at h
      obtain ⟨hhead, htail⟩ := List.append_inj h
        (by rw [List.length_map, MethodEvent.length_labels he])
      rw [List.map_cons, MethodEvent.relabel_eq he hhead, ih hes htail]

theorem flatMap_mentions {es : List MethodEvent} (h : ∀ e ∈ es, e.Paired) :
    es.flatMap mentions = es.flatMap (·.labels) :=
  List.flatMap_congr fun e he => mentions_eq_labels (h e he)

/-- Whether each target has a key is not a matter of labels. -/
theorem paired_relabel (f : Label → Label) (e : MethodEvent) : (e.relabel f).Paired ↔ e.Paired := by
  cases e
  case instruction i =>
    cases i
    case lookupSwitch => simp [MethodEvent.Paired, MethodEvent.relabel, Instruction.map]
    all_goals exact Iff.rfl
  all_goals exact Iff.rfl

theorem paired_congr {es es' : List MethodEvent}
    (hblank : es.map (·.blank) = es'.map (·.blank)) (h : ∀ e ∈ es, e.Paired) :
    ∀ e ∈ es', e.Paired := by
  intro e' he'
  obtain ⟨e, he, heq⟩ := List.mem_map.1 (hblank ▸ List.mem_map_of_mem he' : e'.blank ∈ es.map _)
  have hblanked : e'.blank.Paired := heq ▸ (paired_relabel _ e).2 (h e he)
  exact (paired_relabel _ e').1 hblanked

/-- **Traces show labels up to renaming.**  Renaming the labels of a method changes nothing, as long
as different labels get different names.  And if methods are the same but for their labels, and each
target of a `lookupswitch` has a key, then they have the same trace only if some renaming turns one
into the other. -/
theorem allMethodLines_renaming (es : List MethodEvent) :
    (∀ f : Label → Label, Set.InjOn f {l | ∃ e ∈ es, l ∈ e.labels} →
      allMethodLines (es.map (·.relabel f)) = allMethodLines es) ∧
    ∀ es', es.map (·.blank) = es'.map (·.blank) → (∀ e ∈ es, e.Paired) →
      allMethodLines es = allMethodLines es' →
      ∃ σ : Equiv.Perm Label, es.map (·.relabel σ) = es' := by
  refine ⟨fun f hf => ?_, fun es' hblank hpaired h => ?_⟩
  · rw [allMethodLines_eq, allMethodLines_eq]
    exact linesFrom_relabel hf (fun e he l hl => ⟨e, he, hl⟩) [] (by simp)
  · rw [allMethodLines_eq, allMethodLines_eq] at h
    have hranks := ranks_eq_of_linesFrom_eq hblank hpaired h
    rw [flatMap_mentions hpaired, flatMap_mentions (paired_congr hblank hpaired)] at hranks
    obtain ⟨σ, -, hσ⟩ := exists_renaming [] (Equiv.refl Label) hranks
    exact ⟨σ, relabel_eq_of_labels_eq hblank hσ⟩

/-- A loop whose head is a debug label, and a switch that leaves it. -/
theorem allMethodLines_renaming_switch :
    let a : Label := ⟨0, true⟩
    let b : Label := ⟨1, false⟩
    let swap : Label → Label := fun l => if l = a then b else a
    let es : List MethodEvent := [.handler a b a none, .label a,
      .instruction (.lookupSwitch b [7, -1] [a, b]), .line 3 a, .label b]
    let es' : List MethodEvent := [.handler b a b none, .label b,
      .instruction (.lookupSwitch a [7, -1] [b, a]), .line 3 b, .label a]
    allMethodLines (es.map (·.relabel swap)) = allMethodLines es ∧
      ∃ σ : Equiv.Perm Label, es.map (·.relabel σ) = es' := by
  intro a b swap es es'
  have hsame : ∀ l, (∃ e ∈ es, l ∈ e.labels) → l = a ∨ l = b := by
    intro l hl
    simp only [es, List.mem_cons, List.not_mem_nil, or_false, exists_eq_or_imp, exists_eq_left,
      MethodEvent.labels, Instruction.targets] at hl
    tauto
  have hswap : Set.InjOn swap {l | ∃ e ∈ es, l ∈ e.labels} := by
    intro l hl l' hl' h
    rcases hsame l hl with rfl | rfl <;> rcases hsame l' hl' with rfl | rfl <;> revert h <;> decide
  have htrace := (allMethodLines_renaming es).1 swap hswap
  have hes' : es.map (·.relabel swap) = es' := rfl
  exact ⟨htrace, (allMethodLines_renaming es).2 es' rfl (by simp [es, MethodEvent.Paired])
    (hes' ▸ htrace.symm)⟩

end Trace

end ClassFile
