import Mathlib.Data.List.TakeWhile
import MobileTestkit.L3Query.TreeStrings
import MobileTestkit.L3Query.WhereOperators

/-!
# Built trees

Trees as the second loop builds them, also with other strings in the place of some.

* `Built`: an operator stands in front of its operands only, and no bracket or comma in a
  list of an `IN`.
* `runs_built`: what the two loops leave is built where the values of the operands are.
* `operandText_fill`, `isItem_fill`: what the other strings are in a tree that is built
  with both.
-/
namespace MobileTestkit.L3.RqgParser

open MobileTestkit.Core
open MobileTestkit.L3.WhereOperators (IsItem)

/-! ## Other strings -/

mutual
/-- A value with other strings in it. -/
def fill (f : String → String) : Value → Value
  | .str s => .str (f s)
  | .int n => .int n
  | .list vs => .list (fillAll f vs)

def fillAll (f : String → String) : List Value → List Value
  | [] => []
  | v :: vs => fill f v :: fillAll f vs
end

theorem fillAll_eq_map (f : String → String) (vs : List Value) : fillAll f vs = vs.map (fill f) := by
  induction vs with
  | nil => rfl
  | cons v vs ih => rw [fillAll, ih, List.map_cons]

theorem fillAll_append (f : String → String) (vs ws : List Value) :
    fillAll f (vs ++ ws) = fillAll f vs ++ fillAll f ws := by
  simp only [fillAll_eq_map, List.map_append]

mutual
theorem strings_fill (f : String → String) : (v : Value) → strings (fill f v) = (strings v).map f
  | .str s => rfl
  | .int n => rfl
  | .list vs => by
    rw [fill, strings, strings]
    exact stringsAll_fill f vs

theorem stringsAll_fill (f : String → String) : (vs : List Value) → stringsAll (fillAll f vs) = (stringsAll vs).map f
  | [] => rfl
  | v :: vs => by rw [fillAll, stringsAll, stringsAll, strings_fill f v, stringsAll_fill f vs, List.map_append]
end

mutual
/-- A value without the strings that are replaced. -/
theorem fill_other {f : String → String} : (v : Value) → (∀ s ∈ strings v, f s = s) → fill f v = v
  | .str s, h => by rw [fill, h s (by simp [strings])]
  | .int _, _ => rfl
  | .list vs, h => by rw [fill, fillAll_other vs h]

theorem fillAll_other {f : String → String} : (vs : List Value) → (∀ s ∈ stringsAll vs, f s = s) → fillAll f vs = vs
  | [], _ => rfl
  | v :: vs, h => by
    rw [fillAll, fill_other v fun s hs => h s (List.mem_append_left _ hs),
      fillAll_other vs fun s hs => h s (List.mem_append_right _ hs)]
end

/-- The strings among some values. -/
def strItems (vs : List Value) : List String :=
  vs.filterMap fun
    | .str s => some s
    | _ => none

mutual
/-- The strings that stand in a list of an `IN`. -/
def listed : Value → List String
  | .list (.str op :: vs) => if op = "IN" then listedIn vs else listedAll vs
  | _ => []

def listedAll : List Value → List String
  | [] => []
  | v :: vs => listed v ++ listedAll vs

def listedIn : List Value → List String
  | [] => []
  | .list items :: vs => strItems items ++ listedAll items ++ listedIn vs
  | _ :: vs => listedIn vs
end

theorem mem_listedAll {s : String} {vs : List Value} : s ∈ listedAll vs ↔ ∃ v ∈ vs, s ∈ listed v := by
  induction vs with
  | nil => simp [listedAll]
  | cons v vs ih => simp [listedAll, ih]

/-- The strings that an `IN` has in its list. -/
theorem listed_in {op : String} (hin : op = "IN") (s : String) (items : List Value) :
    listed (.list [.str op, .str s, .list items]) = strItems items ++ listedAll items := by
  simp [listed, hin, listedIn]

theorem listed_node {op : String} (hin : op ≠ "IN") (opd : List Value) :
    listed (.list (.str op :: opd)) = listedAll opd := by
  simp [listed, hin]

theorem mem_strItems {s : String} {vs : List Value} : s ∈ strItems vs ↔ .str s ∈ vs := by
  simp only [strItems, List.mem_filterMap]
  constructor
  · rintro ⟨v, hv, hs⟩
    cases v with
    | str u =>
      cases hs
      exact hv
    | int n => cases hs
    | list us => cases hs
  · exact fun hs => ⟨.str s, hs, rfl⟩

mutual
theorem strings_of_listed {s : String} : (v : Value) → s ∈ listed v → s ∈ strings v
  | .str _, h => by cases h
  | .int _, h => by cases h
  | .list [], h => by cases h
  | .list (.int _ :: _), h => by cases h
  | .list (.list _ :: _), h => by cases h
  | .list (.str op :: vs), h => by
    rw [listed] at h
    refine List.mem_append_right _ ?_
    split at h
    · exact strings_of_listedIn vs h
    · exact strings_of_listedAll vs h

theorem strings_of_listedAll {s : String} : (vs : List Value) → s ∈ listedAll vs → s ∈ stringsAll vs
  | [], h => by cases h
  | v :: vs, h => by
    rcases List.mem_append.mp h with h | h
    · exact List.mem_append_left _ (strings_of_listed v h)
    · exact List.mem_append_right _ (strings_of_listedAll vs h)

theorem strings_of_listedIn {s : String} : (vs : List Value) → s ∈ listedIn vs → s ∈ stringsAll vs
  | [], h => by cases h
  | .list items :: vs, h => by
    rw [listedIn] at h
    rcases List.mem_append.mp h with h | h
    · refine List.mem_append_left _ ?_
      rcases List.mem_append.mp h with h | h
      · exact mem_stringsAll.mpr ⟨.str s, mem_strItems.mp h, List.mem_singleton.mpr rfl⟩
      · exact strings_of_listedAll items h
    · exact List.mem_append_right _ (strings_of_listedIn vs h)
  | .str _ :: vs, h => List.mem_append_right _ (strings_of_listedIn vs h)
  | .int _ :: vs, h => List.mem_append_right _ (strings_of_listedIn vs h)
end

/-! ## Built trees -/

/-- No operator's name, and no white space at its ends unless there is a quote in it. -/
def OperandText (s : String) : Prop := s ∉ operators ∧ (PyStr.Trimmed s.toList ∨ '"' ∈ s.toList)

mutual
/-- An operand, or an operator with its operands. -/
def Built : Value → Prop
  | .str s => OperandText s
  | .int _ => True
  | .list (.str op :: vs) =>
    if op = "IN" then BuiltIn vs
    else if op ∈ operators then BuiltAll vs
    else PyStr.startswith op "." = true ∧ vs = []
  | .list _ => False

def BuiltAll : List Value → Prop
  | [] => True
  | v :: vs => Built v ∧ BuiltAll vs

def BuiltIn : List Value → Prop
  | [] => True
  | .list items :: vs => BuiltAll items ∧ (∀ v ∈ items, IsItem v) ∧ BuiltIn vs
  | v :: vs => Built v ∧ BuiltIn vs
end

theorem builtAll_iff {vs : List Value} : BuiltAll vs ↔ ∀ v ∈ vs, Built v := by
  induction vs with
  | nil => simp [BuiltAll]
  | cons v vs ih => simp [BuiltAll, ih]

theorem popList_items {st opd rest : List Value} (h : popList st = .ok (opd, rest)) : ∀ v ∈ opd, IsItem v := by
  induction st generalizing opd rest with
  | nil => cases h
  | cons item st ih =>
    have hkeep : ∀ {r : List Value × List Value}, popList st = .ok r → IsItem item →
        ∀ v ∈ item :: r.1, IsItem v :=
      fun hr hitem => List.forall_mem_cons.mpr ⟨hitem, ih hr⟩
    cases item with
    | str s =>
      simp only [popList] at h
      split at h
      · cases h
        simp
      · rename_i hclose
        obtain ⟨r, hr, h⟩ := Loop.bind_eq_ok.mp h
        split at h
        · cases h
          exact ih hr
        · rename_i hsep
          cases h
          obtain ⟨hopen, hcomma⟩ := not_or.mp hsep
          exact hkeep hr ⟨hopen, hcomma, hclose⟩
    | int n =>
      obtain ⟨r, hr, h⟩ := Loop.bind_eq_ok.mp h
      cases h
      exact hkeep hr trivial
    | list vs =>
      obtain ⟨r, hr, h⟩ := Loop.bind_eq_ok.mp h
      cases h
      exact hkeep hr trivial

theorem mem_dropWhile {α : Type} {p : α → Bool} {c : α} (hc : p c = false) {l : List α} (h : c ∈ l) :
    c ∈ l.dropWhile p := by
  rw [← List.takeWhile_append_dropWhile (p := p) (l := l)] at h
  rcases List.mem_append.mp h with h | h
  · have htrue := List.mem_takeWhile_imp h
    rw [hc] at htrue
    cases htrue
  · exact h

theorem OperandText.strip {s : String} (h : OperandText s) : OperandText (String.ofList (PyStr.strip s.toList)) := by
  rcases h.2 with htrim | hquote
  · rwa [htrim.strip, String.ofList_toList]
  · have hmem : '"' ∈ (String.ofList (PyStr.strip s.toList)).toList := by
      rw [String.toList_ofList, PyStr.strip, List.mem_reverse]
      exact mem_dropWhile (by decide) (List.mem_reverse.mpr (mem_dropWhile (by decide) hquote))
    have hops : ∀ op ∈ operators, '"' ∉ op.toList := by decide
    exact ⟨fun hop => hops _ hop hmem, .inr hmem⟩

/-- A round of the second loop. -/
theorem evalToken_built {st st' : List Value} {t : Value} (h : evalToken st t = .ok st')
    (hst : ∀ v ∈ st, Built v) (ht : operator? t = none → Built t) : ∀ v ∈ st', Built v := by
  rcases evalToken_cases h with ⟨hnone, rfl⟩ | ⟨op, opd, rest, rfl, hmem, rfl, hpop⟩
  · exact List.forall_mem_cons.mpr ⟨ht hnone, hst⟩
  split at hpop
  · rename_i hin
    obtain ⟨s, items, tail, rfl, hlist, rfl⟩ := popIn_cases hpop
    obtain ⟨hs, htail⟩ := List.forall_mem_cons.mp hst
    obtain ⟨hitems, hrest⟩ := popList_mem hlist
    have htext : OperandText s := by simpa [Built] using hs
    refine List.forall_mem_cons.mpr ⟨?_, fun v hv => htail v (hrest v hv)⟩
    rw [Built, if_pos hin]
    refine ⟨?_, builtAll_iff.mpr fun v hv => htail v (hitems v hv), popList_items hlist, trivial⟩
    rw [Built]
    exact htext.strip
  · rename_i hin
    rw [hpop] at hst
    obtain ⟨hopd, hrest⟩ := List.forall_mem_append.mp hst
    refine List.forall_mem_cons.mpr ⟨?_, hrest⟩
    rw [Built, if_neg hin, if_pos hmem]
    exact builtAll_iff.mpr hopd

/-! ## Built trees with other strings -/

/-- A string that stands in front of the others of a node. -/
def Head (s : String) : Prop := s ∈ operators ∨ PyStr.startswith s "." = true

theorem built_head {op : String} {vs : List Value} (h : Built (.list (.str op :: vs))) : Head op := by
  rw [Built] at h
  split at h
  · rename_i hin
    exact .inl (hin ▸ by decide)
  · split at h
    · rename_i hop
      exact .inl hop
    · exact .inr h.1

/-- What stands in front of a node is left as it is. -/
abbrev KeepsHeads (f : String → String) : Prop := ∀ s, Head s → f s = s

section
variable {f : String → String}

mutual
/-- In a built tree that is built with other strings as well, these are texts of operands. -/
theorem operandText_fill (hf : KeepsHeads f) : (v : Value) → Built v → Built (fill f v) →
    ∀ s ∈ strings v, Head s ∨ OperandText (f s)
  | .str s, _, h', u, hu => by
    rw [strings, List.mem_singleton] at hu
    rw [hu]
    exact .inr h'
  | .int _, _, _, u, hu => by cases hu
  | .list [], h, _, _, _ => h.elim
  | .list (.int _ :: _), h, _, _, _ => h.elim
  | .list (.list _ :: _), h, _, _, _ => h.elim
  | .list (.str op :: vs), h, h', u, hu => by
    have hhead := built_head h
    rw [strings, stringsAll, strings] at hu
    rcases List.mem_append.mp hu with hu | hu
    · rw [List.mem_singleton.mp hu]
      exact .inl hhead
    rw [fill, fillAll, fill, hf op hhead] at h'
    rw [Built] at h h'
    split at h
    · rename_i hin
      rw [if_pos hin] at h'
      exact operandText_fillIn hf vs h h' u hu
    · rename_i hin
      rw [if_neg hin] at h'
      split at h
      · rename_i hop
        rw [if_pos hop] at h'
        exact operandText_fillAll hf vs h h' u hu
      · rw [h.2] at hu
        cases hu

theorem operandText_fillAll (hf : KeepsHeads f) : (vs : List Value) → BuiltAll vs → BuiltAll (fillAll f vs) →
    ∀ s ∈ stringsAll vs, Head s ∨ OperandText (f s)
  | [], _, _, _, hu => by cases hu
  | v :: vs, h, h', u, hu => by
    rcases List.mem_append.mp hu with hu | hu
    · exact operandText_fill hf v h.1 h'.1 u hu
    · exact operandText_fillAll hf vs h.2 h'.2 u hu

theorem operandText_fillIn (hf : KeepsHeads f) : (vs : List Value) → BuiltIn vs → BuiltIn (fillAll f vs) →
    ∀ s ∈ stringsAll vs, Head s ∨ OperandText (f s)
  | [], _, _, _, hu => by cases hu
  | .list items :: vs, h, h', u, hu => by
    rcases List.mem_append.mp hu with hu | hu
    · exact operandText_fillAll hf items h.1 h'.1 u hu
    · exact operandText_fillIn hf vs h.2.2 h'.2.2 u hu
  | .str s :: vs, h, h', u, hu => by
    rcases List.mem_append.mp hu with hu | hu
    · exact operandText_fill hf (.str s) h.1 h'.1 u hu
    · exact operandText_fillIn hf vs h.2 h'.2 u hu
  | .int n :: vs, h, h', u, hu => by
    rcases List.mem_append.mp hu with hu | hu
    · cases hu
    · exact operandText_fillIn hf vs h.2 h'.2 u hu
end

mutual
/-- The strings in the lists of such a tree are no brackets or commas. -/
theorem isItem_fill (hf : KeepsHeads f) : (v : Value) → Built v → Built (fill f v) →
    ∀ s ∈ listed v, IsItem (.str (f s))
  | .str _, _, _, _, hu => by cases hu
  | .int _, _, _, _, hu => by cases hu
  | .list [], h, _, _, _ => h.elim
  | .list (.int _ :: _), h, _, _, _ => h.elim
  | .list (.list _ :: _), h, _, _, _ => h.elim
  | .list (.str op :: vs), h, h', u, hu => by
    have hhead := built_head h
    rw [listed] at hu
    rw [fill, fillAll, fill, hf op hhead] at h'
    rw [Built] at h h'
    by_cases hin : op = "IN"
    · rw [if_pos hin] at h h' hu
      exact isItem_fillIn hf vs h h' u hu
    · rw [if_neg hin] at h h' hu
      split at h
      · rename_i hop
        rw [if_pos hop] at h'
        exact isItem_fillAll hf vs h h' u hu
      · rw [h.2] at hu
        cases hu

theorem isItem_fillAll (hf : KeepsHeads f) : (vs : List Value) → BuiltAll vs → BuiltAll (fillAll f vs) →
    ∀ s ∈ listedAll vs, IsItem (.str (f s))
  | [], _, _, _, hu => by cases hu
  | v :: vs, h, h', u, hu => by
    rcases List.mem_append.mp hu with hu | hu
    · exact isItem_fill hf v h.1 h'.1 u hu
    · exact isItem_fillAll hf vs h.2 h'.2 u hu

theorem isItem_fillIn (hf : KeepsHeads f) : (vs : List Value) → BuiltIn vs → BuiltIn (fillAll f vs) →
    ∀ s ∈ listedIn vs, IsItem (.str (f s))
  | [], _, _, _, hu => by cases hu
  | .list items :: vs, h, h', u, hu => by
    rw [listedIn] at hu
    rcases List.mem_append.mp hu with hu | hu
    · rcases List.mem_append.mp hu with hu | hu
      · have hmem := List.mem_map_of_mem (f := fill f) (mem_strItems.mp hu)
        rw [← fillAll_eq_map] at hmem
        exact h'.2.1 _ hmem
      · exact isItem_fillAll hf items h.1 h'.1 u hu
    · exact isItem_fillIn hf vs h.2.2 h'.2.2 u hu
  | .str _ :: vs, h, h', u, hu => isItem_fillIn hf vs h.2 h'.2 u hu
  | .int _ :: vs, h, h', u, hu => isItem_fillIn hf vs h.2 h'.2 u hu
end
end

/-! ## The first loop -/

theorem mem_turned_operand {items : List String} {w : String} (hw : w ∈ turned items) (hno : w ∉ operators) :
    w ∈ items := by
  simp only [turned, List.mem_append, List.mem_singleton, List.mem_map, List.mem_reverse] at hw
  rcases hw with (rfl | ⟨u, hu, rfl⟩) | rfl
  · exact absurd (by decide) hno
  · unfold swapParen at hno ⊢
    split
    · rename_i hopen
      rw [if_pos hopen] at hno
      exact absurd (by decide) hno
    · rename_i hopen
      rw [if_neg hopen] at hno
      split
      · rename_i hclose
        rw [if_pos hclose] at hno
        exact absurd (by decide) hno
      · exact hu
  · exact absurd (by decide) hno

/-- Put out are names of operators and the values of the operands. -/
theorem shunt_values {ts : List String} {st : List String × List Value}
    (h : ts.foldlM shuntToken ([], []) = .ok st) :
    ∀ v ∈ st.2, (∃ op ∈ operators, v = .str op) ∨ ∃ w ∈ ts, w ∉ operators ∧ v = getOperand w := by
  have hkept := Loop.foldlM_keeps (f := shuntToken)
    (P := fun st : List String × List Value => (∀ op ∈ st.1, op ∈ operators) ∧
      ∀ v ∈ st.2, (∃ op ∈ operators, v = .str op) ∨ ∃ w ∈ ts, w ∉ operators ∧ v = getOperand w)
    (fun s t s' ht hs hstep => ?_) (by simp) h
  · exact hkept.2
  obtain ⟨ops, res⟩ := s
  obtain ⟨hops, hres⟩ := hs
  have hpopped : ∀ {popped : List String}, (∀ op ∈ popped, op ∈ operators) → ∀ v ∈ res ++ popped.map .str,
      (∃ op ∈ operators, v = .str op) ∨ ∃ w ∈ ts, w ∉ operators ∧ v = getOperand w := by
    intro popped hp v hv
    rcases List.mem_append.mp hv with hv | hv
    · exact hres v hv
    · obtain ⟨op, hop, rfl⟩ := List.mem_map.mp hv
      exact .inl ⟨op, hp op hop, rfl⟩
  rcases shuntToken_cases hstep with ⟨hmem, rfl⟩ | ⟨hmem, -, popped, rest, rfl, rfl⟩ | ⟨rfl, popped, rest, rfl, rfl⟩
  · refine ⟨hops, fun v hv => ?_⟩
    rcases List.mem_append.mp hv with hv | hv
    · exact hres v hv
    · exact .inr ⟨t, ht, hmem, List.mem_singleton.mp hv⟩
  · obtain ⟨hp, hrest⟩ := List.forall_mem_append.mp hops
    exact ⟨List.forall_mem_cons.mpr ⟨hmem, hrest⟩, hpopped hp⟩
  · obtain ⟨hp, hrest⟩ := List.forall_mem_append.mp hops
    exact ⟨(List.forall_mem_cons.mp hrest).2, hpopped hp⟩

/-- The values of some items are built, whatever is made of them. -/
theorem runs_built {items : List String} {st : List String × List Value} {stack : List Value}
    (hloop : (turned items).foldlM shuntToken ([], []) = .ok st) (hstack : st.2.foldlM evalToken [] = .ok stack)
    (hitems : ∀ w ∈ items, w ∉ operators → operator? (getOperand w) = none → Built (getOperand w)) :
    ∀ v ∈ stack, Built v := by
  refine Loop.foldlM_keeps (P := fun st : List Value => ∀ v ∈ st, Built v)
    (fun s t s' ht hs hstep => evalToken_built hstep hs fun hnone => ?_) (by simp) hstack
  rcases shunt_values hloop t ht with ⟨op, hop, rfl⟩ | ⟨w, hw, hno, rfl⟩
  · simp [operator?, hop] at hnone
  · exact hitems w (mem_turned_operand hw hno) hno hnone

end MobileTestkit.L3.RqgParser
