import Mathlib.Algebra.GroupWithZero.Nat
import Mathlib.Algebra.Order.BigOperators.Group.List
import Mathlib.Algebra.Order.Group.Nat
import MobileTestkit.L3Query.WherePredicates

/-!
# The strings of a tree

The two loops put every string of their items into the tree once at most, as it is or
stripped of its white space.

* `compileWhere_total`: a measure on strings that stripping does not raise is, over
  the strings of a compiled tree, no more than over those of the items.
-/
namespace MobileTestkit.L3.RqgParser

open MobileTestkit.Core

mutual
/-- The strings in a value, the names of operators among them. -/
def strings : Value → List String
  | .str s => [s]
  | .int _ => []
  | .list vs => stringsAll vs

def stringsAll : List Value → List String
  | [] => []
  | v :: vs => strings v ++ stringsAll vs
end

theorem stringsAll_append (vs ws : List Value) : stringsAll (vs ++ ws) = stringsAll vs ++ stringsAll ws := by
  induction vs with
  | nil => rfl
  | cons v vs ih => simp [stringsAll, ih]

theorem mem_stringsAll {s : String} {vs : List Value} : s ∈ stringsAll vs ↔ ∃ v ∈ vs, s ∈ strings v := by
  induction vs with
  | nil => simp [stringsAll]
  | cons v vs ih => simp [stringsAll, ih]

/-- What an item puts into the lists of the program. -/
def itemValue (w : String) : Value := if w ∈ operators then .str w else getOperand w

/-! ## Measures -/

/-- The sum of a measure over the strings of some values. -/
def total (μ : String → Nat) (vs : List Value) : Nat := ((stringsAll vs).map μ).sum

theorem total_append (μ : String → Nat) (vs ws : List Value) : total μ (vs ++ ws) = total μ vs + total μ ws := by
  simp [total, stringsAll_append]

theorem total_cons (μ : String → Nat) (v : Value) (vs : List Value) :
    total μ (v :: vs) = total μ [v] + total μ vs := total_append μ [v] vs

theorem total_str (μ : String → Nat) (s : String) : total μ [.str s] = μ s := by
  simp [total, stringsAll, strings]

theorem total_int (μ : String → Nat) (n : Nat) : total μ [.int n] = 0 := by
  simp [total, stringsAll, strings]

theorem total_list (μ : String → Nat) (vs : List Value) : total μ [.list vs] = total μ vs := by
  simp [total, stringsAll, strings]

theorem total_reverse (μ : String → Nat) (vs : List Value) : total μ vs.reverse = total μ vs := by
  induction vs with
  | nil => rfl
  | cons v vs ih =>
    rw [List.reverse_cons, total_append, ih, total_cons μ v vs]
    omega

/-- Of the strings of one value none has more than all. -/
theorem le_total {μ : String → Nat} {s : String} {vs : List Value} (hs : s ∈ stringsAll vs) : μ s ≤ total μ vs :=
  List.single_le_sum (fun _ _ => Nat.zero_le _) _ (List.mem_map_of_mem hs)

/-! ## The second stack -/

section
variable {μ : String → Nat}

theorem popList_total {st opd rest : List Value} (h : popList st = .ok (opd, rest)) :
    total μ opd + total μ rest ≤ total μ st := by
  induction st generalizing opd rest with
  | nil => cases h
  | cons item st ih =>
    have hmore := total_cons μ item st
    have hkeep : ∀ {r : List Value × List Value}, popList st = .ok r →
        total μ (item :: r.1) + total μ r.2 ≤ total μ (item :: st) := by
      intro r hr
      have hle := @ih r.1 r.2 hr
      have hcons := total_cons μ item r.1
      omega
    cases item with
    | str s =>
      simp only [popList] at h
      split at h
      · cases h
        rw [hmore]
        simp [total, stringsAll]
      · obtain ⟨r, hr, h⟩ := Loop.bind_eq_ok.mp h
        have hle := hkeep hr
        have hcons := total_cons μ (.str s) r.1
        split at h
        · cases h
          omega
        · cases h
          exact hle
    | int n =>
      obtain ⟨r, hr, h⟩ := Loop.bind_eq_ok.mp h
      cases h
      exact hkeep hr
    | list vs =>
      obtain ⟨r, hr, h⟩ := Loop.bind_eq_ok.mp h
      cases h
      exact hkeep hr

/-- Stripping does not raise the measure. -/
abbrev Stripped (μ : String → Nat) : Prop := ∀ s : String, μ (String.ofList (PyStr.strip s.toList)) ≤ μ s

theorem popIn_total (hstrip : Stripped μ) {st opd rest : List Value} (h : popIn st = .ok (opd, rest)) :
    total μ opd + total μ rest ≤ total μ st := by
  obtain ⟨s, items, tail, rfl, hlist, rfl⟩ := popIn_cases h
  have hle := popList_total (μ := μ) hlist
  have hvar := hstrip s
  have hopd := total_cons μ (.str (String.ofList (PyStr.strip s.toList))) [.list items]
  have hst := total_cons μ (.str s) tail
  rw [total_str, total_list] at hopd
  rw [total_str] at hst
  omega

/-- A round of the second loop adds the strings of its token at most. -/
theorem evalToken_total (hstrip : Stripped μ) {st st' : List Value} {t : Value} (h : evalToken st t = .ok st') :
    total μ st' ≤ total μ [t] + total μ st := by
  rcases evalToken_cases h with ⟨-, rfl⟩ | ⟨op, opd, rest, rfl, -, rfl, hpop⟩
  · exact Nat.le_of_eq (total_cons μ t st)
  have hnode : total μ (.list (.str op :: opd) :: rest) = μ op + total μ opd + total μ rest := by
    rw [total_cons, total_list, total_cons, total_str]
  rw [hnode, total_str]
  split at hpop
  · have hle := popIn_total hstrip hpop
    omega
  · rw [hpop, total_append]
    omega

theorem eval_total (hstrip : Stripped μ) {l st : List Value} (h : l.foldlM evalToken [] = .ok st) :
    total μ st ≤ total μ l := by
  have hstart : total μ [] ≤ total μ [] := Nat.le_refl _
  refine Loop.foldlM_inv (I := fun done st => total μ st ≤ total μ done)
    (fun done s t s' _ hs hstep => ?_) hstart h
  have := evalToken_total hstrip hstep
  rw [total_append]
  omega

/-! ## The first stack -/

/-- A round of the first loop. -/
theorem shuntToken_total {st st' : List String × List Value} {t : String} (h : shuntToken st t = .ok st') :
    total μ (st'.1.map .str) + total μ st'.2 ≤
      total μ [itemValue t] + (total μ (st.1.map .str) + total μ st.2) := by
  obtain ⟨ops, res⟩ := st
  rcases shuntToken_cases h with ⟨hmem, rfl⟩ | ⟨hmem, -, popped, rest, rfl, rfl⟩ | ⟨rfl, popped, rest, rfl, rfl⟩
  · simp only [total_append, itemValue, if_neg hmem]
    omega
  · have hcons := total_cons μ (.str t) (rest.map .str)
    simp only [List.map_append, List.map_cons, total_append, itemValue, if_pos hmem]
    omega
  · have hcons := total_cons μ (.str "(") (rest.map .str)
    simp only [List.map_append, List.map_cons, total_append]
    omega

theorem total_swapParen (hparen : μ "(" = μ ")") (w : String) :
    total μ [itemValue (swapParen w)] = total μ [itemValue w] := by
  have hopen : total μ [itemValue "("] = μ "(" := total_str μ "("
  have hclose : total μ [itemValue ")"] = μ ")" := total_str μ ")"
  unfold swapParen
  split
  · rename_i h
    rw [h, hopen, hclose, hparen]
  · split
    · rename_i h
      rw [h, hopen, hclose, hparen]
    · rfl

theorem total_turned (hparen : μ "(" = μ ")") (hzero : μ ")" = 0) (items : List String) :
    total μ ((turned items).map itemValue) = total μ (items.map itemValue) := by
  have hmap : ∀ ws : List String, total μ ((ws.map swapParen).map itemValue) = total μ (ws.map itemValue) := by
    intro ws
    induction ws with
    | nil => rfl
    | cons w ws ih =>
      simp only [List.map_cons]
      rw [total_cons, total_cons μ (itemValue w), ih, total_swapParen hparen]
  have hopen : total μ (["("].map itemValue) = 0 := (total_str μ "(").trans (hparen.trans hzero)
  have hclose : total μ ([")"].map itemValue) = 0 := (total_str μ ")").trans hzero
  rw [turned, List.map_append, List.map_append, total_append, total_append, hopen, hclose, hmap,
    List.map_reverse, total_reverse]
  omega

/-- What the two loops leave has the strings of the items at most. -/
theorem runs_total (hstrip : Stripped μ) (hparen : μ "(" = μ ")") (hzero : μ ")" = 0)
    {items : List String} {st : List String × List Value} {stack : List Value}
    (hloop : (turned items).foldlM shuntToken ([], []) = .ok st) (hstack : st.2.foldlM evalToken [] = .ok stack) :
    total μ stack ≤ total μ (items.map itemValue) := by
  have hstart : total μ ((([], []) : List String × List Value).1.map .str) +
      total μ (([], []) : List String × List Value).2 ≤ total μ (([] : List String).map itemValue) := Nat.le_refl _
  have hshunt := Loop.foldlM_inv
    (I := fun done (st : List String × List Value) =>
      total μ (st.1.map .str) + total μ st.2 ≤ total μ (done.map itemValue))
    (fun done s t s' _ hs hstep => by
      have hround := shuntToken_total (μ := μ) hstep
      rw [List.map_append, List.map_singleton, total_append]
      omega) hstart hloop
  rw [List.nil_append, total_turned hparen hzero] at hshunt
  have hle := eval_total hstrip hstack
  omega

theorem compileWhere_total (hstrip : Stripped μ) (hparen : μ "(" = μ ")") (hzero : μ ")" = 0)
    {query : String} {v : Value} (h : compileWhere query = .ok v) :
    total μ [v] ≤ total μ ((joinWords (wordsOf query)).map itemValue) := by
  obtain ⟨st, stack, hloop, hstack⟩ := compileWhere_runs.mp h
  have hle := runs_total hstrip hparen hzero hloop hstack
  rw [total_cons] at hle
  omega

end

end MobileTestkit.L3.RqgParser
