import MobileTestkit.L3Query.BuiltTrees

/-!
# The loops on other strings

What becomes of a run of the two loops when some strings of its items are put in the
place of others.

* `ListsKept`: no string of a list becomes a bracket or a comma.
* `runs_fill`: the loops do the same on the other strings, as long as these are no
  operators, and the lists are kept.
-/
namespace MobileTestkit.L3.RqgParser

open MobileTestkit.Core
open MobileTestkit.L3.WhereOperators (IsItem)

/-! ## Rounds for operators -/

theorem operator_eq_some {t : Value} {op : String} : operator? t = some op ↔ t = .str op ∧ op ∈ operators := by
  cases t with
  | str s =>
    simp only [operator?, Value.str.injEq]
    split
    · rename_i h
      constructor
      · rintro he
        cases he
        exact ⟨rfl, h⟩
      · rintro ⟨rfl, -⟩
        rfl
    · rename_i h
      constructor
      · rintro ⟨⟩
      · rintro ⟨rfl, hop⟩
        exact absurd hop h
  | int n => simp [operator?]
  | list vs => simp [operator?]

/-- A round for an operator. -/
theorem evalToken_op_eq_ok {st st' : List Value} {op : String} (hop : op ∈ operators) :
    evalToken st (.str op) = .ok st' ↔ ∃ text n opd rest, get operations op = .ok text ∧ PyStr.int text = some n ∧
      (if op = "IN" then popIn st else popOperands n.toNat st) = .ok (opd, rest) ∧
        st' = .list (.str op :: opd) :: rest := by
  have hsome : operator? (.str op) = some op := operator_eq_some.mpr ⟨rfl, hop⟩
  simp only [evalToken, hsome]
  constructor
  · intro h
    obtain ⟨text, htext, h⟩ := Loop.bind_eq_ok.mp h
    cases hn : PyStr.int text with
    | none =>
      rw [hn] at h
      cases h
    | some n =>
      rw [hn] at h
      by_cases hin : op = "IN"
      · simp only [if_pos hin] at h
        obtain ⟨⟨opd, rest⟩, hpop, h⟩ := Loop.bind_eq_ok.mp h
        cases h
        exact ⟨text, n, opd, rest, htext, hn, by rwa [if_pos hin], rfl⟩
      · simp only [if_neg hin] at h
        obtain ⟨⟨opd, rest⟩, hpop, h⟩ := Loop.bind_eq_ok.mp h
        cases h
        exact ⟨text, n, opd, rest, htext, hn, by rwa [if_neg hin], rfl⟩
  · rintro ⟨text, n, opd, rest, htext, hn, hpop, rfl⟩
    refine Loop.bind_eq_ok.mpr ⟨text, htext, ?_⟩
    rw [hn]
    by_cases hin : op = "IN"
    · rw [if_pos hin] at hpop
      simp only [if_pos hin]
      exact Loop.bind_eq_ok.mpr ⟨(opd, rest), hpop, rfl⟩
    · rw [if_neg hin] at hpop
      simp only [if_neg hin]
      exact Loop.bind_eq_ok.mpr ⟨(opd, rest), hpop, rfl⟩

/-- The names of operators and what stands around the items of a list are left as they are. -/
structure Keeps (f : String → String) : Prop where
  operator : ∀ op ∈ operators, f op = op
  bracket : ∀ s ∈ ["[", ",", "]"], f s = s

/-- An operator again, or an operand with the other strings in its value. -/
def Alike (f : String → String) (w w' : String) : Prop :=
  (w ∈ operators ∧ w' = w) ∨ (w ∉ operators ∧ w' ∉ operators ∧ getOperand w' = fill f (getOperand w))

/-- Only the brackets and commas of a list are gone when it has been taken. -/
theorem popList_split {st items rest : List Value} (h : popList st = .ok (items, rest)) :
    ∀ v ∈ st, v ∈ items ∨ v ∈ rest ∨ ∃ s, v = .str s := by
  induction st generalizing items rest with
  | nil => cases h
  | cons item st ih =>
    have hkeep : ∀ {r : List Value × List Value}, popList st = .ok r →
        ∀ v ∈ item :: st, v ∈ item :: r.1 ∨ v ∈ r.2 ∨ ∃ s, v = .str s := by
      intro r hr v hv
      rcases List.mem_cons.mp hv with rfl | hv
      · exact .inl List.mem_cons_self
      · rcases @ih r.1 r.2 hr v hv with h | h
        · exact .inl (List.mem_cons_of_mem _ h)
        · exact .inr h
    cases item with
    | str s =>
      intro v hv
      rcases List.mem_cons.mp hv with rfl | hv
      · exact .inr (.inr ⟨s, rfl⟩)
      · simp only [popList] at h
        split at h
        · cases h
          exact .inr (.inl hv)
        · obtain ⟨r, hr, h⟩ := Loop.bind_eq_ok.mp h
          split at h
          · cases h
            exact ih hr v hv
          · cases h
            exact hkeep hr v (List.mem_cons_of_mem _ hv)
    | int n =>
      obtain ⟨r, hr, h⟩ := Loop.bind_eq_ok.mp h
      cases h
      exact hkeep hr
    | list vs =>
      obtain ⟨r, hr, h⟩ := Loop.bind_eq_ok.mp h
      cases h
      exact hkeep hr

/-- No string of a list becomes a bracket or a comma. -/
def ListsKept (f : String → String) (st : List Value) : Prop :=
  ∀ v ∈ st, ∀ s ∈ listed v, IsItem (.str (f s))

theorem popOperands_fill {f : String → String} {n : Nat} {st opd rest : List Value}
    (h : popOperands n st = .ok (opd, rest)) :
    popOperands n (fillAll f st) = .ok (fillAll f opd, fillAll f rest) := by
  induction n generalizing st opd with
  | zero =>
    cases h
    rfl
  | succ n ih =>
    cases st with
    | nil => cases h
    | cons item st =>
      obtain ⟨⟨opd', rest'⟩, hpop, h⟩ := Loop.bind_eq_ok.mp h
      cases h
      exact Loop.bind_eq_ok.mpr ⟨(fillAll f opd', fillAll f rest), ih hpop, rfl⟩

section
variable {f : String → String} (hf : Keeps f)
include hf

/-! ## The second loop -/

/-- The items of a list, if none of them becomes a bracket or a comma. -/
theorem popList_fill {st items rest : List Value} (h : popList st = .ok (items, rest))
    (hitems : ∀ v ∈ items, IsItem (fill f v)) :
    popList (fillAll f st) = .ok (fillAll f items, fillAll f rest) := by
  induction st generalizing items rest with
  | nil => cases h
  | cons item st ih =>
    cases item with
    | str s =>
      have hfilled : popList (fillAll f (.str s :: st)) = popList (.str (f s) :: fillAll f st) := rfl
      rw [hfilled]
      simp only [popList] at h ⊢
      by_cases hclose : s = "]"
      · rw [if_pos hclose] at h
        cases h
        rw [hclose, hf.bracket "]" (by simp), if_pos rfl]
        rfl
      · rw [if_neg hclose] at h
        obtain ⟨⟨items', rest'⟩, hr, h⟩ := Loop.bind_eq_ok.mp h
        by_cases hsep : s = "[" ∨ s = ","
        · rw [if_pos hsep] at h
          cases h
          have hfs : f s = s := hf.bracket s (by rcases hsep with rfl | rfl <;> simp)
          rw [hfs, if_neg hclose]
          refine Loop.bind_eq_ok.mpr ⟨_, ih hr hitems, ?_⟩
          rw [if_pos hsep]
          rfl
        · rw [if_neg hsep] at h
          cases h
          obtain ⟨hitem, hitems⟩ := List.forall_mem_cons.mp hitems
          have hitem : f s ≠ "[" ∧ f s ≠ "," ∧ f s ≠ "]" := hitem
          rw [if_neg hitem.2.2]
          refine Loop.bind_eq_ok.mpr ⟨_, ih hr hitems, ?_⟩
          rw [if_neg (not_or.mpr ⟨hitem.1, hitem.2.1⟩)]
          rfl
    | int n =>
      obtain ⟨⟨items', rest'⟩, hr, h⟩ := Loop.bind_eq_ok.mp h
      cases h
      exact Loop.bind_eq_ok.mpr ⟨_, ih hr (List.forall_mem_cons.mp hitems).2, rfl⟩
    | list vs =>
      obtain ⟨⟨items', rest'⟩, hr, h⟩ := Loop.bind_eq_ok.mp h
      cases h
      exact Loop.bind_eq_ok.mpr ⟨_, ih hr (List.forall_mem_cons.mp hitems).2, rfl⟩

/-- A round of the second loop. What its operator takes is kept in the node, so the
condition goes back to the stack in front of the round. -/
theorem evalToken_fill {st st' : List Value} {t : Value} (h : evalToken st t = .ok st')
    (hop : operator? (fill f t) = operator? t)
    (hstrip : ∀ s, .str s ∈ st →
      f (String.ofList (PyStr.strip s.toList)) = String.ofList (PyStr.strip (f s).toList))
    (hlists : ListsKept f st') :
    evalToken (fillAll f st) (fill f t) = .ok (fillAll f st') ∧ ListsKept f st := by
  rcases evalToken_cases h with ⟨hnone, rfl⟩ | ⟨op, opd, rest, rfl, hmem, rfl, hpop⟩
  · refine ⟨?_, (List.forall_mem_cons.mp hlists).2⟩
    rw [hnone] at hop
    simp only [evalToken, hop]
    rfl
  obtain ⟨text, n, opd', rest', htext, hn, hpop', hst'⟩ := (evalToken_op_eq_ok hmem).mp h
  simp only [List.cons.injEq, Value.list.injEq, true_and] at hst'
  obtain ⟨rfl, rfl⟩ := hst'
  obtain ⟨hnode, hrest⟩ := List.forall_mem_cons.mp hlists
  have htoken : fill f (.str op) = .str op := by rw [fill, hf.operator op hmem]
  have hfilled : fillAll f (.list (.str op :: opd) :: rest) =
      .list (.str op :: fillAll f opd) :: fillAll f rest := by
    simp [fillAll, fill, hf.operator op hmem]
  rw [htoken, evalToken_op_eq_ok hmem, hfilled]
  by_cases hin : op = "IN"
  · rw [if_pos hin] at hpop'
    obtain ⟨s, items, tail, rfl, hlist, rfl⟩ := popIn_cases hpop'
    rw [listed_in hin] at hnode
    have hitems : ∀ v ∈ items, IsItem (fill f v) := by
      intro v hv
      cases v with
      | str u => exact hnode u (List.mem_append_left _ (mem_strItems.mpr hv))
      | int n => trivial
      | list vs => trivial
    refine ⟨⟨text, n, _, _, htext, hn, ?_, rfl⟩, fun v hv => ?_⟩
    · rw [if_pos hin]
      refine Loop.bind_eq_ok.mpr ⟨_, popList_fill hf hlist hitems, ?_⟩
      rw [← hstrip s List.mem_cons_self]
      rfl
    · rcases List.mem_cons.mp hv with rfl | hv
      · simp [listed]
      · rcases popList_split hlist v hv with hv | hv | ⟨u, rfl⟩
        · exact fun u hu => hnode u (List.mem_append_right _ (mem_listedAll.mpr ⟨v, hv, hu⟩))
        · exact hrest v hv
        · simp [listed]
  · rw [if_neg hin] at hpop hpop'
    rw [listed_node hin] at hnode
    refine ⟨⟨text, n, _, _, htext, hn, by rw [if_neg hin]; exact popOperands_fill hpop', rfl⟩, ?_⟩
    rw [hpop]
    exact List.forall_mem_append.mpr ⟨fun v hv u hu => hnode u (mem_listedAll.mpr ⟨v, hv, hu⟩), hrest⟩

/-- The second loop, from its last round back. -/
theorem eval_fill {l st fin : List Value} (h : l.foldlM evalToken st = .ok fin)
    (hops : ∀ t ∈ l, operator? (fill f t) = operator? t)
    (hstrip : ∀ s, .str s ∈ st ++ l →
      f (String.ofList (PyStr.strip s.toList)) = String.ofList (PyStr.strip (f s).toList))
    (hlists : ListsKept f fin) :
    (fillAll f l).foldlM evalToken (fillAll f st) = .ok (fillAll f fin) ∧ ListsKept f st := by
  induction l generalizing st with
  | nil =>
    cases h
    exact ⟨rfl, hlists⟩
  | cons t l ih =>
    rw [List.foldlM_cons, Loop.bind_eq_ok] at h
    obtain ⟨st', hround, h⟩ := h
    have hst' : ∀ s, .str s ∈ st' → .str s ∈ st ++ [t] := by
      intro s hs
      rcases evalToken_cases hround with ⟨-, rfl⟩ | ⟨op, opd, rest, rfl, -, rfl, hpop⟩
      · rcases List.mem_cons.mp hs with rfl | hs
        · simp
        · simp [hs]
      · have hs : .str s ∈ rest := by simpa using hs
        split at hpop
        · obtain ⟨u, items, tail, rfl, hlist, -⟩ := popIn_cases hpop
          simp [(popList_mem hlist).2 _ hs]
        · simp [hpop, hs]
    obtain ⟨hrun, hlists'⟩ := ih h (fun u hu => hops u (List.mem_cons_of_mem _ hu))
      (fun s hs => hstrip s (by
        rcases List.mem_append.mp hs with hs | hs
        · have := hst' s hs
          simp only [List.mem_append, List.mem_cons, List.not_mem_nil, or_false] at this ⊢
          tauto
        · simp [hs]))
    obtain ⟨hround', hst⟩ := evalToken_fill hf hround (hops t List.mem_cons_self)
      (fun s hs => hstrip s (List.mem_append_left _ hs)) hlists'
    refine ⟨?_, hst⟩
    rw [fillAll, List.foldlM_cons, hround']
    exact hrun

/-! ## The first loop -/

theorem fillAll_put {op : String} (hop : op ∈ operators) (res : List Value) :
    fillAll f res ++ [.str op] = fillAll f (res ++ [.str op]) := by
  rw [fillAll_append, fillAll, fill, hf.operator op hop]
  rfl

theorem popGroup_fill {ops ops' : List String} {res res' : List Value} (h : popGroup ops res = .ok (ops', res'))
    (hops : ∀ op ∈ ops, op ∈ operators) : popGroup ops (fillAll f res) = .ok (ops', fillAll f res') := by
  induction ops generalizing res with
  | nil => cases h
  | cons op ops ih =>
    rw [popGroup] at h ⊢
    split
    · rename_i hne
      rw [if_pos hne] at h
      rw [fillAll_put hf (hops op List.mem_cons_self)]
      exact ih h fun u hu => hops u (List.mem_cons_of_mem _ hu)
    · rename_i hne
      rw [if_neg hne] at h
      cases h
      rfl

theorem popTighter_fill {p : Nat} {ops ops' : List String} {res res' : List Value}
    (h : popTighter p ops res = .ok (ops', res')) (hops : ∀ op ∈ ops, op ∈ operators) :
    popTighter p ops (fillAll f res) = .ok (ops', fillAll f res') := by
  induction ops generalizing res with
  | nil => cases h
  | cons op ops ih =>
    rw [popTighter] at h ⊢
    obtain ⟨q, hq, h⟩ := Loop.bind_eq_ok.mp h
    refine Loop.bind_eq_ok.mpr ⟨q, hq, ?_⟩
    split
    · rename_i hlt
      rw [if_pos hlt] at h
      rw [fillAll_put hf (hops op List.mem_cons_self)]
      exact ih h fun u hu => hops u (List.mem_cons_of_mem _ hu)
    · rename_i hlt
      rw [if_neg hlt] at h
      cases h
      rfl

theorem shuntToken_fill {ops : List String} {res : List Value} {st : List String × List Value} {w w' : String}
    (hw : Alike f w w') (h : shuntToken (ops, res) w = .ok st) (hops : ∀ op ∈ ops, op ∈ operators) :
    shuntToken (ops, fillAll f res) w' = .ok (st.1, fillAll f st.2) ∧ ∀ op ∈ st.1, op ∈ operators := by
  rcases hw with ⟨hmem, rfl⟩ | ⟨hno, hno', hvalue⟩
  · refine ⟨?_, ?_⟩
    · simp only [shuntToken, if_neg (not_not_intro hmem)] at h ⊢
      split
      · rename_i hopen
        rw [if_pos hopen] at h
        cases h
        rfl
      · rename_i hopen
        rw [if_neg hopen] at h
        split
        · rename_i hclose
          rw [if_pos hclose] at h
          exact popGroup_fill hf h hops
        · rename_i hclose
          rw [if_neg hclose] at h
          obtain ⟨p, hp, h⟩ := Loop.bind_eq_ok.mp h
          obtain ⟨⟨ops', res'⟩, hpop, h⟩ := Loop.bind_eq_ok.mp h
          cases h
          exact Loop.bind_eq_ok.mpr ⟨p, hp, Loop.bind_eq_ok.mpr ⟨_, popTighter_fill hf hpop hops, rfl⟩⟩
    · rcases shuntToken_cases h with ⟨hno, rfl⟩ | ⟨-, -, popped, rest, rfl, rfl⟩ | ⟨rfl, popped, rest, rfl, rfl⟩
      · exact hops
      · exact List.forall_mem_cons.mpr ⟨hmem, (List.forall_mem_append.mp hops).2⟩
      · exact (List.forall_mem_cons.mp (List.forall_mem_append.mp hops).2).2
  · simp only [shuntToken, if_pos hno, if_pos hno'] at h ⊢
    cases h
    refine ⟨?_, hops⟩
    rw [hvalue, fillAll_append]
    rfl

theorem shunt_fill {ts ts' : List String} (hts : List.Forall₂ (Alike f) ts ts') {ops : List String}
    {res : List Value} {st : List String × List Value} (h : ts.foldlM shuntToken (ops, res) = .ok st)
    (hops : ∀ op ∈ ops, op ∈ operators) :
    ts'.foldlM shuntToken (ops, fillAll f res) = .ok (st.1, fillAll f st.2) := by
  induction hts generalizing ops res with
  | nil =>
    cases h
    rfl
  | cons hw hts ih =>
    rw [List.foldlM_cons, Loop.bind_eq_ok] at h
    obtain ⟨⟨ops', res'⟩, hround, h⟩ := h
    obtain ⟨hround', hops'⟩ := shuntToken_fill hf hw hround hops
    rw [List.foldlM_cons, hround']
    exact ih h hops'

omit hf in
theorem Alike.swapParen {w w' : String} (hw : Alike f w w') : Alike f (swapParen w) (swapParen w') := by
  rcases hw with ⟨hmem, rfl⟩ | ⟨hno, hno', hvalue⟩
  · have hops : ∀ op ∈ operators, RqgParser.swapParen op ∈ operators := by decide
    exact .inl ⟨hops _ hmem, rfl⟩
  · rw [swapParen_operand hno, swapParen_operand hno']
    exact .inr ⟨hno, hno', hvalue⟩

omit hf in
theorem forall₂_turned {items items' : List String} (h : List.Forall₂ (Alike f) items items') :
    List.Forall₂ (Alike f) (turned items) (turned items') := by
  have hparen : ∀ w ∈ ["(", ")"], Alike f w w := by
    intro w hw
    have hops : ∀ w ∈ ["(", ")"], w ∈ operators := by decide
    exact .inl ⟨hops w hw, rfl⟩
  have hopen : List.Forall₂ (Alike f) ["("] ["("] := .cons (hparen "(" (by simp)) .nil
  have hclose : List.Forall₂ (Alike f) [")"] [")"] := .cons (hparen ")" (by simp)) .nil
  have hmap : List.Forall₂ (Alike f) (items.reverse.map swapParen) (items'.reverse.map swapParen) := by
    rw [List.forall₂_map_left_iff, List.forall₂_map_right_iff]
    exact (List.forall₂_reverse_iff.mpr h).imp fun _ _ => Alike.swapParen
  exact List.rel_append (List.rel_append hopen hmap) hclose

/-- The two loops on the items with the other strings. -/
theorem runs_fill {items items' : List String} (hitems : List.Forall₂ (Alike f) items items')
    {st : List String × List Value} {stack : List Value}
    (hloop : (turned items).foldlM shuntToken ([], []) = .ok st) (hstack : st.2.foldlM evalToken [] = .ok stack)
    (hops : ∀ w ∈ items, w ∉ operators → operator? (fill f (getOperand w)) = operator? (getOperand w))
    (hstrip : ∀ w ∈ items, w ∉ operators → ∀ s, getOperand w = .str s →
      f (String.ofList (PyStr.strip s.toList)) = String.ofList (PyStr.strip (f s).toList))
    (hlists : ListsKept f stack) :
    ∃ st', (turned items').foldlM shuntToken ([], []) = .ok st' ∧
      st'.2.foldlM evalToken [] = .ok (fillAll f stack) := by
  have hshunt := shunt_fill hf (forall₂_turned hitems) hloop (by simp)
  have hvalues := shunt_values hloop
  refine ⟨_, hshunt, (eval_fill hf hstack (fun t ht => ?_) (fun s hs => ?_) hlists).1⟩
  · rcases hvalues t ht with ⟨op, hop, rfl⟩ | ⟨w, hw, hno, rfl⟩
    · rw [fill, hf.operator op hop]
    · exact hops w (mem_turned_operand hw hno) hno
  · rcases hvalues (.str s) (by simpa using hs) with ⟨op, hop, hs⟩ | ⟨w, hw, hno, hs⟩
    · cases hs
      have hops : ∀ op ∈ operators, PyStr.strip op.toList = op.toList := by decide
      rw [hops s hop, String.ofList_toList, hf.operator s hop, hops s hop, String.ofList_toList]
    · exact hstrip w (mem_turned_operand hw hno) hno s hs.symm

end

end MobileTestkit.L3.RqgParser
