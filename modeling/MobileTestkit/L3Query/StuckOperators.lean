import MobileTestkit.L3Query.OperatorStacks

/-!
# Operators that find no operands

An operator without a number in `operations`, and an `IN` that is put out on anything but a text:
the second loop raises on them, or makes a tree one of whose operands is no operand of the
expression.

* `Doomed.append`: whatever is put out behind does not make it good.
* `stalled_run`: such an operator on the first stack is put out in the end.
* `waiting_run`: so is an `IN` without a text by itself in front of it.
-/
namespace MobileTestkit.L3.WhereOperators

open MobileTestkit.Core
open MobileTestkit.L3.RqgParser

/-! ## What cannot be made good -/

/-- A list with an operator in front. -/
def IsNode (v : Value) : Prop := ∃ op vs, v = .list (.str op :: vs) ∧ op ∈ operators

/-- A list in which a node stands is no operand. -/
def Foreign (v : Value) : Prop := ∃ vs, v = .list vs ∧ ∃ u ∈ vs, IsNode u

def Spoiled (v : Value) : Prop := IsNode v ∧ ∃ l ∈ leaves v, Foreign l

/-- The second loop raises, or leaves a spoiled tree. -/
def Doomed (res : List Value) : Prop := ∀ st, res.foldlM evalToken [] = .ok st → ∃ u ∈ st, Spoiled u

/-- It raises, or leaves no string on top. -/
def Blocked (res : List Value) : Prop := ∀ st, res.foldlM evalToken [] = .ok st → ∀ s rest, st ≠ .str s :: rest

theorem popList_keeps {st opd rest : List Value} (h : popList st = .ok (opd, rest)) {u : Value} (hu : IsNode u)
    (hmem : u ∈ st) : u ∈ opd ∨ u ∈ rest := by
  have hstr : ∀ s, u ≠ .str s := by
    obtain ⟨op, vs, rfl, -⟩ := hu
    intro s
    simp
  induction st generalizing opd rest with
  | nil => cases hmem
  | cons item st ih =>
    have hkeep : ∀ {r : List Value × List Value}, popList st = .ok r → u ∈ st → u ∈ r.1 ∨ u ∈ r.2 :=
      fun hr hst => ih hr hst
    cases item with
    | str s =>
      have hst : u ∈ st := (List.mem_cons.mp hmem).resolve_left (hstr s)
      simp only [popList] at h
      split at h
      · cases h
        exact .inr hst
      · obtain ⟨r, hr, h⟩ := Loop.bind_eq_ok.mp h
        split at h
        · cases h
          exact hkeep hr hst
        · cases h
          exact (hkeep hr hst).imp_left (List.mem_cons_of_mem _)
    | int n =>
      obtain ⟨r, hr, h⟩ := Loop.bind_eq_ok.mp h
      cases h
      rcases List.mem_cons.mp hmem with rfl | hst
      · exact .inl List.mem_cons_self
      · exact (hkeep hr hst).imp_left (List.mem_cons_of_mem _)
    | list vs =>
      obtain ⟨r, hr, h⟩ := Loop.bind_eq_ok.mp h
      cases h
      rcases List.mem_cons.mp hmem with rfl | hst
      · exact .inl List.mem_cons_self
      · exact (hkeep hr hst).imp_left (List.mem_cons_of_mem _)

/-- A spoiled tree in a list spoils what the list stands in. -/
theorem foreign_of_mem {vs : List Value} {u : Value} (hu : u ∈ vs) (h : Spoiled u) :
    ∃ l ∈ leaves (.list vs), Foreign l := by
  obtain ⟨hnode, l, hl, hforeign⟩ := h
  have hwhole : leaves (.list vs) = [.list vs] → ∃ l ∈ leaves (.list vs), Foreign l := fun he =>
    ⟨.list vs, by simp [he], vs, rfl, u, hu, hnode⟩
  match vs with
  | [] => cases hu
  | .int n :: vs => exact hwhole rfl
  | .list ws :: vs => exact hwhole rfl
  | .str s :: vs =>
    by_cases hs : s ∈ operators
    · have hmem : u ∈ vs := by
        obtain ⟨op, ws, rfl, -⟩ := hnode
        simpa using hu
      exact ⟨l, by rw [leaves_node hs]; exact mem_leavesAll.mpr ⟨u, hmem, hl⟩, hforeign⟩
    · exact hwhole (by simp [leaves, hs])

theorem evalToken_spoiled {st st' : List Value} {t : Value} (h : evalToken st t = .ok st')
    (hu : ∃ u ∈ st, Spoiled u) : ∃ u ∈ st', Spoiled u := by
  obtain ⟨u, hmem, hspoiled⟩ := hu
  rcases evalToken_cases h with ⟨-, rfl⟩ | ⟨op, opd, rest, rfl, hop, rfl, hpop⟩
  · exact ⟨u, List.mem_cons_of_mem _ hmem, hspoiled⟩
  -- it is in the new tree, or beneath it
  have hnode : (∃ l ∈ leavesAll opd, Foreign l) → ∃ u ∈ Value.list (.str op :: opd) :: rest, Spoiled u :=
    fun hl => ⟨_, List.mem_cons_self, ⟨op, opd, rfl, hop⟩, by rwa [leaves_node hop]⟩
  split at hpop
  · obtain ⟨s, items, tail, rfl, hlist, rfl⟩ := popIn_cases hpop
    have htail : u ∈ tail := by
      obtain ⟨op, vs, rfl, -⟩ := hspoiled.1
      simpa using hmem
    rcases popList_keeps hlist hspoiled.1 htail with hitems | hrest
    · obtain ⟨l, hl, hforeign⟩ := foreign_of_mem hitems hspoiled
      exact hnode ⟨l, mem_leavesAll.mpr ⟨_, by simp, hl⟩, hforeign⟩
    · exact ⟨u, List.mem_cons_of_mem _ hrest, hspoiled⟩
  · rw [hpop] at hmem
    rcases List.mem_append.mp hmem with hopd | hrest
    · obtain ⟨-, l, hl, hforeign⟩ := hspoiled
      exact hnode ⟨l, mem_leavesAll.mpr ⟨u, hopd, hl⟩, hforeign⟩
    · exact ⟨u, List.mem_cons_of_mem _ hrest, hspoiled⟩

theorem eval_append_ok {res ps st : List Value} (h : (res ++ ps).foldlM evalToken [] = .ok st) :
    ∃ st', res.foldlM evalToken [] = .ok st' ∧ ps.foldlM evalToken st' = .ok st := by
  rw [List.foldlM_append] at h
  exact Loop.bind_eq_ok.mp h

theorem Doomed.append {res : List Value} (h : Doomed res) (ps : List Value) : Doomed (res ++ ps) := by
  intro st hst
  obtain ⟨st', heval, hps⟩ := eval_append_ok hst
  exact Loop.foldlM_keeps (P := fun st => ∃ u ∈ st, Spoiled u) (fun s t s' _ hu hstep => evalToken_spoiled hstep hu)
    (h st' heval) hps

theorem Doomed.of_error {res : List Value} {x : Exn} (h : res.foldlM evalToken [] = .error x) : Doomed res := by
  intro st hst
  rw [h] at hst
  cases hst

theorem evalToken_concat_ok {res st : List Value} {t : Value} (h : (res ++ [t]).foldlM evalToken [] = .ok st) :
    ∃ st', res.foldlM evalToken [] = .ok st' ∧ evalToken st' t = .ok st := by
  obtain ⟨st', heval, hstep⟩ := eval_append_ok h
  refine ⟨st', heval, ?_⟩
  rw [List.foldlM_cons] at hstep
  obtain ⟨st'', hstep, hlast⟩ := Loop.bind_eq_ok.mp hstep
  cases hlast
  exact hstep

/-- Behind an operator there is a tree on top. -/
theorem node_of_op {res st : List Value} {op : String} (hop : op ∈ operators)
    (h : (res ++ [Value.str op]).foldlM evalToken [] = .ok st) : ∃ u rest, st = u :: rest ∧ IsNode u := by
  obtain ⟨st', -, hstep⟩ := evalToken_concat_ok h
  rcases evalToken_cases hstep with ⟨hnone, -⟩ | ⟨op', opd, rest, he, hmem, rfl, -⟩
  · simp [operator?, hop] at hnone
  · exact ⟨_, rest, rfl, op', opd, rfl, hmem⟩

theorem blocked_pops (res : List Value) {popped : List String} (hne : popped ≠ [])
    (hmem : ∀ op ∈ popped, op ∈ operators) : Blocked (res ++ popped.map .str) := by
  obtain ⟨front, op, rfl⟩ : ∃ front op, popped = front ++ [op] :=
    ⟨_, _, (List.dropLast_append_getLast hne).symm⟩
  intro st hst s rest he
  rw [List.map_append, List.map_singleton, ← List.append_assoc] at hst
  obtain ⟨u, rest', rfl, op', vs, rfl, -⟩ := node_of_op (hmem op (by simp)) hst
  cases he

theorem Blocked.doomed {res : List Value} (h : Blocked res) : Doomed (res ++ [.str "IN"]) := by
  intro st hst
  obtain ⟨st', heval, hstep⟩ := evalToken_concat_ok hst
  rcases evalToken_cases hstep with ⟨hnone, -⟩ | ⟨op, opd, rest, he, -, -, hpop⟩
  · cases hnone
  · obtain rfl : "IN" = op := Value.str.inj he
    obtain ⟨s, items, tail, rfl, -, -⟩ := popIn_cases (by simpa using hpop)
    exact absurd rfl (h _ heval s tail)

/-- An `IN` whose list has lost its front to a tighter operator. -/
theorem doomed_of_node {res : List Value} {op : String} (hop : op ∈ operators) {a : Operand} (ha : IsOperand a.text) :
    Doomed (res ++ [.str op] ++ [getOperand a.text] ++ [.str "IN"]) := by
  intro st hst
  obtain ⟨st', heval, hstep⟩ := evalToken_concat_ok hst
  obtain ⟨st'', heval, hstep'⟩ := evalToken_concat_ok heval
  obtain ⟨u, rest, rfl, hnode⟩ := node_of_op hop heval
  rw [evalToken_operand ha] at hstep'
  obtain rfl := Except.ok.inj hstep'
  rcases evalToken_cases hstep with ⟨hnone, -⟩ | ⟨op', opd, rest', he, hmem, rfl, hpop⟩
  · cases hnone
  · obtain rfl : "IN" = op' := Value.str.inj he
    obtain ⟨s, items, tail, hcons, hlist, rfl⟩ := popIn_cases (by simpa using hpop)
    obtain ⟨-, rfl⟩ := List.cons.inj hcons
    obtain ⟨op, vs, rfl, hop⟩ := hnode
    obtain ⟨r, -, hlist⟩ := Loop.bind_eq_ok.mp hlist
    cases hlist
    have hforeign : Foreign (.list (.list (.str op :: vs) :: r.1)) :=
      ⟨_, rfl, _, List.mem_cons_self, op, vs, rfl, hop⟩
    refine ⟨_, List.mem_cons_self, ⟨"IN", _, rfl, hmem⟩, _, ?_, hforeign⟩
    rw [leaves_node hmem]
    exact mem_leavesAll.mpr ⟨_, List.mem_cons_of_mem _ List.mem_cons_self, List.mem_singleton_self _⟩

/-! ## An `IN` without its text -/

/-- An operator that the second loop cannot do anything with. -/
def Unmet (op : String) : Prop := ∀ res, Doomed (res ++ [.str op])

/-- An unmet operator is on the first stack, or an `IN` that will be put out on a tree or on a
value that is no string; in at most `d` brackets more than where it stands. -/
def Stalled (due : Bool) (d : Nat) (ops : List String) (res : List Value) : Prop :=
  ∃ tops op below, ops = tops ++ op :: below ∧ op ≠ "(" ∧ (∀ o ∈ tops, o ∈ operators) ∧ tops.count "(" ≤ d ∧
    (Unmet op ∨ op = "IN" ∧ ((∃ o ∈ tops, o ≠ "(") ∨ due = false ∧ Blocked res))

/-- When operators leave the first stack, it is put out there, or is still stalled. -/
theorem Stalled.pop {due : Bool} {d : Nat} {popped rest : List String} {res : List Value}
    (h : Stalled due d (popped ++ rest) res) :
    Doomed (res ++ popped.map .str) ∨ Stalled false d rest (res ++ popped.map .str) := by
  obtain ⟨tops, op, below, hops, hop, hmem, hcount, hwhy⟩ := h
  have hblocked : ∀ front back, tops = front ++ back →
      Unmet op ∨ op = "IN" ∧ ((∃ o ∈ back, o ≠ "(") ∨ Blocked (res ++ front.map .str)) := by
    rintro front back rfl
    refine hwhy.imp_right fun ⟨hin, hwhy⟩ => ⟨hin, ?_⟩
    by_cases hfront : front = []
    · subst hfront
      rcases hwhy with ⟨o, ho, hne⟩ | ⟨-, hblocked⟩
      · exact .inl ⟨o, ho, hne⟩
      · exact .inr (by simpa using hblocked)
    · exact .inr (blocked_pops res hfront fun o ho => hmem o (List.mem_append_left _ ho))
  rcases List.append_eq_append_iff.mp hops with ⟨mid, htops, hrest⟩ | ⟨mid, hpopped, hbelow⟩
  · refine .inr ⟨mid, op, below, hrest, hop, fun o ho => hmem o ?_, ?_, ?_⟩
    · rw [htops]
      exact List.mem_append_right _ ho
    · rw [htops, List.count_append] at hcount
      omega
    · exact (hblocked popped mid htops).imp_right fun ⟨hin, h⟩ => ⟨hin, h.imp_right fun h => ⟨rfl, h⟩⟩
  · have hall := hblocked tops [] (List.append_nil tops).symm
    cases mid with
    | nil =>
      rw [List.append_nil] at hpopped
      subst hpopped
      exact .inr ⟨[], op, below, by simpa using hbelow.symm, hop, by simp, by simp,
        hall.imp_right fun ⟨hin, h⟩ => ⟨hin, .inr ⟨rfl, h.resolve_left (by simp)⟩⟩⟩
    | cons o mid =>
      obtain ⟨rfl, -⟩ := List.cons.inj hbelow
      refine .inl ?_
      have hlist : res ++ popped.map Value.str = res ++ tops.map .str ++ [.str op] ++ mid.map .str := by
        rw [hpopped]
        simp
      rw [hlist]
      refine Doomed.append ?_ _
      rcases hall with hunmet | ⟨rfl, h⟩
      · exact hunmet _
      · exact (h.resolve_left (by simp)).doomed

/-- The loop on an operator. -/
theorem Stalled.operator {due due' : Bool} {d : Nat} {ops : List String} {res : List Value}
    (h : Stalled due d ops res) {op : String} (hmem : op ∈ operators) (hl : op ≠ "(") (hr : op ≠ ")")
    {st : List String × List Value} (hstep : shuntToken (ops, res) op = .ok st) :
    Doomed st.2 ∨ Stalled due' d st.1 st.2 := by
  rcases shuntToken_cases hstep with ⟨hno, -⟩ | ⟨-, -, popped, rest, rfl, rfl⟩ | ⟨hclose, -⟩
  · exact absurd hmem hno
  · refine h.pop.imp_right fun ⟨tops, o, below, hrest, ho, htops, hcount, hwhy⟩ => ?_
    refine ⟨op :: tops, o, below, by rw [hrest]; rfl, ho, List.forall_mem_cons.mpr ⟨hmem, htops⟩, ?_, ?_⟩
    · rwa [List.count_cons_of_ne hl]
    · exact hwhy.imp_right fun ⟨hin, _⟩ => ⟨hin, .inl ⟨op, List.mem_cons_self, hl⟩⟩
  · exact absurd hclose hr

theorem shunt_appends {ws : List String} {st st' : List String × List Value} (h : ws.foldlM shuntToken st = .ok st') :
    ∃ more, st'.2 = st.2 ++ more := by
  refine Loop.foldlM_keeps (P := fun s : List String × List Value => ∃ more, s.2 = st.2 ++ more)
    (fun s w s' _ hs hstep => ?_) ⟨[], by simp⟩ h
  obtain ⟨more, hmore⟩ := hs
  obtain ⟨ops, res⟩ := s
  obtain rfl : res = st.2 ++ more := hmore
  rcases shuntToken_cases hstep with ⟨-, rfl⟩ | ⟨-, -, popped, rest, -, rfl⟩ | ⟨-, popped, rest, -, rfl⟩
  · exact ⟨_, List.append_assoc _ _ _⟩
  · exact ⟨_, List.append_assoc _ _ _⟩
  · exact ⟨_, List.append_assoc _ _ _⟩

/-- What is doomed stays so. -/
theorem doomed_run {ts : List WhereTok} {ops : List String} {res : List Value} {st : List String × List Value}
    (h : Doomed res) (hrun : run ts (ops, res) = .ok st) : Doomed st.2 := by
  obtain ⟨more, hmore⟩ := shunt_appends hrun
  rw [hmore]
  exact h.append more

/-- The list of a token is read item by item, then its operator. -/
theorem run_list (o : ListOp) {items : List Operand} (hitems : ∀ a ∈ items, IsOperand a.text) (ts : List WhereTok)
    (ops : List String) (res : List Value) : run (.inList o items :: ts) (ops, res) =
      shuntToken (ops, res ++ (listed (items.map fun a => getOperand a.text)).reverse) o.name >>= run ts := by
  obtain ⟨-, hl, hr, -⟩ := listOp_facts o
  obtain ⟨hopd, hvals⟩ := listTexts_items hitems
  have hread := shunt_operands (listTexts (items.map Operand.text)).reverse (fun w hw => (hopd w hw).1) ops res
  rw [run_cons, turned_inList, List.foldlM_append, hread, hvals, swapParen_op hl hr]
  show (shuntToken (ops, _) o.name >>= pure) >>= run ts = _
  rw [bind_pure]

theorem Stalled.group {d : Nat} {ops : List String} {res : List Value} (h : Stalled false (d + 1) ("(" :: ops) res) :
    Stalled false d ops res := by
  obtain ⟨tops, op, below, hops, hop, hmem, hcount, hwhy⟩ := h
  cases tops with
  | nil => exact absurd (List.cons.inj hops).1.symm hop
  | cons o tops =>
    obtain ⟨rfl, rfl⟩ := List.cons.inj hops
    rw [List.count_cons_self] at hcount
    refine ⟨tops, op, below, rfl, hop, fun o ho => hmem o (List.mem_cons_of_mem _ ho), by omega, ?_⟩
    refine hwhy.imp_right fun ⟨hin, hwhy⟩ => ⟨hin, hwhy.imp_left ?_⟩
    rintro ⟨o, ho, hne⟩
    exact ⟨o, (List.mem_cons.mp ho).resolve_left hne, hne⟩

/-- It is not beneath the last bracket. -/
theorem Stalled.not_bracket {due : Bool} {ops : List String} {res : List Value} : ¬ Stalled due 0 ("(" :: ops) res := by
  rintro ⟨tops, op, below, hops, hop, -, hcount, -⟩
  cases tops with
  | nil => exact hop (List.cons.inj hops).1.symm
  | cons o tops =>
    obtain ⟨rfl, -⟩ := List.cons.inj hops
    simp at hcount

/-- One operator more. -/
theorem Stalled.run_op {due due' : Bool} {d : Nat} {ops : List String} {res : List Value}
    (h : Stalled due d ops res) {t : WhereTok} {op : String} (ht : t.items = [op])
    (hop : op ∈ operators ∧ op ≠ "(" ∧ op ≠ ")") {ts : List WhereTok} {st : List String × List Value}
    (hrun : run (t :: ts) (ops, res) = .ok st)
    (hrest : ∀ {ops : List String} {res : List Value},
      Stalled due' d ops res → run ts (ops, res) = .ok st → Doomed st.2) : Doomed st.2 := by
  obtain ⟨hmem, hl, hr⟩ := hop
  rw [run_item ht, swapParen_op hl hr] at hrun
  obtain ⟨st', hstep, hrun⟩ := Loop.bind_eq_ok.mp hrun
  have hnext : Doomed st'.2 ∨ Stalled due' d st'.1 st'.2 := h.operator hmem hl hr hstep
  rcases hnext with hdoomed | hstalled
  · exact doomed_run hdoomed hrun
  · exact hrest hstalled hrun

/-- Where an operand is next, nothing of it depends on what has been put out. -/
theorem Stalled.any {d : Nat} {ops : List String} {res : List Value} (h : Stalled true d ops res) (due : Bool)
    (res' : List Value) : Stalled due d ops res' := by
  obtain ⟨tops, op, below, hops, hop, hmem, hcount, hwhy⟩ := h
  exact ⟨tops, op, below, hops, hop, hmem, hcount,
    hwhy.imp_right fun ⟨hin, hwhy⟩ => ⟨hin, .inl (hwhy.resolve_right (by simp))⟩⟩

theorem Stalled.rpar {d : Nat} {ops : List String} {res : List Value} (h : Stalled true d ops res) :
    Stalled true (d + 1) ("(" :: ops) res := by
  obtain ⟨tops, op, below, hops, hop, hmem, hcount, hwhy⟩ := h
  refine ⟨"(" :: tops, op, below, by rw [hops]; rfl, hop, List.forall_mem_cons.mpr ⟨by decide, hmem⟩, ?_, ?_⟩
  · rw [List.count_cons_self]
    omega
  · refine hwhy.imp_right fun ⟨hin, hwhy⟩ => ⟨hin, .inl ?_⟩
    obtain ⟨o, ho, hne⟩ := hwhy.resolve_right (by simp)
    exact ⟨o, List.mem_cons_of_mem _ ho, hne⟩

/-- What is stalled is the end of it. -/
theorem stalled_run {due : Bool} {d : Nat} {ts : List WhereTok} (h : Reading due d ts) (hplain : ∀ t ∈ ts, t.Plain)
    {ops : List String} {res : List Value} (hstalled : Stalled due d ops res) {st : List String × List Value}
    (hrun : run ts (ops, res) = .ok st) : Doomed st.2 := by
  have htail : ∀ {t : WhereTok} {ts : List WhereTok}, (∀ u ∈ t :: ts, u.Plain) → ∀ u ∈ ts, u.Plain :=
    fun h u hu => h u (List.mem_cons_of_mem _ hu)
  induction h generalizing ops res with
  | @opd d a ts h ih =>
    have ha : IsOperand a.text := hplain _ List.mem_cons_self
    have hstep := shunt_operands [a.text] (by simpa using ha.1) ops res
    rw [run_item (w := a.text) rfl, show shuntToken (ops, res) (swapParen a.text) = _ by simpa using hstep] at hrun
    exact ih (htail hplain) (hstalled.any false _) hrun
  | @rpar d ts h ih =>
    rw [run_item (w := ")") rfl] at hrun
    exact ih (htail hplain) hstalled.rpar hrun
  | @post d o ts h ih =>
    obtain ⟨hmem, hl, hr, -⟩ := post_facts o
    exact hstalled.run_op (t := .post o) rfl ⟨hmem, hl, hr⟩ hrun (ih (htail hplain))
  | @inList d o items ts h ih =>
    obtain ⟨hmem, hl, hr, -⟩ := listOp_facts o
    have hitems : ∀ a ∈ items, IsOperand a.text := fun a ha =>
      (hplain (.inList o items) List.mem_cons_self a ha).1
    rw [run_list o hitems] at hrun
    obtain ⟨st', hstep, hrun⟩ := Loop.bind_eq_ok.mp hrun
    have hnext : Doomed st'.2 ∨ Stalled true d st'.1 st'.2 := (hstalled.any true _).operator hmem hl hr hstep
    rcases hnext with hdoomed | hstalled
    · exact doomed_run hdoomed hrun
    · exact ih (htail hplain) hstalled hrun
  | @mid d o ts h ih =>
    obtain ⟨hmem, hl, hr, -⟩ := mid_facts o
    exact hstalled.run_op (t := .mid o) rfl ⟨hmem, hl, hr⟩ hrun (ih (htail hplain))
  | @pre d o ts h ih =>
    obtain ⟨hmem, hl, hr, -⟩ := pre_facts o
    exact hstalled.run_op (t := .pre o) rfl ⟨hmem, hl, hr⟩ hrun (ih (htail hplain))
  | @lpar d ts h ih =>
    rw [run_item (w := "(") rfl] at hrun
    obtain ⟨⟨ops', res'⟩, hstep, hrun⟩ := Loop.bind_eq_ok.mp hrun
    have hstep : popGroup ops res = .ok (ops', res') := hstep
    obtain ⟨popped, rfl, rfl⟩ := popGroup_cases hstep
    rcases hstalled.pop with hdoomed | hstalled
    · exact doomed_run hdoomed hrun
    · exact ih (htail hplain) hstalled.group hrun
  | nil =>
    obtain ⟨ops', res'⟩ := st
    rw [run_nil] at hrun
    have hstep : popGroup ops res = .ok (ops', res') := hrun
    obtain ⟨popped, rfl, rfl⟩ := popGroup_cases hstep
    exact hstalled.pop.resolve_right Stalled.not_bracket

/-! ### Up to the operand -/

/-- Brackets above an `IN`. -/
theorem brackets_top (k : Nat) (below : List String) :
    ∃ top rest q, List.replicate k "(" ++ "IN" :: below = top :: rest ∧ get RqgParser.prec top = .ok q ∧ 1 ≤ q ∧
      (k ≠ 0 → 3 ≤ q) := by
  cases k with
  | zero => exact ⟨"IN", below, 1, rfl, rfl, Nat.le_refl 1, fun h => absurd rfl h⟩
  | succ k => exact ⟨"(", List.replicate k "(" ++ "IN" :: below, 3, rfl, rfl, by decide, fun _ => Nat.le_refl 3⟩

theorem mem_brackets {k : Nat} : ∀ op ∈ List.replicate k "(", op ∈ operators := by
  intro op hop
  rw [(List.mem_replicate.mp hop).2]
  decide

/-- An operator above the brackets stalls the `IN`. -/
theorem stalled_push (due : Bool) {op : String} (hop : op ∈ operators ∧ op ≠ "(" ∧ op ≠ ")") {p k d : Nat}
    (hp : get RqgParser.prec op = .ok p) (hk : p ≤ 1 ∨ k ≠ 0 ∧ p ≤ 3) (hd : k ≤ d) (below : List String)
    (res : List Value) :
    ∃ st, shuntToken (List.replicate k "(" ++ "IN" :: below, res) op = .ok st ∧ Stalled due d st.1 st.2 := by
  obtain ⟨hmem, hl, hr⟩ := hop
  obtain ⟨top, rest, q, htop, hq, hone, hthree⟩ := brackets_top k below
  have hle : p ≤ q := by
    rcases hk with hk | ⟨hk, hp3⟩
    · omega
    · have := hthree hk
      omega
  have hstep := shunt_operator hmem hl hr hp [] (by simp) hq hle rest res
  rw [swapParen_op hl hr] at hstep
  refine ⟨_, by rw [htop]; exact hstep, op :: List.replicate k "(", "IN", below, ?_, by decide,
    List.forall_mem_cons.mpr ⟨hmem, mem_brackets⟩, ?_, .inr ⟨rfl, .inl ⟨op, List.mem_cons_self, hl⟩⟩⟩
  · rw [List.cons_append, htop]
  · rwa [List.count_cons_of_ne hl, List.count_replicate_self]

/-- The operand has been read, and something else stands in front of it. -/
theorem closing_run {k d : Nat} {ts : List WhereTok} (h : Reading false d ts) (hd : k ≤ d) (hplain : ∀ t ∈ ts, t.Plain)
    (hno : closes k ts = false) {below : List String} {res : List Value} {st : List String × List Value}
    (hrun : run ts (List.replicate k "(" ++ "IN" :: below, res) = .ok st) : Doomed st.2 := by
  induction ts generalizing k d with
  | nil =>
    cases h
    obtain rfl := Nat.le_zero.mp hd
    cases hno
  | cons t ts ih =>
    have hplain' : ∀ u ∈ ts, u.Plain := fun u hu => hplain u (List.mem_cons_of_mem _ hu)
    cases h with
    | @mid _ o _ h =>
      obtain ⟨hmem, hl, hr, hp, hle, hkind⟩ := mid_facts o
      have hk : o.prec ≤ 1 ∨ k ≠ 0 ∧ o.prec ≤ 3 := by
        rcases hkind with hone | hjunction
        · exact .inl hone
        · refine .inr ⟨fun h0 => ?_, by omega⟩
          subst h0
          rcases hjunction with rfl | rfl <;> cases hno
      obtain ⟨st', hstep, hstalled⟩ := stalled_push true ⟨hmem, hl, hr⟩ hp hk hd below res
      rw [run_item (w := o.name) rfl, swapParen_op hl hr, hstep] at hrun
      exact stalled_run h hplain' hstalled hrun
    | @pre _ o _ h =>
      obtain ⟨hmem, hl, hr, hp⟩ := pre_facts o
      obtain ⟨st', hstep, hstalled⟩ := stalled_push false ⟨hmem, hl, hr⟩ hp (.inl (Nat.le_refl 1)) hd below res
      rw [run_item (w := o.name) rfl, swapParen_op hl hr, hstep] at hrun
      exact stalled_run h hplain' hstalled hrun
    | lpar h =>
      cases k with
      | zero => cases hno
      | succ k =>
        rw [run_item (w := "(") rfl] at hrun
        exact ih h (Nat.le_of_succ_le_succ hd) hplain' (k := k) (by simpa [closes] using hno) hrun

/-- The operand is to be read, and it is no text by itself. -/
theorem waiting_run {k d : Nat} {ts : List WhereTok} (h : Reading true d ts) (hd : k ≤ d) (hplain : ∀ t ∈ ts, t.Plain)
    (hno : alone k ts = false) {below : List String} {res : List Value} {st : List String × List Value}
    (hrun : run ts (List.replicate k "(" ++ "IN" :: below, res) = .ok st) : Doomed st.2 := by
  induction ts generalizing k d with
  | nil => cases h
  | cons t ts ih =>
    have hplain' : ∀ u ∈ ts, u.Plain := fun u hu => hplain u (List.mem_cons_of_mem _ hu)
    cases h with
    | @opd _ a _ h =>
      have ha : IsOperand a.text := hplain (.opd a) List.mem_cons_self
      have hstep := shunt_operands [a.text] (by simpa using ha.1) (List.replicate k "(" ++ "IN" :: below) res
      rw [run_item (w := a.text) rfl, show shuntToken _ (swapParen a.text) = _ by simpa using hstep] at hrun
      rcases Bool.and_eq_false_iff.mp hno with htext | hcloses
      · have hblocked : Blocked (res ++ [getOperand a.text]) := by
          intro st' heval s rest he
          obtain ⟨st'', -, hstep⟩ := evalToken_concat_ok heval
          rw [evalToken_operand ha] at hstep
          obtain rfl := Except.ok.inj hstep
          have hs := (List.cons.inj he).1
          simp [isText, hs] at htext
        exact stalled_run h hplain' ⟨List.replicate k "(", "IN", below, rfl, by decide, mem_brackets,
          by rwa [List.count_replicate_self], .inr ⟨rfl, .inr ⟨rfl, hblocked⟩⟩⟩ hrun
      · exact closing_run h hd hplain' hcloses hrun
    | rpar h =>
      rw [run_item (w := ")") rfl] at hrun
      exact ih h (Nat.succ_le_succ hd) hplain' (k := k + 1) hno hrun
    | @post _ o _ h =>
      obtain ⟨hmem, hl, hr, hp⟩ := post_facts o
      obtain ⟨st', hstep, hstalled⟩ := stalled_push true ⟨hmem, hl, hr⟩ hp (.inl (Nat.le_refl 1)) hd below res
      rw [run_item (w := o.name) rfl, swapParen_op hl hr, hstep] at hrun
      exact stalled_run h hplain' hstalled hrun
    | @inList _ o items _ h =>
      obtain ⟨hmem, hl, hr, -, hp⟩ := listOp_facts o
      have hitems : ∀ a ∈ items, IsOperand a.text := fun a ha =>
        (hplain (.inList o items) List.mem_cons_self a ha).1
      obtain ⟨st', hstep, hstalled⟩ := stalled_push true ⟨hmem, hl, hr⟩ hp (.inl (Nat.le_refl 1)) hd below
        (res ++ (listed (items.map fun a => getOperand a.text)).reverse)
      rw [run_list o hitems, hstep] at hrun
      exact stalled_run h hplain' hstalled hrun

end MobileTestkit.L3.WhereOperators
