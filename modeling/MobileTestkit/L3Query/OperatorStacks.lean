import Mathlib.Data.List.TakeWhile
import MobileTestkit.L3Query.WhereOperators

/-!
# The stacks between two tokens

What both stacks of the parser hold while the tokens of an expression are read from the right.
Every operator with two operands on the first stack waits for its left one: the second stack has
one value for each of them, and one more where an operand has just been read.

* `Due`, `Done`: the stacks where an operand is next, and where one has been read.
* `Done.mid`, `Done.not`, `Due.post` and the others: what a token makes of them.
* `popList_listed`: the list behind an `IN` is taken up to its bracket.
-/
namespace MobileTestkit.L3.WhereOperators

open MobileTestkit.Core
open MobileTestkit.L3.RqgParser

/-! ## The operators on the first stack -/

/-- What waits on the first stack where only operators of the table are read. -/
inductive Waiting : String → Prop
  | bracket : Waiting "("
  | bin (o : BinOp) : Waiting o.name
  | post (o : PostOp) : Waiting o.name
  | not : Waiting "NOT"

/-- The value in the table. -/
def level (op : String) : Nat := (RqgParser.prec.lookup op).getD 0

/-- It takes two operands. -/
def pairs (op : String) : Bool := operations.lookup op == some "2"

/-- How many operators on the stack take two operands. -/
def need (ops : List String) : Nat := ops.countP pairs

/-- The stack without the tighter operators on top. -/
def looser (p : Nat) (ops : List String) : List String := ops.dropWhile fun op => decide (level op < p)

def tighter (p : Nat) (ops : List String) : List String := ops.takeWhile fun op => decide (level op < p)

/-- What is beneath the innermost bracket, and what is above it. -/
def beneath (ops : List String) : List String := (ops.dropWhile (· ≠ "(")).tail

def above (ops : List String) : List String := ops.takeWhile (· ≠ "(")

namespace Waiting

theorem get_level {op : String} (h : Waiting op) :
    get RqgParser.prec op = .ok (level op) ∧ level op ≤ 3 ∧ (level op = 3 ↔ op = "(") := by
  cases h with
  | bracket => decide
  | bin o => cases o <;> decide
  | post o => cases o <;> decide
  | not => decide

theorem pairs_of_level {op : String} (h : Waiting op) (hl : level op < 1) : pairs op = true := by
  revert hl
  cases h with
  | bracket => decide
  | bin o => cases o <;> decide
  | post o => cases o <;> decide
  | not => decide

theorem mem {op : String} (h : Waiting op) : op ∈ operators ∧ op ≠ "IN" := by
  cases h with
  | bracket => decide
  | bin o => cases o <;> decide
  | post o => cases o <;> decide
  | not => decide

/-- It takes one operand or two from the second stack. -/
theorem arity {op : String} (h : Waiting op) (hop : op ≠ "(") :
    ∃ text, get operations op = .ok text ∧ PyStr.int text = some (if pairs op then 2 else 1) := by
  cases h with
  | bracket => exact absurd rfl hop
  | bin o => exact ⟨"2", by cases o <;> rfl, by cases o <;> decide⟩
  | post o => exact ⟨"1", by cases o <;> rfl, by cases o <;> decide⟩
  | not => exact ⟨"1", rfl, by decide⟩

end Waiting

theorem need_cons (op : String) (ops : List String) : need (op :: ops) = need ops + if pairs op then 1 else 0 :=
  List.countP_cons ..

theorem need_append (ops ops' : List String) : need (ops ++ ops') = need ops + need ops' := List.countP_append

theorem tighter_append_looser (p : Nat) (ops : List String) : tighter p ops ++ looser p ops = ops :=
  List.takeWhile_append_dropWhile

theorem popTighter_eq {ops : List String} (h : ∀ op ∈ ops, Waiting op) (hb : "(" ∈ ops) {p : Nat} (hp : p ≤ 3)
    (res : List Value) :
    popTighter p ops res = .ok (looser p ops, res ++ (tighter p ops).map .str) := by
  induction ops generalizing res with
  | nil => cases hb
  | cons op ops ih =>
    obtain ⟨hget, hle, hbracket⟩ := (h op List.mem_cons_self).get_level
    simp only [popTighter, hget, bind, Except.bind]
    by_cases hlt : level op < p
    · have hne : op ≠ "(" := fun hop => by
        have := hbracket.mpr hop
        omega
      have hb' : "(" ∈ ops := (List.mem_cons.mp hb).resolve_left (Ne.symm hne)
      rw [if_pos hlt, ih (fun o ho => h o (List.mem_cons_of_mem _ ho)) hb']
      simp [looser, tighter, hlt]
    · rw [if_neg hlt]
      simp [looser, tighter, hlt, pure, Except.pure]

theorem popGroup_eq {ops : List String} (hb : "(" ∈ ops) (res : List Value) :
    popGroup ops res = .ok (beneath ops, res ++ (above ops).map .str) := by
  induction ops generalizing res with
  | nil => cases hb
  | cons op ops ih =>
    rw [popGroup]
    by_cases hop : op = "("
    · simp [hop, beneath, above]
    · have hb' : "(" ∈ ops := (List.mem_cons.mp hb).resolve_left (Ne.symm hop)
      rw [if_pos hop, ih hb']
      simp [hop, beneath, above]

theorem above_append (ops : List String) (hb : "(" ∈ ops) : above ops ++ "(" :: beneath ops = ops := by
  induction ops with
  | nil => cases hb
  | cons op ops ih =>
    by_cases hop : op = "("
    · simp [hop, beneath, above]
    · have hb' : "(" ∈ ops := (List.mem_cons.mp hb).resolve_left (Ne.symm hop)
      have ih := ih hb'
      unfold above beneath at ih ⊢
      simpa [hop] using ih

/-! ## The second stack -/

theorem evalToken_waiting {op : String} (h : Waiting op) (hop : op ≠ "(") {vs : List Value}
    (hvs : vs.length = if pairs op then 2 else 1) (st : List Value) :
    evalToken (vs ++ st) (.str op) = .ok (.list (.str op :: vs) :: st) := by
  obtain ⟨text, htext, hn⟩ := h.arity hop
  refine evalToken_operator h.mem.1 h.mem.2 htext ?_ st
  rw [hn, hvs]
  cases pairs op <;> rfl

/-- Operators that leave the first stack find their operands, if one value is left. -/
theorem eval_pops {popped : List String} (h : ∀ op ∈ popped, Waiting op ∧ op ≠ "(") {st : List Value} {c : Nat}
    (hc : 1 ≤ c) (hlen : st.length = need popped + c) :
    ∃ st', (popped.map Value.str).foldlM evalToken st = .ok st' ∧ st'.length = c ∧
      leavesAll st' = leavesAll st := by
  induction popped generalizing st with
  | nil => exact ⟨st, rfl, by simpa [need] using hlen, rfl⟩
  | cons op popped ih =>
    obtain ⟨hop, hne⟩ := h op List.mem_cons_self
    rw [need_cons] at hlen
    obtain ⟨vs, rest, rfl, hvs⟩ : ∃ vs rest, st = vs ++ rest ∧ vs.length = if pairs op then 2 else 1 := by
      refine ⟨st.take (if pairs op then 2 else 1), st.drop (if pairs op then 2 else 1),
        (List.take_append_drop _ _).symm, ?_⟩
      rw [List.length_take]
      split <;> split at hlen <;> omega
    have hstep := evalToken_waiting hop hne hvs rest
    have hlen' : (Value.list (.str op :: vs) :: rest).length = need popped + c := by
      rw [List.length_append, hvs] at hlen
      rw [List.length_cons]
      split at hlen <;> omega
    obtain ⟨st', heval, hlength, hleaves⟩ := ih (fun o ho => h o (List.mem_cons_of_mem _ ho)) hlen'
    refine ⟨st', ?_, hlength, ?_⟩
    · rw [List.map_cons, List.foldlM_cons, hstep]
      exact heval
    · rw [hleaves, leavesAll, leaves_node hop.mem.1, leavesAll_append]

/-- The last of them finds none, if no value is left. -/
theorem eval_pops_short {popped : List String} (h : ∀ op ∈ popped, Waiting op ∧ op ≠ "(" ∧ pairs op = true)
    (hne : popped ≠ []) {st : List Value} (hlen : st.length = need popped) :
    ∃ x, (popped.map Value.str).foldlM evalToken st = .error x := by
  induction popped generalizing st with
  | nil => exact absurd rfl hne
  | cons op popped ih =>
    obtain ⟨hop, hbracket, hpairs⟩ := h op List.mem_cons_self
    rw [need_cons, if_pos hpairs] at hlen
    rw [List.map_cons, List.foldlM_cons]
    match st, hlen with
    | [v], hlen =>
      obtain ⟨text, htext, hn⟩ := hop.arity hbracket
      have hmem : operator? (.str op) = some op := by simp [operator?, hop.mem.1]
      refine ⟨.indexError, ?_⟩
      rw [if_pos hpairs] at hn
      simp only [evalToken, hmem, htext, hn, if_neg hop.mem.2, bind, Except.bind]
      rfl
    | v :: w :: rest, hlen =>
      have hstep : evalToken ([v, w] ++ rest) (.str op) = .ok (.list [.str op, v, w] :: rest) :=
        evalToken_waiting hop hbracket (by simp [hpairs]) rest
      have hpopped : popped ≠ [] := by
        rintro rfl
        simp [need] at hlen
      have hlen' : (Value.list [.str op, v, w] :: rest).length = need popped := by simpa using hlen
      obtain ⟨x, hx⟩ := ih (fun o ho => h o (List.mem_cons_of_mem _ ho)) hpopped hlen'
      refine ⟨x, ?_⟩
      show (evalToken ([v, w] ++ rest) (.str op) >>= _) = _
      rw [hstep]
      exact hx

/-! ## What the stacks hold -/

/-- The first stack where an operand is next: `hs` tells whether operators with two operands
wait in it, and whether any is left when the tightest on top are not counted. Where `x` is not
zero, so many values are too many on the second stack. -/
def Around (x : Nat) : Behind → List String → Prop
  | [], ops => ops = []
  | h :: hs, ops => "(" ∈ ops ∧ (x = 0 → (0 < need ops ↔ (h :: hs).any Option.isSome = true)) ∧
    (x = 0 → (0 < need (looser 1 ops) ↔ backed (h :: hs) = true)) ∧ Around x hs (beneath ops)

/-- The first stack where an operand has been read. -/
def Within (x : Nat) : Behind → List String → Prop
  | [], _ => False
  | h :: hs, ops => "(" ∈ ops ∧ (x = 0 → (0 < need (looser 1 ops) ↔ backed (h :: hs) = true)) ∧
    Around x hs (beneath ops)

/-- The second loop leaves so many values, with the operands `us` in them. -/
def Evals (x n : Nat) (res us : List Value) : Prop :=
  ∃ st, res.foldlM evalToken [] = .ok st ∧ st.length = n ∧ (x = 0 → leavesAll st = us)

/-- An operand is next; `us` are the operands read so far. -/
structure Due (x : Nat) (hs : Behind) (tight : Bool) (ops : List String) (res us : List Value) : Prop where
  waiting : ∀ op ∈ ops, Waiting op
  around : hs ≠ [] ∧ Around x hs ops
  tight : if tight then tighter 1 ops ≠ [] else looser 1 ops = ops
  eval : Evals x (need ops + x) res us

/-- An operand has been read. -/
structure Done (x : Nat) (hs : Behind) (ops : List String) (res us : List Value) : Prop where
  waiting : ∀ op ∈ ops, Waiting op
  within : Within x hs ops
  eval : Evals x (need ops + (x + 1)) res us

theorem Around.within {x : Nat} {hs : Behind} {ops : List String} (h : Around x hs ops) (hne : hs ≠ []) :
    Within x hs ops := by
  cases hs with
  | nil => exact absurd rfl hne
  | cons h' hs => exact ⟨h.1, h.2.2⟩

theorem Within.bracket_mem {x : Nat} {hs : Behind} {ops : List String} (h : Within x hs ops) : "(" ∈ ops := by
  cases hs with
  | nil => exact h.elim
  | cons h' hs => exact h.1

/-- The operators that leave the stack leave the innermost bracket. -/
theorem looser_bracket {ops : List String} (h : ∀ op ∈ ops, Waiting op) {p : Nat} (hp : p ≤ 3)
    (hb : "(" ∈ ops) : "(" ∈ looser p ops ∧ beneath (looser p ops) = beneath ops := by
  induction ops with
  | nil => cases hb
  | cons op ops ih =>
    obtain ⟨-, hle, hbracket⟩ := (h op List.mem_cons_self).get_level
    by_cases hlt : level op < p
    · have hne : op ≠ "(" := fun hop => by
        have := hbracket.mpr hop
        omega
      have hb' : "(" ∈ ops := (List.mem_cons.mp hb).resolve_left (Ne.symm hne)
      have ih := ih (fun o ho => h o (List.mem_cons_of_mem _ ho)) hb'
      unfold looser beneath at ih ⊢
      simpa [hlt, hne] using ih
    · unfold looser
      rw [List.dropWhile_cons, if_neg (by simpa using hlt)]
      exact ⟨hb, rfl⟩

theorem mem_looser {p : Nat} {ops : List String} {op : String} (h : op ∈ looser p ops) : op ∈ ops :=
  (List.dropWhile_suffix _).subset h

theorem mem_tighter {p : Nat} {ops : List String} {op : String} (h : op ∈ tighter p ops) :
    op ∈ ops ∧ level op < p :=
  ⟨(List.takeWhile_prefix _).subset h, by simpa using List.mem_takeWhile_imp h⟩

theorem need_split (p : Nat) (ops : List String) : need ops = need (tighter p ops) + need (looser p ops) := by
  rw [← need_append, tighter_append_looser]

/-- What leaves the stack are operators. -/
theorem waiting_tighter {ops : List String} (h : ∀ op ∈ ops, Waiting op) {p : Nat} (hp : p ≤ 3) :
    ∀ op ∈ tighter p ops, Waiting op ∧ op ≠ "(" := by
  intro op hop
  obtain ⟨hmem, hlt⟩ := mem_tighter hop
  refine ⟨h op hmem, fun he => ?_⟩
  have := (h op hmem).get_level.2.2.mpr he
  omega

theorem eval_append {res ps st : List Value} (h : res.foldlM evalToken [] = .ok st) :
    (res ++ ps).foldlM evalToken [] = ps.foldlM evalToken st := by
  rw [List.foldlM_append, h]
  rfl

theorem waiting_above {ops : List String} (h : ∀ op ∈ ops, Waiting op) : ∀ op ∈ above ops, Waiting op ∧ op ≠ "(" :=
  fun op hop => ⟨h op ((List.takeWhile_prefix _).subset hop), by simpa using List.mem_takeWhile_imp hop⟩

theorem need_above {ops : List String} (hb : "(" ∈ ops) : need ops = need (above ops) + need (beneath ops) := by
  conv_lhs => rw [← above_append ops hb]
  rw [need_append, need_cons]
  rfl

theorem looser_cons {op : String} {p : Nat} (h : p ≤ level op) (ops : List String) :
    looser p (op :: ops) = op :: ops := by
  unfold looser
  rw [List.dropWhile_cons, if_neg (by simpa using h)]

/-- The operator that is read takes the place of those that leave. -/
theorem beneath_cons {ops : List String} (h : ∀ op ∈ ops, Waiting op) (hb : "(" ∈ ops) {op : String}
    (hop : op ≠ "(") {p : Nat} (hp : p ≤ 3) :
    "(" ∈ op :: looser p ops ∧ beneath (op :: looser p ops) = beneath ops := by
  obtain ⟨hbl, hbeneath⟩ := looser_bracket h hp hb
  refine ⟨List.mem_cons_of_mem _ hbl, ?_⟩
  rw [← hbeneath]
  simp [beneath, hop]

/-- Operators that leave the stack find their operands. -/
theorem Evals.pops {x n : Nat} {res us : List Value} (h : Evals x n res us) {popped : List String}
    (hpopped : ∀ op ∈ popped, Waiting op ∧ op ≠ "(") {c : Nat} (hc : 1 ≤ c) (hn : n = need popped + c) :
    Evals x c (res ++ popped.map .str) us := by
  obtain ⟨st, heval, rfl, hleaves⟩ := h
  obtain ⟨st', heval', hlen', hleaves'⟩ := eval_pops hpopped hc hn
  refine ⟨st', ?_, hlen', fun hx => by rw [hleaves', hleaves hx]⟩
  rw [eval_append heval]
  exact heval'

/-- An operator is read: the tighter ones leave the stack. -/
theorem shunt_op {ops : List String} (h : ∀ op ∈ ops, Waiting op) (hb : "(" ∈ ops) {op : String}
    (hmem : op ∈ operators) (hl : op ≠ "(") (hr : op ≠ ")") (hget : get RqgParser.prec op = .ok (level op))
    (hle : level op ≤ 3) (res : List Value) :
    shuntToken (ops, res) (swapParen op) =
      .ok (op :: looser (level op) ops, res ++ (tighter (level op) ops).map .str) := by
  rw [swapParen_op hl hr]
  simp only [shuntToken, if_neg (not_not_intro hmem), if_neg hl, if_neg hr, hget]
  show (popTighter (level op) ops res >>= _) = _
  rw [popTighter_eq h hb hle]
  rfl

theorem Waiting.shunt {op : String} (hop : Waiting op) (hne : op ≠ "(") {ops : List String}
    (h : ∀ op ∈ ops, Waiting op) (hb : "(" ∈ ops) (res : List Value) :
    shuntToken (ops, res) (swapParen op) =
      .ok (op :: looser (level op) ops, res ++ (tighter (level op) ops).map .str) := by
  have hr : op ≠ ")" := by
    cases hop with
    | bracket => decide
    | bin o => cases o <;> decide
    | post o => cases o <;> decide
    | not => decide
  exact shunt_op h hb hop.mem.1 hne hr hop.get_level.1 hop.get_level.2.1 res

/-! ## One token -/

section
variable {x : Nat} {hs : Behind} {tight : Bool} {ops : List String} {res us : List Value}

theorem Due.opd (h : Due x hs tight ops res us) {w : String} (hw : IsOperand w) :
    shuntToken (ops, res) (swapParen w) = .ok (ops, res ++ [getOperand w]) ∧
      Done x hs ops (res ++ [getOperand w]) (getOperand w :: us) := by
  obtain ⟨st, heval, hlen, hleaves⟩ := h.eval
  have hstep := shunt_operands [w] (by simpa using hw.1) ops res
  refine ⟨by simpa using hstep, h.waiting, h.around.2.within h.around.1, getOperand w :: st, ?_, ?_, fun hx => ?_⟩
  · rw [eval_append heval]
    show (evalToken st (getOperand w) >>= _) = _
    rw [evalToken_operand hw]
    rfl
  · rw [List.length_cons, hlen]
    omega
  · rw [leavesAll, leaves_getOperand, hleaves hx]
    rfl

theorem Due.rpar (h : Due x hs tight ops res us) : Due x (none :: hs) false ("(" :: ops) res us where
  waiting := List.forall_mem_cons.mpr ⟨.bracket, h.waiting⟩
  around := by
    have hneed : need ("(" :: ops) = need ops := by
      rw [need_cons]
      rfl
    have hlooser : looser 1 ("(" :: ops) = "(" :: ops := rfl
    have hbeneath : beneath ("(" :: ops) = ops := by simp [beneath]
    have hany : x = 0 → (0 < need ops ↔ hs.any Option.isSome = true) := by
      obtain ⟨hne, haround⟩ := h.around
      cases hs with
      | nil => exact absurd rfl hne
      | cons h' hs => exact haround.2.1
    refine ⟨by simp, List.mem_cons_self, fun hx => ?_, fun hx => ?_, ?_⟩
    · rw [hneed, hany hx]
      simp
    · rw [hlooser, hneed, hany hx]
      simp [backed]
    · rw [hbeneath]
      exact h.around.2
  tight := rfl
  eval := by
    rw [need_cons]
    exact h.eval

theorem Done.lpar {q : Option Nat} (h : Done x (q :: hs) ops res us) (hne : hs ≠ []) :
    ∃ ops' res', shuntToken (ops, res) ")" = .ok (ops', res') ∧ Done x hs ops' res' us := by
  obtain ⟨hb, -, haround⟩ := h.within
  have hstep : shuntToken (ops, res) ")" = .ok (beneath ops, res ++ (above ops).map .str) := popGroup_eq hb res
  have hneed := need_above hb
  refine ⟨_, _, hstep, fun op hop => h.waiting op ?_, haround.within hne,
    h.eval.pops (waiting_above h.waiting) (by omega) (by omega)⟩
  rw [← above_append ops hb]
  exact List.mem_append_right _ (List.mem_cons_of_mem _ hop)

/-- The last bracket, which `get_prefix_list` adds. -/
theorem Done.last {q : Option Nat} (h : Done x [q] ops res us) :
    ∃ res', shuntToken (ops, res) ")" = .ok ([], res') ∧ Evals x (x + 1) res' us := by
  obtain ⟨hb, -, hbeneath⟩ := h.within
  have hbeneath : beneath ops = [] := hbeneath
  have hstep : shuntToken (ops, res) ")" = .ok ([], res ++ (above ops).map .str) := by
    rw [← hbeneath]
    exact popGroup_eq hb res
  have hneed : need ops = need (above ops) := by
    have hneed := need_above hb
    rwa [hbeneath] at hneed
  exact ⟨_, hstep, h.eval.pops (waiting_above h.waiting) (by omega) (by omega)⟩

/-- The tighter operators leave the stack, with all their operands. -/
theorem Done.pop (h : Done x hs ops res us) {p : Nat} (hp : p ≤ 3) :
    Evals x (need (looser p ops) + (x + 1)) (res ++ (tighter p ops).map .str) us := by
  have hsplit := need_split p ops
  exact h.eval.pops (waiting_tighter h.waiting hp) (by omega) (by omega)

theorem level_bin (o : BinOp) : level o.name = o.prec ∧ o.prec ≤ 2 := by
  cases o <;> decide

theorem Done.mid (h : Done x hs ops res us) (o : BinOp) :
    ∃ ops' res', shuntToken (ops, res) (swapParen o.name) = .ok (ops', res') ∧
      Due x (raise o.prec hs) (o.prec == 0) ops' res' us := by
  obtain ⟨hlevel, hle⟩ := level_bin o
  have hop : Waiting o.name := .bin o
  have hne : o.name ≠ "(" := o.name_mem.2.1
  have hpairs : pairs o.name = true := by cases o <;> decide
  have hb := h.within.bracket_mem
  have heval := h.pop (p := level o.name) (by omega)
  obtain ⟨hbl, hbeneath⟩ := beneath_cons h.waiting hb hne (p := level o.name) (by omega)
  have hneed : need (o.name :: looser (level o.name) ops) = need (looser (level o.name) ops) + 1 := by
    rw [need_cons, if_pos hpairs]
  refine ⟨_, _, hop.shunt hne h.waiting hb res, ?_, ?_, ?_, ?_⟩
  · exact List.forall_mem_cons.mpr ⟨hop, fun op hmem => h.waiting op (mem_looser hmem)⟩
  · have hwithin := h.within
    cases hs with
    | nil => exact hwithin.elim
    | cons q hs =>
      obtain ⟨-, hbacked, haround⟩ := hwithin
      refine ⟨by simp [raise], hbl, fun _ => ?_, fun hx => ?_, by rwa [hbeneath]⟩
      · rw [hneed]
        simp
      · by_cases h0 : o.prec = 0
        · have hall : looser (level o.name) ops = ops := by
            rw [hlevel, h0]
            cases ops <;> simp [looser]
          have hdrop : looser 1 (o.name :: ops) = looser 1 ops := by simp [looser, hlevel, h0]
          rw [hall, hdrop, hbacked hx, h0]
          cases q <;> simp [backed]
        · have hdrop : looser 1 (o.name :: looser (level o.name) ops) = o.name :: looser (level o.name) ops :=
            looser_cons (by omega) _
          have hmax : 1 ≤ max o.prec (q.getD 0) := by omega
          rw [hdrop, hneed]
          simp [backed, hmax]
  · by_cases h0 : o.prec = 0
    · simp [h0, tighter, hlevel]
    · have hbeq : (o.prec == 0) = false := by simpa using h0
      rw [hbeq, if_neg Bool.false_ne_true]
      exact looser_cons (by omega) _
  · rwa [hneed, Nat.add_assoc, Nat.add_comm 1]

theorem Done.not (h : Done x hs ops res us) :
    ∃ ops' res', shuntToken (ops, res) (swapParen "NOT") = .ok (ops', res') ∧ Done x hs ops' res' us := by
  have hop : Waiting "NOT" := .not
  have hne : "NOT" ≠ "(" := by decide
  have hlevel : level "NOT" = 1 := by decide
  have hb := h.within.bracket_mem
  have heval := h.pop (p := 1) (by decide)
  obtain ⟨hbl, hbeneath⟩ := beneath_cons h.waiting hb hne (p := 1) (by decide)
  have hneed : need ("NOT" :: looser 1 ops) = need (looser 1 ops) := by
    rw [need_cons]
    rfl
  have hstep := hop.shunt hne h.waiting hb res
  rw [hlevel] at hstep
  refine ⟨_, _, hstep, ?_, ?_, by rwa [hneed]⟩
  · exact List.forall_mem_cons.mpr ⟨hop, fun op hmem => h.waiting op (mem_looser hmem)⟩
  · have hwithin := h.within
    cases hs with
    | nil => exact hwithin.elim
    | cons q hs =>
      obtain ⟨-, hbacked, haround⟩ := hwithin
      refine ⟨hbl, fun hx => ?_, by rwa [hbeneath]⟩
      rw [looser_cons (by omega), hneed, hbacked hx]

/-- The tightest operators take two operands. -/
theorem pairs_tighter (h : ∀ op ∈ ops, Waiting op) :
    ∀ op ∈ tighter 1 ops, Waiting op ∧ op ≠ "(" ∧ pairs op = true := by
  intro op hop
  obtain ⟨hwaiting, hne⟩ := waiting_tighter h (p := 1) (by decide) op hop
  exact ⟨hwaiting, hne, hwaiting.pairs_of_level (mem_tighter hop).2⟩

theorem level_post (o : PostOp) : level o.name = 1 ∧ o.name ≠ "(" ∧ pairs o.name = false := by
  cases o <;> decide

theorem tighter_eq_nil {p : Nat} (h : looser p ops = ops) : tighter p ops = [] := by
  have hsplit := tighter_append_looser p ops
  rw [h] at hsplit
  exact List.append_left_eq_self.mp hsplit

/-- An operator behind its operand is read: the tightest operators leave the stack too early,
and find their operands only where others wait beneath them. -/
theorem Due.post (h : Due x hs tight ops res us) (o : PostOp) (hx : x = 0 → tight = true → backed hs = true) :
    ∃ ops' res', shuntToken (ops, res) (swapParen o.name) = .ok (ops', res') ∧
      Due x hs false ops' res' us := by
  obtain ⟨hlevel, hne, hpairs⟩ := level_post o
  have hop : Waiting o.name := .post o
  obtain ⟨hhs, haround⟩ := h.around
  have hb := (haround.within hhs).bracket_mem
  obtain ⟨hbl, hbeneath⟩ := beneath_cons h.waiting hb hne (p := 1) (by decide)
  have hneed : need (o.name :: looser 1 ops) = need (looser 1 ops) := by
    rw [need_cons, hpairs]
    rfl
  have hdrop : looser 1 (o.name :: looser 1 ops) = o.name :: looser 1 ops := looser_cons (by omega) _
  have heval : Evals x (need (looser 1 ops) + x) (res ++ (tighter 1 ops).map .str) us := by
    cases htight : tight with
    | false =>
      have hlooser : looser 1 ops = ops := by simpa [htight] using h.tight
      rw [tighter_eq_nil hlooser, hlooser, List.map_nil, List.append_nil]
      exact h.eval
    | true =>
      have hc : 1 ≤ need (looser 1 ops) + x := by
        by_cases h0 : x = 0
        · cases hs with
          | nil => exact absurd rfl hhs
          | cons q hs =>
            have := (haround.2.2.1 h0).mpr (hx h0 htight)
            omega
        · omega
      have hsplit := need_split 1 ops
      exact h.eval.pops (waiting_tighter h.waiting (p := 1) (by decide)) hc (by omega)
  have hstep := hop.shunt hne h.waiting hb res
  rw [hlevel] at hstep
  refine ⟨_, _, hstep, ?_, ⟨hhs, ?_⟩, ?_, by rwa [hneed]⟩
  · exact List.forall_mem_cons.mpr ⟨hop, fun op hmem => h.waiting op (mem_looser hmem)⟩
  · cases hs with
    | nil => exact absurd rfl hhs
    | cons q hs =>
      obtain ⟨-, hany, hbacked, hrest⟩ := haround
      refine ⟨hbl, fun h0 => ?_, fun h0 => ?_, by rwa [hbeneath]⟩
      · cases htight : tight with
        | false =>
          have hlooser : looser 1 ops = ops := by simpa [htight] using h.tight
          rw [hneed, hlooser, hany h0]
        | true =>
          have hback := hx h0 htight
          have hsome : (q :: hs).any Option.isSome = true := by
            unfold backed at hback
            cases q with
            | none => simpa using hback
            | some n => simp
          rw [hneed, hbacked h0]
          exact iff_of_true hback hsome
      · rw [hdrop, hneed, hbacked h0]
  · rw [if_neg Bool.false_ne_true]
    exact hdrop

/-- Where no others wait, the last of them does not find its operands. -/
theorem Due.post_short (h : Due 0 hs true ops res us) (o : PostOp) (hno : backed hs = false) :
    ∃ ops' res', shuntToken (ops, res) (swapParen o.name) = .ok (ops', res') ∧
      ∃ e, res'.foldlM evalToken [] = .error e := by
  obtain ⟨hlevel, hne, -⟩ := level_post o
  obtain ⟨hhs, haround⟩ := h.around
  have hb := (haround.within hhs).bracket_mem
  obtain ⟨st, heval, hlen, -⟩ := h.eval
  have hzero : need (looser 1 ops) = 0 := by
    cases hs with
    | nil => exact absurd rfl hhs
    | cons q hs =>
      refine Nat.eq_zero_of_not_pos fun hpos => ?_
      rw [(haround.2.2.1 rfl).mp hpos] at hno
      cases hno
  have htight : tighter 1 ops ≠ [] := h.tight
  rw [need_split 1, hzero] at hlen
  obtain ⟨e, he⟩ := eval_pops_short (pairs_tighter h.waiting) htight hlen
  have hstep := Waiting.shunt (.post o) hne h.waiting hb res
  rw [hlevel] at hstep
  refine ⟨_, _, hstep, e, ?_⟩
  rw [eval_append heval]
  exact he

end

/-! ## The list of an `IN` -/

theorem popList_item {v : Value} (hv : IsItem v) {st opd rest : List Value} (h : popList st = .ok (opd, rest)) :
    popList (v :: st) = .ok (v :: opd, rest) := by
  cases v with
  | str s =>
    obtain ⟨hopen, hcomma, hclose⟩ := hv
    simp only [popList, h, bind, Except.bind, if_neg hclose, hopen, hcomma, or_self, if_false]
    rfl
  | int n =>
    simp only [popList, h]
    rfl
  | list vs =>
    simp only [popList, h]
    rfl

theorem popList_mark {s : String} (hs : s = "[" ∨ s = ",") {st opd rest : List Value}
    (h : popList st = .ok (opd, rest)) : popList (.str s :: st) = .ok (opd, rest) := by
  have hclose : s ≠ "]" := by
    rintro rfl
    exact absurd hs (by decide)
  simp only [popList, h, bind, Except.bind, if_neg hclose, hs, if_true]
  rfl

/-- The values of a list, with its brackets and commas. -/
def listed (vs : List Value) : List Value := .str "[" :: (vs.intersperse (.str ",") ++ [.str "]"])

theorem popList_listed {vs : List Value} (h : ∀ v ∈ vs, IsItem v) (st : List Value) :
    popList (listed vs ++ st) = .ok (vs, st) := by
  have hitems : popList (vs.intersperse (.str ",") ++ .str "]" :: st) = .ok (vs, st) := by
    induction vs with
    | nil => rfl
    | cons v vs ih =>
      have hv := h v List.mem_cons_self
      have ih := ih fun u hu => h u (List.mem_cons_of_mem _ hu)
      cases vs with
      | nil => exact popList_item hv ih
      | cons u us =>
        rw [List.intersperse_cons_cons]
        exact popList_item hv (popList_mark (.inr rfl) ih)
  have hlist : listed vs ++ st = .str "[" :: (vs.intersperse (.str ",") ++ .str "]" :: st) := by
    simp [listed]
  rw [hlist]
  exact popList_mark (.inl rfl) hitems

theorem evalToken_in {s : String} (hs : PyStr.Trimmed s.toList) {vs : List Value} (h : ∀ v ∈ vs, IsItem v)
    (st : List Value) :
    evalToken (.str s :: (listed vs ++ st)) (.str "IN") = .ok (.list [.str "IN", .str s, .list vs] :: st) := by
  have hop : operator? (.str "IN") = some "IN" := rfl
  have htext : get operations "IN" = .ok "2" := rfl
  have hn : PyStr.int "2" = some 2 := by decide
  have hpop : popIn (.str s :: (listed vs ++ st)) = .ok ([.str s, .list vs], st) := by
    simp only [popIn, popList_listed h, bind, Except.bind, hs.strip, String.ofList_toList]
    rfl
  simp only [evalToken, hop, htext, bind, Except.bind, hn, if_true, hpop]
  rfl

/-- The texts of a list. -/
def listTexts (ws : List String) : List String := "[" :: (ws.intersperse "," ++ ["]"])

theorem listTexts_operands {ws : List String} (h : ∀ w ∈ ws, IsOperand w) :
    (∀ w ∈ listTexts ws, IsOperand w) ∧ (listTexts ws).map getOperand = listed (ws.map getOperand) := by
  have hmem : ∀ w ∈ ws.intersperse ",", IsOperand w := by
    induction ws with
    | nil => simp
    | cons w ws ih =>
      have hw := h w List.mem_cons_self
      have ih := ih fun u hu => h u (List.mem_cons_of_mem _ hu)
      cases ws with
      | nil =>
        intro v hv
        rw [List.mem_singleton.mp hv]
        exact hw
      | cons u us =>
        rw [List.intersperse_cons_cons]
        exact List.forall_mem_cons.mpr ⟨hw, List.forall_mem_cons.mpr ⟨by decide, ih⟩⟩
  have hmap : (ws.intersperse ",").map getOperand = (ws.map getOperand).intersperse (.str ",") := by
    have hcomma : getOperand "," = .str "," := rfl
    clear h hmem
    induction ws with
    | nil => rfl
    | cons w ws ih =>
      cases ws with
      | nil => rfl
      | cons u us => simpa [hcomma] using ih
  constructor
  · refine List.forall_mem_cons.mpr ⟨by decide, fun w hw => ?_⟩
    rcases List.mem_append.mp hw with hw | hw
    · exact hmem w hw
    · rw [List.mem_singleton.mp hw]
      decide
  · have hopen : getOperand "[" = .str "[" := rfl
    have hclose : getOperand "]" = .str "]" := rfl
    simp [listTexts, listed, hmap, hopen, hclose]

theorem leaves_items {ws : List String} (h : ∀ w ∈ ws, IsOperand w) :
    leaves (.list (ws.map getOperand)) = [.list (ws.map getOperand)] := by
  cases ws with
  | nil => rfl
  | cons w ws =>
    have hw := (h w List.mem_cons_self).2
    rw [List.map_cons]
    cases hv : getOperand w with
    | str s =>
      rw [hv] at hw
      have hs : s ∉ operators := fun hm => by simp [operator?, hm] at hw
      simp [leaves, hs]
    | int n => rfl
    | list vs => rfl

theorem listOp_facts (o : ListOp) : o.name ∈ operators ∧ o.name ≠ "(" ∧ o.name ≠ ")" ∧ level o.name = 1 ∧
    get RqgParser.prec o.name = .ok 1 := by
  cases o <;> decide

theorem turned_inList (o : ListOp) (items : List Operand) : (WhereTok.inList o items).turned =
    (listTexts (items.map Operand.text)).reverse.map swapParen ++ [swapParen o.name] := by
  simp [WhereTok.turned, WhereTok.items, listTexts]

theorem listTexts_items {items : List Operand} (h : ∀ a ∈ items, IsOperand a.text) :
    (∀ w ∈ (listTexts (items.map Operand.text)).reverse, IsOperand w) ∧
      (listTexts (items.map Operand.text)).reverse.map getOperand =
        (listed (items.map fun a => getOperand a.text)).reverse := by
  have htexts : ∀ w ∈ items.map Operand.text, IsOperand w := List.forall_mem_map.mpr h
  obtain ⟨hopd, hvals⟩ := listTexts_operands htexts
  rw [List.map_reverse, hvals, List.map_map]
  exact ⟨fun w hw => hopd w (List.mem_reverse.mp hw), rfl⟩

/-- The list is read item by item, then its operator. -/
theorem shunt_list {ops : List String} (h : ∀ op ∈ ops, Waiting op) (hb : "(" ∈ ops) (o : ListOp)
    {items : List Operand} (hitems : ∀ a ∈ items, IsOperand a.text) (res : List Value) :
    (WhereTok.inList o items).turned.foldlM shuntToken (ops, res) =
      .ok (o.name :: looser 1 ops, res ++ (listed (items.map fun a => getOperand a.text)).reverse ++
        (tighter 1 ops).map .str) := by
  obtain ⟨hmem, hl, hr, hlevel, hget⟩ := listOp_facts o
  obtain ⟨hopd, hvals⟩ := listTexts_items hitems
  have hread := shunt_operands (listTexts (items.map Operand.text)).reverse (fun w hw => (hopd w hw).1) ops res
  have hop := shunt_op h hb hmem hl hr (hlevel ▸ hget) (by omega)
    (res ++ (listed (items.map fun a => getOperand a.text)).reverse)
  rw [hlevel] at hop
  rw [turned_inList, List.foldlM_append, hread, hvals]
  show (shuntToken (ops, _) (swapParen o.name) >>= _) = _
  rw [hop]
  rfl

theorem eval_list {items : List Operand} (hitems : ∀ a ∈ items, IsOperand a.text) {res st : List Value}
    (h : res.foldlM evalToken [] = .ok st) :
    (res ++ (listed (items.map fun a => getOperand a.text)).reverse).foldlM evalToken [] =
      .ok (listed (items.map fun a => getOperand a.text) ++ st) := by
  obtain ⟨hopd, hvals⟩ := listTexts_items hitems
  have heval := eval_operands _ hopd st
  rw [hvals, List.reverse_reverse] at heval
  rw [eval_append h]
  exact heval

/-- A `NOT-IN` is read like an operator between two operands: its list is too many values. -/
theorem Due.notIn {x : Nat} {hs : Behind} {tight : Bool} {ops : List String} {res us : List Value}
    (h : Due x hs tight ops res us) {items : List Operand} (hitems : ∀ a ∈ items, IsOperand a.text) :
    ∃ x' ops' res', x' ≠ 0 ∧
      (WhereTok.inList .notIn items).turned.foldlM shuntToken (ops, res) = .ok (ops', res') ∧
        Due x' hs false ops' res' us := by
  obtain ⟨hhs, haround⟩ := h.around
  have hb := (haround.within hhs).bracket_mem
  obtain ⟨hbl, hbeneath⟩ := beneath_cons h.waiting hb (by decide : ListOp.notIn.name ≠ "(") (p := 1) (by decide)
  obtain ⟨st, heval, hlen, -⟩ := h.eval
  have hlist := eval_list hitems heval
  have htwo : 2 ≤ (listed (items.map fun a => getOperand a.text)).length := by
    simp [listed]
  obtain ⟨k, hk⟩ : ∃ k, (listed (items.map fun a => getOperand a.text)).length = k + 2 :=
    ⟨_, (Nat.sub_add_cancel htwo).symm⟩
  have hsplit := need_split 1 ops
  have hevals : Evals (x + k + 1) ((listed (items.map fun a => getOperand a.text)) ++ st).length
      (res ++ (listed (items.map fun a => getOperand a.text)).reverse) us := ⟨_, hlist, rfl, fun h0 => by omega⟩
  have heval' := hevals.pops (waiting_tighter h.waiting (p := 1) (by decide))
    (c := need (looser 1 ops) + (x + k + 2)) (by omega) (by rw [List.length_append, hk]; omega)
  have hwaiting : Waiting (ListOp.notIn.name) := .bin .notIn
  have hneed : need (ListOp.notIn.name :: looser 1 ops) = need (looser 1 ops) + 1 := by
    rw [need_cons]
    rfl
  have haround' : ∀ {hs : Behind} {ops : List String}, Around x hs ops → Around (x + k + 1) hs ops := by
    intro hs
    induction hs with
    | nil => exact fun h => h
    | cons q hs ih => exact fun h => ⟨h.1, fun h0 => by omega, fun h0 => by omega, ih h.2.2.2⟩
  refine ⟨x + k + 1, _, _, by omega, shunt_list h.waiting hb .notIn hitems res, ?_, ⟨hhs, ?_⟩, rfl, ?_⟩
  · exact List.forall_mem_cons.mpr ⟨hwaiting, fun op hop => h.waiting op (mem_looser hop)⟩
  · cases hs with
    | nil => exact absurd rfl hhs
    | cons q hs =>
      refine ⟨hbl, fun h0 => by omega, fun h0 => by omega, ?_⟩
      rw [hbeneath]
      exact haround' haround.2.2.2
  · have hcount : need (ListOp.notIn.name :: looser 1 ops) + (x + k + 1) = need (looser 1 ops) + (x + k + 2) := by
      omega
    rwa [hcount]

end MobileTestkit.L3.WhereOperators
