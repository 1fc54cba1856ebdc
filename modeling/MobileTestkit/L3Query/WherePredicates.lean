import MobileTestkit.Core.ExceptLoop
import MobileTestkit.L3Query.WhereTree

/-!
# Clauses of predicates

WHERE clauses that combine predicates by `AND`, `OR` and brackets. To the
program a predicate is one operator, with one operand in front of it and the
others behind it.

* `compile_clause`: words that join to the items of such a clause compile to its
  tree, every predicate a node of its own.
* `leaves_compile`: whatever a text compiles to, the operands of the tree are an
  initial part of the operands of the text, in their order.
-/
namespace MobileTestkit.L3.RqgParser

open MobileTestkit.Core
open MobileTestkit.Core.OpPrec

/-! ## Predicates -/

/-- The operators that stand behind their one operand. -/
inductive PostOp where
  | isNull | isNotNull | isMissing | isNotMissing
  deriving DecidableEq, Repr

def PostOp.name : PostOp → String
  | .isNull => "IS-NULL"
  | .isNotNull => "IS-NOT-NULL"
  | .isMissing => "IS-MISSING"
  | .isNotMissing => "IS-NOT-MISSING"

inductive Predicate where
  | cmp (o : BinOp) (x y : Operand)
  | between (x : Operand) (m n : String)
  | post (o : PostOp) (x : Operand)
  deriving DecidableEq, Repr

namespace Predicate

def op : Predicate → String
  | .cmp o _ _ => o.name
  | .between _ _ _ => "BETWEEN"
  | .post o _ => o.name

/-- The operand in front of the operator. -/
def subject : Predicate → Operand
  | .cmp _ x _ => x
  | .between x _ _ => x
  | .post _ x => x

/-- The texts of the operands behind the operator. -/
def rest : Predicate → List String
  | .cmp _ _ y => [y.text]
  | .between _ m n => [m, n]
  | .post _ _ => []

def items (p : Predicate) : List String := p.subject.text :: p.op :: p.rest

def operands (p : Predicate) : List Value := getOperand p.subject.text :: p.rest.map getOperand

def image (p : Predicate) : Value := .list (.str p.op :: p.operands)

/-- The operands are operands, and the bounds of a `BETWEEN` are numbers. -/
def Valid : Predicate → Prop
  | .cmp o x y => (o ≠ .and ∧ o ≠ .or) ∧ x.Valid ∧ y.Valid
  | .between x m n => x.Valid ∧ PyStr.isdigit m = true ∧ PyStr.isdigit n = true
  | .post _ x => x.Valid

instance (p : Predicate) : Decidable p.Valid := by
  cases p with
  | cmp o x y => exact inferInstanceAs (Decidable ((_ ∧ _) ∧ _ ∧ _))
  | between x m n => exact inferInstanceAs (Decidable (_ ∧ _ ∧ _))
  | post o x => exact inferInstanceAs (Decidable x.Valid)

theorem op_mem (p : Predicate) : p.op ∈ operators ∧ p.op ≠ "(" ∧ p.op ≠ ")" ∧ p.op ≠ "IN" := by
  cases p with
  | cmp o x y =>
    show o.name ∈ operators ∧ o.name ≠ "(" ∧ o.name ≠ ")" ∧ o.name ≠ "IN"
    cases o <;> decide
  | between x m n =>
    show "BETWEEN" ∈ operators ∧ "BETWEEN" ≠ "(" ∧ "BETWEEN" ≠ ")" ∧ "BETWEEN" ≠ "IN"
    decide
  | post o x =>
    show o.name ∈ operators ∧ o.name ≠ "(" ∧ o.name ≠ ")" ∧ o.name ≠ "IN"
    cases o <;> decide

/-- A predicate's operator binds tighter than `AND` and `OR`. -/
theorem op_prec {p : Predicate} (hp : p.Valid) : ∃ q, get prec p.op = .ok q ∧ q < 2 := by
  cases p with
  | cmp o x y =>
    refine ⟨o.prec, o.get_prec, ?_⟩
    have ho := hp.1
    revert ho
    cases o <;> decide
  | between x m n => exact ⟨1, rfl, by decide⟩
  | post o x => exact ⟨1, by cases o <;> rfl, by decide⟩

/-- It takes all operands of the predicate. -/
theorem op_arity (p : Predicate) :
    ∃ text, get operations p.op = .ok text ∧ PyStr.int text = some (p.operands.length : Int) := by
  cases p with
  | cmp o x y => exact ⟨"2", by cases o <;> rfl, (by decide : PyStr.int "2" = some 2)⟩
  | between x m n => exact ⟨"3", rfl, (by decide : PyStr.int "3" = some 3)⟩
  | post o x => exact ⟨"1", by cases o <;> rfl, (by decide : PyStr.int "1" = some 1)⟩

end Predicate

/-! ## Clauses -/

inductive Junction where
  | and | or
  deriving DecidableEq, Repr

def Junction.name : Junction → String
  | .and => "AND"
  | .or => "OR"

/-- The value in the table. -/
def Junction.prec (_ : Junction) : Nat := 2

abbrev Clause := Expr Predicate Junction

namespace Clause

def tokItems : Tok Predicate Junction → List String
  | .opd p => p.items
  | .op j => [j.name]
  | .lpar => ["("]
  | .rpar => [")"]

/-- The items of a clause, from the left. -/
def items (e : Clause) : List String := e.tokens.flatMap tokItems

/-- The nested lists of a tree. -/
def image : Clause → Value
  | .opd p => p.image
  | .paren e => image e
  | .bin j l r => .list [.str j.name, image l, image r]

def operands : Clause → List Value
  | .opd p => p.operands
  | .paren e => operands e
  | .bin _ l r => operands l ++ operands r

end Clause

/-! ## The loop over the items -/

/-- An operand, and nothing the second stack would take for an operator. -/
def IsOperand (w : String) : Prop := w ∉ operators ∧ operator? (getOperand w) = none

instance (w : String) : Decidable (IsOperand w) := inferInstanceAs (Decidable (_ ∧ _))

theorem isOperand_text {a : Operand} (ha : a.Valid) : IsOperand a.text := by
  refine ⟨operand_not_operator ha, ?_⟩
  cases a with
  | plain w => exact ha.2.2
  | literal ws => exact ha.2

theorem isOperand_digits {w : String} (hw : PyStr.isdigit w = true) : IsOperand w := by
  have hops : ∀ s ∈ operators, PyStr.isdigit s = false := by decide
  have hdollar : PyStr.startswith w "$" = false := by
    refine Bool.eq_false_iff.mpr fun hp => ?_
    have hm : '$' ∈ w.toList := (List.isPrefixOf_iff_prefix.mp hp).subset (by decide)
    have hall := (Bool.and_eq_true_iff.mp hw).2
    exact absurd (List.all_eq_true.mp hall _ hm) (by decide)
  refine ⟨fun hm => absurd hw (by simp [hops w hm]), ?_⟩
  simp [getOperand, hdollar, hw, operator?]

theorem Predicate.isOperand {p : Predicate} (hp : p.Valid) :
    ∀ w ∈ p.subject.text :: p.rest, IsOperand w := by
  intro w hw
  cases p with
  | cmp o x y =>
    rcases List.mem_cons.mp hw with rfl | hw
    · exact isOperand_text hp.2.1
    · rw [List.mem_singleton.mp hw]
      exact isOperand_text hp.2.2
  | between x m n =>
    obtain ⟨hx, hm, hn⟩ := hp
    simp only [Predicate.rest, List.mem_cons, List.not_mem_nil, or_false] at hw
    rcases hw with rfl | rfl | rfl
    · exact isOperand_text hx
    · exact isOperand_digits hm
    · exact isOperand_digits hn
  | post o x =>
    rw [List.mem_singleton.mp hw]
    exact isOperand_text hp

theorem swapParen_operand {w : String} (h : w ∉ operators) : swapParen w = w := by
  have h1 : w ≠ "(" := fun he => h (he ▸ by decide)
  have h2 : w ≠ ")" := fun he => h (he ▸ by decide)
  simp [swapParen, h1, h2]

theorem swapParen_op {op : String} (hl : op ≠ "(") (hr : op ≠ ")") : swapParen op = op := by
  simp [swapParen, hl, hr]

theorem shunt_operands (ws : List String) (h : ∀ w ∈ ws, w ∉ operators) (st : List String)
    (result : List Value) :
    (ws.map swapParen).foldlM shuntToken (st, result) = .ok (st, result ++ ws.map getOperand) := by
  induction ws generalizing result with
  | nil => simp only [List.map_nil, List.foldlM_nil, List.append_nil]; rfl
  | cons w ws ih =>
    have hw := h w List.mem_cons_self
    have hstep : shuntToken (st, result) w = .ok (st, result ++ [getOperand w]) := by
      simp only [shuntToken, if_pos hw]
      rfl
    rw [List.map_cons, List.foldlM_cons, swapParen_operand hw, hstep]
    show (ws.map swapParen).foldlM shuntToken (st, result ++ [getOperand w]) = _
    rw [ih fun v hv => h v (List.mem_cons_of_mem _ hv)]
    simp

/-- An operator that no tighter one waits for goes on the stack. -/
theorem shunt_operator {op top : String} {p q : Nat} (hmem : op ∈ operators) (hl : op ≠ "(")
    (hr : op ≠ ")") (hp : get prec op = .ok p) (xs : List String)
    (hxs : ∀ s ∈ xs, ∃ q', get prec s = .ok q' ∧ q' < p) (htop : get prec top = .ok q) (hq : p ≤ q)
    (st : List String) (result : List Value) :
    shuntToken (xs ++ top :: st, result) (swapParen op) =
      .ok (op :: top :: st, result ++ xs.map .str) := by
  rw [swapParen_op hl hr]
  simp only [shuntToken, if_neg (not_not_intro hmem), if_neg hl, if_neg hr, hp]
  show (popTighter p (xs ++ top :: st) result >>= _) = _
  rw [popTighter_pend xs result hxs htop hq]
  rfl

namespace Clause

/-- The operators left on the stack when a tree has been read, from its right end. -/
def pend : Clause → List String
  | .opd p => [p.op]
  | .paren _ => []
  | .bin j l _ => pend l ++ [j.name]

/-- What has been put out then. -/
def out : Clause → List Value
  | .opd p => p.operands.reverse
  | .paren e => out e ++ (pend e).map .str
  | .bin _ l r => out r ++ (pend r).map .str ++ out l

/-- The output of a whole tree. -/
def post (e : Clause) : List Value := out e ++ (pend e).map .str

theorem pend_mem (e : Clause) : ∀ s ∈ pend e, s ∈ operators ∧ s ≠ "(" := by
  induction e with
  | opd p =>
    intro s hs
    rw [List.mem_singleton.mp hs]
    exact ⟨(Predicate.op_mem p).1, (Predicate.op_mem p).2.1⟩
  | paren e ih => simp [pend]
  | bin j l r ihl ihr =>
    intro s hs
    rcases List.mem_append.mp hs with hs | hs
    · exact ihl s hs
    · rw [List.mem_singleton.mp hs]
      cases j <;> decide

/-- Only the operator of a predicate, if anything, is left by a right operand. -/
theorem pend_right {e : Clause} (hv : e.AllOpds Predicate.Valid) (hroot : e.root? = none) :
    ∀ s ∈ pend e, ∃ q, get prec s = .ok q ∧ q < 2 := by
  cases e with
  | opd p =>
    intro s hs
    rw [List.mem_singleton.mp hs]
    exact Predicate.op_prec hv
  | paren e => simp [pend]
  | bin j l r => cases hroot

theorem shunt_predicate {p : Predicate} (hp : p.Valid) {top : String} {q : Nat}
    (htop : get prec top = .ok q) (hq : 2 ≤ q) (st : List String) (result : List Value) :
    (p.items.reverse.map swapParen).foldlM shuntToken (top :: st, result) =
      .ok (p.op :: top :: st, result ++ p.operands.reverse) := by
  have hopd := Predicate.isOperand hp
  obtain ⟨hmem, hl, hr, -⟩ := Predicate.op_mem p
  obtain ⟨q', hprec, hlt⟩ := Predicate.op_prec hp
  have hrest := shunt_operands p.rest.reverse
    (fun w hw => (hopd w (List.mem_cons_of_mem _ (List.mem_reverse.mp hw))).1) (top :: st) result
  have hop := shunt_operator hmem hl hr hprec [] (by simp) htop (by omega) st
    (result ++ p.rest.reverse.map getOperand)
  have hsubject := shunt_operands [p.subject.text]
    (by simpa using (hopd _ List.mem_cons_self).1) (p.op :: top :: st)
    (result ++ p.rest.reverse.map getOperand)
  have hlist : p.items.reverse.map swapParen =
      p.rest.reverse.map swapParen ++ swapParen p.op :: [p.subject.text].map swapParen := by
    simp [Predicate.items]
  simp only [List.nil_append, List.map_nil, List.append_nil] at hop
  rw [hlist, List.foldlM_append, hrest]
  show (swapParen p.op :: _).foldlM shuntToken (top :: st, _) = _
  rw [List.foldlM_cons, hop]
  show List.foldlM shuntToken _ _ = _
  rw [hsubject]
  simp [Predicate.operands]

/-- The loop over a clause, from its right end. Induction on the tree; the right
operand of a junction is read first. -/
theorem shunt_clause {e : Clause} (hv : e.AllOpds Predicate.Valid) (hd : e.Disciplined Junction.prec)
    {top : String} {q : Nat} (htop : get prec top = .ok q) (hq : 2 ≤ q) (st : List String)
    (result : List Value) :
    ((items e).reverse.map swapParen).foldlM shuntToken (top :: st, result) =
      .ok (pend e ++ top :: st, result ++ out e) := by
  induction e generalizing top q st result with
  | opd p =>
    have hitems : items (.opd p) = p.items := by simp [items, Expr.tokens, tokItems]
    rw [hitems]
    exact shunt_predicate hv htop hq st result
  | paren e ih =>
    have hitems : (items e.paren).reverse.map swapParen =
        "(" :: ((items e).reverse.map swapParen ++ [")"]) := by
      simp [items, Expr.tokens, tokItems, swapParen]
    rw [hitems, List.foldlM_cons]
    show (List.foldlM shuntToken ("(" :: top :: st, result) _) = _
    rw [List.foldlM_append, ih hv hd (rfl : get prec "(" = .ok 3) (by decide)]
    show (popGroup (pend e ++ "(" :: top :: st) (result ++ out e) >>= _) = _
    rw [popGroup_pend (pend e) _ fun s hs => (pend_mem e s hs).2]
    show Except.ok (_, _) = _
    simp [out, pend]
  | bin j l r ihl ihr =>
    obtain ⟨hdl, hdr, -, hright⟩ := hd
    -- the right operand of a reading is no junction: all junctions are on one level
    have hroot : r.root? = none := by
      cases hr : r.root? with
      | none => rfl
      | some j' => exact absurd (hright j' hr) (by simp [Junction.prec])
    obtain ⟨hmem, hl, hr⟩ : j.name ∈ operators ∧ j.name ≠ "(" ∧ j.name ≠ ")" := by
      cases j <;> decide
    have hprec : get prec j.name = .ok 2 := by cases j <;> rfl
    have hstep := shunt_operator hmem hl hr hprec (pend r) (pend_right hv.2 hroot) htop hq st
      (result ++ out r)
    have hitems : (items (.bin j l r)).reverse.map swapParen =
        (items r).reverse.map swapParen ++ swapParen j.name :: (items l).reverse.map swapParen := by
      simp [items, Expr.tokens, tokItems]
    rw [hitems, List.foldlM_append, ihr hv.2 hdr htop hq]
    show (swapParen j.name :: _).foldlM shuntToken (pend r ++ top :: st, result ++ out r) = _
    rw [List.foldlM_cons, hstep]
    show List.foldlM shuntToken _ _ = _
    rw [ihl hv.1 hdl hprec (Nat.le_refl 2)]
    simp [pend, out]

end Clause

/-! ## The second stack -/

theorem popOperands_append (vs st : List Value) : popOperands vs.length (vs ++ st) = .ok (vs, st) := by
  induction vs with
  | nil => rfl
  | cons v vs ih =>
    simp only [List.length_cons, List.cons_append, popOperands, ih]
    rfl

theorem evalToken_operand {w : String} (hw : IsOperand w) (st : List Value) :
    evalToken st (getOperand w) = .ok (getOperand w :: st) := by
  simp only [evalToken, hw.2]
  rfl

/-- An operator other than `IN` takes its operands from the stack. -/
theorem evalToken_operator {op text : String} {vs : List Value} (hmem : op ∈ operators) (hin : op ≠ "IN")
    (htext : get operations op = .ok text) (hn : PyStr.int text = some (vs.length : Int))
    (st : List Value) : evalToken (vs ++ st) (.str op) = .ok (.list (.str op :: vs) :: st) := by
  have hop : operator? (.str op) = some op := by simp [operator?, hmem]
  simp only [evalToken, hop, htext, bind, Except.bind, hn, if_neg hin, Int.toNat_natCast,
    popOperands_append]
  rfl

theorem eval_operands (ws : List String) (h : ∀ w ∈ ws, IsOperand w) (st : List Value) :
    (ws.map getOperand).foldlM evalToken st = .ok ((ws.map getOperand).reverse ++ st) := by
  induction ws generalizing st with
  | nil => rfl
  | cons w ws ih =>
    rw [List.map_cons, List.foldlM_cons, evalToken_operand (h w List.mem_cons_self)]
    show (ws.map getOperand).foldlM evalToken (getOperand w :: st) = _
    rw [ih fun v hv => h v (List.mem_cons_of_mem _ hv)]
    simp

namespace Clause

/-- The output of a tree leaves its image. -/
theorem eval_post {e : Clause} (hv : e.AllOpds Predicate.Valid) (st : List Value) :
    (post e).foldlM evalToken st = .ok (image e :: st) := by
  induction e generalizing st with
  | opd p =>
    obtain ⟨hmem, -, -, hin⟩ := Predicate.op_mem p
    obtain ⟨text, htext, hn⟩ := Predicate.op_arity p
    have hopd := eval_operands (p.subject.text :: p.rest).reverse
      (fun w hw => Predicate.isOperand hv w (List.mem_reverse.mp hw)) st
    have hpost : post (.opd p) = (p.subject.text :: p.rest).reverse.map getOperand ++ [.str p.op] := by
      simp [post, out, pend, Predicate.operands]
    have hstack : ((p.subject.text :: p.rest).reverse.map getOperand).reverse = p.operands := by
      simp [Predicate.operands]
    rw [hpost, List.foldlM_append, hopd, hstack]
    show [Value.str p.op].foldlM evalToken (p.operands ++ st) = _
    rw [List.foldlM_cons, evalToken_operator hmem hin htext hn]
    rfl
  | paren e ih =>
    have hpost : post e.paren = post e := by simp [post, out, pend]
    rw [hpost]
    exact ih hv st
  | bin j l r ihl ihr =>
    have hpost : post (.bin j l r) = post r ++ (post l ++ [.str j.name]) := by
      simp [post, out, pend]
    have hj : evalToken (image l :: image r :: st) (.str j.name) =
        .ok (.list [.str j.name, image l, image r] :: st) := by
      cases j <;> rfl
    rw [hpost, List.foldlM_append, ihr hv.2]
    show (post l ++ [Value.str j.name]).foldlM evalToken (image r :: st) = _
    rw [List.foldlM_append, ihl hv.1]
    show [Value.str j.name].foldlM evalToken (image l :: image r :: st) = _
    rw [List.foldlM_cons, hj]
    rfl

end Clause

/-- A text whose words join to the items of a clause compiles to the reading of
the clause. -/
theorem compile_clause {e t : Clause} (hv : e.AllOpds Predicate.Valid) (ht : t.tokens = e.tokens)
    (hd : t.Disciplined Junction.prec) {query : String}
    (hq : joinWords (wordsOf query) = Clause.items e) : compileWhere query = .ok (Clause.image t) := by
  have hvt : t.AllOpds Predicate.Valid := by
    rw [Expr.allOpds_iff, ht, ← Expr.allOpds_iff]
    exact hv
  have hitems : joinWords (wordsOf query) = Clause.items t := by
    rw [hq, Clause.items, Clause.items, ht]
  have hloop : (["("] ++ (Clause.items t).reverse.map swapParen ++ [")"]).foldlM shuntToken ([], []) =
      .ok ([], Clause.post t) := by
    rw [List.foldlM_append, List.foldlM_append]
    show (((Clause.items t).reverse.map swapParen).foldlM shuntToken (["("], []) >>= _) = _
    rw [Clause.shunt_clause hvt hd (rfl : get prec "(" = .ok 3) (by decide)]
    show (popGroup (Clause.pend t ++ ["("]) ([] ++ Clause.out t) >>= _) = _
    rw [popGroup_pend (Clause.pend t) _ fun s hs => (Clause.pend_mem t s hs).2]
    rfl
  unfold compileWhere getPrefixList
  simp only [hitems, hloop]
  show prefixEvaluation (Clause.post t).reverse = _
  unfold prefixEvaluation
  rw [List.reverse_reverse, Clause.eval_post hvt]
  rfl

/-! ## The operands of whatever comes out -/

mutual
/-- The operands of a value, from the left: a node is a list with an operator in
front. -/
def leaves : Value → List Value
  | .list (.str op :: vs) => if op ∈ operators then leavesAll vs else [.list (.str op :: vs)]
  | v => [v]

def leavesAll : List Value → List Value
  | [] => []
  | v :: vs => leaves v ++ leavesAll vs
end

theorem leavesAll_append (vs ws : List Value) : leavesAll (vs ++ ws) = leavesAll vs ++ leavesAll ws := by
  induction vs with
  | nil => simp [leavesAll]
  | cons v vs ih => simp [leavesAll, ih]

theorem mem_leavesAll {l : Value} {vs : List Value} : l ∈ leavesAll vs ↔ ∃ v ∈ vs, l ∈ leaves v := by
  induction vs with
  | nil => simp [leavesAll]
  | cons v vs ih => simp [leavesAll, ih]

theorem leaves_node {op : String} (hop : op ∈ operators) (vs : List Value) :
    leaves (.list (.str op :: vs)) = leavesAll vs := by
  simp [leaves, hop]

theorem leaves_getOperand (w : String) : leaves (getOperand w) = [getOperand w] := by
  have hdot : ∀ s : String, "." ++ s ∉ operators := by
    intro s hm
    have hops : ∀ o ∈ operators, PyStr.startswith o "." = false := by decide
    have hs : ("." ++ s).toList = '.' :: s.toList := by simp
    have hf := hops _ hm
    rw [PyStr.startswith_char hs (by decide)] at hf
    cases hf
  have hparam : ∀ s : String, ".\"$\"" ++ s ∉ operators := by
    intro s
    have hs : ".\"$\"" ++ s = "." ++ ("\"$\"" ++ s) := by rw [← String.append_assoc]; rfl
    rw [hs]
    exact hdot _
  have hid : "._id" ∉ operators := by decide
  unfold getOperand
  split
  · simp [leaves, hparam]
  split
  · rfl
  split
  · simp [leaves, hid]
  split
  · split
    · rfl
    · split <;> rfl
  split
  · rfl
  split
  · simp [leaves, hdot]
  · rfl

theorem leavesAll_map_getOperand (ws : List String) :
    leavesAll (ws.map getOperand) = ws.map getOperand := by
  induction ws with
  | nil => rfl
  | cons w ws ih => simp [leavesAll, leaves_getOperand, ih]

/-- Not an operator, for the second stack. -/
def plainValue (v : Value) : Bool := (operator? v).isNone

theorem popOperands_eq {n : Nat} {st opd rest : List Value} (h : popOperands n st = .ok (opd, rest)) :
    st = opd ++ rest := by
  induction n generalizing st opd with
  | zero =>
    cases h
    rfl
  | succ n ih =>
    cases st with
    | nil => cases h
    | cons item st =>
      simp only [popOperands] at h
      obtain ⟨⟨opd', rest'⟩, hpop, h⟩ := Loop.bind_eq_ok.mp h
      cases h
      rw [ih hpop]
      rfl

/-- The parts of a round of the second loop. -/
theorem evalToken_cases {st st' : List Value} {t : Value} (h : evalToken st t = .ok st') :
    (operator? t = none ∧ st' = t :: st) ∨
      ∃ op opd rest, t = .str op ∧ op ∈ operators ∧ st' = .list (.str op :: opd) :: rest ∧
        (if op = "IN" then popIn st = .ok (opd, rest) else st = opd ++ rest) := by
  cases hop : operator? t with
  | none =>
    simp only [evalToken, hop] at h
    cases h
    exact .inl ⟨rfl, rfl⟩
  | some op =>
    obtain ⟨rfl, hmem⟩ : t = .str op ∧ op ∈ operators := by
      cases t with
      | str s =>
        simp only [operator?] at hop
        split at hop
        · cases hop
          exact ⟨rfl, by assumption⟩
        · cases hop
      | int n => cases hop
      | list vs => cases hop
    simp only [evalToken, hop] at h
    obtain ⟨text, -, h⟩ := Loop.bind_eq_ok.mp h
    split at h
    · cases h
    split at h
    · rename_i hin
      obtain ⟨⟨opd, rest⟩, hpop, h⟩ := Loop.bind_eq_ok.mp h
      cases h
      exact .inr ⟨op, opd, rest, rfl, hmem, rfl, by rwa [if_pos hin]⟩
    · rename_i hin
      obtain ⟨⟨opd, rest⟩, hpop, h⟩ := Loop.bind_eq_ok.mp h
      cases h
      exact .inr ⟨op, opd, rest, rfl, hmem, rfl, by rw [if_neg hin]; exact popOperands_eq hpop⟩

/-- The operand of an `IN` is a string; its list is what `popList` takes. -/
theorem popIn_cases {st opd rest : List Value} (h : popIn st = .ok (opd, rest)) :
    ∃ s items tail, st = .str s :: tail ∧ popList tail = .ok (items, rest) ∧
      opd = [.str (String.ofList (PyStr.strip s.toList)), .list items] := by
  match st with
  | [] => cases h
  | .int n :: st => cases h
  | .list vs :: st => cases h
  | .str s :: st =>
    obtain ⟨⟨items, rest'⟩, hlist, h⟩ := Loop.bind_eq_ok.mp h
    cases h
    exact ⟨s, items, st, rfl, hlist, rfl⟩

/-- A round of the second loop keeps the operands in their order. -/
theorem evalToken_leaves {st st' : List Value} {t : Value} (h : evalToken st t = .ok st')
    (hin : operator? t ≠ some "IN") :
    leavesAll st' = leavesAll ([t].filter plainValue) ++ leavesAll st := by
  rcases evalToken_cases h with ⟨hop, rfl⟩ | ⟨op, opd, rest, rfl, hmem, rfl, hpop⟩
  · simp [plainValue, hop, leavesAll]
  · have hop : operator? (.str op) = some op := by simp [operator?, hmem]
    have hne : op ≠ "IN" := fun he => hin (he ▸ hop)
    rw [if_neg hne] at hpop
    rw [hpop]
    simp [plainValue, hop, leavesAll, leaves_node hmem, leavesAll_append]

theorem eval_leaves {l st : List Value} (h : l.foldlM evalToken [] = .ok st)
    (hin : ∀ t ∈ l, operator? t ≠ some "IN") :
    leavesAll st = leavesAll (l.filter plainValue).reverse := by
  have hstart : leavesAll [] = leavesAll (([] : List Value).filter plainValue).reverse := rfl
  refine Loop.foldlM_inv (I := fun done st => leavesAll st = leavesAll (done.filter plainValue).reverse)
    (fun done s t s' ht hs hstep => ?_) hstart h
  rw [evalToken_leaves hstep (hin t ht), hs, List.filter_append, List.reverse_append, leavesAll_append]
  congr 2
  cases hp : plainValue t <;> simp [hp]

/-- Operators that may be on the first stack. -/
def Stacked (opstack : List String) : Prop := ∀ s ∈ opstack, s ∈ operators ∧ s ≠ "IN"

theorem popGroup_cases {ops ops' : List String} {res res' : List Value}
    (h : popGroup ops res = .ok (ops', res')) :
    ∃ popped, ops = popped ++ "(" :: ops' ∧ res' = res ++ popped.map .str := by
  induction ops generalizing res with
  | nil => cases h
  | cons op ops ih =>
    rw [popGroup] at h
    split at h
    · obtain ⟨popped, rfl, rfl⟩ := ih h
      exact ⟨op :: popped, rfl, by simp⟩
    · rename_i hop
      cases h
      exact ⟨[], by rw [not_not.mp hop]; rfl, by simp⟩

theorem popTighter_cases {p : Nat} {ops ops' : List String} {res res' : List Value}
    (h : popTighter p ops res = .ok (ops', res')) : ∃ popped, ops = popped ++ ops' ∧ res' = res ++ popped.map .str := by
  induction ops generalizing res with
  | nil => cases h
  | cons op ops ih =>
    rw [popTighter] at h
    obtain ⟨q, -, h⟩ := Loop.bind_eq_ok.mp h
    split at h
    · obtain ⟨popped, rfl, rfl⟩ := ih h
      exact ⟨op :: popped, rfl, by simp⟩
    · cases h
      exact ⟨[], rfl, by simp⟩

/-- The parts of a round of the first loop: an operand is put out, an operator goes on the stack,
or a group ends. -/
theorem shuntToken_cases {t : String} {ops : List String} {res : List Value} {st : List String × List Value}
    (h : shuntToken (ops, res) t = .ok st) :
    (t ∉ operators ∧ st = (ops, res ++ [getOperand t])) ∨
      (t ∈ operators ∧ t ≠ ")" ∧ ∃ popped rest, ops = popped ++ rest ∧ st = (t :: rest, res ++ popped.map .str)) ∨
      t = ")" ∧ ∃ popped rest, ops = popped ++ "(" :: rest ∧ st = (rest, res ++ popped.map .str) := by
  by_cases hmem : t ∉ operators
  · simp only [shuntToken, if_pos hmem] at h
    cases h
    exact .inl ⟨hmem, rfl⟩
  simp only [shuntToken, if_neg hmem] at h
  have hmem : t ∈ operators := not_not.mp hmem
  split at h
  · rename_i hopen
    subst hopen
    cases h
    exact .inr (.inl ⟨hmem, by decide, [], ops, rfl, by simp⟩)
  split at h
  · rename_i hclose
    obtain ⟨rest, res'⟩ := st
    obtain ⟨popped, hops, rfl⟩ := popGroup_cases h
    exact .inr (.inr ⟨hclose, popped, rest, hops, rfl⟩)
  · rename_i hclose
    obtain ⟨p, -, h⟩ := Loop.bind_eq_ok.mp h
    obtain ⟨⟨rest, res'⟩, hpop, h⟩ := Loop.bind_eq_ok.mp h
    obtain ⟨popped, hops, rfl⟩ := popTighter_cases hpop
    cases h
    exact .inr (.inl ⟨hmem, hclose, popped, rest, hops, rfl⟩)

/-- A round of the first loop puts out its operand, or operators. -/
theorem shuntToken_putsOut {st st' : List String × List Value} {t : String}
    (h : shuntToken st t = .ok st') (hst : Stacked st.1) (ht : t ≠ "IN") :
    Stacked st'.1 ∧
      ((t ∉ operators ∧ st'.2 = st.2 ++ [getOperand t]) ∨
        t ∈ operators ∧ ∃ popped : List String, Stacked popped ∧ st'.2 = st.2 ++ popped.map .str) := by
  obtain ⟨ops, res⟩ := st
  rcases shuntToken_cases h with ⟨hmem, rfl⟩ | ⟨hmem, -, popped, rest, rfl, rfl⟩ | ⟨rfl, popped, rest, rfl, rfl⟩
  · exact ⟨hst, .inl ⟨hmem, rfl⟩⟩
  · obtain ⟨hpopped, hrest⟩ := List.forall_mem_append.mp hst
    exact ⟨List.forall_mem_cons.mpr ⟨⟨hmem, ht⟩, hrest⟩, .inr ⟨hmem, popped, hpopped, rfl⟩⟩
  · obtain ⟨hpopped, hrest⟩ := List.forall_mem_append.mp hst
    exact ⟨(List.forall_mem_cons.mp hrest).2, .inr ⟨by decide, popped, hpopped, rfl⟩⟩

/-- The values of the operands among the items. -/
def operandValues (items : List String) : List Value :=
  (items.filter fun w => w ∉ operators).map getOperand

theorem operandValues_append (items items' : List String) :
    operandValues (items ++ items') = operandValues items ++ operandValues items' := by
  simp [operandValues]

theorem plainValue_stacked {popped : List String} (h : Stacked popped) :
    (popped.map Value.str).filter plainValue = [] := by
  rw [List.filter_eq_nil_iff]
  intro v hv
  obtain ⟨s, hs, rfl⟩ := List.mem_map.mp hv
  simp [plainValue, operator?, (h s hs).1]

/-- The list holds the operands of the items in their order, and no `IN`. -/
theorem shunt_operandValues {items : List String} {st : List String × List Value}
    (h : items.foldlM shuntToken ([], []) = .ok st) (hin : "IN" ∉ items)
    (hopd : ∀ w ∈ items, w ∉ operators → operator? (getOperand w) = none) :
    st.2.filter plainValue = operandValues items ∧ ∀ v ∈ st.2, operator? v ≠ some "IN" := by
  have hstart : Stacked ([] : List String) ∧ ([] : List Value).filter plainValue = operandValues [] ∧
      ∀ v ∈ ([] : List Value), operator? v ≠ some "IN" := by
    simp [Stacked, operandValues]
  have hinv := Loop.foldlM_inv (f := shuntToken)
    (I := fun done (st : List String × List Value) => Stacked st.1 ∧
      st.2.filter plainValue = operandValues done ∧ ∀ v ∈ st.2, operator? v ≠ some "IN")
    (fun done s t s' ht hs hstep => ?_) hstart h
  · simpa using hinv.2
  · obtain ⟨hops, hvals, hno⟩ := hs
    have htne : t ≠ "IN" := fun he => hin (he ▸ ht)
    obtain ⟨hops', hcase⟩ := shuntToken_putsOut hstep hops htne
    refine ⟨hops', ?_⟩
    rcases hcase with ⟨hmem, hres⟩ | ⟨hmem, popped, hpop, hres⟩
    · have hnone := hopd t ht hmem
      rw [hres]
      refine ⟨?_, fun v hv => ?_⟩
      · simp [hvals, plainValue, hnone, operandValues, hmem]
      · rcases List.mem_append.mp hv with hv | hv
        · exact hno v hv
        · rw [List.mem_singleton.mp hv, hnone]
          simp
    · rw [hres]
      refine ⟨?_, fun v hv => ?_⟩
      · rw [List.filter_append, plainValue_stacked hpop, hvals]
        simp [operandValues, hmem]
      · rcases List.mem_append.mp hv with hv | hv
        · exact hno v hv
        · obtain ⟨s, hs, rfl⟩ := List.mem_map.mp hv
          simp [operator?, (hpop s hs).1, (hpop s hs).2]

theorem swapParen_mem {w : String} (h : w ∈ operators) (hin : w ≠ "IN") :
    swapParen w ∈ operators ∧ swapParen w ≠ "IN" := by
  unfold swapParen
  split
  · decide
  · split
    · decide
    · exact ⟨h, hin⟩

theorem operandValues_swapParen (items : List String) :
    operandValues (items.map swapParen) = operandValues items := by
  induction items with
  | nil => rfl
  | cons w items ih =>
    have hw : operandValues ([w].map swapParen) = operandValues [w] := by
      by_cases hmem : w ∈ operators
      · by_cases hin : w = "IN"
        · rw [hin]
          rfl
        · simp [operandValues, hmem, (swapParen_mem hmem hin).1]
      · rw [List.map_singleton, swapParen_operand hmem]
    have hcons : w :: items = [w] ++ items := rfl
    rw [hcons, List.map_append, operandValues_append, operandValues_append, hw, ih]

/-- The items as the first loop reads them: from the right, the brackets turned. -/
def turned (items : List String) : List String := ["("] ++ items.reverse.map swapParen ++ [")"]

theorem operandValues_turned (items : List String) :
    operandValues (turned items) = (operandValues items).reverse := by
  have hopen : operandValues ["("] = [] := by decide
  have hclose : operandValues [")"] = [] := by decide
  rw [turned, operandValues_append, operandValues_append, hopen, hclose, operandValues_swapParen,
    List.nil_append, List.append_nil]
  simp [operandValues]

theorem mem_turned {items : List String} (hin : "IN" ∉ items) {w : String} (hw : w ∈ turned items) :
    w ∈ operators ∧ w ≠ "IN" ∨ w ∈ items ∧ w ∉ operators := by
  simp only [turned, List.mem_append, List.mem_singleton, List.mem_map, List.mem_reverse] at hw
  rcases hw with (rfl | ⟨u, hu, rfl⟩) | rfl
  · exact .inl (by decide)
  · by_cases hmem : u ∈ operators
    · exact .inl (swapParen_mem hmem fun he => hin (he ▸ hu))
    · rw [swapParen_operand hmem]
      exact .inr ⟨hu, hmem⟩
  · exact .inl (by decide)

/-- The two loops over the items of a text that compiles. -/
theorem compileWhere_runs {query : String} {v : Value} :
    compileWhere query = .ok v ↔ ∃ st stack,
      (turned (joinWords (wordsOf query))).foldlM shuntToken ([], []) = .ok st ∧
        st.2.foldlM evalToken [] = .ok (v :: stack) := by
  constructor
  · intro h
    obtain ⟨l, hl, heval⟩ := Loop.bind_eq_ok.mp h
    obtain ⟨st, hloop, hl⟩ := Loop.bind_eq_ok.mp hl
    cases hl
    obtain ⟨stack, hstack, hv⟩ := Loop.bind_eq_ok.mp heval
    rw [List.reverse_reverse] at hstack
    cases stack with
    | nil => cases hv
    | cons item stack =>
      cases hv
      exact ⟨st, stack, hloop, hstack⟩
  · rintro ⟨st, stack, hloop, hstack⟩
    refine Loop.bind_eq_ok.mpr ⟨st.2.reverse, Loop.bind_eq_ok.mpr ⟨st, hloop, rfl⟩, ?_⟩
    refine Loop.bind_eq_ok.mpr ⟨v :: stack, ?_, rfl⟩
    rw [List.reverse_reverse]
    exact hstack

/-- The operands of what a text compiles to are an initial part of the operands of
the text. -/
theorem leaves_compile {query : String} {v : Value} (h : compileWhere query = .ok v)
    (hin : "IN" ∉ joinWords (wordsOf query))
    (hopd : ∀ w ∈ joinWords (wordsOf query), w ∉ operators → operator? (getOperand w) = none) :
    leaves v <+: operandValues (joinWords (wordsOf query)) := by
  obtain ⟨st, stack, hloop, hstack⟩ := compileWhere_runs.mp h
  generalize joinWords (wordsOf query) = items at hin hopd hloop
  obtain ⟨hvals, hno⟩ := shunt_operandValues hloop
    (fun hm => by
      rcases mem_turned hin hm with h' | h'
      · exact h'.2 rfl
      · exact hin h'.1)
    (fun w hw hnop => by
      rcases mem_turned hin hw with h' | h'
      · exact absurd h'.1 hnop
      · exact hopd w h'.1 hnop)
  have hleaves := eval_leaves hstack hno
  rw [hvals, operandValues_turned, List.reverse_reverse, operandValues, leavesAll_map_getOperand]
    at hleaves
  exact ⟨leavesAll stack, by rw [operandValues, ← hleaves]; rfl⟩

/-- The operands of a clause are those of its tree. -/
theorem leaves_image (e : Clause) : leaves (Clause.image e) = Clause.operands e := by
  induction e with
  | opd p =>
    have hopd : p.operands = (p.subject.text :: p.rest).map getOperand := rfl
    show leaves (.list (.str p.op :: p.operands)) = p.operands
    rw [leaves_node (Predicate.op_mem p).1, hopd, leavesAll_map_getOperand]
  | paren e ih => exact ih
  | bin j l r ihl ihr =>
    have hj : j.name ∈ operators := by cases j <;> decide
    show leaves (.list [.str j.name, Clause.image l, Clause.image r]) = _
    rw [leaves_node hj, leavesAll, leavesAll, leavesAll, ihl, ihr, List.append_nil]
    rfl

end MobileTestkit.L3.RqgParser
