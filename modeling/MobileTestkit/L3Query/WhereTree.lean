import MobileTestkit.Core.OpPrec
import MobileTestkit.L3Query.RqgParser

/-!
# The tree of a compiled WHERE clause

`prefix_evaluation(get_prefix_list(e))` for expressions of operands, the
two-argument operators and brackets.

* `joinWords_words`: the words of an expression are put together to its tokens.
* `shunt_expr`: the shunting-yard loop over the reversed tokens of a reading.
  Behind it, the operators still on the stack are those of the left spine.
* `eval_post`: the second stack.
* `compileWhere_correct`: the clause compiles to the reading of its tokens by
  the table `prec`.
* `compileWhere_n1ql_iff`: it compiles like its full bracketing by the N1QL
  levels exactly when the two tables agree on the clause (`Agrees`).
-/
namespace MobileTestkit.L3.RqgParser

open MobileTestkit.Core
open MobileTestkit.Core.OpPrec

/-! ## Expressions -/

/-- The operators that take two operands. -/
inductive BinOp where
  | div | mod | eq | ne | lt | le | gt | ge | is | isNot | like | notIn | and | or
  deriving DecidableEq, Repr

namespace BinOp

def name : BinOp → String
  | .div => "/"
  | .mod => "%"
  | .eq => "="
  | .ne => "!="
  | .lt => "<"
  | .le => "<="
  | .gt => ">"
  | .ge => ">="
  | .is => "IS"
  | .isNot => "IS-NOT"
  | .like => "LIKE"
  | .notIn => "NOT-IN"
  | .and => "AND"
  | .or => "OR"

/-- The value in the table. -/
def prec (o : BinOp) : Nat := (RqgParser.prec.lookup o.name).getD 0

theorem get_prec (o : BinOp) : get RqgParser.prec o.name = .ok o.prec := by
  cases o <;> rfl

theorem name_mem (o : BinOp) : o.name ∈ operators ∧ o.name ≠ "(" ∧ o.name ≠ ")" := by
  cases o <;> decide

theorem name_injective {o o' : BinOp} (h : o.name = o'.name) : o = o' := by
  cases o <;> cases o' <;> first | rfl | exact absurd h (by decide)

end BinOp

/-- A word of a clause: no white space and no quotes in it. -/
def IsWord (w : String) : Prop :=
  w ≠ "" ∧ ∀ c ∈ w.toList, PyStr.isspace c = false ∧ c ≠ '"'

instance (w : String) : Decidable (IsWord w) :=
  haveI : Decidable (∀ c ∈ w.toList, PyStr.isspace c = false ∧ c ≠ '"') := List.decidableBAll _ _
  inferInstanceAs (Decidable (w ≠ "" ∧ ∀ c ∈ w.toList, PyStr.isspace c = false ∧ c ≠ '"'))

/-- A plain token, or the words of a quoted literal. -/
inductive Operand where
  | plain (w : String)
  | literal (ws : List String)
  deriving DecidableEq, Repr

namespace Operand

def text : Operand → String
  | .plain w => w
  | .literal ws => "\"" ++ PyStr.join " " ws ++ "\""

/-- The last words of a literal. -/
def closing : String → List String → List String
  | w, [] => [w ++ "\""]
  | w, w' :: ws => w :: closing w' ws

/-- The operand as `split` leaves it. -/
def words : Operand → List String
  | .plain w => [w]
  | .literal [] => ["\"\""]
  | .literal [w] => ["\"" ++ w ++ "\""]
  | .literal (w :: w' :: ws) => ("\"" ++ w) :: closing w' ws

/-- It is made of words. -/
def OfWords : Operand → Prop
  | .plain w => IsWord w
  | .literal ws => ∀ w ∈ ws, IsWord w

/-- No operator, and nothing the second stack would take for one. -/
def Valid : Operand → Prop
  | .plain w => IsWord w ∧ w ∉ operators ∧ operator? (getOperand w) = none
  | .literal ws => (∀ w ∈ ws, IsWord w) ∧ operator? (getOperand (text (.literal ws))) = none

instance (o : Operand) : Decidable o.Valid := by
  cases o with
  | plain w => exact inferInstanceAs (Decidable (IsWord w ∧ w ∉ operators ∧ _ = _))
  | literal ws => exact inferInstanceAs (Decidable ((∀ w ∈ ws, IsWord w) ∧ _ = _))

theorem Valid.ofWords {o : Operand} (h : o.Valid) : o.OfWords := by
  cases o with
  | plain w => exact h.1
  | literal ws => exact h.1

end Operand

abbrev Where := Expr Operand BinOp

def tokText : Tok Operand BinOp → String
  | .opd a => a.text
  | .op o => o.name
  | .lpar => "("
  | .rpar => ")"

def tokWords : Tok Operand BinOp → List String
  | .opd a => a.words
  | .op o => [o.name]
  | .lpar => ["("]
  | .rpar => [")"]

/-- The words of a clause. -/
def wordsIn (e : Where) : List String := e.tokens.flatMap tokWords

/-- The nested lists of a tree. -/
def image : Where → Value
  | .opd a => getOperand a.text
  | .paren e => image e
  | .bin o l r => .list [.str o.name, image l, image r]

/-! ## Joining the words of literals -/

theorem startswith_quote_false {w : String} (h : '"' ∉ w.toList) :
    PyStr.startswith w "\"" = false := by
  refine Bool.eq_false_iff.mpr fun hp => h ?_
  exact (List.isPrefixOf_iff_prefix.mp hp).subset (by decide)

theorem endswith_quote_false {w : String} (h : '"' ∉ w.toList) : PyStr.endswith w "\"" = false := by
  refine Bool.eq_false_iff.mpr fun hp => h ?_
  exact (List.isSuffixOf_iff_suffix.mp hp).subset (by decide)

theorem IsWord.no_quote {w : String} (h : IsWord w) : '"' ∉ w.toList :=
  fun hm => (h.2 _ hm).2 rfl

theorem IsWord.toList_ne_nil {w : String} (h : IsWord w) : w.toList ≠ [] := by
  intro he
  exact h.1 (String.toList_inj.mp he)

/-- The first word of a literal has its quote in front only. -/
theorem opening_quotes {w : String} (h : IsWord w) :
    PyStr.startswith ("\"" ++ w) "\"" = true ∧ PyStr.endswith ("\"" ++ w) "\"" = false := by
  constructor
  · have hs : ("\"" ++ w).toList = '"' :: w.toList := by simp
    exact PyStr.startswith_char hs (by decide)
  · refine Bool.eq_false_iff.mpr fun hp => h.no_quote ?_
    obtain ⟨pre, hs⟩ := List.isSuffixOf_iff_suffix.mp hp
    have hs : pre ++ ['"'] = '"' :: w.toList := by simpa using hs
    cases pre with
    | nil =>
      have he : w.toList = [] := ((List.cons.inj hs).2).symm
      exact absurd he h.toList_ne_nil
    | cons c pre =>
      rw [← (List.cons.inj hs).2]
      simp

/-- The last word of a literal has its quote behind only. -/
theorem closing_quotes {w : String} (h : IsWord w) :
    PyStr.startswith (w ++ "\"") "\"" = false ∧ PyStr.endswith (w ++ "\"") "\"" = true := by
  constructor
  · obtain ⟨c, cs, hc⟩ := List.exists_cons_of_ne_nil h.toList_ne_nil
    have hne : '"' ≠ c := fun he => h.no_quote (by rw [hc, he]; exact List.mem_cons_self)
    have hs : (w ++ "\"").toList = c :: (cs ++ ['"']) := by simp [hc]
    have hp : "\"".toList = ['"'] := by decide
    exact PyStr.startswith_cons hs hp hne
  · refine List.isSuffixOf_iff_suffix.mpr ⟨w.toList, ?_⟩
    simp

theorem joinWord_plain (items : List String) {w : String} (h : '"' ∉ w.toList) :
    joinWord (items, "") w = (items ++ [w], "") := by
  simp [joinWord, startswith_quote_false h, endswith_quote_false h]

theorem ne_empty_of_startswith {s : String} (h : PyStr.startswith s "\"" = true) : s ≠ "" := by
  rintro rfl
  exact absurd h (by decide)

/-- The rest of a literal goes to `split_word` up to the closing quote. -/
theorem joinWord_closing (items : List String) (acc w : String) (ws : List String)
    (hacc : acc ≠ "") (hw : ∀ v ∈ w :: ws, IsWord v) :
    (Operand.closing w ws).foldl joinWord (items, acc) =
      (items ++ [acc ++ " " ++ PyStr.join " " (w :: ws) ++ "\""], "") := by
  induction ws generalizing w acc with
  | nil =>
    obtain ⟨h1, h2⟩ := closing_quotes (hw w (by simp))
    simp [Operand.closing, joinWord, h1, h2, PyStr.join, String.append_assoc]
  | cons w' ws ih =>
    have hq := (hw w (by simp)).no_quote
    have hstep : joinWord (items, acc) w = (items, acc ++ " " ++ w) := by
      simp [joinWord, startswith_quote_false hq, endswith_quote_false hq, hacc]
    have hne : acc ++ " " ++ w ≠ "" := by
      intro he
      have := congrArg String.toList he
      simp at this
    rw [Operand.closing, List.foldl_cons, hstep, ih _ w' hne fun v hv => hw v (by simp_all)]
    simp [PyStr.join, String.append_assoc]

theorem joinWord_operand (items : List String) {o : Operand} (ho : o.OfWords) :
    o.words.foldl joinWord (items, "") = (items ++ [o.text], "") := by
  cases o with
  | plain w => exact joinWord_plain items (IsWord.no_quote ho)
  | literal ws =>
    match ws, ho with
    | [], _ => rfl
    | [w], hw =>
      have hs : ("\"" ++ w ++ "\"").toList = '"' :: (w.toList ++ ['"']) := by simp
      have h1 : PyStr.startswith ("\"" ++ w ++ "\"") "\"" = true :=
        PyStr.startswith_char hs (by decide)
      have h2 : PyStr.endswith ("\"" ++ w ++ "\"") "\"" = true :=
        List.isSuffixOf_iff_suffix.mpr ⟨'"' :: w.toList, by simp⟩
      simp [Operand.words, Operand.text, joinWord, h1, h2, PyStr.join]
    | w :: w' :: ws, hw =>
      obtain ⟨h1, h2⟩ := opening_quotes (hw w (by simp))
      have hstep : joinWord (items, "") ("\"" ++ w) = (items, "\"" ++ w) := by
        simp [joinWord, h1, h2]
      rw [Operand.words, List.foldl_cons, hstep,
        joinWord_closing items _ w' ws (ne_empty_of_startswith h1) fun v hv => hw v (by simp_all)]
      simp [Operand.text, PyStr.join, String.append_assoc]

theorem joinWord_tok (items : List String) {t : Tok Operand BinOp}
    (ht : ∀ a, t = .opd a → a.Valid) :
    (tokWords t).foldl joinWord (items, "") = (items ++ [tokText t], "") := by
  cases t with
  | opd a => exact joinWord_operand items (ht a rfl).ofWords
  | op o => exact joinWord_plain items (by cases o <;> decide)
  | lpar => exact joinWord_plain items (w := "(") (by decide)
  | rpar => exact joinWord_plain items (w := ")") (by decide)

theorem joinWords_words {e : Where} (he : e.AllOpds Operand.Valid) :
    joinWords (wordsIn e) = e.tokens.map tokText := by
  have key : ∀ (ts : List (Tok Operand BinOp)) (items : List String),
      (∀ a, .opd a ∈ ts → a.Valid) →
      (ts.flatMap tokWords).foldl joinWord (items, "") = (items ++ ts.map tokText, "") := by
    intro ts
    induction ts with
    | nil => simp
    | cons t ts ih =>
      intro items h
      rw [List.flatMap_cons, List.foldl_append, joinWord_tok items fun a ha => h a (by simp [ha]),
        ih _ fun a ha => h a (List.mem_cons_of_mem _ ha)]
      simp
  unfold joinWords wordsIn
  rw [key e.tokens [] ((Expr.allOpds_iff e).mp he)]
  rfl

/-! ## The shunting-yard loop -/

/-- The output of a whole tree. -/
def post : Where → List Value
  | .opd a => [getOperand a.text]
  | .paren e => post e
  | .bin o l r => post r ++ post l ++ [.str o.name]

/-- What is put out while a tree is read, from its right end. -/
def out : Where → List Value
  | .opd a => [getOperand a.text]
  | .paren e => post e
  | .bin _ l r => post r ++ out l

/-- The operators left on the stack then: the left spine. -/
def pend : Where → List String
  | .bin o l _ => pend l ++ [o.name]
  | _ => []

theorem post_eq (e : Where) : post e = out e ++ (pend e).map .str := by
  induction e with
  | opd a => rfl
  | paren e ih => simp [post, out, pend]
  | bin o l r ihl ihr => simp [post, out, pend, ihl]

/-- On the left spine of a reading the root binds the loosest. -/
theorem pend_prec {e : Where} (he : e.Disciplined BinOp.prec) :
    ∀ s ∈ pend e, ∃ o root, s = BinOp.name o ∧ e.root? = some root ∧ o.prec ≤ root.prec := by
  induction e with
  | opd a => simp [pend]
  | paren e ih => simp [pend]
  | bin o l r ihl ihr =>
    intro s hs
    rcases List.mem_append.mp hs with hs | hs
    · obtain ⟨o', root, rfl, hroot, hle⟩ := ihl he.1 s hs
      exact ⟨o', o, rfl, rfl, Nat.le_trans hle (he.2.2.1 root hroot)⟩
    · exact ⟨o, o, List.mem_singleton.mp hs, rfl, Nat.le_refl _⟩

theorem popTighter_pend {p q : Nat} (xs : List String) {top : String} {st : List String}
    (result : List Value) (hxs : ∀ s ∈ xs, ∃ q', get prec s = .ok q' ∧ q' < p)
    (htop : get prec top = .ok q) (hq : p ≤ q) :
    popTighter p (xs ++ top :: st) result = .ok (top :: st, result ++ xs.map .str) := by
  induction xs generalizing result with
  | nil =>
    have hno : ¬ p > q := by omega
    simp only [List.nil_append, popTighter, htop, List.map_nil, List.append_nil]
    show (if p > q then _ else _) = _
    rw [if_neg hno]
    rfl
  | cons s xs ih =>
    obtain ⟨q', hs, hlt⟩ := hxs s List.mem_cons_self
    simp only [List.cons_append, popTighter, hs]
    show (if p > q' then _ else _) = _
    rw [if_pos hlt, ih _ fun s hs => hxs s (List.mem_cons_of_mem _ hs)]
    simp

theorem popGroup_pend (xs : List String) {st : List String} (result : List Value)
    (hxs : ∀ s ∈ xs, s ≠ "(") :
    popGroup (xs ++ "(" :: st) result = .ok (st, result ++ xs.map .str) := by
  induction xs generalizing result with
  | nil => simp [popGroup]
  | cons s xs ih =>
    have hs := hxs s List.mem_cons_self
    rw [List.cons_append, popGroup, if_pos hs, ih _ fun s hs => hxs s (List.mem_cons_of_mem _ hs)]
    simp

/-- A token as the loop sees it, its bracket turned. -/
def flipped (t : Tok Operand BinOp) : String := swapParen (tokText t)

theorem literal_not_operator (ws : List String) : (Operand.literal ws).text ∉ operators := by
  intro hm
  have hquote : ∀ s ∈ operators, PyStr.startswith s "\"" = false := by decide
  have hs : (Operand.text (.literal ws)).toList = '"' :: ((PyStr.join " " ws).toList ++ ['"']) := by
    simp [Operand.text]
  have hq := hquote _ hm
  rw [PyStr.startswith_char hs (by decide)] at hq
  cases hq

theorem operand_not_operator {a : Operand} (ha : a.Valid) : a.text ∉ operators := by
  cases a with
  | plain w => exact ha.2.1
  | literal ws => exact literal_not_operator ws

theorem flipped_opd {a : Operand} (ha : a.Valid) : flipped (.opd a) = a.text := by
  have hno := operand_not_operator ha
  have h1 : a.text ≠ "(" := fun he => hno (he ▸ by decide)
  have h2 : a.text ≠ ")" := fun he => hno (he ▸ by decide)
  simp [flipped, tokText, swapParen, h1, h2]

theorem flipped_op (o : BinOp) : flipped (.op o) = o.name := by
  cases o <;> rfl

theorem shuntToken_opd {a : Operand} (ha : a.Valid) (st : List String) (result : List Value) :
    shuntToken (st, result) (flipped (.opd a)) = .ok (st, result ++ [getOperand a.text]) := by
  rw [flipped_opd ha]
  simp only [shuntToken, if_pos (operand_not_operator ha)]
  rfl

theorem shuntToken_op {o : BinOp} {xs st st' : List String} {result result' : List Value}
    (h : popTighter o.prec xs result = .ok (st, result')) (hst : st' = o.name :: st) :
    shuntToken (xs, result) (flipped (.op o)) = .ok (st', result') := by
  obtain ⟨hmem, hl, hr⟩ := o.name_mem
  rw [flipped_op, hst]
  simp only [shuntToken, if_neg (not_not_intro hmem), if_neg hl, if_neg hr, o.get_prec]
  show (popTighter o.prec xs result >>= _) = _
  rw [h]
  rfl

/-- The loop over a reading, from its right end, on a stack whose top binds no
tighter than the root: the output of the tree, and its left spine on the stack.
Induction on the tree; the right operand is read first. -/
theorem shunt_expr {e : Where} (hv : e.AllOpds Operand.Valid) (hd : e.Disciplined BinOp.prec)
    {top : String} {q : Nat} (htop : get prec top = .ok q) (hq : ∀ o ∈ e.root?, o.prec ≤ q)
    (st : List String) (result : List Value) :
    (e.tokens.reverse.map flipped).foldlM shuntToken (top :: st, result) =
      .ok (pend e ++ top :: st, result ++ out e) := by
  induction e generalizing top q st result with
  | opd a =>
    simp only [Expr.tokens, List.reverse_singleton, List.map_cons, List.map_nil, List.foldlM_cons,
      List.foldlM_nil]
    rw [shuntToken_opd hv]
    rfl
  | paren e ih =>
    have hd : e.Disciplined BinOp.prec := hd
    have hopen : flipped .rpar = "(" := rfl
    have hclose : flipped .lpar = ")" := rfl
    have hroot : ∀ o ∈ e.root?, o.prec ≤ 3 := by
      intro o _
      cases o <;> decide
    have hpend : ∀ s ∈ pend e, s ≠ "(" := by
      intro s hs
      obtain ⟨o, -, rfl, -⟩ := pend_prec hd s hs
      exact o.name_mem.2.1
    have hparen : get prec "(" = .ok 3 := rfl
    have hin := ih hv hd hparen hroot (top :: st) result
    have hlist : (e.paren.tokens.reverse.map flipped) =
        "(" :: (e.tokens.reverse.map flipped ++ [")"]) := by
      simp [Expr.tokens, hopen, hclose]
    rw [hlist, List.foldlM_cons]
    show (List.foldlM shuntToken ("(" :: top :: st, result) (e.tokens.reverse.map flipped ++ [")"])) = _
    rw [List.foldlM_append, hin]
    show (popGroup (pend e ++ "(" :: top :: st) (result ++ out e) >>= _) = _
    rw [popGroup_pend (pend e) _ hpend]
    show Except.ok (_, _) = _
    rw [out, post_eq e, List.append_assoc]
    rfl
  | bin o l r ihl ihr =>
    obtain ⟨hdl, hdr, hle, hlt⟩ := hd
    have ho : o.prec ≤ q := hq o rfl
    have hrq : ∀ o' ∈ r.root?, o'.prec ≤ q := fun o' ho' => by
      have := hlt o' ho'
      omega
    have hpop : popTighter o.prec (pend r ++ top :: st) (result ++ out r) =
        .ok (top :: st, result ++ out r ++ (pend r).map .str) := by
      refine popTighter_pend (pend r) _ (fun s hs => ?_) htop ho
      obtain ⟨o', root, rfl, hroot, hle'⟩ := pend_prec hdr s hs
      have := hlt root hroot
      exact ⟨o'.prec, o'.get_prec, by omega⟩
    have hlist : ((Expr.bin o l r).tokens.reverse.map flipped) =
        r.tokens.reverse.map flipped ++ flipped (.op o) :: l.tokens.reverse.map flipped := by
      simp [Expr.tokens]
    rw [hlist, List.foldlM_append, ihr hv.2 hdr htop hrq]
    show ((flipped (.op o) :: l.tokens.reverse.map flipped).foldlM shuntToken
      (pend r ++ top :: st, result ++ out r)) = _
    rw [List.foldlM_cons, shuntToken_op hpop rfl]
    show (l.tokens.reverse.map flipped).foldlM shuntToken _ = _
    rw [ihl hv.1 hdl o.get_prec hle]
    simp [pend, out, post_eq r]

theorem getPrefixList_reading {e t : Where} (hv : e.AllOpds Operand.Valid)
    (ht : t.tokens = e.tokens) (hd : t.Disciplined BinOp.prec) {query : String}
    (hq : wordsOf query = wordsIn e) : getPrefixList query = .ok (post t).reverse := by
  have hvt : t.AllOpds Operand.Valid := by
    rw [Expr.allOpds_iff, ht, ← Expr.allOpds_iff]
    exact hv
  have hparen : get prec "(" = .ok 3 := rfl
  have hroot : ∀ o ∈ t.root?, o.prec ≤ 3 := by
    intro o _
    cases o <;> decide
  have hpend : ∀ s ∈ pend t, s ≠ "(" := by
    intro s hs
    obtain ⟨o, -, rfl, -⟩ := pend_prec hd s hs
    exact o.name_mem.2.1
  have hitems : (joinWords (wordsOf query)).reverse.map swapParen = t.tokens.reverse.map flipped := by
    rw [hq, joinWords_words hv, ht, ← List.map_reverse, List.map_map]
    rfl
  have hloop : (["("] ++ t.tokens.reverse.map flipped ++ [")"]).foldlM shuntToken ([], []) =
      .ok ([], post t) := by
    rw [List.foldlM_append, List.foldlM_append]
    show ((t.tokens.reverse.map flipped).foldlM shuntToken (["("], []) >>= _) = _
    rw [shunt_expr hvt hd hparen hroot]
    show (popGroup (pend t ++ ["("]) ([] ++ out t) >>= _) = _
    rw [popGroup_pend (pend t) _ hpend, post_eq t]
    rfl
  unfold getPrefixList
  simp only [hitems, hloop]
  rfl

/-! ## The second stack -/

theorem evalToken_opd {a : Operand} (ha : a.Valid) (st : List Value) :
    evalToken st (getOperand a.text) = .ok (getOperand a.text :: st) := by
  have hno : operator? (getOperand a.text) = none := by
    cases a with
    | plain w => exact ha.2.2
    | literal ws => exact ha.2
  simp only [evalToken, hno]
  rfl

theorem evalToken_op (o : BinOp) (l r : Value) (st : List Value) :
    evalToken (l :: r :: st) (.str o.name) = .ok (.list [.str o.name, l, r] :: st) := by
  cases o <;> rfl

/-- The output of a tree leaves its image. -/
theorem eval_post {e : Where} (hv : e.AllOpds Operand.Valid) (st : List Value) :
    (post e).foldlM evalToken st = .ok (image e :: st) := by
  induction e generalizing st with
  | opd a =>
    simp only [post, List.foldlM_cons, List.foldlM_nil]
    rw [evalToken_opd hv]
    rfl
  | paren e ih => exact ih hv st
  | bin o l r ihl ihr =>
    rw [post, List.foldlM_append, List.foldlM_append, ihr hv.2]
    show (((post l).foldlM evalToken (image r :: st)) >>= _) = _
    rw [ihl hv.1]
    show ([Value.str o.name].foldlM evalToken (image l :: image r :: st)) = _
    rw [List.foldlM_cons, evalToken_op]
    rfl

/-- A clause compiles to each reading of its tokens. -/
theorem compileWhere_reading {e t : Where} (hv : e.AllOpds Operand.Valid)
    (ht : t.tokens = e.tokens) (hd : t.Disciplined BinOp.prec) {query : String}
    (hq : wordsOf query = wordsIn e) : compileWhere query = .ok (image t) := by
  have hvt : t.AllOpds Operand.Valid := by
    rw [Expr.allOpds_iff, ht, ← Expr.allOpds_iff]
    exact hv
  unfold compileWhere
  rw [getPrefixList_reading hv ht hd hq]
  show prefixEvaluation (post t).reverse = _
  unfold prefixEvaluation
  rw [List.reverse_reverse, eval_post hvt]
  rfl

/-- The clause has a reading by the table, and compiles to it. -/
theorem compileWhere_correct (e : Where) (hv : e.AllOpds Operand.Valid) (query : String)
    (hb : betweenMatch query.toList = none) (hq : PyStr.splitWs query = wordsIn e) :
    (∃ t : Where, t.tokens = e.tokens ∧ t.Disciplined BinOp.prec) ∧
      ∀ t : Where, t.tokens = e.tokens → t.Disciplined BinOp.prec →
        compileWhere query = .ok (image t) := by
  have hwords : wordsOf query = wordsIn e := by
    unfold wordsOf betweenSub
    rw [hb]
    exact hq
  exact ⟨⟨e.reading BinOp.prec, Expr.reading_tokens _ e, Expr.reading_disciplined _ e⟩,
    fun t ht hd => compileWhere_reading hv ht hd hwords⟩

/-- `type = "hotel" AND ( country = "United States" OR country = "France" )` -/
def hotels : Where :=
  .bin .and (.bin .eq (.opd (.plain "type")) (.opd (.literal ["hotel"])))
    (.paren (.bin .or (.bin .eq (.opd (.plain "country")) (.opd (.literal ["United", "States"])))
      (.bin .eq (.opd (.plain "country")) (.opd (.literal ["France"])))))

theorem compileWhere_hotels :
    compileWhere "type = \"hotel\" AND ( country = \"United States\" OR country = \"France\" )" =
      .ok (.list [.str "AND",
        .list [.str "=", .list [.str ".type"], .str "hotel"],
        .list [.str "OR",
          .list [.str "=", .list [.str ".country"], .str "United States"],
          .list [.str "=", .list [.str ".country"], .str "France"]]]) :=
  (compileWhere_correct hotels (by decide) _ (by decide) (by decide)).2 hotels rfl (by decide)

/-! ## N1QL levels -/

/-- The operators of the language's levels: arithmetic, comparison and `LIKE`,
`AND`, `OR`. -/
def BinOp.N1ql (o : BinOp) : Prop := o ≠ .is ∧ o ≠ .isNot ∧ o ≠ .notIn

instance (o : BinOp) : Decidable o.N1ql := inferInstanceAs (Decidable (_ ∧ _ ∧ _))

def BinOp.arithmetic (o : BinOp) : Bool := o = .div || o = .mod

def BinOp.comparison (o : BinOp) : Bool :=
  o = .eq || o = .ne || o = .lt || o = .le || o = .gt || o = .ge

/-- The N1QL level of an operator; a lower one binds tighter. -/
def BinOp.level (o : BinOp) : Nat :=
  if o.arithmetic then 0 else if o = .and then 2 else if o = .or then 3 else 1

/-- In the tree no comparison has an arithmetic right operand or a `LIKE` as its
left one, and no `OR` has an `AND` as its right operand, outside brackets. -/
def Agrees : Where → Prop
  | .opd _ => True
  | .paren e => Agrees e
  | .bin o l r => Agrees l ∧ Agrees r ∧
    (o.comparison → (∀ a ∈ r.root?, a.arithmetic = false) ∧ l.root? ≠ some .like) ∧
    (o = .or → r.root? ≠ some .and)

/-- Where two operators stand in N1QL order to the left, in the table they do not
only for a `LIKE` before a comparison. -/
theorem prec_le_iff {o o' : BinOp} (ho : o.N1ql) (ho' : o'.N1ql) (h : o'.level ≤ o.level) :
    o'.prec ≤ o.prec ↔ ¬ (o.comparison ∧ o' = .like) := by
  revert ho ho' h
  cases o <;> cases o' <;> decide

theorem prec_lt_iff {o o' : BinOp} (ho : o.N1ql) (ho' : o'.N1ql) (h : o'.level < o.level) :
    o'.prec < o.prec ↔ ¬ (o.comparison ∧ o'.arithmetic) ∧ ¬ (o = .or ∧ o' = .and) := by
  revert ho ho' h
  cases o <;> cases o' <;> decide

theorem root_of_allOps {P : BinOp → Prop} {e : Where} (h : e.AllOps P) : ∀ o ∈ e.root?, P o := by
  cases e with
  | opd a => simp [Expr.root?]
  | paren e => simp [Expr.root?]
  | bin o l r =>
    intro o' ho
    rw [← Option.some.inj ho]
    exact h.1

/-- The reading by the levels is a reading by the table where the two agree. -/
theorem disciplined_iff_agrees {n : Where} (hops : n.AllOps BinOp.N1ql)
    (hn : n.Disciplined BinOp.level) : n.Disciplined BinOp.prec ↔ Agrees n := by
  induction n with
  | opd a => exact Iff.rfl
  | paren e ih => exact ih hops hn
  | bin o l r ihl ihr =>
    obtain ⟨hol, hopl, hopr⟩ := hops
    obtain ⟨hl, hr, hle, hlt⟩ := hn
    have hrl := root_of_allOps hopl
    have hrr := root_of_allOps hopr
    have hleft : (∀ o' ∈ l.root?, o'.prec ≤ o.prec) ↔ (o.comparison → l.root? ≠ some .like) := by
      constructor
      · intro h hc hroot
        exact (prec_le_iff hol (hrl _ hroot) (hle _ hroot)).mp (h _ hroot) ⟨hc, rfl⟩
      · intro h o' ho'
        exact (prec_le_iff hol (hrl o' ho') (hle o' ho')).mpr fun hc => h hc.1 (hc.2 ▸ ho')
    have hright : (∀ o' ∈ r.root?, o'.prec < o.prec) ↔
        (o.comparison → ∀ a ∈ r.root?, a.arithmetic = false) ∧ (o = .or → r.root? ≠ some .and) := by
      constructor
      · intro h
        refine ⟨fun hc a ha => ?_, fun hor hroot => ?_⟩
        · have hno := ((prec_lt_iff hol (hrr a ha) (hlt a ha)).mp (h a ha)).1
          exact Bool.eq_false_iff.mpr fun harith => hno ⟨hc, harith⟩
        · exact ((prec_lt_iff hol (hrr _ hroot) (hlt _ hroot)).mp (h _ hroot)).2 ⟨hor, rfl⟩
      · intro h o' ho'
        refine (prec_lt_iff hol (hrr o' ho') (hlt o' ho')).mpr ⟨fun hc => ?_, fun hc => ?_⟩
        · exact absurd hc.2 (by simp [h.1 hc.1 o' ho'])
        · exact h.2 hc.1 (hc.2 ▸ ho')
    simp only [Expr.Disciplined, Agrees, ihl hopl hl, ihr hopr hr, hleft, hright]
    constructor
    · rintro ⟨al, ar, h1, h2, h3⟩
      exact ⟨al, ar, fun hc => ⟨h2 hc, h1 hc⟩, h3⟩
    · rintro ⟨al, ar, h1, h3⟩
      exact ⟨al, ar, fun hc => (h1 hc).2, fun hc => (h1 hc).1, h3⟩

theorem image_bracketed (e : Where) : image e.bracketed = image e := by
  induction e with
  | opd a => rfl
  | paren e ih => exact ih
  | bin o l r ihl ihr => simp [Expr.bracketed, image, ihl, ihr]

/-- No operand looks like a compiled operator. -/
theorem getOperand_ne_list (w : String) (a b c : Value) : getOperand w ≠ .list [a, b, c] := by
  unfold getOperand
  split
  · simp
  split
  · simp
  split
  · simp
  split
  · split
    · simp
    split <;> simp
  split
  · simp
  split <;> simp

theorem shape_eq_of_image_eq {e e' : Where} (h : image e = image e') : e.shape = e'.shape := by
  induction e generalizing e' with
  | paren e ih => exact ih h
  | opd a =>
    induction e' with
    | opd b => rfl
    | paren e' ih => exact ih h
    | bin o l r => exact absurd h (getOperand_ne_list _ _ _ _)
  | bin o l r ihl ihr =>
    induction e' with
    | opd b => exact absurd h.symm (getOperand_ne_list _ _ _ _)
    | paren e' ih => exact ih h
    | bin o' l' r' =>
      simp only [image, Value.list.injEq, List.cons.injEq, Value.str.injEq, and_true] at h
      obtain ⟨ho, hl, hr⟩ := h
      rw [Expr.shape, Expr.shape, BinOp.name_injective ho, ihl hl, ihr hr]

/-- The clause compiles like its full bracketing by the N1QL levels where the
levels and the table agree on it, and only there. -/
theorem compileWhere_n1ql_iff (e : Where) (hv : e.AllOpds Operand.Valid) (hops : e.AllOps BinOp.N1ql)
    (n : Where) (ht : n.tokens = e.tokens) (hn : n.Disciplined BinOp.level) (query query' : String)
    (hq : wordsOf query = wordsIn e) (hq' : wordsOf query' = wordsIn n.bracketed) :
    compileWhere query = compileWhere query' ↔ Agrees n := by
  have hopsn : n.AllOps BinOp.N1ql := by
    rw [Expr.allOps_iff, ht, ← Expr.allOps_iff]
    exact hops
  have hvb : n.bracketed.AllOpds Operand.Valid := by
    have hvn : n.AllOpds Operand.Valid := by
      rw [Expr.allOpds_iff, ht, ← Expr.allOpds_iff]
      exact hv
    exact Expr.allOpds_bracketed n hvn
  have hfull : compileWhere query' = .ok (image n) := by
    rw [compileWhere_reading hvb rfl (Expr.bracketed_disciplined _ n) hq', image_bracketed]
  rw [hfull, ← disciplined_iff_agrees hopsn hn]
  constructor
  · intro h
    have hc := compileWhere_reading hv (Expr.reading_tokens BinOp.prec e)
      (Expr.reading_disciplined BinOp.prec e) hq
    have himg : image (e.reading BinOp.prec) = image n := Except.ok.inj (hc.symm.trans h)
    have hsame : e.reading BinOp.prec = n := Expr.eq_of_tokens_of_shape
      ((Expr.reading_tokens BinOp.prec e).trans ht.symm) (shape_eq_of_image_eq himg)
    rw [← hsame]
    exact Expr.reading_disciplined BinOp.prec e
  · exact fun hd => compileWhere_reading hv ht hd hq

/-- `id = 24 AND b` -/
def idAnd : Where :=
  .bin .and (.bin .eq (.opd (.plain "id")) (.opd (.plain "24"))) (.opd (.plain "b"))

theorem compileWhere_n1ql_idAnd :
    compileWhere "id = 24 AND b" = compileWhere "( ( id = 24 ) AND b )" :=
  (compileWhere_n1ql_iff idAnd (by decide) (by simp [idAnd, Expr.AllOps, BinOp.N1ql]) idAnd rfl
    (by decide) _ _ (by decide) (by decide)).mpr (by simp [idAnd, Agrees, Expr.root?])

/-- `a OR b AND c`, as N1QL reads it. -/
def orAnd : Where :=
  .bin .or (.opd (.plain "a")) (.bin .and (.opd (.plain "b")) (.opd (.plain "c")))

/-- The table has `AND` and `OR` on one level, so the first operator is the inner
one. -/
theorem orAnd_not_n1ql :
    orAnd.Disciplined BinOp.level ∧ wordsOf "a OR b AND c" = wordsIn orAnd ∧
      wordsOf "( a OR ( b AND c ) )" = wordsIn orAnd.bracketed ∧
      compileWhere "a OR b AND c" = .ok (.list [.str "AND",
        .list [.str "OR", .list [.str ".a"], .list [.str ".b"]], .list [.str ".c"]]) ∧
      compileWhere "( a OR ( b AND c ) )" = .ok (.list [.str "OR",
        .list [.str ".a"], .list [.str "AND", .list [.str ".b"], .list [.str ".c"]]]) ∧
      compileWhere "a OR b AND c" ≠ compileWhere "( a OR ( b AND c ) )" := by
  have hq : wordsOf "a OR b AND c" = wordsIn orAnd := by decide
  have hq' : wordsOf "( a OR ( b AND c ) )" = wordsIn orAnd.bracketed := by decide
  have h1 := compileWhere_reading (t := .bin .and
    (.bin .or (.opd (.plain "a")) (.opd (.plain "b"))) (.opd (.plain "c")))
    (by decide : orAnd.AllOpds Operand.Valid) rfl (by decide) hq
  have h2 := compileWhere_reading (by decide : orAnd.bracketed.AllOpds Operand.Valid) rfl
    (by decide) hq'
  refine ⟨by decide, hq, hq', h1, h2, ?_⟩
  rw [h1, h2]
  intro h
  simp [image, orAnd, Expr.bracketed, BinOp.name] at h

end MobileTestkit.L3.RqgParser
