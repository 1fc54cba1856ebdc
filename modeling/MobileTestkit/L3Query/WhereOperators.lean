import Mathlib.Data.List.Perm.Basic
import MobileTestkit.L3Query.PhrasePredicates

/-!
# All operators of the table

WHERE expressions over the whole tuple `operators`: operators between two operands, in
front of one and behind one, `IN` and `NOT-IN` with a list, and brackets; and the condition
under which `prefix_evaluation(get_prefix_list(e))` makes one tree of them (`Handled`),
read from the right as `get_prefix_list` does.

* `joinWords_items`: the words of an expression are put together to its items.
* `Reading`, `reading_tokens`: its tokens from the right.
* `Lone.run_eq`: brackets around an operand by itself leave no trace on the stacks.
-/
namespace MobileTestkit.L3.WhereOperators

open MobileTestkit.Core
open MobileTestkit.L3.RqgParser

/-! ## Expressions -/

/-- The operators between two operands. -/
inductive MidOp where
  | plus | minus | times
  | bin (o : BinOp)
  deriving DecidableEq, Repr

def MidOp.name : MidOp → String
  | .plus => "+"
  | .minus => "-"
  | .times => "*"
  | .bin o => o.name

/-- The value in the table. -/
def MidOp.prec (o : MidOp) : Nat := (RqgParser.prec.lookup o.name).getD 0

/-- The operators in front of one operand. -/
inductive PreOp where
  | not | exist
  deriving DecidableEq, Repr

def PreOp.name : PreOp → String
  | .not => "NOT"
  | .exist => "EXIST"

/-- The operators in front of a list. -/
inductive ListOp where
  | isIn | notIn
  deriving DecidableEq, Repr

def ListOp.name : ListOp → String
  | .isIn => "IN"
  | .notIn => "NOT-IN"

/-- A token; a list belongs to its operator. -/
inductive WhereTok where
  | opd (a : Operand)
  | mid (o : MidOp)
  | pre (o : PreOp)
  | post (o : PostOp)
  | inList (o : ListOp) (items : List Operand)
  | lpar
  | rpar
  deriving DecidableEq, Repr

inductive WhereExpr where
  | opd (a : Operand)
  | paren (e : WhereExpr)
  | mid (o : MidOp) (l r : WhereExpr)
  | pre (o : PreOp) (e : WhereExpr)
  | post (o : PostOp) (e : WhereExpr)
  | inList (o : ListOp) (e : WhereExpr) (items : List Operand)

namespace WhereTok

/-- The items `get_prefix_list` makes of a token. -/
def items : WhereTok → List String
  | .opd a => [a.text]
  | .mid o => [o.name]
  | .pre o => [o.name]
  | .post o => [o.name]
  | .inList o items => o.name :: "[" :: ((items.map Operand.text).intersperse "," ++ ["]"])
  | .lpar => ["("]
  | .rpar => [")"]

def words : WhereTok → List String
  | .opd a => a.words
  | .mid o => [o.name]
  | .pre o => [o.name]
  | .post o => [o.name]
  | .inList o items => o.name :: "[" :: (((items.map Operand.words).intersperse [","]).flatten ++ ["]"])
  | .lpar => ["("]
  | .rpar => [")"]

/-- The operands of a token; a list is one. -/
def operands : WhereTok → List Value
  | .opd a => [getOperand a.text]
  | .inList _ items => [.list (items.map fun a => getOperand a.text)]
  | _ => []

def texts : WhereTok → List Operand
  | .opd a => [a]
  | .inList _ items => items
  | _ => []

/-- The operands are of words, and no plain one is an operator. -/
def Proper (t : WhereTok) : Prop := ∀ a ∈ t.texts, a.Proper

instance (t : WhereTok) : Decidable t.Proper := List.decidableBAll Operand.Proper t.texts

end WhereTok

namespace WhereExpr

def tokens : WhereExpr → List WhereTok
  | .opd a => [.opd a]
  | .paren e => .lpar :: (e.tokens ++ [.rpar])
  | .mid o l r => l.tokens ++ .mid o :: r.tokens
  | .pre o e => .pre o :: e.tokens
  | .post o e => e.tokens ++ [.post o]
  | .inList o e items => e.tokens ++ [.inList o items]

def words (e : WhereExpr) : List String := e.tokens.flatMap WhereTok.words

def items (e : WhereExpr) : List String := e.tokens.flatMap WhereTok.items

/-- The operands, from the left. -/
def operands (e : WhereExpr) : List Value := e.tokens.flatMap WhereTok.operands

/-- One tree comes out, nothing is left beside it, and it has every operand once. -/
def UsesAll (e : WhereExpr) (query : String) : Prop :=
  ∃ list v, getPrefixList query = .ok list ∧ prefixEvaluation list = .ok v ∧
    list.reverse.foldlM evalToken [] = .ok [v] ∧ (leaves v).Perm e.operands

end WhereExpr

/-! ## The operators in the tables -/

theorem mid_facts (o : MidOp) : o.name ∈ operators ∧ o.name ≠ "(" ∧ o.name ≠ ")" ∧
    get RqgParser.prec o.name = .ok o.prec ∧ o.prec ≤ 2 ∧ (o.prec ≤ 1 ∨ o = .bin .and ∨ o = .bin .or) := by
  cases o with
  | bin o => cases o <;> decide
  | plus => decide
  | minus => decide
  | times => decide

theorem pre_facts (o : PreOp) : o.name ∈ operators ∧ o.name ≠ "(" ∧ o.name ≠ ")" ∧
    get RqgParser.prec o.name = .ok 1 := by
  cases o <;> decide

theorem post_facts (o : PostOp) : o.name ∈ operators ∧ o.name ≠ "(" ∧ o.name ≠ ")" ∧
    get RqgParser.prec o.name = .ok 1 := by
  cases o <;> decide

/-! ## The condition -/

namespace WhereTok

/-- The number of operands is in the table, and is a number. -/
def Tabled : WhereTok → Prop
  | .mid o => PyStr.int ((operations.lookup o.name).getD "") ≠ none
  | .pre o => PyStr.int ((operations.lookup o.name).getD "") ≠ none
  | _ => True

instance : (t : WhereTok) → Decidable t.Tabled
  | .mid _ | .pre _ => inferInstanceAs (Decidable (_ ≠ _))
  | .opd _ | .post _ | .inList _ _ | .lpar | .rpar => inferInstanceAs (Decidable True)

/-- Only an `IN` has a list. -/
def Listed : WhereTok → Prop
  | .inList o _ => o = .isIn
  | _ => True

instance : (t : WhereTok) → Decidable t.Listed
  | .inList o _ => inferInstanceAs (Decidable (o = _))
  | .opd _ | .mid _ | .pre _ | .post _ | .lpar | .rpar => inferInstanceAs (Decidable True)

end WhereTok

/-- No bracket or comma of a list. -/
def IsItem : Value → Prop
  | .str s => s ≠ "[" ∧ s ≠ "," ∧ s ≠ "]"
  | _ => True

instance : (v : Value) → Decidable (IsItem v)
  | .str _ => inferInstanceAs (Decidable (_ ∧ _ ∧ _))
  | .int _ | .list _ => inferInstanceAs (Decidable True)

/-- No operand has the value of an operator, and no item of a list that of its brackets and
commas. -/
def WhereTok.Plain : WhereTok → Prop
  | .opd a => IsOperand a.text
  | .inList _ items => ∀ a ∈ items, IsOperand a.text ∧ IsItem (getOperand a.text)
  | _ => True

instance : (t : WhereTok) → Decidable t.Plain
  | .opd a => inferInstanceAs (Decidable (IsOperand a.text))
  | .inList _ items => List.decidableBAll (fun a : Operand => IsOperand a.text ∧ IsItem (getOperand a.text)) items
  | .mid _ | .pre _ | .post _ | .lpar | .rpar => inferInstanceAs (Decidable True)

/-- The value is a string: a literal, or a plain word that is neither a name nor a number. -/
def isText (a : Operand) : Bool :=
  match getOperand a.text with
  | .str _ => true
  | _ => false

/-! The tokens from the right. -/

/-- The end of a group, or of an operand of `AND` or `OR`. -/
def ends : List WhereTok → Bool
  | [] => true
  | t :: _ => t = .lpar || t = .mid (.bin .and) || t = .mid (.bin .or)

/-- So many brackets are closed, and then it ends. -/
def closes : Nat → List WhereTok → Bool
  | 0, ts => ends ts
  | _ + 1, [] => false
  | k + 1, t :: ts => t = .lpar && closes k ts

/-- A text by itself, in brackets or not. -/
def alone : Nat → List WhereTok → Bool
  | _, [] => false
  | k, t :: ts =>
    match t with
    | .rpar => alone (k + 1) ts
    | .opd a => isText a && closes k ts
    | _ => false

/-- Every `IN` has a text by itself in front of it. -/
def fronted : List WhereTok → Bool
  | [] => true
  | t :: ts =>
    match t with
    | .inList _ _ => alone 0 ts && fronted ts
    | _ => fronted ts

/-- The loosest operators between two operands behind a place: in its own group, and in each
group around it. -/
abbrev Behind := List (Option Nat)

/-- One more in its own group. -/
def raise (q : Nat) : Behind → Behind
  | [] => []
  | h :: hs => some (max q (h.getD 0)) :: hs

/-- One that does not bind tightest is in the own group, or any around it. -/
def backed : Behind → Bool
  | [] => false
  | h :: hs => h.any (1 ≤ ·) || hs.any Option.isSome

/-- In front of an operator that binds tightest stands no `IN`, and a postfix operator only
where there are others behind; `tight` is for the last token. -/
def inTime : Behind → Bool → List WhereTok → Bool
  | _, _, [] => true
  | hs, tight, t :: ts =>
    match t with
    | .mid o => inTime (raise o.prec hs) (o.prec == 0) ts
    | .post _ => (!tight || backed hs) && inTime hs false ts
    | .inList _ _ => !tight && inTime hs false ts
    | .rpar => inTime (none :: hs) false ts
    | .lpar => inTime hs.tail false ts
    | _ => inTime hs false ts

structure WhereExpr.Handled (e : WhereExpr) : Prop where
  tabled : ∀ t ∈ e.tokens, t.Tabled
  listed : ∀ t ∈ e.tokens, t.Listed
  plain : ∀ t ∈ e.tokens, t.Plain
  fronted : fronted e.tokens.reverse = true
  inTime : inTime [none] false e.tokens.reverse = true

/-! ## The words of an expression -/

theorem foldl_commas {items : List Operand} (h : ∀ a ∈ items, a.OfWords) (done : List String) :
    ((items.map Operand.words).intersperse [","]).flatten.foldl joinWord (done, "") =
      (done ++ (items.map Operand.text).intersperse ",", "") := by
  induction items generalizing done with
  | nil => simp
  | cons a items ih =>
    have ha := h a List.mem_cons_self
    have ih := ih fun b hb => h b (List.mem_cons_of_mem _ hb)
    cases items with
    | nil => simpa using joinWord_operand done ha
    | cons b bs =>
      have hcomma : joinWord (done ++ [a.text], "") "," = (done ++ [a.text] ++ [","], "") :=
        joinWord_plain _ (by decide)
      have ih := ih (done ++ [a.text] ++ [","])
      simp only [List.map_cons] at ih
      simp only [List.map_cons, List.intersperse_cons_cons, List.flatten_cons, List.foldl_append,
        joinWord_operand done ha, List.foldl_cons, List.foldl_nil, hcomma, ih]
      simp

theorem joinWord_whereTok {t : WhereTok} (ht : t.Proper) (done : List String) :
    t.words.foldl joinWord (done, "") = (done ++ t.items, "") := by
  cases t with
  | opd a => exact joinWord_operand done (ht a List.mem_cons_self).ofWords
  | mid o =>
    have hquote : '"' ∉ o.name.toList := by
      cases o with
      | bin o => cases o <;> decide
      | _ => decide
    exact joinWord_plain done hquote
  | pre o => exact joinWord_plain done (by cases o <;> decide)
  | post o => exact joinWord_plain done (by cases o <;> decide)
  | inList o items =>
    have hwords : ∀ a ∈ items, a.OfWords := fun a ha => (ht a ha).ofWords
    have hop : joinWord (done, "") o.name = (done ++ [o.name], "") := joinWord_plain _ (by cases o <;> decide)
    have hopen : joinWord (done ++ [o.name], "") "[" = (done ++ [o.name] ++ ["["], "") :=
      joinWord_plain _ (by decide)
    have hclose : ∀ l, joinWord (l, "") "]" = (l ++ ["]"], "") := fun l => joinWord_plain _ (by decide)
    have hitems := foldl_commas hwords (done ++ [o.name] ++ ["["])
    simp only [WhereTok.words, WhereTok.items, List.foldl_cons, List.foldl_append, List.foldl_nil, hop, hopen,
      hitems, hclose]
    simp
  | lpar => exact joinWord_plain done (w := "(") (by decide)
  | rpar => exact joinWord_plain done (w := ")") (by decide)

theorem joinWords_items {e : WhereExpr} (he : ∀ t ∈ e.tokens, t.Proper) : joinWords e.words = e.items := by
  have key : ∀ (ts : List WhereTok) (done : List String), (∀ t ∈ ts, t.Proper) →
      (ts.flatMap WhereTok.words).foldl joinWord (done, "") = (done ++ ts.flatMap WhereTok.items, "") := by
    intro ts
    induction ts with
    | nil => simp
    | cons t ts ih =>
      intro done h
      rw [List.flatMap_cons, List.foldl_append, joinWord_whereTok (h t List.mem_cons_self),
        ih _ fun u hu => h u (List.mem_cons_of_mem _ hu)]
      simp
  unfold joinWords WhereExpr.words
  rw [key e.tokens [] he]
  rfl

/-! ## The tokens from the right -/

/-- The items of a token as the loop reads them. -/
def WhereTok.turned (t : WhereTok) : List String := t.items.reverse.map swapParen

/-- The tokens in front of a place, from the right, in a number of brackets: an operand is next,
or one has been read. -/
inductive Reading : Bool → Nat → List WhereTok → Prop
  | opd {d a ts} : Reading false d ts → Reading true d (.opd a :: ts)
  | rpar {d ts} : Reading true (d + 1) ts → Reading true d (.rpar :: ts)
  | post {d o ts} : Reading true d ts → Reading true d (.post o :: ts)
  | inList {d o items ts} : Reading true d ts → Reading true d (.inList o items :: ts)
  | mid {d o ts} : Reading true d ts → Reading false d (.mid o :: ts)
  | pre {d o ts} : Reading false d ts → Reading false d (.pre o :: ts)
  | lpar {d ts} : Reading false d ts → Reading false (d + 1) (.lpar :: ts)
  | nil : Reading false 0 []

theorem reading_tokens (e : WhereExpr) {d : Nat} {ts : List WhereTok} (h : Reading false d ts) :
    Reading true d (e.tokens.reverse ++ ts) := by
  induction e generalizing d ts with
  | opd a => exact .opd h
  | paren e ih =>
    have hin := ih (.lpar h)
    have htokens : e.paren.tokens.reverse ++ ts = .rpar :: (e.tokens.reverse ++ .lpar :: ts) := by
      simp [WhereExpr.tokens]
    rw [htokens]
    exact .rpar hin
  | mid o l r ihl ihr =>
    have hl := ihr (.mid (o := o) (ihl h))
    have htokens : (WhereExpr.mid o l r).tokens.reverse ++ ts =
        r.tokens.reverse ++ .mid o :: (l.tokens.reverse ++ ts) := by
      simp [WhereExpr.tokens]
    rw [htokens]
    exact hl
  | pre o e ih =>
    have hin := ih (.pre (o := o) h)
    have htokens : (WhereExpr.pre o e).tokens.reverse ++ ts = e.tokens.reverse ++ .pre o :: ts := by
      simp [WhereExpr.tokens]
    rw [htokens]
    exact hin
  | post o e ih =>
    have htokens : (WhereExpr.post o e).tokens.reverse ++ ts = .post o :: (e.tokens.reverse ++ ts) := by
      simp [WhereExpr.tokens]
    rw [htokens]
    exact .post (ih h)
  | inList o e items ih =>
    have htokens : (WhereExpr.inList o e items).tokens.reverse ++ ts =
        .inList o items :: (e.tokens.reverse ++ ts) := by
      simp [WhereExpr.tokens]
    rw [htokens]
    exact .inList (ih h)

/-- An operand by itself, in brackets or not, and what stands in front of it. -/
inductive Lone (a : Operand) : List WhereTok → List WhereTok → Prop
  | base {rest} : Lone a (.opd a :: rest) rest
  | group {ts rest} : Lone a ts (.lpar :: rest) → Lone a (.rpar :: ts) rest

theorem lone_of_alone {k : Nat} {ts : List WhereTok} (h : alone k ts = true) :
    ∃ a rest, Lone a ts rest ∧ isText a = true ∧ closes k rest = true := by
  induction ts generalizing k with
  | nil => cases h
  | cons t ts ih =>
    cases t with
    | opd a =>
      obtain ⟨htext, hcloses⟩ := Bool.and_eq_true_iff.mp h
      exact ⟨a, ts, .base, htext, hcloses⟩
    | rpar =>
      obtain ⟨a, rest, hlone, htext, hcloses⟩ := ih (k := k + 1) h
      cases rest with
      | nil => cases hcloses
      | cons t rest =>
        obtain ⟨ht, hcloses⟩ := Bool.and_eq_true_iff.mp hcloses
        obtain rfl : t = .lpar := of_decide_eq_true ht
        exact ⟨a, rest, .group hlone, htext, hcloses⟩
    | mid o => cases h
    | pre o => cases h
    | post o => cases h
    | inList o items => cases h
    | lpar => cases h

section
variable {a : Operand} {ts rest : List WhereTok}

theorem Lone.reading (h : Lone a ts rest) {d : Nat} (hr : Reading true d ts) : Reading false d rest := by
  induction h generalizing d with
  | base =>
    cases hr with
    | opd hr => exact hr
  | group h ih =>
    cases hr with
    | rpar hr =>
      cases ih hr with
      | lpar hr => exact hr

theorem Lone.length_lt (h : Lone a ts rest) : rest.length < ts.length := by
  induction h with
  | base => simp
  | group h ih =>
    simp only [List.length_cons] at ih ⊢
    omega

theorem Lone.subset (h : Lone a ts rest) : (∀ t ∈ rest, t ∈ ts) ∧ .opd a ∈ ts := by
  induction h with
  | base => exact ⟨fun t ht => List.mem_cons_of_mem _ ht, List.mem_cons_self⟩
  | group h ih =>
    exact ⟨fun t ht => List.mem_cons_of_mem _ (ih.1 t (List.mem_cons_of_mem _ ht)), List.mem_cons_of_mem _ ih.2⟩

theorem Lone.known (h : Lone a ts rest) :
    (∀ t ∈ ts, t.Tabled ∧ t.Listed) ↔ ∀ t ∈ rest, t.Tabled ∧ t.Listed := by
  induction h with
  | base => simp [WhereTok.Listed, WhereTok.Tabled]
  | group h ih => simpa [WhereTok.Listed, WhereTok.Tabled] using ih

theorem Lone.fronted (h : Lone a ts rest) : fronted ts = fronted rest := by
  induction h with
  | base => rfl
  | group h ih => exact ih

theorem Lone.inTime (h : Lone a ts rest) (hs : Behind) : inTime hs false ts = inTime hs false rest := by
  induction h generalizing hs with
  | base => rfl
  | group h ih => exact ih (none :: hs)

theorem Lone.operands (h : Lone a ts rest) :
    ts.reverse.flatMap WhereTok.operands = rest.reverse.flatMap WhereTok.operands ++ [getOperand a.text] := by
  induction h with
  | base => simp [WhereTok.operands]
  | group h ih =>
    simp only [List.reverse_cons, List.flatMap_append] at ih ⊢
    simpa [WhereTok.operands] using ih

end

/-- The loop over the tokens from the right, and the last bracket. -/
def run (ts : List WhereTok) (st : List String × List Value) : Except Exn (List String × List Value) :=
  (ts.flatMap WhereTok.turned ++ [")"]).foldlM shuntToken st

theorem run_cons (t : WhereTok) (ts : List WhereTok) (st : List String × List Value) :
    run (t :: ts) st = t.turned.foldlM shuntToken st >>= run ts := by
  unfold run
  rw [List.flatMap_cons, List.append_assoc, List.foldlM_append]

theorem run_nil (st : List String × List Value) : run [] st = shuntToken st ")" := by
  show (shuntToken st ")" >>= fun st => pure st) = _
  rw [bind_pure]

/-- A token of one item. -/
theorem run_item {t : WhereTok} {w : String} (ht : t.items = [w]) (ts : List WhereTok)
    (st : List String × List Value) : run (t :: ts) st = shuntToken st (swapParen w) >>= run ts := by
  have hturned : t.turned = [swapParen w] := by simp [WhereTok.turned, ht]
  rw [run_cons, hturned, List.foldlM_cons]
  cases shuntToken st (swapParen w) <;> rfl

/-- The brackets around an operand by itself leave no trace. -/
theorem Lone.run_eq {a : Operand} {ts rest : List WhereTok} (h : Lone a ts rest) (ha : IsOperand a.text)
    (ops : List String) (res : List Value) :
    run ts (ops, res) = run rest (ops, res ++ [getOperand a.text]) := by
  induction h generalizing ops with
  | base =>
    have hstep := shunt_operands [a.text] (by simpa using ha.1) ops res
    rw [run_item (w := a.text) rfl, show shuntToken (ops, res) (swapParen a.text) = _ by simpa using hstep]
    rfl
  | @group ts rest h ih =>
    rw [run_item (w := ")") rfl]
    show run ts ("(" :: ops, res) = _
    rw [ih, run_item (w := "(") rfl]
    show (popGroup ("(" :: ops) (res ++ [getOperand a.text]) >>= _) = _
    simp only [popGroup]
    rfl

/-- In front of an `IN` that has its operand it ends: the `IN` leaves the stack. -/
theorem run_ends {rest : List WhereTok} (h : ends rest = true) (ops : List String) (res : List Value) :
    run rest ("IN" :: ops, res) = run rest (ops, res ++ [.str "IN"]) := by
  cases rest with
  | nil => rfl
  | cons t rest =>
    simp only [ends, Bool.or_eq_true, decide_eq_true_eq] at h
    rcases h with (rfl | rfl) | rfl <;> rfl

end MobileTestkit.L3.WhereOperators
