import MobileTestkit.Core.Subst
import MobileTestkit.L3Query.WherePredicates

/-!
# The texts of clauses

The words of operands, predicates and clauses, and their texts with single blanks
between the words.

* `prefix_join`: what begins with a word and a blank at the front of such a text
  begins with its first word.
* `join_operand_words`: the words of an operand are those of its text.
* `getOperand_literal`: the value of a literal.
* `Clause.unspaced`: the words of a clause are the words of its text.
-/
namespace MobileTestkit.L3.RqgParser

open MobileTestkit.Core
open MobileTestkit.Core.OpPrec
open MobileTestkit.Core.Subst

/-! ## Words and blanks -/

theorem toList_join_blank (w v : String) (ws : List String) :
    (PyStr.join " " (w :: v :: ws)).toList = w.toList ++ ' ' :: (PyStr.join " " (v :: ws)).toList := by
  rw [PyStr.toList_join_cons]
  simp

/-- A word and a blank in front of a text of words. -/
theorem prefix_join {p p' : List Char} {ws : List String} (hp : ' ' ∉ p) (hws : ∀ w ∈ ws, ' ' ∉ w.toList)
    (h : p ++ ' ' :: p' <+: (PyStr.join " " ws).toList) :
    ∃ w v rest, ws = w :: v :: rest ∧ p = w.toList ∧ p' <+: (PyStr.join " " (v :: rest)).toList := by
  match ws with
  | [] => exact absurd h (not_prefix_of_sep (by simp [PyStr.join]))
  | [w] => exact absurd h (not_prefix_of_sep (hws w List.mem_cons_self))
  | w :: v :: rest =>
    rw [toList_join_blank, prefix_sep_iff hp (hws w List.mem_cons_self)] at h
    exact ⟨w, v, rest, rfl, h.1, h.2⟩

theorem prefix_join_word {p : List Char} {w : String} {ws : List String} (hp : ' ' ∉ p)
    (h : p <+: (PyStr.join " " (w :: ws)).toList) : p <+: w.toList := by
  cases ws with
  | nil => exact h
  | cons v ws =>
    rw [toList_join_blank] at h
    exact prefix_word hp h

theorem join_cons_cons (w v : String) (ws : List String) :
    PyStr.join " " (w :: v :: ws) = w ++ " " ++ PyStr.join " " (v :: ws) := rfl

theorem join_closing (w : String) (ws : List String) :
    PyStr.join " " (Operand.closing w ws) = PyStr.join " " (w :: ws) ++ "\"" := by
  induction ws generalizing w with
  | nil => rfl
  | cons v ws ih =>
    obtain ⟨u, us, hu⟩ : ∃ u us, Operand.closing v ws = u :: us := by
      cases ws <;> exact ⟨_, _, rfl⟩
    have hclosing : Operand.closing w (v :: ws) = w :: Operand.closing v ws := rfl
    rw [hclosing, hu, join_cons_cons, ← hu, ih, join_cons_cons]
    simp [String.append_assoc]

/-- The words of an operand are those of its text. -/
theorem join_operand_words (a : Operand) : PyStr.join " " a.words = a.text := by
  cases a with
  | plain w => rfl
  | literal ws =>
    match ws with
    | [] => rfl
    | [w] => rfl
    | w :: w' :: ws =>
      obtain ⟨u, us, hu⟩ : ∃ u us, Operand.closing w' ws = u :: us := by
        cases ws <;> exact ⟨_, _, rfl⟩
      have hwords : (Operand.literal (w :: w' :: ws)).words = ("\"" ++ w) :: Operand.closing w' ws := rfl
      rw [hwords, hu, join_cons_cons, ← hu, join_closing, Operand.text, join_cons_cons]
      simp [String.append_assoc]

theorem closing_last (w : String) (ws : List String) :
    ∃ front q, Operand.closing w ws = front ++ [q ++ "\""] := by
  induction ws generalizing w with
  | nil => exact ⟨[], w, rfl⟩
  | cons v ws ih =>
    obtain ⟨front, q, h⟩ := ih v
    exact ⟨w :: front, q, by rw [Operand.closing, h]; rfl⟩

theorem literal_words_last (ws : List String) :
    ∃ front q, (Operand.literal ws).words = front ++ [q ++ "\""] := by
  match ws with
  | [] => exact ⟨[], "\"", by decide⟩
  | [w] => exact ⟨[], "\"" ++ w, rfl⟩
  | w :: w' :: ws =>
    obtain ⟨front, q, h⟩ := closing_last w' ws
    exact ⟨("\"" ++ w) :: front, q, by rw [Operand.words, h]; rfl⟩

theorem suffix_concat {α : Type} {s front : List α} {q : α} (hs : s ≠ []) (h : s <:+ front ++ [q]) :
    ∃ front', s = front' ++ [q] := by
  obtain ⟨t, ht⟩ := h
  rcases List.eq_nil_or_concat s with rfl | ⟨u, c, rfl⟩
  · exact absurd rfl hs
  · rw [List.concat_eq_append, ← List.append_assoc] at ht
    obtain ⟨-, hc⟩ := List.append_inj' ht rfl
    exact ⟨u, by rw [List.concat_eq_append, hc]⟩

/-! ## Words without white space -/

theorem isdigit_iff {m : String} :
    PyStr.isdigit m = true ↔ m.toList ≠ [] ∧ ∀ c ∈ m.toList, c.isDigit = true := by
  simp [PyStr.isdigit]

/-- A word of a text: not empty, and without white space. -/
def Unspaced (w : String) : Prop := w ≠ "" ∧ ∀ c ∈ w.toList, PyStr.isspace c = false

theorem Unspaced.no_blank {w : String} (h : Unspaced w) : ' ' ∉ w.toList :=
  fun hm => absurd (h.2 _ hm) (by decide)

theorem IsWord.unspaced {w : String} (h : IsWord w) : Unspaced w := ⟨h.1, fun c hc => (h.2 c hc).1⟩

theorem IsWord.unspaced_append {w : String} (h : IsWord w) : Unspaced (w ++ "\"") := by
  refine ⟨fun he => ?_, fun c hc => ?_⟩
  · have := congrArg String.toList he
    simp at this
  · rw [String.toList_append] at hc
    rcases List.mem_append.mp hc with hc | hc
    · exact (h.2 c hc).1
    · rw [List.mem_singleton.mp hc]
      decide

theorem Unspaced.quote_append {w : String} (h : Unspaced w) : Unspaced ("\"" ++ w) := by
  refine ⟨fun he => ?_, fun c hc => ?_⟩
  · have := congrArg String.toList he
    simp at this
  · rw [String.toList_append] at hc
    rcases List.mem_append.mp hc with hc | hc
    · rw [List.mem_singleton.mp hc]
      decide
    · exact h.2 c hc

theorem unspaced_closing {w : String} {ws : List String} (h : ∀ v ∈ w :: ws, IsWord v) :
    ∀ v ∈ Operand.closing w ws, Unspaced v := by
  induction ws generalizing w with
  | nil =>
    intro v hv
    rw [List.mem_singleton.mp hv]
    exact (h w List.mem_cons_self).unspaced_append
  | cons u ws ih =>
    intro v hv
    rcases List.mem_cons.mp hv with rfl | hv
    · exact (h v List.mem_cons_self).unspaced
    · exact ih (fun v hv => h v (List.mem_cons_of_mem _ hv)) v hv

theorem Operand.unspaced {a : Operand} (ha : a.OfWords) : ∀ w ∈ a.words, Unspaced w := by
  cases a with
  | plain w =>
    intro v hv
    rw [List.mem_singleton.mp hv]
    exact IsWord.unspaced ha
  | literal ws =>
    match ws, ha with
    | [], _ =>
      intro v hv
      rw [List.mem_singleton.mp hv]
      have hquotes : ("\"\"" : String).toList = ['"', '"'] := by decide
      refine ⟨by decide, fun c hc => ?_⟩
      rw [hquotes] at hc
      obtain rfl : c = '"' := by simpa using hc
      decide
    | [w], ha =>
      intro v hv
      rw [List.mem_singleton.mp hv, String.append_assoc]
      exact (IsWord.unspaced_append (ha w List.mem_cons_self)).quote_append
    | w :: w' :: ws, ha =>
      intro v hv
      rcases List.mem_cons.mp hv with rfl | hv
      · exact (IsWord.unspaced (ha w List.mem_cons_self)).quote_append
      · exact unspaced_closing (fun v hv => ha v (List.mem_cons_of_mem _ hv)) v hv

/-! ## The value of a literal -/

/-- The operand a literal stands for. -/
def literalValue (body : String) : Value :=
  if body = "True" ∨ body = "true" then .str "true"
  else if body = "False" ∨ body = "false" then .str "false"
  else .str body

theorem quote_not_mem_join {ws : List String} (h : ∀ w ∈ ws, IsWord w) :
    '"' ∉ (PyStr.join " " ws).toList := by
  induction ws with
  | nil => simp [PyStr.join]
  | cons w ws ih =>
    have hw := (h w List.mem_cons_self).no_quote
    cases ws with
    | nil => exact hw
    | cons v ws =>
      have ih := ih fun u hu => h u (List.mem_cons_of_mem _ hu)
      rw [toList_join_blank]
      simp only [List.mem_append, List.mem_cons, not_or]
      exact ⟨hw, by decide, ih⟩

theorem stripChar_quoted {cs : List Char} (h : '"' ∉ cs) :
    PyStr.stripChar '"' ('"' :: (cs ++ ['"'])) = cs := by
  have hdrop : ∀ l : List Char, '"' ∉ l → l.dropWhile (· == '"') = l := by
    intro l hl
    cases l with
    | nil => rfl
    | cons c l =>
      have hc : (c == '"') = false := beq_eq_false_iff_ne.mpr fun he => hl (he ▸ List.mem_cons_self)
      rw [List.dropWhile_cons, hc]
      rfl
  unfold PyStr.stripChar
  cases cs with
  | nil => rfl
  | cons c cs =>
    have hc : (c == '"') = false := beq_eq_false_iff_ne.mpr fun he => h (he ▸ List.mem_cons_self)
    have hfront : ('"' :: (c :: cs ++ ['"'])).dropWhile (· == '"') = c :: cs ++ ['"'] := by
      simp [hc]
    have hback : (c :: cs ++ ['"']).reverse.dropWhile (· == '"') = (c :: cs).reverse := by
      rw [List.reverse_append]
      show ('"' :: (c :: cs).reverse).dropWhile (· == '"') = _
      rw [List.dropWhile_cons]
      exact hdrop _ fun hm => h (List.mem_reverse.mp hm)
    rw [hfront, hback, List.reverse_reverse]

theorem getOperand_quoted {body : String} (h : '"' ∉ body.toList) :
    getOperand ("\"" ++ body ++ "\"") = literalValue body := by
  have hlist : ("\"" ++ body ++ "\"").toList = '"' :: (body.toList ++ ['"']) := by simp
  have hdollar : PyStr.startswith ("\"" ++ body ++ "\"") "$" = false :=
    PyStr.startswith_cons hlist (by decide : "$".toList = ['$']) (by decide)
  have hdigit : PyStr.isdigit ("\"" ++ body ++ "\"") = false := by
    refine Bool.eq_false_iff.mpr fun hd => ?_
    have hall := (Bool.and_eq_true_iff.mp hd).2
    rw [hlist] at hall
    exact absurd (List.all_eq_true.mp hall '"' List.mem_cons_self) (by decide)
  have hquote : PyStr.startswith ("\"" ++ body ++ "\"") "\"" = true :=
    PyStr.startswith_char hlist (by decide)
  have hid : "\"" ++ body ++ "\"" ≠ "meta().id" := by
    intro he
    have := congrArg String.toList he
    rw [hlist] at this
    exact absurd (List.cons.inj this).1 (by decide)
  have hinj : ∀ s : String, "\"" ++ body ++ "\"" = "\"" ++ s ++ "\"" ↔ body = s := by
    intro s
    constructor
    · intro he
      have hs : ("\"" ++ s ++ "\"").toList = '"' :: (s.toList ++ ['"']) := by simp
      have := congrArg String.toList he
      rw [hlist, hs] at this
      exact String.toList_inj.mp (List.append_cancel_right (List.cons.inj this).2)
    · rintro rfl
      rfl
  have htrue : "\"True\"" = "\"" ++ "True" ++ "\"" := by decide
  have htrue' : "\"true\"" = "\"" ++ "true" ++ "\"" := by decide
  have hfalse : "\"False\"" = "\"" ++ "False" ++ "\"" := by decide
  have hfalse' : "\"false\"" = "\"" ++ "false" ++ "\"" := by decide
  unfold getOperand literalValue
  rw [hdollar, hdigit, hquote, htrue, htrue', hfalse, hfalse', hlist, stripChar_quoted h,
    String.ofList_toList]
  simp only [hinj, hid, Bool.false_eq_true, if_false, if_true]

theorem getOperand_literal {ws : List String} (h : ∀ w ∈ ws, IsWord w) :
    getOperand (Operand.literal ws).text = literalValue (PyStr.join " " ws) :=
  getOperand_quoted (quote_not_mem_join h)

/-- With a blank in it a literal stands for its text. -/
theorem literalValue_blank {body : String} (h : ' ' ∈ body.toList) : literalValue body = .str body := by
  have hne : ∀ s : String, ' ' ∉ s.toList → body ≠ s := fun s hs he => hs (he ▸ h)
  have h1 := hne "True" (by decide)
  have h2 := hne "true" (by decide)
  have h3 := hne "False" (by decide)
  have h4 := hne "false" (by decide)
  simp [literalValue, h1, h2, h3, h4]

theorem operator_blank {body : String} (h : ' ' ∈ body.toList) : operator? (.str body) = none := by
  have hops : ∀ s ∈ operators, ¬ ' ' ∈ s.toList := by decide
  have hmem : body ∉ operators := fun hm => hops body hm h
  simp [operator?, hmem]

theorem blank_mem_join (w v : String) (ws : List String) : ' ' ∈ (PyStr.join " " (w :: v :: ws)).toList := by
  rw [toList_join_blank]
  simp

/-! ## Clauses -/

/-- The words of a predicate, as `get_prefix_list` is given them. -/
def Predicate.words : Predicate → List String
  | .cmp o x y => x.words ++ o.name :: y.words
  | .between x m n => x.words ++ ["BETWEEN", m, "and", n]
  | .post o x => x.words ++ [o.name]

namespace Clause

def tokWords : Tok Predicate Junction → List String
  | .opd p => p.words
  | .op j => [j.name]
  | .lpar => ["("]
  | .rpar => [")"]

def words (e : Clause) : List String := e.tokens.flatMap tokWords

/-- The clause as it is written, with single blanks. -/
def text (e : Clause) : String := PyStr.join " " (words e)

end Clause

theorem Predicate.unspaced {p : Predicate} (hp : p.Valid) : ∀ w ∈ p.words, Unspaced w := by
  have hdigits : ∀ w, PyStr.isdigit w = true → Unspaced w := by
    intro w hw
    obtain ⟨hne, hall⟩ := isdigit_iff.mp hw
    exact ⟨fun he => hne (by rw [he]; rfl), fun c hc => PyStr.isspace_of_isDigit (hall c hc)⟩
  have hkeys : ∀ s ∈ "and" :: operators, s ≠ "" ∧ s.toList.all fun c => !PyStr.isspace c := by decide
  have hkey : ∀ s ∈ "and" :: operators, Unspaced s := fun s hs =>
    ⟨(hkeys s hs).1, fun c hc => by simpa using List.all_eq_true.mp (hkeys s hs).2 c hc⟩
  intro w hw
  cases p with
  | cmp o x y =>
    rcases List.mem_append.mp hw with hw | hw
    · exact Operand.unspaced hp.2.1.ofWords w hw
    rcases List.mem_cons.mp hw with rfl | hw
    · exact hkey _ (List.mem_cons_of_mem _ o.name_mem.1)
    · exact Operand.unspaced hp.2.2.ofWords w hw
  | between x m n =>
    rcases List.mem_append.mp hw with hw | hw
    · exact Operand.unspaced hp.1.ofWords w hw
    simp only [List.mem_cons, List.not_mem_nil, or_false] at hw
    rcases hw with rfl | rfl | rfl | rfl
    · exact hkey _ (by decide)
    · exact hdigits _ hp.2.1
    · exact hkey _ (by decide)
    · exact hdigits _ hp.2.2
  | post o x =>
    rcases List.mem_append.mp hw with hw | hw
    · exact Operand.unspaced (Operand.Valid.ofWords hp) w hw
    · rw [List.mem_singleton.mp hw]
      exact hkey _ (by cases o <;> decide)

theorem Clause.unspaced {e : Clause} (he : e.AllOpds Predicate.Valid) : ∀ w ∈ Clause.words e, Unspaced w := by
  have hkey : ∀ s ∈ ["(", ")", "AND", "OR"], s ≠ "" ∧ s.toList.all fun c => !PyStr.isspace c := by decide
  have hkey : ∀ s ∈ ["(", ")", "AND", "OR"], Unspaced s := fun s hs =>
    ⟨(hkey s hs).1, fun c hc => by simpa using List.all_eq_true.mp (hkey s hs).2 c hc⟩
  intro w hw
  obtain ⟨t, ht, hw⟩ := List.mem_flatMap.mp hw
  cases t with
  | opd p => exact Predicate.unspaced ((Expr.allOpds_iff e).mp he p ht) w hw
  | op j =>
    rw [List.mem_singleton.mp hw]
    exact hkey _ (by cases j <;> decide)
  | lpar =>
    rw [List.mem_singleton.mp hw]
    exact hkey _ (by decide)
  | rpar =>
    rw [List.mem_singleton.mp hw]
    exact hkey _ (by decide)

end MobileTestkit.L3.RqgParser
