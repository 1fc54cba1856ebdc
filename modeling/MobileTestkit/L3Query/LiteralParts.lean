import Mathlib.Algebra.Order.BigOperators.Group.List
import Mathlib.Algebra.Order.Group.Nat
import MobileTestkit.L3Query.LiteralTexts

/-!
# Literals behind the rewritings

What `multiple_replace` and the `BETWEEN` text take from the literals of a WHERE part.

* `kept_of_blanks`: no blank is lost where every literal is left as it is, and there only.
* `leftParts_renamed`: what is left beside the literals does not depend on them, as long as
  neither rewriting finds anything in one.
-/
namespace MobileTestkit.L3.RqgParser

open MobileTestkit.Core
open MobileTestkit.Core.Subst

/-! ## What the rewritings take from literals -/

theorem text_injective {ls ls' : List String} (hls : ∀ w ∈ ls, IsWord w) (hls' : ∀ w ∈ ls', IsWord w)
    (h : (Operand.literal ls).text = (Operand.literal ls').text) : ls = ls' := by
  have hlist : ∀ ls : List String, (Operand.literal ls).text.toList = '"' :: ((PyStr.join " " ls).toList ++ ['"']) := by
    intro ls
    simp [Operand.text]
  have hjoin := congrArg String.toList h
  rw [hlist, hlist] at hjoin
  have hbody := String.toList_inj.mp (List.append_cancel_right (List.cons.inj hjoin).2)
  have hsplit := congrArg PyStr.splitWs hbody
  rwa [PyStr.splitWs_join fun w hw => (hls w hw).unspaced, PyStr.splitWs_join fun w hw => (hls' w hw).unspaced]
    at hsplit

/-- Without a phrase in it a literal keeps its words. -/
theorem joinPhrases_kept {ls : List String} (hls : ∀ w ∈ ls, IsWord w) (h : Phraseless (Operand.literal ls).text) :
    joinPhrases ls = ls := by
  obtain ⟨-, hwords, htext⟩ := joinPhrases_literal hls
  rw [h.multipleReplace] at htext
  exact text_injective hwords hls htext

theorem dropAnd_kept {m n : String} (hm : PyStr.isdigit m = true) (hn : PyStr.isdigit n = true) {ls : List String}
    (hls : ∀ w ∈ ls, IsWord w) (h : PyStr.contains (Operand.literal ls).text (targetPattern m n) = false) :
    dropAnd m n ls = ls :=
  text_injective (fun w hw => hls w (mem_dropAnd hw)) hls ((dropped_text_iff hm hn (a := .literal ls) hls).mpr h)

theorem blanks_joinPhrases {ls : List String} (hls : ∀ w ∈ ls, IsWord w) :
    blanks (Operand.literal (joinPhrases ls)).text ≤ blanks (Operand.literal ls).text ∧
      (¬ Phraseless (Operand.literal ls).text →
        blanks (Operand.literal (joinPhrases ls)).text < blanks (Operand.literal ls).text) := by
  rw [(joinPhrases_literal hls).2.2]
  by_cases h : Phraseless (Operand.literal ls).text
  · rw [h.multipleReplace]
    exact ⟨Nat.le_refl _, fun hno => absurd h hno⟩
  · have hlt := blanks_multipleReplace h
    exact ⟨Nat.le_of_lt hlt, fun _ => hlt⟩

theorem blanks_dropAnd {m n : String} (hm : PyStr.isdigit m = true) (hn : PyStr.isdigit n = true) {ls : List String}
    (hls : ∀ w ∈ ls, IsWord w) :
    blanks (Operand.literal (dropAnd m n ls)).text ≤ blanks (Operand.literal ls).text ∧
      (PyStr.contains (Operand.literal ls).text (targetPattern m n) = true →
        blanks (Operand.literal (dropAnd m n ls)).text < blanks (Operand.literal ls).text) := by
  have htext : (Operand.literal (dropAnd m n ls)).text =
      PyStr.replace (Operand.literal ls).text (targetPattern m n) (replacementPattern m n) :=
    (replace_operand hm hn (a := .literal ls) hls).symm
  have hfewer : (replacementPattern m n).toList.countP PyStr.isspace <
      (targetPattern m n).toList.countP PyStr.isspace := by
    have hblank : PyStr.isspace ' ' = true := by decide
    obtain ⟨htarget, hrepl, -, -⟩ := patterns_eq hm hn
    rw [htarget, hrepl]
    simp only [List.countP_append, List.countP_cons, hblank, if_true]
    omega
  have hcount := countP_sub (p := PyStr.isspace)
    (m := word (targetPattern m n).toList (replacementPattern m n).toList) (fun s new len hmatch => by
      obtain ⟨hp, he⟩ := word_eq_some.mp hmatch
      cases he
      rwa [← List.prefix_iff_eq_take.mp hp]) (Operand.literal ls).text.toList 0
  rw [htext, blanks, PyStr.replace, String.toList_ofList, replaceList_eq_sub]
  refine ⟨hcount.1, fun h => hcount.2 rfl ?_⟩
  obtain ⟨s, hs, hsuf, hp⟩ := (containsList_iff (by simp [targetPattern])).mp h
  exact ⟨s, hs, hsuf, fun hnone => word_eq_none.mp hnone hp⟩

/-- The operand with its literal rewritten. -/
def Operand.rewritten (rewrite : List String → List String) : Operand → Operand
  | .plain w => .plain w
  | .literal ls => .literal (rewrite ls)

/-- The blanks in the operands. -/
def blanksOf (as : List Operand) : Nat := (as.map fun a => blanks a.text).sum

theorem blanks_word {w : String} (h : IsWord w) : blanks w = 0 := by
  rw [blanks, List.countP_eq_zero]
  intro c hc
  rw [(h.2 c hc).1]
  decide

/-- A measure that plain words have none of is, over the parts, that of the rewritten literals. -/
theorem Piecewise.sum_parts {rewrite : List String → List String} (hrewrite : Piecewise rewrite) {ν : Operand → Nat}
    (hν : ∀ w, IsWord w → ν (.plain w) = 0) {as : List Operand} (has : ∀ a ∈ as, a.OfWords) {run : List String}
    (hrun : ∀ w ∈ run, IsWord w) :
    ((parts rewrite run as).map ν).sum = (as.map fun a => ν (a.rewritten rewrite)).sum := by
  have hplain : ∀ {run : List String}, (∀ w ∈ run, IsWord w) → (((rewrite run).map Operand.plain).map ν).sum = 0 := by
    intro run hrun
    rw [List.map_map, List.sum_eq_zero_iff_forall_eq_nat]
    intro k hk
    obtain ⟨w, hw, rfl⟩ := List.mem_map.mp hk
    exact hν w (hrewrite.word run hrun w hw)
  have hnil : ∀ w ∈ ([] : List String), IsWord w := by simp
  induction as generalizing run with
  | nil => exact hplain hrun
  | cons a as ih =>
    have ih := fun {run : List String} => @ih (fun b hb => has b (List.mem_cons_of_mem _ hb)) run
    have ha := has a List.mem_cons_self
    cases a with
    | plain w =>
      have hrun' : ∀ v ∈ run ++ [w], IsWord v := by
        intro v hv
        rcases List.mem_append.mp hv with hv | hv
        · exact hrun v hv
        · rw [List.mem_singleton.mp hv]
          exact ha
      rw [parts, ih hrun', List.map_cons, List.sum_cons, Operand.rewritten, hν w ha, Nat.zero_add]
    | literal ls =>
      rw [parts, List.map_append, List.map_cons, List.sum_append, List.sum_cons, hplain hrun,
        ih hnil, Nat.zero_add]
      rfl

/-- Over literals that both rewritings leave as they are it is what it was. -/
theorem sum_leftParts {ν : Operand → Nat} (hν : ∀ w, IsWord w → ν (.plain w) = 0) {as : List Operand}
    (has : ∀ a ∈ as, a.OfWords)
    (hsame : ∀ ls, .literal ls ∈ as → joinPhrases ls = ls ∧ ∀ m n, dropAnd m n ls = ls) :
    ((leftParts as).map ν).sum = (as.map ν).sum := by
  have hnil : ∀ w ∈ ([] : List String), IsWord w := by simp
  unfold leftParts
  split
  · rw [piecewise_joinPhrases.sum_parts hν has hnil]
    refine congrArg List.sum (List.map_congr_left fun a ha => ?_)
    cases a with
    | plain w => rfl
    | literal ls => rw [Operand.rewritten, (hsame ls ha).1]
  · rename_i m n hmatch
    obtain ⟨hm, hn⟩ := betweenMatch_digits hmatch
    have hphrased := piecewise_joinPhrases.sum_parts
      (ν := fun a => ν (a.rewritten (dropAnd (String.ofList m) (String.ofList n)))) (fun w hw => hν w hw) has hnil
    rw [(piecewise_dropAnd hm hn).sum_parts hν (phrased_ofWords has) hnil, hphrased]
    refine congrArg List.sum (List.map_congr_left fun a ha => ?_)
    cases a with
    | plain w => rfl
    | literal ls => rw [Operand.rewritten, Operand.rewritten, (hsame ls ha).1, (hsame ls ha).2]

/-- A rewriting that takes no blank from any literal leaves as many in all, -/
theorem Piecewise.blanksOf_le {rewrite : List String → List String} (hrewrite : Piecewise rewrite)
    {as : List Operand} (has : ∀ a ∈ as, a.OfWords)
    (hle : ∀ ls, (∀ w ∈ ls, IsWord w) → blanks (Operand.literal (rewrite ls)).text ≤ blanks (Operand.literal ls).text) :
    blanksOf (parts rewrite [] as) ≤ blanksOf as ∧
      ∀ ls, .literal ls ∈ as → blanks (Operand.literal (rewrite ls)).text < blanks (Operand.literal ls).text →
        blanksOf (parts rewrite [] as) < blanksOf as := by
  have hall : ∀ a ∈ as, blanks (a.rewritten rewrite).text ≤ blanks a.text := by
    intro a ha
    cases a with
    | plain w => exact Nat.le_refl _
    | literal ls => exact hle ls (has _ ha)
  have hnil : ∀ w ∈ ([] : List String), IsWord w := by simp
  have hsum := hrewrite.sum_parts (ν := fun a => blanks a.text) (fun w hw => blanks_word hw) has hnil
  rw [blanksOf, blanksOf, hsum]
  exact ⟨List.sum_le_sum hall, fun ls hls hlt => List.sum_lt_sum _ _ hall ⟨.literal ls, hls, hlt⟩⟩

/-- No phrase stands in a literal, and none of the texts that are rewritten. -/
structure Kept (as : List Operand) (ls : List String) : Prop where
  phrases : Phraseless (Operand.literal ls).text
  between : ∀ m n, betweenMatch (searched as).toList = some (m, n) →
    PyStr.contains (Operand.literal ls).text (targetPattern (String.ofList m) (String.ofList n)) = false

/-- Every literal is kept where no blank is lost. -/
theorem kept_of_blanks {as : List Operand} (has : ∀ a ∈ as, a.OfWords) (h : blanksOf as ≤ blanksOf (leftParts as))
    {ls : List String} (hls : .literal ls ∈ as) : Kept as ls := by
  have hwords : ∀ w ∈ ls, IsWord w := has _ hls
  obtain ⟨hphrased, hlost⟩ := piecewise_joinPhrases.blanksOf_le has fun ls hls => (blanks_joinPhrases hls).1
  have hleft : blanksOf (leftParts as) ≤ blanksOf (parts joinPhrases [] as) := by
    unfold leftParts
    split
    · exact Nat.le_refl _
    · rename_i m n hmatch
      obtain ⟨hm, hn⟩ := betweenMatch_digits hmatch
      exact ((piecewise_dropAnd hm hn).blanksOf_le (phrased_ofWords has) fun ls hls => (blanks_dropAnd hm hn hls).1).1
  have hphrases : Phraseless (Operand.literal ls).text := not_not.mp fun hno => by
    have hlt := hlost ls hls ((blanks_joinPhrases hwords).2 hno)
    omega
  refine ⟨hphrases, fun m n hmatch => Bool.eq_false_iff.mpr fun hcontains => ?_⟩
  obtain ⟨hm, hn⟩ := betweenMatch_digits hmatch
  have hmem : .literal ls ∈ parts joinPhrases [] as := by
    have hmem : .literal (joinPhrases ls) ∈ parts joinPhrases [] as := literal_mem_parts hls []
    rwa [joinPhrases_kept hwords hphrases] at hmem
  have hlt := ((piecewise_dropAnd hm hn).blanksOf_le (phrased_ofWords has)
    fun ls hls => (blanks_dropAnd hm hn hls).1).2 ls hmem ((blanks_dropAnd hm hn hwords).2 hcontains)
  have hparts : leftParts as = parts (dropAnd (String.ofList m) (String.ofList n)) [] (parts joinPhrases [] as) := by
    rw [leftParts, hmatch]
  rw [hparts] at h
  omega

/-! ## Other literals -/

/-- The texts of the operands, a blank in front of each. -/
def spread (as : List Operand) : List Char := as.flatMap fun a => ' ' :: a.text.toList

theorem operand_words_ne_nil (a : Operand) : a.words ≠ [] := by
  cases a with
  | plain w => simp [Operand.words]
  | literal ls =>
    obtain ⟨q, rest, h⟩ := literal_words_first ls
    simp [h]

theorem blank_join_operands {as : List Operand} (h : as ≠ []) :
    ' ' :: (PyStr.join " " (as.flatMap Operand.words)).toList = spread as := by
  induction as with
  | nil => exact absurd rfl h
  | cons a as ih =>
    cases as with
    | nil => simp [spread, join_operand_words]
    | cons b bs =>
      have hrest := ih (by simp)
      have hne : (b :: bs).flatMap Operand.words ≠ [] := by simp [operand_words_ne_nil]
      rw [List.flatMap_cons, toList_join_append (operand_words_ne_nil a) hne, join_operand_words, hrest]
      rfl

theorem betweenMatch_blank (cs : List Char) : betweenMatch (' ' :: cs) = betweenMatch cs := by
  have hat : betweenAt (' ' :: cs) = none := by
    unfold betweenAt
    exact if_neg (by simp)
  rw [betweenMatch, hat, Option.none_or]

/-- A match never goes over a quote. -/
theorem betweenAt_quote (cs ds : List Char) : betweenAt (cs ++ '"' :: ds) = betweenAt cs := by
  have hsame : ∀ (k cs : List Char), '"' ∉ k → k.isPrefixOf (cs ++ '"' :: ds) = k.isPrefixOf cs := by
    intro k cs hk
    refine Bool.eq_iff_iff.mpr ?_
    rw [List.isPrefixOf_iff_prefix, List.isPrefixOf_iff_prefix]
    exact ⟨prefix_word hk, fun h => h.trans (List.prefix_append _ _)⟩
  have hdigits : ∀ cs : List Char, (cs ++ '"' :: ds).takeWhile Char.isDigit = cs.takeWhile Char.isDigit := by
    intro cs
    induction cs with
    | nil => rfl
    | cons c cs ih => simp only [List.cons_append, List.takeWhile_cons, ih]
  have hdrop : ∀ (k cs : List Char), k <+: cs → (cs ++ '"' :: ds).drop k.length = cs.drop k.length ++ '"' :: ds :=
    fun k cs hk => List.drop_append_of_le_length hk.length_le
  have hkeys : '"' ∉ "BETWEEN ".toList ∧ '"' ∉ " and ".toList := by decide
  unfold betweenAt
  simp only [hsame _ _ hkeys.1]
  split
  · rename_i hfront
    rw [hdrop _ _ (List.isPrefixOf_iff_prefix.mp hfront)]
    generalize cs.drop "BETWEEN ".toList.length = rest
    rw [hdigits, hdrop _ _ (List.takeWhile_prefix _)]
    generalize rest.takeWhile Char.isDigit = num1
    generalize rest.drop num1.length = rest
    rw [hsame _ _ hkeys.2]
    split
    · rename_i hand
      rw [hdrop _ _ (List.isPrefixOf_iff_prefix.mp (Bool.and_eq_true_iff.mp hand).2), hdigits]
    · rfl
  · rfl

theorem betweenMatch_quote (cs ds : List Char) :
    betweenMatch (cs ++ '"' :: ds) = (betweenMatch cs).or (betweenMatch ds) := by
  induction cs with
  | nil =>
    have hat : betweenAt ([] ++ '"' :: ds) = betweenAt [] := betweenAt_quote [] ds
    have hnil : betweenAt [] = none := rfl
    rw [hnil, List.nil_append] at hat
    have hquote : betweenMatch ('"' :: ds) = betweenMatch ds := by rw [betweenMatch, hat, Option.none_or]
    rw [List.nil_append, hquote]
    rfl
  | cons c cs ih =>
    have hat := betweenAt_quote (c :: cs) ds
    rw [List.cons_append] at hat ⊢
    rw [betweenMatch, betweenMatch, hat, ih, Option.or_assoc]

/-- A literal is searched by itself. -/
theorem betweenMatch_literal (pre cs : List Char) (ls : List String) :
    betweenMatch (pre ++ (' ' :: (Operand.literal ls).text.toList ++ cs)) =
      (betweenMatch (pre ++ [' '])).or ((betweenMatch (PyStr.join " " ls).toList).or (betweenMatch cs)) := by
  have hlist : (Operand.literal ls).text.toList = '"' :: ((PyStr.join " " ls).toList ++ ['"']) := by
    simp [Operand.text]
  have hsplit : pre ++ (' ' :: (Operand.literal ls).text.toList ++ cs) =
      (pre ++ [' ']) ++ '"' :: ((PyStr.join " " ls).toList ++ '"' :: cs) := by
    simp [hlist]
  rw [hsplit, betweenMatch_quote, betweenMatch_quote]

/-- The same operands, with other words in the literals. -/
inductive Renamed (R : List String → List String → Prop) : Operand → Operand → Prop
  | plain (w : String) : Renamed R (.plain w) (.plain w)
  | literal {ls ls'} : R ls ls' → Renamed R (.literal ls) (.literal ls')

section
variable {R : List String → List String → Prop}

theorem parts_renamed {rewrite : List String → List String}
    (hR : ∀ ls ls', R ls ls' → rewrite ls = ls ∧ rewrite ls' = ls') {as as' : List Operand}
    (h : List.Forall₂ (Renamed R) as as') (run : List String) :
    List.Forall₂ (Renamed R) (parts rewrite run as) (parts rewrite run as') := by
  have hplain : ∀ ws : List String, List.Forall₂ (Renamed R) (ws.map .plain) (ws.map .plain) := by
    intro ws
    induction ws with
    | nil => exact .nil
    | cons w ws ih => exact .cons (.plain w) ih
  induction h generalizing run with
  | nil => exact hplain _
  | cons ha h ih =>
    cases ha with
    | plain w => exact ih (run ++ [w])
    | literal hls =>
      obtain ⟨hl, hr⟩ := hR _ _ hls
      rw [parts, parts, hl, hr]
      exact List.rel_append (hplain _) (.cons (.literal hls) (ih []))

/-- Where the first match stands in no literal it is that of other literals without a match. -/
theorem betweenMatch_renamed {as as' : List Operand} (h : List.Forall₂ (Renamed R) as as')
    (hnone : ∀ ls ls', R ls ls' → betweenMatch (PyStr.join " " ls).toList = none) (pre : List Char)
    (hkept : ∀ m n, betweenMatch (pre ++ spread as') = some (m, n) → ∀ ls, .literal ls ∈ as' →
      PyStr.contains (Operand.literal ls).text (targetPattern (String.ofList m) (String.ofList n)) = false) :
    betweenMatch (pre ++ spread as) = betweenMatch (pre ++ spread as') := by
  induction h generalizing pre with
  | nil => rfl
  | @cons a a' as as' ha h ih =>
    have hspread : ∀ (b : Operand) (bs : List Operand), spread (b :: bs) = ' ' :: b.text.toList ++ spread bs :=
      fun b bs => rfl
    cases ha with
    | plain w =>
      rw [hspread, hspread, ← List.append_assoc, ← List.append_assoc]
      rw [hspread, ← List.append_assoc] at hkept
      exact ih _ fun m n hmatch ls hls => hkept m n hmatch ls (List.mem_cons_of_mem _ hls)
    | @literal ls ls' hls =>
      rw [hspread, betweenMatch_literal] at hkept
      rw [hspread, hspread, betweenMatch_literal, betweenMatch_literal, hnone ls ls' hls, Option.none_or]
      cases hpre : betweenMatch (pre ++ [' ']) with
      | some r => rfl
      | none =>
        rw [hpre, Option.none_or] at hkept
        rw [Option.none_or, Option.none_or]
        cases hbody : betweenMatch (PyStr.join " " ls').toList with
        | some r =>
          -- the first match would stand in this literal
          rw [hbody] at hkept
          have hfalse := hkept r.1 r.2 rfl ls' List.mem_cons_self
          have hin := PyStr.containsList_iff_infix.mp (betweenMatch_contains (a := r.1) (b := r.2) hbody)
          have hlist : (Operand.literal ls').text.toList = '"' :: ((PyStr.join " " ls').toList ++ ['"']) := by
            simp [Operand.text]
          have htrue : PyStr.contains (Operand.literal ls').text
              (targetPattern (String.ofList r.1) (String.ofList r.2)) = true := by
            rw [PyStr.contains, PyStr.containsList_iff_infix, hlist]
            exact hin.trans ((List.prefix_append _ _).isInfix.trans (List.suffix_cons _ _).isInfix)
          rw [hfalse] at htrue
          cases htrue
        | none =>
          rw [hbody, Option.none_or] at hkept
          rw [Option.none_or]
          exact ih [] fun m n hmatch l hl => hkept m n hmatch l (List.mem_cons_of_mem _ hl)

theorem renamed_left {as as' : List Operand} (h : List.Forall₂ (Renamed R) as as') {a : Operand} (ha : a ∈ as) :
    ∃ a', Renamed R a a' := by
  induction h with
  | nil => cases ha
  | cons hb h ih =>
    rcases List.mem_cons.mp ha with rfl | ha
    · exact ⟨_, hb⟩
    · exact ih ha

theorem renamed_literal {as as' : List Operand} (h : List.Forall₂ (Renamed R) as as') {ls' : List String}
    (hls : .literal ls' ∈ as') : ∃ ls, R ls ls' := by
  induction h with
  | nil => cases hls
  | cons hb h ih =>
    rcases List.mem_cons.mp hls with rfl | hls
    · cases hb with
      | literal hr => exact ⟨_, hr⟩
    · exact ih hls

/-- The search goes over the operands as they stand. -/
theorem betweenMatch_spread {as : List Operand} (has : ∀ a ∈ as, a.OfWords) :
    betweenMatch (searched as).toList = betweenMatch (spread (parts joinPhrases [] as)) := by
  have htext : searched as = PyStr.join " " ((parts joinPhrases [] as).flatMap Operand.words) := by
    rw [searched, phrased_words has]
  rw [htext]
  by_cases hnil : parts joinPhrases [] as = []
  · rw [hnil]
    rfl
  · rw [← blank_join_operands hnil, betweenMatch_blank]

/-- With other literals that both rewritings leave as they are, so are the operands that
they leave. -/
theorem leftParts_renamed {as as' : List Operand} (h : List.Forall₂ (Renamed R) as as')
    (has : ∀ a ∈ as, a.OfWords) (has' : ∀ a ∈ as', a.OfWords)
    (hphrases : ∀ ls ls', R ls ls' → joinPhrases ls = ls ∧ joinPhrases ls' = ls')
    (hnone : ∀ ls ls', R ls ls' → betweenMatch (PyStr.join " " ls).toList = none)
    (hbetween : ∀ m n, betweenMatch (searched as').toList = some (m, n) → ∀ ls ls', R ls ls' →
      (dropAnd (String.ofList m) (String.ofList n) ls = ls ∧ dropAnd (String.ofList m) (String.ofList n) ls' = ls') ∧
        PyStr.contains (Operand.literal ls').text (targetPattern (String.ofList m) (String.ofList n)) = false) :
    List.Forall₂ (Renamed R) (leftParts as) (leftParts as') := by
  have hparts := parts_renamed hphrases h []
  have hmatch : betweenMatch (searched as).toList = betweenMatch (searched as').toList := by
    rw [betweenMatch_spread has, betweenMatch_spread has']
    refine betweenMatch_renamed hparts hnone [] fun m n hm ls hls => ?_
    obtain ⟨ls₀, hr⟩ := renamed_literal hparts hls
    rw [List.nil_append, ← betweenMatch_spread has'] at hm
    exact (hbetween m n hm ls₀ ls hr).2
  unfold leftParts
  rw [hmatch]
  cases hcase : betweenMatch (searched as').toList with
  | none => exact hparts
  | some r => exact parts_renamed (fun ls ls' hr => (hbetween r.1 r.2 hcase ls ls' hr).1) hparts []

end

end MobileTestkit.L3.RqgParser
