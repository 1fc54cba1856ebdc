import Mathlib.Data.List.Forall2
import MobileTestkit.L3Query.OperatorRuns

/-!
# Operators in written texts

`get_prefix_list` rewrites a text `BETWEEN m and n` before it cuts the words of an expression, in
a quoted literal as well.

* `sheds_wordsOf`: the words that the rewriting leaves of a text, whatever its white space.
* `Sheds.expr`: of an expression it leaves the same tokens, with literals that have lost words.
* `usesAll_iff`: an expression compiles to one tree that uses every operand once, exactly if it is
  `Handled` and no such text stands in it.
-/

namespace MobileTestkit.L3.WhereOperators

open MobileTestkit.Core
open MobileTestkit.Core.Subst
open MobileTestkit.L3.RqgParser

/-! ## The words that the rewriting leaves -/

/-- Some words `and` behind a number are left out. -/
inductive Sheds : List String → List String → Prop
  | nil : Sheds [] []
  | keep {w ws ws'} : Sheds ws ws' → Sheds (w :: ws) (w :: ws')
  | drop {m n ws ws'} : PyStr.isdigit m = true → Sheds (n :: ws) ws' → Sheds (m :: "and" :: n :: ws) (m :: ws')

theorem Sheds.length_le {ws ws' : List String} (h : Sheds ws ws') : ws'.length ≤ ws.length := by
  induction h with
  | nil => exact Nat.le_refl _
  | keep h ih => exact Nat.succ_le_succ ih
  | drop hm h ih =>
    simp only [List.length_cons] at ih ⊢
    omega

theorem splitWords_cons {cur : List Char} (h : cur ≠ []) (cs : List Char) :
    ∃ w ws, PyStr.splitWords cur cs = w :: ws := by
  induction cs generalizing cur with
  | nil => exact ⟨cur, [], by rw [PyStr.splitWords, if_neg h]⟩
  | cons c cs ih =>
    rw [PyStr.splitWords, if_neg h]
    split
    · exact ⟨cur, _, rfl⟩
    · exact ih (by simp)

theorem splitWords_blank {cur : List Char} (h : cur ≠ []) (cs : List Char) :
    PyStr.splitWords cur (' ' :: cs) = cur :: PyStr.splitWords [] cs := by
  rw [PyStr.splitWords, if_pos (by decide), if_neg h]

/-- A word and the blank behind it. -/
theorem splitWords_word_blank {w : List Char} (hne : w ≠ []) (h : ∀ c ∈ w, PyStr.isspace c = false)
    (cur cs : List Char) : PyStr.splitWords cur (w ++ ' ' :: cs) = (cur ++ w) :: PyStr.splitWords [] cs := by
  rw [PyStr.splitWords_word h, splitWords_blank (by simp [hne])]

/-- A text behind the rewriting. -/
def rewritten (m n : String) (cs : List Char) : List Char :=
  sub (word (targetPattern m n).toList (replacementPattern m n).toList) 0 cs

theorem target_ne_nil (m n : String) : (targetPattern m n).toList ≠ [] := by simp [targetPattern]

theorem rewritten_target (m n : String) (cs : List Char) :
    rewritten m n ((targetPattern m n).toList ++ cs) = (replacementPattern m n).toList ++ rewritten m n cs :=
  sub_match (target_ne_nil m n) (word_eq_some.mpr ⟨List.prefix_append _ cs, rfl⟩)

theorem rewritten_cons {m n : String} {c : Char} {cs : List Char} (h : ¬ (targetPattern m n).toList <+: c :: cs) :
    rewritten m n (c :: cs) = c :: rewritten m n cs := by
  rw [rewritten, sub, word_eq_none.mpr h]
  rfl

section
variable {m n : String} (hm : PyStr.isdigit m = true) (hn : PyStr.isdigit n = true)
include hm hn

/-- The words of a text that is rewritten, and of what stands instead. -/
theorem splitWords_patterns (cur cs cs' : List Char) :
    PyStr.splitWords cur ((targetPattern m n).toList ++ cs) =
        (cur ++ "BETWEEN".toList) :: m.toList :: "and".toList :: PyStr.splitWords n.toList cs ∧
      PyStr.splitWords cur ((replacementPattern m n).toList ++ cs') =
        (cur ++ "BETWEEN".toList) :: m.toList :: PyStr.splitWords n.toList cs' := by
  obtain ⟨htarget, hrepl, -, -⟩ := patterns_eq hm hn
  have hdigits : ∀ s : String, PyStr.isdigit s = true → s.toList ≠ [] ∧ ∀ c ∈ s.toList, PyStr.isspace c = false :=
    fun s hs => ⟨(isdigit_iff.mp hs).1, fun c hc => PyStr.isspace_of_isDigit ((isdigit_iff.mp hs).2 c hc)⟩
  have hkeys : ∀ s ∈ ["BETWEEN", "and"], s.toList ≠ [] ∧ (s.toList.all fun c => !PyStr.isspace c) = true := by decide
  have hkey : ∀ s ∈ ["BETWEEN", "and"], ∀ c ∈ s.toList, PyStr.isspace c = false := fun s hs c hc => by
    simpa using List.all_eq_true.mp (hkeys s hs).2 c hc
  have hB := splitWords_word_blank (by decide) (hkey "BETWEEN" (by decide))
  have hA := splitWords_word_blank (by decide) (hkey "and" (by decide))
  have hM := splitWords_word_blank (hdigits m hm).1 (hdigits m hm).2
  have hN := PyStr.splitWords_word (hdigits n hn).2
  constructor
  · rw [htarget]
    simp only [List.append_assoc, List.cons_append, hB, hM, hA, hN, List.nil_append]
  · rw [hrepl]
    simp only [List.append_assoc, List.cons_append, hB, hM, hN, List.nil_append]

/-- The words of a text before and behind the rewriting; `cur` is the word that is being read. -/
theorem sheds_rewritten (cur cs : List Char) :
    Sheds ((PyStr.splitWords cur cs).map String.ofList) ((PyStr.splitWords cur (rewritten m n cs)).map String.ofList) ∧
      (PyStr.containsList (targetPattern m n).toList cs = true →
        (PyStr.splitWords cur (rewritten m n cs)).length < (PyStr.splitWords cur cs).length) := by
  induction hlen : cs.length using Nat.strongRecOn generalizing cur cs with
  | ind k ih =>
  match cs with
  | [] =>
    refine ⟨?_, fun h => absurd (List.isEmpty_iff.mp h) (target_ne_nil m n)⟩
    rw [rewritten, sub, PyStr.splitWords]
    split
    · exact .nil
    · exact .keep .nil
  | c :: rest =>
    by_cases hp : (targetPattern m n).toList <+: c :: rest
    · obtain ⟨r, hr⟩ := hp
      rw [← hr] at hlen ⊢
      obtain ⟨hwords, hwords'⟩ := splitWords_patterns hm hn cur r (rewritten m n r)
      have hlt : r.length < k := by
        rw [← hlen, List.length_append]
        exact Nat.lt_add_of_pos_left (List.length_pos_of_ne_nil (target_ne_nil m n))
      obtain ⟨hsheds, -⟩ := ih r.length hlt n.toList r rfl
      have hshort := hsheds.length_le
      obtain ⟨w, ws, hne⟩ := splitWords_cons (isdigit_iff.mp hn).1 r
      rw [rewritten_target, hwords, hwords']
      constructor
      · rw [hne, List.map_cons] at hsheds
        rw [hne]
        refine .keep (.drop ?_ hsheds)
        rwa [String.ofList_toList]
      · intro _
        simp only [List.length_map, List.length_cons] at hshort ⊢
        omega
    · have hcontains : PyStr.containsList (targetPattern m n).toList (c :: rest) =
          PyStr.containsList (targetPattern m n).toList rest := by
        rw [PyStr.containsList, Bool.eq_false_iff.mpr (mt List.isPrefixOf_iff_prefix.mp hp), Bool.false_or]
      have hlt : rest.length < k := by
        rw [← hlen]
        exact Nat.lt_succ_self _
      rw [rewritten_cons hp, hcontains, PyStr.splitWords, PyStr.splitWords]
      split
      · obtain ⟨hsheds, hshort⟩ := ih rest.length hlt [] rest rfl
        split
        · exact ⟨hsheds, hshort⟩
        · exact ⟨.keep hsheds, fun h => Nat.succ_lt_succ (hshort h)⟩
      · exact ih rest.length hlt (cur ++ [c]) rest rfl

end

/-- Where the search finds a text, its rewriting leaves out words. -/
theorem sheds_wordsOf {query : String} (h : betweenMatch query.toList ≠ none) :
    Sheds (PyStr.splitWs query) (wordsOf query) ∧ (wordsOf query).length < (PyStr.splitWs query).length := by
  obtain ⟨⟨a, b⟩, hmatch⟩ := Option.ne_none_iff_exists'.mp h
  obtain ⟨ha, hb⟩ := betweenMatch_digits hmatch
  obtain ⟨hsheds, hshort⟩ := sheds_rewritten ha hb [] query.toList
  have hwords : wordsOf query =
      (PyStr.splitWords [] (rewritten (String.ofList a) (String.ofList b) query.toList)).map String.ofList := by
    unfold wordsOf betweenSub PyStr.splitWs
    rw [hmatch]
    simp only [PyStr.replace, replaceList_eq_sub, String.toList_ofList]
    rfl
  rw [hwords]
  refine ⟨hsheds, ?_⟩
  have hlt := hshort (betweenMatch_contains hmatch)
  simpa [PyStr.splitWs] using hlt

/-! ## The expression that is left -/

/-- A literal that has lost words, and has a blank still. -/
def Sheared (a a' : Operand) : Prop :=
  a' = a ∨ ∃ ws ws', a = .literal ws ∧ a' = .literal ws' ∧ 2 ≤ ws'.length ∧ List.Sublist ws' ws

inductive WhereTok.Sheared : WhereTok → WhereTok → Prop
  | same (t) : WhereTok.Sheared t t
  | opd {a a'} : WhereOperators.Sheared a a' → WhereTok.Sheared (.opd a) (.opd a')
  | inList {o items items'} : List.Forall₂ WhereOperators.Sheared items items' →
      WhereTok.Sheared (.inList o items) (.inList o items')

theorem Sheds.keep_of {w : String} {ws out : List String} (hw : PyStr.isdigit w = false) (h : Sheds (w :: ws) out) :
    ∃ out', out = w :: out' ∧ Sheds ws out' := by
  cases h with
  | keep h => exact ⟨_, rfl, h⟩
  | drop hm h =>
    rw [hw] at hm
    cases hm

/-- A word with a quote is no number, and no `and`. -/
theorem quote_word {w : String} (h : '"' ∈ w.toList) : PyStr.isdigit w = false ∧ w ≠ "and" := by
  refine ⟨Bool.eq_false_iff.mpr fun hd => ?_, ?_⟩
  · exact absurd ((isdigit_iff.mp hd).2 _ h) (by decide)
  · rintro rfl
    exact absurd h (by decide)

/-- The first and the last word of the rest of a literal stay. -/
theorem Sheds.closing {w : String} {ws rest out : List String} (h : Sheds (Operand.closing w ws ++ rest) out) :
    ∃ ws' out', out = Operand.closing w ws' ++ out' ∧ Sheds rest out' ∧ List.Sublist ws' ws := by
  have hlast : ∀ u : String, '"' ∈ (u ++ "\"").toList := fun u => by simp
  induction hlen : ws.length using Nat.strongRecOn generalizing w ws out with
  | ind k ih =>
  match ws with
  | [] =>
    obtain ⟨out', rfl, hout⟩ := h.keep_of (quote_word (hlast w)).1
    exact ⟨[], out', rfl, hout, .slnil⟩
  | v :: ws =>
    have hwords : Operand.closing w (v :: ws) ++ rest = w :: (Operand.closing v ws ++ rest) := rfl
    rw [hwords] at h
    generalize hws : Operand.closing v ws ++ rest = tail at h
    cases h with
    | keep h =>
      rw [← hws] at h
      obtain ⟨ws', out', rfl, hrest, hsub⟩ := ih ws.length (by rw [← hlen]; exact Nat.lt_succ_self _) h rfl
      exact ⟨v :: ws', out', rfl, hrest, hsub.cons_cons v⟩
    | drop hm h =>
      match ws with
      | [] =>
        have hv : v ++ "\"" = "and" := (List.cons.inj hws).1
        exact absurd hv (quote_word (hlast v)).2
      | u :: ws =>
        have htail : Operand.closing v (u :: ws) ++ rest = v :: (Operand.closing u ws ++ rest) := rfl
        rw [htail] at hws
        obtain ⟨-, hws⟩ := List.cons.inj hws
        rw [← hws] at h
        obtain ⟨ws', out', rfl, hrest, hsub⟩ := ih ws.length (by rw [← hlen]; simp only [List.length_cons]; omega) h rfl
        exact ⟨u :: ws', out', rfl, hrest, (hsub.cons_cons u).cons v⟩

theorem Sheds.operand {a : Operand} {rest out : List String} (h : Sheds (a.words ++ rest) out)
    (hrest : rest.head? ≠ some "and") : ∃ a' out', out = a'.words ++ out' ∧ Sheds rest out' ∧ Sheared a a' := by
  cases a with
  | plain w =>
    have hwords : (Operand.plain w).words ++ rest = w :: rest := rfl
    rw [hwords] at h
    cases h with
    | keep h => exact ⟨.plain w, _, rfl, h, .inl rfl⟩
    | drop hm h => exact absurd rfl hrest
  | literal ws =>
    match ws with
    | [] =>
      obtain ⟨out', rfl, hout⟩ := Sheds.keep_of (w := "\"\"") (quote_word (by decide)).1 h
      exact ⟨.literal [], out', rfl, hout, .inl rfl⟩
    | [w] =>
      obtain ⟨out', rfl, hout⟩ := Sheds.keep_of (w := "\"" ++ w ++ "\"") (quote_word (by simp)).1 h
      exact ⟨.literal [w], out', rfl, hout, .inl rfl⟩
    | w :: v :: ws =>
      obtain ⟨tail, rfl, htail⟩ := Sheds.keep_of (w := "\"" ++ w) (quote_word (by simp)).1 h
      obtain ⟨ws', out', rfl, hrest, hsub⟩ := htail.closing
      exact ⟨.literal (w :: v :: ws'), out', rfl, hrest, .inr ⟨_, _, rfl, rfl, by simp, (hsub.cons_cons v).cons_cons w⟩⟩

theorem Sheds.items {items : List Operand} {rest out : List String}
    (h : Sheds (((items.map Operand.words).intersperse [","]).flatten ++ "]" :: rest) out) :
    ∃ items' out', out = ((items'.map Operand.words).intersperse [","]).flatten ++ "]" :: out' ∧ Sheds rest out' ∧
      List.Forall₂ Sheared items items' := by
  induction items generalizing out with
  | nil =>
    obtain ⟨out', rfl, hout⟩ := Sheds.keep_of (w := "]") (by decide) h
    exact ⟨[], out', rfl, hout, .nil⟩
  | cons a items ih =>
    cases items with
    | nil =>
      have hwords : Sheds (a.words ++ "]" :: rest) out := by simpa using h
      obtain ⟨a', tail, rfl, htail, ha⟩ := hwords.operand (by simp)
      obtain ⟨out', rfl, hout⟩ := htail.keep_of (by decide)
      exact ⟨[a'], out', by simp, hout, .cons ha .nil⟩
    | cons b items =>
      simp only [List.map_cons, List.intersperse_cons_cons, List.flatten_cons, List.append_assoc] at h ih
      obtain ⟨a', tail, rfl, htail, ha⟩ := h.operand (by simp)
      obtain ⟨tail', rfl, htail'⟩ := Sheds.keep_of (w := ",") (by decide) htail
      obtain ⟨items', out', rfl, hout, hitems⟩ := ih htail'
      cases hitems with
      | @cons _ b' _ items' hb hitems =>
        exact ⟨a' :: b' :: items', out', by simp, hout, .cons ha (.cons hb hitems)⟩

/-- No operator is a number, and none is `and`. -/
theorem operator_word {w : String} (hw : w ∈ operators) : PyStr.isdigit w = false ∧ w ≠ "and" := by
  have hops : ∀ s ∈ operators, PyStr.isdigit s = false ∧ s ≠ "and" := by decide
  exact hops w hw

/-- What is left of the words of an expression are the words of one with the same tokens, some
literals of which have lost words. -/
theorem Sheds.expr {e : WhereExpr} {rest out : List String} (h : Sheds (e.words ++ rest) out)
    (hrest : rest.head? ≠ some "and") :
    ∃ e' out', out = WhereExpr.words e' ++ out' ∧ Sheds rest out' ∧
      List.Forall₂ WhereTok.Sheared e.tokens e'.tokens := by
  have hop : ∀ {w : String} {ws : List String}, w ∈ operators → (w :: ws).head? ≠ some "and" := by
    intro w ws hw he
    exact (operator_word hw).2 (Option.some.inj he)
  induction e generalizing rest out with
  | opd a =>
    have hwords : Sheds (a.words ++ rest) out := by
      simpa [WhereExpr.words, WhereExpr.tokens, WhereTok.words] using h
    obtain ⟨a', out', rfl, hout, ha⟩ := hwords.operand hrest
    exact ⟨.opd a', out', by simp [WhereExpr.words, WhereExpr.tokens, WhereTok.words], hout, .cons (.opd ha) .nil⟩
  | paren e ih =>
    have hwords : e.paren.words ++ rest = "(" :: (e.words ++ ")" :: rest) := by
      simp [WhereExpr.words, WhereExpr.tokens, WhereTok.words]
    rw [hwords] at h
    obtain ⟨tail, rfl, htail⟩ := h.keep_of (by decide)
    obtain ⟨e', tail', rfl, htail', he⟩ := ih htail (hop (by decide))
    obtain ⟨out', rfl, hout⟩ := htail'.keep_of (by decide)
    refine ⟨.paren e', out', by simp [WhereExpr.words, WhereExpr.tokens, WhereTok.words], hout, .cons (.same _) ?_⟩
    exact List.rel_append he (.cons (.same _) .nil)
  | mid o l r ihl ihr =>
    have hmem := (mid_facts o).1
    have hwords : (WhereExpr.mid o l r).words ++ rest = l.words ++ o.name :: (r.words ++ rest) := by
      simp [WhereExpr.words, WhereExpr.tokens, WhereTok.words]
    rw [hwords] at h
    obtain ⟨l', tail, rfl, htail, hl⟩ := ihl h (hop hmem)
    obtain ⟨tail', rfl, htail'⟩ := htail.keep_of (operator_word hmem).1
    obtain ⟨r', out', rfl, hout, hr⟩ := ihr htail' hrest
    refine ⟨.mid o l' r', out', by simp [WhereExpr.words, WhereExpr.tokens, WhereTok.words], hout, ?_⟩
    exact List.rel_append hl (.cons (.same _) hr)
  | pre o e ih =>
    have hmem := (pre_facts o).1
    have hwords : (WhereExpr.pre o e).words ++ rest = o.name :: (e.words ++ rest) := rfl
    rw [hwords] at h
    obtain ⟨tail, rfl, htail⟩ := h.keep_of (operator_word hmem).1
    obtain ⟨e', out', rfl, hout, he⟩ := ih htail hrest
    exact ⟨.pre o e', out', rfl, hout, .cons (.same _) he⟩
  | post o e ih =>
    have hmem := (post_facts o).1
    have hwords : (WhereExpr.post o e).words ++ rest = e.words ++ o.name :: rest := by
      simp [WhereExpr.words, WhereExpr.tokens, WhereTok.words]
    rw [hwords] at h
    obtain ⟨e', tail, rfl, htail, he⟩ := ih h (hop hmem)
    obtain ⟨out', rfl, hout⟩ := htail.keep_of (operator_word hmem).1
    refine ⟨.post o e', out', by simp [WhereExpr.words, WhereExpr.tokens, WhereTok.words], hout, ?_⟩
    exact List.rel_append he (.cons (.same _) .nil)
  | inList o e items ih =>
    have hmem := (listOp_facts o).1
    have hwords : (WhereExpr.inList o e items).words ++ rest =
        e.words ++ o.name :: "[" :: (((items.map Operand.words).intersperse [","]).flatten ++ "]" :: rest) := by
      simp [WhereExpr.words, WhereExpr.tokens, WhereTok.words]
    rw [hwords] at h
    obtain ⟨e', tail, rfl, htail, he⟩ := ih h (hop hmem)
    obtain ⟨tail', rfl, htail'⟩ := htail.keep_of (operator_word hmem).1
    obtain ⟨list, rfl, hlist⟩ := Sheds.keep_of (w := "[") (by decide) htail'
    obtain ⟨items', out', rfl, hout, hitems⟩ := hlist.items
    refine ⟨.inList o e' items', out', by simp [WhereExpr.words, WhereExpr.tokens, WhereTok.words], hout, ?_⟩
    exact List.rel_append he (.cons (.inList hitems) .nil)

/-! ## Its operands -/

section
variable {a a' : Operand} (h : Sheared a a')
include h

theorem Sheared.proper (ha : a.Proper) : a'.Proper := by
  rcases h with rfl | ⟨ws, ws', rfl, rfl, -, hsub⟩
  · exact ha
  · exact fun w hw => ha w (hsub.subset hw)

/-- With a blank in it, its value is neither an operator nor a bracket or comma. -/
theorem Sheared.isOperand (ha : a.Proper) (hop : IsOperand a.text) : IsOperand a'.text := by
  rcases h with rfl | ⟨ws, ws', rfl, rfl, htwo, hsub⟩
  · exact hop
  · have hws' : ∀ w ∈ ws', IsWord w := fun w hw => ha w (hsub.subset hw)
    have hblank : ' ' ∈ (PyStr.join " " ws').toList := by
      match ws', htwo with
      | w :: v :: ws', _ => exact blank_mem_join w v ws'
    refine ⟨literal_not_operator ws', ?_⟩
    rw [getOperand_literal hws', literalValue_blank hblank]
    exact operator_blank hblank

theorem Sheared.isItem (ha : a.Proper) (hitem : IsItem (getOperand a.text)) : IsItem (getOperand a'.text) := by
  rcases h with rfl | ⟨ws, ws', rfl, rfl, htwo, hsub⟩
  · exact hitem
  · have hws' : ∀ w ∈ ws', IsWord w := fun w hw => ha w (hsub.subset hw)
    have hblank : ' ' ∈ (PyStr.join " " ws').toList := by
      match ws', htwo with
      | w :: v :: ws', _ => exact blank_mem_join w v ws'
    have hne : ∀ s : String, ' ' ∉ s.toList → PyStr.join " " ws' ≠ s := fun s hs he => hs (he ▸ hblank)
    rw [getOperand_literal hws', literalValue_blank hblank]
    exact ⟨hne _ (by decide), hne _ (by decide), hne _ (by decide)⟩

end

theorem blanks_word {w : String} (h : IsWord w) : blanks w = 0 :=
  List.countP_eq_zero.mpr fun c hc => by simp [(h.2 c hc).1]

theorem blanks_words {w : String} {ws : List String} (h : ∀ v ∈ w :: ws, IsWord v) :
    blanks (PyStr.join " " (w :: ws)) = ws.length := by
  induction ws generalizing w with
  | nil => exact blanks_word (h w List.mem_cons_self)
  | cons v ws ih =>
    have hblank : blanks " " = 1 := by decide
    rw [PyStr.join, blanks_append, blanks_append, hblank, blanks_word (h w List.mem_cons_self),
      ih fun u hu => h u (List.mem_cons_of_mem _ hu), List.length_cons]
    · omega
    · simp

theorem length_literal_words (w v : String) (ws : List String) :
    (Operand.literal (w :: v :: ws)).words.length = ws.length + 2 := by
  have hclosing : ∀ (ws : List String) (v : String), (Operand.closing v ws).length = ws.length + 1 := by
    intro ws
    induction ws with
    | nil => exact fun v => rfl
    | cons u ws ih => exact fun v => congrArg Nat.succ (ih u)
  exact congrArg Nat.succ (hclosing ws v)

/-- The words that are lost weigh something. -/
theorem Sheared.weight {a a' : Operand} (h : Sheared a a') (ha : a.Proper) :
    weight (getOperand a'.text) + a.words.length ≤ weight (getOperand a.text) + a'.words.length := by
  rcases h with rfl | ⟨ws, ws', rfl, rfl, htwo, hsub⟩
  · exact Nat.le_refl _
  have hws' : ∀ w ∈ ws', IsWord w := fun w hw => ha w (hsub.subset hw)
  have hlen := hsub.length_le
  match ws', htwo, ws, hlen with
  | w' :: v' :: ws', _, w :: v :: ws, hlen =>
    rw [getOperand_literal ha, getOperand_literal hws', literalValue_blank (blank_mem_join w v ws),
      literalValue_blank (blank_mem_join w' v' ws'), length_literal_words, length_literal_words]
    have hlow := (weigh_bounds (PyStr.join " " (w :: v :: ws))).1
    have hhigh := (weigh_bounds (PyStr.join " " (w' :: v' :: ws'))).2
    rw [blanks_words ha, List.length_cons] at hlow
    rw [blanks_words hws', List.length_cons] at hhigh
    by_cases heq : ws'.length = ws.length
    · have hsame : w' :: v' :: ws' = w :: v :: ws := hsub.eq_of_length (by simp [heq])
      rw [hsame, heq]
    · simp only [List.length_cons] at hlen
      simp only [RqgParser.weight]
      omega

/-- What is so for one list is so for the other. -/
theorem forall_of_forall₂ {α β : Type} {R : α → β → Prop} {P : α → Prop} {Q : β → Prop} {l : List α} {l' : List β}
    (h : List.Forall₂ R l l') (hR : ∀ a b, R a b → P a → Q b) (hl : ∀ a ∈ l, P a) : ∀ b ∈ l', Q b := by
  induction h with
  | nil => simp
  | cons hab h ih =>
    obtain ⟨ha, hl⟩ := List.forall_mem_cons.mp hl
    exact List.forall_mem_cons.mpr ⟨hR _ _ hab ha, ih hl⟩

theorem WhereTok.Sheared.proper {t t' : WhereTok} (h : t.Sheared t') (ht : t.Proper) : t'.Proper := by
  cases h with
  | same => exact ht
  | opd h => exact forall_of_forall₂ (.cons h .nil) (fun _ _ => WhereOperators.Sheared.proper) ht
  | inList h => exact forall_of_forall₂ h (fun _ _ => WhereOperators.Sheared.proper) ht

theorem WhereTok.Sheared.plain {t t' : WhereTok} (h : t.Sheared t') (hproper : t.Proper) (ht : t.Plain) : t'.Plain := by
  cases h with
  | same => exact ht
  | opd h => exact h.isOperand (hproper _ List.mem_cons_self) ht
  | @inList o items items' h =>
    have hitems : ∀ a ∈ items, a.Proper ∧ IsOperand a.text ∧ IsItem (getOperand a.text) :=
      fun a ha => ⟨hproper a ha, ht a ha⟩
    exact forall_of_forall₂ h (fun a b hab ⟨hp, hop, hitem⟩ => ⟨hab.isOperand hp hop, hab.isItem hp hitem⟩) hitems

theorem sheared_items {items items' : List Operand} (h : List.Forall₂ Sheared items items')
    (hitems : ∀ a ∈ items, a.Proper) :
    weightAll (items'.map fun a => getOperand a.text) + ((items.map Operand.words).intersperse [","]).flatten.length ≤
      weightAll (items.map fun a => getOperand a.text) +
        ((items'.map Operand.words).intersperse [","]).flatten.length := by
  induction h with
  | nil => exact Nat.le_refl _
  | cons ha h ih =>
    obtain ⟨hproper, hitems⟩ := List.forall_mem_cons.mp hitems
    have hfirst := ha.weight hproper
    have ih := ih hitems
    cases h with
    | nil => simpa [weightAll] using hfirst
    | cons hb h =>
      simp only [List.map_cons, List.intersperse_cons_cons, List.flatten_cons, List.length_append, weightAll] at ih ⊢
      simp only [List.length_cons, List.length_nil]
      omega

theorem WhereTok.Sheared.weight {t t' : WhereTok} (h : t.Sheared t') (ht : t.Proper) :
    weightAll t'.operands + t.words.length ≤ weightAll t.operands + t'.words.length := by
  cases h with
  | same => exact Nat.le_refl _
  | opd h => simpa [WhereTok.operands, WhereTok.words, weightAll] using h.weight (ht _ List.mem_cons_self)
  | inList h =>
    have hitems := sheared_items h ht
    simp only [WhereTok.operands, WhereTok.words, weightAll, RqgParser.weight, List.length_cons, List.length_append,
      List.length_nil]
    omega

/-- An expression that has lost words has other operands. -/
theorem sheared_weight {ts ts' : List WhereTok} (h : List.Forall₂ WhereTok.Sheared ts ts') (hts : ∀ t ∈ ts, t.Proper) :
    weightAll (ts'.flatMap WhereTok.operands) + (ts.flatMap WhereTok.words).length ≤
      weightAll (ts.flatMap WhereTok.operands) + (ts'.flatMap WhereTok.words).length := by
  induction h with
  | nil => exact Nat.le_refl _
  | cons ht h ih =>
    obtain ⟨hproper, hts⟩ := List.forall_mem_cons.mp hts
    have hfirst := ht.weight hproper
    have ih := ih hts
    simp only [List.flatMap_cons, weightAll_append, List.length_append]
    omega

theorem weightAll_perm {vs ws : List Value} (h : vs.Perm ws) : weightAll vs = weightAll ws := by
  induction h with
  | nil => rfl
  | cons v h ih => rw [weightAll, weightAll, ih]
  | swap v w vs =>
    simp only [weightAll]
    omega
  | trans h h' ih ih' => rw [ih, ih']

/-! ## Written expressions -/

/-- A text that the rewriting changes does not compile to a tree with all operands. -/
theorem not_usesAll_of_between {e : WhereExpr} (he : ∀ t ∈ e.tokens, t.Proper) {query : String}
    (hq : PyStr.splitWs query = e.words) (h : betweenMatch query.toList ≠ none) : ¬ e.UsesAll query := by
  obtain ⟨hsheds, hshort⟩ := sheds_wordsOf h
  rw [hq] at hsheds hshort
  have hsheds : Sheds (e.words ++ []) (wordsOf query) := by simpa using hsheds
  obtain ⟨e', out, hwords, hout, hsheared⟩ := hsheds.expr (by simp)
  cases hout
  rw [List.append_nil] at hwords
  rw [hwords] at hshort
  have he' := forall_of_forall₂ hsheared (fun t t' => WhereTok.Sheared.proper) he
  rw [usesAll_iff_run he' hwords]
  rintro ⟨st, v, hrun, heval, hperm⟩
  have hplain := plain_of_run he he' hrun heval hperm
  have hboth : ∀ t ∈ e.tokens, t.Proper ∧ t.Plain := fun t ht => ⟨he t ht, hplain t ht⟩
  have hplain' : ∀ t ∈ e'.tokens, t.Plain :=
    forall_of_forall₂ hsheared (fun t t' ht ⟨hp, h⟩ => ht.plain hp h) hboth
  have hdecided := decided_expr he' hplain'
  by_cases hgood : Good 0 [none] false e'.tokens.reverse
  · obtain ⟨res, v', hrun', heval', hleaves⟩ := hdecided.1 hgood
    obtain rfl := Except.ok.inj (hrun.symm.trans hrun')
    obtain rfl : v = v' := (List.cons.inj (Except.ok.inj (heval.symm.trans heval'))).1
    rw [List.reverse_reverse, List.append_nil] at hleaves
    have hsame := weightAll_perm hperm
    rw [hleaves] at hsame
    have hweight := sheared_weight hsheared he
    have hsame : weightAll (e'.tokens.flatMap WhereTok.operands) = weightAll (e.tokens.flatMap WhereTok.operands) :=
      hsame
    have hshort : (e'.tokens.flatMap WhereTok.words).length < (e.tokens.flatMap WhereTok.words).length := hshort
    omega
  · exact hdecided.2 hgood st v hrun heval _ (operands_not_foreign e) hperm

/-- An expression compiles to one tree that uses every operand once, exactly if it is handled and
no text `BETWEEN m and n` stands in it. -/
theorem usesAll_iff {e : WhereExpr} (he : ∀ t ∈ e.tokens, t.Proper) {query : String}
    (hq : PyStr.splitWs query = e.words) : e.UsesAll query ↔ betweenMatch query.toList = none ∧ e.Handled := by
  by_cases h : betweenMatch query.toList = none
  · have hwords : wordsOf query = e.words := by
      unfold wordsOf betweenSub
      rw [h]
      exact hq
    rw [usesAll_of_words he hwords]
    simp [h]
  · exact iff_of_false (not_usesAll_of_between he hq h) fun hboth => h hboth.1

/-- `"x y" IN [ "a" , b ] AND NOT c IS-NULL` -/
def inAndNotNull : WhereExpr :=
  .mid (.bin .and) (.inList .isIn (.opd (.literal ["x", "y"])) [.literal ["a"], .plain "b"])
    (.pre .not (.post .isNull (.opd (.plain "c"))))

theorem usesAll_inAndNotNull : inAndNotNull.UsesAll "\"x y\" IN [ \"a\" , b ] AND NOT c IS-NULL" :=
  (usesAll_iff (by decide) (by decide)).mpr
    ⟨by decide, by decide, by decide, by decide, by decide, by decide⟩

/-- `a + b` -/
def sum : WhereExpr := .mid .plus (.opd (.plain "a")) (.opd (.plain "b"))

/-- `operations` says "2+" of `+`, which is no number. -/
theorem sum_raises : (∀ t ∈ sum.tokens, t.Proper) ∧ PyStr.splitWs "a + b" = sum.words ∧
    compileWhere "a + b" = .error .valueError ∧ ¬ sum.UsesAll "a + b" := by
  have hraises : compileWhere "a + b" = .error .valueError := by rfl
  refine ⟨by decide, by decide, hraises, ?_⟩
  rintro ⟨list, v, hlist, heval, -⟩
  have hok : compileWhere "a + b" = .ok v := Loop.bind_eq_ok.mpr ⟨list, hlist, heval⟩
  rw [hraises] at hok
  cases hok

end MobileTestkit.L3.WhereOperators
