import Mathlib.Algebra.BigOperators.Group.List.Basic
import Mathlib.Data.List.Perm.Subperm
import MobileTestkit.Core.Ini
import MobileTestkit.L3Query.LiteralMarks

/-!
# String literals

Double-quoted literals with any text in them, in a WHERE part of words and literals.

* `LiteralsSurvive`: the tree is that of the query with a word of letters `x` for each
  literal, with the literal's text in the place of this word.
* `literalsSurvive_iff`: which literals do.
-/
namespace MobileTestkit.L3.RqgParser

open MobileTestkit.Core
open MobileTestkit.Core.Subst
open MobileTestkit.L3.WhereOperators (IsItem)

/-- The query with its marks. -/
def bareQuery (head : List String) (ps : List Piece) : String :=
  PyStr.join " " (head ++ (bare 0 ps).flatMap Piece.words)

/-- The query with the marks has this tree, with every mark in it. -/
def Bare (head : List String) (ps : List Piece) (tree : Value) : Prop :=
  (∃ q, getJsonQuery (bareQuery head ps) = .ok q ∧ q.whereTree = tree) ∧ ∀ p ∈ marked 0 ps, p.1 ∈ strings tree

/-- Each literal stands in the tree as one operand, its text with single blanks, and what
is around it is what would be around one plain word. -/
def LiteralsSurvive (query : String) (head : List String) (ps : List Piece) : Prop :=
  ∃ tree, Bare head ps tree ∧ ∃ q, getJsonQuery query = .ok q ∧ q.whereTree = fill (unmark ps) tree

/-- The WHERE part with single blanks. -/
def whereText (ps : List Piece) : String := PyStr.join " " (ps.flatMap Piece.words)

/-- What the literals of a query must not be: with white space at the ends, an operator's
name, with a phrase in it or the text of the first `BETWEEN`, and in a list not a bracket
or a comma. -/
structure LiteralsClear (ps : List Piece) (tree : Value) : Prop where
  ends : ∀ text, .literal text ∈ ps → PyStr.Trimmed (collapse text).toList
  names : ∀ text, .literal text ∈ ps → collapse text ∉ operators
  phrases : ∀ text, .literal text ∈ ps → Phraseless (collapse text)
  between : ∀ m n, betweenMatch (multipleReplace (whereText ps) transOp).toList = some (m, n) →
    ∀ text, .literal text ∈ ps →
      PyStr.contains (collapse text) (targetPattern (String.ofList m) (String.ofList n)) = false
  lists : ∀ p ∈ marked 0 ps, p.1 ∈ listed tree → IsItem (.str (collapse p.2))

/-! ## The pieces as operands -/

section
variable {ps : List Piece} (hps : ∀ p ∈ ps, p.Proper)
include hps

theorem pieces_ofWords : ∀ a ∈ ps.map Piece.operand, a.OfWords := by
  intro a ha
  obtain ⟨p, hp, rfl⟩ := List.mem_map.mp ha
  exact Piece.operand_ofWords (hps p hp)

theorem pieces_unspaced : ∀ w ∈ ps.flatMap Piece.words, Unspaced w := by
  intro w hw
  obtain ⟨p, hp, hw⟩ := List.mem_flatMap.mp hw
  exact Piece.words_unspaced (hps p hp) w hw

theorem pieces_words (hclosed : ∀ p ∈ ps, p.Closed) :
    (ps.map Piece.operand).flatMap Operand.words = ps.flatMap Piece.words := by
  induction ps with
  | nil => rfl
  | cons p ps ih =>
    obtain ⟨hp, hps⟩ := List.forall_mem_cons.mp hps
    obtain ⟨hc, hclosed⟩ := List.forall_mem_cons.mp hclosed
    rw [List.map_cons, List.flatMap_cons, List.flatMap_cons, Piece.operand_words hp hc, ih hps hclosed]

theorem quote_not_mem {text : String} (h : .literal text ∈ ps) : '"' ∉ text.toList := hps _ h

theorem searched_pieces (hclosed : ∀ p ∈ ps, p.Closed) :
    searched (ps.map Piece.operand) = multipleReplace (whereText ps) transOp := by
  rw [searched, whereText, pieces_words hps hclosed,
    multipleReplace_words fun w hw => (pieces_unspaced hps w hw).no_blank]

end

theorem closed_pieces {ps : List Piece} (h : ∀ text, .literal text ∈ ps → PyStr.Trimmed (collapse text).toList) :
    ∀ p ∈ ps, p.Closed := by
  intro p hp
  cases p with
  | word w => trivial
  | literal text => exact h text hp

theorem piece_words_ne_nil {ps : List Piece} (hps : ps ≠ []) : ps.flatMap Piece.words ≠ [] := by
  obtain ⟨p, ps, rfl⟩ := List.exists_cons_of_ne_nil hps
  intro he
  have hnil : p.words = [] := (List.append_eq_nil_iff.mp (by rwa [List.flatMap_cons] at he)).1
  cases p with
  | word w => cases hnil
  | literal text =>
    have hjoin := join_splitWs_quoted text
    have hwords : PyStr.splitWs ("\"" ++ text ++ "\"") = [] := hnil
    rw [hwords] at hjoin
    have := congrArg String.toList hjoin
    simp [PyStr.join] at this

/-! The marks. -/

theorem bare_proper {ps : List Piece} (hps : ∀ p ∈ ps, p.Proper) (k : Nat) : ∀ p ∈ bare k ps, p.Proper ∧ p.Closed := by
  induction ps generalizing k with
  | nil => simp [bare]
  | cons a ps ih =>
    obtain ⟨ha, hrest⟩ := List.forall_mem_cons.mp hps
    cases a with
    | word w => exact List.forall_mem_cons.mpr ⟨⟨ha, trivial⟩, ih hrest k⟩
    | literal text =>
      refine List.forall_mem_cons.mpr ⟨⟨(isWord_mark k).no_quote, ?_⟩, ih hrest (k + 1)⟩
      show PyStr.Trimmed (collapse (mark k)).toList
      rw [collapse_unspaced (isWord_mark k).unspaced]
      exact trimmed_of_unspaced (isWord_mark k).unspaced.2

theorem bare_ne_nil {ps : List Piece} (hps : ps ≠ []) (k : Nat) : bare k ps ≠ [] := by
  obtain ⟨p, ps, rfl⟩ := List.exists_cons_of_ne_nil hps
  cases p <;> simp [bare]

/-! ## The compiled queries -/

/-- The tree of a query is what its WHERE part compiles to. -/
theorem query_compiled {query : String} {head : List String} {select : List Char} {ps : List Piece}
    (hps : ∀ p ∈ ps, p.Proper) (hne : ps ≠ []) (hhead : IsHead head select)
    (hq : PyStr.splitWs query = head ++ ps.flatMap Piece.words) {tree : Value} :
    (∃ q, getJsonQuery query = .ok q ∧ q.whereTree = tree) ↔
      SelectRead select ∧ compileWhere (multipleReplace (whereText ps) transOp) = .ok tree := by
  rw [getJsonQuery_tree_iff hq hhead (piece_words_ne_nil hne), whereText,
    multipleReplace_words fun w hw => (pieces_unspaced hps w hw).no_blank]

theorem splitWs_bareQuery {query : String} {head : List String} {ps : List Piece} (hps : ∀ p ∈ ps, p.Proper)
    (hq : PyStr.splitWs query = head ++ ps.flatMap Piece.words) :
    PyStr.splitWs (bareQuery head ps) = head ++ (bare 0 ps).flatMap Piece.words := by
  refine PyStr.splitWs_join fun w hw => ?_
  rcases List.mem_append.mp hw with hw | hw
  · exact splitWs_unspaced query w (by rw [hq]; exact List.mem_append_left _ hw)
  · exact pieces_unspaced (fun p hp => (bare_proper hps 0 p hp).1) w hw

theorem compiled_built {query : String} {tree : Value} (h : compileWhere query = .ok tree) : Built tree := by
  obtain ⟨st, stack, hloop, hstack⟩ := compileWhere_runs.mp h
  exact compileWhere_built hloop hstack tree List.mem_cons_self

/-! ## Blanks -/

theorem total_blanks_item (w : String) : total blanks [itemValue w] ≤ blanks w := by
  have hweigh : ∀ ss : List String, 3 * (ss.map blanks).sum ≤ (ss.map weigh).sum := by
    intro ss
    induction ss with
    | nil => exact Nat.le_refl _
    | cons s ss ih =>
      have hs := (weigh_bounds s).1
      rw [List.map_cons, List.map_cons, List.sum_cons, List.sum_cons]
      omega
  have hitem := (itemWeight_bounds w).2
  rw [itemWeight, weight_eq_total] at hitem
  have hle := hweigh (stringsAll [itemValue w])
  unfold total at hitem ⊢
  omega

theorem total_blanks_items (as : List Operand) :
    total blanks ((as.map Operand.text).map itemValue) ≤ blanksOf as := by
  induction as with
  | nil => exact Nat.le_refl _
  | cons a as ih =>
    have hitem := total_blanks_item a.text
    have hof : blanksOf (a :: as) = blanks a.text + blanksOf as := rfl
    rw [List.map_cons, List.map_cons, total_cons, hof]
    omega

theorem blanks_strip : Stripped blanks := by
  intro s
  rw [blanks, String.toList_ofList]
  rcases strip_countP s.toList with h | h
  · rw [h]
    exact Nat.le_refl _
  · exact Nat.le_of_lt h

/-- The blanks of the tree are in the operands. -/
theorem compiled_blanks {as : List Operand} (has : ∀ a ∈ as, a.OfWords) {tree : Value}
    (h : compileWhere (searched as) = .ok tree) : total blanks [tree] ≤ blanksOf (leftParts as) := by
  have hle := compileWhere_total blanks_strip (by decide) (by decide) h
  rw [joinWords_leftParts has] at hle
  exact Nat.le_trans hle (total_blanks_items _)

theorem blanks_spelled (text : String) : blanks (spelled text) = blanks (collapse text) := by
  have hkeys : ∀ s ∈ truths, blanks s = 0 := by decide
  rcases spelled_cases text with ⟨hcollapse, hspelled⟩ | h
  · rw [hkeys _ hcollapse, hkeys _ hspelled]
  · rw [h]

/-- The blanks of the operands are those of the literals. -/
theorem blanksOf_pieces {ps : List Piece} (hps : ∀ p ∈ ps, p.Proper) (hclosed : ∀ p ∈ ps, p.Closed) (k : Nat) :
    blanksOf (ps.map Piece.operand) = ((marked k ps).map fun p => blanks (spelled p.2)).sum := by
  induction ps generalizing k with
  | nil => rfl
  | cons a ps ih =>
    obtain ⟨ha, hps'⟩ := List.forall_mem_cons.mp hps
    obtain ⟨hc, hclosed'⟩ := List.forall_mem_cons.mp hclosed
    have hof : blanksOf ((a :: ps).map Piece.operand) = blanks a.operand.text + blanksOf (ps.map Piece.operand) := rfl
    rw [hof]
    cases a with
    | word w =>
      have hw : blanks (Piece.operand (.word w)).text = 0 := blanks_word ha
      rw [hw, Nat.zero_add, ih hps' hclosed' k]
      rfl
    | literal text =>
      have htrim : PyStr.Trimmed (collapse text).toList := hc
      have htext : blanks (Piece.operand (.literal text)).text = blanks (spelled text) := by
        have hquote : blanks "\"" = 0 := by decide
        rw [Piece.operand, Operand.text, join_splitWs htrim, blanks_append, blanks_append, hquote, Nat.zero_add,
          Nat.add_zero, blanks_spelled]
      rw [htext, ih hps' hclosed' (k + 1)]
      rfl

/-- Every literal of the tree has its blanks in it. -/
theorem blanks_of_marks {ps : List Piece} {tree : Value} (hmarks : ∀ p ∈ marked 0 ps, p.1 ∈ strings tree) :
    ((marked 0 ps).map fun p => blanks (spelled p.2)).sum ≤ total blanks [fill (unmark ps) tree] := by
  have hsub : ((marked 0 ps).map Prod.fst).Subperm (strings tree) := by
    refine (marked_nodup 0 ps).subperm fun m hm => ?_
    obtain ⟨p, hp, rfl⟩ := List.mem_map.mp hm
    exact hmarks p hp
  have hvalues : ((marked 0 ps).map fun p => blanks (spelled p.2)) =
      ((marked 0 ps).map Prod.fst).map fun s => blanks (unmark ps s) := by
    rw [List.map_map]
    exact List.map_congr_left fun p hp => by rw [Function.comp, unmark_mark hp]
  have htotal : total blanks [fill (unmark ps) tree] = ((strings tree).map fun s => blanks (unmark ps s)).sum := by
    rw [total, stringsAll, stringsAll, List.append_nil, strings_fill, List.map_map]
    rfl
  obtain ⟨ss, hperm, hsublist⟩ := hsub
  rw [hvalues, htotal, ← (hperm.map _).sum_eq]
  exact (hsublist.map _).sum_le_sum fun _ _ => Nat.zero_le _

/-! ## Texts between quotes -/

theorem contains_quoted {k : String} (hk : '"' ∉ k.toList) (body : String) :
    PyStr.contains ("\"" ++ body ++ "\"") k = PyStr.contains body k := by
  have hlist : ("\"" ++ body ++ "\"").toList = '"' :: (body.toList ++ ['"']) := by simp
  refine Bool.eq_iff_iff.mpr ?_
  rw [PyStr.contains, PyStr.contains, PyStr.containsList_iff_infix, PyStr.containsList_iff_infix, hlist]
  constructor
  · intro h
    rcases List.infix_cons_iff.mp h with h | h
    · cases hc : k.toList with
      | nil => exact List.nil_infix
      | cons c cs =>
        rw [hc] at h hk
        rw [(List.cons_prefix_cons.mp h).1] at hk
        exact absurd List.mem_cons_self hk
    rcases List.infix_concat_iff.mp h with h | h
    · rcases List.suffix_concat_iff.mp h with hnil | ⟨front, hfront, -⟩
      · rw [hnil]
        exact List.nil_infix
      · rw [hfront] at hk
        exact absurd (List.mem_append_right _ List.mem_cons_self) hk
    · exact h
  · intro h
    exact List.infix_cons_iff.mpr (.inr (List.infix_concat_iff.mpr (.inr h)))

theorem phraseless_quoted (body : String) : Phraseless ("\"" ++ body ++ "\"") ↔ Phraseless body := by
  have hkeys : ∀ kv ∈ transOp, '"' ∉ kv.1.toList := by decide
  refine forall₂_congr fun kv hkv => ?_
  rw [contains_quoted (hkeys kv hkv)]

theorem targetPattern_quote {cs m n : List Char} (h : betweenMatch cs = some (m, n)) :
    '"' ∉ (targetPattern (String.ofList m) (String.ofList n)).toList := by
  obtain ⟨hm, hn⟩ := betweenMatch_digits h
  have hdigits : ∀ {w : String}, PyStr.isdigit w = true → '"' ∉ w.toList := fun hw hmem =>
    absurd ((isdigit_iff.mp hw).2 _ hmem) (by decide)
  have hkeys : '"' ∉ "BETWEEN ".toList ∧ '"' ∉ " and ".toList := by decide
  simp only [targetPattern, String.toList_append, List.mem_append, not_or]
  exact ⟨⟨⟨hkeys.1, hdigits hm⟩, hkeys.2⟩, hdigits hn⟩

theorem literal_text {text : String} (h : PyStr.Trimmed (collapse text).toList) :
    (Operand.literal (PyStr.splitWs text)).text = "\"" ++ collapse text ++ "\"" := by
  rw [Operand.text, join_splitWs h]

theorem quote_not_mem_collapse {text : String} (h : '"' ∉ text.toList) : '"' ∉ (collapse text).toList := by
  intro hmem
  rw [collapse, String.toList_ofList] at hmem
  rcases mem_collapseFrom hmem with hblank | hmem
  · cases hblank
  · exact h hmem

/-! ## Literals that survive are clear -/

theorem trimmed_truths : ∀ s ∈ truths, PyStr.Trimmed s.toList := by
  have hkeys : ∀ s ∈ truths, s.toList.all fun c => !PyStr.isspace c := by decide
  exact fun s hs => trimmed_of_unspaced fun c hc => by simpa using List.all_eq_true.mp (hkeys s hs) c hc

theorem isItem_truths : ∀ s ∈ truths, IsItem (.str s) := by decide

theorem not_operator_truths : ∀ s ∈ truths, s ∉ operators := by decide

section
variable {query : String} {head : List String} {select : List Char} {ps : List Piece} {tree : Value}
  (hps : ∀ p ∈ ps, p.Proper) (hne : ps ≠ []) (hhead : IsHead head select)
  (hq : PyStr.splitWs query = head ++ ps.flatMap Piece.words)
include hps hne hhead hq

/-- What the text with the marks compiles to. -/
theorem bare_compiled (hbare : Bare head ps tree) :
    SelectRead select ∧ compileWhere (multipleReplace (whereText (bare 0 ps)) transOp) = .ok tree :=
  (query_compiled (fun p hp => (bare_proper hps 0 p hp).1) (bare_ne_nil hne 0) hhead
    (splitWs_bareQuery hps hq)).mp hbare.1

theorem clear_of_survive (hbare : Bare head ps tree)
    (h : ∃ q, getJsonQuery query = .ok q ∧ q.whereTree = fill (unmark ps) tree) : LiteralsClear ps tree := by
  obtain ⟨-, hcompile⟩ := (query_compiled hps hne hhead hq).mp h
  obtain ⟨-, hmarked⟩ := bare_compiled hps hne hhead hq hbare
  have hmarks := hbare.2
  have hbuilt := compiled_built hmarked
  have hbuilt' := compiled_built hcompile
  have hheads : KeepsHeads (unmark ps) := fun s => unmark_head ps
  have htexts : ∀ text, .literal text ∈ ps →
      PyStr.Trimmed (collapse text).toList ∧ collapse text ∉ operators := by
    intro text htext
    obtain ⟨m, hm⟩ := exists_marked htext 0
    rcases operandText_fill hheads tree hbuilt hbuilt' m (hmarks _ hm) with hfront | ⟨hno, hends⟩
    · obtain ⟨⟨k, -, hk⟩, -⟩ := mem_marked hm
      exact absurd hk (head_ne_mark hfront k)
    rw [unmark_mark hm] at hno hends
    refine ⟨?_, (spelled_iff not_operator_truths text).mp hno⟩
    rcases hends with hends | hquote
    · exact (spelled_iff trimmed_truths text).mp hends
    · have hnone : ∀ s ∈ truths, '"' ∉ s.toList := by decide
      have hspelled := (spelled_iff hnone text).mpr (quote_not_mem_collapse (quote_not_mem hps htext))
      exact absurd hquote hspelled
  have hclosed := closed_pieces fun text htext => (htexts text htext).1
  have has := pieces_ofWords hps
  rw [← searched_pieces hps hclosed] at hcompile
  have hblanks : blanksOf (ps.map Piece.operand) ≤ blanksOf (leftParts (ps.map Piece.operand)) := by
    rw [blanksOf_pieces hps hclosed 0]
    exact Nat.le_trans (blanks_of_marks hmarks) (compiled_blanks has hcompile)
  have hkept : ∀ text, .literal text ∈ ps → Kept (ps.map Piece.operand) (PyStr.splitWs text) := fun text htext =>
    kept_of_blanks has hblanks (List.mem_map_of_mem htext)
  exact {
    ends := fun text htext => (htexts text htext).1
    names := fun text htext => (htexts text htext).2
    phrases := fun text htext => by
      have hphrases := (hkept text htext).phrases
      rwa [literal_text (htexts text htext).1, phraseless_quoted] at hphrases
    between := fun m n hmatch text htext => by
      rw [← searched_pieces hps hclosed] at hmatch
      have hbetween := (hkept text htext).between m n hmatch
      rwa [literal_text (htexts text htext).1, contains_quoted (targetPattern_quote hmatch)] at hbetween
    lists := fun p hp hlisted => by
      have hitem := isItem_fill hheads tree hbuilt hbuilt' p.1 hlisted
      rw [unmark_mark hp] at hitem
      exact (spelled_iff isItem_truths p.2).mp hitem }

end

/-! ## The marks on the stacks -/

/-- Whether a string is `m`, but for white space at its ends. -/
def occurs (m s : String) : Nat := if String.ofList (PyStr.strip s.toList) = m then 1 else 0

theorem occurs_strip (m : String) : Stripped (occurs m) := by
  intro s
  have hstrip : PyStr.strip (PyStr.strip s.toList) = PyStr.strip s.toList := (Ini.trimmed_strip s.toList).strip
  rw [occurs, String.toList_ofList, hstrip]
  exact Nat.le_refl _

theorem occurs_self {m : String} (h : PyStr.Trimmed m.toList) : occurs m m = 1 := by
  rw [occurs, h.strip, String.ofList_toList, if_pos rfl]

theorem occurs_ne {m s : String} (h : PyStr.Trimmed s.toList) (hne : s ≠ m) : occurs m s = 0 := by
  rw [occurs, h.strip, String.ofList_toList, if_neg hne]

theorem trimmed_mark (k : Nat) : PyStr.Trimmed (mark k).toList :=
  trimmed_of_unspaced (isWord_mark k).unspaced.2

theorem total_eq_zero {μ : String → Nat} {vs : List Value} (h : ∀ s ∈ stringsAll vs, μ s = 0) : total μ vs = 0 := by
  rw [total, List.sum_eq_zero_iff_forall_eq_nat]
  intro n hn
  obtain ⟨s, hs, rfl⟩ := List.mem_map.mp hn
  exact h s hs

/-- The strings of a plain word have no white space. -/
theorem plain_trimmed {w : String} (hw : IsWord w) {s : String} (hs : s ∈ strings (itemValue w)) :
    PyStr.Trimmed s.toList := by
  have hitem := total_blanks_item w
  rw [blanks_word hw] at hitem
  have hle : blanks s ≤ total blanks [itemValue w] := le_total (by rwa [stringsAll, stringsAll, List.append_nil])
  have hnone : blanks s = 0 := by omega
  exact trimmed_of_unspaced fun c hc => Bool.eq_false_iff.mpr (List.countP_eq_zero.mp hnone c hc)

theorem item_ne_mark {w : String} (hw : IsWord w) {s : String} (hs : s ∈ strings (itemValue w)) (k : Nat) :
    s ≠ mark k := by
  unfold itemValue at hs
  split at hs
  · rename_i hop
    rw [strings, List.mem_singleton] at hs
    rw [hs]
    exact head_ne_mark (.inl hop) k
  · exact plain_ne_mark hw hs k

/-- A mark in the item of an operand. -/
def marksIn (m : String) (a : Operand) : Nat := total (occurs m) [itemValue a.text]

theorem marksIn_plain (k : Nat) {w : String} (hw : IsWord w) : marksIn (mark k) (.plain w) = 0 := by
  refine total_eq_zero fun s hs => ?_
  rw [stringsAll, stringsAll, List.append_nil] at hs
  exact occurs_ne (plain_trimmed hw hs) (item_ne_mark hw hs k)

theorem marksIn_mark (k j : Nat) :
    marksIn (mark k) (.literal [mark j]) = if mark j = mark k then 1 else 0 := by
  have hvalue : itemValue (Operand.literal [mark j]).text = .str (mark j) := by
    have hwords : ∀ w ∈ [mark j], IsWord w := by
      intro w hw
      rw [List.mem_singleton.mp hw]
      exact isWord_mark j
    rw [itemValue, if_neg (literal_not_operator _), getOperand_literal hwords, PyStr.join, literalValue_mark]
  rw [marksIn, hvalue, total_str, occurs, (trimmed_mark j).strip, String.ofList_toList]

/-- Both rewritings leave one word as it is. -/
theorem joinPhrases_single (w : String) : joinPhrases [w] = [w] := by
  rw [joinPhrases, joinFrom, String.empty_append]

theorem dropAnd_single (m n w : String) : dropAnd m n [w] = [w] := by
  rw [dropAnd, sub]
  rfl

theorem bare_ofWords {ps : List Piece} (hps : ∀ p ∈ ps, p.Proper) (k : Nat) :
    ∀ a ∈ (bare k ps).map Piece.operand, a.OfWords :=
  pieces_ofWords fun p hp => (bare_proper hps k p hp).1

/-- The literals of the query with the marks. -/
theorem literal_mem_bare {ps : List Piece} {ls : List String} (h : .literal ls ∈ (bare 0 ps).map Piece.operand) :
    ∃ k, ls = [mark k] := by
  obtain ⟨a', ha'⟩ := renamed_left (bare_renamed ps) h
  cases ha' with
  | literal hr =>
    obtain ⟨m, text, hmem, rfl, -⟩ := hr
    obtain ⟨⟨k, -, rfl⟩, -⟩ := mem_marked hmem
    exact ⟨k, rfl⟩

theorem marksIn_bare {ps : List Piece} (hps : ∀ p ∈ ps, p.Proper) (j k : Nat) :
    (((bare k ps).map Piece.operand).map (marksIn (mark j))).sum = ((marked k ps).map Prod.fst).count (mark j) := by
  induction ps generalizing k with
  | nil => rfl
  | cons a ps ih =>
    obtain ⟨ha, hrest⟩ := List.forall_mem_cons.mp hps
    cases a with
    | word w =>
      rw [bare, List.map_cons, List.map_cons, List.sum_cons, ih hrest, Piece.operand, marksIn_plain j ha, Nat.zero_add,
        marked]
    | literal text =>
      rw [bare, List.map_cons, List.map_cons, List.sum_cons, ih hrest, Piece.operand, splitWs_mark, marksIn_mark,
        marked, List.map_cons, List.count_cons, Nat.add_comm]
      simp

/-- No mark is twice among the items. -/
theorem marks_once {ps : List Piece} (hps : ∀ p ∈ ps, p.Proper) (k : Nat) :
    total (occurs (mark k)) (((leftParts ((bare 0 ps).map Piece.operand)).map Operand.text).map itemValue) ≤ 1 := by
  have hsum : ∀ as : List Operand, total (occurs (mark k)) ((as.map Operand.text).map itemValue) =
      (as.map (marksIn (mark k))).sum := by
    intro as
    induction as with
    | nil => rfl
    | cons a as ih => rw [List.map_cons, List.map_cons, total_cons, ih, List.map_cons, List.sum_cons, marksIn]
  have hsame : ∀ ls, .literal ls ∈ (bare 0 ps).map Piece.operand →
      joinPhrases ls = ls ∧ ∀ m n, dropAnd m n ls = ls := by
    intro ls hls
    obtain ⟨j, rfl⟩ := literal_mem_bare hls
    exact ⟨joinPhrases_single _, fun m n => dropAnd_single m n _⟩
  rw [hsum, sum_leftParts (fun w hw => marksIn_plain k hw) (bare_ofWords hps 0) hsame, marksIn_bare hps]
  exact List.nodup_iff_count_le_one.mp (marked_nodup 0 ps) _

/-! ## Clear literals survive -/

/-- No string of a list becomes a bracket or a comma: the marks of the tree are not beside
it as well. -/
theorem lists_kept {ps : List Piece} (hps : ∀ p ∈ ps, p.Proper) {st : List String × List Value} {tree : Value}
    {stack : List Value}
    (hloop : (turned (joinWords (wordsOf (searched ((bare 0 ps).map Piece.operand))))).foldlM shuntToken ([], []) =
      .ok st)
    (hstack : st.2.foldlM evalToken [] = .ok (tree :: stack)) (hmarks : ∀ p ∈ marked 0 ps, p.1 ∈ strings tree)
    (hlists : ∀ p ∈ marked 0 ps, p.1 ∈ listed tree → IsItem (.str (collapse p.2))) :
    ListsKept (unmark ps) (tree :: stack) := by
  have hbuilt := compileWhere_built hloop hstack
  intro v hv s hs
  by_cases hmark : ∃ p ∈ marked 0 ps, s = p.1
  · obtain ⟨p, hp, rfl⟩ := hmark
    rw [unmark_mark hp]
    refine (spelled_iff isItem_truths p.2).mpr ?_
    rcases List.mem_cons.mp hv with rfl | hv
    · exact hlists p hp hs
    · obtain ⟨⟨k, -, hk⟩, -⟩ := mem_marked hp
      have hzero : ∀ w ∈ ["(", ")"], occurs (mark k) w = 0 := by
        have htrim : ∀ w ∈ ["(", ")"], w ∈ operators ∧ w.toList.all fun c => !PyStr.isspace c := by decide
        intro w hw
        obtain ⟨hop, hspace⟩ := htrim w hw
        refine occurs_ne (trimmed_of_unspaced fun c hc => ?_) (head_ne_mark (.inl hop) k)
        simpa using List.all_eq_true.mp hspace c hc
      have htotal := runs_total (occurs_strip (mark k)) ((hzero "(" (by simp)).trans (hzero ")" (by simp)).symm)
        (hzero ")" (by simp)) hloop hstack
      rw [joinWords_leftParts (bare_ofWords hps 0), total_cons] at htotal
      have honce := marks_once hps k
      have htree : occurs (mark k) (mark k) ≤ total (occurs (mark k)) [tree] :=
        le_total (mem_stringsAll.mpr ⟨tree, List.mem_cons_self, hk ▸ hmarks p hp⟩)
      have hbelow : occurs (mark k) (mark k) ≤ total (occurs (mark k)) stack :=
        le_total (mem_stringsAll.mpr ⟨v, hv, hk ▸ strings_of_listed v hs⟩)
      rw [occurs_self (trimmed_mark k)] at htree hbelow
      omega
  · have hother : unmark ps s = s := unmark_none fun p hp he => hmark ⟨p, hp, he⟩
    have hid : fill id v = v := fill_other v fun _ _ => rfl
    have hitem := isItem_fill (fun _ _ => rfl) v (hbuilt v hv) (hid.symm ▸ hbuilt v hv) s hs
    rw [hother]
    exact hitem

section
variable {ps : List Piece} {tree : Value} (hps : ∀ p ∈ ps, p.Proper) (hclear : LiteralsClear ps tree)
include hps hclear

theorem leftParts_clear : List.Forall₂ (Renamed (MarkedAs ps)) (leftParts ((bare 0 ps).map Piece.operand))
    (leftParts (ps.map Piece.operand)) := by
  have hclosed := closed_pieces hclear.ends
  refine leftParts_renamed (bare_renamed ps) (bare_ofWords hps 0) (pieces_ofWords hps) ?_ ?_ ?_
  · rintro ls ls' ⟨m, text, hmem, rfl, rfl⟩
    have htext := (mem_marked hmem).2
    refine ⟨joinPhrases_single m, joinPhrases_kept (isWord_splitWs (quote_not_mem hps htext)) ?_⟩
    rw [literal_text (hclear.ends text htext), phraseless_quoted]
    exact hclear.phrases text htext
  · rintro ls ls' ⟨m, text, hmem, rfl, rfl⟩
    obtain ⟨⟨k, -, rfl⟩, -⟩ := mem_marked hmem
    refine Option.eq_none_iff_forall_ne_some.mpr fun r hr => ?_
    have hin := PyStr.containsList_iff_infix.mp (betweenMatch_contains (a := r.1) (b := r.2) hr)
    have hmemB : 'B' ∈ (mark k).toList := hin.subset (by simp [targetPattern])
    exact absurd (mem_mark hmemB) (by decide)
  · rintro m n hmatch ls ls' ⟨w, text, hmem, rfl, rfl⟩
    have htext := (mem_marked hmem).2
    obtain ⟨hm, hn⟩ := betweenMatch_digits hmatch
    have hcontains : PyStr.contains (Operand.literal (PyStr.splitWs text)).text
        (targetPattern (String.ofList m) (String.ofList n)) = false := by
      rw [literal_text (hclear.ends text htext), contains_quoted (targetPattern_quote hmatch)]
      rw [searched_pieces hps hclosed] at hmatch
      exact hclear.between m n hmatch text htext
    exact ⟨⟨dropAnd_single _ _ w, dropAnd_kept hm hn (isWord_splitWs (quote_not_mem hps htext)) hcontains⟩, hcontains⟩

theorem items_alike : List.Forall₂ (Alike (unmark ps))
    ((leftParts ((bare 0 ps).map Piece.operand)).map Operand.text)
    ((leftParts (ps.map Piece.operand)).map Operand.text) := by
  rw [List.forall₂_map_left_iff, List.forall₂_map_right_iff]
  have hwords := leftParts_ofWords (bare_ofWords hps 0)
  refine ((List.forall₂_and_left _ _).mpr ⟨hwords, leftParts_clear hps hclear⟩).imp ?_
  rintro a a' ⟨ha, hrenamed⟩
  have hvalue := getOperand_renamed hrenamed ha fun text htext =>
    ⟨quote_not_mem hps htext, hclear.ends text htext⟩
  cases hrenamed with
  | plain w =>
    by_cases hop : w ∈ operators
    · exact .inl ⟨hop, rfl⟩
    · exact .inr ⟨hop, hop, hvalue⟩
  | literal hr => exact .inr ⟨literal_not_operator _, literal_not_operator _, hvalue⟩

/-- An operand of the query with the marks is one of them, or has none in it. -/
theorem left_value {w : String} (hw : w ∈ (leftParts ((bare 0 ps).map Piece.operand)).map Operand.text)
    (hno : w ∉ operators) :
    (∀ s ∈ strings (getOperand w), unmark ps s = s ∧ PyStr.Trimmed s.toList) ∨
      ∃ m text, (m, text) ∈ marked 0 ps ∧ getOperand w = .str m := by
  obtain ⟨a, ha, rfl⟩ := List.mem_map.mp hw
  have hwords := leftParts_ofWords (bare_ofWords hps 0) a ha
  obtain ⟨a', hrenamed⟩ := renamed_left (leftParts_clear hps hclear) ha
  cases hrenamed with
  | plain w =>
    have hno : w ∉ operators := hno
    refine .inl fun s hs => ⟨unmark_other (plain_ne_mark hwords hs), plain_trimmed hwords ?_⟩
    rwa [itemValue, if_neg hno]
  | literal hr =>
    obtain ⟨m, text, hmem, rfl, rfl⟩ := hr
    obtain ⟨⟨k, -, rfl⟩, -⟩ := mem_marked hmem
    refine .inr ⟨mark k, text, hmem, ?_⟩
    rw [getOperand_literal hwords, PyStr.join, literalValue_mark]

end

section
variable {query : String} {head : List String} {select : List Char} {ps : List Piece} {tree : Value}
  (hps : ∀ p ∈ ps, p.Proper) (hne : ps ≠ []) (hhead : IsHead head select)
  (hq : PyStr.splitWs query = head ++ ps.flatMap Piece.words)
include hps hne hhead hq

theorem survive_of_clear (hbare : Bare head ps tree) (hclear : LiteralsClear ps tree) :
    ∃ q, getJsonQuery query = .ok q ∧ q.whereTree = fill (unmark ps) tree := by
  obtain ⟨hread, hmarked⟩ := bare_compiled hps hne hhead hq hbare
  have hproper := bare_proper hps 0
  rw [← searched_pieces (fun p hp => (hproper p hp).1) (fun p hp => (hproper p hp).2)] at hmarked
  obtain ⟨st, stack, hloop, hstack⟩ := compileWhere_runs.mp hmarked
  have hlists := lists_kept hps hloop hstack hbare.2 hclear.lists
  rw [joinWords_leftParts (bare_ofWords hps 0)] at hloop
  have htext : ∀ {m text : String}, (m, text) ∈ marked 0 ps →
      operator? (.str m) = none ∧ operator? (.str (spelled text)) = none ∧
        PyStr.Trimmed m.toList ∧ PyStr.Trimmed (spelled text).toList := by
    intro m text hmem
    obtain ⟨⟨k, -, rfl⟩, hliteral⟩ := mem_marked hmem
    have hno := (spelled_iff not_operator_truths text).mpr (hclear.names text hliteral)
    refine ⟨if_neg (mark_not_operator k), if_neg hno, trimmed_mark k, ?_⟩
    exact (spelled_iff trimmed_truths text).mpr (hclear.ends text hliteral)
  obtain ⟨st', hloop', hstack'⟩ := runs_fill (keeps_unmark ps) (items_alike hps hclear) hloop hstack
    (fun w hw hno => by
      rcases left_value hps hclear hw hno with hplain | ⟨m, text, hmem, hvalue⟩
      · rw [fill_other _ fun s hs => (hplain s hs).1]
      · rw [hvalue, fill, unmark_mark hmem, (htext hmem).1, (htext hmem).2.1])
    (fun w hw hno s hs => by
      rcases left_value hps hclear hw hno with hplain | ⟨m, text, hmem, hvalue⟩
      · obtain ⟨hsame, htrim⟩ := hplain s (by rw [hs, strings, List.mem_singleton])
        rw [htrim.strip, String.ofList_toList, hsame, htrim.strip, String.ofList_toList]
      · rw [hvalue] at hs
        obtain rfl := Value.str.inj hs
        obtain ⟨-, -, htrim, htrim'⟩ := htext hmem
        rw [htrim.strip, String.ofList_toList, unmark_mark hmem, htrim'.strip, String.ofList_toList])
    hlists
  refine (query_compiled hps hne hhead hq).mpr ⟨hread, ?_⟩
  rw [← searched_pieces hps (closed_pieces hclear.ends)]
  refine compileWhere_runs.mpr ⟨st', fillAll (unmark ps) stack, ?_, hstack'⟩
  rw [joinWords_leftParts (pieces_ofWords hps)]
  exact hloop'

end

/-- The literals of a query survive exactly where the query with a word for each has all
of these words in its tree, and the literals are clear there. -/
theorem literalsSurvive_iff {query : String} {head : List String} {select : List Char} {ps : List Piece}
    (hps : ∀ p ∈ ps, p.Proper) (hne : ps ≠ []) (hhead : IsHead head select)
    (hq : PyStr.splitWs query = head ++ ps.flatMap Piece.words) :
    LiteralsSurvive query head ps ↔ ∃ tree, Bare head ps tree ∧ LiteralsClear ps tree :=
  exists_congr fun _ => and_congr_right fun hbare =>
    ⟨clear_of_survive hps hne hhead hq hbare, survive_of_clear hps hne hhead hq hbare⟩

/-- `x = "c  AND  d" AND t.y IN [ "e" , "True" ]` -/
def andInList : List Piece :=
  [.word "x", .word "=", .literal "c  AND  d", .word "AND", .word "t.y", .word "IN", .word "[", .literal "e",
    .word ",", .literal "True", .word "]"]

/-- Its tree with the marks. -/
def andInTree : Value :=
  .list [.str "AND", .list [.str "=", .list [.str ".x"], .str "x"],
    .list [.str "IN", .str "t.y", .list [.str "xx", .str "xxx"]]]

theorem bare_andInList : Bare ["SELECT", "a", "FROM", "b", "WHERE"] andInList andInTree := by
  have hjson : getJsonQuery (bareQuery ["SELECT", "a", "FROM", "b", "WHERE"] andInList) =
      .ok ⟨[[".a"]], andInTree, "\"False\""⟩ := rfl
  refine ⟨⟨_, hjson, rfl⟩, ?_⟩
  decide

theorem clear_andInList : LiteralsClear andInList andInTree := by
  have hmem : ∀ {P : String → Prop}, P "c  AND  d" → P "e" → P "True" →
      ∀ text, .literal text ∈ andInList → P text := by
    intro P hand he htrue text htext
    simp only [andInList, List.mem_cons, List.not_mem_nil, or_false, reduceCtorEq, false_or,
      Piece.literal.injEq] at htext
    rcases htext with rfl | rfl | rfl
    · exact hand
    · exact he
    · exact htrue
  have hends : ∀ {text : String} (ws : List String), (∀ w ∈ ws, IsWord w) → collapse text = PyStr.join " " ws →
      PyStr.Trimmed (collapse text).toList := by
    intro text ws hws htext
    rw [htext]
    exact trimmed_join fun w hw => (hws w hw).unspaced
  have hnone : betweenMatch (multipleReplace (whereText andInList) transOp).toList = none := by decide
  exact {
    ends := hmem (hends ["c", "AND", "d"] (by decide) (by decide)) (hends ["e"] (by decide) (by decide))
      (hends ["True"] (by decide) (by decide))
    names := hmem (by decide) (by decide) (by decide)
    phrases := hmem (by decide) (by decide) (by decide)
    between := fun m n h => absurd (hnone.symm.trans h) (by simp)
    lists := by decide }

theorem literalsSurvive_andInList :
    LiteralsSurvive "SELECT a FROM b WHERE x = \"c  AND  d\" AND t.y IN [ \"e\" , \"True\" ]"
      ["SELECT", "a", "FROM", "b", "WHERE"] andInList ∧
    fill (unmark andInList) andInTree =
      .list [.str "AND", .list [.str "=", .list [.str ".x"], .str "c AND d"],
        .list [.str "IN", .str "t.y", .list [.str "e", .str "true"]]] :=
  ⟨(literalsSurvive_iff (by decide) (by decide) isHead_selectA (by decide)).mpr
    ⟨andInTree, bare_andInList, clear_andInList⟩, rfl⟩

/-- `x = "c IS NOT d"` -/
def isNotText : List Piece := [.word "x", .word "=", .literal "c IS NOT d"]

/-- The phrase is put together in the literal as well, and `"AND"` by itself is taken for
the operator. -/
theorem isNotText_lost :
    (∀ p ∈ isNotText, p.Proper) ∧ isNotText ≠ [] ∧ IsHead ["SELECT", "a", "FROM", "b", "WHERE"] ['a'] ∧
      PyStr.splitWs "SELECT a FROM b WHERE x = \"c IS NOT d\"" =
        ["SELECT", "a", "FROM", "b", "WHERE"] ++ isNotText.flatMap Piece.words ∧
      getJsonQuery "SELECT a FROM b WHERE x = \"c IS NOT d\"" = .ok ⟨[[".a"]],
        .list [.str "=", .list [.str ".x"], .str "c IS-NOT d"], "\"False\""⟩ ∧
      ¬ LiteralsSurvive "SELECT a FROM b WHERE x = \"c IS NOT d\"" ["SELECT", "a", "FROM", "b", "WHERE"]
        isNotText ∧
      getJsonQuery "SELECT a FROM b WHERE x = \"AND\"" = .error .indexError := by
  have hps : ∀ p ∈ isNotText, p.Proper := by decide
  have hq : PyStr.splitWs "SELECT a FROM b WHERE x = \"c IS NOT d\"" =
      ["SELECT", "a", "FROM", "b", "WHERE"] ++ isNotText.flatMap Piece.words := by decide
  refine ⟨hps, by decide, isHead_selectA, hq, rfl, ?_, rfl⟩
  rintro ⟨tree, hbare, hsurvive⟩
  have hclear := clear_of_survive hps (by decide) isHead_selectA hq hbare hsurvive
  exact absurd (hclear.phrases "c IS NOT d" (by decide)) (by decide)

end MobileTestkit.L3.RqgParser
