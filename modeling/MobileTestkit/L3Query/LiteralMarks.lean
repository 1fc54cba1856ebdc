import MobileTestkit.L3Query.FilledTrees
import MobileTestkit.L3Query.ItemValues
import MobileTestkit.L3Query.LiteralParts

/-!
# Marks for literals

A query with a word of its own in the place of each literal, and the literals back in the
place of these words.

* `bare`: the literals are replaced by words of letters `x`, each of another length.
* `unmark`: such a word stands for its literal, and every other string for itself.
-/
namespace MobileTestkit.L3.RqgParser

open MobileTestkit.Core
open MobileTestkit.L3.WhereOperators (IsItem)

/-! ## The words -/

/-- A word of letters `x` only. -/
def mark (k : Nat) : String := String.ofList (List.replicate (k + 1) 'x')

theorem toList_mark (k : Nat) : (mark k).toList = List.replicate (k + 1) 'x' := String.toList_ofList

theorem mark_injective {j k : Nat} (h : mark j = mark k) : j = k := by
  have hlen := congrArg (fun s => s.toList.length) h
  simpa [toList_mark] using hlen

theorem mem_mark {k : Nat} {c : Char} (hc : c ∈ (mark k).toList) : c = 'x' := by
  rw [toList_mark] at hc
  exact List.eq_of_mem_replicate hc

theorem ne_mark {s : String} (h : 'x' ∉ s.toList) (k : Nat) : s ≠ mark k := by
  rintro rfl
  exact h (by rw [toList_mark]; simp)

theorem isWord_mark (k : Nat) : IsWord (mark k) := by
  refine ⟨ne_mark (by simp) k |>.symm, fun c hc => ?_⟩
  rw [mem_mark hc]
  decide

theorem isalpha_mark (k : Nat) : PyStr.isalpha (mark k) = true := by
  refine Bool.and_eq_true_iff.mpr ⟨by simp [toList_mark], List.all_eq_true.mpr fun c hc => ?_⟩
  rw [mem_mark hc]
  decide

theorem splitWs_mark (k : Nat) : PyStr.splitWs (mark k) = [mark k] := by
  have hword : ∀ w ∈ [mark k], w ≠ "" ∧ ∀ c ∈ w.toList, PyStr.isspace c = false := by
    intro w hw
    rw [List.mem_singleton.mp hw]
    exact (isWord_mark k).unspaced
  have hjoin := PyStr.splitWs_join hword
  rwa [PyStr.join] at hjoin

theorem mark_not_operator (k : Nat) : mark k ∉ operators := by
  have hops : ∀ op ∈ operators, 'x' ∉ op.toList := by decide
  exact fun hmem => ne_mark (hops _ hmem) k rfl

/-- No string in front of a node is a mark. -/
theorem head_ne_mark {s : String} (h : Head s) (k : Nat) : s ≠ mark k := by
  rintro rfl
  rcases h with h | h
  · exact mark_not_operator k h
  · have hdot : ".".toList = ['.'] := by decide
    obtain ⟨cs, hcs⟩ := List.isPrefixOf_iff_prefix.mp h
    rw [hdot] at hcs
    have hmem : '.' ∈ (mark k).toList := by
      rw [← hcs]
      simp
    exact absurd (mem_mark hmem) (by decide)

/-! ## Literals and their marks -/

/-- What a literal is in the tree. -/
def spelled (text : String) : String :=
  if collapse text = "True" ∨ collapse text = "true" then "true"
  else if collapse text = "False" ∨ collapse text = "false" then "false"
  else collapse text

/-- The literals with their marks; `k` is the length of the first one, less one. -/
def marked : Nat → List Piece → List (String × String)
  | _, [] => []
  | k, .word _ :: ps => marked k ps
  | k, .literal text :: ps => (mark k, text) :: marked (k + 1) ps

/-- The marks for the literals. -/
def bare : Nat → List Piece → List Piece
  | _, [] => []
  | k, .word w :: ps => .word w :: bare k ps
  | k, .literal _ :: ps => .literal (mark k) :: bare (k + 1) ps

/-- The literals for the marks. -/
def unmark (ps : List Piece) (s : String) : String := ((marked 0 ps).lookup s).elim s spelled

theorem mem_marked {k : Nat} {ps : List Piece} {p : String × String} (h : p ∈ marked k ps) :
    (∃ j, k ≤ j ∧ p.1 = mark j) ∧ .literal p.2 ∈ ps := by
  induction ps generalizing k with
  | nil => cases h
  | cons a ps ih =>
    cases a with
    | word w => exact ⟨(ih h).1, List.mem_cons_of_mem _ (ih h).2⟩
    | literal text =>
      rcases List.mem_cons.mp h with rfl | h
      · exact ⟨⟨k, Nat.le_refl k, rfl⟩, List.mem_cons_self⟩
      · obtain ⟨⟨j, hj, hp⟩, hmem⟩ := ih h
        exact ⟨⟨j, by omega, hp⟩, List.mem_cons_of_mem _ hmem⟩

theorem exists_marked {ps : List Piece} {text : String} (h : .literal text ∈ ps) (k : Nat) :
    ∃ m, (m, text) ∈ marked k ps := by
  induction ps generalizing k with
  | nil => cases h
  | cons a ps ih =>
    cases a with
    | word w =>
      rcases List.mem_cons.mp h with h | h
      · cases h
      · exact ih h k
    | literal text' =>
      rcases List.mem_cons.mp h with h | h
      · cases h
        exact ⟨mark k, List.mem_cons_self⟩
      · exact (ih h (k + 1)).imp fun m hm => List.mem_cons_of_mem _ hm

theorem marked_nodup (k : Nat) (ps : List Piece) : ((marked k ps).map Prod.fst).Nodup := by
  induction ps generalizing k with
  | nil => simp [marked]
  | cons a ps ih =>
    cases a with
    | word w => exact ih k
    | literal text =>
      rw [marked, List.map_cons, List.nodup_cons]
      refine ⟨fun hmem => ?_, ih (k + 1)⟩
      obtain ⟨p, hp, hmark⟩ := List.mem_map.mp hmem
      obtain ⟨⟨j, hj, hp⟩, -⟩ := mem_marked hp
      have := mark_injective (hmark.symm.trans hp)
      omega

theorem unmark_mark {ps : List Piece} {m text : String} (h : (m, text) ∈ marked 0 ps) :
    unmark ps m = spelled text := by
  obtain ⟨front, back, hsplit⟩ := List.append_of_mem h
  have hnodup := marked_nodup 0 ps
  rw [hsplit, List.map_append, List.map_cons, List.nodup_append] at hnodup
  have hlookup : (marked 0 ps).lookup m = some text := by
    refine List.lookup_eq_some_iff.mpr ⟨front, back, hsplit, fun p hp => ?_⟩
    have hne := hnodup.2.2 p.1 (List.mem_map_of_mem hp) m List.mem_cons_self
    simpa using hne.symm
  rw [unmark, hlookup]
  rfl

theorem unmark_none {ps : List Piece} {s : String} (h : ∀ p ∈ marked 0 ps, s ≠ p.1) : unmark ps s = s := by
  have hlookup : (marked 0 ps).lookup s = none := by
    rw [List.lookup_eq_none_iff]
    exact fun p hp => by simpa using h p hp
  rw [unmark, hlookup]
  rfl

theorem unmark_other {ps : List Piece} {s : String} (h : ∀ k, s ≠ mark k) : unmark ps s = s := by
  refine unmark_none fun p hp => ?_
  obtain ⟨⟨k, -, hk⟩, -⟩ := mem_marked hp
  rw [hk]
  exact h k

theorem unmark_head (ps : List Piece) {s : String} (h : Head s) : unmark ps s = s :=
  unmark_other (head_ne_mark h)

theorem keeps_unmark (ps : List Piece) : Keeps (unmark ps) where
  operator op hop := unmark_head ps (.inl hop)
  bracket s hs := by
    have hkeys : ∀ s ∈ ["[", ",", "]"], 'x' ∉ s.toList := by decide
    exact unmark_other (ne_mark (hkeys s hs))

/-! ## The literals in the tree -/

/-- A literal of a mark, and the literal itself. -/
def MarkedAs (ps : List Piece) (ls ls' : List String) : Prop :=
  ∃ m text, (m, text) ∈ marked 0 ps ∧ ls = [m] ∧ ls' = PyStr.splitWs text

theorem bare_renamed (ps : List Piece) :
    List.Forall₂ (Renamed (MarkedAs ps)) ((bare 0 ps).map Piece.operand) (ps.map Piece.operand) := by
  have key : ∀ (rest : List Piece) (k : Nat), (∀ p ∈ marked k rest, p ∈ marked 0 ps) →
      List.Forall₂ (Renamed (MarkedAs ps)) ((bare k rest).map Piece.operand) (rest.map Piece.operand) := by
    intro rest
    induction rest with
    | nil => exact fun _ _ => .nil
    | cons a rest ih =>
      intro k h
      cases a with
      | word w =>
        rw [bare, List.map_cons, List.map_cons]
        exact .cons (.plain w) (ih k h)
      | literal text =>
        obtain ⟨hmem, h⟩ := List.forall_mem_cons.mp h
        rw [bare, List.map_cons, List.map_cons]
        refine .cons ?_ (ih (k + 1) h)
        exact .literal ⟨mark k, text, hmem, splitWs_mark k, rfl⟩
  exact key ps 0 fun p hp => hp

theorem literalValue_collapse (text : String) : literalValue (collapse text) = .str (spelled text) := by
  unfold literalValue spelled
  split
  · rfl
  split
  · rfl
  · rfl

/-- The texts that are spelled another way. -/
def truths : List String := ["True", "true", "False", "false"]

theorem spelled_cases (text : String) :
    (collapse text ∈ truths ∧ spelled text ∈ truths) ∨ spelled text = collapse text := by
  unfold spelled
  split
  · rename_i h
    refine .inl ⟨?_, by decide⟩
    rcases h with h | h
    all_goals
      rw [h]
      decide
  split
  · rename_i h
    refine .inl ⟨?_, by decide⟩
    rcases h with h | h
    all_goals
      rw [h]
      decide
  · exact .inr rfl

/-- What those have in common the spelling keeps. -/
theorem spelled_iff {P : String → Prop} (hP : ∀ s ∈ truths, P s) (text : String) :
    P (spelled text) ↔ P (collapse text) := by
  rcases spelled_cases text with ⟨hcollapse, hspelled⟩ | h
  · exact iff_of_true (hP _ hspelled) (hP _ hcollapse)
  · rw [h]

theorem literalValue_mark (k : Nat) : literalValue (mark k) = .str (mark k) := by
  have hkeys : ∀ s ∈ truths, 'x' ∉ s.toList := by decide
  have hne : ∀ s ∈ truths, mark k ≠ s := fun s hs => (ne_mark (hkeys s hs) k).symm
  have hyes : ¬ (mark k = "True" ∨ mark k = "true") := by
    rintro (h | h)
    all_goals exact hne _ (by simp [truths]) h
  have hno : ¬ (mark k = "False" ∨ mark k = "false") := by
    rintro (h | h)
    all_goals exact hne _ (by simp [truths]) h
  rw [literalValue, if_neg hyes, if_neg hno]

/-- The strings of a plain word are no marks. -/
theorem plain_ne_mark {w : String} (hw : IsWord w) {s : String} (hs : s ∈ strings (getOperand w)) (k : Nat) :
    s ≠ mark k := by
  have hquote : ¬ PyStr.startswith w "\"" = true := by
    rw [startswith_quote_false hw.no_quote]
    decide
  have hdot : ∀ u : String, s ∈ strings (.list [.str ("." ++ u)]) → s ≠ mark k := by
    intro u hu
    have hs : s = "." ++ u := by simpa [strings, stringsAll] using hu
    have hlist : ("." ++ u).toList = '.' :: u.toList := by simp
    rw [hs]
    exact head_ne_mark (.inr (PyStr.startswith_char hlist (by decide))) k
  have hdollar : ".\"$\"" = "." ++ "\"$\"" := by decide
  have hid : "._id" = "." ++ "_id" := by decide
  unfold getOperand at hs
  rw [if_neg hquote] at hs
  split at hs
  · rw [hdollar, String.append_assoc] at hs
    exact hdot _ hs
  split at hs
  · cases hs
  split at hs
  · rw [hid] at hs
    exact hdot _ hs
  split at hs
  · rw [strings, List.mem_singleton] at hs
    rw [hs]
    exact ne_mark (by decide) k
  split at hs
  · exact hdot w hs
  · rename_i halpha
    rw [strings, List.mem_singleton] at hs
    rw [hs]
    rintro rfl
    exact halpha (isalpha_mark k)

/-- The mark stands for the literal, and a plain word for itself. -/
theorem getOperand_renamed {ps : List Piece} {a a' : Operand} (h : Renamed (MarkedAs ps) a a') (ha : a.OfWords)
    (hclosed : ∀ text, .literal text ∈ ps → '"' ∉ text.toList ∧ PyStr.Trimmed (collapse text).toList) :
    getOperand a'.text = fill (unmark ps) (getOperand a.text) := by
  cases h with
  | plain w =>
    exact (fill_other _ fun s hs => unmark_other (plain_ne_mark ha hs)).symm
  | literal hls =>
    obtain ⟨m, text, hmem, rfl, rfl⟩ := hls
    obtain ⟨⟨j, -, rfl⟩, hliteral⟩ := mem_marked hmem
    obtain ⟨hquote, htrim⟩ := hclosed text hliteral
    rw [getOperand_literal (isWord_splitWs hquote), join_splitWs htrim, literalValue_collapse,
      getOperand_literal ha, PyStr.join, literalValue_mark, fill, unmark_mark hmem]

end MobileTestkit.L3.RqgParser
