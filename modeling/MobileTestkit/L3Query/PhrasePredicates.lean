import MobileTestkit.L3Query.OperatorNames
import MobileTestkit.L3Query.QueryClauses

/-!
# Predicates of several words

`get_json_query` on WHERE parts that combine predicates with an operator of several
words by `AND`, `OR` and brackets.

* `yields_tokens`: the replacement makes of the words of such a clause those that
  `get_prefix_list` expects, or they are joined to something lighter.
* `phrases_compiled_iff`: every predicate becomes the node of its operator exactly
  where no operator has three words, and no phrase stands in a literal or over the
  border of two words.
-/
namespace MobileTestkit.L3.RqgParser

open MobileTestkit.Core
open MobileTestkit.Core.OpPrec
open MobileTestkit.Core.Subst

/-! ## Clauses as they are written -/

/-- The words of a predicate in a query, its operator in several words. -/
def Predicate.written : Predicate → List String
  | .cmp o x y => x.words ++ PyStr.split o.name '-' ++ y.words
  | .between x m n => x.words ++ ["BETWEEN", m, "and", n]
  | .post o x => x.words ++ PyStr.split o.name '-'

namespace Clause

def tokWritten : Tok Predicate Junction → List String
  | .opd p => p.written
  | .op j => [j.name]
  | .lpar => ["("]
  | .rpar => [")"]

/-- The words of a clause in a query. -/
def written (e : Clause) : List String := e.tokens.flatMap tokWritten

end Clause

/-- Words of an operand; a plain one is no operator. -/
def Operand.Proper : Operand → Prop
  | .plain w => IsWord w ∧ w ∉ operators
  | .literal ws => ∀ w ∈ ws, IsWord w

instance : (a : Operand) → Decidable a.Proper
  | .plain w => inferInstanceAs (Decidable (IsWord w ∧ w ∉ operators))
  | .literal ws => List.decidableBAll IsWord ws

/-- `x IS NULL`, `x IS NOT NULL`, `x IS MISSING`, `x IS NOT MISSING`, `x IS NOT y` or
`x NOT IN y`. -/
def Predicate.OfPhrase : Predicate → Prop
  | .cmp o x y => (o = .isNot ∨ o = .notIn) ∧ x.Proper ∧ y.Proper
  | .between _ _ _ => False
  | .post _ x => x.Proper

instance : (p : Predicate) → Decidable p.OfPhrase
  | .cmp o x y => inferInstanceAs (Decidable ((o = .isNot ∨ o = .notIn) ∧ x.Proper ∧ y.Proper))
  | .between _ _ _ => inferInstanceAs (Decidable False)
  | .post _ x => inferInstanceAs (Decidable x.Proper)

/-- The operator has two words, its second one is not taken for that of `IS NOT`, and
no phrase stands in an operand. -/
def Predicate.Clear : Predicate → Prop
  | .cmp o x y =>
    ¬ (o = .notIn ∧ PyStr.endswith x.text "IS" = true) ∧ Phraseless x.text ∧ Phraseless y.text
  | .between _ _ _ => True
  | .post o x => (o = .isNull ∨ o = .isMissing) ∧ Phraseless x.text

instance : (p : Predicate) → Decidable p.Clear
  | .cmp o x y => inferInstanceAs (Decidable (¬ (o = .notIn ∧ PyStr.endswith x.text "IS" = true) ∧
      Phraseless x.text ∧ Phraseless y.text))
  | .between _ _ _ => inferInstanceAs (Decidable True)
  | .post o x => inferInstanceAs (Decidable ((o = .isNull ∨ o = .isMissing) ∧ Phraseless x.text))

/-- What a predicate ends in. -/
def Predicate.ending : Predicate → String
  | .cmp _ _ y => y.text
  | .between _ _ n => n
  | .post o _ => o.name

/-- `ANY AND EVERY` stands over the border of two predicates. -/
def EveryAcross (ts : List (Tok Predicate Junction)) : Prop :=
  ∃ p q, [.opd p, .op .and, .opd q] <:+: ts ∧ PyStr.endswith p.ending "ANY" = true ∧
    PyStr.startswith q.subject.text "EVERY" = true

theorem Operand.Proper.ofWords {a : Operand} (h : a.Proper) : a.OfWords := by
  cases a with
  | plain w => exact h.1
  | literal ws => exact h

/-! ## A predicate -/

theorem literal_ends (ls : List String) : ∃ u, (Operand.literal ls).text = u ++ "\"" :=
  ⟨"\"" ++ PyStr.join " " ls, rfl⟩

theorem closing_literal {l : String} (h : ∃ u, l = u ++ "\"") : Closing l := by
  obtain ⟨u, rfl⟩ := h
  intro k hk
  have hkeys : ∀ k ∈ ["IS", "NOT", "ANY", "AND"], k.toList ≠ [] ∧ '"' ∉ k.toList := by decide
  obtain ⟨hne, hquote⟩ := hkeys k hk
  refine Bool.eq_false_iff.mpr fun hend => hquote ?_
  have hlist : ("\"" : String).toList = ['"'] := by decide
  rw [PyStr.endswith, List.isSuffixOf_iff_suffix, String.toList_append, hlist] at hend
  obtain ⟨front, hfront⟩ := suffix_concat hne hend
  rw [hfront]
  simp

/-- An operand in front of a word that no phrase goes on in. -/
theorem Yields.subject {x : Operand} (hx : x.OfWords) {v : String} (hv : Opening v) {vs want : List String}
    {ok : Prop} (h : Yields ok (joinPhrases (v :: vs)) want) :
    Yields (Phraseless x.text ∧ ok) (joinPhrases (x.words ++ v :: vs)) (x.words ++ want) := by
  rw [joinPhrases_opening x.words hv]
  exact h.operand hx

/-- An operand at the end of a predicate. -/
theorem Yields.last {y : Operand} (hy : y.OfWords) {rest want : List String} (hrest : Border rest)
    {ok : Prop} (h : Yields ok (joinPhrases rest) want) :
    Yields (Phraseless y.text ∧ ¬ Crosses y.text rest ∧ ok) (joinPhrases (y.words ++ rest))
      (y.words ++ want) := by
  cases y with
  | literal ls =>
    obtain ⟨front, q, hlast⟩ := literal_words_last ls
    have hclosing : Closing (q ++ "\"") := closing_literal ⟨q, rfl⟩
    have hno : ¬ Crosses (Operand.literal ls).text rest := fun hc =>
      absurd hc.1 (by simp [closing_literal (literal_ends ls) "ANY" (by simp)])
    have hl : (Operand.literal ls).words.getLast? = some (q ++ "\"") := by
      rw [hlast]
      simp
    have hsplit := joinPhrases_closing hl hclosing rest
    have hop := h.operand hy
    rw [hsplit]
    exact ⟨fun hok => hop.same ⟨hok.1, hok.2.2⟩, fun hok => hop.less fun hok' => hok ⟨hok'.1, hno, hok'.2⟩⟩
  | plain w =>
    have hclean : Clean w := fun c hc => hy.2 c hc
    have hw : Clean ("" ++ w) := by rwa [String.empty_append]
    have hlast := joinFrom_last hw hrest
    have hphrase : Phraseless w := phraseless_plain (IsWord.unspaced hy).no_blank
    have hfirst : joinPhrases ((Operand.plain w).words ++ rest) = joinFrom "" w rest := rfl
    rw [hfirst]
    refine ⟨fun hok => ?_, fun hok => ?_⟩
    · rw [hlast.1 hok.2.1, h.same hok.2.2, String.empty_append]
      rfl
    · have hsplit := joinedWeight_operand (a := .plain w) hy want
      rw [hsplit]
      by_cases hc : Crosses w rest
      · have hlt := hlast.2 hc
        have hle := h.le
        omega
      · have hout := joinedWeight_operand (a := .plain w) hy (joinPhrases rest)
        have hlt := h.less fun hok' => hok ⟨hphrase, hc, hok'⟩
        rw [hlast.1 hc, String.empty_append]
        show joinedWeight ((Operand.plain w).words ++ joinPhrases rest) < _
        omega

/-- A phrase by itself becomes one word. -/
theorem joinPhrases_phrase {a p : String} (h : phraseWord a p = some p) (ws : List String) :
    joinPhrases (a :: p :: ws) = (a ++ "-" ++ p) :: joinPhrases ws := by
  have hbehind : behind p p = "" := by
    have hlen : p.length = p.toList.length := rfl
    rw [behind, hlen, List.drop_length]
  rw [joinPhrases, joinFrom_phrase h, hbehind, joinFrom_empty, String.empty_append]

theorem Yields.congr {ok ok' : Prop} {out want : List String} (h : Yields ok out want) (hok : ok ↔ ok') :
    Yields ok' out want :=
  ⟨fun h' => h.same (hok.mpr h'), fun h' => h.less (mt hok.mp h')⟩

/-- An operator of two words comes out as one word. -/
theorem Yields.twoWords {a p : String} (h : phraseWord a p = some p) (hquote : '"' ∉ (a ++ "-" ++ p).toList)
    {ws want : List String} {ok : Prop} (hws : Yields ok (joinPhrases ws) want) :
    Yields ok (joinPhrases (a :: p :: ws)) ((a ++ "-" ++ p) :: want) := by
  rw [joinPhrases_phrase h]
  exact hws.cons hquote

/-- One of three words falls apart into two words, which weigh less. -/
theorem Yields.threeWords {w op : String} (hw : w = "NULL" ∨ w = "MISSING") (hop : itemWeight op = 1)
    (hquote : '"' ∉ op.toList) {ws want : List String} {ok ok' : Prop}
    (hws : Yields ok (joinPhrases ws) want) (hok' : ¬ ok') : Yields ok' (joinPhrases ("IS" :: "NOT" :: w :: ws)) (op :: want) := by
  have hends : ∀ w ∈ ["NULL", "MISSING"], ∀ t ∈ ["IS", "NOT", "ANY"], PyStr.endswith w t = false := by
    decide
  have hwords : ∀ w ∈ ["NULL", "MISSING"], '"' ∉ w.toList ∧ itemWeight w = 0 := by decide
  have hmem : w ∈ ["NULL", "MISSING"] := by simpa using hw
  obtain ⟨hplain, hweight⟩ := hwords w hmem
  refine ⟨fun h => absurd h hok', fun _ => ?_⟩
  have hnot : itemWeight "IS-NOT" = 0 := by decide
  have hle := hws.le
  have hisnot : joinPhrases ("IS" :: "NOT" :: w :: ws) = "IS-NOT" :: w :: joinPhrases ws := by
    rw [joinPhrases_phrase (by decide : phraseWord "IS" "NOT" = some "NOT"), joinPhrases_cons (hends w hmem)]
    rfl
  rw [hisnot, joinedWeight_cons (by decide), joinedWeight_cons hplain, joinedWeight_cons hquote]
  omega

theorem postOp_first (o : PostOp) : ∃ vs, PyStr.split o.name '-' = "IS" :: vs :=
  ⟨(PyStr.split o.name '-').tail, by cases o <;> decide⟩

/-- An operator behind its operand. -/
theorem Yields.postOp (o : PostOp) {ws want : List String} {ok : Prop} (h : Yields ok (joinPhrases ws) want) :
    Yields ((o = .isNull ∨ o = .isMissing) ∧ ok) (joinPhrases (PyStr.split o.name '-' ++ ws))
      (o.name :: want) := by
  cases o with
  | isNull =>
    have hsplit : PyStr.split PostOp.isNull.name '-' = ["IS", "NULL"] := by decide
    rw [hsplit]
    exact (h.twoWords (by decide : phraseWord "IS" "NULL" = some "NULL") (by decide)).congr (by simp)
  | isMissing =>
    have hsplit : PyStr.split PostOp.isMissing.name '-' = ["IS", "MISSING"] := by decide
    rw [hsplit]
    exact (h.twoWords (by decide : phraseWord "IS" "MISSING" = some "MISSING") (by decide)).congr (by simp)
  | isNotNull =>
    have hsplit : PyStr.split PostOp.isNotNull.name '-' = ["IS", "NOT", "NULL"] := by decide
    rw [hsplit]
    exact h.threeWords (.inl rfl) (by decide) (by decide) (by simp)
  | isNotMissing =>
    have hsplit : PyStr.split PostOp.isNotMissing.name '-' = ["IS", "NOT", "MISSING"] := by decide
    rw [hsplit]
    exact h.threeWords (.inr rfl) (by decide) (by decide) (by simp)

/-- `NOT IN` behind an operand: what ends in `IS` takes in the `NOT`. -/
theorem Yields.notIn {x : Operand} (hx : x.OfWords) {ws want : List String} {ok : Prop}
    (h : Yields ok (joinPhrases ws) want) :
    Yields (PyStr.endswith x.text "IS" = false ∧ Phraseless x.text ∧ ok)
      (joinPhrases (x.words ++ "NOT" :: "IN" :: ws)) (x.words ++ "NOT-IN" :: want) := by
  have htwo := h.twoWords (by decide : phraseWord "NOT" "IN" = some "IN") (by decide)
  cases x with
  | literal ls =>
    obtain ⟨front, q, hlast⟩ := literal_words_last ls
    have hclosing : Closing (q ++ "\"") := closing_literal ⟨q, rfl⟩
    have hends : PyStr.endswith (Operand.literal ls).text "IS" = false :=
      closing_literal (literal_ends ls) "IS" (by simp)
    have hl : (Operand.literal ls).words.getLast? = some (q ++ "\"") := by
      rw [hlast]
      simp
    rw [joinPhrases_closing hl hclosing]
    exact (htwo.operand hx).congr (by simp [hends])
  | plain w =>
    have hclean : Clean w := fun c hc => hx.2 c hc
    have hphrase : Phraseless w := phraseless_plain (IsWord.unspaced hx).no_blank
    have hwords : (Operand.plain w).words ++ "NOT" :: "IN" :: ws = w :: "NOT" :: "IN" :: ws := rfl
    by_cases hIS : PyStr.endswith w "IS" = true
    · -- the `IN` is left as a word of its own
      have hnot : Clean (w ++ "-NOT") := hclean.append (clean_of_all (by decide))
      have hkeys : ∀ t ∈ ["IS", "NOT", "ANY"], PyStr.endswith "IN" t = false := by decide
      have hin : itemWeight "IN" = 0 := by decide
      have hnotIn : itemWeight "NOT-IN" = 1 := by decide
      have hle := h.le
      refine ⟨fun hok => absurd hok.1 (by simp [Operand.text, hIS]), fun _ => ?_⟩
      rw [joinedWeight_operand hx, joinedWeight_cons (by decide), hwords, joinPhrases, joinFrom_not hIS,
        String.empty_append, joinedWeight_cons hnot.no_quote, itemWeight_not hnot, joinPhrases_cons hkeys,
        joinedWeight_cons (by decide)]
      omega
    · have hkept : joinPhrases (w :: "NOT" :: "IN" :: ws) = w :: joinPhrases ("NOT" :: "IN" :: ws) := by
        rw [joinPhrases, joinFrom_verb (.inl rfl) fun hv => hIS hv.1, String.empty_append]
      rw [hwords, hkept]
      exact (htwo.cons hclean.no_quote).congr (by simp [Operand.text, hIS, hphrase])

/-- A predicate, and what is behind it. -/
theorem Yields.predicate {p : Predicate} (hp : p.OfPhrase) {rest want : List String} (hrest : Border rest)
    {ok : Prop} (h : Yields ok (joinPhrases rest) want) :
    Yields (p.Clear ∧ ¬ Crosses p.ending rest ∧ ok) (joinPhrases (p.written ++ rest))
      (p.words ++ want) := by
  cases p with
  | between x m n => exact hp.elim
  | post o x =>
    have hends : ∀ o : PostOp, PyStr.endswith o.name "ANY" = false := by
      intro o
      cases o <;> decide
    have hno : ¬ Crosses o.name rest := fun hc => absurd hc.1 (by simp [hends o])
    obtain ⟨vs, hsplit⟩ := postOp_first o
    have hop := h.postOp o
    rw [hsplit, List.cons_append] at hop
    have hall := hop.subject (Operand.Proper.ofWords hp) (by decide)
    have hwritten : (Predicate.post o x).written ++ rest = x.words ++ "IS" :: (vs ++ rest) := by
      simp [Predicate.written, hsplit]
    have hwords : (Predicate.post o x).words ++ want = x.words ++ o.name :: want := by
      simp [Predicate.words]
    rw [hwritten, hwords]
    exact hall.congr (by simp [Predicate.Clear, Predicate.ending, hno]; tauto)
  | cmp o x y =>
    obtain ⟨ho, hx, hy⟩ := hp
    have hlast := h.last hy.ofWords hrest
    rcases ho with rfl | rfl
    · have hsplit : PyStr.split BinOp.isNot.name '-' = ["IS", "NOT"] := by decide
      have hop := hlast.twoWords (by decide : phraseWord "IS" "NOT" = some "NOT") (by decide)
      have hall := hop.subject hx.ofWords (by decide)
      have hwritten : (Predicate.cmp .isNot x y).written ++ rest =
          x.words ++ "IS" :: "NOT" :: (y.words ++ rest) := by
        simp [Predicate.written, hsplit]
      have hwords : (Predicate.cmp .isNot x y).words ++ want = x.words ++ "IS-NOT" :: (y.words ++ want) := by
        simp [Predicate.words, BinOp.name]
      rw [hwritten, hwords]
      exact hall.congr (by simp [Predicate.Clear, Predicate.ending]; tauto)
    · have hsplit : PyStr.split BinOp.notIn.name '-' = ["NOT", "IN"] := by decide
      have hall := hlast.notIn hx.ofWords
      have hwritten : (Predicate.cmp .notIn x y).written ++ rest =
          x.words ++ "NOT" :: "IN" :: (y.words ++ rest) := by
        simp [Predicate.written, hsplit]
      have hwords : (Predicate.cmp .notIn x y).words ++ want = x.words ++ "NOT-IN" :: (y.words ++ want) := by
        simp [Predicate.words, BinOp.name]
      rw [hwritten, hwords]
      exact hall.congr (by simp [Predicate.Clear, Predicate.ending]; tauto)

/-! ## A clause -/

theorem verb_behind {q : Predicate} (hq : q.OfPhrase) :
    ∃ v vs, q.written = q.subject.words ++ v :: vs ∧ Verb v := by
  cases q with
  | between x m n => exact hq.elim
  | post o x =>
    obtain ⟨vs, hsplit⟩ := postOp_first o
    exact ⟨"IS", vs, by rw [Predicate.written, hsplit]; rfl, .inr (by decide)⟩
  | cmp o x y =>
    have hisNot : PyStr.split BinOp.isNot.name '-' = ["IS", "NOT"] := by decide
    have hnotIn : PyStr.split BinOp.notIn.name '-' = ["NOT", "IN"] := by decide
    rcases hq.1 with rfl | rfl
    · exact ⟨"IS", "NOT" :: y.words, by simp [Predicate.written, Predicate.subject, hisNot], .inr (by decide)⟩
    · exact ⟨"NOT", "IN" :: y.words, by simp [Predicate.written, Predicate.subject, hnotIn], .inl rfl⟩

theorem Predicate.OfPhrase.subject {q : Predicate} (hq : q.OfPhrase) : q.subject.OfWords := by
  cases q with
  | between x m n => exact hq.elim
  | post o x => exact Operand.Proper.ofWords hq
  | cmp o x y => exact hq.2.1.ofWords

/-- The first word of a predicate begins with `EVERY` where its operand does, and then
its operator is behind it. -/
theorem predicate_first {q : Predicate} (hq : q.OfPhrase) (ws : List String) :
    ∃ u us, q.written ++ ws = u :: us ∧
      PyStr.startswith u "EVERY" = PyStr.startswith q.subject.text "EVERY" ∧
      (PyStr.startswith u "EVERY" = true → Clean u ∧ ∃ v vs, us = v :: vs ∧ Verb v) := by
  obtain ⟨v, vs, hwritten, hv⟩ := verb_behind hq
  have hsubject := hq.subject
  rw [hwritten]
  cases hx : q.subject with
  | plain w =>
    rw [hx] at hsubject
    exact ⟨w, v :: (vs ++ ws), by simp [Operand.words], rfl,
      fun _ => ⟨fun c hc => hsubject.2 c hc, v, _, rfl, hv⟩⟩
  | literal ls =>
    have hquote : ∀ s : String, (∃ cs, s.toList = '"' :: cs) → PyStr.startswith s "EVERY" = false := by
      rintro s ⟨cs, hs⟩
      exact PyStr.startswith_cons hs (by decide : "EVERY".toList = 'E' :: "VERY".toList) (by decide)
    have htext := hquote (Operand.literal ls).text
      ⟨(PyStr.join " " ls ++ "\"").toList, by simp [Operand.text]⟩
    obtain ⟨u, us, hu, hq⟩ : ∃ u us, (Operand.literal ls).words = u :: us ∧ ∃ cs, u.toList = '"' :: cs := by
      cases ls with
      | nil => exact ⟨_, _, rfl, ['"'], by decide⟩
      | cons w ls =>
        cases ls with
        | nil => exact ⟨_, _, rfl, (w ++ "\"").toList, by simp⟩
        | cons w' ls => exact ⟨_, _, rfl, w.toList, by simp⟩
    have hfirst := hquote u hq
    exact ⟨u, us ++ v :: vs ++ ws, by simp [hu], by rw [hfirst, htext], fun h => absurd h (by simp [hfirst])⟩

namespace Clause

/-- Where an operand is due, a word that begins with `EVERY` is that of a predicate. -/
theorem written_first {ts : List (Tok Predicate Junction)} (hts : Expr.InTurn true ts)
    (hp : ∀ p, .opd p ∈ ts → p.OfPhrase) :
    ∃ u us, ts.flatMap tokWritten = u :: us ∧ (PyStr.startswith u "EVERY" = true →
      (Clean u ∧ ∃ v vs, us = v :: vs ∧ Verb v)) ∧
      (PyStr.startswith u "EVERY" = true ↔
        ∃ q ts', ts = .opd q :: ts' ∧ PyStr.startswith q.subject.text "EVERY" = true) := by
  cases ts with
  | nil => exact hts.elim
  | cons t ts =>
    cases t with
    | opd q =>
      obtain ⟨u, us, hu, hsame, hverb⟩ :=
        predicate_first (hp q List.mem_cons_self) (ts.flatMap tokWritten)
      refine ⟨u, us, hu, hverb, ?_⟩
      rw [hsame]
      constructor
      · exact fun h => ⟨q, ts, rfl, h⟩
      · rintro ⟨q', ts', he, h⟩
        cases he
        exact h
    | lpar =>
      have hopen : ¬ PyStr.startswith "(" "EVERY" = true := by decide
      refine ⟨"(", ts.flatMap tokWritten, rfl, fun h => absurd h hopen, fun h => absurd h hopen, ?_⟩
      rintro ⟨q', ts', he, h⟩
      cases he
    | op j => exact hts.elim
    | rpar => exact hts.elim

theorem written_behind {ts : List (Tok Predicate Junction)} (hts : Expr.InTurn false ts) {u : String}
    {us : List String} (hu : ts.flatMap tokWritten = u :: us) : u ∈ ["AND", "OR", ")"] := by
  cases ts with
  | nil => cases hu
  | cons t ts =>
    cases t with
    | opd q => exact hts.elim
    | lpar => exact hts.elim
    | rpar =>
      obtain ⟨rfl, -⟩ := List.cons.inj hu
      decide
    | op j =>
      obtain ⟨rfl, -⟩ := List.cons.inj hu
      cases j <;> decide

/-- What is behind a predicate. -/
theorem border_written {ts : List (Tok Predicate Junction)} (hts : Expr.InTurn false ts)
    (hp : ∀ p, .opd p ∈ ts → p.OfPhrase) :
    Border (ts.flatMap tokWritten) ∧ ∀ last, Crosses last (ts.flatMap tokWritten) ↔
      PyStr.endswith last "ANY" = true ∧
        ∃ q ts', ts = .op .and :: .opd q :: ts' ∧ PyStr.startswith q.subject.text "EVERY" = true := by
  cases ts with
  | nil =>
    refine ⟨fun k rest he => ?_, fun last => ⟨?_, ?_⟩⟩
    · cases he
    · rintro ⟨-, u, us, he, -⟩
      cases he
    · rintro ⟨-, q, ts', he, -⟩
      cases he
  | cons t ts =>
    have hp' : ∀ p, .opd p ∈ ts → p.OfPhrase := fun p h => hp p (List.mem_cons_of_mem _ h)
    cases t with
    | opd q => exact hts.elim
    | lpar => exact hts.elim
    | rpar =>
      refine ⟨fun k rest he => ?_, fun last => ⟨?_, ?_⟩⟩
      · obtain ⟨rfl, rfl⟩ := List.cons.inj he
        refine ⟨by decide, fun u us hu hevery => ?_⟩
        have hkeys : ∀ k ∈ ["AND", "OR", ")"], ¬ PyStr.startswith k "EVERY" = true := by decide
        have hts : Expr.InTurn false ts := hts
        exact absurd hevery (hkeys u (written_behind hts hu))
      · rintro ⟨-, u, us, he, -⟩
        exact absurd (List.cons.inj he).1 (by decide)
      · rintro ⟨-, q, ts', he, -⟩
        cases he
    | op j =>
      obtain ⟨u, us, hu, hverb, hevery⟩ := written_first hts hp'
      have hwritten : (Tok.op j :: ts).flatMap tokWritten = j.name :: u :: us := by
        rw [List.flatMap_cons, hu]
        rfl
      have hand : j.name = "AND" ↔ j = .and := by cases j <;> decide
      rw [hwritten]
      refine ⟨fun k rest he => ?_, fun last => and_congr_right fun _ => ?_⟩
      · cases he
        refine ⟨by cases j <;> decide, fun u' us' he => ?_⟩
        cases he
        exact hverb
      · constructor
        · rintro ⟨u', us', he, hu'⟩
          obtain ⟨hname, hrest⟩ := List.cons.inj he
          obtain ⟨rfl, rfl⟩ := List.cons.inj hrest
          obtain ⟨q, ts', rfl, hq⟩ := hevery.mp hu'
          rw [hand.mp hname]
          exact ⟨q, ts', rfl, hq⟩
        · rintro ⟨q, ts', he, hq⟩
          cases he
          exact ⟨u, us, rfl, hevery.mpr ⟨q, ts', rfl, hq⟩⟩

theorem everyAcross_cons {t : Tok Predicate Junction} {ts : List (Tok Predicate Junction)} :
    EveryAcross (t :: ts) ↔ (∃ p, t = .opd p ∧ PyStr.endswith p.ending "ANY" = true ∧
      ∃ q ts', ts = .op .and :: .opd q :: ts' ∧ PyStr.startswith q.subject.text "EVERY" = true) ∨
        EveryAcross ts := by
  simp only [EveryAcross, List.infix_cons_iff]
  constructor
  · rintro ⟨p, q, ⟨ts', hpre⟩ | hin, hp, hq⟩
    · cases hpre
      exact .inl ⟨p, rfl, hp, q, ts', rfl, hq⟩
    · exact .inr ⟨p, q, hin, hp, hq⟩
  · rintro (⟨p, rfl, hp, q, ts', rfl, hq⟩ | ⟨p, q, hin, hp, hq⟩)
    · exact ⟨p, q, .inl ⟨ts', rfl⟩, hp, hq⟩
    · exact ⟨p, q, .inr hin, hp, hq⟩

/-- In front of the others a token of one word in which no phrase begins. -/
theorem yields_word {t : Tok Predicate Junction} {ts : List (Tok Predicate Junction)} {w : String}
    (hwritten : tokWritten t = [w]) (hwords : tokWords t = [w]) (hquote : '"' ∉ w.toList)
    (hends : ∀ k ∈ ["IS", "NOT", "ANY"], PyStr.endswith w k = false) (hne : ∀ p, t ≠ .opd p)
    (h : Yields ((∀ p, .opd p ∈ ts → p.Clear) ∧ ¬ EveryAcross ts) (joinPhrases (ts.flatMap tokWritten))
      (ts.flatMap tokWords)) :
    Yields ((∀ p, .opd p ∈ t :: ts → p.Clear) ∧ ¬ EveryAcross (t :: ts))
      (joinPhrases ((t :: ts).flatMap tokWritten)) ((t :: ts).flatMap tokWords) := by
  have hout : joinPhrases ((t :: ts).flatMap tokWritten) = w :: joinPhrases (ts.flatMap tokWritten) := by
    rw [List.flatMap_cons, hwritten]
    exact joinPhrases_cons hends _
  have hwant : (t :: ts).flatMap tokWords = w :: ts.flatMap tokWords := by
    rw [List.flatMap_cons, hwords]
    rfl
  have hnot : ∀ p, ¬ Tok.opd p = t := fun p he => hne p he.symm
  rw [hout, hwant]
  refine (h.cons hquote).congr (and_congr ?_ (not_congr ?_))
  · simp [hnot]
  · rw [everyAcross_cons]
    simp [hne]

/-- The replacement on a clause, token by token from the right. -/
theorem yields_tokens {due : Bool} {ts : List (Tok Predicate Junction)} (hts : Expr.InTurn due ts)
    (hp : ∀ p, .opd p ∈ ts → p.OfPhrase) :
    Yields ((∀ p, .opd p ∈ ts → p.Clear) ∧ ¬ EveryAcross ts) (joinPhrases (ts.flatMap tokWritten))
      (ts.flatMap tokWords) := by
  induction ts generalizing due with
  | nil =>
    refine ⟨fun _ => rfl, fun h => absurd ⟨by simp, ?_⟩ h⟩
    rintro ⟨p, q, hin, -⟩
    simp at hin
  | cons t ts ih =>
    have hp' : ∀ p, .opd p ∈ ts → p.OfPhrase := fun p h => hp p (List.mem_cons_of_mem _ h)
    cases t with
    | lpar =>
      cases due with
      | false => exact hts.elim
      | true => exact yields_word rfl rfl (by decide) (by decide) (by simp) (ih hts hp')
    | rpar =>
      cases due with
      | true => exact hts.elim
      | false => exact yields_word rfl rfl (by decide) (by decide) (by simp) (ih hts hp')
    | op j =>
      cases due with
      | true => exact hts.elim
      | false =>
        exact yields_word (w := j.name) rfl rfl (by cases j <;> decide) (by cases j <;> decide) (by simp)
          (ih hts hp')
    | opd p =>
      cases due with
      | false => exact hts.elim
      | true =>
        have hts : Expr.InTurn false ts := hts
        obtain ⟨hborder, hcrosses⟩ := border_written hts hp'
        have hall := (ih hts hp').predicate (hp p List.mem_cons_self) hborder
        rw [List.flatMap_cons, List.flatMap_cons]
        refine hall.congr ?_
        rw [hcrosses, everyAcross_cons]
        simp only [List.mem_cons, Tok.opd.injEq]
        constructor
        · rintro ⟨h1, h2, h3, h4⟩
          refine ⟨?_, ?_⟩
          · rintro q (rfl | hq)
            · exact h1
            · exact h3 q hq
          · rintro (⟨q, rfl, hq⟩ | hq)
            · exact h2 hq
            · exact h4 hq
        · rintro ⟨h1, h2⟩
          exact ⟨h1 p (.inl rfl), fun hc => h2 (.inl ⟨p, rfl, hc⟩), fun q hq => h1 q (.inr hq),
            fun hc => h2 (.inr hc)⟩

end Clause

/-! ## The items of a clause -/

theorem Operand.Proper.not_operator {a : Operand} (h : a.Proper) : a.text ∉ operators := by
  cases a with
  | plain w => exact h.2
  | literal ws => exact literal_not_operator ws

theorem joinWord_predicate {p : Predicate} (hp : p.OfPhrase) (items : List String) :
    p.words.foldl joinWord (items, "") = (items ++ p.items, "") := by
  have hsubject := joinWord_operand items hp.subject
  cases p with
  | between x m n => exact hp.elim
  | post o x =>
    have hquote : '"' ∉ o.name.toList := by cases o <;> decide
    have hwords : (Predicate.post o x).words = x.words ++ [o.name] := rfl
    rw [hwords, List.foldl_append]
    simp only [Predicate.subject] at hsubject
    rw [hsubject, List.foldl_cons, List.foldl_nil, joinWord_plain _ hquote]
    simp [Predicate.items, Predicate.subject, Predicate.op, Predicate.rest]
  | cmp o x y =>
    have hquote : '"' ∉ o.name.toList := by cases o <;> decide
    have hwords : (Predicate.cmp o x y).words = x.words ++ o.name :: y.words := rfl
    simp only [Predicate.subject] at hsubject
    rw [hwords, List.foldl_append, hsubject, List.foldl_cons, joinWord_plain _ hquote,
      joinWord_operand _ hp.2.2.ofWords]
    simp [Predicate.items, Predicate.subject, Predicate.op, Predicate.rest]

namespace Clause

/-- The words of a clause are put together to its items. -/
theorem joinWord_clause {e : Clause} (he : e.AllOpds Predicate.OfPhrase) :
    (words e).foldl joinWord ([], "") = (items e, "") := by
  have key : ∀ (ts : List (Tok Predicate Junction)) (done : List String),
      (∀ p, .opd p ∈ ts → p.OfPhrase) →
      (ts.flatMap tokWords).foldl joinWord (done, "") = (done ++ ts.flatMap tokItems, "") := by
    intro ts
    induction ts with
    | nil => simp
    | cons t ts ih =>
      intro done h
      have htok : (tokWords t).foldl joinWord (done, "") = (done ++ tokItems t, "") := by
        cases t with
        | opd p => exact joinWord_predicate (h p List.mem_cons_self) done
        | op j => exact joinWord_plain done (by cases j <;> decide)
        | lpar => exact joinWord_plain done (w := "(") (by decide)
        | rpar => exact joinWord_plain done (w := ")") (by decide)
      rw [List.flatMap_cons, List.foldl_append, htok, ih _ fun p hp => h p (List.mem_cons_of_mem _ hp)]
      simp
  exact key e.tokens [] ((Expr.allOpds_iff e).mp he)

/-- A tree weighs as much as the items of its clause. -/
theorem weight_image {e : Clause} (he : e.AllOpds Predicate.OfPhrase) :
    weight (image e) = itemsWeight (items e) := by
  induction e with
  | opd p =>
    have hop : itemValue p.op = .str p.op := by rw [itemValue, if_pos p.op_mem.1]
    have hopd : ∀ w ∈ p.subject.text :: p.rest, itemValue w = getOperand w := by
      have hproper : ∀ w ∈ p.subject.text :: p.rest, w ∉ operators := by
        intro w hw
        cases p with
        | between x m n => exact he.elim
        | post o x =>
          rw [List.mem_singleton.mp hw]
          exact Operand.Proper.not_operator he
        | cmp o x y =>
          rcases List.mem_cons.mp hw with rfl | hw
          · exact he.2.1.not_operator
          · rw [List.mem_singleton.mp hw]
            exact he.2.2.not_operator
      exact fun w hw => by rw [itemValue, if_neg (hproper w hw)]
    have hitems : items (.opd p) = p.items := by simp [items, Expr.tokens, tokItems]
    have hrest : p.rest.map itemValue = p.rest.map getOperand :=
      List.map_congr_left fun w hw => hopd w (List.mem_cons_of_mem _ hw)
    rw [hitems, itemsWeight, Predicate.items, List.map_cons, List.map_cons, hop,
      hopd _ List.mem_cons_self, hrest]
    simp only [image, Predicate.image, Predicate.operands, weight, weightAll]
    omega
  | paren e ih =>
    have hitems : items e.paren = "(" :: (items e ++ [")"]) := by simp [items, Expr.tokens, tokItems]
    have hopen : itemWeight "(" = 0 := by decide
    have hclose : itemsWeight [")"] = 0 := by decide
    have he : e.AllOpds Predicate.OfPhrase := he
    rw [hitems, itemsWeight_cons, itemsWeight_append, hopen, hclose, ← ih he]
    simp [image]
  | bin j l r ihl ihr =>
    have hitems : items (.bin j l r) = items l ++ j.name :: items r := by
      simp [items, Expr.tokens, tokItems]
    have hj : itemWeight j.name = weigh j.name := by cases j <;> decide
    rw [hitems, itemsWeight_append, itemsWeight_cons, hj, ← ihl he.1, ← ihr he.2]
    simp only [image, weight, weightAll]
    omega

/-- No operand of a sound tree is taken for an operator. -/
theorem valid_of_sound {e : Clause} (he : e.AllOpds Predicate.OfPhrase) (h : Sound (image e)) :
    e.AllOpds Predicate.Valid := by
  have hvalid : ∀ {a : Operand}, a.Proper → Sound (getOperand a.text) → a.Valid := by
    intro a ha hs
    cases a with
    | plain w => exact ⟨ha.1, ha.2, hs.not_operator⟩
    | literal ws => exact ⟨ha, hs.not_operator⟩
  induction e with
  | opd p =>
    have hopds : ∀ v ∈ p.operands, Sound v := by
      simp only [image, Predicate.image, Sound] at h
      exact soundAll_iff.mp h
    cases p with
    | between x m n => exact he.elim
    | post o x => exact hvalid he (hopds _ List.mem_cons_self)
    | cmp o x y =>
      have hy : getOperand y.text ∈ (Predicate.cmp o x y).operands := by
        simp [Predicate.operands, Predicate.rest]
      refine ⟨?_, hvalid he.2.1 (hopds _ List.mem_cons_self), hvalid he.2.2 (hopds _ hy)⟩
      rcases he.1 with rfl | rfl <;> decide
  | paren e ih => exact ih he h
  | bin j l r ihl ihr =>
    simp only [image, Sound, SoundAll] at h
    exact ⟨ihl he.1 h.1, ihr he.2 h.2.1⟩

end Clause

theorem sound_str {s : String} (h : operator? (.str s) = none) (hs : PyStr.Trimmed s.toList) :
    Sound (.str s) := by
  refine ⟨fun hm => ?_, hs⟩
  simp [operator?, hm] at h

theorem sound_operand {a : Operand} (ha : a.Proper) (h : operator? (getOperand a.text) = none) :
    Sound (getOperand a.text) := by
  have hword : ∀ {s : String}, (∀ c ∈ s.toList, PyStr.isspace c = false) → PyStr.Trimmed s.toList :=
    fun hs => ⟨fun c hc => hs c (List.mem_of_mem_head? hc), fun c hc => hs c (List.mem_of_mem_getLast? hc)⟩
  have hkeys : ∀ s ∈ ["true", "false", "null"], s.toList.all fun c => !PyStr.isspace c := by decide
  have hkey : ∀ s ∈ ["true", "false", "null"], PyStr.Trimmed s.toList := fun s hs =>
    hword fun c hc => by simpa using List.all_eq_true.mp (hkeys s hs) c hc
  cases a with
  | literal ws =>
    have ha : ∀ w ∈ ws, IsWord w := ha
    rw [getOperand_literal ha] at h ⊢
    unfold literalValue at h ⊢
    split
    · exact sound_str rfl (hkey _ (by simp))
    · split
      · exact sound_str rfl (hkey _ (by simp))
      · rename_i h1 h2
        rw [if_neg h1, if_neg h2] at h
        exact sound_str h (trimmed_join fun w hw => (ha w hw).unspaced)
  | plain w =>
    have hw : PyStr.Trimmed w.toList := hword fun c hc => (ha.1.2 c hc).1
    have hnone : operator? (.str w) = none := by simp [operator?, ha.2]
    have hquote : PyStr.startswith w "\"" = false := startswith_quote_false ha.1.no_quote
    simp only [Operand.text]
    unfold getOperand
    rw [hquote]
    split
    · simp [Sound, SoundAll]
    split
    · simp [Sound]
    split
    · simp [Sound, SoundAll]
    split
    · contradiction
    split
    · exact sound_str rfl (hkey _ (by simp))
    split
    · simp [Sound, SoundAll]
    · exact sound_str hnone hw

/-- The items of a clause are operators and the texts of its operands. -/
theorem Clause.item_cases {e : Clause} (he : e.AllOpds Predicate.OfPhrase) {w : String}
    (hw : w ∈ Clause.items e) : (w ∈ operators ∧ w ≠ "IN") ∨ ∃ a : Operand, a.Proper ∧ w = a.text := by
  obtain ⟨t, ht, hw⟩ := List.mem_flatMap.mp hw
  cases t with
  | lpar => exact .inl (by rw [List.mem_singleton.mp hw]; decide)
  | rpar => exact .inl (by rw [List.mem_singleton.mp hw]; decide)
  | op j =>
    refine .inl ?_
    rw [List.mem_singleton.mp hw]
    cases j <;> decide
  | opd p =>
    have hp := (Expr.allOpds_iff e).mp he p ht
    have hop : p.op ∈ operators ∧ p.op ≠ "IN" := ⟨p.op_mem.1, p.op_mem.2.2.2⟩
    cases p with
    | between x m n => exact hp.elim
    | post o x =>
      simp only [Clause.tokItems, Predicate.items, Predicate.rest, List.mem_cons, List.not_mem_nil,
        or_false] at hw
      rcases hw with rfl | rfl
      · exact .inr ⟨x, hp, rfl⟩
      · exact .inl hop
    | cmp o x y =>
      simp only [Clause.tokItems, Predicate.items, Predicate.rest, List.mem_cons, List.not_mem_nil,
        or_false] at hw
      rcases hw with rfl | rfl | rfl
      · exact .inr ⟨x, hp.2.1, rfl⟩
      · exact .inl hop
      · exact .inr ⟨y, hp.2.2, rfl⟩

theorem sound_of_items {query : String} {e : Clause} (he : e.AllOpds Predicate.OfPhrase)
    (hitems : joinWords (wordsOf query) = Clause.items e) {v : Value} (h : compileWhere query = .ok v) :
    Sound v := by
  refine compileWhere_sound h ?_ ?_
  · rw [hitems]
    intro hm
    rcases Clause.item_cases he hm with ⟨-, hne⟩ | ⟨a, ha, htext⟩
    · exact hne rfl
    · exact ha.not_operator (htext ▸ by decide)
  · rw [hitems]
    intro w hw hno hnone
    rcases Clause.item_cases he hw with ⟨hmem, -⟩ | ⟨a, ha, rfl⟩
    · exact absurd hmem hno
    · exact sound_operand ha hnone

/-! ## The compiled query -/

/-- What a clause has to meet: its operators are of two words, no phrase stands in a
literal or over the border of two words, no literal is the name of an operator, and no
text of a `BETWEEN` stands in one. -/
structure Clause.Clear (e : Clause) : Prop where
  predicates : e.AllOpds Predicate.Clear
  names : e.AllOpds Predicate.Valid
  borders : ¬ EveryAcross e.tokens
  between : betweenMatch (Clause.text e).toList = none

theorem Clause.inTurn (e : Clause) : Expr.InTurn true e.tokens := by
  have hnil : Expr.InTurn false ([] : List (Tok Predicate Junction)) := trivial
  have h := Expr.inTurn_tokens e hnil
  rwa [List.append_nil] at h

/-- The replaced text of a clause compiles to its tree exactly where the clause is
clear. -/
theorem compile_written_iff {e : Clause} (he : e.AllOpds Predicate.OfPhrase)
    (hws : ∀ w ∈ Clause.written e, Unspaced w) :
    compileWhere (PyStr.join " " (joinPhrases (Clause.written e))) =
      .ok (Clause.image (e.reading Junction.prec)) ↔ Clause.Clear e := by
  have hout := unspaced_joinPhrases hws
  have hyields : Yields _ (joinPhrases (Clause.written e)) (Clause.words e) :=
    Clause.yields_tokens (Clause.inTurn e) ((Expr.allOpds_iff e).mp he)
  have hjoin := Clause.joinWord_clause he
  have hitems : (∀ w ∈ Clause.words e, Unspaced w) → betweenMatch (Clause.text e).toList = none →
      joinWords (wordsOf (Clause.text e)) = Clause.items e := by
    intro hws hmatch
    rw [Clause.text, wordsOf_join_none hws hmatch, joinWords, hjoin]
  constructor
  · intro hcompile
    have hreading : (e.reading Junction.prec).AllOpds Predicate.OfPhrase := by
      rw [Expr.allOpds_iff, Expr.reading_tokens, ← Expr.allOpds_iff]
      exact he
    -- the tree is as heavy as the words that are wanted, so nothing has been lost
    have hweight : weight (Clause.image (e.reading Junction.prec)) = joinedWeight (Clause.words e) := by
      rw [Clause.weight_image hreading, joinedWeight, joinWords, hjoin, Clause.items, Clause.items,
        Expr.reading_tokens]
    have hclear := not_not.mp fun hno => by
      have hless := hyields.less hno
      have hle := compileWhere_joinedWeight hout hcompile
      omega
    have hwords := hyields.same hclear
    rw [hwords] at hcompile hout
    have hmatch : betweenMatch (Clause.text e).toList = none := not_not.mp fun hne => by
      have hlt := compileWhere_between hout (congrArg Prod.snd hjoin) hne hcompile
      omega
    have hvalid := Clause.valid_of_sound hreading (sound_of_items he (hitems hout hmatch) hcompile)
    rw [Expr.allOpds_iff, Expr.reading_tokens, ← Expr.allOpds_iff] at hvalid
    exact ⟨(Expr.allOpds_iff e).mpr hclear.1, hvalid, hclear.2, hmatch⟩
  · intro hclear
    have hwords := hyields.same ⟨(Expr.allOpds_iff e).mp hclear.predicates, hclear.borders⟩
    rw [hwords] at hout ⊢
    exact compile_clause hclear.names (Expr.reading_tokens Junction.prec e)
      (Expr.reading_disciplined Junction.prec e) (hitems hout hclear.between)

/-- The query has a tree, which is that of the clause: `AND` and `OR` over the nodes of
its predicates, each with the operator and the operands of the predicate. -/
def PhrasesCompiled (query : String) (e : Clause) : Prop :=
  ∃ q, getJsonQuery query = .ok q ∧ q.whereTree = Clause.image (e.reading Junction.prec)

/-- A query compiles to the tree of its predicates exactly where a `DISTINCT` in it is
read, and its clause is clear. -/
theorem phrases_compiled_iff {query : String} {head : List String} {select : List Char} {e : Clause}
    (he : e.AllOpds Predicate.OfPhrase) (hhead : IsHead head select)
    (hq : PyStr.splitWs query = head ++ Clause.written e) :
    PhrasesCompiled query e ↔ SelectRead select ∧ Clause.Clear e := by
  have hws : ∀ w ∈ Clause.written e, Unspaced w := fun w hw =>
    splitWs_unspaced query w (by rw [hq]; exact List.mem_append_right _ hw)
  have hne : Clause.written e ≠ [] := by
    obtain ⟨u, us, hu, -⟩ := Clause.written_first (Clause.inTurn e) ((Expr.allOpds_iff e).mp he)
    rw [Clause.written, hu]
    simp
  rw [← compile_written_iff he hws]
  exact getJsonQuery_tree_iff hq hhead hne

/-- `x IS NULL AND ( y NOT IN "c d" OR z IS NOT w )` -/
def nullOrNotIn : Clause :=
  .bin .and (.opd (.post .isNull (.plain "x")))
    (.paren (.bin .or (.opd (.cmp .notIn (.plain "y") (.literal ["c", "d"])))
      (.opd (.cmp .isNot (.plain "z") (.plain "w")))))

theorem isHead_selectA : IsHead ["SELECT", "a", "FROM", "b", "WHERE"] ['a'] :=
  ⟨⟨["SELECT", "a", "FROM", "b"], "WHERE", rfl, by decide⟩, ['b'], by decide⟩

theorem phrases_compiled_nullOrNotIn :
    PhrasesCompiled "SELECT a FROM b WHERE x IS NULL AND ( y NOT IN \"c d\" OR z IS NOT w )"
      nullOrNotIn := by
  have hborders : ¬ EveryAcross nullOrNotIn.tokens := by
    rintro ⟨p, q, h, -, hq⟩
    have hmem : .opd q ∈ nullOrNotIn.tokens := h.subset (by simp)
    simp only [nullOrNotIn, Expr.tokens, List.mem_append, List.mem_cons, List.not_mem_nil, or_false,
      Tok.opd.injEq, reduceCtorEq, false_or] at hmem
    rcases hmem with rfl | rfl | rfl
    all_goals exact absurd hq (by decide)
  exact (phrases_compiled_iff (by decide) isHead_selectA (by decide)).mpr
    ⟨by decide, by decide, by decide, hborders, by decide⟩

/-- `x IS NOT NULL` -/
def isNotNull : Clause := .opd (.post .isNotNull (.plain "x"))

/-- The phrase `IS NOT` is tried before the longer one, and `NULL` is left as an operand. -/
theorem isNotNull_not_compiled :
    isNotNull.AllOpds Predicate.OfPhrase ∧ IsHead ["SELECT", "a", "FROM", "b", "WHERE"] ['a'] ∧
      PyStr.splitWs "SELECT a FROM b WHERE x IS NOT NULL" =
        ["SELECT", "a", "FROM", "b", "WHERE"] ++ Clause.written isNotNull ∧
      multipleReplace "x IS NOT NULL" transOp = "x IS-NOT NULL" ∧
      getJsonQuery "SELECT a FROM b WHERE x IS NOT NULL" = .ok ⟨[[".a"]],
        .list [.str "IS-NOT", .list [.str ".x"], .list [.str ".NULL"]], "\"False\""⟩ ∧
      ¬ PhrasesCompiled "SELECT a FROM b WHERE x IS NOT NULL" isNotNull := by
  have hjson : getJsonQuery "SELECT a FROM b WHERE x IS NOT NULL" = .ok ⟨[[".a"]],
      .list [.str "IS-NOT", .list [.str ".x"], .list [.str ".NULL"]], "\"False\""⟩ := rfl
  refine ⟨by decide, isHead_selectA, by decide, by decide, hjson, ?_⟩
  rintro ⟨q, hok, htree⟩
  rw [hjson] at hok
  cases hok
  have htree : Value.list [.str "IS-NOT", .list [.str ".x"], .list [.str ".NULL"]] =
      .list [.str "IS-NOT-NULL", .list [.str ".x"]] := htree
  simp at htree

end MobileTestkit.L3.RqgParser
