import MobileTestkit.L3Query.PhrasePredicates

/-!
# Words and quoted literals

WHERE parts as any sequence of words and quoted literals, with any text between the
quotes, and the items that `get_prefix_list` makes of them.

* `literal_splitWs`: the words of a literal that has no white space at its ends are those
  of its collapsed text, in quotes.
* `Piecewise.parts_words`: what is rewritten word by word, but not over a quote, is rewritten
  part by part.
* `joinWords_leftParts`: the items of such a WHERE part.
-/
namespace MobileTestkit.L3.RqgParser

open MobileTestkit.Core
open MobileTestkit.Core.Subst

/-! ## Collapsed texts -/

/-- One blank for a run of white space; `after` is whether one stands in front. -/
def collapseFrom : Bool → List Char → List Char
  | _, [] => []
  | after, c :: cs =>
    if PyStr.isspace c then (if after then collapseFrom true cs else ' ' :: collapseFrom true cs)
    else c :: collapseFrom false cs

/-- The text with runs of white space collapsed to one blank. -/
def collapse (text : String) : String := String.ofList (collapseFrom false text.toList)

theorem collapseFrom_concat (after : Bool) (cs : List Char) {c : Char} (hc : PyStr.isspace c = false) :
    collapseFrom after (cs ++ [c]) = collapseFrom after cs ++ [c] := by
  induction cs generalizing after with
  | nil => simp [collapseFrom, hc]
  | cons d cs ih =>
    rw [List.cons_append, collapseFrom, collapseFrom]
    split
    · split
      · exact ih true
      · rw [ih true]
        rfl
    · rw [ih false]
      rfl

theorem collapseFrom_unspaced {cs : List Char} (h : ∀ c ∈ cs, PyStr.isspace c = false) (after : Bool) :
    collapseFrom after cs = cs := by
  induction cs generalizing after with
  | nil => rfl
  | cons c cs ih =>
    obtain ⟨hc, hcs⟩ := List.forall_mem_cons.mp h
    rw [collapseFrom, if_neg (Bool.eq_false_iff.mp hc), ih hcs]

/-- A word is its own collapsed text. -/
theorem collapse_unspaced {w : String} (h : Unspaced w) : collapse w = w := by
  rw [collapse, collapseFrom_unspaced h.2, String.ofList_toList]

theorem mem_collapseFrom {after : Bool} {cs : List Char} {c : Char} (h : c ∈ collapseFrom after cs) :
    c = ' ' ∨ c ∈ cs := by
  induction cs generalizing after with
  | nil => cases h
  | cons d cs ih =>
    have htail : ∀ {b}, c ∈ collapseFrom b cs → c = ' ' ∨ c ∈ d :: cs := fun h =>
      (ih h).imp_right (List.mem_cons_of_mem _)
    rw [collapseFrom] at h
    split at h
    · split at h
      · exact htail h
      · rcases List.mem_cons.mp h with rfl | h
        · exact .inl rfl
        · exact htail h
    · rcases List.mem_cons.mp h with rfl | h
      · exact .inr List.mem_cons_self
      · exact htail h

/-- The joined words of a text are its collapsed text where that does not end in a blank;
`cur` is the word that is being read. -/
theorem join_splitWords (cs : List Char) :
    (∀ cur, cur ≠ [] → (collapseFrom false cs).getLast? ≠ some ' ' →
      (PyStr.join " " ((PyStr.splitWords cur cs).map String.ofList)).toList = cur ++ collapseFrom false cs) ∧
    ((collapseFrom true cs).getLast? ≠ some ' ' →
      (PyStr.join " " ((PyStr.splitWords [] cs).map String.ofList)).toList = collapseFrom true cs) := by
  induction cs with
  | nil =>
    refine ⟨fun cur hcur _ => ?_, fun _ => rfl⟩
    rw [PyStr.splitWords, if_neg hcur]
    simp [PyStr.join, collapseFrom]
  | cons c cs ih =>
    obtain ⟨ihword, ihblank⟩ := ih
    by_cases hc : PyStr.isspace c = true
    · refine ⟨fun cur hcur hlast => ?_, fun hlast => ?_⟩
      · rw [collapseFrom, if_pos hc, if_neg Bool.false_ne_true] at hlast ⊢
        have hne : collapseFrom true cs ≠ [] := fun he => hlast (by rw [he]; rfl)
        rw [List.getLast?_cons_of_ne_nil hne] at hlast
        have hrest := ihblank hlast
        obtain ⟨w, ws, hws⟩ : ∃ w ws, (PyStr.splitWords [] cs).map String.ofList = w :: ws := by
          refine List.exists_cons_of_ne_nil fun he => hne ?_
          rw [he] at hrest
          exact hrest.symm
        rw [PyStr.splitWords, if_pos hc, if_neg hcur, List.map_cons, hws, toList_join_blank, ← hws, hrest,
          String.toList_ofList]
      · rw [collapseFrom, if_pos hc, if_pos rfl] at hlast ⊢
        rw [PyStr.splitWords, if_pos hc, if_pos rfl]
        exact ihblank hlast
    · have hsame : ∀ b, collapseFrom b (c :: cs) = c :: collapseFrom false cs := fun b => by
        rw [collapseFrom, if_neg hc]
      have hrest : ∀ cur, (collapseFrom false (c :: cs)).getLast? ≠ some ' ' →
          (PyStr.join " " ((PyStr.splitWords (cur ++ [c]) cs).map String.ofList)).toList =
            cur ++ collapseFrom false (c :: cs) := by
        intro cur hlast
        rw [hsame] at hlast ⊢
        have hlast' : (collapseFrom false cs).getLast? ≠ some ' ' := by
          intro he
          have hne : collapseFrom false cs ≠ [] := fun hn => by
            rw [hn] at he
            cases he
          rw [List.getLast?_cons_of_ne_nil hne] at hlast
          exact hlast he
        rw [ihword (cur ++ [c]) (by simp) hlast', List.append_assoc]
        rfl
      refine ⟨fun cur hcur hlast => ?_, fun hlast => ?_⟩
      · rw [PyStr.splitWords, if_neg hc]
        exact hrest cur hlast
      · have hboth : collapseFrom true (c :: cs) = collapseFrom false (c :: cs) := by rw [hsame, hsame]
        rw [hboth] at hlast ⊢
        rw [PyStr.splitWords, if_neg hc]
        exact hrest [] hlast

theorem blank_of_trimmed {cs : List Char} (h : PyStr.Trimmed cs) : cs.getLast? ≠ some ' ' :=
  fun he => absurd (h.2 ' ' he) (by decide)

/-- The words of a text whose ends are no white space. -/
theorem join_splitWs {text : String} (h : PyStr.Trimmed (collapse text).toList) :
    PyStr.join " " (PyStr.splitWs text) = collapse text := by
  rw [collapse, String.toList_ofList] at h
  have hfront : collapseFrom true text.toList = collapseFrom false text.toList := by
    cases hcs : text.toList with
    | nil => rfl
    | cons c cs =>
      rw [hcs, collapseFrom] at h
      split at h
      · exact absurd (h.1 ' ' rfl) (by decide)
      · rename_i hc
        rw [collapseFrom, collapseFrom, if_neg hc, if_neg hc]
  have hjoin := (join_splitWords text.toList).2 (hfront ▸ blank_of_trimmed h)
  rw [hfront] at hjoin
  rw [collapse, ← hjoin, String.ofList_toList]
  rfl

/-- The words of a quoted text, which begins and ends with a quote. -/
theorem join_splitWs_quoted (text : String) :
    PyStr.join " " (PyStr.splitWs ("\"" ++ text ++ "\"")) = "\"" ++ collapse text ++ "\"" := by
  have hlist : ("\"" ++ text ++ "\"").toList = '"' :: (text.toList ++ ['"']) := by simp
  have hquote : ¬ PyStr.isspace '"' = true := by decide
  have hcollapse : collapseFrom true ('"' :: (text.toList ++ ['"'])) =
      '"' :: (collapseFrom false text.toList ++ ['"']) := by
    rw [collapseFrom, if_neg hquote, collapseFrom_concat false _ (by decide)]
  have hjoin := (join_splitWords ('"' :: (text.toList ++ ['"']))).2 (by
    rw [hcollapse, ← List.cons_append, List.getLast?_concat]
    decide)
  apply String.toList_inj.mp
  rw [PyStr.splitWs, hlist, hjoin, hcollapse]
  simp [collapse]

theorem mem_splitWords {w cur cs : List Char} (hw : w ∈ PyStr.splitWords cur cs) : ∀ c ∈ w, c ∈ cur ∨ c ∈ cs := by
  induction cs generalizing cur with
  | nil =>
    rw [PyStr.splitWords] at hw
    split at hw
    · cases hw
    · rw [List.mem_singleton.mp hw]
      exact fun c hc => .inl hc
  | cons d cs ih =>
    rw [PyStr.splitWords] at hw
    have hlater : w ∈ PyStr.splitWords [] cs → ∀ c ∈ w, c ∈ cur ∨ c ∈ d :: cs := fun hw c hc => by
      rcases ih hw c hc with h | h
      · cases h
      · exact .inr (List.mem_cons_of_mem _ h)
    split at hw
    · split at hw
      · exact hlater hw
      · rcases List.mem_cons.mp hw with rfl | hw
        · exact fun c hc => .inl hc
        · exact hlater hw
    · intro c hc
      rcases ih hw c hc with h | h
      · rcases List.mem_append.mp h with h | h
        · exact .inl h
        · rw [List.mem_singleton.mp h]
          exact .inr List.mem_cons_self
      · exact .inr (List.mem_cons_of_mem _ h)

theorem isWord_splitWs {text : String} (h : '"' ∉ text.toList) : ∀ w ∈ PyStr.splitWs text, IsWord w := by
  intro w hw
  obtain ⟨hne, hspace⟩ := splitWs_unspaced text w hw
  obtain ⟨cs, hcs, rfl⟩ := List.mem_map.mp hw
  refine ⟨hne, fun c hc => ⟨hspace c hc, ?_⟩⟩
  rintro rfl
  rw [String.toList_ofList] at hc
  rcases mem_splitWords hcs '"' hc with h' | h'
  · cases h'
  · exact h h'

/-- The words of a literal without white space at its ends. -/
theorem literal_splitWs {text : String} (hquote : '"' ∉ text.toList)
    (h : PyStr.Trimmed (collapse text).toList) :
    PyStr.splitWs ("\"" ++ text ++ "\"") = (Operand.literal (PyStr.splitWs text)).words := by
  have hwords : (Operand.literal (PyStr.splitWs text)).OfWords := isWord_splitWs hquote
  have hjoin := join_splitWs_quoted text
  rw [← join_splitWs h] at hjoin
  have htext : PyStr.join " " (Operand.literal (PyStr.splitWs text)).words =
      "\"" ++ PyStr.join " " (PyStr.splitWs text) ++ "\"" := join_operand_words _
  rw [← htext] at hjoin
  have hsplit := congrArg PyStr.splitWs hjoin
  rwa [PyStr.splitWs_join (splitWs_unspaced _), PyStr.splitWs_join (Operand.unspaced hwords)] at hsplit

/-! ## Words and literals -/

/-- A word, or the text between the quotes of a literal. -/
inductive Piece where
  | word (w : String)
  | literal (text : String)
  deriving DecidableEq, Repr

namespace Piece

/-- The piece as `split` leaves it. -/
def words : Piece → List String
  | .word w => [w]
  | .literal text => PyStr.splitWs ("\"" ++ text ++ "\"")

/-- No quote but those around the literals. -/
def Proper : Piece → Prop
  | .word w => IsWord w
  | .literal text => '"' ∉ text.toList

instance : (p : Piece) → Decidable p.Proper
  | .word w => inferInstanceAs (Decidable (IsWord w))
  | .literal text => inferInstanceAs (Decidable ('"' ∉ text.toList))

/-- The piece as an operand, where a literal has no white space at its ends. -/
def operand : Piece → Operand
  | .word w => .plain w
  | .literal text => .literal (PyStr.splitWs text)

/-- The literal has no white space at its ends. -/
def Closed : Piece → Prop
  | .word _ => True
  | .literal text => PyStr.Trimmed (collapse text).toList

theorem operand_ofWords {p : Piece} (h : p.Proper) : p.operand.OfWords := by
  cases p with
  | word w => exact h
  | literal text => exact isWord_splitWs h

theorem operand_words {p : Piece} (h : p.Proper) (hclosed : p.Closed) : p.operand.words = p.words := by
  cases p with
  | word w => rfl
  | literal text => exact (literal_splitWs h hclosed).symm

theorem words_unspaced {p : Piece} (h : p.Proper) : ∀ w ∈ p.words, Unspaced w := by
  cases p with
  | word w =>
    intro v hv
    rw [List.mem_singleton.mp hv]
    exact IsWord.unspaced h
  | literal text => exact splitWs_unspaced _

end Piece

/-! ## Rewriting part by part -/

/-- What is made of the words never goes over the quotes of a literal. -/
structure Piecewise (rewrite : List String → List String) : Prop where
  nil : rewrite [] = []
  word : ∀ ws, (∀ w ∈ ws, IsWord w) → ∀ w ∈ rewrite ws, IsWord w
  literal : ∀ ws ls vs, (∀ w ∈ ls, IsWord w) →
    rewrite (ws ++ ((Operand.literal ls).words ++ vs)) =
      rewrite ws ++ ((Operand.literal (rewrite ls)).words ++ rewrite vs)

/-- The rewritten operands; `run` are the plain words in front. -/
def parts (rewrite : List String → List String) : List String → List Operand → List Operand
  | run, [] => (rewrite run).map .plain
  | run, .plain w :: as => parts rewrite (run ++ [w]) as
  | run, .literal ls :: as => (rewrite run).map .plain ++ .literal (rewrite ls) :: parts rewrite [] as

theorem flatMap_plain (ws : List String) : (ws.map Operand.plain).flatMap Operand.words = ws := by
  induction ws with
  | nil => rfl
  | cons w ws ih => simp [Operand.words, ih]

theorem literal_words_first (ls : List String) : ∃ q rest, (Operand.literal ls).words = ("\"" ++ q) :: rest := by
  match ls with
  | [] => exact ⟨"\"", [], by decide⟩
  | [w] => exact ⟨w ++ "\"", [], by simp [Operand.words, String.append_assoc]⟩
  | w :: w' :: ws => exact ⟨w, Operand.closing w' ws, rfl⟩

section
variable {rewrite : List String → List String} (hrewrite : Piecewise rewrite)
include hrewrite

theorem Piecewise.parts_words {as : List Operand} (has : ∀ a ∈ as, a.OfWords) (run : List String) :
    rewrite (run ++ as.flatMap Operand.words) = (parts rewrite run as).flatMap Operand.words := by
  induction as generalizing run with
  | nil => simp [parts, flatMap_plain]
  | cons a as ih =>
    have ih := ih fun b hb => has b (List.mem_cons_of_mem _ hb)
    cases a with
    | plain w =>
      have hwords : run ++ (Operand.plain w :: as).flatMap Operand.words =
          run ++ [w] ++ as.flatMap Operand.words := by
        simp [Operand.words]
      rw [hwords, ih]
      rfl
    | literal ls =>
      have hrest := ih []
      rw [List.nil_append] at hrest
      rw [List.flatMap_cons, hrewrite.literal run ls _ (has (.literal ls) List.mem_cons_self), hrest, parts,
        List.flatMap_append, List.flatMap_cons, flatMap_plain]

theorem Piecewise.parts_ofWords {as : List Operand} (has : ∀ a ∈ as, a.OfWords) {run : List String}
    (hrun : ∀ w ∈ run, IsWord w) : ∀ a ∈ parts rewrite run as, a.OfWords := by
  have hplain : ∀ {run : List String}, (∀ w ∈ run, IsWord w) → ∀ a ∈ (rewrite run).map Operand.plain, a.OfWords := by
    intro run hrun a ha
    obtain ⟨w, hw, rfl⟩ := List.mem_map.mp ha
    exact hrewrite.word run hrun w hw
  induction as generalizing run with
  | nil => exact hplain hrun
  | cons a as ih =>
    have ih := fun {run : List String} => @ih (fun b hb => has b (List.mem_cons_of_mem _ hb)) run
    have ha := has a List.mem_cons_self
    cases a with
    | plain w =>
      refine ih fun v hv => ?_
      rcases List.mem_append.mp hv with hv | hv
      · exact hrun v hv
      · rw [List.mem_singleton.mp hv]
        exact ha
    | literal ls =>
      intro b hb
      rcases List.mem_append.mp hb with hb | hb
      · exact hplain hrun b hb
      rcases List.mem_cons.mp hb with rfl | hb
      · exact hrewrite.word ls ha
      · exact ih (by simp) b hb

omit hrewrite in
/-- The literals are rewritten by themselves. -/
theorem literal_mem_parts {ls : List String} {as : List Operand} (h : .literal ls ∈ as) (run : List String) :
    .literal (rewrite ls) ∈ parts rewrite run as := by
  induction as generalizing run with
  | nil => cases h
  | cons a as ih =>
    cases a with
    | plain w =>
      rcases List.mem_cons.mp h with h | h
      · cases h
      · exact ih h _
    | literal ls' =>
      rcases List.mem_cons.mp h with h | h
      · cases h
        exact List.mem_append_right _ List.mem_cons_self
      · exact List.mem_append_right _ (List.mem_cons_of_mem _ (ih h []))

end

/-! Both rewritings of a query are such. -/

theorem isWord_joinPhrases {ws : List String} (h : ∀ w ∈ ws, IsWord w) : ∀ w ∈ joinPhrases ws, IsWord w :=
  (joinPhrases_literal h).2.1

theorem opening_quote (q : String) : Opening ("\"" ++ q) := by
  have hlist : ("\"" ++ q).toList = '"' :: q.toList := by simp
  have hkeys : ∀ k ∈ ["NOT", "MISSING", "NULL", "IN", "EVERY", "AND"], k.toList ≠ [] ∧ '"' ∉ k.toList := by decide
  intro k hk
  obtain ⟨hne, hquote⟩ := hkeys k hk
  obtain ⟨c, cs, hc⟩ := List.exists_cons_of_ne_nil hne
  exact PyStr.startswith_cons hlist hc fun he => hquote (by rw [hc, ← he]; exact List.mem_cons_self)

theorem piecewise_joinPhrases : Piecewise joinPhrases where
  nil := rfl
  word _ := isWord_joinPhrases
  literal ws ls vs hls := by
    obtain ⟨q, rest, hfirst⟩ := literal_words_first ls
    obtain ⟨front, p, hlast⟩ := literal_words_last ls
    have hl : (Operand.literal ls).words.getLast? = some (p ++ "\"") := by
      rw [hlast]
      simp
    have hclosing := joinPhrases_closing hl (closing_literal ⟨p, rfl⟩) vs
    rw [← (joinPhrases_literal hls).1, ← hclosing, hfirst]
    exact joinPhrases_opening ws (opening_quote q) _

/-- No match that begins in front of a literal ends in it. -/
theorem betweenWords_quote {m n : String} (hm : PyStr.isdigit m = true) (hn : PyStr.isdigit n = true) (q : String)
    {front : List String} (hfront : front ≠ []) (ws : List String) :
    betweenWords m n (front ++ ("\"" ++ q) :: ws) = betweenWords m n front := by
  have hlist : ("\"" ++ q).toList = '"' :: q.toList := by simp
  have hnumber : ∀ k : String, PyStr.isdigit k = true → PyStr.startswith ("\"" ++ q) k = false := by
    intro k hk
    obtain ⟨hne, hall⟩ := isdigit_iff.mp hk
    obtain ⟨c, cs, hc⟩ := List.exists_cons_of_ne_nil hne
    refine PyStr.startswith_cons hlist hc ?_
    rintro rfl
    exact absurd (hall '"' (by rw [hc]; exact List.mem_cons_self)) (by decide)
  have hself : ∀ k : String, PyStr.startswith k k = true :=
    fun k => List.isPrefixOf_iff_prefix.mpr List.prefix_rfl
  have hne : ∀ k : String, PyStr.isdigit k = true → ("\"" ++ q == k) = false := by
    intro k hk
    refine beq_eq_false_iff_ne.mpr ?_
    rintro rfl
    have hfalse := hnumber _ hk
    rw [hself] at hfalse
    cases hfalse
  have hand : ("\"" ++ q == "and") = false := by
    refine beq_eq_false_iff_ne.mpr fun he => ?_
    have hchars := congrArg String.toList he
    rw [hlist] at hchars
    exact absurd (List.cons.inj hchars).1 (by decide)
  rcases front with _ | ⟨w, _ | ⟨m', _ | ⟨a, _ | ⟨n', front⟩⟩⟩⟩
  · exact absurd rfl hfront
  · rcases ws with _ | ⟨a, _ | ⟨b, ws⟩⟩
    · rfl
    · rfl
    · simp [betweenWords, hne m hm]
  · rcases ws with _ | ⟨a, ws⟩
    · rfl
    · simp [betweenWords, hand]
  · simp [betweenWords, hnumber n hn]
  · rfl

theorem piecewise_dropAnd {m n : String} (hm : PyStr.isdigit m = true) (hn : PyStr.isdigit n = true) :
    Piecewise (dropAnd m n) where
  nil := rfl
  word _ h w hw := h w (mem_dropAnd hw)
  literal ws ls vs _ := by
    rw [← dropAnd_literal_append hm hn]
    obtain ⟨q, rest, hfirst⟩ := literal_words_first ls
    rw [hfirst]
    refine sub_append ws _ (fun s hs hsuf => betweenWords_quote hm hn q hs _) (fun s new len _ hmatch => ?_)
      (Nat.zero_le _)
    obtain ⟨w, n', rest', rfl, -, -, he⟩ := betweenWords_eq_some.mp hmatch
    cases he
    simp

/-! ## The items of a WHERE part -/

/-- The text that is searched for a `BETWEEN`. -/
def searched (as : List Operand) : String := PyStr.join " " (joinPhrases (as.flatMap Operand.words))

/-- The operands behind both rewritings. -/
def leftParts (as : List Operand) : List Operand :=
  match betweenMatch (searched as).toList with
  | none => parts joinPhrases [] as
  | some (m, n) => parts (dropAnd (String.ofList m) (String.ofList n)) [] (parts joinPhrases [] as)

theorem joinWords_operands {as : List Operand} (has : ∀ a ∈ as, a.OfWords) :
    joinWords (as.flatMap Operand.words) = as.map Operand.text := by
  have key : ∀ (as : List Operand) (done : List String), (∀ a ∈ as, a.OfWords) →
      (as.flatMap Operand.words).foldl joinWord (done, "") = (done ++ as.map Operand.text, "") := by
    intro as
    induction as with
    | nil => simp
    | cons a as ih =>
      intro done has
      rw [List.flatMap_cons, List.foldl_append, joinWord_operand done (has a List.mem_cons_self),
        ih _ fun b hb => has b (List.mem_cons_of_mem _ hb)]
      simp
  rw [joinWords, key as [] has, List.nil_append]

theorem unspaced_operands {as : List Operand} (has : ∀ a ∈ as, a.OfWords) :
    ∀ w ∈ as.flatMap Operand.words, Unspaced w := by
  intro w hw
  obtain ⟨a, ha, hw⟩ := List.mem_flatMap.mp hw
  exact Operand.unspaced (has a ha) w hw

theorem phrased_words {as : List Operand} (has : ∀ a ∈ as, a.OfWords) :
    joinPhrases (as.flatMap Operand.words) = (parts joinPhrases [] as).flatMap Operand.words := by
  have hparts := piecewise_joinPhrases.parts_words has []
  rwa [List.nil_append] at hparts

theorem phrased_ofWords {as : List Operand} (has : ∀ a ∈ as, a.OfWords) :
    ∀ a ∈ parts joinPhrases [] as, a.OfWords :=
  piecewise_joinPhrases.parts_ofWords has (by simp)

theorem leftParts_ofWords {as : List Operand} (has : ∀ a ∈ as, a.OfWords) : ∀ a ∈ leftParts as, a.OfWords := by
  unfold leftParts
  split
  · exact phrased_ofWords has
  · rename_i hmatch
    obtain ⟨hm, hn⟩ := betweenMatch_digits hmatch
    exact (piecewise_dropAnd hm hn).parts_ofWords (phrased_ofWords has) (by simp)

/-- The items of the text are those of its operands. -/
theorem joinWords_leftParts {as : List Operand} (has : ∀ a ∈ as, a.OfWords) :
    joinWords (wordsOf (searched as)) = (leftParts as).map Operand.text := by
  have hphrased := phrased_ofWords has
  have hws := unspaced_operands hphrased
  have htext : searched as = PyStr.join " " ((parts joinPhrases [] as).flatMap Operand.words) := by
    rw [searched, phrased_words has]
  unfold leftParts
  cases hmatch : betweenMatch (searched as).toList with
  | none =>
    rw [htext] at hmatch ⊢
    rw [wordsOf_join_none hws hmatch]
    exact joinWords_operands hphrased
  | some r =>
    obtain ⟨hm, hn⟩ := betweenMatch_digits hmatch
    have hdrop := (piecewise_dropAnd hm hn).parts_words hphrased []
    rw [List.nil_append] at hdrop
    rw [htext] at hmatch ⊢
    rw [wordsOf_join hws hmatch, hdrop]
    exact joinWords_operands ((piecewise_dropAnd hm hn).parts_ofWords hphrased (by simp))

end MobileTestkit.L3.RqgParser
