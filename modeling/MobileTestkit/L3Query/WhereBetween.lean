import MobileTestkit.L3Query.WhereTexts

/-!
# Every BETWEEN of a clause

`get_prefix_list` looks for one text `BETWEEN m and n` and takes the `and` from all
texts that begin like it. The clauses are those of `WherePredicates`, a `BETWEEN`
predicate among the others.

* `replace_words`: the rewriting of a text of words, word by word (`dropAnd`).
* `leavesItems_clause`: the items that the rewriting leaves of a clause.
* `betweens_compiled_iff`: every `BETWEEN` becomes a node of its operand and its
  two bounds where all have the bounds of the first match, the second one up to
  further digits.
-/
namespace MobileTestkit.L3.RqgParser

open MobileTestkit.Core
open MobileTestkit.Core.OpPrec
open MobileTestkit.Core.Subst

/-! ## The rewriting, word by word -/

/-- The text that is searched for, and what stands instead. -/
def targetPattern (m n : String) : String := "BETWEEN " ++ m ++ " and " ++ n

def replacementPattern (m n : String) : String := "BETWEEN " ++ m ++ " " ++ n

/-- The pattern on the words of a text: a word that ends in `BETWEEN`, `m`, `and`,
and a word that begins with `n`, which stays. -/
def betweenWords (m n : String) : List String → Option (List String × Nat)
  | w :: m' :: a :: n' :: _ =>
    if PyStr.endswith w "BETWEEN" && m' == m && a == "and" && PyStr.startswith n' n
    then some ([w, m], 3) else none
  | _ => none

/-- The words without the `and` of the rewritten texts. -/
def dropAnd (m n : String) (ws : List String) : List String := sub (betweenWords m n) 0 ws

theorem betweenWords_eq_some {m n : String} {ws : List String} {r : List String × Nat} :
    betweenWords m n ws = some r ↔
      ∃ w n' rest, ws = w :: m :: "and" :: n' :: rest ∧ PyStr.endswith w "BETWEEN" = true ∧
        PyStr.startswith n' n = true ∧ r = ([w, m], 3) := by
  constructor
  · intro h
    unfold betweenWords at h
    split at h
    · rename_i w m' a n' rest
      split at h
      · rename_i hc
        simp only [Bool.and_eq_true, beq_iff_eq] at hc
        obtain ⟨⟨⟨hw, rfl⟩, rfl⟩, hn⟩ := hc
        exact ⟨w, n', rest, rfl, hw, hn, (Option.some.inj h).symm⟩
      · cases h
    · cases h
  · rintro ⟨w, n', rest, rfl, hw, hn, rfl⟩
    simp [betweenWords, hw, hn]

theorem betweenWords_eq_none {m n w : String} {ws : List String}
    (h : PyStr.endswith w "BETWEEN" = false) : betweenWords m n (w :: ws) = none := by
  refine Option.eq_none_iff_forall_not_mem.mpr fun r hr => ?_
  obtain ⟨w', n', rest, he, hw, -, -⟩ := betweenWords_eq_some.mp hr
  rw [← (List.cons.inj he).1, h] at hw
  cases hw

theorem dropAnd_cons (m n w : String) (ws : List String) :
    ∃ rest, dropAnd m n (w :: ws) = w :: rest := by
  unfold dropAnd
  rw [sub]
  cases h : betweenWords m n (w :: ws) with
  | none => exact ⟨_, rfl⟩
  | some r =>
    obtain ⟨w', n', rest, he, -, -, rfl⟩ := betweenWords_eq_some.mp h
    obtain rfl := (List.cons.inj he).1
    exact ⟨_, rfl⟩

/-- Two words stay two words. -/
theorem dropAnd_two (m n w w' : String) (ws : List String) :
    ∃ v rest, dropAnd m n (w :: w' :: ws) = w :: v :: rest := by
  obtain ⟨rest, hrest⟩ := dropAnd_cons m n w' ws
  cases h : betweenWords m n (w :: w' :: ws) with
  | none =>
    refine ⟨w', rest, ?_⟩
    rw [dropAnd, sub, h, ← hrest]
    rfl
  | some r =>
    obtain ⟨_, n', tail, he, -, -, rfl⟩ := betweenWords_eq_some.mp h
    cases he
    refine ⟨m, dropAnd m n (n' :: tail), ?_⟩
    rw [dropAnd, sub, h]
    rfl

section Replace

variable {m n : String} (hm : PyStr.isdigit m = true) (hn : PyStr.isdigit n = true)
include hm hn

theorem patterns_eq :
    (targetPattern m n).toList = "BETWEEN".toList ++ ' ' ::
        (m.toList ++ ' ' :: ("and".toList ++ ' ' :: n.toList)) ∧
      (replacementPattern m n).toList = "BETWEEN".toList ++ ' ' :: (m.toList ++ ' ' :: n.toList) ∧
      ' ' ∉ m.toList ∧ ' ' ∉ n.toList := by
  refine ⟨by simp [targetPattern], by simp [replacementPattern], fun h => ?_, fun h => ?_⟩
  · exact absurd ((isdigit_iff.mp hm).2 _ h) (by decide)
  · exact absurd ((isdigit_iff.mp hn).2 _ h) (by decide)

/-- A word from which no rewritten text begins. -/
theorem sub_words_none {w v : String} {rest : List String} (hws : ∀ u ∈ w :: v :: rest, ' ' ∉ u.toList)
    (h : betweenWords m n (w :: v :: rest) = none) :
    sub (word (targetPattern m n).toList (replacementPattern m n).toList) 0
        (PyStr.join " " (w :: v :: rest)).toList =
      w.toList ++ ' ' :: sub (word (targetPattern m n).toList (replacementPattern m n).toList) 0
        (PyStr.join " " (v :: rest)).toList := by
  obtain ⟨htarget, -, hmb, hnb⟩ := patterns_eq hm hn
  have hkey : ' ' ∉ "BETWEEN".toList ∧ ' ' ∉ "and".toList := by decide
  have hw := hws w List.mem_cons_self
  have htail : ∀ u ∈ v :: rest, ' ' ∉ u.toList := fun u hu => hws u (List.mem_cons_of_mem _ hu)
  rw [toList_join_blank]
  refine sub_word_quiet fun s hs => word_eq_none.mpr fun hp => ?_
  -- a match at the last letters of the word would be one of its words
  have hsb : ' ' ∉ s := fun hmem => hw (hs.subset hmem)
  rw [htarget, prefix_sep_iff hkey.1 hsb] at hp
  obtain ⟨rfl, hp⟩ := hp
  obtain ⟨v', a, rest', he, hv, hp⟩ := prefix_join hmb htail hp
  obtain ⟨a', n', rest'', he', ha, hp⟩ := prefix_join hkey.2
    (fun u hu => htail u (he ▸ List.mem_cons_of_mem _ hu)) hp
  have hn' := prefix_join_word hnb hp
  have hsome : betweenWords m n (w :: v :: rest) = some ([w, m], 3) := by
    refine betweenWords_eq_some.mpr ⟨w, n', rest'', ?_, ?_, ?_, rfl⟩
    · rw [he, he', ← String.toList_inj.mp hv, ← String.toList_inj.mp ha]
    · exact List.isSuffixOf_iff_suffix.mpr hs
    · exact List.isPrefixOf_iff_prefix.mpr hn'
  rw [hsome] at h
  cases h

/-- The words of a rewritten text. Behind it the search goes on at the letters of the
second number, at which no match begins. -/
theorem sub_words_some {w n' : String} {rest : List String} (hw : ' ' ∉ w.toList)
    (hend : PyStr.endswith w "BETWEEN" = true) (hstart : PyStr.startswith n' n = true) :
    sub (word (targetPattern m n).toList (replacementPattern m n).toList) 0
        (PyStr.join " " (w :: m :: "and" :: n' :: rest)).toList =
      w.toList ++ ' ' :: (m.toList ++ ' ' ::
        sub (word (targetPattern m n).toList (replacementPattern m n).toList) 0
          (PyStr.join " " (n' :: rest)).toList) := by
  obtain ⟨htarget, hrepl, -, -⟩ := patterns_eq hm hn
  have hkey : ' ' ∉ "BETWEEN".toList := by decide
  generalize (targetPattern m n).toList = old at htarget ⊢
  generalize (replacementPattern m n).toList = new at hrepl ⊢
  obtain ⟨r, hr⟩ : n.toList <+: (PyStr.join " " (n' :: rest)).toList := by
    refine (List.isPrefixOf_iff_prefix.mp hstart).trans ?_
    cases rest with
    | nil => exact List.prefix_rfl
    | cons v rest =>
      rw [toList_join_blank]
      exact List.prefix_append _ _
  have hdigits := sub_quiet (m := word old new) n.toList r fun s hs hsuf => word_eq_none.mpr fun hp => by
    obtain ⟨c, s, rfl⟩ := List.exists_cons_of_ne_nil hs
    rw [htarget] at hp
    have hc := (isdigit_iff.mp hn).2 c (hsuf.subset List.mem_cons_self)
    have hB : 'B' = c := (List.cons_prefix_cons.mp hp).1
    rw [← hB] at hc
    exact absurd hc (by decide)
  have hmatch : word old new ("BETWEEN".toList ++ ' ' :: (m.toList ++ ' ' :: ("and".toList ++ ' ' ::
      (n.toList ++ r)))) = some (new, "BETWEEN".toList.length +
        (1 + (m.toList ++ ' ' :: ("and".toList ++ ' ' :: n.toList)).length)) :=
    word_eq_some.mpr ⟨by rw [htarget]; exact ⟨r, by simp⟩, by rw [htarget]; simp; omega⟩
  have hword := sub_word (by decide) (List.isSuffixOf_iff_suffix.mp hend)
    (fun s hs _ hne => word_eq_none.mpr fun hp => by
      rw [htarget, prefix_sep_iff hkey fun hmem => hw (hs.subset hmem)] at hp
      exact hne hp.1.symm)
    hmatch (by simp; omega)
  have hbehind : (' ' :: (m.toList ++ ' ' :: ("and".toList ++ ' ' :: (n.toList ++ r)))).drop
      (1 + (m.toList ++ ' ' :: ("and".toList ++ ' ' :: n.toList)).length) = r := by
    have hsplit : ' ' :: (m.toList ++ ' ' :: ("and".toList ++ ' ' :: (n.toList ++ r))) =
        (' ' :: (m.toList ++ ' ' :: ("and".toList ++ ' ' :: n.toList))) ++ r := by simp
    rw [hsplit, List.drop_left' (by simp; omega)]
  obtain ⟨u, hu⟩ := List.isSuffixOf_iff_suffix.mp hend
  have htake : w.toList.take (w.toList.length - "BETWEEN".toList.length) = u := by
    rw [← hu]
    simp
  simp only [toList_join_blank]
  rw [← hr, hword, htake, hbehind, hdigits, ← hu]
  generalize sub (word old new) 0 r = tail
  simp [hrepl]

/-- The rewriting of a text of words is one of its words. -/
theorem replace_words {ws : List String} (hws : ∀ w ∈ ws, ' ' ∉ w.toList) :
    PyStr.replace (PyStr.join " " ws) (targetPattern m n) (replacementPattern m n) =
      PyStr.join " " (dropAnd m n ws) := by
  suffices h : sub (word (targetPattern m n).toList (replacementPattern m n).toList) 0
      (PyStr.join " " ws).toList = (PyStr.join " " (dropAnd m n ws)).toList by
    rw [PyStr.replace, replaceList_eq_sub, h, String.ofList_toList]
  induction hlen : ws.length using Nat.strongRecOn generalizing ws with
  | ind k ih =>
  match ws with
  | [] => rfl
  | [w] =>
    have hw := hws w List.mem_cons_self
    have hquiet := sub_quiet (m := word (targetPattern m n).toList (replacementPattern m n).toList)
      w.toList [] fun s _ hs => word_eq_none.mpr fun hp => by
        rw [List.append_nil] at hp
        exact hw (hs.subset (hp.subset (by rw [(patterns_eq hm hn).1]; simp)))
    simpa [dropAnd, sub, betweenWords, PyStr.join] using hquiet
  | w :: v :: rest =>
    have htail : ∀ u ∈ v :: rest, ' ' ∉ u.toList := fun u hu => hws u (List.mem_cons_of_mem _ hu)
    cases hmatch : betweenWords m n (w :: v :: rest) with
    | none =>
      have hdrop : dropAnd m n (w :: v :: rest) = w :: dropAnd m n (v :: rest) := by
        rw [dropAnd, sub, hmatch]
        rfl
      obtain ⟨rest', hne⟩ := dropAnd_cons m n v rest
      rw [sub_words_none hm hn hws hmatch, ih _ (by simp [← hlen]) htail rfl, hdrop, hne, toList_join_blank]
    | some r =>
      obtain ⟨w', n', rest', he, hend, hstart, rfl⟩ := betweenWords_eq_some.mp hmatch
      cases he
      have hdrop : dropAnd m n (w :: m :: "and" :: n' :: rest') = w :: m :: dropAnd m n (n' :: rest') := by
        rw [dropAnd, sub, hmatch]
        rfl
      have hih := ih _ (by rw [← hlen]; simp)
        (fun v hv => htail v (List.mem_cons_of_mem _ (List.mem_cons_of_mem _ hv))) rfl
      obtain ⟨tail, hne⟩ := dropAnd_cons m n n' rest'
      rw [sub_words_some hm hn (hws w List.mem_cons_self) hend hstart, hih, hdrop, hne, toList_join_blank,
        toList_join_blank]

end Replace

/-! ## Operands -/

/-- What the rewriting leaves of an operand. -/
def Operand.dropped (m n : String) : Operand → Operand
  | .plain w => .plain w
  | .literal ws => .literal (dropAnd m n ws)

theorem mem_dropAnd {m n w : String} {ws : List String} (h : w ∈ dropAnd m n ws) : w ∈ ws := by
  rcases mem_sub h with hw | ⟨s, new, len, hs, hm, hw⟩
  · exact hw
  obtain ⟨w', n', rest, rfl, -, -, he⟩ := betweenWords_eq_some.mp hm
  cases he
  refine hs.subset ?_
  rcases List.mem_cons.mp hw with rfl | hw
  · exact List.mem_cons_self
  · rw [List.mem_singleton.mp hw]
    simp

theorem Operand.dropped_ofWords {m n : String} {a : Operand} (h : a.OfWords) :
    (a.dropped m n).OfWords := by
  cases a with
  | plain w => exact h
  | literal ws => exact fun w hw => h w (mem_dropAnd hw)

/-- The words of a literal, with its quotes. -/
def quoted : List String → List String
  | [] => ["\"\""]
  | [w] => ["\"" ++ w ++ "\""]
  | w :: w' :: ws => ("\"" ++ w) :: Operand.closing w' ws

theorem literal_words (ws : List String) : (Operand.literal ws).words = quoted ws := by
  match ws with
  | [] => rfl
  | [w] => rfl
  | w :: w' :: ws => rfl

theorem endswith_quote_cons {w : String} :
    PyStr.endswith ("\"" ++ w) "BETWEEN" = PyStr.endswith w "BETWEEN" := by
  have hs : ("\"" ++ w).toList = '"' :: w.toList := by simp
  refine Bool.eq_iff_iff.mpr ?_
  simp only [PyStr.endswith, List.isSuffixOf_iff_suffix, hs, List.suffix_cons_iff]
  constructor
  · rintro (h | h)
    · exact absurd (List.cons.inj h).1 (by decide)
    · exact h
  · exact .inr

theorem endswith_quote {w : String} (hw : ∃ u, w = u ++ "\"") : PyStr.endswith w "BETWEEN" = false := by
  obtain ⟨u, rfl⟩ := hw
  refine Bool.eq_false_iff.mpr fun h => ?_
  obtain ⟨t, ht⟩ := List.isSuffixOf_iff_suffix.mp h
  have hs : "BETWEEN".toList = "BETWEE".toList ++ ['N'] := by decide
  rw [hs, ← List.append_assoc, String.toList_append] at ht
  exact absurd (List.append_inj' ht rfl).2 (by decide)

theorem startswith_quote {w n : String} (hn : '"' ∉ n.toList) :
    PyStr.startswith (w ++ "\"") n = PyStr.startswith w n := by
  have hs : (w ++ "\"").toList = w.toList ++ '"' :: [] := by simp
  refine Bool.eq_iff_iff.mpr ?_
  simp only [PyStr.startswith, List.isPrefixOf_iff_prefix, hs]
  exact ⟨prefix_word hn, fun h => h.trans (List.prefix_append _ _)⟩

/-- The closing quote changes nothing. -/
theorem dropAnd_closing (m : String) {n : String} (hn : '"' ∉ n.toList) (w : String) (ws : List String) : 
    ∃ rest, dropAnd m n (w :: ws) = w :: rest ∧
      dropAnd m n (Operand.closing w ws) = Operand.closing w rest := by
  induction hlen : ws.length using Nat.strongRecOn generalizing w ws with
  | ind k ih =>
  have hlast : ∀ u : String, betweenWords m n [u] = none := fun u => rfl
  match ws with
  | [] =>
    exact ⟨[], rfl, rfl⟩
  | [v] =>
    exact ⟨[v], rfl, rfl⟩
  | [v, a] =>
    exact ⟨[v, a], rfl, rfl⟩
  | v :: a :: n' :: rest =>
    have hclosing : Operand.closing w (v :: a :: n' :: rest) = w :: v :: a :: Operand.closing n' rest := rfl
    obtain ⟨n'', tail, htail, hstart⟩ : ∃ n'' tail, Operand.closing n' rest = n'' :: tail ∧
        PyStr.startswith n'' n = PyStr.startswith n' n := by
      cases rest with
      | nil => exact ⟨n' ++ "\"", [], rfl, startswith_quote hn⟩
      | cons v rest => exact ⟨n', _, rfl, rfl⟩
    have hsame : betweenWords m n (w :: v :: a :: n'' :: tail) = betweenWords m n (w :: v :: a :: n' :: rest) := by
      simp [betweenWords, hstart]
    cases hmatch : betweenWords m n (w :: v :: a :: n' :: rest) with
    | none =>
      obtain ⟨r, h1, h2⟩ := ih (a :: n' :: rest).length (by rw [← hlen]; simp) v (a :: n' :: rest) rfl
      refine ⟨v :: r, ?_, ?_⟩
      · rw [dropAnd, sub, hmatch]
        exact congrArg (w :: ·) h1
      · rw [hclosing, htail, dropAnd, sub, hsame, hmatch, ← htail]
        exact congrArg (w :: ·) h2
    | some r =>
      obtain ⟨w', u, rest', he, -, -, rfl⟩ := betweenWords_eq_some.mp hmatch
      cases he
      obtain ⟨r, h1, h2⟩ := ih rest.length (by rw [← hlen]; simp; omega) n' rest rfl
      refine ⟨m :: n' :: r, ?_, ?_⟩
      · rw [dropAnd, sub, hmatch]
        exact congrArg (fun l => w :: m :: l) h1
      · rw [hclosing, htail, dropAnd, sub, hsame, hmatch, ← htail]
        exact congrArg (fun l => w :: m :: l) h2

theorem dropAnd_quoted (m : String) {n : String} (hn : '"' ∉ n.toList) (ws : List String) :
    dropAnd m n (quoted ws) = quoted (dropAnd m n ws) := by
  match ws with
  | [] => rfl
  | [w] => rfl
  | w :: w' :: ws =>
    -- the opening quote does not change whether the word ends in `BETWEEN`
    have hopen : ∀ rest, betweenWords m n (("\"" ++ w) :: rest) =
        (betweenWords m n (w :: rest)).map fun r => (["\"" ++ w, m], r.2) := by
      intro rest
      match rest with
      | [] => rfl
      | [a] => rfl
      | [a, b] => rfl
      | a :: b :: c :: rest =>
        simp only [betweenWords, endswith_quote_cons]
        split <;> rfl
    obtain ⟨rest, h1, h2⟩ := dropAnd_closing m hn w (w' :: ws)
    obtain ⟨v, rest', rfl⟩ : ∃ v rest', rest = v :: rest' := by
      obtain ⟨v, rest', h⟩ := dropAnd_two m n w w' ws
      exact ⟨v, rest', (List.cons.inj (h1.symm.trans h)).2⟩
    have hclosing : ∀ v vs, quoted (w :: v :: vs) = ("\"" ++ w) :: Operand.closing v vs := fun v vs => rfl
    have hclosing' : ∀ v vs, Operand.closing w (v :: vs) = w :: Operand.closing v vs := fun v vs => rfl
    rw [h1, hclosing, hclosing, dropAnd, sub, hopen]
    rw [hclosing', hclosing', dropAnd, sub] at h2
    cases hmatch : betweenWords m n (w :: Operand.closing w' ws) with
    | none =>
      rw [hmatch] at h2
      exact congrArg (("\"" ++ w) :: ·) (List.cons.inj h2).2
    | some r =>
      obtain ⟨w'', n', tail, he, -, -, rfl⟩ := betweenWords_eq_some.mp hmatch
      rw [hmatch] at h2
      exact congrArg (("\"" ++ w) :: ·) (List.cons.inj h2).2

theorem dropAnd_operand (m : String) {n : String} (hn : '"' ∉ n.toList) (a : Operand) :
    dropAnd m n a.words = (a.dropped m n).words := by
  cases a with
  | plain w => rfl
  | literal ws =>
    rw [literal_words, dropAnd_quoted m hn, Operand.dropped, literal_words]

/-- The rewriting of the text of an operand. -/
theorem replace_operand {m n : String} (hm : PyStr.isdigit m = true) (hn : PyStr.isdigit n = true)
    {a : Operand} (ha : a.OfWords) :
    PyStr.replace a.text (targetPattern m n) (replacementPattern m n) = (a.dropped m n).text := by
  have hq : '"' ∉ n.toList := fun h => absurd ((isdigit_iff.mp hn).2 _ h) (by decide)
  rw [← join_operand_words, replace_words hm hn fun w hw => (Operand.unspaced ha w hw).no_blank,
    dropAnd_operand m hq, join_operand_words]

/-! ## What is left of an operand -/

/-- A literal is left as it is, or it has a blank before and after. -/
theorem dropped_cases (m n : String) (a : Operand) :
    a.dropped m n = a ∨ ∃ ws, a = .literal ws ∧ ' ' ∈ (PyStr.join " " ws).toList ∧
      ' ' ∈ (PyStr.join " " (dropAnd m n ws)).toList := by
  cases a with
  | plain w => exact .inl rfl
  | literal ws =>
    match ws with
    | [] => exact .inl rfl
    | [w] => exact .inl rfl
    | w :: w' :: ws =>
      obtain ⟨v, rest, h⟩ := dropAnd_two m n w w' ws
      refine .inr ⟨_, rfl, blank_mem_join w w' ws, ?_⟩
      rw [h]
      exact blank_mem_join w v rest

theorem Operand.dropped_valid {m n : String} {a : Operand} (ha : a.Valid) : (a.dropped m n).Valid := by
  rcases dropped_cases m n a with h | ⟨ws, rfl, -, hblank⟩
  · rwa [h]
  · have hwords : ∀ w ∈ dropAnd m n ws, IsWord w := fun w hw => ha.1 w (mem_dropAnd hw)
    refine ⟨hwords, ?_⟩
    rw [getOperand_literal hwords, literalValue_blank hblank]
    exact operator_blank hblank

theorem length_replacement (m n : String) :
    (replacementPattern m n).toList.length < (targetPattern m n).toList.length := by
  simp [replacementPattern, targetPattern]

section Rewritten

variable {m n : String} (hm : PyStr.isdigit m = true) (hn : PyStr.isdigit n = true)
include hm hn

/-- The rewriting leaves an operand as it is where the text is not in it. -/
theorem dropped_text_iff {a : Operand} (ha : a.OfWords) :
    (a.dropped m n).text = a.text ↔ PyStr.contains a.text (targetPattern m n) = false := by
  rw [← replace_operand hm hn ha]
  exact replace_eq_self_iff (length_replacement m n)

theorem dropped_value_iff {a : Operand} (ha : a.Valid) :
    getOperand (a.dropped m n).text = getOperand a.text ↔
      PyStr.contains a.text (targetPattern m n) = false := by
  rw [← dropped_text_iff hm hn ha.ofWords]
  constructor
  · intro h
    rcases dropped_cases m n a with h' | ⟨ws, rfl, hblank, hblank'⟩
    · rw [h']
    · have hwords : ∀ w ∈ dropAnd m n ws, IsWord w := fun w hw => ha.1 w (mem_dropAnd hw)
      have hdropped : Operand.dropped m n (.literal ws) = .literal (dropAnd m n ws) := rfl
      rw [hdropped, getOperand_literal hwords, getOperand_literal ha.1, literalValue_blank hblank,
        literalValue_blank hblank'] at h
      have hjoin : PyStr.join " " (dropAnd m n ws) = PyStr.join " " ws := Value.str.inj h
      rw [hdropped, Operand.text, Operand.text, hjoin]
  · intro h
    rw [h]

end Rewritten

/-! ## Clauses -/

/-- No number stands in front. -/
def Calm (ws : List String) : Prop := ∀ w ∈ ws.head?, PyStr.isdigit w = false

/-- No match begins in the words of a literal and ends behind them. -/
theorem betweenWords_append {m n : String} (hm : '"' ∉ m.toList) (q : String) (ws front : List String) :
    betweenWords m n (front ++ [q ++ "\""] ++ ws) = betweenWords m n (front ++ [q ++ "\""]) := by
  have hquote : ∀ v : String, '"' ∉ v.toList → q ++ "\"" ≠ v := by
    rintro v hv rfl
    exact hv (by simp)
  have hnone : ∀ l r, (∀ w n' rest, l = w :: m :: "and" :: n' :: rest →
      PyStr.endswith w "BETWEEN" = true → False) → betweenWords m n l ≠ some r := by
    intro l r h hr
    obtain ⟨w, n', rest, he, hw, -, -⟩ := betweenWords_eq_some.mp hr
    exact h w n' rest he hw
  match front with
  | [] =>
    have hq := endswith_quote ⟨q, rfl⟩
    rw [List.nil_append, List.singleton_append, betweenWords_eq_none hq, betweenWords_eq_none hq]
  | [a] =>
    refine Option.eq_none_iff_forall_not_mem.mpr fun r hr => hnone _ r (fun w n' rest he _ => ?_) hr
    exact hquote m hm (List.cons.inj (List.cons.inj he).2).1
  | [a, b] =>
    refine Option.eq_none_iff_forall_not_mem.mpr fun r hr => hnone _ r (fun w n' rest he _ => ?_) hr
    exact hquote "and" (by decide) (List.cons.inj (List.cons.inj (List.cons.inj he).2).2).1
  | a :: b :: c :: front =>
    obtain ⟨d, tail, h⟩ : ∃ d tail, front ++ [q ++ "\""] = d :: tail := by
      cases front <;> exact ⟨_, _, rfl⟩
    have hl : a :: b :: c :: front ++ [q ++ "\""] = a :: b :: c :: d :: tail := by
      rw [← h]
      rfl
    rw [hl]
    rfl

/-- The rewriting of a literal and of what is behind it. -/
theorem dropAnd_literal_append {m n : String} (hm : PyStr.isdigit m = true) (hn : PyStr.isdigit n = true)
    (ls ws : List String) :
    dropAnd m n ((Operand.literal ls).words ++ ws) =
      (Operand.literal (dropAnd m n ls)).words ++ dropAnd m n ws := by
  have hqm : '"' ∉ m.toList := fun h => absurd ((isdigit_iff.mp hm).2 _ h) (by decide)
  have hqn : '"' ∉ n.toList := fun h => absurd ((isdigit_iff.mp hn).2 _ h) (by decide)
  have hlit : dropAnd m n (Operand.literal ls).words = (Operand.literal (dropAnd m n ls)).words :=
    dropAnd_operand m hqn (.literal ls)
  rw [← hlit]
  obtain ⟨front, q, hq⟩ := literal_words_last ls
  refine sub_append _ ws (fun s hs hsuf => ?_) (fun s new len _ hmatch => ?_) (Nat.zero_le _)
  · rw [hq] at hsuf
    obtain ⟨front', rfl⟩ := suffix_concat hs hsuf
    exact betweenWords_append hqm q ws front'
  · obtain ⟨w, n', rest, rfl, -, -, he⟩ := betweenWords_eq_some.mp hmatch
    cases he
    simp

/-- The rewriting of an operand and of what is behind it. -/
theorem dropAnd_operand_append {m n : String} (hm : PyStr.isdigit m = true)
    (hn : PyStr.isdigit n = true) (a : Operand) {ws : List String} (hws : Calm ws) :
    dropAnd m n (a.words ++ ws) = (a.dropped m n).words ++ dropAnd m n ws := by
  cases a with
  | plain w =>
    refine sub_quiet (m := betweenWords m n) [w] ws fun s hs hsuf => ?_
    obtain rfl : s = [w] := by
      rcases List.suffix_cons_iff.mp hsuf with h | h
      · exact h
      · exact absurd (List.suffix_nil.mp h) hs
    refine Option.eq_none_iff_forall_not_mem.mpr fun r hr => ?_
    obtain ⟨w', n', rest, he, -, -, -⟩ := betweenWords_eq_some.mp hr
    obtain ⟨-, rfl⟩ := List.cons.inj he
    exact absurd hm (by rw [hws m rfl]; simp)
  | literal ls => exact dropAnd_literal_append hm hn ls ws

/-- Whether the rewriting takes the `and` of a `BETWEEN m' and n'`. -/
def Rewritten (m n m' n' : String) : Prop := m' = m ∧ PyStr.startswith n' n = true

instance (m n m' n' : String) : Decidable (Rewritten m n m' n') := inferInstanceAs (Decidable (_ ∧ _))

/-- The items that are left of a predicate. -/
def Predicate.left (m n : String) : Predicate → List String
  | .cmp o x y => [(x.dropped m n).text, o.name, (y.dropped m n).text]
  | .between x m' n' =>
    (x.dropped m n).text :: "BETWEEN" :: m' :: if Rewritten m n m' n' then [n'] else ["and", n']
  | .post o x => [(x.dropped m n).text, o.name]

def Clause.tokLeft (m n : String) : Tok Predicate Junction → List String
  | .opd p => p.left m n
  | .op j => [j.name]
  | .lpar => ["("]
  | .rpar => [")"]

def Clause.left (m n : String) (e : Clause) : List String := e.tokens.flatMap (tokLeft m n)

/-- The words of a unit after the rewriting, and the items they join to. -/
def LeavesItems (m n : String) (ws items : List String) : Prop :=
  ∀ rest, Calm rest → ∃ ws', dropAnd m n (ws ++ rest) = ws' ++ dropAnd m n rest ∧
    ∀ before, ws'.foldl joinWord (before, "") = (before ++ items, "")

section Rewritten

variable {m n : String}

theorem LeavesItems.append {ws ws' items items' : List String} (h : LeavesItems m n ws items)
    (h' : LeavesItems m n ws' items') (hcalm : ∀ rest, Calm rest → Calm (ws' ++ rest)) :
    LeavesItems m n (ws ++ ws') (items ++ items') := by
  intro rest hrest
  obtain ⟨u, hu, hui⟩ := h (ws' ++ rest) (hcalm rest hrest)
  obtain ⟨v, hv, hvi⟩ := h' rest hrest
  refine ⟨u ++ v, by rw [List.append_assoc, hu, hv, List.append_assoc], fun before => ?_⟩
  rw [List.foldl_append, hui, hvi, List.append_assoc]

/-- A word that does not end in `BETWEEN` is passed over. -/
theorem LeavesItems.cons {w : String} {ws items : List String} (hw : PyStr.endswith w "BETWEEN" = false)
    (hq : '"' ∉ w.toList) (h : LeavesItems m n ws items) : LeavesItems m n (w :: ws) (w :: items) := by
  intro rest hrest
  obtain ⟨u, hu, hui⟩ := h rest hrest
  refine ⟨w :: u, ?_, fun before => ?_⟩
  · rw [List.cons_append, dropAnd, sub, betweenWords_eq_none hw]
    exact congrArg (w :: ·) hu
  · rw [List.foldl_cons, joinWord_plain before hq, hui]
    simp

theorem leavesItems_nil : LeavesItems m n [] [] :=
  fun rest _ => ⟨[], rfl, fun before => by simp⟩

theorem calm_of_not_digit {w : String} {ws : List String} (h : PyStr.isdigit w = false) : Calm (w :: ws) := by
  intro v hv
  rwa [← Option.some.inj hv]

theorem digits_word {w : String} (hw : PyStr.isdigit w = true) :
    PyStr.endswith w "BETWEEN" = false ∧ '"' ∉ w.toList := by
  have hall := (isdigit_iff.mp hw).2
  refine ⟨Bool.eq_false_iff.mpr fun h => ?_, fun h => absurd (hall _ h) (by decide)⟩
  have hB : 'B' ∈ w.toList := (List.isSuffixOf_iff_suffix.mp h).subset (by decide)
  exact absurd (hall _ hB) (by decide)

theorem leavesItems_operand (hm : PyStr.isdigit m = true) (hn : PyStr.isdigit n = true) {a : Operand}
    (ha : a.OfWords) : LeavesItems m n a.words [(a.dropped m n).text] :=
  fun _ hrest => ⟨(a.dropped m n).words, dropAnd_operand_append hm hn a hrest,
    fun before => joinWord_operand before (Operand.dropped_ofWords ha)⟩

/-- `BETWEEN m' and n'` keeps its `and`, or not. -/
theorem leavesItems_between {m' n' : String} (hm' : PyStr.isdigit m' = true)
    (hn' : PyStr.isdigit n' = true) :
    LeavesItems m n ["BETWEEN", m', "and", n']
      ("BETWEEN" :: m' :: if Rewritten m n m' n' then [n'] else ["and", n']) := by
  obtain ⟨hend, hquote⟩ := digits_word hn'
  obtain ⟨hend', hquote'⟩ := digits_word hm'
  have hquotes : '"' ∉ "BETWEEN".toList ∧ '"' ∉ "and".toList := by decide
  intro rest hrest
  by_cases h : Rewritten m n m' n'
  · obtain ⟨rfl, hstart⟩ := h
    refine ⟨["BETWEEN", m', n'], ?_, fun before => ?_⟩
    · have hmatch : sub (betweenWords m' n) 0 (["BETWEEN", m', "and"] ++ n' :: rest) =
          ["BETWEEN", m'] ++ sub (betweenWords m' n) 0 (n' :: rest) :=
        sub_match (by simp)
          (betweenWords_eq_some.mpr ⟨"BETWEEN", n', rest, rfl, by decide, hstart, rfl⟩)
      have hlast : dropAnd m' n (n' :: rest) = n' :: dropAnd m' n rest := by
        rw [dropAnd, sub, betweenWords_eq_none hend]
        rfl
      show sub (betweenWords m' n) 0 (["BETWEEN", m', "and"] ++ n' :: rest) = _
      rw [hmatch]
      exact congrArg (["BETWEEN", m'] ++ ·) hlast
    · rw [if_pos ⟨rfl, hstart⟩]
      simp only [List.foldl_cons, List.foldl_nil, joinWord_plain _ hquotes.1, joinWord_plain _ hquote,
        joinWord_plain _ hquote']
      simp
  · have hnone : betweenWords m n ("BETWEEN" :: m' :: "and" :: n' :: rest) = none := by
      refine Option.eq_none_iff_forall_not_mem.mpr fun r hr => h ?_
      obtain ⟨w, v, tail, he, -, hstart, -⟩ := betweenWords_eq_some.mp hr
      simp only [List.cons.injEq, true_and] at he
      obtain ⟨rfl, rfl, rfl, rfl⟩ := he
      exact ⟨rfl, hstart⟩
    have hrest' : ∀ v ws, PyStr.endswith v "BETWEEN" = false → dropAnd m n (v :: ws) = v :: dropAnd m n ws := by
      intro v ws hv
      rw [dropAnd, sub, betweenWords_eq_none hv]
      rfl
    refine ⟨["BETWEEN", m', "and", n'], ?_, fun before => ?_⟩
    · show dropAnd m n ("BETWEEN" :: m' :: "and" :: n' :: rest) = _
      have hfirst : dropAnd m n ("BETWEEN" :: m' :: "and" :: n' :: rest) =
          "BETWEEN" :: dropAnd m n (m' :: "and" :: n' :: rest) := by
        rw [dropAnd, sub, hnone]
        rfl
      rw [hfirst, hrest' _ _ hend', hrest' _ _ (by decide), hrest' _ _ hend]
      rfl
    · rw [if_neg h]
      simp only [List.foldl_cons, List.foldl_nil, joinWord_plain _ hquotes.1, joinWord_plain _ hquotes.2,
        joinWord_plain _ hquote, joinWord_plain _ hquote']
      simp

theorem op_word {w : String} (hw : w ∈ operators) (hb : w ≠ "BETWEEN") :
    PyStr.endswith w "BETWEEN" = false ∧ '"' ∉ w.toList ∧ ∀ ws, Calm (w :: ws) := by
  have hops : ∀ s ∈ operators, s ≠ "BETWEEN" → PyStr.endswith s "BETWEEN" = false ∧ '"' ∉ s.toList ∧
      PyStr.isdigit s = false := by decide
  obtain ⟨h1, h2, h3⟩ := hops w hw hb
  exact ⟨h1, h2, fun ws => calm_of_not_digit h3⟩

theorem leavesItems_predicate (hm : PyStr.isdigit m = true) (hn : PyStr.isdigit n = true) {p : Predicate}
    (hp : p.Valid) : LeavesItems m n p.words (p.left m n) := by
  cases p with
  | cmp o x y =>
    have ho : o.name ≠ "BETWEEN" := by cases o <;> decide
    obtain ⟨hend, hquote, hcalm⟩ := op_word o.name_mem.1 ho
    exact (leavesItems_operand hm hn hp.2.1.ofWords).append
      ((leavesItems_operand hm hn hp.2.2.ofWords).cons hend hquote) fun rest _ => hcalm _
  | between x m' n' =>
    exact (leavesItems_operand hm hn hp.1.ofWords).append (leavesItems_between hp.2.1 hp.2.2)
      fun _ _ => calm_of_not_digit (by decide)
  | post o x =>
    obtain ⟨hend, hquote, hcalm⟩ := op_word (w := o.name) (by cases o <;> decide) (by cases o <;> decide)
    exact (leavesItems_operand hm hn (Operand.Valid.ofWords hp)).append
      (leavesItems_nil.cons hend hquote) fun rest _ => hcalm _

/-- Induction on the tree: what is behind a part is an operator, a bracket or nothing. -/
theorem leavesItems_clause (hm : PyStr.isdigit m = true) (hn : PyStr.isdigit n = true) {e : Clause}
    (he : e.AllOpds Predicate.Valid) : LeavesItems m n (Clause.words e) (Clause.left m n e) := by
  induction e with
  | opd p =>
    have hwords : Clause.words (.opd p) = p.words := List.append_nil _
    have hleft : Clause.left m n (.opd p) = p.left m n := List.append_nil _
    rw [hwords, hleft]
    exact leavesItems_predicate hm hn he
  | paren e ih =>
    have hwords : Clause.words e.paren = "(" :: (Clause.words e ++ [")"]) := by
      simp [Clause.words, Expr.tokens, Clause.tokWords]
    have hleft : Clause.left m n e.paren = "(" :: (Clause.left m n e ++ [")"]) := by
      simp [Clause.left, Expr.tokens, Clause.tokLeft]
    have hopen : PyStr.endswith "(" "BETWEEN" = false ∧ '"' ∉ "(".toList := by decide
    have hclose : PyStr.endswith ")" "BETWEEN" = false ∧ '"' ∉ ")".toList := by decide
    rw [hwords, hleft]
    exact ((ih he).append (leavesItems_nil.cons hclose.1 hclose.2)
      fun rest _ => calm_of_not_digit (by decide)).cons hopen.1 hopen.2
  | bin j l r ihl ihr =>
    have hwords : Clause.words (.bin j l r) = Clause.words l ++ j.name :: Clause.words r := by
      simp [Clause.words, Expr.tokens, Clause.tokWords]
    have hleft : Clause.left m n (.bin j l r) = Clause.left m n l ++ j.name :: Clause.left m n r := by
      simp [Clause.left, Expr.tokens, Clause.tokLeft]
    obtain ⟨hend, hquote, hcalm⟩ := op_word (w := j.name) (by cases j <;> decide) (by cases j <;> decide)
    rw [hwords, hleft]
    exact (ihl he.1).append ((ihr he.2).cons hend hquote) fun rest _ => hcalm _

theorem joinWords_left (hm : PyStr.isdigit m = true) (hn : PyStr.isdigit n = true) {e : Clause}
    (he : e.AllOpds Predicate.Valid) : joinWords (dropAnd m n (Clause.words e)) = Clause.left m n e := by
  have hcalm : Calm [] := by
    intro w hw
    cases hw
  obtain ⟨u, hu, hui⟩ := leavesItems_clause hm hn he [] hcalm
  have hnil : dropAnd m n [] = [] := rfl
  rw [List.append_nil, hnil, List.append_nil] at hu
  rw [hu, joinWords, hui]
  rfl

end Rewritten

/-! ## The search -/

theorem takeWhile_digits {a : List Char} (ha : ∀ c ∈ a, c.isDigit = true) {c : Char} (cs : List Char)
    (hc : c.isDigit = false) : (a ++ c :: cs).takeWhile Char.isDigit = a := by
  rw [List.takeWhile_append_of_pos ha, List.takeWhile_cons, hc]
  simp

/-- The search finds one of these texts where there is one. -/
theorem betweenMatch_ne_none {m n : String} (hm : PyStr.isdigit m = true) (hn : PyStr.isdigit n = true)
    {cs : List Char} (h : PyStr.containsList (targetPattern m n).toList cs = true) :
    betweenMatch cs ≠ none := by
  obtain ⟨hmne, hmd⟩ := isdigit_iff.mp hm
  obtain ⟨hnne, hnd⟩ := isdigit_iff.mp hn
  have hat : ∀ r, betweenAt ((targetPattern m n).toList ++ r) ≠ none := by
    intro r
    have htext : (targetPattern m n).toList ++ r =
        "BETWEEN ".toList ++ (m.toList ++ (" and ".toList ++ (n.toList ++ r))) := by
      simp [targetPattern]
    have hprefix : ∀ a b : List Char, a.isPrefixOf (a ++ b) = true :=
      fun a b => List.isPrefixOf_iff_prefix.mpr (List.prefix_append a b)
    have hand : " and ".toList = ' ' :: "and ".toList := by decide
    have htake : (m.toList ++ (" and ".toList ++ (n.toList ++ r))).takeWhile Char.isDigit = m.toList := by
      rw [hand, List.cons_append]
      exact takeWhile_digits hmd _ (by decide)
    obtain ⟨d, ds, hd⟩ := List.exists_cons_of_ne_nil hnne
    have hnum2 : ((n.toList ++ r).takeWhile Char.isDigit).isEmpty = false := by
      rw [hd, List.cons_append, List.takeWhile_cons, hnd d (hd ▸ List.mem_cons_self)]
      rfl
    have hmem : m.toList.isEmpty = false := by simpa using hmne
    unfold betweenAt
    simp only [htext, hprefix, if_true, List.drop_left, htake, hmem, Bool.not_false, Bool.and_self, hnum2]
    simp
  induction cs with
  | nil =>
    have hne : (targetPattern m n).toList ≠ [] := by simp [targetPattern]
    exact absurd (List.isEmpty_iff.mp h) hne
  | cons c cs ih =>
    rw [PyStr.containsList, Bool.or_eq_true] at h
    intro hnone
    rw [betweenMatch, Option.or_eq_none_iff] at hnone
    rcases h with h | h
    · obtain ⟨r, hr⟩ := List.isPrefixOf_iff_prefix.mp h
      rw [← hr] at hnone
      exact hat r hnone.1
    · exact ih h hnone.2

theorem betweenMatch_digits {cs a b : List Char} (h : betweenMatch cs = some (a, b)) :
    PyStr.isdigit (String.ofList a) = true ∧ PyStr.isdigit (String.ofList b) = true := by
  have hat : ∀ cs, betweenAt cs = some (a, b) →
      PyStr.isdigit (String.ofList a) = true ∧ PyStr.isdigit (String.ofList b) = true := by
    intro cs h
    have hdigits : ∀ l : List Char, ∀ c ∈ l.takeWhile Char.isDigit, c.isDigit = true :=
      fun l => List.all_eq_true.mp List.all_takeWhile
    unfold betweenAt at h
    simp only at h
    split at h
    · split at h
      · rename_i hnum1
        split at h
        · cases h
        · rename_i hnum2
          cases h
          refine ⟨isdigit_iff.mpr ⟨?_, ?_⟩, isdigit_iff.mpr ⟨?_, ?_⟩⟩
          · rw [String.toList_ofList]
            simp only [Bool.and_eq_true, Bool.not_eq_true'] at hnum1
            simpa using hnum1.1
          · rw [String.toList_ofList]
            exact hdigits _
          · rw [String.toList_ofList]
            simpa using hnum2
          · rw [String.toList_ofList]
            exact hdigits _
      · cases h
    · cases h
  induction cs with
  | nil => cases h
  | cons c cs ih =>
    rw [betweenMatch, Option.or_eq_some_iff] at h
    rcases h with h | ⟨-, h⟩
    · exact hat _ h
    · exact ih h

theorem prefix_drop {p cs : List Char} (h : p.isPrefixOf cs = true) : cs = p ++ cs.drop p.length := by
  obtain ⟨t, rfl⟩ := List.isPrefixOf_iff_prefix.mp h
  rw [List.drop_left]

/-- The match is a text with its two numbers. -/
theorem betweenMatch_contains {cs a b : List Char} (h : betweenMatch cs = some (a, b)) :
    PyStr.containsList (targetPattern (String.ofList a) (String.ofList b)).toList cs = true := by
  have hat : ∀ cs, betweenAt cs = some (a, b) →
      (targetPattern (String.ofList a) (String.ofList b)).toList <+: cs := by
    intro cs h
    have htake : ∀ l : List Char, l = l.takeWhile Char.isDigit ++ l.drop (l.takeWhile Char.isDigit).length :=
      fun l => prefix_drop (List.isPrefixOf_iff_prefix.mpr (List.takeWhile_prefix _))
    unfold betweenAt at h
    simp only at h
    split at h
    · rename_i hfront
      split at h
      · rename_i hand
        split at h
        · cases h
        · cases h
          have h1 := prefix_drop hfront
          have h2 := prefix_drop (Bool.and_eq_true_iff.mp hand).2
          generalize cs.drop "BETWEEN ".toList.length = rest at h1 h2
          have h3 := htake rest
          obtain ⟨tail, h4⟩ : ∃ tail, (rest.drop (rest.takeWhile Char.isDigit).length).drop " and ".toList.length =
              ((rest.drop (rest.takeWhile Char.isDigit).length).drop " and ".toList.length).takeWhile
                Char.isDigit ++ tail := ⟨_, htake _⟩
          have hcs := h1.trans (congrArg ("BETWEEN ".toList ++ ·) (h3.trans
            (congrArg (rest.takeWhile Char.isDigit ++ ·) (h2.trans (congrArg (" and ".toList ++ ·) h4)))))
          refine ⟨tail, Eq.trans ?_ hcs.symm⟩
          simp only [targetPattern, String.toList_append, String.toList_ofList, List.append_assoc]
      · cases h
    · cases h
  induction cs with
  | nil => cases h
  | cons c cs ih =>
    rw [betweenMatch, Option.or_eq_some_iff] at h
    rw [PyStr.containsList, Bool.or_eq_true, List.isPrefixOf_iff_prefix]
    rcases h with h | ⟨-, h⟩
    · exact .inl (hat _ h)
    · exact .inr (ih h)

/-! ## The words of a text -/

section Words

variable {ws : List String} (hws : ∀ w ∈ ws, Unspaced w)
include hws

theorem splitWs_dropAnd (m n : String) :
    PyStr.splitWs (PyStr.join " " (dropAnd m n ws)) = dropAnd m n ws :=
  PyStr.splitWs_join fun w hw => hws w (mem_dropAnd hw)

/-- The words of a text are its words without the `and` of the texts that the first
match gives. -/
theorem wordsOf_join {a b : List Char} (h : betweenMatch (PyStr.join " " ws).toList = some (a, b)) :
    wordsOf (PyStr.join " " ws) = dropAnd (String.ofList a) (String.ofList b) ws := by
  obtain ⟨ha, hb⟩ := betweenMatch_digits h
  have hreplace := replace_words ha hb fun w hw => (hws w hw).no_blank
  unfold wordsOf betweenSub
  rw [h]
  show PyStr.splitWs (PyStr.replace _ (targetPattern _ _) (replacementPattern _ _)) = _
  rw [hreplace]
  exact splitWs_dropAnd hws _ _

theorem wordsOf_join_none (h : betweenMatch (PyStr.join " " ws).toList = none) :
    wordsOf (PyStr.join " " ws) = ws := by
  unfold wordsOf betweenSub
  rw [h]
  exact PyStr.splitWs_join hws

/-- Where the pattern matches, the rewriting leaves out a word. -/
theorem dropAnd_ne {a b : List Char} (h : betweenMatch (PyStr.join " " ws).toList = some (a, b)) :
    dropAnd (String.ofList a) (String.ofList b) ws ≠ ws := by
  obtain ⟨ha, hb⟩ := betweenMatch_digits h
  intro he
  have hreplace := replace_words ha hb fun w hw => (hws w hw).no_blank
  rw [he, replace_eq_self_iff (length_replacement _ _)] at hreplace
  have hcontains := betweenMatch_contains h
  rw [PyStr.contains, hcontains] at hreplace
  cases hreplace

end Words

/-! ## The compiled clause -/

/-- The words of the text are those of the clause without the `and` of the texts
that the first match gives. -/
theorem wordsOf_text {e : Clause} (he : e.AllOpds Predicate.Valid) {a b : List Char}
    (h : betweenMatch (Clause.text e).toList = some (a, b)) :
    wordsOf (Clause.text e) = dropAnd (String.ofList a) (String.ofList b) (Clause.words e) :=
  wordsOf_join (Clause.unspaced he) h

/-- Where nothing is found there is nothing to rewrite. -/
theorem dropAnd_of_none {e : Clause} (he : e.AllOpds Predicate.Valid)
    (h : betweenMatch (Clause.text e).toList = none) {m n : String} (hm : PyStr.isdigit m = true)
    (hn : PyStr.isdigit n = true) : dropAnd m n (Clause.words e) = Clause.words e := by
  have hreplace := replace_words hm hn fun w hw => (Clause.unspaced he w hw).no_blank
  have hsame : PyStr.replace (Clause.text e) (targetPattern m n) (replacementPattern m n) = Clause.text e :=
    (replace_eq_self_iff (length_replacement m n)).mpr <| Bool.eq_false_iff.mpr fun hc =>
      betweenMatch_ne_none hm hn hc h
  rw [← splitWs_dropAnd (Clause.unspaced he), ← hreplace]
  show PyStr.splitWs (PyStr.replace (Clause.text e) _ _) = _
  rw [hsame, Clause.text, PyStr.splitWs_join (Clause.unspaced he)]

theorem none_between {e : Clause} (he : e.AllOpds Predicate.Valid)
    (h : betweenMatch (Clause.text e).toList = none) (x : Operand) (m n : String) :
    .opd (.between x m n) ∉ e.tokens := by
  intro hmem
  have hp := (Expr.allOpds_iff e).mp he _ hmem
  obtain ⟨ts, ts', hts⟩ := List.append_of_mem hmem
  have hwords : Clause.words e = (ts.flatMap Clause.tokWords ++ x.words) ++
      ["BETWEEN", m, "and", n] ++ ts'.flatMap Clause.tokWords := by
    simp [Clause.words, hts, Clause.tokWords, Predicate.words]
  have hlt : (sub (betweenWords m n) 0 (Clause.words e)).length < (Clause.words e).length :=
    length_sub (fun s new len hs => by
      obtain ⟨w, n', rest, rfl, -, -, hr⟩ := betweenWords_eq_some.mp hs
      cases hr
      simp)
    ⟨["BETWEEN", m, "and", n] ++ ts'.flatMap Clause.tokWords, by simp,
      ⟨ts.flatMap Clause.tokWords ++ x.words, by rw [hwords]; simp⟩, fun hnone => by
        have hsome : betweenWords m n (["BETWEEN", m, "and", n] ++ ts'.flatMap Clause.tokWords) =
            some (["BETWEEN", m], 3) :=
          betweenWords_eq_some.mpr ⟨"BETWEEN", n, _, rfl, by decide,
            List.isPrefixOf_iff_prefix.mpr List.prefix_rfl, rfl⟩
        rw [hsome] at hnone
        cases hnone⟩
  have hsame := dropAnd_of_none he h hp.2.1 hp.2.2
  rw [dropAnd] at hsame
  rw [hsame] at hlt
  exact Nat.lt_irrefl _ hlt

/-- The same operand up to the words of a literal. -/
def Operand.Alike : Operand → Operand → Prop
  | .plain w, b => b = .plain w
  | .literal _, b => ∃ ws, b = .literal ws

/-- The same predicate up to the words of its literals, a `BETWEEN` to the letter. -/
def Predicate.Alike : Predicate → Predicate → Prop
  | .cmp o x y, p => ∃ x' y', p = .cmp o x' y' ∧ x.Alike x' ∧ y.Alike y'
  | .between x m n, p => p = .between x m n
  | .post o x, p => ∃ x', p = .post o x' ∧ x.Alike x'

/-- The clause compiles to its tree, with a node for every `BETWEEN`, its operand and
its bounds. -/
def BetweensCompiled (e : Clause) : Prop :=
  ∃ f : Predicate → Predicate, (∀ p : Predicate, p.Alike (f p)) ∧
    compileWhere (Clause.text e) = .ok (Clause.image ((e.reading Junction.prec).mapOpd f))

/-- A `BETWEEN` is rewritten, and its operand is not. -/
def Predicate.Follows (m n : String) : Predicate → Prop
  | .between x m' n' => Rewritten m n m' n' ∧ PyStr.contains x.text (targetPattern m n) = false
  | _ => True

/-- What the rewriting leaves of a predicate that follows. -/
def Predicate.dropped (m n : String) : Predicate → Predicate
  | .cmp o x y => .cmp o (x.dropped m n) (y.dropped m n)
  | .between x m' n' => .between x m' n'
  | .post o x => .post o (x.dropped m n)

theorem Operand.alike_dropped (m n : String) (a : Operand) : a.Alike (a.dropped m n) := by
  cases a with
  | plain w => rfl
  | literal ws => exact ⟨_, rfl⟩

theorem Predicate.alike_dropped (m n : String) (p : Predicate) : p.Alike (p.dropped m n) := by
  cases p with
  | cmp o x y => exact ⟨_, _, rfl, x.alike_dropped m n, y.alike_dropped m n⟩
  | between x m' n' => rfl
  | post o x => exact ⟨_, rfl, x.alike_dropped m n⟩

theorem Predicate.dropped_valid {m n : String} {p : Predicate} (hp : p.Valid) : (p.dropped m n).Valid := by
  cases p with
  | cmp o x y => exact ⟨hp.1, Operand.dropped_valid hp.2.1, Operand.dropped_valid hp.2.2⟩
  | between x m' n' => exact hp
  | post o x => exact Operand.dropped_valid hp

section Rewritten

variable {m n : String}

theorem left_eq_items (hm : PyStr.isdigit m = true) (hn : PyStr.isdigit n = true) {e : Clause}
    (he : e.AllOpds Predicate.Valid) (hf : e.AllOpds (Predicate.Follows m n)) :
    Clause.left m n e = Clause.items (e.mapOpd (Predicate.dropped m n)) := by
  have hp : ∀ p : Predicate, p.Valid → p.Follows m n → p.left m n = (p.dropped m n).items := by
    intro p hv hfollows
    cases p with
    | cmp o x y => rfl
    | between x m' n' =>
      have htext := (dropped_text_iff hm hn hv.1.ofWords).mpr hfollows.2
      simp [Predicate.left, Predicate.items, Predicate.dropped, Predicate.subject, Predicate.op,
        Predicate.rest, htext, hfollows.1]
    | post o x => rfl
  rw [Clause.left, Clause.items, Expr.mapOpd_tokens, List.flatMap_map]
  refine List.flatMap_congr fun t ht => ?_
  cases t with
  | opd p => exact hp p ((Expr.allOpds_iff e).mp he p ht) ((Expr.allOpds_iff e).mp hf p ht)
  | op j => rfl
  | lpar => rfl
  | rpar => rfl

/-- Where all bounds follow, the tree comes out. -/
theorem betweens_compiled (hm : PyStr.isdigit m = true) (hn : PyStr.isdigit n = true) {e : Clause}
    (he : e.AllOpds Predicate.Valid) (hf : e.AllOpds (Predicate.Follows m n))
    (hq : wordsOf (Clause.text e) = dropAnd m n (Clause.words e)) : BetweensCompiled e := by
  refine ⟨Predicate.dropped m n, Predicate.alike_dropped m n, ?_⟩
  refine compile_clause (e := e.mapOpd (Predicate.dropped m n)) ?_ ?_ ?_ ?_
  · exact Expr.allOpds_mapOpd.mpr (he.imp fun p hp => Predicate.dropped_valid hp)
  · rw [Expr.mapOpd_tokens, Expr.mapOpd_tokens, Expr.reading_tokens]
  · exact Expr.mapOpd_disciplined (Expr.reading_disciplined _ e)
  · rw [hq, joinWords_left hm hn he, left_eq_items hm hn he hf]

end Rewritten

/-! ## The operands that come out -/

def Clause.tokOperands : Tok Predicate Junction → List Value
  | .opd p => p.operands
  | _ => []

theorem Clause.operands_eq (e : Clause) : Clause.operands e = e.tokens.flatMap Clause.tokOperands := by
  induction e with
  | opd p => simp [Clause.operands, Expr.tokens, Clause.tokOperands]
  | paren e ih => simp [Clause.operands, Expr.tokens, Clause.tokOperands, ih]
  | bin j l r ihl ihr => simp [Clause.operands, Expr.tokens, Clause.tokOperands, ihl, ihr]

section Rewritten

variable {m n : String}

theorem operandValues_cons_op {w : String} (h : w ∈ operators) (items : List String) :
    operandValues (w :: items) = operandValues items := by
  simp [operandValues, h]

theorem operandValues_cons {w : String} (h : w ∉ operators) (items : List String) :
    operandValues (w :: items) = getOperand w :: operandValues items := by
  simp [operandValues, h]

theorem operandValues_between {x : Operand} {m' n' : String} (hp : (Predicate.between x m' n').Valid) :
    operandValues ((Predicate.between x m' n').left m n) =
      getOperand (x.dropped m n).text :: getOperand m' ::
        if Rewritten m n m' n' then [getOperand n'] else [getOperand "and", getOperand n'] := by
  have hx := operand_not_operator (Operand.dropped_valid (m := m) (n := n) hp.1)
  have hm' := (isOperand_digits hp.2.1).1
  have hn' := (isOperand_digits hp.2.2).1
  have hand : "and" ∉ operators := by decide
  have hnil : operandValues [] = [] := rfl
  rw [Predicate.left, operandValues_cons hx, operandValues_cons_op (by decide), operandValues_cons hm']
  split
  · rw [operandValues_cons hn', hnil]
  · rw [operandValues_cons hand, operandValues_cons hn', hnil]

/-- Other predicates keep the number of their operands. -/
theorem length_operandValues {p q : Predicate} (hp : p.Valid) (hq : p.Alike q)
    (hb : ∀ x m' n', p ≠ .between x m' n') :
    (operandValues (p.left m n)).length = q.operands.length := by
  cases p with
  | cmp o x y =>
    obtain ⟨x', y', rfl, -, -⟩ := hq
    have hx := operand_not_operator (Operand.dropped_valid (m := m) (n := n) hp.2.1)
    have hy := operand_not_operator (Operand.dropped_valid (m := m) (n := n) hp.2.2)
    rw [Predicate.left, operandValues_cons hx, operandValues_cons_op o.name_mem.1, operandValues_cons hy]
    rfl
  | between x m' n' => exact absurd rfl (hb x m' n')
  | post o x =>
    obtain ⟨x', rfl, -⟩ := hq
    have hx := operand_not_operator (Operand.dropped_valid (m := m) (n := n) hp)
    rw [Predicate.left, operandValues_cons hx, operandValues_cons_op (by cases o <;> decide)]
    rfl

theorem getOperand_and_ne {w : String} (hw : PyStr.isdigit w = true) : getOperand w ≠ getOperand "and" := by
  have hand : getOperand "and" = .list [.str ".and"] := rfl
  have hdollar : PyStr.startswith w "$" = false := by
    refine Bool.eq_false_iff.mpr fun hp => ?_
    have hm : '$' ∈ w.toList := (List.isPrefixOf_iff_prefix.mp hp).subset (by decide)
    exact absurd ((isdigit_iff.mp hw).2 _ hm) (by decide)
  rw [hand]
  simp [getOperand, hdollar, hw]

/-- Where the tree's operands come first among those of the items, every `BETWEEN`
has been rewritten: an `and` that is left takes the place of its second bound.
Induction on the tokens, from the left. -/
theorem follows_of_isPrefix (hm : PyStr.isdigit m = true) (hn : PyStr.isdigit n = true)
    {f : Predicate → Predicate} (hf : ∀ p : Predicate, p.Alike (f p)) {ts : List (Tok Predicate Junction)}
    (hts : ∀ p, .opd p ∈ ts → p.Valid)
    (h : (ts.flatMap fun t => Clause.tokOperands (Expr.tokMap f t)) <+:
      operandValues (ts.flatMap (Clause.tokLeft m n))) :
    ∀ p, .opd p ∈ ts → p.Follows m n := by
  induction ts with
  | nil => simp
  | cons t ts ih =>
    rw [List.flatMap_cons, List.flatMap_cons, operandValues_append] at h
    have ih := ih fun p hp => hts p (List.mem_cons_of_mem _ hp)
    have hskip : ∀ {a b : List Value}, a.length = b.length →
        a ++ (ts.flatMap fun t => Clause.tokOperands (Expr.tokMap f t)) <+:
          b ++ operandValues (ts.flatMap (Clause.tokLeft m n)) →
        a = b ∧ ∀ p, .opd p ∈ ts → p.Follows m n := by
      rintro a b hlen ⟨z, hz⟩
      rw [List.append_assoc] at hz
      obtain ⟨hab, hrest⟩ := List.append_inj hz hlen
      exact ⟨hab, ih ⟨z, hrest⟩⟩
    intro p hp
    cases t with
    | op j =>
      have hval : operandValues (Clause.tokLeft m n (.op j)) = [] := operandValues_cons_op (by cases j <;> decide) []
      rw [hval] at h
      exact (hskip (a := []) rfl h).2 p (by simpa using hp)
    | lpar => exact (hskip (a := []) rfl h).2 p (by simpa using hp)
    | rpar => exact (hskip (a := []) rfl h).2 p (by simpa using hp)
    | opd q =>
      have hq := hts q List.mem_cons_self
      have hcase : q.Follows m n ∧ ∀ p, .opd p ∈ ts → p.Follows m n := by
        by_cases hb : ∃ x m' n', q = .between x m' n'
        · obtain ⟨x, m', n', rfl⟩ := hb
          have himage : f (.between x m' n') = .between x m' n' := hf (.between x m' n')
          have hleft : Clause.tokLeft m n (.opd (.between x m' n')) = (Predicate.between x m' n').left m n := rfl
          have hopd : Clause.tokOperands (Expr.tokMap f (.opd (.between x m' n'))) =
              [getOperand x.text, getOperand m', getOperand n'] := by
            rw [Expr.tokMap, himage]
            rfl
          rw [hleft, operandValues_between hq, hopd] at h
          by_cases hr : Rewritten m n m' n'
          · rw [if_pos hr] at h
            obtain ⟨heq, hrest⟩ := hskip (by simp) h
            have hx := (List.cons.inj heq).1
            exact ⟨⟨hr, (dropped_value_iff hm hn hq.1).mp hx.symm⟩, hrest⟩
          · rw [if_neg hr] at h
            obtain ⟨z, hz⟩ := h
            simp only [List.cons_append, List.cons.injEq] at hz
            exact absurd hz.2.2.1 (getOperand_and_ne hq.2.2)
        · have hlen := length_operandValues (m := m) (n := n) hq (hf q) fun x m' n' he => hb ⟨x, m', n', he⟩
          have hrest := (hskip (a := (f q).operands) hlen.symm h).2
          cases q with
          | between x m' n' => exact absurd ⟨x, m', n', rfl⟩ hb
          | cmp o x y => exact ⟨trivial, hrest⟩
          | post o x => exact ⟨trivial, hrest⟩
      rcases List.mem_cons.mp hp with he | hp
      · obtain rfl := Tok.opd.inj he
        exact hcase.1
      · exact hcase.2 p hp

/-- No `IN` is left, and nothing else the second stack would take for an operator. -/
theorem left_operand {p : Predicate} (hp : p.Valid) : ∀ w ∈ p.left m n, w = p.op ∨ IsOperand w := by
  have hdropped : ∀ a : Operand, a.Valid → IsOperand (a.dropped m n).text :=
    fun a ha => isOperand_text (Operand.dropped_valid ha)
  intro w hw
  cases p with
  | cmp o x y =>
    simp only [Predicate.left, List.mem_cons, List.not_mem_nil, or_false] at hw
    rcases hw with rfl | rfl | rfl
    · exact .inr (hdropped x hp.2.1)
    · exact .inl rfl
    · exact .inr (hdropped y hp.2.2)
  | between x m' n' =>
    have hand : IsOperand "and" := ⟨by decide, rfl⟩
    simp only [Predicate.left, List.mem_cons] at hw
    rcases hw with rfl | rfl | rfl | hw
    · exact .inr (hdropped x hp.1)
    · exact .inl rfl
    · exact .inr (isOperand_digits hp.2.1)
    · split at hw
      · rw [List.mem_singleton.mp hw]
        exact .inr (isOperand_digits hp.2.2)
      · simp only [List.mem_cons, List.not_mem_nil, or_false] at hw
        rcases hw with rfl | rfl
        · exact .inr hand
        · exact .inr (isOperand_digits hp.2.2)
  | post o x =>
    simp only [Predicate.left, List.mem_cons, List.not_mem_nil, or_false] at hw
    rcases hw with rfl | rfl
    · exact .inr (hdropped x hp)
    · exact .inl rfl

theorem left_operands {e : Clause} (he : e.AllOpds Predicate.Valid) :
    ∀ w ∈ Clause.left m n e, (w ∈ operators ∧ w ≠ "IN") ∨ IsOperand w := by
  intro w hw
  obtain ⟨t, ht, hw⟩ := List.mem_flatMap.mp hw
  cases t with
  | opd p =>
    obtain ⟨hmem, -, -, hin⟩ := p.op_mem
    rcases left_operand ((Expr.allOpds_iff e).mp he p ht) w hw with rfl | h
    · exact .inl ⟨hmem, hin⟩
    · exact .inr h
  | op j =>
    rw [List.mem_singleton.mp hw]
    exact .inl (by cases j <;> decide)
  | lpar =>
    rw [List.mem_singleton.mp hw]
    exact .inl (by decide)
  | rpar =>
    rw [List.mem_singleton.mp hw]
    exact .inl (by decide)

theorem follows_of_compiled (hm : PyStr.isdigit m = true) (hn : PyStr.isdigit n = true) {e : Clause}
    (he : e.AllOpds Predicate.Valid) (hq : wordsOf (Clause.text e) = dropAnd m n (Clause.words e))
    (h : BetweensCompiled e) : e.AllOpds (Predicate.Follows m n) := by
  obtain ⟨f, hf, hcompile⟩ := h
  have hitems : joinWords (wordsOf (Clause.text e)) = Clause.left m n e := by
    rw [hq, joinWords_left hm hn he]
  have hleft := left_operands (m := m) (n := n) he
  rw [← hitems] at hleft
  have hprefix := leaves_compile hcompile
    (fun hin => (hleft _ hin).elim (fun h => h.2 rfl) fun h => h.1 (by decide))
    (fun w hw hno => (hleft w hw).elim (fun h => absurd h.1 hno) And.right)
  rw [hitems, leaves_image, Clause.operands_eq, Expr.mapOpd_tokens, Expr.reading_tokens,
    List.flatMap_map] at hprefix
  exact (Expr.allOpds_iff e).mpr
    (follows_of_isPrefix hm hn hf (fun p hp => (Expr.allOpds_iff e).mp he p hp) hprefix)

end Rewritten

/-- Every `BETWEEN` of a clause is compiled where all of them have the bounds of the
first text of that form, the second one up to further digits, and only there. -/
theorem betweens_compiled_iff (e : Clause) (he : e.AllOpds Predicate.Valid) :
    BetweensCompiled e ↔ ∀ a b, betweenMatch (Clause.text e).toList = some (a, b) →
      e.AllOpds (Predicate.Follows (String.ofList a) (String.ofList b)) := by
  constructor
  · intro h a b hmatch
    obtain ⟨ha, hb⟩ := betweenMatch_digits hmatch
    exact follows_of_compiled ha hb he (wordsOf_text he hmatch) h
  · intro h
    cases hmatch : betweenMatch (Clause.text e).toList with
    | some r =>
      obtain ⟨ha, hb⟩ := betweenMatch_digits hmatch
      exact betweens_compiled ha hb he (h r.1 r.2 hmatch) (wordsOf_text he hmatch)
    | none =>
      -- there is no `BETWEEN`, and any bounds rewrite nothing
      have hzero : PyStr.isdigit "0" = true := by decide
      have hf : e.AllOpds (Predicate.Follows "0" "0") := by
        refine (Expr.allOpds_iff e).mpr fun p hp => ?_
        cases p with
        | cmp o x y => trivial
        | between x m n => exact absurd hp (none_between he hmatch x m n)
        | post o x => trivial
      refine betweens_compiled hzero hzero he hf ?_
      rw [dropAnd_of_none he hmatch hzero hzero]
      exact wordsOf_join_none (Clause.unspaced he) hmatch

/-- `id BETWEEN 24 and 28` -/
def idBetween : Clause := .opd (.between (.plain "id") "24" "28")

theorem betweens_compiled_idBetween : BetweensCompiled idBetween :=
  (betweens_compiled_iff idBetween (by decide)).mpr fun a b h => by
    have hmatch : betweenMatch (Clause.text idBetween).toList = some ("24".toList, "28".toList) := by
      decide
    obtain ⟨rfl, rfl⟩ := Prod.mk.inj (Option.some.inj (hmatch.symm.trans h))
    exact ⟨by decide, by decide⟩

/-- `x BETWEEN 1 and 2 AND y BETWEEN 3 and 4` -/
def twoBetweens : Clause :=
  .bin .and (.opd (.between (.plain "x") "1" "2")) (.opd (.between (.plain "y") "3" "4"))

/-- The second one keeps its `and`, which becomes its second bound. -/
theorem secondBetween_not_compiled :
    twoBetweens.AllOpds Predicate.Valid ∧
      compileWhere (Clause.text twoBetweens) = .ok (.list [.str "AND",
        .list [.str "BETWEEN", .list [.str ".x"], .int 1, .int 2],
        .list [.str "BETWEEN", .list [.str ".y"], .int 3, .list [.str ".and"]]]) ∧
      ¬ BetweensCompiled twoBetweens := by
  have hv : twoBetweens.AllOpds Predicate.Valid := by decide
  have hmatch : betweenMatch (Clause.text twoBetweens).toList = some ("1".toList, "2".toList) := by decide
  refine ⟨hv, rfl, fun h => ?_⟩
  have hf := follows_of_compiled (by decide) (by decide) hv (wordsOf_text hv hmatch) h
  exact absurd hf.2.1 (by decide)

end MobileTestkit.L3.RqgParser
