import MobileTestkit.L3Query.BuiltTrees
import MobileTestkit.L3Query.WherePart

/-!
# The values of the items

What `get_prefix_list` puts together from words without white space, and what
`get_operand` makes of it.

* `joinWords_itemText`: an item is a word, a closing word behind a blank, or a text
  from an opening word to a closing one.
* `ItemText.built`: the value of such an item is built.
-/
namespace MobileTestkit.L3.RqgParser

open MobileTestkit.Core

/-! ## Quotes at the ends -/

/-- Characters without white space, not all of them quotes. -/
def Solid (cs : List Char) : Prop := (∀ c ∈ cs, PyStr.isspace c = false) ∧ ∃ c ∈ cs, c ≠ '"'

theorem Solid.dropWhile {cs : List Char} (h : Solid cs) (rest : List Char) :
    ∃ c ds, (∀ d ∈ c :: ds, PyStr.isspace d = false) ∧ (cs ++ rest).dropWhile (· == '"') = c :: ds ++ rest := by
  obtain ⟨hspace, hsome⟩ := h
  induction cs with
  | nil => simp at hsome
  | cons c cs ih =>
    rw [List.cons_append, List.dropWhile_cons]
    by_cases hc : c = '"'
    · rw [if_pos (beq_iff_eq.mpr hc)]
      refine ih (fun d hd => hspace d (List.mem_cons_of_mem _ hd)) ?_
      obtain ⟨d, hd, hne⟩ := hsome
      rcases List.mem_cons.mp hd with rfl | hd
      · exact absurd hc hne
      · exact ⟨d, hd, hne⟩
    · rw [if_neg fun he => hc (beq_iff_eq.mp he)]
      exact ⟨c, cs, hspace, rfl⟩

/-- Stripped of its quotes, a text between two such words has no white space at its ends. -/
theorem trimmed_stripChar {front back : List Char} (hfront : Solid front) (hback : Solid back) (mid : List Char) :
    PyStr.Trimmed (PyStr.stripChar '"' (front ++ (mid ++ back))) := by
  obtain ⟨c, cs, hcs, hf⟩ := hfront.dropWhile (mid ++ back)
  have hrev : Solid back.reverse :=
    ⟨fun d hd => hback.1 d (List.mem_reverse.mp hd), hback.2.imp fun d hd => ⟨List.mem_reverse.mpr hd.1, hd.2⟩⟩
  obtain ⟨d, ds, hds, hb⟩ := hrev.dropWhile (mid.reverse ++ (c :: cs).reverse)
  have hreverse : (c :: cs ++ (mid ++ back)).reverse = back.reverse ++ (mid.reverse ++ (c :: cs).reverse) := by simp
  have hstrip : PyStr.stripChar '"' (front ++ (mid ++ back)) = c :: (cs ++ (mid ++ (ds.reverse ++ [d]))) := by
    rw [PyStr.stripChar, hf, hreverse, hb]
    simp
  rw [hstrip]
  refine ⟨fun e he => ?_, fun e he => ?_⟩
  · obtain rfl : c = e := by simpa using he
    exact hcs _ List.mem_cons_self
  · have hlast : c :: (cs ++ (mid ++ (ds.reverse ++ [d]))) = c :: (cs ++ (mid ++ ds.reverse)) ++ [d] := by simp
    rw [hlast, List.getLast?_concat] at he
    obtain rfl : d = e := by simpa using he
    exact hds _ List.mem_cons_self

theorem trimmed_of_unspaced {cs : List Char} (h : ∀ c ∈ cs, PyStr.isspace c = false) : PyStr.Trimmed cs :=
  ⟨fun c hc => h c (List.mem_of_mem_head? hc), fun c hc => h c (List.mem_of_mem_getLast? hc)⟩

theorem mem_stripChar {c d : Char} {cs : List Char} (h : d ∈ PyStr.stripChar c cs) : d ∈ cs :=
  (List.dropWhile_sublist _).subset (List.mem_reverse.mp ((List.dropWhile_sublist _).subset (List.mem_reverse.mp h)))

/-! ## The items -/

/-- What `item_list` gets: a word, a closing word behind a blank, or all from an opening
word to a closing one. -/
inductive ItemText (item : String) : Prop
  | word (h : Unspaced item)
  | closing {w : String} (hquote : '"' ∈ w.toList) (hitem : item = " " ++ w)
  | quoted {front mid back : List Char} (hopen : PyStr.startswith item "\"" = true) (hfront : Solid front)
      (hback : Solid back) (hitem : item.toList = front ++ (mid ++ back))

/-- What `split_word` has in it. -/
def Opened (splitWord : String) : Prop :=
  PyStr.startswith splitWord "\"" = true ∧ ∃ front rest, Solid front ∧ splitWord.toList = front ++ rest

theorem startswith_quote_iff {s : String} : PyStr.startswith s "\"" = true ↔ ∃ cs, s.toList = '"' :: cs := by
  have hquote : "\"".toList = ['"'] := by decide
  rw [PyStr.startswith, List.isPrefixOf_iff_prefix, hquote]
  constructor
  · rintro ⟨cs, hcs⟩
    exact ⟨cs, hcs.symm⟩
  · rintro ⟨cs, hcs⟩
    exact ⟨cs, hcs.symm⟩

theorem endswith_quote_iff {s : String} : PyStr.endswith s "\"" = true ↔ ∃ cs, s.toList = cs ++ ['"'] := by
  have hquote : "\"".toList = ['"'] := by decide
  rw [PyStr.endswith, List.isSuffixOf_iff_suffix, hquote]
  constructor
  · rintro ⟨cs, hcs⟩
    exact ⟨cs, hcs.symm⟩
  · rintro ⟨cs, hcs⟩
    exact ⟨cs, hcs.symm⟩

/-- A word without a quote at one of its ends. -/
theorem Unspaced.solid {w : String} (hw : Unspaced w)
    (h : PyStr.startswith w "\"" = false ∨ PyStr.endswith w "\"" = false) : Solid w.toList := by
  refine ⟨hw.2, ?_⟩
  rcases h with h | h
  · obtain ⟨c, cs, hc⟩ := List.exists_cons_of_ne_nil hw.toList_ne_nil
    refine ⟨c, by rw [hc]; exact List.mem_cons_self, ?_⟩
    rintro rfl
    rw [startswith_quote_iff.mpr ⟨cs, hc⟩] at h
    cases h
  · rcases List.eq_nil_or_concat w.toList with hnil | ⟨cs, c, hc⟩
    · exact absurd hnil hw.toList_ne_nil
    · rw [List.concat_eq_append] at hc
      refine ⟨c, by rw [hc]; simp, ?_⟩
      rintro rfl
      rw [endswith_quote_iff.mpr ⟨cs, hc⟩] at h
      cases h

theorem Opened.append {s : String} (h : Opened s) (t : String) : Opened (s ++ t) := by
  obtain ⟨hopen, front, rest, hfront, hs⟩ := h
  obtain ⟨cs, hcs⟩ := startswith_quote_iff.mp hopen
  refine ⟨startswith_quote_iff.mpr ⟨cs ++ t.toList, ?_⟩, front, rest ++ t.toList, hfront, ?_⟩
  · rw [String.toList_append, hcs]
    rfl
  · rw [String.toList_append, hs, List.append_assoc]

/-- A round of the loop over the words. -/
theorem joinWord_itemText {itemList : List String} {splitWord w : String} (hw : Unspaced w)
    (hitems : ∀ item ∈ itemList, ItemText item) (hsplit : splitWord = "" ∨ Opened splitWord) :
    (∀ item ∈ (joinWord (itemList, splitWord) w).1, ItemText item) ∧
      ((joinWord (itemList, splitWord) w).2 = "" ∨ Opened (joinWord (itemList, splitWord) w).2) := by
  have hput : ∀ {item : String}, ItemText item → ∀ u ∈ itemList ++ [item], ItemText u := by
    intro item hitem u hu
    rcases List.mem_append.mp hu with hu | hu
    · exact hitems u hu
    · rw [List.mem_singleton.mp hu]
      exact hitem
  unfold joinWord
  dsimp only
  split
  · rename_i h
    obtain ⟨hopen, hend⟩ := Bool.and_eq_true_iff.mp h
    have hend : PyStr.endswith w "\"" = false := by simpa using hend
    refine ⟨hitems, .inr ?_⟩
    rcases hsplit with rfl | hsplit
    · rw [String.empty_append]
      exact ⟨hopen, w.toList, [], hw.solid (.inr hend), by rw [List.append_nil]⟩
    · exact hsplit.append w
  split
  · rename_i h
    obtain ⟨hopen, hend⟩ := Bool.and_eq_true_iff.mp h
    have hopen : PyStr.startswith w "\"" = false := by simpa using hopen
    refine ⟨hput ?_, .inl rfl⟩
    rcases hsplit with rfl | hsplit
    · refine @ItemText.closing _ w ?_ (by rw [String.empty_append])
      obtain ⟨cs, hcs⟩ := endswith_quote_iff.mp hend
      rw [hcs]
      simp
    · obtain ⟨hquote, front, rest, hfront, hs⟩ := hsplit
      refine @ItemText.quoted _ front (rest ++ [' ']) w.toList ?_ hfront (hw.solid (.inl hopen)) ?_
      · exact (Opened.append (Opened.append ⟨hquote, front, rest, hfront, hs⟩ " ") w).1
      · simp [hs]
  split
  · rename_i hne
    rcases hsplit with rfl | hsplit
    · exact absurd rfl hne
    · exact ⟨hitems, .inr ((hsplit.append " ").append w)⟩
  · exact ⟨hput (.word hw), hsplit⟩

theorem joinWords_itemText {ws : List String} (hws : ∀ w ∈ ws, Unspaced w) : ∀ item ∈ joinWords ws, ItemText item := by
  have key : ∀ (ws : List String) (st : List String × String), (∀ w ∈ ws, Unspaced w) →
      (∀ item ∈ st.1, ItemText item) → (st.2 = "" ∨ Opened st.2) →
        ∀ item ∈ (ws.foldl joinWord st).1, ItemText item := by
    intro ws
    induction ws with
    | nil => exact fun st _ hitems _ => hitems
    | cons w ws ih =>
      intro st hws hitems hsplit
      obtain ⟨hw, hws⟩ := List.forall_mem_cons.mp hws
      obtain ⟨hitems, hsplit⟩ := joinWord_itemText hw hitems hsplit
      exact ih _ hws hitems hsplit
  exact key ws ([], "") hws (by simp) (.inl rfl)

/-! ## Their values -/

theorem operandText_of_none {s : String} (hs : PyStr.Trimmed s.toList ∨ '"' ∈ s.toList)
    (h : operator? (.str s) = none) : OperandText s := by
  refine ⟨fun hmem => ?_, hs⟩
  simp [operator?, hmem] at h

/-- The value of an item that is no operator. -/
theorem ItemText.built {w : String} (hw : ItemText w) (h : operator? (getOperand w) = none) :
    Built (getOperand w) := by
  have hnode : ∀ s : String, Built (.list [.str ("." ++ s)]) := by
    intro s
    have hlist : ("." ++ s).toList = '.' :: s.toList := by simp
    have hops : ∀ op ∈ operators, op.toList.head? ≠ some '.' := by decide
    have hmem : "." ++ s ∉ operators := fun hmem => hops _ hmem (by rw [hlist]; rfl)
    have hin : "." ++ s ≠ "IN" := fun he => hmem (by rw [he]; decide)
    rw [Built, if_neg hin, if_neg hmem]
    exact ⟨PyStr.startswith_char hlist (by decide), rfl⟩
  have hkeys : ∀ s ∈ ["true", "false", "null"], PyStr.Trimmed s.toList := by
    have hkey : ∀ s ∈ ["true", "false", "null"], s.toList.all fun c => !PyStr.isspace c := by decide
    exact fun s hs => trimmed_of_unspaced fun c hc => by simpa using List.all_eq_true.mp (hkey s hs) c hc
  have hdollar : ".\"$\"" = "." ++ "\"$\"" := by decide
  have hid : "._id" = "." ++ "_id" := by decide
  unfold getOperand at h ⊢
  split
  · rw [hdollar, String.append_assoc]
    exact hnode _
  rename_i h1
  rw [if_neg h1] at h
  split
  · trivial
  rename_i h2
  rw [if_neg h2] at h
  split
  · rw [hid]
    exact hnode _
  rename_i h3
  rw [if_neg h3] at h
  split
  · rename_i h4
    rw [if_pos h4] at h
    split
    · exact operandText_of_none (.inl (hkeys _ (by simp))) rfl
    rename_i h5
    rw [if_neg h5] at h
    split
    · exact operandText_of_none (.inl (hkeys _ (by simp))) rfl
    rename_i h6
    rw [if_neg h6] at h
    refine operandText_of_none (.inl ?_) h
    rw [String.toList_ofList]
    cases hw with
    | word hw => exact trimmed_of_unspaced fun c hc => hw.2 c (mem_stripChar hc)
    | closing hquote hitem =>
      obtain ⟨cs, hcs⟩ := startswith_quote_iff.mp h4
      rw [hitem] at hcs
      simp at hcs
    | quoted _ hfront hback hitem =>
      rw [hitem]
      exact trimmed_stripChar hfront hback _
  rename_i h4
  rw [if_neg h4] at h
  split
  · exact operandText_of_none (.inl (hkeys _ (by simp))) rfl
  rename_i h5
  rw [if_neg h5] at h
  split
  · exact hnode w
  rename_i h6
  rw [if_neg h6] at h
  refine operandText_of_none ?_ h
  cases hw with
  | word hw => exact .inl (trimmed_of_unspaced hw.2)
  | closing hquote hitem =>
    refine .inr ?_
    rw [hitem, String.toList_append]
    exact List.mem_append_right _ hquote
  | quoted hopen => exact absurd hopen h4

/-- What the two loops build of a WHERE part. -/
theorem compileWhere_built {query : String} {st : List String × List Value} {stack : List Value}
    (hloop : (turned (joinWords (wordsOf query))).foldlM shuntToken ([], []) = .ok st)
    (hstack : st.2.foldlM evalToken [] = .ok stack) : ∀ v ∈ stack, Built v :=
  runs_built hloop hstack fun w hw _ hnone =>
    (joinWords_itemText (splitWs_unspaced _) w hw).built hnone

end MobileTestkit.L3.RqgParser
