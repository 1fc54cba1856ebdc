import Mathlib.Data.List.Find
import MobileTestkit.L3Query.QueryWeights
import MobileTestkit.L3Query.WherePart

/-!
# Phrases at the borders of operands

What `multiple_replace` makes of the words of an operand, and of the words that stand
next to it: it keeps them, or they are joined to something lighter.

* `Yields`: either of the two, told apart by a condition.
* `Yields.operand`: a literal is kept where no phrase stands in it.
* `joinFrom_last`: the last word of a predicate is kept where no `ANY AND EVERY`
  stands over its end.
-/
namespace MobileTestkit.L3.RqgParser

open MobileTestkit.Core
open MobileTestkit.Core.OpPrec
open MobileTestkit.Core.Subst

/-! ## The items of joined words -/

theorem foldl_joinWord_frame (items items' : List String) (split : String) (ws : List String) :
    ws.foldl joinWord (items ++ items', split) =
      (items ++ (ws.foldl joinWord (items', split)).1, (ws.foldl joinWord (items', split)).2) := by
  induction ws generalizing items' split with
  | nil => rfl
  | cons w ws ih =>
    have hstep : joinWord (items ++ items', split) w =
        (items ++ (joinWord (items', split) w).1, (joinWord (items', split) w).2) := by
      simp only [joinWord]
      split
      · rfl
      split
      · rw [List.append_assoc]
      split
      · rfl
      · rw [List.append_assoc]
    rw [List.foldl_cons, List.foldl_cons, hstep]
    exact ih _ _

/-- The weight of the items that words join to. -/
def joinedWeight (ws : List String) : Nat := itemsWeight (joinWords ws)

theorem joinedWeight_append {ws : List String} {items : List String}
    (h : ws.foldl joinWord ([], "") = (items, "")) (vs : List String) :
    joinedWeight (ws ++ vs) = itemsWeight items + joinedWeight vs := by
  have hframe := foldl_joinWord_frame items [] "" vs
  rw [List.append_nil] at hframe
  rw [joinedWeight, joinWords, List.foldl_append, h, hframe, itemsWeight_append]
  rfl

theorem joinedWeight_operand {a : Operand} (ha : a.OfWords) (vs : List String) :
    joinedWeight (a.words ++ vs) = itemWeight a.text + joinedWeight vs := by
  rw [joinedWeight_append (joinWord_operand [] ha), List.nil_append, itemsWeight_singleton]

theorem joinedWeight_cons {w : String} (h : '"' ∉ w.toList) (vs : List String) :
    joinedWeight (w :: vs) = itemWeight w + joinedWeight vs := by
  have hone : [w].foldl joinWord ([], "") = ([w], "") := joinWord_plain [] h
  rw [← List.singleton_append, joinedWeight_append hone, itemsWeight_singleton]

/-- A text compiles to no more than its words join to. -/
theorem compileWhere_joinedWeight {ws : List String} (hws : ∀ w ∈ ws, Unspaced w) {v : Value}
    (h : compileWhere (PyStr.join " " ws) = .ok v) : weight v ≤ joinedWeight ws := by
  have hle := compileWhere_weight h
  cases hm : betweenMatch (PyStr.join " " ws).toList with
  | none =>
    rw [wordsOf_join_none hws hm] at hle
    exact hle
  | some r =>
    rw [wordsOf_join hws hm] at hle
    rcases dropAnd_lighter (String.ofList r.1) (String.ofList r.2) ws ([], "") with he | hl
    · rw [he] at hle
      exact hle
    · exact Nat.le_trans hle hl.items

/-- Where the pattern of `BETWEEN` matches and all literals are closed it is less. -/
theorem compileWhere_between {ws : List String} (hws : ∀ w ∈ ws, Unspaced w)
    (hclosed : (ws.foldl joinWord ([], "")).2 = "") (hmatch : betweenMatch (PyStr.join " " ws).toList ≠ none)
    {v : Value} (h : compileWhere (PyStr.join " " ws) = .ok v) : weight v < joinedWeight ws := by
  have hle := compileWhere_weight h
  obtain ⟨r, hm⟩ := Option.ne_none_iff_exists'.mp hmatch
  rw [wordsOf_join hws hm] at hle
  rcases dropAnd_lighter (String.ofList r.1) (String.ofList r.2) ws ([], "") with he | hl
  · exact absurd he (dropAnd_ne hws hm)
  · rcases hl.less with ⟨hlt, -⟩ | hlt
    · exact Nat.lt_of_le_of_lt hle hlt
    · rw [hclosed] at hlt
      exact absurd hlt (Nat.not_lt_zero _)

/-! ## Phrases in literals -/

theorem oneXlat_eq_some {s new : List Char} {len : Nat} (h : oneXlat transOp s = some (new, len)) :
    ∃ kv ∈ transOp, kv.1.toList <+: s ∧ new = kv.2.toList ∧ len = kv.1.toList.length := by
  obtain ⟨kv, hkv, he⟩ := Option.map_eq_some_iff.mp h
  cases he
  have hp := List.find?_some (p := fun kv : String × String => kv.1.toList.isPrefixOf s) hkv
  exact ⟨kv, List.mem_of_find?_eq_some hkv, List.isPrefixOf_iff_prefix.mp hp, rfl, rfl⟩

theorem oneXlat_ne_none {s : List Char} {kv : String × String} (hkv : kv ∈ transOp)
    (hs : kv.1.toList <+: s) : oneXlat transOp s ≠ none := by
  intro h
  rw [oneXlat, Option.map_eq_none_iff, List.find?_eq_none] at h
  exact h kv hkv (List.isPrefixOf_iff_prefix.mpr hs)

/-- No phrase stands in the text. -/
def Phraseless (text : String) : Prop := ∀ kv ∈ transOp, PyStr.contains text kv.1 = false

instance (text : String) : Decidable (Phraseless text) := inferInstanceAs (Decidable (∀ kv ∈ _, _))

theorem transOp_keys : ∀ kv ∈ transOp, kv.1.toList ≠ [] := by decide

theorem Phraseless.multipleReplace {text : String} (h : Phraseless text) :
    multipleReplace text transOp = text := by
  have hquiet := sub_quiet (m := oneXlat transOp) text.toList [] fun s _ hs => by
    rw [List.append_nil]
    refine Option.eq_none_iff_forall_not_mem.mpr fun r hr => ?_
    obtain ⟨kv, hkv, hp, -, -⟩ := oneXlat_eq_some (h := hr)
    have hc := (containsList_iff (transOp_keys kv hkv)).mpr ⟨s, fun he => ?_, hs, hp⟩
    · exact absurd hc (by simpa [PyStr.contains] using h kv hkv)
    · rw [he] at hp
      exact transOp_keys kv hkv (List.prefix_nil.mp hp)
  rw [List.append_nil] at hquiet
  rw [RqgParser.multipleReplace, hquiet, sub, List.append_nil, String.ofList_toList]

/-- A phrase takes blanks from the text. -/
theorem blanks_multipleReplace {text : String} (h : ¬ Phraseless text) :
    blanks (multipleReplace text transOp) < blanks text := by
  have hkeys : ∀ kv ∈ transOp,
      kv.2.toList.countP PyStr.isspace < kv.1.toList.countP PyStr.isspace := by decide
  obtain ⟨kv, h⟩ := not_forall.mp h
  obtain ⟨hkv, hc⟩ := Classical.not_imp.mp h
  obtain ⟨s, hs, hsuf, hp⟩ := (containsList_iff (transOp_keys kv hkv)).mp (Bool.ne_false_iff.mp hc)
  have hlt := (countP_sub (p := PyStr.isspace) (m := oneXlat transOp) (fun s new len hm => by
    obtain ⟨kv, hkv, hp, rfl, rfl⟩ := oneXlat_eq_some hm
    rw [← List.prefix_iff_eq_take.mp hp]
    exact hkeys kv hkv) text.toList 0).2 rfl ⟨s, hs, hsuf, oneXlat_ne_none hkv hp⟩
  rw [blanks, multipleReplace, String.toList_ofList]
  exact hlt

theorem multipleReplace_quoted (body : String) :
    multipleReplace ("\"" ++ body ++ "\"") transOp =
      "\"" ++ multipleReplace body transOp ++ "\"" := by
  have hkeys : ∀ kv ∈ transOp, '"' ∉ kv.1.toList := by decide
  have hquote : oneXlat transOp ['"'] = none := by decide
  have hfront : oneXlat transOp ('"' :: (body.toList ++ ['"'])) = none := by
    refine Option.eq_none_iff_forall_not_mem.mpr fun r hr => ?_
    obtain ⟨kv, hkv, hp, -, -⟩ := oneXlat_eq_some (h := hr)
    obtain ⟨c, cs, hc⟩ := List.exists_cons_of_ne_nil (transOp_keys kv hkv)
    rw [hc] at hp
    exact hkeys kv hkv (by rw [hc, (List.cons_prefix_cons.mp hp).1]; exact List.mem_cons_self)
  have hback : ∀ s : List Char, oneXlat transOp (s ++ ['"']) = oneXlat transOp s := by
    intro s
    have hp : ∀ kv ∈ transOp, kv.1.toList.isPrefixOf (s ++ ['"']) = kv.1.toList.isPrefixOf s := by
      intro kv hkv
      refine Bool.eq_iff_iff.mpr ?_
      rw [List.isPrefixOf_iff_prefix, List.isPrefixOf_iff_prefix]
      exact ⟨fun h => prefix_word (hkeys kv hkv) h, fun h => h.trans (List.prefix_append _ _)⟩
    unfold oneXlat
    congr 1
    exact List.find?_congr hp
  have hlist : ("\"" ++ body ++ "\"").toList = '"' :: (body.toList ++ ['"']) := by simp
  have happend := sub_append (m := oneXlat transOp) body.toList ['"'] (fun s _ _ => hback s)
    (fun s new len _ hm => by
      obtain ⟨kv, -, hp, -, rfl⟩ := oneXlat_eq_some hm
      exact hp.length_le) (Nat.zero_le _)
  apply String.toList_inj.mp
  rw [multipleReplace, String.toList_ofList, hlist, sub, hfront]
  show '"' :: sub (oneXlat transOp) 0 (body.toList ++ ['"']) = _
  rw [happend, sub, hquote]
  simp [multipleReplace, sub]

theorem mem_join {w : String} {ws : List String} (hw : w ∈ ws) {c : Char} (hc : c ∈ w.toList) :
    c ∈ (PyStr.join " " ws).toList := by
  induction ws with
  | nil => cases hw
  | cons v ws ih =>
    cases ws with
    | nil => rwa [List.mem_singleton.mp hw] at hc
    | cons u us =>
      rw [toList_join_blank]
      rcases List.mem_cons.mp hw with rfl | hw
      · exact List.mem_append_left _ hc
      · exact List.mem_append_right _ (List.mem_cons_of_mem _ (ih hw))

/-- A literal stays a literal, of the joined words. -/
theorem joinPhrases_literal {ls : List String} (h : ∀ w ∈ ls, IsWord w) :
    joinPhrases (Operand.literal ls).words = (Operand.literal (joinPhrases ls)).words ∧
      (∀ w ∈ joinPhrases ls, IsWord w) ∧
      (Operand.literal (joinPhrases ls)).text = multipleReplace (Operand.literal ls).text transOp := by
  have hls : ∀ w ∈ ls, Unspaced w := fun w hw => (h w hw).unspaced
  have hlit : (Operand.literal ls).OfWords := h
  have hbody := multipleReplace_words fun w hw => (hls w hw).no_blank
  have hwords : ∀ w ∈ joinPhrases ls, IsWord w := by
    intro w hw
    obtain ⟨hne, hspace⟩ := unspaced_joinPhrases hls w hw
    refine ⟨hne, fun c hc => ⟨hspace c hc, ?_⟩⟩
    rintro rfl
    have hmem : '"' ∈ (multipleReplace (PyStr.join " " ls) transOp).toList := by
      rw [hbody]
      exact mem_join hw hc
    rw [multipleReplace, String.toList_ofList] at hmem
    rcases mem_sub hmem with hmem | ⟨s, new, len, -, hm, hmem⟩
    · exact quote_not_mem_join h hmem
    · obtain ⟨kv, hkv, -, rfl, -⟩ := oneXlat_eq_some hm
      have hvals : ∀ kv ∈ transOp, '"' ∉ kv.2.toList := by decide
      exact hvals kv hkv hmem
  have htext : (Operand.literal (joinPhrases ls)).text = multipleReplace (Operand.literal ls).text transOp := by
    rw [Operand.text, Operand.text, multipleReplace_quoted, hbody]
  refine ⟨?_, hwords, htext⟩
  have hreplace := multipleReplace_words fun w hw => (Operand.unspaced hlit w hw).no_blank
  rw [join_operand_words, ← htext, ← join_operand_words] at hreplace
  have hsplit := congrArg PyStr.splitWs hreplace
  rw [PyStr.splitWs_join (Operand.unspaced (a := .literal (joinPhrases ls)) hwords),
    PyStr.splitWs_join (unspaced_joinPhrases (Operand.unspaced hlit))] at hsplit
  exact hsplit.symm

/-! ## What the replacement yields -/

/-- The words come out as they should, or they join to something lighter. -/
structure Yields (ok : Prop) (out want : List String) : Prop where
  same : ok → out = want
  less : ¬ ok → joinedWeight out < joinedWeight want

theorem Yields.le {ok : Prop} {out want : List String} (h : Yields ok out want) :
    joinedWeight out ≤ joinedWeight want := by
  by_cases hok : ok
  · rw [h.same hok]
  · exact Nat.le_of_lt (h.less hok)

theorem Yields.cons {ok : Prop} {out want : List String} (h : Yields ok out want) {w : String}
    (hw : '"' ∉ w.toList) : Yields ok (w :: out) (w :: want) where
  same hok := by rw [h.same hok]
  less hok := by
    rw [joinedWeight_cons hw, joinedWeight_cons hw]
    exact Nat.add_lt_add_left (h.less hok) _

theorem joinPhrases_phraseless {a : Operand} (ha : a.OfWords) (h : Phraseless a.text) :
    joinPhrases a.words = a.words := by
  have hreplace := multipleReplace_words fun w hw => (Operand.unspaced ha w hw).no_blank
  rw [join_operand_words, h.multipleReplace, ← join_operand_words] at hreplace
  have hsplit := congrArg PyStr.splitWs hreplace
  rw [PyStr.splitWs_join (Operand.unspaced ha),
    PyStr.splitWs_join (unspaced_joinPhrases (Operand.unspaced ha))] at hsplit
  exact hsplit.symm

theorem phraseless_plain {w : String} (h : ' ' ∉ w.toList) : Phraseless w := by
  have hkeys : ∀ kv ∈ transOp, ' ' ∈ kv.1.toList := by decide
  intro kv hkv
  refine Bool.eq_false_iff.mpr fun hc => h ?_
  obtain ⟨s, -, hs, hp⟩ := (containsList_iff (transOp_keys kv hkv)).mp hc
  exact hs.subset (hp.subset (hkeys kv hkv))

/-- An operand, and what is behind it. -/
theorem Yields.operand {a : Operand} (ha : a.OfWords) {ok : Prop} {out want : List String}
    (h : Yields ok out want) :
    Yields (Phraseless a.text ∧ ok) (joinPhrases a.words ++ out) (a.words ++ want) where
  same hok := by rw [joinPhrases_phraseless ha hok.1, h.same hok.2]
  less hok := by
    by_cases hp : Phraseless a.text
    · rw [joinPhrases_phraseless ha hp, joinedWeight_operand ha, joinedWeight_operand ha]
      exact Nat.add_lt_add_left (h.less fun h' => hok ⟨hp, h'⟩) _
    · cases a with
      | plain w => exact absurd (phraseless_plain (IsWord.unspaced ha).no_blank) hp
      | literal ls =>
        obtain ⟨hwords, hls, htext⟩ := joinPhrases_literal ha
        have hout : (Operand.literal (joinPhrases ls)).OfWords := hls
        have hlt := blanks_multipleReplace hp
        rw [← htext] at hlt
        have h1 := itemWeight_bounds (Operand.literal (joinPhrases ls)).text
        have h2 := itemWeight_bounds (Operand.literal ls).text
        have hle := h.le
        rw [hwords, joinedWeight_operand hout, joinedWeight_operand ha]
        omega

/-! ## Words that phrases may take in -/

/-- Neither white space nor quotes. -/
def Clean (s : String) : Prop := ∀ c ∈ s.toList, PyStr.isspace c = false ∧ c ≠ '"'

theorem Clean.append {s t : String} (hs : Clean s) (ht : Clean t) : Clean (s ++ t) := by
  intro c hc
  rw [String.toList_append] at hc
  rcases List.mem_append.mp hc with hc | hc
  · exact hs c hc
  · exact ht c hc

theorem Clean.no_quote {s : String} (h : Clean s) : '"' ∉ s.toList := fun hm => (h _ hm).2 rfl

theorem Clean.behind {v : String} (h : Clean v) (p : String) : Clean (behind p v) :=
  fun c hc => h c ((behind_suffix p v).subset hc)

theorem clean_of_all {s : String} (h : (s.toList.all fun c => !PyStr.isspace c && c != '"') = true) :
    Clean s := by
  intro c hc
  simpa using List.all_eq_true.mp h c hc

/-- The words that weigh something. -/
def keyWords : List String := ["IS", "IS-NOT-NULL", "IS-NOT-MISSING", "NOT-IN", "AND", ".and", "and"]

theorem itemWeight_clean {s : String} (hs : Clean s) (hkey : s ∉ keyWords) : itemWeight s = 0 := by
  simp only [keyWords, List.mem_cons, List.not_mem_nil, or_false, not_or] at hkey
  obtain ⟨h1, h2, h3, h4, h5, h6, h7⟩ := hkey
  refine itemWeight_plain hs.no_quote ?_ (by simp [keyWeight, h1, h2, h3, h4, h5, h6]) h7
  rw [blanks, List.countP_eq_zero]
  intro c hc
  rw [(hs c hc).1]
  decide

/-- What `ANY AND EVERY` is part of weighs nothing. -/
theorem itemWeight_every {s : String} (hs : Clean s) (hV : 'V' ∈ s.toList) : itemWeight s = 0 := by
  have hkeys : ∀ k ∈ keyWords, 'V' ∉ k.toList := by decide
  exact itemWeight_clean hs fun hk => hkeys s hk hV

theorem itemWeight_not {s : String} (hs : Clean (s ++ "-NOT")) : itemWeight (s ++ "-NOT") = 0 := by
  have hkeys : ∀ k ∈ keyWords, PyStr.endswith k "-NOT" = false := by decide
  refine itemWeight_clean hs fun hk => ?_
  have hend : PyStr.endswith (s ++ "-NOT") "-NOT" = true :=
    List.isSuffixOf_iff_suffix.mpr ⟨s.toList, by simp⟩
  rw [hkeys _ hk] at hend
  cases hend

/-- The first word of an operator. -/
def Verb (v : String) : Prop := v = "NOT" ∨ Opening v

theorem joinFrom_empty (done : String) (ws : List String) : joinFrom done "" ws = done :: joinPhrases ws := by
  have hclosing : Closing "" := by decide
  cases ws with
  | nil => simp [joinFrom, joinPhrases]
  | cons v vs =>
    have hapart := hclosing.apart v vs
    rw [joinFrom_word (hapart.word "" List.suffix_rfl)
      (fun u us he => hapart.every "" u us List.suffix_rfl he),
      String.append_empty]
    rfl

/-- In front of an operator a word takes in a `NOT`, -/
theorem joinFrom_not {w : String} (hIS : PyStr.endswith w "IS" = true) (done : String) (vs : List String) :
    joinFrom done w ("NOT" :: vs) = (done ++ w ++ "-NOT") :: joinPhrases vs := by
  have hstart : PyStr.startswith "NOT" "NOT" = true := by decide
  have hp : phraseWord w "NOT" = some "NOT" := by simp [phraseWord, hIS, hstart]
  have hb : behind "NOT" "NOT" = "" := by decide
  have hnot : done ++ w ++ "-" ++ "NOT" = done ++ w ++ "-NOT" := by
    rw [String.append_assoc]
    rfl
  rw [joinFrom_phrase hp, hb, joinFrom_empty, hnot]

/-- or it is kept. -/
theorem joinFrom_verb {v : String} (hv : Verb v) {w : String}
    (h : ¬ (PyStr.endswith w "IS" = true ∧ v = "NOT")) (done : String) (vs : List String) :
    joinFrom done w (v :: vs) = (done ++ w) :: joinPhrases (v :: vs) := by
  rcases hv with rfl | hv
  · have hIS : PyStr.endswith w "IS" = false := Bool.eq_false_iff.mpr fun hIS => h ⟨hIS, rfl⟩
    have hstart : PyStr.startswith "NOT" "IN" = false := by decide
    have hp : phraseWord w "NOT" = none := by simp [phraseWord, hIS, hstart]
    rw [joinFrom_word hp fun u us _ => by simp [everyBehind]]
    rfl
  · have hapart := hv.apart w vs
    rw [joinFrom_word (hapart.word w List.suffix_rfl) fun u us he => hapart.every w u us List.suffix_rfl he]
    rfl

/-! ## Behind a predicate -/

/-- `ANY AND EVERY` stands over the end of a predicate. -/
def Crosses (last : String) (ws : List String) : Prop :=
  PyStr.endswith last "ANY" = true ∧
    ∃ u us, ws = "AND" :: u :: us ∧ PyStr.startswith u "EVERY" = true

/-- The words behind a predicate: an operand that begins with `EVERY` is plain, and its
operator is behind it. -/
def Border (ws : List String) : Prop :=
  ∀ k rest, ws = k :: rest → k ∈ ["AND", "OR", ")"] ∧
    ∀ u us, rest = u :: us → PyStr.startswith u "EVERY" = true →
      Clean u ∧ ∃ v vs, us = v :: vs ∧ Verb v

theorem joinPhrases_cons {k : String} (h : ∀ t ∈ ["IS", "NOT", "ANY"], PyStr.endswith k t = false)
    (ws : List String) : joinPhrases (k :: ws) = k :: joinPhrases ws := by
  cases ws with
  | nil => simp [joinPhrases, joinFrom]
  | cons v vs =>
    rw [joinPhrases, joinFrom_word (phraseWord_of_not_endswith (h _ (by simp)) (h _ (by simp)) v)
      (fun u us _ => by simp [everyBehind, h "ANY" (by simp)]), String.empty_append]
    rfl

/-- Behind its `EVERY` a word ends in `IS` where it does. -/
theorem endswith_behind_every {u : String} (hu : PyStr.startswith u "EVERY" = true)
    (hIS : PyStr.endswith u "IS" = true) : PyStr.endswith (behind "EVERY" u) "IS" = true := by
  have hsplit := toList_behind hu
  rw [PyStr.endswith, List.isSuffixOf_iff_suffix] at hIS ⊢
  rcases List.suffix_or_suffix_of_suffix hIS (behind_suffix "EVERY" u) with h | ⟨t, ht⟩
  · exact h
  · have hk : "IS".toList = ['I', 'S'] := by decide
    rw [hk] at ht
    rw [hsplit] at hIS
    cases t with
    | nil => exact ⟨[], by rw [hk]; exact ht.symm⟩
    | cons c t =>
      have ht := (List.cons.inj ht).2
      cases t with
      | nil =>
        have hb : (behind "EVERY" u).toList = ['S'] := ht
        rw [hb] at hIS
        exact absurd hIS (by decide)
      | cons c t =>
        have ht := (List.cons.inj ht).2
        cases t with
        | nil =>
          have hb : (behind "EVERY" u).toList = [] := ht
          rw [hb] at hIS
          exact absurd hIS (by decide)
        | cons c t => exact absurd ht (by simp)

/-- The last word of a predicate is kept, or what is behind it weighs less. -/
theorem joinFrom_last {done w : String} (hw : Clean (done ++ w)) {ws : List String} (hws : Border ws) :
    (¬ Crosses w ws → joinFrom done w ws = (done ++ w) :: joinPhrases ws) ∧
      (Crosses w ws → joinedWeight (joinFrom done w ws) < joinedWeight (joinPhrases ws)) := by
  have hphrase : ∀ k ∈ ["AND", "OR", ")"], phraseWord w k = none := by
    intro k hk
    have hstarts : ∀ k ∈ ["AND", "OR", ")"], ∀ p ∈ ["NOT", "MISSING", "NULL", "IN"],
        PyStr.startswith k p = false := by decide
    simp [phraseWord, hstarts k hk "NOT" (by simp), hstarts k hk "MISSING" (by simp),
      hstarts k hk "NULL" (by simp), hstarts k hk "IN" (by simp)]
  have hkeys : ∀ k ∈ ["AND", "OR", ")"], ∀ t ∈ ["IS", "NOT", "ANY"], PyStr.endswith k t = false := by
    decide
  constructor
  · intro hno
    cases ws with
    | nil => simp [joinFrom, joinPhrases]
    | cons k rest =>
      obtain ⟨hk, -⟩ := hws k rest rfl
      refine joinFrom_word (hphrase k hk) (fun u us he => ?_) done
      refine Bool.eq_false_iff.mpr fun hev => hno ?_
      simp only [everyBehind, Bool.and_eq_true, beq_iff_eq] at hev
      exact ⟨hev.1.1, u, us, by rw [hev.1.2, he], hev.2⟩
  · rintro ⟨hend, u, us, rfl, hu⟩
    obtain ⟨-, hrest⟩ := hws "AND" (u :: us) rfl
    obtain ⟨hclean, v, vs, rfl, hv⟩ := hrest u us rfl hu
    have hev : everyBehind w "AND" u = true := by simp [everyBehind, hend, hu]
    rw [joinFrom_every (hphrase "AND" (by simp)) hev, joinPhrases_cons (hkeys "AND" (by simp)),
      joinedWeight_cons (by decide)]
    have hand : itemWeight "AND" = 1 := by decide
    have hV : ∀ t : String, 'V' ∈ (done ++ w ++ "-AND-EVERY" ++ behind "EVERY" u ++ t).toList := by simp
    have hmerged : Clean (done ++ w ++ "-AND-EVERY" ++ behind "EVERY" u) :=
      (hw.append (clean_of_all (by decide))).append (hclean.behind "EVERY")
    have hnot : Clean "-NOT" := clean_of_all (by decide)
    have hsuffix : PyStr.endswith (behind "EVERY" u) "IS" = true → PyStr.endswith u "IS" = true :=
      fun h => List.isSuffixOf_iff_suffix.mpr
        ((List.isSuffixOf_iff_suffix.mp h).trans (behind_suffix "EVERY" u))
    have hfirst : joinPhrases (u :: v :: vs) = joinFrom "" u (v :: vs) := rfl
    rw [hfirst]
    -- the operand that follows is kept, or takes in a `NOT`, as it would by itself
    by_cases hIS : PyStr.endswith u "IS" = true ∧ v = "NOT"
    · obtain ⟨hIS, rfl⟩ := hIS
      have hweight := itemWeight_every (hmerged.append hnot) (hV _)
      rw [joinFrom_not (endswith_behind_every hu hIS), joinFrom_not hIS,
        joinedWeight_cons (hmerged.append hnot).no_quote, hweight, String.empty_append,
        joinedWeight_cons (hclean.append hnot).no_quote]
      omega
    · have hweight := itemWeight_every hmerged (by simp)
      rw [joinFrom_verb hv fun h => hIS ⟨hsuffix h.1, h.2⟩, joinFrom_verb hv hIS,
        joinedWeight_cons hmerged.no_quote, hweight, String.empty_append, joinedWeight_cons hclean.no_quote]
      omega

end MobileTestkit.L3.RqgParser
