import MobileTestkit.Core.JsonDoc
import MobileTestkit.Core.PyStr

/-!
# Sync functions as JSON strings

Model of `convert_to_valid_json` and `escape_json_value` (libraries/testkit/config.py):
the sections between backticks of a sync gateway config become JSON strings, after all
line breaks and tabs of the text are dropped.

`Sectioned` are the texts with balanced backticks. Emptying a section means to write an
empty JSON string in its place.

* `convertToValidJson_text`: the output, section by section.
* `run_section`: a section without single quotes leads a reader of JSON to where the
  empty string leads it, and a section with one is refused.
* `faithful_iff`: of the texts that are JSON once their sections are emptied, exactly
  those are converted to JSON with the section bodies in their places whose sections
  hold no single quote and follow no backslash.
* `convertToValidJson_idempotent`: whatever the backticks, a second conversion changes
  nothing.
-/
namespace MobileTestkit.L4.ConvertJson

open MobileTestkit.Core MobileTestkit.Core.JsonDoc

/-! ## The source -/

/-- mirrors libraries/testkit/config.py:238-264 (`escape_json_value`) -/
def escapeJsonValue (rawValue : String) : String :=
  let escaped := PyStr.replace rawValue "\\" "\\\\"
  let escaped := PyStr.replace escaped "\"" "\\\""
  PyStr.replace escaped "'" "\\'"

def backtick : Char := '\x60'

/-- `output` and `sync_function_buffer`, and whether the state is
`STATE_INSIDE_BACKTICK`. -/
structure ConvState where
  output : List Char
  syncFunctionBuffer : List Char
  inside : Bool

/-- One round of the loop of `convert_to_valid_json`. -/
def convertChar (st : ConvState) (jsonChar : Char) : ConvState :=
  if jsonChar ≠ backtick then
    if st.inside then { st with syncFunctionBuffer := st.syncFunctionBuffer ++ [jsonChar] }
    else { st with output := st.output ++ [jsonChar] }
  else if st.inside then
    { output := st.output ++
        '"' :: (escapeJsonValue (String.ofList st.syncFunctionBuffer)).toList ++ ['"']
      syncFunctionBuffer := []
      inside := false }
  else { st with inside := true }

/-- mirrors libraries/testkit/config.py:173-235 (`convert_to_valid_json`) -/
def convertToValidJson (invalidJson : String) : String :=
  let stripped := PyStr.replace (PyStr.replace invalidJson "\n" "") "\t" ""
  String.ofList (stripped.toList.foldl convertChar ⟨[], [], false⟩).output

/-! ## Texts with sections -/

/-- A text with balanced backticks: what stands before the first section, and each
section body with what stands behind it. -/
structure Sectioned where
  head : List Char
  sections : List (List Char × List Char)
  head_clean : backtick ∉ head
  sections_clean : ∀ s ∈ sections, backtick ∉ s.1 ∧ backtick ∉ s.2

def sectionText (s : List Char × List Char) : List Char := backtick :: s.1 ++ backtick :: s.2

def Sectioned.chars (t : Sectioned) : List Char := t.head ++ t.sections.flatMap sectionText

def Sectioned.text (t : Sectioned) : String := String.ofList t.chars

/-- The text with an empty JSON string for each section. -/
def Sectioned.emptied (t : Sectioned) : List Char :=
  t.head ++ t.sections.flatMap fun s => '"' :: '"' :: s.2

/-- The text up to section number `i`. -/
def Sectioned.upTo (t : Sectioned) (i : Nat) : Sectioned where
  head := t.head
  sections := t.sections.take i
  head_clean := t.head_clean
  sections_clean := fun s hs => t.sections_clean s (List.mem_of_mem_take hs)

theorem exists_first {c : Char} {cs : List Char} (h : c ∈ cs) : ∃ a b, cs = a ++ c :: b ∧ c ∉ a := by
  induction cs with
  | nil => cases h
  | cons x cs ih =>
    by_cases hx : x = c
    · exact ⟨[], cs, by rw [hx]; rfl, by simp⟩
    · have hm : c ∈ cs := by
        rcases List.mem_cons.mp h with he | hm
        · exact absurd he.symm hx
        · exact hm
      obtain ⟨a, b, rfl, hn⟩ := ih hm
      exact ⟨x :: a, b, rfl, by simp [Ne.symm hx, hn]⟩

/-- Every text with an even number of backticks is one with sections. -/
theorem exists_sectioned (cs : List Char) (h : cs.count backtick % 2 = 0) :
    ∃ t : Sectioned, t.chars = cs := by
  induction hn : cs.length using Nat.strongRecOn generalizing cs with
  | ind n ih =>
  by_cases hb : backtick ∈ cs
  · obtain ⟨a, b, rfl, ha⟩ := exists_first hb
    have hcount : (a ++ backtick :: b).count backtick = b.count backtick + 1 := by
      rw [List.count_append, List.count_cons_self, List.count_eq_zero.mpr ha]
      omega
    have hmem : backtick ∈ b := by
      refine List.count_pos_iff.mp ?_
      omega
    obtain ⟨body, rest, rfl, hbody⟩ := exists_first hmem
    have hrest : (body ++ backtick :: rest).count backtick = rest.count backtick + 1 := by
      rw [List.count_append, List.count_cons_self, List.count_eq_zero.mpr hbody]
      omega
    have hlen : rest.length < n := by
      rw [← hn]
      simp only [List.length_append, List.length_cons]
      omega
    obtain ⟨t, ht⟩ := ih rest.length hlen rest (by omega) rfl
    refine ⟨⟨a, (body, t.head) :: t.sections, ha, ?_⟩, ?_⟩
    · intro s hs
      rcases List.mem_cons.mp hs with rfl | hs
      · exact ⟨hbody, t.head_clean⟩
      · exact t.sections_clean s hs
    · rw [← ht]
      simp [Sectioned.chars, sectionText]
  · exact ⟨⟨cs, [], hb, by simp⟩, by simp [Sectioned.chars]⟩

/-- Without line breaks and tabs. -/
def unbroken (cs : List Char) : List Char := cs.filter (!isBreak ·)

/-- The output is JSON, and the string literal in the place of each section, behind the
output for the text before it, is the body without line breaks and tabs. -/
def Faithful (t : Sectioned) : Prop :=
  (∃ doc, loads docBuilder (convertToValidJson t.text).toList = some doc) ∧
    ∀ i s, t.sections[i]? = some s →
      stringAt
        ((convertToValidJson t.text).toList.take (convertToValidJson (t.upTo i).text).length)
        ((convertToValidJson t.text).toList.drop (convertToValidJson (t.upTo i).text).length)
        = some (unbroken s.1)

/-! ## The output -/

def escapeChar (c : Char) : List Char :=
  if c = '\\' then ['\\', '\\']
  else if c = '"' then ['\\', '"']
  else if c = '\'' then ['\\', '\'']
  else [c]

theorem escapeJsonValue_toList (s : String) :
    (escapeJsonValue s).toList = s.toList.flatMap escapeChar := by
  have hone : ∀ (t old new : String) (c : Char), old.toList = [c] →
      (PyStr.replace t old new).toList
        = t.toList.flatMap fun x => if x = c then new.toList else [x] := by
    intro t old new c hold
    rw [PyStr.replace, String.toList_ofList, hold, PyStr.replaceList_singleton]
  unfold escapeJsonValue
  rw [hone _ _ _ '\'' rfl, hone _ _ _ '"' rfl, hone _ _ _ '\\' rfl]
  generalize s.toList = cs
  induction cs with
  | nil => rfl
  | cons c cs ih =>
    simp only [List.flatMap_cons, List.flatMap_append] at ih ⊢
    rw [ih]
    congr 1
    by_cases h1 : c = '\\'
    · subst h1
      rfl
    · by_cases h2 : c = '"'
      · subst h2
        rfl
      · by_cases h3 : c = '\''
        · subst h3
          rfl
        · simp [escapeChar, h1, h2, h3]

/-- Outside the sections the loop copies, inside it collects. -/
theorem foldl_outside {cs : List Char} (h : backtick ∉ cs) (out buf : List Char) :
    cs.foldl convertChar ⟨out, buf, false⟩ = ⟨out ++ cs, buf, false⟩ := by
  induction cs generalizing out with
  | nil => simp
  | cons c cs ih =>
    have hc : c ≠ backtick := fun he => h (he ▸ List.mem_cons_self)
    rw [List.foldl_cons, convertChar, if_pos hc]
    simp [ih fun hm => h (List.mem_cons_of_mem _ hm)]

theorem foldl_inside {cs : List Char} (h : backtick ∉ cs) (out buf : List Char) :
    cs.foldl convertChar ⟨out, buf, true⟩ = ⟨out, buf ++ cs, true⟩ := by
  induction cs generalizing buf with
  | nil => simp
  | cons c cs ih =>
    have hc : c ≠ backtick := fun he => h (he ▸ List.mem_cons_self)
    rw [List.foldl_cons, convertChar, if_pos hc]
    simp [ih fun hm => h (List.mem_cons_of_mem _ hm)]

/-- What a section becomes, with the text behind it. -/
def convertedSection (s : List Char × List Char) : List Char :=
  '"' :: (unbroken s.1).flatMap escapeChar ++ '"' :: unbroken s.2

theorem foldl_section {body outer : List Char} (hb : backtick ∉ body) (ho : backtick ∉ outer)
    (out : List Char) :
    (sectionText (body, outer)).foldl convertChar ⟨out, [], false⟩
      = ⟨out ++ ('"' :: body.flatMap escapeChar ++ '"' :: outer), [], false⟩ := by
  have hopen : convertChar ⟨out, [], false⟩ backtick = ⟨out, [], true⟩ := by simp [convertChar]
  have hclose : convertChar ⟨out, body, true⟩ backtick
      = ⟨out ++ '"' :: body.flatMap escapeChar ++ ['"'], [], false⟩ := by
    simp [convertChar, escapeJsonValue_toList]
  rw [sectionText, List.cons_append, List.foldl_cons, hopen, List.foldl_append, foldl_inside hb,
    List.nil_append, List.foldl_cons, hclose, foldl_outside ho]
  simp

theorem unbroken_append (a b : List Char) : unbroken (a ++ b) = unbroken a ++ unbroken b :=
  List.filter_append ..

theorem not_mem_unbroken {c : Char} {cs : List Char} (h : c ∉ cs) : c ∉ unbroken cs :=
  fun hm => h (List.mem_filter.mp hm).1

theorem unbroken_sectionText (s : List Char × List Char) :
    unbroken (sectionText s) = sectionText (unbroken s.1, unbroken s.2) := by
  have hb : ∀ cs, unbroken (backtick :: cs) = backtick :: unbroken cs := by
    intro cs
    rw [unbroken, List.filter_cons_of_pos (by decide)]
    rfl
  rw [sectionText, List.cons_append, hb, unbroken_append, hb]
  rfl

/-- The loop runs over the text without line breaks and tabs. -/
theorem convertToValidJson_toList (s : String) :
    (convertToValidJson s).toList = ((unbroken s.toList).foldl convertChar ⟨[], [], false⟩).output := by
  have hone : ∀ (u old : String) (c : Char), old.toList = [c] →
      (PyStr.replace u old "").toList = u.toList.filter (· ≠ c) := by
    intro u old c hold
    rw [PyStr.replace, String.toList_ofList, hold]
    exact PyStr.deleteList_singleton c u.toList
  have hstrip : (PyStr.replace (PyStr.replace s "\n" "") "\t" "").toList = unbroken s.toList := by
    rw [hone _ _ '\t' rfl, hone _ _ '\n' rfl, List.filter_filter, unbroken]
    refine List.filter_congr fun c _ => ?_
    simp only [isBreak, Bool.not_or, decide_not, beq_eq_decide]
    exact Bool.and_comm ..
  simp only [convertToValidJson, hstrip, String.toList_ofList]

/-- The output: the text without line breaks and tabs, each section written as a literal. -/
theorem convertToValidJson_text (t : Sectioned) :
    (convertToValidJson t.text).toList = unbroken t.head ++ t.sections.flatMap convertedSection := by
  have hloop : ∀ (sections : List (List Char × List Char)) (out : List Char),
      (∀ s ∈ sections, backtick ∉ s.1 ∧ backtick ∉ s.2) →
      (unbroken (sections.flatMap sectionText)).foldl convertChar ⟨out, [], false⟩
        = ⟨out ++ sections.flatMap convertedSection, [], false⟩ := by
    intro sections
    induction sections with
    | nil => simp [unbroken]
    | cons s ss ih =>
      intro out hclean
      obtain ⟨hb, ho⟩ := hclean s List.mem_cons_self
      rw [List.flatMap_cons, unbroken_append, List.foldl_append, unbroken_sectionText,
        foldl_section (not_mem_unbroken hb) (not_mem_unbroken ho),
        ih _ fun x hx => hclean x (List.mem_cons_of_mem _ hx)]
      simp [convertedSection]
  rw [convertToValidJson_toList, Sectioned.text, String.toList_ofList, Sectioned.chars,
    unbroken_append, List.foldl_append,
    foldl_outside (not_mem_unbroken t.head_clean), hloop _ _ t.sections_clean]
  rfl

/-! ## Reading a section

All readers below only ask whether the text is JSON: what they have read is kept by
`unitBuilder`, that is, not at all. -/

abbrev Reader := St Unit Unit

/-- After a string no other one starts. -/
theorem wantsString_feedString {s : List Char} {st st' : Reader}
    (h : feedString unitBuilder s st = some st') : st'.lex = .between ∧ st'.wantsString = false := by
  unfold feedString at h
  split at h
  · cases h
    exact ⟨rfl, rfl⟩
  · cases h
    exact ⟨rfl, rfl⟩
  · cases h
    exact ⟨rfl, rfl⟩
  · cases h
    exact ⟨rfl, rfl⟩
  · cases h

theorem run_closing (us : List CodeUnit) (m : Mode Unit) (fs : List (Frame Unit Unit)) :
    run unitBuilder ⟨.lit (.chars us), m, fs⟩ ['"']
      = feedString unitBuilder (decodeUnits us) ⟨.lit (.chars us), m, fs⟩ := by
  rw [run_quote]
  cases feedString unitBuilder (decodeUnits us) ⟨.lit (.chars us), m, fs⟩ <;> rfl

theorem step_quote_between (m : Mode Unit) (fs : List (Frame Unit Unit)) :
    step unitBuilder ⟨.between, m, fs⟩ '"'
      = if (⟨.between, m, fs⟩ : Reader).wantsString then some ⟨.lit (.chars []), m, fs⟩ else none := by
  simp [step, stepBetween, isWs]

/-- A quote is refused where no string may start. -/
theorem step_quote_refused {st : Reader} (hlex : st.lex = .between) (hw : st.wantsString = false) :
    step unitBuilder st '"' = none := by
  obtain ⟨l, m, fs⟩ := st
  subst hlex
  rw [step_quote_between, hw]
  rfl

/-- Where an empty string can stand: between tokens, or behind a backslash in a literal,
which then ends with it. -/
theorem run_empty {st t : Reader} (h : run unitBuilder st ['"', '"'] = some t) :
    feedString unitBuilder [] st = some t ∧
      (st.lex = .between ∧ st.wantsString = true ∨ ∃ us, st.lex = .lit (.escape us)) := by
  obtain ⟨l, m, fs⟩ := st
  rw [run] at h
  cases l with
  | between =>
    rw [step_quote_between] at h
    cases hw : (⟨.between, m, fs⟩ : Reader).wantsString with
    | false => simp [hw] at h
    | true =>
      rw [if_pos hw, Option.bind_some, run_closing] at h
      exact ⟨h, .inl ⟨rfl, rfl⟩⟩
  | atom text =>
    rw [step_atom unitBuilder rfl, if_neg (by decide)] at h
    cases hend : endAtom unitBuilder text ⟨.atom text, m, fs⟩ with
    | none => simp [hend] at h
    | some st =>
      have hst := endAtom_eq unitBuilder hend
      have hno : stepBetween unitBuilder st '"' = none := by
        rw [hst]
        rfl
      simp [hend, hno] at h
  | lit l =>
    cases l with
    | chars us =>
      have hstep : step unitBuilder ⟨.lit (.chars us), m, fs⟩ '"'
          = feedString unitBuilder (decodeUnits us) ⟨.lit (.chars us), m, fs⟩ := rfl
      rw [hstep] at h
      cases hf : feedString unitBuilder (decodeUnits us) ⟨.lit (.chars us), m, fs⟩ with
      | none => simp [hf] at h
      | some st =>
        obtain ⟨hlex, hw⟩ := wantsString_feedString hf
        simp [hf, run, step_quote_refused hlex hw] at h
    | escape us =>
      have hstep : step unitBuilder ⟨.lit (.escape us), m, fs⟩ '"'
          = some ⟨.lit (.chars (us ++ [.char '"'])), m, fs⟩ := rfl
      rw [hstep, Option.bind_some, run_closing] at h
      exact ⟨h, .inr ⟨us, rfl⟩⟩
    | unicode us ds =>
      have hstep : step unitBuilder ⟨.lit (.unicode us ds), m, fs⟩ '"' = none := rfl
      simp [hstep] at h

/-! ## Escaped bodies -/

theorem litRun_append (l : Lit) (a b : List Char) :
    litRun l (a ++ b) = (litRun l a).bind fun l' => litRun l' b := by
  induction a generalizing l with
  | nil => rfl
  | cons c cs ih =>
    rw [List.cons_append, litRun, litRun]
    split
    · exact ih _
    · rfl

/-- A body character that a reader of JSON accepts as it is escaped. -/
def Readable (c : Char) : Prop := c ≠ '\'' ∧ 0x20 ≤ c.toNat

theorem litRun_escapeChar {c : Char} (h : Readable c) (us : List CodeUnit) :
    litRun (.chars us) (escapeChar c) = some (.chars (us ++ [.char c])) := by
  unfold escapeChar
  by_cases h1 : c = '\\'
  · subst h1
    rfl
  · by_cases h2 : c = '"'
    · subst h2
      rfl
    · have hp : plain c = true := by simp [plain, h1, h2, h.2]
      rw [if_neg h1, if_neg h2, if_neg h.1]
      simp [litRun, litStep_plain hp]

theorem litRun_escaped {cs : List Char} (h : ∀ c ∈ cs, Readable c) (us : List CodeUnit) :
    litRun (.chars us) (cs.flatMap escapeChar) = some (.chars (us ++ cs.map .char)) := by
  induction cs generalizing us with
  | nil => simp [litRun]
  | cons c cs ih =>
    rw [List.flatMap_cons, litRun_append, litRun_escapeChar (h c List.mem_cons_self),
      Option.bind_some, ih fun x hx => h x (List.mem_cons_of_mem _ hx)]
    simp

/-- A single quote is escaped to what JSON does not know. -/
theorem run_singleQuote {cs : List Char} (hctl : ∀ c ∈ cs, 0x20 ≤ c.toNat) (hq : '\'' ∈ cs)
    (us : List CodeUnit) (m : Mode Unit) (fs : List (Frame Unit Unit)) (rest : List Char) :
    run unitBuilder ⟨.lit (.chars us), m, fs⟩ (cs.flatMap escapeChar ++ rest) = none := by
  obtain ⟨a, b, rfl, hna⟩ := exists_first hq
  have hread : ∀ c ∈ a, Readable c := fun c hc =>
    ⟨fun he => hna (he ▸ hc), hctl c (List.mem_append_left _ hc)⟩
  have hrun := run_litRun unitBuilder (litRun_escaped hread us) m fs
  rw [List.flatMap_append, List.append_assoc, run_append_of unitBuilder hrun, List.flatMap_cons]
  rfl

/-- The reader is behind an opening quote, whether this starts a literal or is escaped. -/
theorem run_open {st t : Reader} (h : run unitBuilder st ['"', '"'] = some t) :
    ∃ us, step unitBuilder st '"' = some ⟨.lit (.chars us), st.mode, st.frames⟩ := by
  obtain ⟨l, m, fs⟩ := st
  rcases (run_empty h).2 with ⟨hlex, hw⟩ | ⟨us, hlex⟩
  · simp only at hlex
    subst hlex
    exact ⟨[], by rw [step_quote_between, if_pos hw]⟩
  · simp only at hlex
    subst hlex
    exact ⟨us ++ [.char '"'], rfl⟩

/-- A section that JSON can hold leads to where the empty string leads. -/
theorem run_section {st t : Reader} (h : run unitBuilder st ['"', '"'] = some t) {body : List Char}
    (hb : ∀ c ∈ body, Readable c) :
    run unitBuilder st ('"' :: body.flatMap escapeChar ++ ['"']) = some t := by
  obtain ⟨us, hopen⟩ := run_open h
  have hrun := run_litRun unitBuilder (litRun_escaped hb us) st.mode st.frames
  rw [List.cons_append, run, hopen, Option.bind_some, run_append_of unitBuilder hrun, run_closing]
  exact (run_empty h).1

theorem run_section_refused {st t : Reader} (h : run unitBuilder st ['"', '"'] = some t)
    {body : List Char} (hctl : ∀ c ∈ body, 0x20 ≤ c.toNat) (hq : '\'' ∈ body) (rest : List Char) :
    run unitBuilder st ('"' :: body.flatMap escapeChar ++ rest) = none := by
  obtain ⟨us, hopen⟩ := run_open h
  rw [List.cons_append, run, hopen, Option.bind_some, run_singleQuote hctl hq]

/-- A reader that lags does so in no place where a string can stand. -/
theorem lag_empty {st st' t : Reader} (hlag : Lag unitBuilder st st')
    (h : run unitBuilder st ['"', '"'] = some t) : st' = st := by
  rcases hlag with rfl | ⟨text, -, hend⟩
  · rfl
  · have hst := endAtom_eq unitBuilder hend
    subst hst
    rcases (run_empty h).2 with ⟨-, hw⟩ | ⟨us, hlex⟩
    · cases hw
    · cases hlex

/-! ## The whole text -/

def emptySection (s : List Char × List Char) : List Char := '"' :: '"' :: s.2

theorem emptySection_eq (s : List Char × List Char) : emptySection s = ['"', '"'] ++ s.2 := rfl

theorem convertedSection_eq (s : List Char × List Char) :
    convertedSection s = ('"' :: (unbroken s.1).flatMap escapeChar ++ ['"']) ++ unbroken s.2 := by
  simp [convertedSection]

theorem run_append_some {st t : Reader} {a b : List Char}
    (h : run unitBuilder st (a ++ b) = some t) :
    ∃ st', run unitBuilder st a = some st' ∧ run unitBuilder st' b = some t := by
  rw [run_append] at h
  cases ha : run unitBuilder st a with
  | none => simp [ha] at h
  | some st' =>
    rw [ha, Option.bind_some] at h
    exact ⟨st', rfl, h⟩

theorem run_unbroken {st st' t : Reader} {cs : List Char} (hlag : Lag unitBuilder st st')
    (h : run unitBuilder st cs = some t) :
    ∃ t', run unitBuilder st' (unbroken cs) = some t' ∧ Lag unitBuilder t t' :=
  lag_run unitBuilder hlag h

/-- Sections that JSON can hold: the reader of the output keeps up with the reader of the
emptied text. -/
theorem run_sections {sections : List (List Char × List Char)}
    (hb : ∀ s ∈ sections, ∀ c ∈ unbroken s.1, Readable c) {st st' t : Reader}
    (hlag : Lag unitBuilder st st')
    (h : run unitBuilder st (sections.flatMap emptySection) = some t) :
    ∃ t', run unitBuilder st' (sections.flatMap convertedSection) = some t' ∧
      Lag unitBuilder t t' := by
  induction sections generalizing st st' with
  | nil => exact ⟨st', rfl, Option.some.inj h ▸ hlag⟩
  | cons s ss ih =>
    rw [List.flatMap_cons, emptySection_eq, List.append_assoc] at h
    obtain ⟨s1, h1, h2⟩ := run_append_some h
    obtain ⟨s2, h3, h4⟩ := run_append_some h2
    have hst := lag_empty hlag h1
    subst hst
    have hsec := run_section h1 (hb s List.mem_cons_self)
    obtain ⟨s2', hrun, hlag2⟩ := run_unbroken (.inl rfl) h3
    obtain ⟨t', hrest, ht⟩ := ih (fun x hx => hb x (List.mem_cons_of_mem _ hx)) hlag2 h4
    refine ⟨t', ?_, ht⟩
    rw [List.flatMap_cons, convertedSection_eq, List.append_assoc, run_append_of unitBuilder hsec,
      run_append_of unitBuilder hrun]
    exact hrest

/-- A section with a single quote: the output is refused. -/
theorem run_sections_refused {sections : List (List Char × List Char)}
    (hctl : ∀ s ∈ sections, ∀ c ∈ unbroken s.1, 0x20 ≤ c.toNat)
    (hq : ∃ s ∈ sections, '\'' ∈ unbroken s.1) {st st' t : Reader} (hlag : Lag unitBuilder st st')
    (h : run unitBuilder st (sections.flatMap emptySection) = some t) :
    run unitBuilder st' (sections.flatMap convertedSection) = none := by
  induction sections generalizing st st' with
  | nil =>
    obtain ⟨s, hs, -⟩ := hq
    cases hs
  | cons s ss ih =>
    rw [List.flatMap_cons, emptySection_eq, List.append_assoc] at h
    obtain ⟨s1, h1, h2⟩ := run_append_some h
    obtain ⟨s2, h3, h4⟩ := run_append_some h2
    have hst := lag_empty hlag h1
    subst hst
    have hs := hctl s List.mem_cons_self
    rw [List.flatMap_cons, convertedSection_eq, List.append_assoc]
    by_cases hsq : '\'' ∈ unbroken s.1
    · rw [List.append_assoc]
      exact run_section_refused h1 hs hsq _
    · have hread : ∀ c ∈ unbroken s.1, Readable c := fun c hc => ⟨fun he => hsq (he ▸ hc), hs c hc⟩
      obtain ⟨s2', hrun, hlag2⟩ := run_unbroken (.inl rfl) h3
      rw [run_append_of unitBuilder (run_section h1 hread), run_append_of unitBuilder hrun]
      refine ih (fun x hx => hctl x (List.mem_cons_of_mem _ hx)) ?_ hlag2 h4
      obtain ⟨x, hx, hxq⟩ := hq
      rcases List.mem_cons.mp hx with rfl | hx
      · exact absurd hxq hsq
      · exact ⟨x, hx, hxq⟩

/-! ## The places -/

/-- Between tokens a character leads to no backslash in a literal. -/
theorem stepBetween_escape {st st' : Reader} {c : Char} (hlex : st.lex = .between)
    (h : stepBetween unitBuilder st c = some st') (us : List CodeUnit) :
    st'.lex ≠ .lit (.escape us) := by
  unfold stepBetween at h
  intro he
  split at h
  · rw [← Option.some.inj h, hlex] at he
    cases he
  · split at h
    · split at h
      · rw [← Option.some.inj h] at he
        cases he
      · cases h
    · split at h
      · rw [feedPunct_between unitBuilder h] at he
        cases he
      · split at h
        · rw [← Option.some.inj h] at he
          cases he
        · cases h

theorem litStep_escape {l : Lit} {c : Char} {us : List CodeUnit}
    (h : litStep l c = some (.inl (.escape us))) : c = '\\' := by
  cases l with
  | chars vs =>
    simp only [litStep] at h
    split at h
    · cases h
    · split at h
      · assumption
      · split at h <;> cases h
  | escape vs =>
    simp only [litStep] at h
    split at h
    · cases h
    · cases hu : JsonText.unescape c with
      | none => simp [hu] at h
      | some x => simp [hu] at h
  | unicode vs ds =>
    simp only [litStep] at h
    split at h
    · cases h
    · split at h <;> cases h

/-- The reader is behind a backslash in a literal only when it has just read one. -/
theorem step_escape {st st' : Reader} {c : Char} {us : List CodeUnit}
    (h : step unitBuilder st c = some st') (he : st'.lex = .lit (.escape us)) : c = '\\' := by
  obtain ⟨l, m, fs⟩ := st
  cases l with
  | between => exact absurd he (stepBetween_escape rfl h us)
  | atom text =>
    rw [step_atom unitBuilder rfl] at h
    split at h
    · rw [← Option.some.inj h] at he
      cases he
    · cases hend : endAtom unitBuilder text ⟨.atom text, m, fs⟩ with
      | none => simp [hend] at h
      | some s1 =>
        rw [hend, Option.bind_some] at h
        have hs1 := endAtom_eq unitBuilder hend
        exact absurd he (stepBetween_escape (by rw [hs1]) h us)
  | lit l =>
    simp only [step] at h
    split at h
    · cases h
    · rename_i l' hl
      cases h
      cases he
      exact litStep_escape hl
    · rw [(wantsString_feedString h).1] at he
      cases he

/-- A backslash leaves the reader in an atom or in a literal. -/
theorem step_backslash {st st' : Reader} (h : step unitBuilder st '\\' = some st') :
    st'.lex ≠ .between := by
  obtain ⟨l, m, fs⟩ := st
  cases l with
  | between =>
    have hstep : step unitBuilder ⟨.between, m, fs⟩ '\\'
        = if (⟨.between, m, fs⟩ : Reader).wantsValue then some ⟨.atom ['\\'], m, fs⟩ else none := rfl
    rw [hstep] at h
    split at h
    · cases h
      exact fun he => by cases he
    · cases h
  | atom text =>
    rw [step_atom unitBuilder rfl, if_pos (by decide)] at h
    cases h
    exact fun he => by cases he
  | lit l =>
    cases l with
    | chars us =>
      cases h
      exact fun he => by cases he
    | escape us =>
      cases h
      exact fun he => by cases he
    | unicode us ds => cases h

/-- Where an empty string can stand, it starts a literal unless a backslash is before it. -/
theorem lex_iff_last {cs : List Char} {st t : Reader} (h : run unitBuilder initial cs = some st)
    (he : run unitBuilder st ['"', '"'] = some t) :
    st.lex = .between ↔ cs.getLast? ≠ some '\\' := by
  rcases List.eq_nil_or_concat cs with rfl | ⟨init, c, rfl⟩
  · cases h
    simp [initial]
  · rw [List.concat_eq_append] at h ⊢
    obtain ⟨s0, -, hlast⟩ := run_append_some h
    rw [List.getLast?_concat]
    have hstep : step unitBuilder s0 c = some st := by
      rw [run] at hlast
      cases hs : step unitBuilder s0 c with
      | none => simp [hs] at hlast
      | some s1 =>
        rw [hs, Option.bind_some] at hlast
        exact hlast
    constructor
    · intro hlex hc
      cases hc
      exact step_backslash hstep hlex
    · intro hc
      rcases (run_empty he).2 with ⟨hlex, -⟩ | ⟨us, hlex⟩
      · exact hlex
      · exact absurd (congrArg some (step_escape hstep hlex)) hc

theorem scanLit_litRun {l l' : Lit} {cs : List Char} (h : litRun l cs = some l') (rest : List Char) :
    scanLit l (cs ++ rest) = scanLit l' rest := by
  induction cs generalizing l with
  | nil => rw [← Option.some.inj h]; rfl
  | cons c cs ih =>
    rw [litRun] at h
    split at h
    · rename_i l1 hl1
      rw [List.cons_append, scanLit, hl1]
      exact ih h
    · cases h

theorem scanLit_escaped {cs : List Char} (h : ∀ c ∈ cs, Readable c) (rest : List Char) :
    scanLit (.chars []) (cs.flatMap escapeChar ++ '"' :: rest) = some cs := by
  rw [scanLit_litRun (litRun_escaped h [])]
  simp [scanLit, litStep, decodeUnits_char]

/-- A backslash directly before section number `i`. -/
def Sectioned.afterBackslash (t : Sectioned) (i : Nat) : Prop :=
  (t.upTo i).chars.getLast? = some '\\'

theorem emptied_eq (t : Sectioned) : t.emptied = t.head ++ t.sections.flatMap emptySection := rfl

/-- Emptying the sections before it changes nothing about what is directly before a
section. -/
theorem last_emptied (t : Sectioned) : t.emptied.getLast? = some '\\' ↔ t.chars.getLast? = some '\\' := by
  have hlast : ∀ (a o : List Char) (c : Char), c ≠ '\\' →
      ((a ++ c :: o).getLast? = some '\\' ↔ o.getLast? = some '\\') := by
    intro a o c hc
    cases o with
    | nil => simp [hc]
    | cons x xs => rw [List.append_cons, List.getLast?_append_of_ne_nil _ (by simp)]
  rw [emptied_eq, Sectioned.chars]
  rcases List.eq_nil_or_concat t.sections with hs | ⟨init, s, hs⟩
  · rw [hs]
    rfl
  · rw [hs, List.concat_eq_append, List.flatMap_append, List.flatMap_append, List.flatMap_singleton,
      List.flatMap_singleton]
    have hempty := hlast (t.head ++ init.flatMap emptySection ++ ['"']) s.2 '"' (by decide)
    have htext := hlast (t.head ++ init.flatMap sectionText ++ backtick :: s.1) s.2 backtick (by decide)
    simp only [emptySection, sectionText, List.append_assoc, List.cons_append, List.nil_append]
      at hempty htext ⊢
    rw [hempty, htext]

theorem sections_split {t : Sectioned} {i : Nat} {s : List Char × List Char}
    (h : t.sections[i]? = some s) :
    t.sections = (t.upTo i).sections ++ s :: t.sections.drop (i + 1) := by
  obtain ⟨hi, hs⟩ := List.getElem?_eq_some_iff.mp h
  rw [← hs, List.getElem_cons_drop]
  exact (List.take_append_drop i t.sections).symm

section Places

variable {t : Sectioned} {i : Nat} {s : List Char × List Char} (hs : t.sections[i]? = some s)
include hs

/-- The output is the output for the text before a section and what follows. -/
theorem output_split :
    (convertToValidJson t.text).toList
      = (convertToValidJson (t.upTo i).text).toList
        ++ ('"' :: (unbroken s.1).flatMap escapeChar
          ++ '"' :: (unbroken s.2 ++ (t.sections.drop (i + 1)).flatMap convertedSection)) := by
  have hsplit := sections_split hs
  generalize t.sections.drop (i + 1) = post at hsplit ⊢
  rw [convertToValidJson_text, convertToValidJson_text, hsplit, List.flatMap_append,
    List.flatMap_cons]
  simp [convertedSection, Sectioned.upTo]

/-- The reader of the emptied text before a section. -/
theorem reader_before {v : Reader} (hrun : run unitBuilder initial t.emptied = some v) :
    ∃ st st', run unitBuilder initial (t.upTo i).emptied = some st ∧
      run unitBuilder st ['"', '"'] = some st' := by
  have hsplit : t.emptied = (t.upTo i).emptied
      ++ (['"', '"'] ++ (s.2 ++ (t.sections.drop (i + 1)).flatMap emptySection)) := by
    have hsections := sections_split hs
    generalize t.sections.drop (i + 1) = post at hsections ⊢
    rw [emptied_eq, emptied_eq, hsections, List.flatMap_append, List.flatMap_cons]
    simp [emptySection, Sectioned.upTo]
  rw [hsplit] at hrun
  obtain ⟨st, hst, h2⟩ := run_append_some hrun
  obtain ⟨st', hst', -⟩ := run_append_some h2
  exact ⟨st, st', hst, hst'⟩

/-- The literal in the place of a section. -/
theorem stringAt_section {v : Reader} (hrun : run unitBuilder initial t.emptied = some v)
    (hread : ∀ s ∈ t.sections, ∀ c ∈ unbroken s.1, Readable c) :
    stringAt
        ((convertToValidJson t.text).toList.take (convertToValidJson (t.upTo i).text).length)
        ((convertToValidJson t.text).toList.drop (convertToValidJson (t.upTo i).text).length)
        = some (unbroken s.1)
      ↔ ¬ t.afterBackslash i := by
  obtain ⟨st, st', hst, hst'⟩ := reader_before hs hrun
  have hlex := lex_iff_last hst hst'
  rw [ne_eq, last_emptied] at hlex
  -- the reader of the output stands where the reader of the emptied text does
  have hout : run unitBuilder initial (convertToValidJson (t.upTo i).text).toList = some st := by
    rw [emptied_eq] at hst
    obtain ⟨s0, h0, h1⟩ := run_append_some hst
    obtain ⟨s0', h0', hlag⟩ := run_unbroken (.inl rfl) h0
    have hread' : ∀ x ∈ (t.upTo i).sections, ∀ c ∈ unbroken x.1, Readable c :=
      fun x hx => hread x (List.mem_of_mem_take hx)
    obtain ⟨s1', h1', hlag1⟩ := run_sections hread' hlag h1
    rw [convertToValidJson_text, run_append_of unitBuilder h0', h1', lag_empty hlag1 hst']
  rw [output_split hs, ← String.length_toList, List.take_left, List.drop_left, stringAt, hout,
    Option.bind_some, Sectioned.afterBackslash, ← hlex]
  have hmem : s ∈ t.sections := List.mem_of_getElem? hs
  have hscan := scanLit_escaped (hread s hmem)
    (unbroken s.2 ++ (t.sections.drop (i + 1)).flatMap convertedSection)
  obtain ⟨l, m, fs⟩ := st
  rcases (run_empty hst').2 with ⟨hl, -⟩ | ⟨us, hl⟩
  · cases hl
    simpa [St.inLiteral, literal] using hscan
  · cases hl
    simp [St.inLiteral]

end Places

theorem mem_unbroken {c : Char} {cs : List Char} (hc : isBreak c = false) :
    c ∈ unbroken cs ↔ c ∈ cs := by
  simp [unbroken, hc]

/-- Without control characters other than line breaks and tabs, none is left in a body. -/
theorem no_control {t : Sectioned} (hctl : ∀ c ∈ t.chars, c.toNat < 0x20 → c = '\n' ∨ c = '\t')
    {s : List Char × List Char} (hs : s ∈ t.sections) : ∀ c ∈ unbroken s.1, 0x20 ≤ c.toNat := by
  intro c hc
  obtain ⟨hmem, hbreak⟩ := List.mem_filter.mp hc
  have hchars : c ∈ t.chars := by
    refine List.mem_append_right _ (List.mem_flatMap.mpr ⟨s, hs, ?_⟩)
    simp [sectionText, hmem]
  by_cases hlt : c.toNat < 0x20
  · rcases hctl c hchars hlt with rfl | rfl <;> cases hbreak
  · omega

/-- Exactly the sections without single quotes that follow no backslash become the JSON
strings of their bodies. -/
theorem faithful_iff (t : Sectioned) (hctl : ∀ c ∈ t.chars, c.toNat < 0x20 → c = '\n' ∨ c = '\t')
    (hvalid : (loads docBuilder t.emptied).isSome = true) :
    Faithful t ↔ (∀ s ∈ t.sections, '\'' ∉ s.1) ∧ ∀ i < t.sections.length, ¬ t.afterBackslash i := by
  rw [← loads_isSome docBuilder, loads] at hvalid
  cases hrun : run unitBuilder initial t.emptied with
  | none => simp [hrun] at hvalid
  | some v =>
    rw [hrun, Option.bind_some] at hvalid
    obtain ⟨u, hfin⟩ := Option.isSome_iff_exists.mp hvalid
    have hparts := hrun
    rw [emptied_eq] at hparts
    obtain ⟨s0, h0, h1⟩ := run_append_some hparts
    obtain ⟨s0', h0', hlag⟩ := run_unbroken (.inl rfl) h0
    constructor
    · rintro ⟨⟨doc, hdoc⟩, hplaces⟩
      have hquote : ∀ s ∈ t.sections, '\'' ∉ s.1 := by
        intro s hs hq
        have hnone := run_sections_refused (fun x hx => no_control hctl hx)
          ⟨s, hs, (mem_unbroken (by decide)).mpr hq⟩ hlag h1
        have hload : loads unitBuilder (convertToValidJson t.text).toList = none := by
          rw [loads, convertToValidJson_text, run_append_of unitBuilder h0', hnone]
          rfl
        have hsome := loads_isSome docBuilder (convertToValidJson t.text).toList
        rw [hload, hdoc] at hsome
        cases hsome
      refine ⟨hquote, fun i hi => ?_⟩
      have hread : ∀ s ∈ t.sections, ∀ c ∈ unbroken s.1, Readable c := fun s hs c hc =>
        ⟨fun he => hquote s hs ((mem_unbroken (by decide)).mp (he ▸ hc)), no_control hctl hs c hc⟩
      have hs := List.getElem?_eq_getElem hi
      exact (stringAt_section hs hrun hread).mp (hplaces i _ hs)
    · rintro ⟨hquote, hback⟩
      have hread : ∀ s ∈ t.sections, ∀ c ∈ unbroken s.1, Readable c := fun s hs c hc =>
        ⟨fun he => hquote s hs ((mem_unbroken (by decide)).mp (he ▸ hc)), no_control hctl hs c hc⟩
      constructor
      · obtain ⟨s1', h1', hlag1⟩ := run_sections hread hlag h1
        have hload : loads unitBuilder (convertToValidJson t.text).toList = some u := by
          rw [loads, convertToValidJson_text, run_append_of unitBuilder h0', h1']
          exact lag_finish unitBuilder hlag1 hfin
        have hsome := loads_isSome docBuilder (convertToValidJson t.text).toList
        rw [hload] at hsome
        exact Option.isSome_iff_exists.mp hsome.symm
      · intro i s hs
        obtain ⟨hi, -⟩ := List.getElem?_eq_some_iff.mp hs
        exact (stringAt_section hs hrun hread).mpr (hback i hi)

/-- A section with single quotes, in an object. -/
def singleQuotes : Sectioned where
  head := "\x7b\"sync\": ".toList
  sections := [("log('a')".toList, "\x7d".toList)]
  head_clean := by decide
  sections_clean := by decide

/-- It is JSON when its section is emptied, but not after the conversion. -/
theorem singleQuotes_not_faithful :
    singleQuotes.chars.all (fun c => c.toNat ≥ 0x20) = true ∧
      (loads docBuilder singleQuotes.emptied).isSome = true ∧ ¬ Faithful singleQuotes := by
  refine ⟨by decide, by decide, ?_⟩
  rintro ⟨⟨doc, hdoc⟩, -⟩
  have hnone : (loads docBuilder (convertToValidJson singleQuotes.text).toList).isSome = false := by
    decide
  rw [hdoc] at hnone
  cases hnone

/-- A sync function of two lines with double quotes and a backslash. -/
def twoLines : Sectioned where
  head := "\x7b\n\t\"sync\": ".toList
  sections := [("function(doc) \x7b\n\tchannel(\"a\\d\");\n\x7d".toList, "\n\x7d".toList)]
  head_clean := by decide
  sections_clean := by decide

theorem twoLines_faithful : Faithful twoLines := by
  have hctl : twoLines.chars.all (fun c => decide (c.toNat < 0x20 → c = '\n' ∨ c = '\t')) = true := by
    decide
  refine (faithful_iff twoLines ?_ (by decide)).mpr ⟨by decide, ?_⟩
  · intro c hc
    exact of_decide_eq_true (List.all_eq_true.mp hctl c hc)
  · unfold Sectioned.afterBackslash
    decide

/-! ## Converting twice -/

/-- What the loop may write: no backtick, no line break and no tab. -/
def Settled (c : Char) : Prop := c ≠ backtick ∧ isBreak c = false

/-- Everything written and everything collected so far is settled. -/
structure ConvState.Clean (st : ConvState) : Prop where
  output : ∀ c ∈ st.output, Settled c
  buffer : ∀ c ∈ st.syncFunctionBuffer, Settled c

/-- Escaping puts backslashes before characters and changes none of them. -/
theorem mem_escapeChar {c d : Char} (h : d ∈ escapeChar c) : d = '\\' ∨ d = c := by
  unfold escapeChar at h
  split at h
  · exact .inl (by simpa using h)
  · split at h
    · rename_i hc
      subst hc
      simpa using h
    · split at h
      · rename_i hc
        subst hc
        simpa using h
      · exact .inr (List.mem_singleton.mp h)

theorem settled_escaped {cs : List Char} (h : ∀ c ∈ cs, Settled c) :
    ∀ d ∈ cs.flatMap escapeChar, Settled d := by
  intro d hd
  obtain ⟨c, hc, hd⟩ := List.mem_flatMap.mp hd
  rcases mem_escapeChar hd with rfl | rfl
  · exact ⟨by decide, rfl⟩
  · exact h d hc

theorem ConvState.Clean.convertChar {st : ConvState} (h : st.Clean) {c : Char}
    (hc : isBreak c = false) : (convertChar st c).Clean := by
  have happend : ∀ {cs : List Char}, (∀ x ∈ cs, Settled x) → c ≠ backtick →
      ∀ x ∈ cs ++ [c], Settled x := by
    intro cs hcs hne x hx
    rcases List.mem_append.mp hx with hx | hx
    · exact hcs x hx
    · rw [List.mem_singleton.mp hx]
      exact ⟨hne, hc⟩
  unfold ConvertJson.convertChar
  by_cases hne : c ≠ backtick
  · rw [if_pos hne]
    split
    · exact ⟨h.output, happend h.buffer hne⟩
    · exact ⟨happend h.output hne, h.buffer⟩
  · rw [if_neg hne]
    split
    · refine ⟨fun x hx => ?_, fun x hx => absurd hx List.not_mem_nil⟩
      -- the closed section, between double quotes
      have hquote : Settled '"' := ⟨by decide, rfl⟩
      rw [escapeJsonValue_toList, String.toList_ofList] at hx
      rcases List.mem_append.mp hx with hx | hx
      · rcases List.mem_append.mp hx with hx | hx
        · exact h.output x hx
        · rcases List.mem_cons.mp hx with rfl | hx
          · exact hquote
          · exact settled_escaped h.buffer x hx
      · rw [List.mem_singleton.mp hx]
        exact hquote
    · exact ⟨h.output, h.buffer⟩

/-- A run of the loop over text without line breaks keeps the state clean. -/
theorem ConvState.Clean.foldl {cs : List Char} (hcs : ∀ c ∈ cs, isBreak c = false) {st : ConvState}
    (h : st.Clean) : (cs.foldl ConvertJson.convertChar st).Clean := by
  induction cs generalizing st with
  | nil => exact h
  | cons c cs ih =>
    rw [List.foldl_cons]
    exact ih (fun x hx => hcs x (List.mem_cons_of_mem _ hx)) (h.convertChar (hcs c List.mem_cons_self))

theorem convertToValidJson_settled (s : String) : ∀ c ∈ (convertToValidJson s).toList, Settled c := by
  have hbreaks : ∀ c ∈ unbroken s.toList, isBreak c = false := by
    intro c hc
    simpa [unbroken] using (List.mem_filter.mp hc).2
  have hstart : (⟨[], [], false⟩ : ConvState).Clean :=
    ⟨fun c hc => absurd hc List.not_mem_nil, fun c hc => absurd hc List.not_mem_nil⟩
  rw [convertToValidJson_toList]
  exact (hstart.foldl hbreaks).output

/-- The conversion leaves settled text as it is. -/
theorem convertToValidJson_of_settled {s : String} (h : ∀ c ∈ s.toList, Settled c) :
    convertToValidJson s = s := by
  have hsame : unbroken s.toList = s.toList := by
    refine List.filter_eq_self.mpr fun c hc => ?_
    rw [(h c hc).2]
    rfl
  have hno : backtick ∉ s.toList := fun hm => (h _ hm).1 rfl
  rw [String.ext_iff, convertToValidJson_toList, hsame, foldl_outside hno]
  rfl

/-- No backtick, line break or tab is left, and a second conversion changes nothing. -/
theorem convertToValidJson_idempotent (s : String) :
    backtick ∉ (convertToValidJson s).toList ∧ '\n' ∉ (convertToValidJson s).toList ∧
      '\t' ∉ (convertToValidJson s).toList ∧
      convertToValidJson (convertToValidJson s) = convertToValidJson s := by
  have hsettled := convertToValidJson_settled s
  refine ⟨fun h => (hsettled _ h).1 rfl, fun h => ?_, fun h => ?_,
    convertToValidJson_of_settled hsettled⟩
  · have hbreak := (hsettled _ h).2
    cases hbreak
  · have hbreak := (hsettled _ h).2
    cases hbreak

end MobileTestkit.L4.ConvertJson
