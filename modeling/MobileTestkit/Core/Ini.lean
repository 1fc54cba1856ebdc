import MobileTestkit.Core.ExceptLoop
import MobileTestkit.Core.PyDict
import MobileTestkit.Core.PyStr

/-!
# Reading ini files

`RawConfigParser.read` of Python's configparser with its default options, as a fold over
the lines of a text: comments, section headers, options with `=` or `:`, and values that
go on in deeper indented lines. Keys are lower-cased as ASCII: texts with a key that has a
capital letter beyond ASCII are left out. A second section or option of one name is an
error, a line that is none of these is one at the end.

The values of the source are right-stripped at the end, so blank lines belong to a value
only when more of it follows: `blanks` counts those that wait for that.

* `read_wellFormed`: what a configuration that was read is made of.
* `readLine_header`, `readLines_option`: how a header and an option, written without
  indentation, are read back.
-/
namespace MobileTestkit.Core.Ini

open PyStr (isspace strip Trimmed)

abbrev Text := List Char

abbrev Options := PyDict Text Text

structure Config where
  defaults : Options
  sections : PyDict Text Options

inductive Error where
  | missingSectionHeader
  | duplicateSection (name : Text)
  | duplicateOption (name option : Text)
  | parsing
  deriving DecidableEq, Repr

def DEFAULTSECT : Text := "DEFAULT".toList

namespace Config

def empty : Config := ⟨PyDict.empty, PyDict.empty⟩

def options? (c : Config) (name : Text) : Option Options :=
  if name = DEFAULTSECT then some c.defaults else c.sections.get? name

def put (c : Config) (name : Text) (options : Options) : Config :=
  if name = DEFAULTSECT then { c with defaults := options }
  else { c with sections := c.sections.set name options }

/-- The options of a section that is there. -/
def optionsOf (c : Config) (name : Text) : Options := (c.options? name).getD PyDict.empty

end Config

/-! ## Lines -/

/-- Every line end is read as a line feed; `afterCr` says whether a carriage return is
directly before. -/
def newlines (afterCr : Bool) : Text → Text
  | [] => []
  | c :: cs =>
    if c = '\r' then '\n' :: newlines true cs
    else if c = '\n' ∧ afterCr = true then newlines false cs
    else c :: newlines false cs

/-- `for line in fp`, without the line ends. -/
def fileLines (text : Text) : List Text :=
  let lines := PyStr.splitList '\n' (newlines false text)
  if lines.getLast? = some [] then lines.dropLast else lines

def isComment : Text → Bool
  | [] => false
  | c :: _ => c == '#' || c == ';'

/-- The name between brackets at the beginning: `\[(?P<header>[^]]+)\]`, the pattern of the
Python 3.7 of setup.sh and of the configparser 3.5.0 of requirements.txt; later ones let a
name have a closing bracket. -/
def sectionHeader : Text → Option Text
  | [] => none
  | c :: rest =>
    if c = '[' then
      let name := rest.takeWhile (· != ']')
      if name ≠ [] ∧ name.length < rest.length then some name else none
    else none

def isDelimiter (c : Char) : Bool := c == '=' || c == ':'

def rstrip (cs : Text) : Text := (cs.reverse.dropWhile isspace).reverse

/-- `optionxform`, for keys whose capital letters are ASCII. -/
def lower (cs : Text) : Text := cs.map Char.toLower

/-- Key and value, cut at the first delimiter. -/
def optionOf (value : Text) : Option (Text × Text) :=
  match value.dropWhile (!isDelimiter ·) with
  | [] => none
  | _ :: rest => some (lower (rstrip (value.takeWhile (!isDelimiter ·))), strip rest)

/-! ## The reader -/

structure ReadState where
  config : Config
  cursect : Option Text
  optname : Option Text
  indentLevel : Nat
  blanks : Nat
  failed : Bool

def start : ReadState := ⟨Config.empty, none, none, 0, 0, false⟩

def openSection (st : ReadState) (name : Text) : Except Error ReadState :=
  if name = DEFAULTSECT then .ok { st with cursect := some name, optname := none }
  else if name ∈ st.config.sections.keys then .error (.duplicateSection name)
  else .ok { st with
    config := st.config.put name PyDict.empty
    cursect := some name
    optname := none }

def readOption (st : ReadState) (sectname value : Text) : Except Error ReadState :=
  match optionOf value with
  | none => .ok { st with failed := true }
  | some (key, v) =>
    let options := st.config.optionsOf sectname
    if key ∈ options.keys then .error (.duplicateOption sectname key)
    else .ok { st with
      config := st.config.put sectname (options.set key v)
      optname := if key = [] then none else some key
      blanks := 0
      failed := st.failed || key.isEmpty }

/-- A line that continues the value of `key`. -/
def continueValue (st : ReadState) (sectname key value : Text) : ReadState :=
  let options := st.config.optionsOf sectname
  let old := (options.get? key).getD []
  { st with
    config := st.config.put sectname
      (options.set key (old ++ (List.replicate (st.blanks + 1) '\n' ++ value)))
    blanks := 0 }

def readHeader (st : ReadState) (value : Text) : Except Error ReadState :=
  match sectionHeader value with
  | some name => openSection st name
  | none =>
    match st.cursect with
    | none => .error .missingSectionHeader
    | some sectname => readOption st sectname value

def readLine (st : ReadState) (line : Text) : Except Error ReadState :=
  let value := strip line
  if value = [] then .ok { st with blanks := st.blanks + 1 }
  else if isComment value then .ok st
  else
    let indent := (line.takeWhile isspace).length
    match st.cursect, st.optname with
    | some sectname, some key =>
      if indent > st.indentLevel then .ok (continueValue st sectname key value)
      else readHeader { st with indentLevel := indent } value
    | _, _ => readHeader { st with indentLevel := indent } value

def read (text : Text) : Except Error Config := do
  let st ← (fileLines text).foldlM readLine start
  if st.failed then .error .parsing else .ok st.config

/-! ## Stripped texts -/

theorem rstrip_split (cs : Text) : ∃ b, cs = rstrip cs ++ b ∧ ∀ c ∈ b, isspace c = true := by
  refine ⟨(cs.reverse.takeWhile isspace).reverse, ?_, ?_⟩
  · rw [rstrip, ← List.reverse_append, List.takeWhile_append_dropWhile, List.reverse_reverse]
  · intro c hc
    exact List.all_eq_true.mp (List.all_takeWhile) c (List.mem_reverse.mp hc)

theorem mem_rstrip {c : Char} {cs : Text} (h : c ∈ rstrip cs) : c ∈ cs := by
  obtain ⟨b, hb, -⟩ := rstrip_split cs
  rw [hb]
  exact List.mem_append_left _ h

theorem last_rstrip (cs : Text) : ∀ c ∈ (rstrip cs).getLast?, isspace c = false := by
  intro c hc
  rw [rstrip, List.getLast?_reverse] at hc
  have hhead := List.head?_dropWhile_not isspace cs.reverse
  rw [hc] at hhead
  simpa using hhead

/-- The first character stays when it is no blank. -/
theorem rstrip_cons {c : Char} (h : isspace c = false) (cs : Text) : ∃ ds, rstrip (c :: cs) = c :: ds := by
  obtain ⟨b, hb, hblank⟩ := rstrip_split (c :: cs)
  cases hr : rstrip (c :: cs) with
  | nil =>
    rw [hr, List.nil_append] at hb
    have hc := hblank c (hb ▸ List.mem_cons_self)
    rw [h] at hc
    cases hc
  | cons d ds =>
    rw [hr, List.cons_append] at hb
    exact ⟨ds, by rw [(List.cons.inj hb).1]⟩

theorem strip_eq (cs : Text) : strip cs = rstrip (cs.dropWhile isspace) := rfl

theorem mem_strip {c : Char} {cs : Text} (h : c ∈ strip cs) : c ∈ cs :=
  (List.dropWhile_suffix isspace).mem (mem_rstrip (strip_eq cs ▸ h))

theorem trimmed_strip (cs : Text) : Trimmed (strip cs) := by
  refine ⟨?_, strip_eq cs ▸ last_rstrip _⟩
  rw [strip_eq]
  have hhead := List.head?_dropWhile_not isspace cs
  cases hd : cs.dropWhile isspace with
  | nil => simp [rstrip]
  | cons c ds =>
    rw [hd] at hhead
    have hc : isspace c = false := by simpa using hhead
    obtain ⟨es, he⟩ := rstrip_cons hc ds
    rw [he]
    intro x hx
    rw [← Option.some.inj hx]
    exact hc

/-! ## What a configuration is made of -/

/-- One line of a value, without blanks at its ends. -/
structure LineOk (l : Text) : Prop where
  trimmed : Trimmed l
  noLf : '\n' ∉ l
  noCr : '\r' ∉ l

def joinLines (first : Text) (rest : List Text) : Text := first ++ rest.flatMap ('\n' :: ·)

structure KeyOk (key : Text) : Prop where
  ne_nil : key ≠ []
  line : LineOk key
  lower : lower key = key
  noDelimiter : ∀ c ∈ key, isDelimiter c = false
  noComment : isComment key = false

/-- The lines of a value: those after the first are no comments, and the last one of them
is not blank. -/
structure LinesOk (first : Text) (rest : List Text) : Prop where
  headLine : LineOk first
  moreLines : ∀ l ∈ rest, LineOk l ∧ isComment l = false
  lastLine : ∀ l ∈ rest.getLast?, l ≠ []

/-- An option that can be written in one section and read back. -/
def OptionOk (key value : Text) : Prop :=
  KeyOk key ∧ ∃ first rest, value = joinLines first rest ∧ LinesOk first rest ∧
    sectionHeader (key ++ '=' :: first) = none

structure SectionOk (name : Text) : Prop where
  ne_nil : name ≠ []
  noBracket : ']' ∉ name
  noLf : '\n' ∉ name
  noCr : '\r' ∉ name
  notDefault : name ≠ DEFAULTSECT

structure WellFormed (c : Config) : Prop where
  names : ∀ name ∈ c.sections.keys, SectionOk name
  options : ∀ name o, c.options? name = some o → ∀ k v, o.get? k = some v → OptionOk k v

theorem Config.options?_put (c : Config) (name other : Text) (o : Options) :
    (c.put name o).options? other = if other = name then some o else c.options? other := by
  unfold put options?
  by_cases hn : name = DEFAULTSECT
  · subst hn
    by_cases ho : other = DEFAULTSECT <;> simp [ho]
  · by_cases ho : other = DEFAULTSECT
    · subst ho
      simp [hn, Ne.symm hn]
    · simp [hn, ho]

theorem Config.keys_put {c : Config} {name other : Text} {o : Options}
    (h : other ∈ (c.put name o).sections.keys) :
    other ∈ c.sections.keys ∨ other = name ∧ name ≠ DEFAULTSECT := by
  unfold put at h
  split at h
  · exact .inl h
  · rename_i hn
    rw [PyDict.mem_keys, PyDict.get?_set] at h
    split at h
    · exact .inr ⟨‹_›, hn⟩
    · exact .inl ((PyDict.mem_keys _ _).mpr h)

/-- Exchanging the options of a section that is there. -/
theorem WellFormed.put {c : Config} (h : WellFormed c) {name : Text}
    (hn : name ≠ DEFAULTSECT → SectionOk name) {o : Options}
    (ho : ∀ k v, o.get? k = some v → OptionOk k v) : WellFormed (c.put name o) where
  names := by
    intro other hother
    rcases Config.keys_put hother with hk | ⟨rfl, hne⟩
    · exact h.names other hk
    · exact hn hne
  options := by
    intro other p hp
    rw [Config.options?_put] at hp
    split at hp
    · rw [← Option.some.inj hp]
      exact ho
    · exact h.options other p hp

/-! ## Lower case -/

theorem toLower_of_not_upper {c : Char} (h : ¬ (65 ≤ c.toNat ∧ c.toNat ≤ 90)) : c.toLower = c := by
  have hval : ¬ (c.val ≥ 'A'.val ∧ c.val ≤ 'Z'.val) := h
  unfold Char.toLower
  rw [dif_neg hval]

theorem toNat_toLower {c : Char} (h : 65 ≤ c.toNat ∧ c.toNat ≤ 90) : c.toLower.toNat = c.toNat + 32 := by
  have hval : c.val ≥ 'A'.val ∧ c.val ≤ 'Z'.val := h
  unfold Char.toLower
  rw [dif_pos hval]
  have hlt : c.toNat + 32 < 4294967296 := by omega
  exact Nat.mod_eq_of_lt hlt

theorem toLower_toLower (c : Char) : c.toLower.toLower = c.toLower := by
  by_cases h : 65 ≤ c.toNat ∧ c.toNat ≤ 90
  · have hn := toNat_toLower h
    exact toLower_of_not_upper (by omega)
  · rw [toLower_of_not_upper h, toLower_of_not_upper h]

theorem isspace_toLower (c : Char) : isspace c.toLower = isspace c := by
  by_cases h : 65 ≤ c.toNat ∧ c.toNat ≤ 90
  · have hn := toNat_toLower h
    have hno : ∀ n, 65 ≤ n → n ≤ 122 → n ∉ PyStr.spaces := by
      intro n h1 h2
      simp only [PyStr.spaces, List.mem_cons, List.not_mem_nil, or_false]
      omega
    simp [isspace, hno c.toNat h.1 (by omega), hno c.toLower.toNat (by omega) (by omega)]
  · rw [toLower_of_not_upper h]

/-- Characters that are no ASCII letters come from themselves only. -/
theorem toLower_eq_iff {c d : Char} (h1 : ¬ (65 ≤ d.toNat ∧ d.toNat ≤ 90))
    (h2 : ¬ (97 ≤ d.toNat ∧ d.toNat ≤ 122)) : c.toLower = d ↔ c = d := by
  by_cases h : 65 ≤ c.toNat ∧ c.toNat ≤ 90
  · have hn := toNat_toLower h
    constructor
    · intro he
      rw [he] at hn
      omega
    · intro he
      rw [he] at h
      exact absurd h h1
  · rw [toLower_of_not_upper h]

theorem mem_lower_iff {d : Char} {cs : Text} (h1 : ¬ (65 ≤ d.toNat ∧ d.toNat ≤ 90))
    (h2 : ¬ (97 ≤ d.toNat ∧ d.toNat ≤ 122)) : d ∈ lower cs ↔ d ∈ cs := by
  unfold lower
  simp [toLower_eq_iff h1 h2]

theorem lower_lower (cs : Text) : lower (lower cs) = lower cs := by
  unfold lower
  rw [List.map_map]
  exact List.map_congr_left fun c _ => toLower_toLower c

/-! ## Headers -/

/-- When a text is no section header. -/
theorem sectionHeader_eq_none {t : Text} :
    sectionHeader t = none ↔ ∀ c rest, t = '[' :: c :: rest → c = ']' ∨ ']' ∉ rest := by
  have hlen : ∀ rest : Text, (rest.takeWhile (· != ']')).length < rest.length ↔ ']' ∈ rest := by
    intro rest
    induction rest with
    | nil => simp
    | cons c rest ih =>
      by_cases hc : c = ']'
      · simp [hc]
      · simp [hc, Ne.symm hc, ih]
  cases t with
  | nil => simp [sectionHeader]
  | cons b t =>
    unfold sectionHeader
    by_cases hb : b = '['
    · subst hb
      cases t with
      | nil => simp
      | cons c rest =>
        simp only [↓reduceIte, hlen, List.cons.injEq, true_and]
        by_cases hc : c = ']'
        · subst hc
          simp
        · simp [hc, Ne.symm hc]
    · simp [hb]

theorem sectionHeader_some {t name : Text} (h : sectionHeader t = some name) :
    name ≠ [] ∧ ']' ∉ name ∧ ∀ c ∈ name, c ∈ t := by
  cases t with
  | nil => cases h
  | cons b rest =>
    simp only [sectionHeader] at h
    split at h
    · split at h
      · rename_i hname
        rw [← Option.some.inj h]
        refine ⟨hname.1, ?_, ?_⟩
        · intro hm
          have hall := List.all_eq_true.mp (List.all_takeWhile (p := (· != ']')) (l := rest)) ']' hm
          simp at hall
        · intro c hc
          exact List.mem_cons_of_mem _ ((List.takeWhile_prefix _).mem hc)
      · cases h
    · cases h

/-- A name between brackets is read as itself. -/
theorem sectionHeader_name {name : Text} (hne : name ≠ []) (h : ']' ∉ name) :
    sectionHeader ('[' :: name ++ [']']) = some name := by
  have htake : (name ++ [']']).takeWhile (· != ']') = name := by
    rw [List.takeWhile_append_of_pos]
    · simp
    · intro c hc
      simp only [bne_iff_ne, ne_eq]
      exact fun he => h (he ▸ hc)
  simp [sectionHeader, htake, hne]

/-! ## What is read is well formed -/

/-- A stripped line that is neither blank nor a comment. -/
structure Content (value : Text) : Prop where
  ne_nil : value ≠ []
  line : LineOk value
  noComment : isComment value = false

/-- The key of an option line. -/
theorem optionOf_some {value key v : Text} (h : optionOf value = some (key, v)) :
    ∃ pre blanks d rest, value = pre ++ (blanks ++ d :: rest) ∧ key = lower pre ∧ v = strip rest ∧
      (∀ c ∈ blanks, isspace c = true) ∧ isDelimiter d = true ∧ (∀ c ∈ pre, isDelimiter c = false) ∧
      ∀ c ∈ pre.getLast?, isspace c = false := by
  unfold optionOf at h
  split at h
  · cases h
  · rename_i d rest hdrop
    obtain ⟨hkey, hv⟩ := Prod.mk.inj (Option.some.inj h)
    obtain ⟨b, hb, hblank⟩ := rstrip_split (value.takeWhile (!isDelimiter ·))
    have hall := List.all_eq_true.mp (List.all_takeWhile (p := (!isDelimiter ·)) (l := value))
    refine ⟨rstrip (value.takeWhile (!isDelimiter ·)), b, d, rest, ?_, hkey.symm, hv.symm, hblank, ?_,
      ?_, last_rstrip _⟩
    · rw [← List.append_assoc, ← hb, ← hdrop, List.takeWhile_append_dropWhile]
    · have hhead := List.head?_dropWhile_not (!isDelimiter ·) value
      rw [hdrop] at hhead
      simpa using hhead
    · intro c hc
      simpa using hall c (mem_rstrip hc)

theorem keyOk_lower {pre tail : Text} (hc : Content (pre ++ tail)) (hne : pre ≠ [])
    (hd : ∀ c ∈ pre, isDelimiter c = false) (hlast : ∀ c ∈ pre.getLast?, isspace c = false) :
    KeyOk (lower pre) := by
  cases pre with
  | nil => exact absurd rfl hne
  | cons a pre =>
    have hmem : ∀ c, c ∈ a :: pre → c ∈ a :: pre ++ tail := fun c hm => List.mem_append_left _ hm
    refine ⟨by simp [lower], ⟨⟨?_, ?_⟩, ?_, ?_⟩, lower_lower _, ?_, ?_⟩
    · intro c hm
      rw [← Option.some.inj hm, isspace_toLower]
      exact hc.line.trimmed.1 a rfl
    · intro c hm
      rw [lower, List.getLast?_map] at hm
      obtain ⟨b, hb, rfl⟩ := Option.map_eq_some_iff.mp hm
      rw [isspace_toLower]
      exact hlast b hb
    · rw [mem_lower_iff (by decide) (by decide)]
      exact fun hm => hc.line.noLf (hmem _ hm)
    · rw [mem_lower_iff (by decide) (by decide)]
      exact fun hm => hc.line.noCr (hmem _ hm)
    · intro c hm
      obtain ⟨b, hb, rfl⟩ := List.mem_map.mp hm
      have hb' := hd b hb
      simp only [isDelimiter, Bool.or_eq_false_iff, beq_eq_false_iff_ne, ne_eq] at hb' ⊢
      rw [toLower_eq_iff (by decide) (by decide), toLower_eq_iff (by decide) (by decide)]
      exact hb'
    · have ha := hc.noComment
      simp only [List.cons_append, isComment, Bool.or_eq_false_iff, beq_eq_false_iff_ne, ne_eq, lower,
        List.map_cons] at ha ⊢
      rw [toLower_eq_iff (by decide) (by decide), toLower_eq_iff (by decide) (by decide)]
      exact ha

/-- A line that is no header is none when it is written again. -/
theorem sectionHeader_rewritten {pre v rest : Text} {d : Char} (hne : pre ≠ []) (hd : d ≠ ']')
    (h : sectionHeader (pre ++ d :: rest) = none) (hv : ']' ∈ v → ']' ∈ rest) :
    sectionHeader (lower pre ++ '=' :: v) = none := by
  rw [sectionHeader_eq_none] at h ⊢
  intro c t ht
  cases pre with
  | nil => exact absurd rfl hne
  | cons a pre =>
    simp only [lower, List.map_cons, List.cons_append, List.cons.injEq] at ht
    obtain ⟨ha, ht⟩ := ht
    rw [toLower_eq_iff (by decide) (by decide)] at ha
    subst ha
    cases pre with
    | nil =>
      simp only [List.map_nil, List.nil_append, List.cons.injEq] at ht
      obtain ⟨rfl, rfl⟩ := ht
      rcases h d rest rfl with hb | hb
      · exact absurd hb hd
      · exact .inr fun hm => hb (hv hm)
    | cons b pre =>
      simp only [List.map_cons, List.cons_append, List.cons.injEq] at ht
      obtain ⟨rfl, rfl⟩ := ht
      rcases h b (pre ++ d :: rest) rfl with hb | hb
      · exact .inl ((toLower_eq_iff (by decide) (by decide)).mpr hb)
      · refine .inr fun hm => hb ?_
        rcases List.mem_append.mp hm with hm | hm
        · exact List.mem_append_left _ ((mem_lower_iff (by decide) (by decide)).mp hm)
        · rcases List.mem_cons.mp hm with hm | hm
          · cases hm
          · exact List.mem_append_right _ (List.mem_cons_of_mem _ (hv hm))

/-- An option line that is read can be written and read again. -/
theorem OptionOk.of_line {value key v : Text} (hc : Content value)
    (hs : sectionHeader value = none) (h : optionOf value = some (key, v)) (hne : key ≠ []) :
    OptionOk key v := by
  obtain ⟨pre, blanks, d, rest, hval, hkey, hv, hblank, hd, hpre, hlast⟩ := optionOf_some h
  have hpne : pre ≠ [] := by
    rintro rfl
    exact hne (by rw [hkey]; rfl)
  have hmem : ∀ c, c ∈ v → c ∈ rest := fun c hm => mem_strip (hv ▸ hm)
  have hmem' : ∀ c, c ∈ v → c ∈ value := fun c hm => by
    rw [hval]
    exact List.mem_append_right _ (List.mem_append_right _ (List.mem_cons_of_mem _ (hmem c hm)))
  have hheader : sectionHeader (key ++ '=' :: v) = none := by
    rw [hval] at hs
    rw [hkey]
    cases blanks with
    | nil =>
      have hdne : d ≠ ']' := by
        rintro rfl
        cases hd
      exact sectionHeader_rewritten hpne hdne hs (hmem _)
    | cons b bs =>
      have hb : b ≠ ']' := by
        rintro rfl
        exact absurd (hblank ']' List.mem_cons_self) (by decide)
      refine sectionHeader_rewritten hpne hb hs fun hm => ?_
      exact List.mem_append_right _ (List.mem_cons_of_mem _ (hmem _ hm))
  rw [hval] at hc
  refine ⟨hkey ▸ keyOk_lower hc hpne hpre hlast, v, [], by simp [joinLines], ⟨⟨?_, ?_, ?_⟩, ?_, ?_⟩,
    hheader⟩
  · exact hv ▸ trimmed_strip rest
  · rw [← hval] at hc
    exact fun hm => hc.line.noLf (hmem' _ hm)
  · rw [← hval] at hc
    exact fun hm => hc.line.noCr (hmem' _ hm)
  · simp
  · simp

/-- A value that goes on in a further line. -/
theorem OptionOk.continued {key old value : Text} (h : OptionOk key old) (hc : Content value) (n : Nat) :
    OptionOk key (old ++ (List.replicate (n + 1) '\n' ++ value)) := by
  obtain ⟨hkey, first, rest, rfl, hl, hheader⟩ := h
  refine ⟨hkey, first, rest ++ List.replicate n [] ++ [value], ?_, ⟨hl.headLine, ?_, ?_⟩, hheader⟩
  · have hblank : (List.replicate n ([] : Text)).flatMap ('\n' :: ·) = List.replicate n '\n' := by
      induction n with
      | zero => rfl
      | succ n ih => simp [List.replicate_succ, ih]
    simp [joinLines, hblank, List.replicate_succ']
  · intro l hm
    simp only [List.mem_append, List.mem_singleton] at hm
    rcases hm with (hm | hm) | rfl
    · exact hl.moreLines l hm
    · rw [List.eq_of_mem_replicate hm]
      exact ⟨⟨⟨by simp, by simp⟩, by simp, by simp⟩, rfl⟩
    · exact ⟨hc.line, hc.noComment⟩
  · intro l hm
    rw [List.getLast?_concat] at hm
    rw [← Option.some.inj hm]
    exact hc.ne_nil

/-- The invariant of the reader, as long as no line has failed. -/
structure Good (st : ReadState) : Prop where
  wellFormed : WellFormed st.config
  cursect : ∀ name, st.cursect = some name → name ≠ DEFAULTSECT → SectionOk name
  optname : ∀ key, st.optname = some key → ∃ name v, st.cursect = some name ∧
    (st.config.optionsOf name).get? key = some v

theorem WellFormed.optionsOf {c : Config} (h : WellFormed c) (name : Text) :
    ∀ k v, (c.optionsOf name).get? k = some v → OptionOk k v := by
  unfold Config.optionsOf
  cases ho : c.options? name with
  | none =>
    intro k v hk
    cases hk
  | some o => exact h.options name o ho

theorem Config.optionsOf_put (c : Config) (name : Text) (o : Options) :
    (c.put name o).optionsOf name = o := by
  simp [optionsOf, options?_put]

theorem good_start : Good start where
  wellFormed := ⟨by simp [start, Config.empty, PyDict.keys, PyDict.empty], by
    intro name o ho k v hv
    unfold start Config.empty Config.options? at ho
    split at ho
    · rw [← Option.some.inj ho] at hv
      cases hv
    · cases ho⟩
  cursect := fun _ h => by cases h
  optname := fun _ h => by cases h

theorem openSection_good {st st' : ReadState} {name : Text} (h : Good st)
    (hn : name ≠ DEFAULTSECT → SectionOk name) (hs : openSection st name = .ok st') : Good st' := by
  unfold openSection at hs
  split at hs
  · cases hs
    exact ⟨h.wellFormed, fun s hs hne => by cases hs; exact hn hne, fun _ hk => by cases hk⟩
  · split at hs
    · cases hs
    · cases hs
      have hempty : ∀ k v, (PyDict.empty : Options).get? k = some v → OptionOk k v := by
        intro k v hv
        cases hv
      refine ⟨h.wellFormed.put hn hempty, fun s hs hne => ?_, fun _ hk => by cases hk⟩
      cases hs
      exact hn hne

theorem readOption_good {st st' : ReadState} {sectname value : Text} (h : Good st)
    (hcur : st.cursect = some sectname) (hc : Content value) (hh : sectionHeader value = none)
    (hs : readOption st sectname value = .ok st') : st'.failed = true ∨ Good st' := by
  unfold readOption at hs
  split at hs
  · cases hs
    exact .inl rfl
  · rename_i key v ho
    simp only at hs
    split at hs
    · cases hs
    · cases hs
      by_cases hk : key = []
      · left
        simp [hk]
      · right
        have hok := OptionOk.of_line hc hh ho hk
        refine ⟨h.wellFormed.put (h.cursect sectname hcur) ?_, h.cursect, ?_⟩
        · intro k w hw
          rw [PyDict.get?_set] at hw
          split at hw
          · rename_i he
            rw [he, ← Option.some.inj hw]
            exact hok
          · exact h.wellFormed.optionsOf sectname k w hw
        · intro k hk'
          rw [if_neg hk] at hk'
          cases hk'
          refine ⟨sectname, v, hcur, ?_⟩
          rw [Config.optionsOf_put]
          simp

theorem continueValue_good {st : ReadState} {sectname key value : Text} (h : Good st)
    (hcur : st.cursect = some sectname) (hkey : st.optname = some key) (hc : Content value) :
    Good (continueValue st sectname key value) := by
  obtain ⟨name, v, hname, hv⟩ := h.optname key hkey
  have heq : name = sectname := Option.some.inj (hname.symm.trans hcur)
  subst heq
  unfold continueValue
  simp only [hv, Option.getD_some]
  refine ⟨h.wellFormed.put (h.cursect name hcur) ?_, h.cursect, ?_⟩
  · intro k w hw
    rw [PyDict.get?_set] at hw
    split at hw
    · rename_i he
      rw [he, ← Option.some.inj hw]
      exact (h.wellFormed.optionsOf name key v hv).continued hc _
    · exact h.wellFormed.optionsOf name k w hw
  · intro k hk
    have hkk : key = k := Option.some.inj (hkey.symm.trans hk)
    refine ⟨name, v ++ (List.replicate (st.blanks + 1) '\n' ++ value), hcur, ?_⟩
    rw [Config.optionsOf_put, ← hkk, PyDict.get?_set, if_pos rfl]

theorem readHeader_good {st st' : ReadState} {value : Text} (h : Good st) (hc : Content value)
    (hs : readHeader st value = .ok st') : st'.failed = true ∨ Good st' := by
  unfold readHeader at hs
  split at hs
  · rename_i name hh
    obtain ⟨hne, hb, hmem⟩ := sectionHeader_some hh
    exact .inr (openSection_good h (fun hd => ⟨hne, hb, fun hm => hc.line.noLf (hmem _ hm),
      fun hm => hc.line.noCr (hmem _ hm), hd⟩) hs)
  · rename_i hh
    split at hs
    · cases hs
    · rename_i sectname hcur
      exact readOption_good h hcur hc hh hs

theorem content_of_line {line : Text} (hlf : '\n' ∉ line) (hcr : '\r' ∉ line) (hne : strip line ≠ [])
    (hc : isComment (strip line) ≠ true) : Content (strip line) where
  ne_nil := hne
  line := ⟨trimmed_strip line, fun hm => hlf (mem_strip hm), fun hm => hcr (mem_strip hm)⟩
  noComment := Bool.eq_false_iff.mpr hc

theorem readLine_good {st st' : ReadState} {line : Text} (hlf : '\n' ∉ line) (hcr : '\r' ∉ line)
    (h : Good st) (hs : readLine st line = .ok st') : st'.failed = true ∨ Good st' := by
  unfold readLine at hs
  simp only at hs
  split at hs
  · cases hs
    exact .inr ⟨h.wellFormed, h.cursect, h.optname⟩
  · rename_i hne
    split at hs
    · cases hs
      exact .inr h
    · rename_i hcom
      have hc := content_of_line hlf hcr hne hcom
      have hindent : Good { st with indentLevel := (line.takeWhile isspace).length } :=
        ⟨h.wellFormed, h.cursect, h.optname⟩
      split at hs
      · rename_i sectname key hcur hkey
        split at hs
        · cases hs
          exact .inr (continueValue_good h hcur hkey hc)
        · exact readHeader_good hindent hc hs
      · exact readHeader_good hindent hc hs

/-- A failed line is not forgotten. -/
theorem readLine_failed {st st' : ReadState} {line : Text} (h : st.failed = true)
    (hs : readLine st line = .ok st') : st'.failed = true := by
  have hopen : ∀ (st : ReadState) name, st.failed = true → openSection st name = .ok st' →
      st'.failed = true := by
    intro st name h hs
    unfold openSection at hs
    split at hs
    · cases hs
      exact h
    · split at hs
      · cases hs
      · cases hs
        exact h
  have hoption : ∀ (st : ReadState) name value, st.failed = true →
      readOption st name value = .ok st' → st'.failed = true := by
    intro st name value h hs
    unfold readOption at hs
    split at hs
    · cases hs
      rfl
    · simp only at hs
      split at hs
      · cases hs
      · cases hs
        simp [h]
  have hheader : ∀ (st : ReadState) value, st.failed = true → readHeader st value = .ok st' →
      st'.failed = true := by
    intro st value h hs
    unfold readHeader at hs
    split at hs
    · exact hopen st _ h hs
    · split at hs
      · cases hs
      · exact hoption st _ _ h hs
  unfold readLine at hs
  simp only at hs
  split at hs
  · cases hs
    exact h
  · split at hs
    · cases hs
      exact h
    · split at hs
      · split at hs
        · cases hs
          exact h
        · exact hheader { st with indentLevel := (line.takeWhile isspace).length } _ h hs
      · exact hheader { st with indentLevel := (line.takeWhile isspace).length } _ h hs

theorem newlines_noCr (afterCr : Bool) (cs : Text) : '\r' ∉ newlines afterCr cs := by
  induction cs generalizing afterCr with
  | nil => simp [newlines]
  | cons c cs ih =>
    rw [newlines]
    split
    · simpa using ih true
    · rename_i hc
      split
      · exact ih false
      · simpa [Ne.symm hc] using ih false

theorem newlines_eq_self {cs : Text} (h : '\r' ∉ cs) : newlines false cs = cs := by
  induction cs with
  | nil => rfl
  | cons c cs ih =>
    have hc : c ≠ '\r' := fun he => h (he ▸ List.mem_cons_self)
    rw [newlines, if_neg hc, if_neg (by simp), ih fun hm => h (List.mem_cons_of_mem _ hm)]

theorem mem_fileLines {text l : Text} (h : l ∈ fileLines text) : '\n' ∉ l ∧ '\r' ∉ l := by
  have hmem : l ∈ PyStr.splitList '\n' (newlines false text) := by
    unfold fileLines at h
    simp only at h
    split at h
    · exact (List.dropLast_sublist _).mem h
    · exact h
  obtain ⟨hlf, hin⟩ := PyStr.mem_splitList hmem
  exact ⟨hlf, fun hm => newlines_noCr false text (hin _ hm)⟩

/-- What a configuration that was read is made of. -/
theorem read_wellFormed {text : Text} {c : Config} (h : read text = .ok c) : WellFormed c := by
  unfold read at h
  obtain ⟨st, hrun, hend⟩ := Loop.bind_eq_ok.mp h
  have hstep : ∀ (pre : List Text) s line s', line ∈ fileLines text → s.failed = true ∨ Good s →
      readLine s line = .ok s' → s'.failed = true ∨ Good s' := by
    intro _ s line s' hmem hi hs
    obtain ⟨hlf, hcr⟩ := mem_fileLines hmem
    rcases hi with hi | hi
    · exact .inl (readLine_failed hi hs)
    · exact readLine_good hlf hcr hi hs
  have hinv : st.failed = true ∨ Good st :=
    @Loop.foldlM_inv Error ReadState Text readLine (fun _ st => st.failed = true ∨ Good st) _
      hstep [] start st (.inr good_start) hrun
  split at hend
  · cases hend
  · rename_i hf
    rcases hinv with hinv | hinv
    · exact absurd hinv hf
    · rw [← Except.ok.inj hend]
      exact hinv.wellFormed

/-! ## Reading back -/

/-- Lines without line ends, each ended by one, are the lines of their text. -/
theorem fileLines_lines {lines : List Text} (h : ∀ l ∈ lines, '\n' ∉ l ∧ '\r' ∉ l) :
    fileLines (lines.flatMap (· ++ ['\n'])) = lines := by
  have hcr : '\r' ∉ lines.flatMap (· ++ ['\n']) := by
    intro hm
    obtain ⟨l, hl, hm⟩ := List.mem_flatMap.mp hm
    rcases List.mem_append.mp hm with hm | hm
    · exact (h l hl).2 hm
    · simp at hm
  have hsplit : ∀ ls : List Text, (∀ l ∈ ls, '\n' ∉ l) →
      PyStr.splitList '\n' (ls.flatMap (· ++ ['\n'])) = ls ++ [[]] := by
    intro ls hls
    induction ls with
    | nil => rfl
    | cons l ls ih =>
      rw [List.flatMap_cons, List.append_assoc, List.singleton_append,
        PyStr.splitList_append (hls l List.mem_cons_self),
        ih fun x hx => hls x (List.mem_cons_of_mem _ hx)]
      rfl
  unfold fileLines
  rw [newlines_eq_self hcr, hsplit lines fun l hl => (h l hl).1]
  simp

/-- A line without blanks at its ends is no continuation. -/
theorem readLine_plain {line : Text} (ht : Trimmed line) (hne : line ≠ []) (hc : isComment line = false)
    (st : ReadState) : readLine st line = readHeader { st with indentLevel := 0 } line := by
  have hindent : line.takeWhile isspace = [] := by
    cases line with
    | nil => rfl
    | cons c cs => simp [ht.1 c rfl]
  unfold readLine
  simp only [ht.strip, hindent, List.length_nil, Nat.not_lt_zero, gt_iff_lt]
  rw [if_neg hne, hc]
  simp only [Bool.false_eq_true, if_false]
  split <;> rfl

/-- The section as it is opened. -/
def Config.addSection (c : Config) (name : Text) : Config :=
  if name = DEFAULTSECT then c else c.put name PyDict.empty

/-- A section header without indentation. -/
theorem readLine_header {name : Text} (hne : name ≠ []) (hb : ']' ∉ name) {st : ReadState}
    (hnew : name = DEFAULTSECT ∨ name ∉ st.config.sections.keys) :
    readLine st ('[' :: name ++ [']'])
      = .ok { st with
          config := st.config.addSection name
          cursect := some name
          optname := none
          indentLevel := 0 } := by
  have ht : Trimmed ('[' :: name ++ [']']) := by
    refine ⟨fun c hc => ?_, fun c hc => ?_⟩
    · rw [← Option.some.inj hc]
      decide
    · rw [List.getLast?_concat] at hc
      rw [← Option.some.inj hc]
      decide
  rw [readLine_plain ht (by simp) rfl, readHeader, sectionHeader_name hne hb]
  simp only [openSection, Config.addSection]
  split
  · rfl
  · rename_i hd
    rw [if_neg (hnew.resolve_left hd)]

theorem Config.put_put (c : Config) (name : Text) (o o' : Options) :
    (c.put name o).put name o' = c.put name o' := by
  unfold put
  split
  · rfl
  · simp [PyDict.set_set]

/-- The state with the value `v` of `key` and `blanks` lines behind it. -/
def ReadState.withValue (st : ReadState) (name key v : Text) (blanks : Nat) : ReadState :=
  { st with
    config := st.config.put name ((st.config.optionsOf name).set key v)
    cursect := some name
    optname := some key
    indentLevel := 0
    blanks := blanks }

theorem optionOf_written {key first : Text} (hk : KeyOk key) (hf : Trimmed first) :
    optionOf (key ++ '=' :: first) = some (key, first) := by
  have htake : (key ++ '=' :: first).takeWhile (!isDelimiter ·) = key := by
    rw [List.takeWhile_append_of_pos fun c hc => by simp [hk.noDelimiter c hc]]
    simp [isDelimiter]
  have hdrop : (key ++ '=' :: first).dropWhile (!isDelimiter ·) = '=' :: first := by
    rw [List.dropWhile_append_of_pos fun c hc => by simp [hk.noDelimiter c hc]]
    simp [isDelimiter]
  have hrstrip : rstrip key = key := by
    have hstrip := hk.line.trimmed.strip
    rw [strip_eq] at hstrip
    have hdw : key.dropWhile isspace = key := by
      cases key with
      | nil => rfl
      | cons c cs => simp [hk.line.trimmed.1 c rfl]
    rwa [hdw] at hstrip
  unfold optionOf
  rw [htake, hdrop, hrstrip, hk.lower]
  simp only [hf.strip]

/-- The first line of an option without indentation. -/
theorem readLine_option {st : ReadState} {name key first : Text} (hcur : st.cursect = some name)
    (hk : KeyOk key) (hf : LineOk first) (hh : sectionHeader (key ++ '=' :: first) = none)
    (hnew : key ∉ (st.config.optionsOf name).keys) :
    readLine st (key ++ '=' :: first) = .ok (st.withValue name key first 0) := by
  have ht : Trimmed (key ++ '=' :: first) := by
    refine ⟨fun c hc => ?_, fun c hc => ?_⟩
    · rw [List.head?_append_of_ne_nil _ hk.ne_nil] at hc
      exact hk.line.trimmed.1 c hc
    · rw [List.append_cons] at hc
      cases first with
      | nil =>
        rw [List.append_nil, List.getLast?_concat] at hc
        rw [← Option.some.inj hc]
        decide
      | cons d ds =>
        rw [List.getLast?_append_of_ne_nil _ (by simp)] at hc
        exact hf.trimmed.2 c hc
  have hcom : isComment (key ++ '=' :: first) = false := by
    cases hkey : key with
    | nil => exact absurd hkey hk.ne_nil
    | cons c cs =>
      have hc := hk.noComment
      rw [hkey] at hc
      exact hc
  have hempty : key.isEmpty = false := by
    cases hkey : key with
    | nil => exact absurd hkey hk.ne_nil
    | cons c cs => rfl
  rw [readLine_plain ht (by simp) hcom, readHeader, hh]
  simp only [hcur, readOption, optionOf_written hk hf.trimmed, if_neg hnew, if_neg hk.ne_nil, hempty,
    Bool.or_false]
  rfl

/-- Value and waiting blank lines after further lines of a value. -/
def absorb : Text → Nat → List Text → Text × Nat
  | v, b, [] => (v, b)
  | v, b, l :: ls =>
    if l = [] then absorb v (b + 1) ls
    else absorb (v ++ (List.replicate (b + 1) '\n' ++ l)) 0 ls

theorem absorb_eq {rest : List Text} (hlast : ∀ l ∈ rest.getLast?, l ≠ []) (v : Text) (b : Nat)
    (hb : rest = [] → b = 0) :
    absorb v b rest = (v ++ (List.replicate b '\n' ++ rest.flatMap ('\n' :: ·)), 0) := by
  induction rest generalizing v b with
  | nil => simp [absorb, hb rfl]
  | cons l ls ih =>
    have hlast' : ∀ x ∈ ls.getLast?, x ≠ [] := by
      intro x hx
      refine hlast x ?_
      cases ls with
      | nil => cases hx
      | cons y ys => simpa using hx
    rw [absorb]
    split
    · rename_i hl
      have hne : ls ≠ [] := by
        rintro rfl
        exact hlast l (by simp) hl
      rw [ih hlast' v (b + 1) fun he => absurd he hne, hl, List.replicate_succ']
      simp
    · rw [ih hlast' _ 0 fun _ => rfl, List.replicate_succ']
      simp

theorem strip_tab {l : Text} (h : Trimmed l) : strip ('\t' :: l) = l := by
  have hdrop : ('\t' :: l).dropWhile isspace = l.dropWhile isspace := by
    rw [List.dropWhile_cons_of_pos (by decide)]
  rw [strip_eq, hdrop, ← strip_eq, h.strip]

/-- An indented line goes on with the value. -/
theorem readLine_tab {st : ReadState} {name key v l : Text} {b : Nat} (hl : LineOk l)
    (hc : isComment l = false) :
    readLine (st.withValue name key v b) ('\t' :: l)
      = .ok (if l = [] then st.withValue name key v (b + 1)
          else st.withValue name key (v ++ (List.replicate (b + 1) '\n' ++ l)) 0) := by
  have hget : ((st.withValue name key v b).config.optionsOf name).get? key = some v := by
    rw [ReadState.withValue, Config.optionsOf_put]
    simp
  unfold readLine
  simp only [strip_tab hl.trimmed]
  by_cases hne : l = []
  · rw [if_pos hne, if_pos hne]
    rfl
  · rw [if_neg hne, if_neg hne, hc]
    have hindent : (('\t' :: l).takeWhile isspace).length > 0 := by
      rw [List.takeWhile_cons_of_pos (by decide)]
      simp
    have hcont : continueValue (st.withValue name key v b) name key l
        = st.withValue name key (v ++ (List.replicate (b + 1) '\n' ++ l)) 0 := by
      unfold continueValue
      simp only [hget, Option.getD_some]
      simp only [ReadState.withValue, Config.optionsOf_put, Config.put_put, PyDict.set_set]
    have hcur : (st.withValue name key v b).cursect = some name := rfl
    have hopt : (st.withValue name key v b).optname = some key := rfl
    have hlevel : (st.withValue name key v b).indentLevel = 0 := rfl
    simp only [hcur, hopt, hlevel, if_pos hindent, hcont, Bool.false_eq_true, if_false]

theorem readLines_tabs {rest : List Text} (h : ∀ l ∈ rest, LineOk l ∧ isComment l = false)
    (st : ReadState) (name key v : Text) (b : Nat) :
    (rest.map ('\t' :: ·)).foldlM readLine (st.withValue name key v b)
      = .ok (st.withValue name key (absorb v b rest).1 (absorb v b rest).2) := by
  induction rest generalizing v b with
  | nil => rfl
  | cons l ls ih =>
    obtain ⟨hl, hc⟩ := h l List.mem_cons_self
    have hrest := fun v b => ih (fun x hx => h x (List.mem_cons_of_mem _ hx)) v b
    rw [List.map_cons, List.foldlM_cons, readLine_tab hl hc, absorb]
    by_cases hne : l = []
    · rw [if_pos hne, if_pos hne]
      exact hrest _ _
    · rw [if_neg hne, if_neg hne]
      exact hrest _ _

/-- The lines of an option: the first one with the key, the others behind a tab. -/
def optionLines (key first : Text) (rest : List Text) : List Text :=
  (key ++ '=' :: first) :: rest.map ('\t' :: ·)

/-- An option that is written without indentation is read back. -/
theorem readLines_option {st : ReadState} {name key first : Text} {rest : List Text}
    (hcur : st.cursect = some name) (hk : KeyOk key) (hl : LinesOk first rest)
    (hh : sectionHeader (key ++ '=' :: first) = none)
    (hnew : key ∉ (st.config.optionsOf name).keys) :
    (optionLines key first rest).foldlM readLine st
      = .ok (st.withValue name key (joinLines first rest) 0) := by
  rw [optionLines, List.foldlM_cons, readLine_option hcur hk hl.headLine hh hnew]
  have htabs := readLines_tabs hl.moreLines st name key first 0
  rw [absorb_eq hl.lastLine first 0 fun _ => rfl] at htabs
  exact htabs

theorem readLine_blank (st : ReadState) : readLine st [] = .ok { st with blanks := st.blanks + 1 } := rfl

end MobileTestkit.Core.Ini
