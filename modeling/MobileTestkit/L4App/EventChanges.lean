import MobileTestkit.Core.PyDict
import MobileTestkit.Core.PyRepr
import MobileTestkit.Core.Regex

/-!
# Reading replication events

Model of `get_event_changes` (keywords/utils.py): a regular expression is run over the printed
form of a list of event texts, and its matches are stored by document id.

* `find_event`: where the id is a word, the first match is the event itself, up to its quote.
* `isWord_of_mem_keys`: no key is anything but a word.
* `kept_iff`: every event is kept with its own fields, exactly if its id is a word and the
  call takes nothing from its fields (`Verbatim`).
-/
namespace MobileTestkit.L4.EventChanges

open MobileTestkit.Core
open MobileTestkit.Core.Regex (Pattern Match lits matchHere findall findallFrom find search)

/-- A statement about the characters of a text is decided over the text, not over all of `Char`. -/
local instance decidableForallMem (cs : List Char) (p : Char → Prop) [DecidablePred p] : Decidable (∀ c ∈ cs, p c) :=
  List.decidableBAll p cs

/-! ## get_event_changes -/

/-- `[a-zA-Z0-9_]`. -/
def isWord (c : Char) : Bool := c.isAlphanum || c == '_'

/-- `.`. -/
def isDot (c : Char) : Bool := c != '\n'

/-! The fixed parts of an event. -/

def docIdLabel : List Char := "doc_id: ".toList

def codeLabel : List Char := ", error_code: ".toList

def domainLabel : List Char := ", error_domain: ".toList

def pushLabel : List Char := ", push: ".toList

def flagsLabel : List Char := ", flags: ".toList

/-! The pattern, from its end. -/

def flagsPart : Pattern := .lazy isDot true :: (lits ['\''] ++ [.lazy isDot false])

def pushPart : Pattern := .plus isWord :: (lits flagsLabel ++ flagsPart)

def domainPart : Pattern := .plus isWord :: (lits pushLabel ++ pushPart)

def codePart : Pattern := .lazy isDot true :: (lits domainLabel ++ domainPart)

/-- The pattern without the `.*?` at the front. -/
def core : Pattern := lits docIdLabel ++ .plus isWord :: (lits codeLabel ++ codePart)

/-- mirrors keywords/utils.py:281-282 -/
def pattern : Pattern := .lazy isDot false :: core

/-- The fields of an event; `none` is `None`. -/
structure Change where
  push : Bool
  errorCode : Option String
  errorDomain : Option String
  flags : Option String
  deriving DecidableEq, Repr

def strip (s : String) : String := String.ofList (PyStr.strip s.toList)

/-- mirrors keywords/utils.py:290-293 -/
def errorField (s : String) : Option String := if s = "0" ∨ s = "nil" then none else some s

/-- mirrors keywords/utils.py:286-297 -/
def changeOf (errorCode errorDomain push flags : String) : Change where
  push := PyStr.contains push "true" || PyStr.contains push "True"
  errorCode := errorField (strip errorCode)
  errorDomain := errorField (strip errorDomain)
  flags := if flags ≠ "[]" then some flags else none

/-- One match; the pattern has five groups.
mirrors keywords/utils.py:285-297 -/
def storeEvent (eventDict : PyDict String Change) : List (List Char) → PyDict String Change
  | [docId, errorCode, errorDomain, push, flags] =>
    eventDict.set (strip (String.ofList docId))
      (changeOf (String.ofList errorCode) (String.ofList errorDomain) (String.ofList push) (String.ofList flags))
  | _ => eventDict

/-- mirrors keywords/utils.py:272-298 -/
def getEventChanges (isprintable : Char → Bool) (eventChanges : List String) : PyDict String Change :=
  (findall pattern (PyRepr.strOfList isprintable (eventChanges.map String.toList))).foldl storeEvent .empty

/-! ## Events -/

def IsWord (s : String) : Prop := s.toList ≠ [] ∧ ∀ c ∈ s.toList, isWord c = true

instance (s : String) : Decidable (IsWord s) := inferInstanceAs (Decidable (_ ∧ _))

/-- No commas and no quotes. -/
def IsFree (s : String) : Prop := ',' ∉ s.toList ∧ '\'' ∉ s.toList ∧ '"' ∉ s.toList

instance (s : String) : Decidable (IsFree s) := inferInstanceAs (Decidable (_ ∧ _ ∧ _))

structure Event where
  docId : String
  errorCode : String
  errorDomain : String
  push : String
  flags : String
  docIdFree : IsFree docId ∧ '\\' ∉ docId.toList
  errorCodeFree : IsFree errorCode
  errorDomainWord : IsWord errorDomain
  pushWord : IsWord push
  flagsFree : IsFree flags

namespace Event

def text (e : Event) : String :=
  "doc_id: " ++ e.docId ++ ", error_code: " ++ e.errorCode ++ ", error_domain: " ++ e.errorDomain ++
    ", push: " ++ e.push ++ ", flags: " ++ e.flags

/-- The event is one of a push. -/
def IsPush (e : Event) : Prop := e.push = "true" ∨ e.push = "True"

instance (e : Event) : Decidable e.IsPush := inferInstanceAs (Decidable (_ ∨ _))

/-- The fields of the event as they stand in its text; 0 and nil are `None` for the error fields. -/
def change (e : Event) : Change where
  push := decide e.IsPush
  errorCode := if e.errorCode = "0" ∨ e.errorCode = "nil" then none else some e.errorCode
  errorDomain := if e.errorDomain = "0" ∨ e.errorDomain = "nil" then none else some e.errorDomain
  flags := some e.flags

end Event

/-- The characters of the string can be printed, and there is no backslash. -/
def Prints (isprintable : Char → Bool) (s : String) : Prop :=
  ∀ c ∈ s.toList, PyRepr.plain isprintable c = true

instance (isprintable : Char → Bool) (s : String) : Decidable (Prints isprintable s) :=
  inferInstanceAs (Decidable (∀ c ∈ s.toList, PyRepr.plain isprintable c = true))

/-- The id is a word, the error code and the flags are printed as they are, the error code has no
blank at its ends, `true` stands only in the word of a push, and the flags are not empty. -/
def Verbatim (isprintable : Char → Bool) (e : Event) : Prop :=
  IsWord e.docId ∧ (Prints isprintable e.errorCode ∧ PyStr.Trimmed e.errorCode.toList) ∧
    (PyStr.contains e.push "true" = true ∨ PyStr.contains e.push "True" = true → e.IsPush) ∧
    Prints isprintable e.flags ∧ e.flags ≠ "[]"

instance (isprintable : Char → Bool) (e : Event) : Decidable (Verbatim isprintable e) :=
  inferInstanceAs (Decidable (_ ∧ (_ ∧ _) ∧ _ ∧ _ ∧ _))

/-- The keys are the ids of the events, each with the fields of its event. -/
structure Kept (events : List Event) (eventDict : PyDict String Change) : Prop where
  keys : ∀ docId, docId ∈ eventDict.keys ↔ docId ∈ events.map Event.docId
  fields : ∀ e ∈ events, eventDict.get? e.docId = some e.change

/-! ## Where the pattern matches -/

/-- A match has a word for its id. -/
theorem word_of_core {cs : List Char} {m : Match} (h : matchHere core cs = some m) :
    ∃ w groups, m.1 = w :: groups ∧ w ≠ [] ∧ ∀ c ∈ w, isWord c = true := by
  obtain ⟨rest, -, hplus⟩ := Regex.prefix_of_lits h
  obtain ⟨w, -, m', -, hne, hw, -, rfl⟩ := Regex.of_plus hplus
  exact ⟨w, m'.1, rfl, hne, hw⟩

theorem word_of_findall (cs : List Char) :
    ∀ groups ∈ findall pattern cs, ∃ w rest, groups = w :: rest ∧ w ≠ [] ∧ ∀ c ∈ w, isWord c = true :=
  Regex.forall_findall (fun _ _ h => by
    obtain ⟨rest, hrest⟩ := Regex.of_lazy h
    exact word_of_core hrest) cs

/-- Nothing is matched where no `d` stands. -/
theorem core_none {c : Char} {cs : List Char} (h : c ≠ 'd') : matchHere core (c :: cs) = none :=
  Regex.matchHere_lits_none h

theorem find_skip {a : List Char} (h : 'd' ∉ a) (cs : List Char) :
    find (matchHere core) (a ++ cs) = find (matchHere core) cs := by
  refine Regex.find_append cs fun u hu hsuffix => ?_
  obtain ⟨c, u, rfl⟩ := List.exists_cons_of_ne_nil hu
  exact core_none fun hc => h (hc ▸ hsuffix.subset List.mem_cons_self)

theorem find_end {a : List Char} (h : 'd' ∉ a) : find (matchHere core) a = none := by
  have hskip := find_skip h []
  rwa [List.append_nil] at hskip

/-- The groups of a printed event. -/
structure Shown where
  docId : List Char
  errorCode : List Char
  errorDomain : List Char
  push : List Char
  flags : List Char

namespace Shown

def groups (s : Shown) : List (List Char) := [s.docId, s.errorCode, s.errorDomain, s.push, s.flags]

/-- The printed event up to its end, `cs` being what comes behind. -/
def before (s : Shown) (cs : List Char) : List Char :=
  docIdLabel ++ (s.docId ++ (codeLabel ++ (s.errorCode ++
    (domainLabel ++ (s.errorDomain ++ (pushLabel ++ (s.push ++
      (flagsLabel ++ (s.flags ++ '\'' :: cs)))))))))

/-- An event that the pattern matches. -/
structure Matches (s : Shown) : Prop where
  docId : s.docId ≠ [] ∧ ∀ c ∈ s.docId, isWord c = true
  errorCode : ',' ∉ s.errorCode ∧ ∀ c ∈ s.errorCode, isDot c = true
  errorDomain : s.errorDomain ≠ [] ∧ ∀ c ∈ s.errorDomain, isWord c = true
  push : s.push ≠ [] ∧ ∀ c ∈ s.push, isWord c = true
  flags : '\'' ∉ s.flags ∧ ∀ c ∈ s.flags, isDot c = true

/-- The pattern matches such an event, up to its quote. -/
theorem Matches.core {s : Shown} (h : s.Matches) (cs : List Char) :
    matchHere EventChanges.core (s.before cs) = some (s.groups, cs) := by
  have hcomma : isWord ',' = false := by decide
  have hquote : ['\''].head? = some '\'' := rfl
  have hflags : matchHere flagsPart (s.flags ++ '\'' :: cs) = some ([s.flags], cs) :=
    Regex.matchHere_lazy hquote h.flags.2 h.flags.1 (Regex.matchHere_lazy_end isDot cs)
  have hpush := Regex.matchHere_plus (show flagsLabel.head? = some ',' from rfl) h.push.1 h.push.2 hcomma
    hflags
  have hdomain := Regex.matchHere_plus (show pushLabel.head? = some ',' from rfl) h.errorDomain.1
    h.errorDomain.2 hcomma hpush
  have hcode := Regex.matchHere_lazy (show domainLabel.head? = some ',' from rfl) h.errorCode.2
    h.errorCode.1 hdomain
  have hid := Regex.matchHere_plus (show codeLabel.head? = some ',' from rfl) h.docId.1 h.docId.2
    hcomma hcode
  exact (Regex.matchHere_lits docIdLabel _ _).trans hid

end Shown

/-! ## The printed list -/

section
variable (isprintable : Char → Bool)

def shown (e : Event) : Shown where
  docId := PyRepr.escape isprintable '\'' e.docId.toList
  errorCode := PyRepr.escape isprintable '\'' e.errorCode.toList
  errorDomain := e.errorDomain.toList
  push := e.push.toList
  flags := PyRepr.escape isprintable '\'' e.flags.toList

/-- What comes behind an event in the printed list. -/
def behind : List Event → List Char
  | [] => [']']
  | e :: es => [',', ' ', '\''] ++ (shown isprintable e).before (behind es)

theorem escape_append (quote : Char) (a b : List Char) : PyRepr.escape isprintable quote (a ++ b) =
    PyRepr.escape isprintable quote a ++ PyRepr.escape isprintable quote b := List.flatMap_append

theorem toNat_of_isUpper {c : Char} (h : c.isUpper = true) : 65 ≤ c.toNat ∧ c.toNat ≤ 90 :=
  have hval : 'A'.val ≤ c.val ∧ c.val ≤ 'Z'.val := of_decide_eq_true h
  hval

theorem toNat_of_isLower {c : Char} (h : c.isLower = true) : 97 ≤ c.toNat ∧ c.toNat ≤ 122 :=
  have hval : (decide ('a'.val ≤ c.val) && decide (c.val ≤ 'z'.val)) = true := h
  (Bool.and_eq_true_iff.mp hval).imp of_decide_eq_true of_decide_eq_true

/-- A word is made of letters, digits and underscores, which have their places in ASCII. -/
theorem bounds_of_isWord {c : Char} (h : isWord c = true) :
    c = '_' ∨ 48 ≤ c.toNat ∧ c.toNat ≤ 57 ∨ 65 ≤ c.toNat ∧ c.toNat ≤ 90 ∨ 97 ≤ c.toNat ∧ c.toNat ≤ 122 := by
  rcases (Bool.or_eq_true _ _).mp h with h | h
  · rcases (Bool.or_eq_true _ _).mp h with h | h
    · rcases (Bool.or_eq_true _ _).mp h with h | h
      · exact .inr (.inr (.inl (toNat_of_isUpper h)))
      · exact .inr (.inr (.inr (toNat_of_isLower h)))
    · exact .inr (.inl (Char.isDigit_iff_toNat.mp h))
  · exact .inl (beq_iff_eq.mp h)

theorem ne_of_isWord {c d : Char} (h : isWord c = true) (hd : isWord d = false) : c ≠ d := by
  rintro rfl
  rw [hd] at h
  cases h

theorem plain_of_isWord {c : Char} (h : isWord c = true) : PyRepr.plain isprintable c = true := by
  refine (PyRepr.plain_iff c).mpr ⟨ne_of_isWord h (by decide), ?_⟩
  rcases bounds_of_isWord h with rfl | hb
  · exact ⟨by decide, .inl (by decide)⟩
  · exact ⟨by omega, .inl (by omega)⟩

theorem isDot_of_isWord {c : Char} (h : isWord c = true) : isDot c = true := by
  simpa [isDot] using ne_of_isWord h (by decide : isWord '\n' = false)

theorem quote_not_mem {w : List Char} (h : ∀ c ∈ w, isWord c = true) : '\'' ∉ w :=
  fun hm => ne_of_isWord (h _ hm) (by decide) rfl

theorem escape_word {w : List Char} (h : ∀ c ∈ w, isWord c = true) :
    PyRepr.escape isprintable '\'' w = w :=
  PyRepr.escape_plain (quote_not_mem h) fun c hc => plain_of_isWord isprintable (h c hc)

theorem escape_ascii {w : List Char}
    (h : ∀ c ∈ w, c ≠ '\'' ∧ c ≠ '\\' ∧ 0x20 ≤ c.toNat ∧ c.toNat < 0x7f) :
    PyRepr.escape isprintable '\'' w = w := by
  refine PyRepr.escape_plain (fun hm => (h _ hm).1 rfl) fun c hc => (PyRepr.plain_iff c).mpr ?_
  obtain ⟨-, hback, h1, h2⟩ := h c hc
  exact ⟨hback, by omega, .inl h2⟩

/-- An escape has no line feed. -/
theorem isDot_of_mem_escape {cs : List Char} (hq : '\'' ∉ cs) :
    ∀ c ∈ PyRepr.escape isprintable '\'' cs, isDot c = true := by
  intro c hc
  have hne : c ≠ '\n' := by
    rintro rfl
    rcases PyRepr.mem_escape hq hc with ⟨-, hplain⟩ | halnum | hback
    · exact ((PyRepr.plain_iff _).mp hplain).2.1 (.inl (by decide))
    · exact absurd halnum (by decide)
    · exact absurd hback (by decide)
  simpa [isDot] using hne

theorem comma_not_mem_escape {cs : List Char} (hq : '\'' ∉ cs) (hc : ',' ∉ cs) :
    ',' ∉ PyRepr.escape isprintable '\'' cs := by
  intro hm
  rcases PyRepr.mem_escape hq hm with ⟨h, -⟩ | halnum | hback
  · exact hc h
  · exact absurd halnum (by decide)
  · exact absurd hback (by decide)

theorem quote_not_mem_escape {cs : List Char} (hq : '\'' ∉ cs) :
    '\'' ∉ PyRepr.escape isprintable '\'' cs := by
  intro hm
  rcases PyRepr.mem_escape hq hm with ⟨h, -⟩ | halnum | hback
  · exact hq h
  · exact absurd halnum (by decide)
  · exact absurd hback (by decide)

theorem toList_fields (l₁ d l₂ c l₃ m l₄ p l₅ f : String) :
    (l₁ ++ d ++ l₂ ++ c ++ l₃ ++ m ++ l₄ ++ p ++ l₅ ++ f).toList =
      l₁.toList ++ (d.toList ++ (l₂.toList ++ (c.toList ++ (l₃.toList ++ (m.toList ++ (l₄.toList ++
        (p.toList ++ (l₅.toList ++ f.toList)))))))) := by
  simp only [String.toList_append, List.append_assoc]

/-- Fields between labels of printable characters. -/
theorem repr_fields {l₁ l₂ l₃ l₄ l₅ d c m p f : List Char}
    (hl : ∀ l ∈ [l₁, l₂, l₃, l₄, l₅], ∀ c ∈ l, c ≠ '\'' ∧ c ≠ '\\' ∧ 0x20 ≤ c.toNat ∧ c.toNat < 0x7f)
    (hd : '\'' ∉ d) (hc : '\'' ∉ c) (hm : '\'' ∉ m) (hp : '\'' ∉ p) (hf : '\'' ∉ f) :
    PyRepr.repr isprintable (l₁ ++ (d ++ (l₂ ++ (c ++ (l₃ ++ (m ++ (l₄ ++ (p ++ (l₅ ++ f))))))))) =
      '\'' :: (l₁ ++ (PyRepr.escape isprintable '\'' d ++ (l₂ ++ (PyRepr.escape isprintable '\'' c ++ (l₃ ++
        (PyRepr.escape isprintable '\'' m ++ (l₄ ++ (PyRepr.escape isprintable '\'' p ++ (l₅ ++
          (PyRepr.escape isprintable '\'' f ++ ['\''])))))))))) := by
  have hquote : ∀ l ∈ [l₁, l₂, l₃, l₄, l₅], '\'' ∉ l := fun l hmem hq => (hl l hmem _ hq).1 rfl
  have hlabel : ∀ l ∈ [l₁, l₂, l₃, l₄, l₅], PyRepr.escape isprintable '\'' l = l :=
    fun l hmem => escape_ascii isprintable (hl l hmem)
  simp only [List.forall_mem_cons] at hquote hlabel
  obtain ⟨hq1, hq2, hq3, hq4, hq5, -⟩ := hquote
  obtain ⟨he1, he2, he3, he4, he5, -⟩ := hlabel
  rw [PyRepr.repr, if_neg fun h => by simp_all]
  simp only [escape_append, he1, he2, he3, he4, he5, List.append_assoc]

/-- An event in the printed list, with its quotes. -/
theorem repr_text (e : Event) (cs : List Char) :
    PyRepr.repr isprintable e.text.toList ++ cs = '\'' :: (shown isprintable e).before cs := by
  have htext : e.text.toList = docIdLabel ++ (e.docId.toList ++ (codeLabel ++ (e.errorCode.toList ++
      (domainLabel ++ (e.errorDomain.toList ++ (pushLabel ++ (e.push.toList ++ (flagsLabel ++
        e.flags.toList)))))))) := toList_fields _ _ _ _ _ _ _ _ _ _
  rw [htext, repr_fields isprintable (by decide) e.docIdFree.1.2.1 e.errorCodeFree.2.1
    (quote_not_mem e.errorDomainWord.2) (quote_not_mem e.pushWord.2) e.flagsFree.2.1,
    escape_word isprintable e.errorDomainWord.2, escape_word isprintable e.pushWord.2]
  simp only [Shown.before, shown, List.cons_append, List.append_assoc, List.nil_append]

theorem strOfList_cons (e : Event) (es : List Event) :
    PyRepr.strOfList isprintable (((e :: es).map Event.text).map String.toList) =
      ['[', '\''] ++ (shown isprintable e).before (behind isprintable es) := by
  have hitems : ((((e :: es).map fun e => PyRepr.repr isprintable e.text.toList).intersperse
      [',', ' ']).flatten ++ [']']) = '\'' :: (shown isprintable e).before (behind isprintable es) := by
    induction es generalizing e with
    | nil =>
      simp only [List.map_cons, List.map_nil, List.intersperse_singleton, List.flatten_cons, List.flatten_nil,
        List.append_nil]
      exact repr_text isprintable e [']']
    | cons e' es ih =>
      have ih := ih e'
      simp only [List.map_cons] at ih ⊢
      rw [List.intersperse_cons_cons, List.flatten_cons, List.flatten_cons, List.append_assoc, List.append_assoc, ih,
        repr_text]
      rfl
  simp only [PyRepr.strOfList, List.map_map, Function.comp_def]
  exact congrArg ('[' :: ·) hitems

/-! ## What is found -/

/-- An event whose id is a word. -/
theorem matches_shown {e : Event} (h : IsWord e.docId) : (shown isprintable e).Matches where
  docId := by
    simp only [shown]
    rw [escape_word isprintable h.2]
    exact h
  errorCode := ⟨comma_not_mem_escape isprintable e.errorCodeFree.2.1 e.errorCodeFree.1,
    isDot_of_mem_escape isprintable e.errorCodeFree.2.1⟩
  errorDomain := e.errorDomainWord
  push := e.pushWord
  flags := ⟨quote_not_mem_escape isprintable e.flagsFree.2.1,
    isDot_of_mem_escape isprintable e.flagsFree.2.1⟩

theorem isDot_before {s : Shown} (h : s.Matches) {cs : List Char} (hcs : ∀ c ∈ cs, isDot c = true) :
    ∀ c ∈ s.before cs, isDot c = true := by
  have hlabels : ∀ l ∈ [docIdLabel, codeLabel, domainLabel, pushLabel, flagsLabel], ∀ c ∈ l, isDot c = true := by
    decide
  simp only [List.forall_mem_cons] at hlabels
  obtain ⟨h1, h2, h3, h4, h5, -⟩ := hlabels
  simp only [Shown.before, List.forall_mem_append, List.forall_mem_cons]
  exact ⟨h1, fun c hc => isDot_of_isWord (h.docId.2 c hc), h2, h.errorCode.2, h3,
    fun c hc => isDot_of_isWord (h.errorDomain.2 c hc), h4, fun c hc => isDot_of_isWord (h.push.2 c hc), h5,
    h.flags.2, by decide, hcs⟩

theorem isDot_behind {es : List Event} (h : ∀ e ∈ es, IsWord e.docId) :
    ∀ c ∈ behind isprintable es, isDot c = true := by
  induction es with
  | nil => exact show ∀ c ∈ [']'], isDot c = true by decide
  | cons e es ih =>
    have hrest := isDot_before (matches_shown isprintable (h e List.mem_cons_self))
      (ih fun e' he' => h e' (List.mem_cons_of_mem _ he'))
    rw [behind, List.forall_mem_append]
    exact ⟨by decide, hrest⟩

/-- Where the id is a word, the first match is the event itself, up to its quote. -/
theorem search_event {e : Event} (h : IsWord e.docId) {a cs : List Char} (ha : 'd' ∉ a)
    (hdot : ∀ c ∈ a, isDot c = true) (hcs : ∀ c ∈ cs, isDot c = true) :
    search pattern (a ++ (shown isprintable e).before cs) = some ((shown isprintable e).groups, cs) := by
  have hmatches := matches_shown isprintable h
  have hall : ∀ c ∈ a ++ (shown isprintable e).before cs, isDot c = true :=
    List.forall_mem_append.mpr ⟨hdot, isDot_before hmatches hcs⟩
  rw [pattern, Regex.search_lazy hall, find_skip ha]
  exact Regex.find_here (hmatches.core cs)

theorem search_end {cs : List Char} (h : 'd' ∉ cs) (hdot : ∀ c ∈ cs, isDot c = true) : search pattern cs = none := by
  rw [pattern, Regex.search_lazy hdot, find_end h]

theorem findall_behind {es : List Event} (h : ∀ e ∈ es, IsWord e.docId) {fuel : Nat} (hfuel : es.length < fuel) :
    findallFrom pattern fuel (behind isprintable es) = es.map fun e => (shown isprintable e).groups := by
  induction es generalizing fuel with
  | nil =>
    obtain ⟨fuel, rfl⟩ := Nat.exists_eq_succ_of_ne_zero (Nat.ne_of_gt hfuel)
    rw [behind, findallFrom, search_end (by decide) (by decide)]
    rfl
  | cons e es ih =>
    obtain ⟨fuel, rfl⟩ := Nat.exists_eq_succ_of_ne_zero (Nat.ne_of_gt (Nat.zero_lt_of_lt hfuel))
    have hes : ∀ e' ∈ es, IsWord e'.docId := fun e' he' => h e' (List.mem_cons_of_mem _ he')
    rw [behind, findallFrom, search_event isprintable (h e List.mem_cons_self) (by decide) (by decide)
      (isDot_behind isprintable hes)]
    simp only [List.map_cons]
    rw [ih hes (Nat.lt_of_succ_lt_succ hfuel)]

theorem length_le_behind (es : List Event) : es.length < (behind isprintable es).length := by
  induction es with
  | nil => exact Nat.one_pos
  | cons e es ih =>
    have hbefore : (behind isprintable es).length ≤ ((shown isprintable e).before (behind isprintable es)).length := by
      simp only [Shown.before, List.length_append, List.length_cons]
      omega
    simp only [behind, List.length_append, List.length_cons]
    omega

/-- The matches are the events, if all ids are words. -/
theorem findall_events {events : List Event} (h : ∀ e ∈ events, IsWord e.docId) :
    findall pattern (PyRepr.strOfList isprintable ((events.map Event.text).map String.toList)) =
      events.map fun e => (shown isprintable e).groups := by
  cases events with
  | nil => rfl
  | cons e es =>
    have hes : ∀ e' ∈ es, IsWord e'.docId := fun e' he' => h e' (List.mem_cons_of_mem _ he')
    have hlength := length_le_behind isprintable es
    have hlt : es.length < (['[', '\''] ++ (shown isprintable e).before (behind isprintable es)).length := by
      simp only [Shown.before, List.length_append, List.length_cons]
      omega
    rw [strOfList_cons, findall, findallFrom, search_event isprintable (h e List.mem_cons_self) (by decide)
      (by decide) (isDot_behind isprintable hes)]
    simp only [List.map_cons]
    rw [findall_behind isprintable hes hlt]

/-! ## What is stored -/

theorem strip_word {s : String} (h : ∀ c ∈ s.toList, isWord c = true) : strip s = s := by
  have hspace : ∀ c ∈ s.toList, PyStr.isspace c = false := by
    intro c hc
    have hno : ∀ n ∈ PyStr.spaces, ¬ (n = 95 ∨ 48 ≤ n ∧ n ≤ 57 ∨ 65 ≤ n ∧ n ≤ 90 ∨ 97 ≤ n ∧ n ≤ 122) := by decide
    rw [PyStr.isspace, decide_eq_false_iff_not]
    intro hmem
    refine hno _ hmem ?_
    rcases bounds_of_isWord (h c hc) with rfl | hb
    · exact .inl rfl
    · exact .inr hb
  rw [strip, PyStr.strip_eq_self hspace, String.ofList_toList]

/-- No key is anything but a word. -/
theorem isWord_of_mem_keys {events : List Event} {docId : String}
    (h : docId ∈ (getEventChanges isprintable (events.map Event.text)).keys) : IsWord docId := by
  have hfold : ∀ (matched : List (List (List Char))) (eventDict : PyDict String Change),
      (∀ groups ∈ matched, ∃ w rest, groups = w :: rest ∧ w ≠ [] ∧ ∀ c ∈ w, isWord c = true) →
      (∀ k ∈ eventDict.keys, IsWord k) → ∀ k ∈ (matched.foldl storeEvent eventDict).keys, IsWord k := by
    intro matched
    induction matched with
    | nil => exact fun eventDict _ hkeys => hkeys
    | cons groups matched ih =>
      intro eventDict hwords hkeys
      refine ih _ (fun g hg => hwords g (List.mem_cons_of_mem _ hg)) fun k hk => ?_
      obtain ⟨w, rest, rfl, hne, hw⟩ := hwords groups List.mem_cons_self
      unfold storeEvent at hk
      split at hk
      · rename_i w' c m p f heq
        obtain ⟨rfl, -⟩ := List.cons.inj heq
        have hword : IsWord (String.ofList w) := by
          rw [IsWord, String.toList_ofList]
          exact ⟨hne, hw⟩
        rw [strip_word hword.2, PyDict.mem_keys, PyDict.get?_set] at hk
        split at hk
        · rename_i heq
          exact heq ▸ hword
        · exact hkeys k ((PyDict.mem_keys eventDict k).mpr hk)
      · exact hkeys k hk
  exact hfold _ _ (word_of_findall _) (fun k hk => absurd hk List.not_mem_nil) docId h

/-- What is stored for an event. -/
def storedChange (e : Event) : Change :=
  changeOf (String.ofList (shown isprintable e).errorCode) e.errorDomain e.push
    (String.ofList (shown isprintable e).flags)

theorem getEventChanges_eq {events : List Event} (h : ∀ e ∈ events, IsWord e.docId) :
    getEventChanges isprintable (events.map Event.text) =
      PyDict.ofList (events.map fun e => (e.docId, storedChange isprintable e)) := by
  have hfold : ∀ (eventDict : PyDict String Change),
      (events.map fun e => (shown isprintable e).groups).foldl storeEvent eventDict =
        (events.map fun e => (e.docId, storedChange isprintable e)).foldl (fun d kv => d.set kv.1 kv.2) eventDict := by
    induction events with
    | nil => exact fun eventDict => rfl
    | cons e es ih =>
      intro eventDict
      have hword := (h e List.mem_cons_self).2
      have hstore : storeEvent eventDict (shown isprintable e).groups =
          eventDict.set e.docId (storedChange isprintable e) := by
        have hid : PyRepr.escape isprintable '\'' e.docId.toList = e.docId.toList := escape_word isprintable hword
        simp only [storeEvent, Shown.groups, hid, String.ofList_toList, strip_word hword, storedChange, shown]
      rw [List.map_cons, List.map_cons, List.foldl_cons, List.foldl_cons, hstore]
      exact ih (fun e' he' => h e' (List.mem_cons_of_mem _ he')) _
  rw [getEventChanges, findall_events isprintable h, hfold]
  rfl

/-- Cutting off spaces leaves the backslashes. -/
theorem count_strip (cs : List Char) : (PyStr.strip cs).count '\\' = cs.count '\\' := by
  have hdrop : ∀ l : List Char, (l.dropWhile PyStr.isspace).count '\\' = l.count '\\' := by
    intro l
    induction l with
    | nil => rfl
    | cons c l ih =>
      rw [List.dropWhile_cons]
      split
      · rename_i hc
        have hne : c ≠ '\\' := by
          rintro rfl
          exact absurd hc (by decide)
        rw [ih, List.count_cons_of_ne hne]
      · rfl
  rw [PyStr.strip, List.count_reverse, hdrop, List.count_reverse, hdrop]

/-- A string that shows with an escape has more backslashes then. -/
theorem prints_of_count {s : String} (hfree : IsFree s)
    (h : (PyRepr.escape isprintable '\'' s.toList).count '\\' = s.toList.count '\\') : Prints isprintable s :=
  (PyRepr.count_escape isprintable hfree.2.1).2.resolve_right fun hlt => Nat.ne_of_gt hlt h

/-- A text is stored in the error code as it stands in an event only if it is printed so and
nothing is stripped from it. -/
theorem errorField_eq_iff {s : String} (hfree : IsFree s) :
    errorField (strip (String.ofList (PyRepr.escape isprintable '\'' s.toList))) =
        (if s = "0" ∨ s = "nil" then none else some s) ↔
      Prints isprintable s ∧ PyStr.Trimmed s.toList := by
  have hbare : ∀ t : String, t = "0" ∨ t = "nil" → t.toList.count '\\' = 0 ∧ PyStr.Trimmed t.toList := by
    rintro t (rfl | rfl) <;> exact ⟨by decide, by decide⟩
  constructor
  · intro h
    rw [strip, String.toList_ofList] at h
    have hcount := count_strip (PyRepr.escape isprintable '\'' s.toList)
    by_cases hs : s = "0" ∨ s = "nil"
    · obtain ⟨hno, htrim⟩ := hbare s hs
      rw [if_pos hs, errorField] at h
      split at h
      · rename_i hstored
        rw [← String.toList_ofList (l := PyStr.strip _), (hbare _ hstored).1] at hcount
        exact ⟨prints_of_count isprintable hfree (hcount.symm.trans hno.symm), htrim⟩
      · cases h
    · rw [if_neg hs, errorField] at h
      split at h
      · cases h
      · have hstored : PyStr.strip (PyRepr.escape isprintable '\'' s.toList) = s.toList := by
          rw [← String.toList_ofList (l := PyStr.strip _), Option.some.inj h]
        rw [hstored] at hcount
        have hprints := prints_of_count isprintable hfree hcount.symm
        rw [PyRepr.escape_plain hfree.2.1 hprints] at hstored
        exact ⟨hprints, PyStr.strip_eq_self_iff.mp hstored⟩
  · rintro ⟨hprints, htrim⟩
    rw [PyRepr.escape_plain hfree.2.1 hprints, strip, String.toList_ofList, htrim.strip, String.ofList_toList]
    rfl

/-- Flags are stored as they stand in an event only if they are printed so and are not `[]`. -/
theorem flags_eq_iff {s : String} (hfree : IsFree s) :
    (if String.ofList (PyRepr.escape isprintable '\'' s.toList) ≠ "[]" then
        some (String.ofList (PyRepr.escape isprintable '\'' s.toList)) else none) = some s ↔
      Prints isprintable s ∧ s ≠ "[]" := by
  constructor
  · intro h
    split at h
    · rename_i hne
      have hstored := Option.some.inj h
      have hcount : (PyRepr.escape isprintable '\'' s.toList).count '\\' = s.toList.count '\\' := by
        rw [← String.toList_ofList (l := PyRepr.escape _ _ _), hstored]
      exact ⟨prints_of_count isprintable hfree hcount, hstored ▸ hne⟩
    · cases h
  · rintro ⟨hprints, hne⟩
    rw [PyRepr.escape_plain hfree.2.1 hprints, String.ofList_toList, if_pos hne]

theorem push_eq_iff (e : Event) :
    (PyStr.contains e.push "true" || PyStr.contains e.push "True") = decide e.IsPush ↔
      (PyStr.contains e.push "true" = true ∨ PyStr.contains e.push "True" = true → e.IsPush) := by
  have hback : e.IsPush → (PyStr.contains e.push "true" || PyStr.contains e.push "True") = true := by
    rintro (h | h) <;> rw [h] <;> decide
  rw [← Bool.or_eq_true, Bool.eq_iff_iff, decide_eq_true_iff]
  exact ⟨fun h => h.mp, fun h => ⟨h, hback⟩⟩

/-- What is stored of an event whose id is a word. -/
theorem storedChange_eq_iff {e : Event} (h : IsWord e.docId) :
    storedChange isprintable e = e.change ↔ Verbatim isprintable e := by
  have hdomain : errorField (strip e.errorDomain) =
      if e.errorDomain = "0" ∨ e.errorDomain = "nil" then none else some e.errorDomain := by
    rw [strip_word e.errorDomainWord.2, errorField]
  rw [Verbatim, ← errorField_eq_iff isprintable e.errorCodeFree, ← push_eq_iff, ← flags_eq_iff isprintable e.flagsFree,
    storedChange, changeOf, Event.change, Change.mk.injEq, hdomain]
  simp only [shown, h, true_and]
  exact ⟨fun ⟨hpush, hcode, hflags⟩ => ⟨hcode, hpush, hflags⟩,
    fun ⟨hcode, hpush, hflags⟩ => ⟨hpush, hcode, hflags⟩⟩

/-- Every event is kept with its own fields, exactly if the call takes nothing from them. -/
theorem kept_iff {events : List Event} (hd : (events.map Event.docId).Nodup) :
    Kept events (getEventChanges isprintable (events.map Event.text)) ↔
      ∀ e ∈ events, Verbatim isprintable e := by
  have hkeys : ((events.map fun e => (e.docId, storedChange isprintable e)).map Prod.fst).Nodup := by
    rwa [List.map_map]
  constructor
  · intro h
    have hwords : ∀ e ∈ events, IsWord e.docId := fun e he =>
      isWord_of_mem_keys isprintable ((h.keys e.docId).mpr (List.mem_map_of_mem he))
    intro e he
    refine (storedChange_eq_iff isprintable (hwords e he)).mp ?_
    have hget := h.fields e he
    rw [getEventChanges_eq isprintable hwords, PyDict.get?_ofList hkeys] at hget
    obtain ⟨e', he', heq⟩ := List.mem_map.mp hget
    obtain ⟨hid, hchange⟩ := Prod.mk.inj heq
    obtain rfl : e' = e := List.inj_on_of_nodup_map hd he' he hid
    exact hchange
  · intro h
    rw [getEventChanges_eq isprintable fun e he => (h e he).1]
    refine ⟨fun docId => ?_, fun e he => ?_⟩
    · rw [PyDict.keys, PyDict.items_ofList _ hkeys, List.map_map]
      exact Iff.rfl
    · rw [PyDict.get?_ofList hkeys, ← (storedChange_eq_iff isprintable (h e he).1).mpr (h e he)]
      exact List.mem_map.mpr ⟨e, he, rfl⟩

end

/-- Python's printable characters up to U+00FF, but for the soft hyphen. -/
def latinPrintable (c : Char) : Bool := decide (0xa1 ≤ c.toNat ∧ c.toNat ≤ 0xff ∧ c.toNat ≠ 0xad)

def conflict : Event :=
  ⟨"doc_1", "10409", "CouchbaseLite", "true", "[Deleted]", by decide, by decide, by decide, by decide, by decide⟩

def received : Event :=
  ⟨"doc_2", "0", "nil", "False", "[AccessRemoved]", by decide, by decide, by decide, by decide, by decide⟩

theorem kept_two : Kept [conflict, received] (getEventChanges latinPrintable ([conflict, received].map Event.text)) :=
  (kept_iff latinPrintable (by decide)).mpr (by decide)

/-- An event of a document with a hyphen in its id. -/
def hyphen : Event :=
  ⟨"doc-1", "0", "0", "true", "[Deleted]", by decide, by decide, by decide, by decide, by decide⟩

/-- The event is lost. -/
theorem hyphen_lost : (getEventChanges latinPrintable [hyphen.text]).items = [] ∧
    ¬ Kept [hyphen] (getEventChanges latinPrintable [hyphen.text]) := by
  have hitems : (getEventChanges latinPrintable [hyphen.text]).items = [] := by decide
  refine ⟨hitems, fun h => ?_⟩
  have hkey := (h.keys "doc-1").mpr List.mem_cons_self
  rw [PyDict.keys, hitems] at hkey
  cases hkey

end MobileTestkit.L4.EventChanges
