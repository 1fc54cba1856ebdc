import MobileTestkit.Core.JsonPieces
import MobileTestkit.Core.PyLines

/-!
# Answers of bulk gets

Model of `parse_multipart_response` (keywords/MobileRestClient.py) and of the parser in
`User.get_docs` (libraries/testkit/user.py), over a multipart text of JSON documents. The
first cuts the text at `--` and takes the last line of what it gets, the second takes the
lines that begin with a brace. Both see the lines of `str.splitlines`, which ends a line at
more characters than JSON keeps out of its strings.

* `lossless_iff`: both return the documents exactly if no document has `--` or such a
  character in its text.
* `rows_torn`: a document that has is not among the rows, whatever else is.
-/
namespace MobileTestkit.L4.BulkGet

open MobileTestkit.Core
open MobileTestkit.Core.JsonDoc
open MobileTestkit.Core.PyStr

inductive Exn where
  | jsonDecodeError
  deriving DecidableEq, Repr

/-! ## The two parsers -/

/-- The row of a part, which needs more than two lines; what does not parse is logged.
mirrors keywords/MobileRestClient.py:49-64 -/
def rowOf (part : List Char) : Option Doc :=
  let partLines := splitlines part
  if partLines.length > 2 then partLines.getLast?.bind (loads docBuilder) else none

/-- mirrors keywords/MobileRestClient.py:34-66 -/
def parseMultipartResponse (response : List Char) : List Doc := (splitPair '-' '-' response).filterMap rowOf

def loadLine (line : List Char) : Except Exn Doc :=
  match loads docBuilder line with
  | some doc => .ok doc
  | none => .error .jsonDecodeError

/-- mirrors libraries/testkit/user.py:60-66 -/
def getDocs (text : List Char) : Except Exn (List Doc) :=
  ((splitlines text).filter (['\x7b'].isPrefixOf ·)).mapM loadLine

/-! ## The multipart format -/

/-- A JSON document serialised on one line. -/
structure DocLine where
  text : List Char
  doc : Doc
  loads_text : loads docBuilder text = some doc
  brace : text.head? = some '\x7b'
  oneLine : '\n' ∉ text ∧ '\r' ∉ text

structure Boundary where
  text : List Char
  noDashes : ¬ ['-', '-'] <:+: text
  noBreak : ∀ c ∈ text, lineBreak c = false

inductive Eol where
  | lf | crlf
  deriving DecidableEq, Repr

def Eol.text : Eol → List Char
  | .lf => ['\n']
  | .crlf => ['\r', '\n']

def contentType : List Char := "Content-Type: application/json".toList

section Multipart
variable (eol : Eol) (boundary : Boundary)

/-- What stands before a document. -/
def header : List Char := boundary.text ++ eol.text ++ contentType ++ eol.text ++ eol.text

/-- A part, without the dashes before its boundary. -/
def part (d : DocLine) : List Char := header eol boundary ++ (d.text ++ eol.text)

/-- The format in the docstring of `parse_multipart_response`. -/
def multipart (docs : List DocLine) : List Char :=
  (docs.flatMap fun d => '-' :: '-' :: part eol boundary d) ++ ('-' :: '-' :: boundary.text ++ ['-', '-'])

end Multipart

/-! ## Where a text can be torn -/

/-- A text at which one of the parsers cuts, within a line. -/
def Cutter (w : List Char) : Prop :=
  w = ['-', '-'] ∨ ∃ c, lineBreak c = true ∧ c ≠ '\n' ∧ c ≠ '\r' ∧ w = [c]

/-- A text that is not cut. -/
def Whole (s : List Char) : Prop := ∀ w, Cutter w → ¬ w <:+: s

/-- A line break other than JSON's is no part of a token. -/
theorem lineBreak_spec {c : Char} (h : lineBreak c = true) (hn : c ≠ '\n') (hr : c ≠ '\r') :
    inAtom c = true ∧ unescaped c = true ∧ numeric c = false ∧
      ∀ w ∈ ["true", "false", "null", "NaN", "Infinity", "-Infinity"], c ∉ w.toList := by
  have hall : ∀ n ∈ lineBreaks, Char.ofNat n ≠ '\n' → Char.ofNat n ≠ '\r' →
      inAtom (Char.ofNat n) = true ∧ unescaped (Char.ofNat n) = true ∧ numeric (Char.ofNat n) = false ∧
        ∀ w ∈ ["true", "false", "null", "NaN", "Infinity", "-Infinity"], Char.ofNat n ∉ w.toList := by
    decide
  have hc := hall c.toNat (of_decide_eq_true h)
  rw [Char.ofNat_toNat] at hc
  exact hc hn hr

theorem foreign_of_cutter {w : List Char} (h : Cutter w) : Foreign w := by
  rcases h with rfl | ⟨c, hc, hn, hr, rfl⟩
  · exact ⟨⟨by decide, List.all_eq_true.mp (by decide), fun a ha => isAtom_no_dashes ha⟩,
      List.all_eq_true.mp (by decide)⟩
  · obtain ⟨hatom, hesc, hnum, hword⟩ := lineBreak_spec hc hn hr
    refine ⟨⟨by simp, by simpa using hatom, fun a ha hin => ?_⟩, by simpa using hesc⟩
    have hmem : c ∈ a := hin.subset (List.mem_singleton_self c)
    rw [isAtom, Bool.or_eq_true, decide_eq_true_eq] at ha
    rcases ha with ha | ha
    · exact Bool.false_ne_true (hnum.symm.trans (numeric_isNumber ha c hmem))
    · have hcs := hword _ ha
      rw [String.toList_ofList] at hcs
      exact hcs hmem

/-! ## The rows of a document -/

/-- The rows in the part of a document. -/
def rowsOf (eol : Eol) (boundary : Boundary) (d : DocLine) : List Doc :=
  (splitPair '-' '-' (part eol boundary d)).filterMap rowOf

section Rows
variable {eol : Eol} {boundary : Boundary}

theorem eol_noDashes (eol : Eol) : '-' ∉ eol.text := by cases eol <;> decide

/-- What stands between the boundary and a document. -/
def between (eol : Eol) : List Char := eol.text ++ contentType ++ eol.text ++ eol.text

theorem header_eq (eol : Eol) (boundary : Boundary) : header eol boundary = boundary.text ++ between eol := by
  simp [header, between]

theorem header_spec (eol : Eol) (boundary : Boundary) :
    ¬ ['-', '-'] <:+: header eol boundary ∧ (header eol boundary).getLast? ≠ some '-' := by
  have hbetween : ¬ ['-', '-'] <:+: between eol ∧ (between eol).head? ≠ some '-' ∧
      (between eol).getLast? = some '\n' := by cases eol <;> decide
  obtain ⟨hno, hhead, hlast⟩ := hbetween
  rw [header_eq]
  constructor
  · intro hin
    rcases pair_infix_append hin with h | h | ⟨-, h⟩
    · exact boundary.noDashes h
    · exact hno h
    · exact hhead h
  · rw [List.getLast?_append, hlast, Option.some_or]
    decide

theorem splitlines_eol (eol : Eol) (s : List Char) : splitlines (eol.text ++ s) = [] :: splitlines s := by
  cases eol with
  | lf => exact splitlines_break (by decide) fun h => absurd h (by decide)
  | crlf => rfl

/-- The lines in front of a document. -/
theorem splitlines_between {l : List Char} (hl : ∀ c ∈ l, lineBreak c = false) (eol : Eol) (s : List Char) :
    splitlines (l ++ (between eol ++ s)) = l :: contentType :: [] :: splitlines s := by
  have htype : ∀ c ∈ contentType, lineBreak c = false := noBreak_of_any (by decide)
  have hrest : splitlines (contentType ++ (eol.text ++ (eol.text ++ s))) =
      contentType :: [] :: splitlines s := by
    rw [splitlines_append htype (splitlines_eol eol _), splitlines_eol]
  rw [between]
  simp only [List.append_assoc]
  rw [splitlines_append hl (splitlines_eol eol _), hrest]

theorem splitlines_header (eol : Eol) (boundary : Boundary) (s : List Char) :
    splitlines (header eol boundary ++ s) = boundary.text :: contentType :: [] :: splitlines s := by
  rw [header_eq, List.append_assoc, splitlines_between boundary.noBreak]

/-- In a text of one line there are no rows. -/
theorem parse_line {s : List Char} (hs : ∀ c ∈ s, lineBreak c = false) : parseMultipartResponse s = [] := by
  rw [parseMultipartResponse, List.filterMap_eq_nil_iff]
  intro p hp
  obtain ⟨-, x, y, hpos, -, -⟩ := (splitPair_fields s).mem hp
  have hbreak : ∀ c ∈ p, lineBreak c = false := fun c hc => hs c (by simp [hpos, hc])
  simp only [rowOf, splitlines_of_no_break hbreak]
  split <;> simp

theorem parse_append {s : List Char} (hs : s.getLast? ≠ some '-') (rest : List Char) :
    parseMultipartResponse (s ++ '-' :: '-' :: rest) =
      parseMultipartResponse s ++ parseMultipartResponse rest := by
  rw [parseMultipartResponse, splitPair_append hs, List.filterMap_append]
  rfl

theorem parse_multipart (eol : Eol) (boundary : Boundary) (docs : List DocLine) :
    parseMultipartResponse (multipart eol boundary docs) = docs.flatMap (rowsOf eol boundary) := by
  -- every part begins with dashes
  have hdashes : ∀ docs, ∃ rest, multipart eol boundary docs = '-' :: '-' :: rest := by
    intro docs
    cases docs <;> exact ⟨_, rfl⟩
  have hnil : parseMultipartResponse [] = [] := rfl
  induction docs with
  | nil =>
    refine parse_line fun c hc => ?_
    simp only [multipart, List.flatMap_nil, List.nil_append, List.mem_append, List.mem_cons, List.not_mem_nil,
      or_false] at hc
    rcases hc with (rfl | rfl | hc) | rfl | rfl
    all_goals first | exact boundary.noBreak c hc | decide
  | cons d docs ih =>
    obtain ⟨rest, hrest⟩ := hdashes docs
    have hd : multipart eol boundary (d :: docs) =
        [] ++ '-' :: '-' :: (part eol boundary d ++ '-' :: '-' :: rest) := by
      rw [← hrest]
      simp [multipart]
    have hpart : (part eol boundary d).getLast? ≠ some '-' := by
      have heol : eol.text.getLast? = some '\n' := by cases eol <;> rfl
      rw [part, List.getLast?_append, List.getLast?_append, heol, Option.some_or, Option.some_or]
      decide
    rw [hrest, ← List.nil_append ('-' :: '-' :: rest), parse_append (by simp), hnil, List.nil_append] at ih
    rw [hd, parse_append (by simp), hnil, List.nil_append, parse_append hpart, ih, List.flatMap_cons]
    rfl

theorem cutter_break {d : DocLine} {c : Char} (hc : c ∈ d.text) (hbreak : lineBreak c = true) : Cutter [c] :=
  .inr ⟨c, hbreak, fun h => d.oneLine.1 (h ▸ hc), fun h => d.oneLine.2 (h ▸ hc), rfl⟩

theorem noBreak_of_whole {d : DocLine} (hd : Whole d.text) : ∀ c ∈ d.text, lineBreak c = false := by
  intro c hc
  by_contra hbreak
  rw [Bool.not_eq_false] at hbreak
  obtain ⟨s, t, hst⟩ := List.append_of_mem hc
  exact hd [c] (cutter_break hc hbreak) ⟨s, t, by simp [hst]⟩

/-- A document that is not torn is its own row. -/
theorem rows_whole {d : DocLine} (hd : Whole d.text) : rowsOf eol boundary d = [d.doc] := by
  have hsplit : splitPair '-' '-' (part eol boundary d) = [part eol boundary d] := by
    obtain ⟨hheader, hlast⟩ := header_spec eol boundary
    refine splitPair_of_free fun hin => ?_
    rcases pair_infix_append hin with h | h | ⟨h, -⟩
    · exact hheader h
    · rcases pair_infix_append h with h | h | ⟨-, h⟩
      · exact hd _ (.inl rfl) h
      · exact eol_noDashes eol (h.subset List.mem_cons_self)
      · exact eol_noDashes eol (List.mem_of_mem_head? h)
    · exact hlast h
  have hlines : splitlines (part eol boundary d) = [boundary.text, contentType, [], d.text] := by
    have heol := splitlines_append (noBreak_of_whole hd) (splitlines_eol eol [])
    rw [List.append_nil] at heol
    rw [part, splitlines_header, heol]
    rfl
  rw [rowsOf, hsplit]
  simp [rowOf, hlines, d.loads_text]

theorem lineBreak_eol (eol : Eol) : ∀ c ∈ eol.text, lineBreak c = true :=
  List.all_eq_true.mp (by cases eol <;> decide)

/-- What has no line break ends before the last one. -/
theorem before_eol {t x q z : List Char} (hne : q ≠ []) (hq : ∀ c ∈ q, lineBreak c = false)
    (h : t ++ eol.text = (x ++ q) ++ z) : ∃ y, z = y ++ eol.text ∧ t = x ++ (q ++ y) := by
  rcases List.append_eq_append_iff.mp h with ⟨as, hxq, heol⟩ | ⟨bs, ht, hz⟩
  · cases as using List.reverseRec with
    | nil => exact ⟨[], by simpa using heol.symm, by simpa using hxq.symm⟩
    | append_singleton as c =>
      have hlast : q.getLast? = some c := by
        have h := congrArg List.getLast? hxq
        rw [List.getLast?_append_of_ne_nil _ hne, ← List.append_assoc, List.getLast?_concat] at h
        exact h
      have hc : lineBreak c = true := lineBreak_eol eol c (by simp [heol])
      exact absurd ((hq c (List.mem_of_getLast? hlast)).symm.trans hc) Bool.false_ne_true
  · exact ⟨bs, hz, by rw [ht, List.append_assoc]⟩

theorem cutBefore_of {d : DocLine} {x x' z : List Char} (htext : d.text = (x ++ x') ++ z)
    (hx : x = [] ∨ ∃ v w, w = ['-', '-'] ∧ x = v ++ w) (hx' : x' = [] ∨ ∃ v w, LineSep w ∧ x' = v ++ w) :
    CutBefore (x ++ x') := by
  rcases hx' with rfl | ⟨v, w, ⟨hne, hw⟩, rfl⟩
  · rw [List.append_nil]
    exact hx.imp_right fun ⟨v, w, hw, hv⟩ => ⟨v, w, foreign_of_cutter (.inl hw), hv⟩
  · cases w using List.reverseRec with
    | nil => exact absurd rfl hne
    | append_singleton w c =>
      have hcut : Cutter [c] := cutter_break (d := d) (by simp [htext]) (hw c (by simp))
      exact .inr ⟨x ++ (v ++ w), [c], foreign_of_cutter hcut, by simp⟩

theorem cutAfter_of {d : DocLine} {y y' u z : List Char} (htext : d.text = z ++ u)
    (hu : y' ++ y = u ++ eol.text) (hy : y = [] ∨ ∃ w v, w = ['-', '-'] ∧ y = w ++ v)
    (hy' : y' = [] ∨ ∃ w v, LineSep w ∧ y' = w ++ v) :
    CutAfter u := by
  cases u with
  | nil => exact .inl rfl
  | cons c u =>
    right
    rcases hy' with rfl | ⟨w, v, ⟨hne, hw⟩, rfl⟩
    · rcases hy with rfl | ⟨w, v, rfl, rfl⟩
      · cases hu
      · simp only [List.nil_append, List.cons_append, List.cons.injEq] at hu
        obtain ⟨rfl, hu⟩ := hu
        cases u with
        | nil =>
          refine absurd ?_ (eol_noDashes eol)
          rw [← List.nil_append eol.text, ← hu]
          exact List.mem_cons_self
        | cons e u =>
          obtain ⟨rfl, -⟩ := List.cons.inj hu
          exact ⟨['-', '-'], u, foreign_of_cutter (.inl rfl), rfl⟩
    · obtain ⟨e, w, rfl⟩ := List.exists_cons_of_ne_nil hne
      obtain ⟨rfl, -⟩ := List.cons.inj hu
      have hcut : Cutter [e] := cutter_break (d := d) (by simp [htext]) (hw e List.mem_cons_self)
      exact ⟨[e], u, foreign_of_cutter hcut, rfl⟩

/-- A row of a document is a piece of its text. -/
theorem row_piece {d : DocLine} {r : Doc} (hr : r ∈ rowsOf eol boundary d) :
    ∃ x q y, d.text = x ++ (q ++ y) ∧ CutBefore x ∧ CutAfter y ∧ Whole q ∧ loads docBuilder q = some r := by
  obtain ⟨p, hp, hrow⟩ := List.mem_filterMap.mp hr
  -- the last line of the part is one of what the document gives to the part
  have hq : ∃ p' ∈ splitPair '-' '-' (d.text ++ eol.text), ∃ q ∈ splitlines p', q ≠ [] ∧
      loads docBuilder q = some r := by
    simp only [rowOf] at hrow
    split at hrow
    · obtain ⟨q, hlast, hload⟩ := Option.bind_eq_some_iff.mp hrow
      have hne : q ≠ [] := by
        rintro rfl
        cases hload
      obtain ⟨f, fs, hsplit⟩ := List.exists_cons_of_ne_nil (splitPair_ne_nil '-' '-' (d.text ++ eol.text))
      obtain ⟨hheader, hdash⟩ := header_spec eol boundary
      rw [part, splitPair_prepend hheader hdash hsplit] at hp
      rw [hsplit]
      rcases List.mem_cons.mp hp with rfl | hp
      · refine ⟨f, List.mem_cons_self, q, ?_, hne, hload⟩
        rw [splitlines_header] at hlast
        cases hlines : splitlines f with
        | nil =>
          rw [hlines] at hlast
          exact absurd (Option.some.inj hlast).symm hne
        | cons l ls =>
          rw [hlines] at hlast
          simp only [List.getLast?_cons_cons] at hlast
          exact List.mem_of_getLast? hlast
      · exact ⟨p, List.mem_cons_of_mem _ hp, q, List.mem_of_getLast? hlast, hne, hload⟩
    · cases hrow
  obtain ⟨p', hp', q, hq, hne, hload⟩ := hq
  obtain ⟨hdashes, x, y, hpos, hx, hy⟩ := (splitPair_fields _).mem hp'
  obtain ⟨hbreaks, x', y', hpos', hx', hy'⟩ : (∀ w, LineSep w → ¬ w <:+: q) ∧ ∃ x' y', p' = x' ++ (q ++ y') ∧
      (x' = [] ∨ ∃ z w, LineSep w ∧ x' = z ++ w) ∧ (y' = [] ∨ ∃ w z, LineSep w ∧ y' = w ++ z) := by
    rcases splitlines_fields p' with hfields | hfields
    · exact hfields.mem hq
    · exact hfields.mem (List.mem_append_left _ hq)
  have hbreak : ∀ c ∈ q, lineBreak c = false := by
    intro c hc
    by_contra h
    obtain ⟨s, t, hst⟩ := List.append_of_mem hc
    exact hbreaks [c] ⟨by simp, by simpa using h⟩ ⟨s, t, by simp [hst]⟩
  have hwhole : Whole q := by
    rintro w (rfl | ⟨c, hc, -, -, rfl⟩) hin
    · exact hdashes _ rfl (hin.trans (by rw [hpos']; exact List.infix_append' x' q y'))
    · exact hbreaks [c] ⟨by simp, by simpa using hc⟩ hin
  obtain ⟨u, hu, htext⟩ := before_eol (x := x ++ x') (z := y' ++ y) hne hbreak (by rw [hpos, hpos']; simp)
  refine ⟨x ++ x', q, u, htext, cutBefore_of htext hx hx', ?_, hwhole, hload⟩
  exact cutAfter_of (z := x ++ x' ++ q) (by rw [htext]; simp) hu hy hy'

/-- No row of a document that is torn has a string at which it could be torn, but the
document itself has. -/
theorem rows_torn {d : DocLine} (hd : ¬ Whole d.text) :
    d.doc.Has (¬ Whole ·) ∧ ∀ r ∈ rowsOf eol boundary d, ¬ r.Has (¬ Whole ·) := by
  constructor
  · simp only [Whole, not_forall, not_not] at hd
    obtain ⟨w, hw, x, z, htext⟩ := hd
    have hload := d.loads_text
    rw [← htext, List.append_assoc] at hload
    exact (has_of_foreign (foreign_of_cutter hw) hload).mono fun s hs hwhole => hwhole w hw hs
  · intro r hr hhas
    obtain ⟨x, q, y, htext, hx, hy, hwhole, hload⟩ := row_piece hr
    have hcut : x ≠ [] ∨ y ≠ [] := by
      by_contra hcut
      rw [not_or, not_not, not_not] at hcut
      obtain ⟨rfl, rfl⟩ := hcut
      rw [List.nil_append, List.append_nil] at htext
      exact hd (htext ▸ hwhole)
    obtain ⟨s, hs, htorn⟩ := has_piece (htext ▸ d.loads_text) hx hy hcut hload hhas
    exact htorn fun w hw hin => hwhole w hw (hin.trans hs)

end Rows

/-! ## Nothing is lost -/

/-- The documents whose text is torn are missing from the rows that have their strings. -/
theorem countP_rows (eol : Eol) (boundary : Boundary) (torn : Doc → Bool)
    (htorn : ∀ d, torn d = true ↔ d.Has (¬ Whole ·)) (whole : DocLine → Bool)
    (hwhole : ∀ d, whole d = true ↔ Whole d.text) (docs : List DocLine) :
    (docs.map DocLine.doc).countP torn =
      (docs.flatMap (rowsOf eol boundary)).countP torn + docs.countP fun d => !whole d := by
  induction docs with
  | nil => rfl
  | cons d docs ih =>
    rw [List.map_cons, List.countP_cons, List.flatMap_cons, List.countP_append, List.countP_cons, ih]
    by_cases hd : Whole d.text
    · simp only [rows_whole hd, (hwhole d).mpr hd, List.countP_singleton, Bool.not_true, Bool.false_eq_true,
        if_false]
      omega
    · obtain ⟨hdoc, hrows⟩ : d.doc.Has (¬ Whole ·) ∧ ∀ r ∈ rowsOf eol boundary d, ¬ r.Has (¬ Whole ·) :=
        rows_torn hd
      have hnone : (rowsOf eol boundary d).countP torn = 0 :=
        List.countP_eq_zero.mpr fun r hr h => hrows r hr ((htorn r).mp h)
      have hnot : whole d = false := Bool.eq_false_iff.mpr fun h => hd ((hwhole d).mp h)
      simp only [hnone, hnot, (htorn d.doc).mpr hdoc, if_true, Bool.not_false]
      omega

theorem parse_iff (eol : Eol) (boundary : Boundary) (docs : List DocLine) :
    parseMultipartResponse (multipart eol boundary docs) = docs.map DocLine.doc ↔
      ∀ d ∈ docs, Whole d.text := by
  classical
  rw [parse_multipart]
  constructor
  · intro h
    have hcount := countP_rows eol boundary (fun d => decide (d.Has (¬ Whole ·)))
      (fun _ => decide_eq_true_iff) (fun d => decide (Whole d.text)) (fun _ => decide_eq_true_iff) docs
    rw [← h, Nat.left_eq_add, List.countP_eq_zero] at hcount
    simpa using hcount
  · intro h
    induction docs with
    | nil => rfl
    | cons d docs ih =>
      rw [List.flatMap_cons, rows_whole (h d List.mem_cons_self),
        ih fun x hx => h x (List.mem_cons_of_mem d hx)]
      rfl

theorem noBreak_dashes (boundary : Boundary) : ∀ c ∈ '-' :: '-' :: boundary.text, lineBreak c = false := by
  intro c hc
  simp only [List.mem_cons] at hc
  rcases hc with rfl | rfl | hc
  · decide
  · decide
  · exact boundary.noBreak c hc

theorem splitlines_multipart {docs : List DocLine} (h : ∀ d ∈ docs, Whole d.text) (eol : Eol)
    (boundary : Boundary) : splitlines (multipart eol boundary docs) =
      (docs.flatMap fun d => ['-' :: '-' :: boundary.text, contentType, [], d.text]) ++
        ['-' :: '-' :: boundary.text ++ ['-', '-']] := by
  induction docs with
  | nil =>
    have hline : ∀ c ∈ '-' :: '-' :: boundary.text ++ ['-', '-'], lineBreak c = false := by
      intro c hc
      rcases List.mem_append.mp hc with hc | hc
      · exact noBreak_dashes boundary c hc
      · exact noBreak_of_any (by decide) c hc
    exact (splitlines_of_no_break hline).trans rfl
  | cons d docs ih =>
    have hd : multipart eol boundary (d :: docs) = ('-' :: '-' :: boundary.text) ++ (between eol ++
        (d.text ++ (eol.text ++ multipart eol boundary docs))) := by
      simp [multipart, part, header_eq]
    rw [hd, splitlines_between (noBreak_dashes boundary),
      splitlines_append (noBreak_of_whole (h d List.mem_cons_self)) (splitlines_eol eol _),
      ih fun x hx => h x (List.mem_cons_of_mem d hx)]
    rfl

theorem filter_lines (boundary : Boundary) (docs : List DocLine) :
    (((docs.flatMap fun d => ['-' :: '-' :: boundary.text, contentType, [], d.text]) ++
      ['-' :: '-' :: boundary.text ++ ['-', '-']]).filter (['\x7b'].isPrefixOf ·)) =
      docs.map DocLine.text := by
  have htype : ['\x7b'].isPrefixOf contentType = false := by decide
  have hboundary : ∀ s : List Char, ['\x7b'].isPrefixOf ('-' :: s) = false := fun _ => rfl
  have hempty : ['\x7b'].isPrefixOf ([] : List Char) = false := rfl
  induction docs with
  | nil => rfl
  | cons d docs ih =>
    have hbrace : ['\x7b'].isPrefixOf d.text = true := by
      obtain ⟨rest, hrest⟩ := List.head?_eq_some_iff.mp d.brace
      rw [hrest]
      rfl
    rw [List.flatMap_cons, List.append_assoc, List.filter_append, ih]
    simp only [List.filter_cons, hboundary, htype, hempty, hbrace, if_true, Bool.false_eq_true, if_false,
      List.filter_nil, List.cons_append, List.nil_append, List.map_cons]

/-- The lines that begin with a brace are the documents. -/
theorem getDocs_multipart {docs : List DocLine} (h : ∀ d ∈ docs, Whole d.text) (eol : Eol)
    (boundary : Boundary) : getDocs (multipart eol boundary docs) = .ok (docs.map DocLine.doc) := by
  rw [getDocs, splitlines_multipart h, filter_lines]
  clear h
  induction docs with
  | nil => rfl
  | cons d docs ih =>
    have hload : loadLine d.text = .ok d.doc := by rw [loadLine, d.loads_text]
    rw [List.map_cons, List.mapM_cons, hload, ih]
    rfl

/-- The two parsers return the documents exactly if every text is whole. -/
theorem lossless_iff (eol : Eol) (boundary : Boundary) (docs : List DocLine) :
    (parseMultipartResponse (multipart eol boundary docs) = docs.map DocLine.doc ∧
      getDocs (multipart eol boundary docs) = .ok (docs.map DocLine.doc)) ↔ ∀ d ∈ docs, Whole d.text :=
  ⟨fun h => (parse_iff eol boundary docs).mp h.1, fun h => ⟨(parse_iff eol boundary docs).mpr h,
    getDocs_multipart h eol boundary⟩⟩

/-- A document with two dashes in a string. -/
def dashes : DocLine where
  text := "\x7b\"a\": \"x--y\"\x7d".toList
  doc := .obj [("a", .str "x--y")]
  loads_text := by rfl
  brace := by decide
  oneLine := by decide

/-- It is lost to one of the parsers: its part is cut in two, and neither half is a row. -/
theorem dashes_lost :
    let response := multipart .crlf ⟨"5570ab".toList, by decide, noBreak_of_any (by decide)⟩ [dashes]
    parseMultipartResponse response = [] ∧ parseMultipartResponse response ≠ [dashes.doc] ∧
      getDocs response = .ok [dashes.doc] := by
  intro response
  have hrows : parseMultipartResponse response = [] := by rfl
  refine ⟨hrows, ?_, by rfl⟩
  rw [hrows]
  exact (List.cons_ne_nil _ _).symm

end MobileTestkit.L4.BulkGet
