import MobileTestkit.Core.ExceptLoop
import MobileTestkit.L4App.JunitReports

/-!
# Merging rerun results

Model of `custom_rerun_xml_merge` (utilities/xml_parser.py): the test cases of a
report that the previous run did not cover are moved into `results/results.xml`,
below the first child of its root, and the file is written with `writexml` for the
next call to parse.

A results file is what stands before its root element and the child nodes of the
root. A text or a comment cannot have children, so appending to one raises; another
element takes the test case. `appendChild` takes a node out of its old place, so a
suite inside a suite lists no test case that was moved with the outer one. Test
cases are kept as they are by writing and parsing; the white space added below the
root is.

* `movedOf_eq_selected`: every selected test case is moved once.
* `reparse_text_first`: a written file has a text as the first child of its root.
* `step_iff`: a call does what it should exactly when it moves nothing, or is of type
  `fail` and the suite is the first child of a root with nothing before it.
* `consistent_iff`: a sequence of calls keeps the suite and its counts right exactly
  when no call but the first moves anything, and that one only so.
-/
namespace MobileTestkit.L4.RerunMerge

open MobileTestkit.Core
open MobileTestkit.L4.JunitReports

inductive MergeType where
  | fail
  | pass
  deriving DecidableEq, Repr

/-- A child node of the root; `cases` of another element are those appended to it. -/
inductive Node where
  | text (data : String)
  | comment (data : String)
  | element (tagName : String) (cases : List Case)
  | testsuite (ts : Suite)
  deriving DecidableEq, Repr

/-- `results/results.xml`: the comments and such before the root, and its children. -/
structure Results where
  prolog : List String
  nodes : List Node
  deriving DecidableEq, Repr

/-! ## The report -/

/-- The test cases a type takes.
mirrors utilities/xml_parser.py:185-192 -/
def MergeType.selects (type : MergeType) (tc : Case) : Bool :=
  match type with
  | .fail => !(!tc.failures.isEmpty || !tc.errors.isEmpty)
  | .pass => !tc.failures.isEmpty || !tc.errors.isEmpty

/-- `ts.getElementsByTagName("testcase")`, where the selected ones are `gone` already if
an outer suite was read before. -/
def listed (selects : Case → Bool) (gone : Bool) (cases : List Case) : List Case :=
  if gone then cases.filter fun tc => !selects tc else cases

mutual

def Entry.moved (selects : Case → Bool) (gone : Bool) : Entry → List Case
  | .testcase _ => []
  | .testsuite _ entries =>
    (listed selects gone (casesOf entries)).filter selects ++ movedOf selects true entries

/-- The test cases of a report in the order they are moved.
mirrors utilities/xml_parser.py:182-192 -/
def movedOf (selects : Case → Bool) (gone : Bool) : List Entry → List Case
  | [] => []
  | e :: rest => Entry.moved selects gone e ++ movedOf selects gone rest

end

/-! ## The results file -/

/-- `doc2.childNodes[0].childNodes[0].appendChild(tc)`. -/
def appendCase (r : Results) (tc : Case) : Except Exn Results :=
  match r.prolog, r.nodes with
  | _ :: _, _ => .error .indexError
  | [], [] => .error .indexError
  | [], .text _ :: _ => .error .hierarchyRequestErr
  | [], .comment _ :: _ => .error .hierarchyRequestErr
  | [], .element tagName cases :: rest => .ok ⟨[], .element tagName (cases ++ [tc]) :: rest⟩
  | [], .testsuite ts :: rest => .ok ⟨[], .testsuite { ts with cases := ts.cases ++ [tc] } :: rest⟩

def Node.suite? : Node → Option Suite
  | .testsuite ts => some ts
  | _ => none

/-- `testsuitelem2[0]`. -/
def firstSuite (nodes : List Node) : Option Suite := nodes.findSome? Node.suite?

def withTests (ts : Suite) (tests : String) : Suite :=
  { ts with attrs := { ts.attrs with tests := tests } }

/-- `testsuitelem2[0].setAttribute("tests", tests)`. -/
def setTests (tests : String) : List Node → List Node
  | [] => []
  | .testsuite ts :: rest => .testsuite (withTests ts tests) :: rest
  | n :: rest => n :: setTests tests rest

/-- `int(testsuitelem2[0].getAttribute("tests")) + added_test_count`, written back.
mirrors utilities/xml_parser.py:194-195 -/
def addTests (nodes : List Node) (added : Nat) : Except Exn (List Node) :=
  match firstSuite nodes with
  | none => .error .indexError
  | some ts =>
    match PyStr.int ts.attrs.tests with
    | none => .error .valueError
    | some n => .ok (setTests (toString (n + added)) nodes)

/-- The children of the root as `writexml` writes them: a line each, unless there is just
a text. -/
def written : List Node → List Node
  | [] => []
  | [.text data] => [.text data]
  | nodes =>
    .text "\n" :: nodes.flatMap (fun n => [.text "    ", n, .text "\n"]) ++ [.text "  "]

/-- The parser makes one node of texts next to each other. -/
def joinTexts : List Node → List Node
  | [] => []
  | .text data :: rest =>
    match joinTexts rest with
    | .text data' :: rest' => .text (data ++ data') :: rest'
    | rest' => .text data :: rest'
  | n :: rest => n :: joinTexts rest

/-- The children of the root when a written file is parsed. -/
def reparse (nodes : List Node) : List Node := joinTexts (written nodes)

/-- The results file the next call reads.
mirrors utilities/xml_parser.py:175-202 -/
def customRerunXmlMerge (r : Results) (type : MergeType) (doc : Document) : Except Exn Results :=
  match doc with
  | .testsuite _ _ => .error .indexError
  | .testsuites entries => do
    let moved := movedOf type.selects false entries
    let r ← moved.foldlM appendCase r
    let nodes ← addTests r.nodes moved.length
    return { r with nodes := reparse nodes }

/-! ## The suite and its counts -/

/-- The test cases of a report that a call should add: those of its suites the type takes. -/
def selected (type : MergeType) (entries : List Entry) : List Case :=
  (entries.flatMap fun
    | .testcase _ => []
    | .testsuite _ entries => casesOf entries).filter type.selects

/-- The attributes are the numbers of test cases, of those with an error and of those
with a failure. -/
structure Counted (ts : Suite) : Prop where
  tests : PyStr.int ts.attrs.tests = some ts.cases.length
  errors : PyStr.int ts.attrs.errors = some (ts.cases.countP fun tc => !tc.errors.isEmpty)
  failures : PyStr.int ts.attrs.failures = some (ts.cases.countP fun tc => !tc.failures.isEmpty)

/-- The file has one suite, directly under its root. -/
def Holds (r : Results) (ts : Suite) : Prop := r.nodes.filterMap Node.suite? = [ts]

/-- What one call should do: return, add the selected test cases to the suite and leave its
counts right. -/
def Step (r : Results) (ts : Suite) (type : MergeType) (entries : List Entry) (r' : Results)
    (ts' : Suite) : Prop :=
  customRerunXmlMerge r type (.testsuites entries) = .ok r' ∧ Holds r' ts' ∧
    ts'.cases = ts.cases ++ selected type entries ∧ Counted ts'

/-- Every call of the sequence does what it should. -/
def Consistent (r : Results) (ts : Suite) : List (MergeType × List Entry) → Prop
  | [] => True
  | (type, entries) :: rest => ∃ r' ts', Step r ts type entries r' ts' ∧ Consistent r' ts' rest

/-! ## What is moved -/

mutual

theorem moved_gone (selects : Case → Bool) : (e : Entry) → Entry.moved selects true e = []
  | .testcase _ => by rw [Entry.moved]
  | .testsuite _ entries => by
    rw [Entry.moved, movedOf_gone selects entries, listed, if_pos rfl, List.filter_filter]
    simp

/-- Inside a suite that was read, nothing is left to move. -/
theorem movedOf_gone (selects : Case → Bool) : (entries : List Entry) → movedOf selects true entries = []
  | [] => by rw [movedOf]
  | e :: rest => by rw [movedOf, moved_gone selects e, movedOf_gone selects rest, List.append_nil]

end

theorem movedOf_eq_selected (type : MergeType) (entries : List Entry) :
    movedOf type.selects false entries = selected type entries := by
  induction entries with
  | nil => rw [movedOf]; rfl
  | cons e rest ih =>
    rw [movedOf, ih, selected, selected, List.flatMap_cons, List.filter_append]
    cases e with
    | testcase tc => rw [Entry.moved]; rfl
    | testsuite attrs entries =>
      rw [Entry.moved, movedOf_gone, List.append_nil]
      rfl

/-! ## Writing and parsing keep the suite -/

@[simp] theorem suites_text (data : String) (rest : List Node) :
    (Node.text data :: rest).filterMap Node.suite? = rest.filterMap Node.suite? := rfl

@[simp] theorem suites_comment (data : String) (rest : List Node) :
    (Node.comment data :: rest).filterMap Node.suite? = rest.filterMap Node.suite? := rfl

@[simp] theorem suites_element (tagName : String) (cases : List Case) (rest : List Node) :
    (Node.element tagName cases :: rest).filterMap Node.suite? = rest.filterMap Node.suite? := rfl

@[simp] theorem suites_testsuite (ts : Suite) (rest : List Node) :
    (Node.testsuite ts :: rest).filterMap Node.suite? = ts :: rest.filterMap Node.suite? := rfl

theorem joinTexts_suites (nodes : List Node) :
    (joinTexts nodes).filterMap Node.suite? = nodes.filterMap Node.suite? := by
  induction nodes with
  | nil => rfl
  | cons n rest ih =>
    cases n with
    | text data =>
      rw [joinTexts, suites_text, ← ih]
      split
      · rename_i data' rest' hjoin
        rw [hjoin, suites_text, suites_text]
      · rw [suites_text]
    | comment data => simp [joinTexts, ih]
    | element tagName cases => simp [joinTexts, ih]
    | testsuite ts => simp [joinTexts, ih]

theorem written_suites (nodes : List Node) :
    (written nodes).filterMap Node.suite? = nodes.filterMap Node.suite? := by
  have hlines : ∀ nodes : List Node,
      (nodes.flatMap fun n => [.text "    ", n, .text "\n"]).filterMap Node.suite? =
        nodes.filterMap Node.suite? := by
    intro nodes
    induction nodes with
    | nil => rfl
    | cons n rest ih => cases n <;> simp [ih]
  unfold written
  split
  · rfl
  · rfl
  · rw [List.cons_append, suites_text, List.filterMap_append, hlines]
    simp

theorem reparse_suites (nodes : List Node) :
    (reparse nodes).filterMap Node.suite? = nodes.filterMap Node.suite? := by
  rw [reparse, joinTexts_suites, written_suites]

/-- The first child of the root is a text. -/
def TextFirst (r : Results) : Prop := ∃ data rest, r.nodes = .text data :: rest

theorem reparse_text_first {nodes : List Node} (h : nodes ≠ []) :
    ∃ data rest, reparse nodes = .text data :: rest := by
  have hjoin : ∀ data rest, ∃ data' rest', joinTexts (.text data :: rest) = .text data' :: rest' := by
    intro data rest
    rw [joinTexts]
    split
    · exact ⟨_, _, rfl⟩
    · exact ⟨_, _, rfl⟩
  rw [reparse]
  unfold written
  split
  · exact absurd rfl h
  · exact hjoin _ _
  · rw [List.cons_append]
    exact hjoin _ _

/-! ## The attribute -/

theorem setTests_suites {nodes : List Node} {ts : Suite} (tests : String)
    (h : nodes.filterMap Node.suite? = [ts]) :
    (setTests tests nodes).filterMap Node.suite? = [withTests ts tests] := by
  induction nodes with
  | nil => simp at h
  | cons n rest ih =>
    cases n with
    | testsuite ts' =>
      rw [suites_testsuite] at h
      obtain ⟨rfl, hrest⟩ := List.cons.inj h
      simp [setTests, hrest]
    | text data => simpa [setTests] using ih h
    | comment data => simpa [setTests] using ih h
    | element tagName cases => simpa [setTests] using ih h

theorem addTests_ok {nodes : List Node} {ts : Suite} {n : Int} (h : nodes.filterMap Node.suite? = [ts])
    (hn : PyStr.int ts.attrs.tests = some n) (added : Nat) :
    addTests nodes added = .ok (setTests (toString (n + added)) nodes) := by
  have hfirst : firstSuite nodes = some ts := by
    rw [firstSuite, ← List.head?_filterMap, h]
    rfl
  simp [addTests, hfirst, hn]

/-- A call whose appends went through. -/
theorem merge_of_appends {r r₀ : Results} {ts : Suite} {n : Int} {type : MergeType} {entries : List Entry}
    (happ : (selected type entries).foldlM appendCase r = .ok r₀) (h : Holds r₀ ts)
    (hn : PyStr.int ts.attrs.tests = some n) :
    ∃ r', customRerunXmlMerge r type (.testsuites entries) = .ok r' ∧ r'.prolog = r₀.prolog ∧ TextFirst r' ∧
      Holds r' (withTests ts (toString (n + (selected type entries).length))) := by
  have hset := setTests_suites (toString (n + (selected type entries).length)) h
  refine ⟨⟨r₀.prolog, reparse (setTests (toString (n + (selected type entries).length)) r₀.nodes)⟩,
    ?_, rfl, ?_, ?_⟩
  · rw [customRerunXmlMerge, movedOf_eq_selected]
    simp only [happ, addTests_ok h hn, bind, Except.bind]
    rfl
  · refine reparse_text_first fun hnil => ?_
    rw [hnil] at hset
    cases hset
  · rw [Holds, reparse_suites]
    exact hset

/-! ## Appending -/

theorem appends_testsuite (ts : Suite) (rest : List Node) (moved : List Case) :
    moved.foldlM appendCase ⟨[], .testsuite ts :: rest⟩ =
      .ok ⟨[], .testsuite { ts with cases := ts.cases ++ moved } :: rest⟩ := by
  induction moved generalizing ts with
  | nil => simp [pure, Except.pure]
  | cons tc moved ih =>
    rw [List.foldlM_cons, appendCase]
    simpa [bind, Except.bind] using ih { ts with cases := ts.cases ++ [tc] }

theorem appends_element (tagName : String) (cases : List Case) (rest : List Node) (moved : List Case) :
    moved.foldlM appendCase ⟨[], .element tagName cases :: rest⟩ =
      .ok ⟨[], .element tagName (cases ++ moved) :: rest⟩ := by
  induction moved generalizing cases with
  | nil => simp [pure, Except.pure]
  | cons tc moved ih =>
    rw [List.foldlM_cons, appendCase]
    simpa [bind, Except.bind] using ih (cases ++ [tc])

/-- The suite is the first child of the root, and nothing stands before the root. -/
def SuiteFirst (r : Results) : Prop := r.prolog = [] ∧ ∃ ts rest, r.nodes = .testsuite ts :: rest

/-- Where the suite is not first, a test case that is appended raises or is lost in another
element. -/
theorem appends_not_first {r : Results} {ts : Suite} {moved : List Case} (h : Holds r ts)
    (hne : moved ≠ []) (hfirst : ¬ SuiteFirst r) :
    (∃ x, moved.foldlM appendCase r = .error x) ∨
      ∃ r₀, moved.foldlM appendCase r = .ok r₀ ∧ Holds r₀ ts := by
  obtain ⟨tc, moved, rfl⟩ := List.exists_cons_of_ne_nil hne
  obtain ⟨prolog, nodes⟩ := r
  rw [List.foldlM_cons]
  match prolog, nodes with
  | _ :: _, _ => exact .inl ⟨_, rfl⟩
  | [], [] => exact .inl ⟨_, rfl⟩
  | [], .text _ :: _ => exact .inl ⟨_, rfl⟩
  | [], .comment _ :: _ => exact .inl ⟨_, rfl⟩
  | [], .element tagName cases :: rest => exact .inr ⟨_, appends_element tagName _ rest moved, h⟩
  | [], .testsuite ts' :: rest => exact absurd ⟨rfl, ts', rest, rfl⟩ hfirst

/-! ## One call -/

theorem selects_fail {tc : Case} (h : MergeType.fail.selects tc = true) : tc.errors = [] ∧ tc.failures = [] := by
  simp [MergeType.selects] at h
  exact h.symm

theorem selects_pass {tc : Case} (h : MergeType.pass.selects tc = true) : tc.Bad := by
  simp [MergeType.selects] at h
  exact h.symm

theorem selects_of_mem {type : MergeType} {entries : List Entry} {tc : Case}
    (h : tc ∈ selected type entries) : type.selects tc = true := (List.mem_filter.mp h).2

/-- Test cases that passed change no count but that of the tests. -/
theorem counted_append {ts : Suite} {cases : List Case} (hc : Counted ts)
    (hclean : ∀ tc ∈ cases, tc.errors = [] ∧ tc.failures = []) :
    Counted (withTests { ts with cases := ts.cases ++ cases }
      (toString ((ts.cases.length : Int) + cases.length))) where
  tests := by
    simp only [withTests]
    rw [PyStr.int_toString, List.length_append]
    rfl
  errors := by
    have hzero : (cases.countP fun tc => !tc.errors.isEmpty) = 0 :=
      List.countP_eq_zero.mpr fun tc htc => by simp [(hclean tc htc).1]
    simp only [withTests]
    rw [List.countP_append, hzero, Nat.add_zero]
    exact hc.errors
  failures := by
    have hzero : (cases.countP fun tc => !tc.failures.isEmpty) = 0 :=
      List.countP_eq_zero.mpr fun tc htc => by simp [(hclean tc htc).2]
    simp only [withTests]
    rw [List.countP_append, hzero, Nat.add_zero]
    exact hc.failures

/-- With the errors and failures as they were, no test case with either was added. -/
theorem clean_of_counted {ts ts' : Suite} {cases : List Case} (hc : Counted ts) (hc' : Counted ts')
    (hcases : ts'.cases = ts.cases ++ cases) (herrors : ts'.attrs.errors = ts.attrs.errors)
    (hfailures : ts'.attrs.failures = ts.attrs.failures) : ∀ tc ∈ cases, ¬ tc.Bad := by
  have he := hc'.errors
  have hf := hc'.failures
  rw [herrors, hc.errors, hcases, List.countP_append] at he
  rw [hfailures, hc.failures, hcases, List.countP_append] at hf
  have he0 : (cases.countP fun tc => !tc.errors.isEmpty) = 0 := by
    have := Option.some.inj he
    omega
  have hf0 : (cases.countP fun tc => !tc.failures.isEmpty) = 0 := by
    have := Option.some.inj hf
    omega
  intro tc htc hbad
  rcases hbad with hbad | hbad
  · exact absurd (List.countP_eq_zero.mp he0 tc htc) (by simpa using hbad)
  · exact absurd (List.countP_eq_zero.mp hf0 tc htc) (by simpa using hbad)

theorem holds_unique {r : Results} {ts ts' : Suite} (h : Holds r ts) (h' : Holds r ts') : ts = ts' :=
  (List.cons.inj (h.symm.trans h')).1

theorem SuiteFirst.eq {r : Results} {ts : Suite} (hfirst : SuiteFirst r) (h : Holds r ts) :
    ∃ rest, r = ⟨[], .testsuite ts :: rest⟩ ∧ rest.filterMap Node.suite? = [] := by
  obtain ⟨prolog, nodes⟩ := r
  obtain ⟨rfl, ts', rest, rfl⟩ := hfirst
  rw [Holds, suites_testsuite] at h
  obtain ⟨rfl, hrest⟩ := List.cons.inj h
  exact ⟨rest, rfl, hrest⟩

theorem step_of_appends {r r₀ : Results} {ts : Suite} {type : MergeType} {entries : List Entry}
    (hc : Counted ts) (hclean : ∀ tc ∈ selected type entries, tc.errors = [] ∧ tc.failures = [])
    (happ : (selected type entries).foldlM appendCase r = .ok r₀)
    (h₀ : Holds r₀ { ts with cases := ts.cases ++ selected type entries }) :
    ∃ r' ts', Step r ts type entries r' ts' := by
  obtain ⟨r', hok, -, -, hholds⟩ := merge_of_appends happ h₀ hc.tests
  exact ⟨r', _, hok, hholds, rfl, counted_append hc hclean⟩

theorem step_iff {r : Results} {ts : Suite} (h : Holds r ts) (hc : Counted ts) (type : MergeType)
    (entries : List Entry) :
    (∃ r' ts', Step r ts type entries r' ts') ↔
      selected type entries = [] ∨ type = .fail ∧ SuiteFirst r := by
  constructor
  · rintro ⟨r', ts', hok, hholds, hcases, hc'⟩
    by_cases hnil : selected type entries = []
    · exact .inl hnil
    refine .inr ?_
    by_cases hfirst : SuiteFirst r
    · refine ⟨?_, hfirst⟩
      obtain ⟨rest, rfl, hrest⟩ := hfirst.eq h
      have happ := appends_testsuite ts rest (selected type entries)
      have h₀ : Holds ⟨[], .testsuite { ts with cases := ts.cases ++ selected type entries } :: rest⟩
          { ts with cases := ts.cases ++ selected type entries } := by simp [Holds, hrest]
      obtain ⟨r'', hok', -, -, hholds'⟩ := merge_of_appends happ h₀ hc.tests
      obtain rfl := Except.ok.inj (hok.symm.trans hok')
      obtain rfl := holds_unique hholds hholds'
      -- `errors` and `failures` are as they were, so nothing that failed was added
      have hclean := clean_of_counted hc hc' hcases rfl rfl
      cases type with
      | fail => rfl
      | pass =>
        obtain ⟨tc, htc⟩ := List.exists_mem_of_ne_nil _ hnil
        exact absurd (selects_pass (selects_of_mem htc)) (hclean tc htc)
    · exfalso
      rcases appends_not_first h hnil hfirst with ⟨x, herr⟩ | ⟨r₀, happ, h₀⟩
      · rw [customRerunXmlMerge, movedOf_eq_selected] at hok
        simp only [herr, bind, Except.bind] at hok
        cases hok
      · obtain ⟨r'', hok', -, -, hholds'⟩ := merge_of_appends happ h₀ hc.tests
        obtain rfl := Except.ok.inj (hok.symm.trans hok')
        obtain rfl := holds_unique hholds hholds'
        exact hnil (List.self_eq_append_right.mp hcases)
  · rintro (hnil | ⟨rfl, hfirst⟩)
    · have happ : (selected type entries).foldlM appendCase r = .ok r := by
        rw [hnil]
        rfl
      refine step_of_appends hc (by simp [hnil]) happ ?_
      rw [hnil, List.append_nil]
      exact h
    · obtain ⟨rest, rfl, hrest⟩ := hfirst.eq h
      exact step_of_appends hc (fun tc htc => selects_fail (selects_of_mem htc))
        (appends_testsuite ts rest _) (by simp [Holds, hrest])

theorem step_textFirst {r r' : Results} {ts ts' : Suite} {type : MergeType} {entries : List Entry}
    (h : Step r ts type entries r' ts') : TextFirst r' := by
  obtain ⟨hok, hholds, -, -⟩ := h
  rw [customRerunXmlMerge, Loop.bind_eq_ok] at hok
  obtain ⟨r₀, -, hok⟩ := hok
  obtain ⟨nodes, -, hok⟩ := Loop.bind_eq_ok.mp hok
  obtain rfl := Except.ok.inj hok
  refine reparse_text_first fun hnil => ?_
  rw [Holds, reparse_suites, hnil] at hholds
  cases hholds

/-! ## Sequences of calls -/

theorem consistent_textFirst {r : Results} {ts : Suite} (htext : TextFirst r) (h : Holds r ts)
    (hc : Counted ts) (calls : List (MergeType × List Entry)) :
    Consistent r ts calls ↔ ∀ c ∈ calls, selected c.1 c.2 = [] := by
  induction calls generalizing r ts with
  | nil => simp [Consistent]
  | cons c rest ih =>
    obtain ⟨type, entries⟩ := c
    have hnot : ¬ SuiteFirst r := by
      rintro ⟨-, ts', rest', hnodes⟩
      obtain ⟨data, rest'', hnodes'⟩ := htext
      rw [hnodes'] at hnodes
      cases hnodes
    have hiff := step_iff h hc type entries
    rw [or_iff_left fun hf => hnot hf.2] at hiff
    rw [Consistent, List.forall_mem_cons, ← hiff]
    constructor
    · rintro ⟨r', ts', hstep, hrest⟩
      exact ⟨⟨r', ts', hstep⟩, (ih (step_textFirst hstep) hstep.2.1 hstep.2.2.2).mp hrest⟩
    · rintro ⟨⟨r', ts', hstep⟩, hrest⟩
      exact ⟨r', ts', hstep, (ih (step_textFirst hstep) hstep.2.1 hstep.2.2.2).mpr hrest⟩

/-- Only the first call moves test cases, and it does so only for `fail` and into a suite
that is first. -/
def OnlyFirst (r : Results) : List (MergeType × List Entry) → Prop
  | [] => True
  | (type, entries) :: rest =>
    (selected type entries = [] ∨ type = .fail ∧ SuiteFirst r) ∧ ∀ c ∈ rest, selected c.1 c.2 = []

theorem consistent_iff {r : Results} {ts : Suite} (h : Holds r ts) (hc : Counted ts)
    (calls : List (MergeType × List Entry)) : Consistent r ts calls ↔ OnlyFirst r calls := by
  cases calls with
  | nil => simp [Consistent, OnlyFirst]
  | cons c rest =>
    obtain ⟨type, entries⟩ := c
    rw [Consistent, OnlyFirst, ← step_iff h hc]
    constructor
    · rintro ⟨r', ts', hstep, hrest⟩
      exact ⟨⟨r', ts', hstep⟩,
        (consistent_textFirst (step_textFirst hstep) hstep.2.1 hstep.2.2.2 rest).mp hrest⟩
    · rintro ⟨⟨r', ts', hstep⟩, hrest⟩
      exact ⟨r', ts', hstep,
        (consistent_textFirst (step_textFirst hstep) hstep.2.1 hstep.2.2.2 rest).mpr hrest⟩

def passed (name : String) : Case := ⟨name, "tests", "1.5", "a.py", [], []⟩

def failed (name : String) : Case := ⟨name, "tests", "1.5", "a.py", [], [⟨"1 != 2", some "assert"⟩]⟩

/-- The suite of a run in which one of two tests failed. -/
def oneFailed : Suite := ⟨⟨"pytest", "0", "1", "0", "3.1", "2"⟩, [passed "test_a", failed "test_b"]⟩

theorem counted_oneFailed : Counted oneFailed := ⟨by decide, by decide, by decide⟩

/-- A report of one suite with one test case. -/
def reportOf (tc : Case) : List Entry := [.testsuite ⟨"pytest", "0", "0", "0", "1.5", "1"⟩ [.testcase tc]]

/-- A rerun of the failed test that passes, merged into the file as `pytest` writes it, and
then a report that holds nothing to merge. -/
theorem consistent_oneFailed :
    Consistent ⟨[], [.testsuite oneFailed]⟩ oneFailed
      [(.fail, reportOf (passed "test_b")), (.pass, reportOf (passed "test_a"))] := by
  have h : Holds ⟨[], [.testsuite oneFailed]⟩ oneFailed := rfl
  refine (consistent_iff h counted_oneFailed _).mpr ⟨.inr ⟨rfl, rfl, oneFailed, [], rfl⟩, ?_⟩
  decide

/-- A second rerun that has something to merge raises: the file written by the first one
has a text where the suite was. -/
theorem secondRerun_not_consistent :
    Holds ⟨[], [.testsuite oneFailed]⟩ oneFailed ∧ Counted oneFailed ∧
      ¬ Consistent ⟨[], [.testsuite oneFailed]⟩ oneFailed
        [(.fail, reportOf (passed "test_b")), (.fail, reportOf (passed "test_c"))] := by
  refine ⟨rfl, counted_oneFailed, ?_⟩
  rintro ⟨r₁, ts₁, ⟨hok₁, -⟩, r₂, ts₂, ⟨hok₂, -⟩, -⟩
  obtain rfl := Except.ok.inj hok₁
  cases hok₂

end MobileTestkit.L4.RerunMerge
