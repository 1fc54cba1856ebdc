import Mathlib.Data.List.Induction
import Mathlib.Data.List.Sort
import MobileTestkit.Core.PyStr

/-!
# Reading junit reports

Model of the two readers of utilities/xml_parser.py, `parse_junit_result_xml` and
`parse_testreport_result_xml`, which sort the test cases of junit files into
passed and failed and write the names, cleaned by `filter_fields`, to conf files.
The reader of local files keeps a flag for the whole suite, looks at `error`
elements only and adds a name once for each of them; the other decides each test
case alone.

A document is the tree of its suites and test cases; `suites` and `cases` are what
`getElementsByTagName` lists, in document order. A `failure` or `error` element is
its `message` and the text of its first child.

* `lookLike_iff`: two texts have the same sorted characters exactly when one is a
  rearrangement of the other.
* `transform_lines`: what a conf file holds.
* `junitCases_put_iff`: what the flag does to a single test case.
* `readsAlike_iff`: the readers agree exactly when every test case has at most one
  error and no failure without an error, and none without either comes after one
  with an error in its suite.
-/
namespace MobileTestkit.L4.JunitReports

open MobileTestkit.Core

inductive Exn where
  | indexError
  | keyError (key : String)
  | valueError
  | attributeError
  | hierarchyRequestErr
  deriving DecidableEq, Repr

/-! ## The documents -/

/-- A `failure` or `error` element; `text` is `firstChild.nodeValue`, `none` when
there is no first child. -/
structure Elem where
  message : String
  text : Option String
  deriving DecidableEq, Repr

/-- A `testcase` element, with the `error` and `failure` elements below it. -/
structure Case where
  name : String
  classname : String
  time : String
  file : String
  errors : List Elem
  failures : List Elem
  deriving DecidableEq, Repr

structure SuiteAttrs where
  name : String
  errors : String
  failures : String
  skips : String
  time : String
  tests : String
  deriving DecidableEq, Repr

/-- A `testsuite` element, with the test cases below it. -/
structure Suite where
  attrs : SuiteAttrs
  cases : List Case
  deriving DecidableEq, Repr

/-- What stands below a root. Suites may be nested. -/
inductive Entry where
  | testcase (tc : Case)
  | testsuite (attrs : SuiteAttrs) (entries : List Entry)

mutual

def Entry.cases : Entry → List Case
  | .testcase tc => [tc]
  | .testsuite _ entries => casesOf entries

/-- `getElementsByTagName("testcase")`. -/
def casesOf : List Entry → List Case
  | [] => []
  | e :: rest => e.cases ++ casesOf rest

end

mutual

def Entry.suites : Entry → List Suite
  | .testcase _ => []
  | .testsuite attrs entries => ⟨attrs, casesOf entries⟩ :: suitesOf entries

/-- `getElementsByTagName("testsuite")`. -/
def suitesOf : List Entry → List Suite
  | [] => []
  | e :: rest => e.suites ++ suitesOf rest

end

/-- A parsed file, by its root element. -/
inductive Document where
  | testsuites (entries : List Entry)
  | testsuite (attrs : SuiteAttrs) (entries : List Entry)

/-- `doc.getElementsByTagName("testsuite")`, of the whole document. -/
def Document.suites : Document → List Suite
  | .testsuites entries => suitesOf entries
  | .testsuite attrs entries => (Entry.testsuite attrs entries).suites

/-- `doc.getElementsByTagName("testsuites")[0].getElementsByTagName("testsuite")`. -/
def Document.rootSuites : Document → Except Exn (List Suite)
  | .testsuites entries => .ok (suitesOf entries)
  | .testsuite _ _ => .error .indexError

/-- A suite with nothing but test cases in it. -/
def Suite.entry (ts : Suite) : Entry := .testsuite ts.attrs (ts.cases.map .testcase)

/-- The document with the given suites below a `testsuites` root, none nested. -/
def Document.ofSuites (suites : List Suite) : Document := .testsuites (suites.map Suite.entry)

theorem casesOf_testcases (cases : List Case) : casesOf (cases.map .testcase) = cases := by
  induction cases with
  | nil => simp [casesOf]
  | cons tc rest ih => simp [casesOf, Entry.cases, ih]

theorem suitesOf_testcases (cases : List Case) : suitesOf (cases.map .testcase) = [] := by
  induction cases with
  | nil => simp [suitesOf]
  | cons tc rest ih => simp [suitesOf, Entry.suites, ih]

theorem suitesOf_entries (suites : List Suite) : suitesOf (suites.map Suite.entry) = suites := by
  induction suites with
  | nil => simp [suitesOf]
  | cons ts rest ih =>
    simp [suitesOf, Suite.entry, Entry.suites, casesOf_testcases, suitesOf_testcases, ih]

@[simp] theorem suites_ofSuites (suites : List Suite) : (Document.ofSuites suites).suites = suites :=
  suitesOf_entries suites

@[simp] theorem rootSuites_ofSuites (suites : List Suite) :
    (Document.ofSuites suites).rootSuites = .ok suites := by
  rw [Document.ofSuites, Document.rootSuites, suitesOf_entries]

/-! ## The names -/

/-- The fields of a test name that `filter_fields` drops. -/
def dropped : List String :=
  ["logs_folder", "conf_file", "cluster_name:", "ini:", "case_number:", "num_nodes:", "spec:"]

/-- One field of a name in the filtered line.
mirrors utilities/xml_parser.py:140-144 -/
def filterField (fw : String) : String :=
  if !PyStr.contains fw "\":" || PyStr.contains fw "query:" then PyStr.replaceFirst fw ':' '=' else fw

/-- mirrors utilities/xml_parser.py:130-148 -/
def filterFields (testname : String) : String :=
  let testwords := PyStr.split testname ','
  testwords.foldl
    (fun line fw =>
      if dropped.any (PyStr.startswith fw) then line
      else
        let line := line ++ filterField fw
        if testwords.getLast? = some fw then line else line ++ ",")
    ""

/-- `''.join(sorted(s))`. -/
def sorted (s : String) : List Char := s.toList.insertionSort (· ≤ ·)

/-- `compare_with_sort` and `check_if_exists` on a single key. -/
def LookLike (a b : String) : Prop := sorted a = sorted b

instance (a b : String) : Decidable (LookLike a b) := inferInstanceAs (Decidable (sorted a = sorted b))

theorem lookLike_iff (a b : String) : LookLike a b ↔ a.toList.Perm b.toList := by
  have ha : (sorted a).Perm a.toList := List.perm_insertionSort _ _
  have hb : (sorted b).Perm b.toList := List.perm_insertionSort _ _
  constructor
  · intro h
    rw [LookLike] at h
    exact ha.symm.trans (h ▸ hb)
  · intro h
    exact (ha.trans (h.trans hb.symm)).eq_of_pairwise'
      (List.pairwise_insertionSort _ _) (List.pairwise_insertionSort _ _)

/-- mirrors utilities/xml_parser.py:105-111 -/
def checkIfExists (testList : List String) (testLine : String) : Bool :=
  testList.any fun t => decide (LookLike t testLine)

/-- The line of a test, before it is compared with the others. -/
def lineOf (test : String) : String := PyStr.rstripChar ',' (filterFields test)

/-- The lines `transform_and_write_to_file` keeps, writes and returns.
mirrors utilities/xml_parser.py:114-127 -/
def transform (testsList : List String) : List String :=
  testsList.foldl
    (fun newTestList test =>
      if checkIfExists newTestList (lineOf test) then newTestList else newTestList ++ [lineOf test])
    []

theorem transform_append (tests : List String) (test : String) :
    transform (tests ++ [test]) =
      if checkIfExists (transform tests) (lineOf test) then transform tests
      else transform tests ++ [lineOf test] := by
  rw [transform, List.foldl_append]
  rfl

theorem checkIfExists_iff (lines : List String) (line : String) :
    checkIfExists lines line = true ↔ ∃ l ∈ lines, LookLike l line := by
  simp [checkIfExists]

/-- No two lines of a conf file are rearrangements of each other, every line is that of a
test, and the line of every test is there but for the order of its characters. -/
theorem transform_lines (tests : List String) :
    (transform tests).Pairwise (fun a b => ¬ LookLike a b) ∧
      (∀ line ∈ transform tests, ∃ test ∈ tests, line = lineOf test) ∧
      ∀ test ∈ tests, ∃ line ∈ transform tests, LookLike line (lineOf test) := by
  induction tests using List.reverseRecOn with
  | nil => exact ⟨List.Pairwise.nil, by simp [transform], by simp⟩
  | append_singleton tests test ih =>
    obtain ⟨hpair, hfrom, hall⟩ := ih
    have hfrom' : ∀ line ∈ transform tests, ∃ t ∈ tests ++ [test], line = lineOf t := by
      intro line hline
      obtain ⟨t, ht, e⟩ := hfrom line hline
      exact ⟨t, List.mem_append_left _ ht, e⟩
    have hexists := checkIfExists_iff (transform tests) (lineOf test)
    rw [transform_append]
    cases hcheck : checkIfExists (transform tests) (lineOf test) with
    | true =>
      exact ⟨hpair, hfrom', List.forall_mem_append.mpr
        ⟨hall, List.forall_mem_singleton.mpr (hexists.mp hcheck)⟩⟩
    | false =>
      have hnew : ∀ l ∈ transform tests, ¬ LookLike l (lineOf test) := by
        intro l hl hlike
        rw [hexists.mpr ⟨l, hl, hlike⟩] at hcheck
        cases hcheck
      refine ⟨List.pairwise_append.mpr ⟨hpair, List.pairwise_singleton _ _,
          fun a ha => List.forall_mem_singleton.mpr (hnew a ha)⟩,
        List.forall_mem_append.mpr ⟨hfrom', List.forall_mem_singleton.mpr ⟨test, by simp, rfl⟩⟩,
        List.forall_mem_append.mpr ⟨fun t ht => ?_, List.forall_mem_singleton.mpr ?_⟩⟩
      · obtain ⟨l, hl, hlike⟩ := hall t ht
        exact ⟨l, List.mem_append_left _ hl, hlike⟩
      · exact ⟨lineOf test, by simp, rfl⟩

/-- The file `transform_and_write_to_file` writes. -/
def confFile (lines : List String) : String := String.join (lines.map (· ++ "\n"))

/-! ## The readers -/

/-- `passed_tests` and `failed_tests`. -/
structure Lists where
  passed : List String
  failed : List String
  deriving DecidableEq, Repr

def Lists.empty : Lists := ⟨[], []⟩

def Lists.pass (out : Lists) (tcname : String) : Lists :=
  { out with passed := out.passed ++ [tcname] }

def Lists.fail (out : Lists) (tcname : String) : Lists :=
  { out with failed := out.failed ++ [tcname] }

/-- One test case, with the suite's `failed` flag.
mirrors utilities/xml_parser.py:27-34 -/
def junitCase (st : Bool × Lists) (tc : Case) : Bool × Lists :=
  let st := tc.errors.foldl (fun st _ => (true, st.2.fail tc.name)) st
  if st.1 then st else (st.1, st.2.pass tc.name)

/-- The loop over the test cases of a suite. -/
def junitCases (out : Lists) (cases : List Case) : Bool × Lists := cases.foldl junitCase (false, out)

/-- The two lists `parse_junit_result_xml` ends its loops with.
mirrors utilities/xml_parser.py:18-34 -/
def junitTests (docs : List Document) : Lists :=
  docs.foldl (fun out doc => doc.suites.foldl (fun out ts => (junitCases out ts.cases).2) out) .empty

/-- The files a call of `parse_junit_result_xml` writes, for the files `glob` found.
mirrors utilities/xml_parser.py:36-41 -/
def parseJunitResultXml (docs : List Document) : List (String × String) :=
  let out := junitTests docs
  (if out.failed.isEmpty then [] else [("failed_tests.conf", confFile (transform out.failed))]) ++
    (if out.passed.isEmpty then [] else [("passed_tests.conf", confFile (transform out.passed))])

/-- mirrors utilities/xml_parser.py:78-82 -/
def testreportCase (out : Lists) (tc : Case) : Lists :=
  if !tc.failures.isEmpty || !tc.errors.isEmpty then out.fail tc.name else out.pass tc.name

/-- The two lists `parse_testreport_result_xml` ends its loops with.
mirrors utilities/xml_parser.py:69-82 -/
def testreportTests (docs : List Document) : Except Exn Lists :=
  docs.foldlM
    (fun out doc => do
      let suites ← doc.rootSuites
      return suites.foldl (fun out ts => ts.cases.foldl testreportCase out) out)
    .empty

/-- The files `parse_testreport_result_xml` writes, and the pair it returns.
mirrors utilities/xml_parser.py:84-94 -/
def parseTestreportResultXml (docs : List Document) :
    Except Exn (List (String × String) × List String × List String) := do
  let out ← testreportTests docs
  let failed := if out.failed.isEmpty then out.failed else transform out.failed
  let passed := if out.passed.isEmpty then out.passed else transform out.passed
  let confs :=
    (if out.failed.isEmpty then [] else [("failed_tests.conf", confFile failed)]) ++
      (if out.passed.isEmpty then [] else [("passed_tests.conf", confFile passed)])
  return (confs ++ [("test_passed", PyStr.join " or " passed),
    ("test_failures", PyStr.join " or " failed)], passed, failed)

/-! ## What the readers should do -/

/-- The test case has an error or a failure element. -/
def Case.Bad (tc : Case) : Prop := tc.errors ≠ [] ∨ tc.failures ≠ []

instance (tc : Case) : Decidable tc.Bad := inferInstanceAs (Decidable (_ ∨ _))

/-- The lists with one more test case put where it belongs. -/
def Lists.put (out : Lists) (tc : Case) : Lists := if tc.Bad then out.fail tc.name else out.pass tc.name

/-- The readers end with the same lists, and each puts each test case, whatever was
read before, in one of the two, once, and in `failed` iff it is bad. -/
structure ReadsAlike (files : List (List Suite)) : Prop where
  same : testreportTests (files.map .ofSuites) = .ok (junitTests (files.map .ofSuites))
  testreport : ∀ suites ∈ files, ∀ ts ∈ suites, ∀ tc ∈ ts.cases, ∀ out,
    testreportCase out tc = out.put tc
  junit : ∀ suites ∈ files, ∀ ts ∈ suites, ∀ pre tc post, ts.cases = pre ++ tc :: post →
    ∀ out, (junitCases out (pre ++ [tc])).2 = (junitCases out pre).2.put tc

theorem testreportCase_eq_put (out : Lists) (tc : Case) : testreportCase out tc = out.put tc := by
  obtain ⟨name, classname, time, file, errors, failures⟩ := tc
  simp only [testreportCase, Lists.put, Case.Bad]
  cases errors <;> cases failures <;> simp

/-! ## The flag -/

theorem foldl_fail (errors : List Elem) (name : String) (st : Bool × Lists) :
    errors.foldl (fun st _ => (true, st.2.fail name)) st =
      (st.1 || !errors.isEmpty,
        { st.2 with failed := st.2.failed ++ List.replicate errors.length name }) := by
  induction errors generalizing st with
  | nil => simp
  | cons e rest ih =>
    rw [List.foldl_cons, ih]
    simp [Lists.fail, List.replicate_succ]

/-- The flag is set by the first error and never reset within the suite. -/
theorem junitCases_flag (out : Lists) (cases : List Case) :
    (junitCases out cases).1 = true ↔ ∃ tc ∈ cases, tc.errors ≠ [] := by
  suffices h : ∀ st : Bool × Lists, (cases.foldl junitCase st).1 = true ↔
      st.1 = true ∨ ∃ tc ∈ cases, tc.errors ≠ [] by
    simpa [junitCases] using h (false, out)
  induction cases with
  | nil => simp
  | cons tc rest ih =>
    intro st
    have hstep : (junitCase st tc).1 = (st.1 || !tc.errors.isEmpty) := by
      simp only [junitCase, foldl_fail]
      split <;> rfl
    rw [List.foldl_cons, ih, hstep]
    simp [or_assoc]

theorem junitCases_append (out : Lists) (cases : List Case) (tc : Case) :
    junitCases out (cases ++ [tc]) = junitCase (junitCases out cases) tc := by
  rw [junitCases, List.foldl_append]
  rfl

/-- The next test case goes where it belongs exactly when it has one error, or
neither error nor failure and no test case of the suite had an error before. -/
theorem junitCases_put_iff (out : Lists) (pre : List Case) (tc : Case) :
    (junitCases out (pre ++ [tc])).2 = (junitCases out pre).2.put tc ↔
      tc.errors.length ≤ 1 ∧ (tc.failures ≠ [] → tc.errors ≠ []) ∧
        (∀ a ∈ pre, a.errors ≠ [] → tc.Bad) := by
  have hbefore : (∀ a ∈ pre, a.errors ≠ [] → tc.Bad) ↔ ((junitCases out pre).1 = true → tc.Bad) := by
    rw [junitCases_flag]
    exact ⟨fun h ⟨a, ha, he⟩ => h a ha he, fun h a ha he => h ⟨a, ha, he⟩⟩
  rw [hbefore, junitCases_append]
  obtain ⟨flag, passed, failed⟩ := junitCases out pre
  obtain ⟨name, classname, time, file, errors, failures⟩ := tc
  simp only [junitCase, foldl_fail, Lists.put, Case.Bad]
  simp only [Lists.fail, Lists.pass]
  match errors with
  | [] => cases flag <;> cases failures <;> simp
  | [e] => simp
  | e :: e' :: rest => simp [List.replicate_succ]

/-- Reading a whole suite is putting its test cases one by one, when each goes where
it belongs. -/
theorem junitCases_eq_put (out : Lists) (cases : List Case)
    (h : ∀ pre tc post, cases = pre ++ tc :: post →
      (junitCases out (pre ++ [tc])).2 = (junitCases out pre).2.put tc) :
    (junitCases out cases).2 = cases.foldl Lists.put out := by
  induction cases using List.reverseRecOn with
  | nil => rfl
  | append_singleton cases tc ih =>
    rw [h cases tc [] rfl, List.foldl_append, ih]
    · rfl
    · intro pre tc' post e
      exact h pre tc' (post ++ [tc]) (by simp [e])

/-! ## The readers agree -/

theorem testreportTests_ofSuites (files : List (List Suite)) :
    testreportTests (files.map .ofSuites) =
      .ok (files.foldl (fun out suites =>
        suites.foldl (fun out ts => ts.cases.foldl Lists.put out) out) .empty) := by
  have hput : testreportCase = Lists.put := funext₂ testreportCase_eq_put
  rw [testreportTests]
  generalize Lists.empty = out
  induction files generalizing out with
  | nil => rfl
  | cons suites rest ih =>
    rw [List.map_cons, List.foldlM_cons, rootSuites_ofSuites, List.foldl_cons, ← ih, hput]
    rfl

theorem junitTests_ofSuites (files : List (List Suite)) :
    junitTests (files.map .ofSuites) =
      files.foldl (fun out suites =>
        suites.foldl (fun out ts => (junitCases out ts.cases).2) out) .empty := by
  rw [junitTests, List.foldl_map]
  simp only [suites_ofSuites]

theorem pairwise_of_split {α : Type} {R : α → α → Prop} (l : List α)
    (h : ∀ pre b post, l = pre ++ b :: post → ∀ a ∈ pre, R a b) : l.Pairwise R := by
  induction l using List.reverseRecOn with
  | nil => exact List.Pairwise.nil
  | append_singleton l b ih =>
    rw [List.pairwise_append]
    exact ⟨ih fun pre c post e => h pre c (post ++ [b]) (by simp [e]), List.pairwise_singleton _ _,
      fun a ha => List.forall_mem_singleton.mpr (h l b [] rfl a ha)⟩

/-- In the files, each test case has at most one error, none has a failure without an
error, and none without either comes after one with an error in its suite. -/
def ErrorsMark (files : List (List Suite)) : Prop :=
  ∀ suites ∈ files, ∀ ts ∈ suites,
    (∀ tc ∈ ts.cases, tc.errors.length ≤ 1 ∧ (tc.failures ≠ [] → tc.errors ≠ [])) ∧
      ts.cases.Pairwise fun a b => a.errors ≠ [] → b.Bad

instance (files : List (List Suite)) : Decidable (ErrorsMark files) :=
  inferInstanceAs (Decidable (∀ suites ∈ files, ∀ ts ∈ suites, _ ∧ _))

theorem junit_put_of_errorsMark {files : List (List Suite)} (h : ErrorsMark files) {suites : List Suite}
    (hsuites : suites ∈ files) {ts : Suite} (hts : ts ∈ suites) {pre post : List Case} {tc : Case}
    (e : ts.cases = pre ++ tc :: post) (out : Lists) :
    (junitCases out (pre ++ [tc])).2 = (junitCases out pre).2.put tc := by
  obtain ⟨hcase, hpair⟩ := h suites hsuites ts hts
  obtain ⟨hone, hfail⟩ := hcase tc (by simp [e])
  rw [e, List.pairwise_append] at hpair
  rw [junitCases_put_iff]
  exact ⟨hone, hfail, fun a ha => hpair.2.2 a ha tc List.mem_cons_self⟩

theorem tests_same {files : List (List Suite)} (h : ErrorsMark files) :
    testreportTests (files.map .ofSuites) = .ok (junitTests (files.map .ofSuites)) := by
  rw [testreportTests_ofSuites, junitTests_ofSuites]
  congr 1
  apply List.foldl_ext
  intro out suites hsuites
  apply List.foldl_ext
  intro out ts hts
  exact (junitCases_eq_put out ts.cases fun pre tc post e =>
    junit_put_of_errorsMark h hsuites hts e out).symm

theorem readsAlike_iff (files : List (List Suite)) : ReadsAlike files ↔ ErrorsMark files := by
  constructor
  · intro h suites hsuites ts hts
    have hput := fun pre tc post e =>
      (junitCases_put_iff .empty pre tc).mp (h.junit suites hsuites ts hts pre tc post e .empty)
    refine ⟨fun tc htc => ?_, pairwise_of_split _ fun pre tc post e => (hput pre tc post e).2.2⟩
    obtain ⟨pre, post, e⟩ := List.append_of_mem htc
    exact ⟨(hput pre tc post e).1, (hput pre tc post e).2.1⟩
  · intro h
    exact ⟨tests_same h, fun _ _ _ _ tc _ out => testreportCase_eq_put out tc,
      fun suites hsuites ts hts pre tc post e => junit_put_of_errorsMark h hsuites hts e⟩

/-- Where the readers agree, they write the same conf files. -/
theorem confs_same {files : List (List Suite)} (h : ErrorsMark files) :
    ∃ others lists, parseTestreportResultXml (files.map .ofSuites) =
      .ok (parseJunitResultXml (files.map .ofSuites) ++ others, lists) := by
  rw [parseTestreportResultXml, tests_same h, parseJunitResultXml]
  simp only [bind, Except.bind, pure, Except.pure]
  obtain ⟨passed, failed⟩ := junitTests (files.map .ofSuites)
  cases failed with
  | nil => cases passed <;> exact ⟨_, _, rfl⟩
  | cons f failed => cases passed <;> exact ⟨_, _, rfl⟩

/-- A suite in which a test case with an error is followed by one that passed. -/
def passAfterError : List (List Suite) :=
  [[⟨⟨"pytest", "1", "0", "0", "3.1", "2"⟩,
    [⟨"test_a", "tests", "1.5", "a.py", [⟨"boom", some "trace"⟩], []⟩,
      ⟨"test_b", "tests", "1.6", "b.py", [], []⟩]⟩]]

theorem junitTests_passAfterError :
    junitTests (passAfterError.map .ofSuites) = ⟨[], ["test_a"]⟩ := by
  rw [junitTests_ofSuites]
  decide

/-- The test case that passed is in neither list. -/
theorem passAfterError_not_alike : ¬ ReadsAlike passAfterError := by
  intro h
  have hsame := h.same
  rw [junitTests_passAfterError, testreportTests_ofSuites] at hsame
  exact absurd (Except.ok.inj hsame) (by decide)

end MobileTestkit.L4.JunitReports
