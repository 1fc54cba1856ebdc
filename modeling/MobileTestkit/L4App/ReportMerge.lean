import Mathlib.Data.List.Dedup
import MobileTestkit.Core.ExceptLoop
import MobileTestkit.Core.PyDict
import MobileTestkit.L4App.JunitReports

/-!
# Merging junit reports

Model of `merge_reports` (utilities/xml_parser.py): the test cases of all the
downloaded reports go into one dictionary by their filtered name, a later one
replacing an earlier one, with two counters that are raised for every error and
failure element and lowered when a test is seen again without one.

The reports are the parsed files in the order `glob` lists them. `testsuites` stays
empty, so the branch that takes a suite from it is never taken. `strFloat` is
`str(float(t))`, `none` where `float` raises. A record the dictionary returns is the
one it holds, so writing its fields is an assignment to the entry.

* `mergeCase_ok_iff`: a test case is refused exactly when its filtered name is a
  rearrangement of another one.
* `Inv`: a counter is off by the elements that were replaced less the repetitions
  without one; `mergeCase_inv` keeps it.
* `countsRight_iff`: the merged counts are right exactly when no two filtered names
  are rearrangements of each other and, for errors and for failures, the two sides
  of that difference are equal.
-/
namespace MobileTestkit.L4.ReportMerge

open MobileTestkit.Core
open MobileTestkit.L4.JunitReports

/-- The two elements a test case may carry. -/
inductive Verdict where
  | error
  | failure
  deriving DecidableEq, Repr

def Verdict.elems (tc : Case) : Verdict → List Elem
  | .error => tc.errors
  | .failure => tc.failures

/-- An entry of `tests`. -/
structure Record where
  name : String
  time : String
  error : String
  failureMessage : String
  errorMessage : String
  failure : String
  classname : String
  file : String
  deriving DecidableEq, Repr

def Verdict.text (r : Record) : Verdict → String
  | .error => r.error
  | .failure => r.failure

structure St where
  tests : PyDict String Record
  /-- The attributes of the last suite read, `testsuite`. -/
  suite : Option SuiteAttrs
  errors : Int
  failures : Int

def St.init : St := ⟨.empty, none, 0, 0⟩

def St.counter (st : St) : Verdict → Int
  | .error => st.errors
  | .failure => st.failures

def St.add (st : St) (n : Int) : Verdict → St
  | .error => { st with errors := st.errors + n }
  | .failure => { st with failures := st.failures + n }

/-- mirrors utilities/xml_parser.py:358-362 -/
def compareWithSort (tests : PyDict String Record) (key : String) : Bool :=
  tests.keys.any fun k => decide (LookLike k key)

/-- The text and the message of the first element, empty without one. -/
def verdictText : List Elem → Except Exn (String × String)
  | [] => .ok ("", "")
  | e :: _ =>
    match e.text with
    | none => .error .attributeError
    | some text => .ok (text, e.message)

/-- The fields written for a test case.
mirrors utilities/xml_parser.py:273-290 -/
def record (tc : Case) : Except Exn Record := do
  let error ← verdictText tc.errors
  let failure ← verdictText tc.failures
  return { name := tc.name, time := tc.time, error := error.1, failureMessage := failure.2,
           errorMessage := error.2, failure := failure.1, classname := tc.classname, file := tc.file }

/-- `errors += 1`, `failures += 1`. -/
def St.raise (st : St) (tc : Case) (v : Verdict) : St :=
  if (v.elems tc).isEmpty then st else st.add 1 v

/-- For a test seen before: without the element, the counter is lowered and the entry
goes last.
mirrors utilities/xml_parser.py:291-299 -/
def St.lower (st : St) (key : String) (r : Record) (v : Verdict) : St :=
  if v.text r = "" then { st.add (-1) v with tests := (st.tests.erase key).set key r } else st

/-- mirrors utilities/xml_parser.py:262-301 -/
def mergeCase (st : St) (tc : Case) : Except Exn St :=
  let key := filterFields tc.name
  let known := compareWithSort st.tests key
  if known && (st.tests.get? key).isNone then .error (.keyError key)
  else do
    let testcase ← record tc
    let st := (st.raise tc .error).raise tc .failure
    let st := if known then { st with tests := st.tests.set key testcase } else st
    if (st.tests.get? key).isSome then
      return (st.lower key testcase .failure).lower key testcase .error
    else
      return { st with tests := st.tests.set key testcase }

/-- mirrors utilities/xml_parser.py:241-301 -/
def mergeSuite (st : St) (ts : Suite) : Except Exn St :=
  ts.cases.foldlM mergeCase { st with suite := some ts.attrs }

/-- mirrors utilities/xml_parser.py:236-301 -/
def mergeDoc (st : St) (doc : Document) : Except Exn St := do
  let suites ← doc.rootSuites
  suites.foldlM mergeSuite st

/-- A `testcase` element of the merged file; an error or failure has its message and
its text. -/
structure OutCase where
  name : String
  classname : String
  file : String
  time : String
  failure : Option (String × String)
  error : Option (String × String)
  deriving DecidableEq, Repr

def Verdict.written (c : OutCase) : Verdict → Option (String × String)
  | .error => c.error
  | .failure => c.failure

/-- The one suite of the merged file. -/
structure Merged where
  errors : String
  failures : String
  skips : String
  tests : String
  time : String
  name : String
  cases : List OutCase
  deriving DecidableEq, Repr

def Verdict.attr (m : Merged) : Verdict → String
  | .error => m.errors
  | .failure => m.failures

/-- mirrors utilities/xml_parser.py:319-347 -/
def writeCase (strFloat : String → Option String) (r : Record) : Except Exn OutCase :=
  match strFloat r.time with
  | none => .error .valueError
  | some time =>
    .ok { name := r.name, classname := r.classname, file := r.file, time := time,
          failure := if r.failure = "" then none else some (r.failureMessage, r.failure),
          error := if r.error = "" then none else some (r.errorMessage, r.error) }

/-- mirrors utilities/xml_parser.py:233-355 -/
def mergeReports (strFloat : String → Option String) (docs : List Document) : Except Exn Merged := do
  let st ← docs.foldlM mergeDoc .init
  match st.suite with
  | none => .error (.keyError "skips")
  | some suite =>
    let cases ← st.tests.items.mapM fun kv => writeCase strFloat kv.2
    return { errors := toString st.errors, failures := toString st.failures, skips := suite.skips,
             tests := toString st.tests.keys.length, time := suite.time, name := "pytest",
             cases := cases }

/-! ## The counts as they should be -/

/-- The filtered name, by which a test is known. -/
def key (tc : Case) : String := filterFields tc.name

/-- The test case carries the element. -/
def has (v : Verdict) (tc : Case) : Bool := !(v.elems tc).isEmpty

/-- The test cases of the reports, in the order they are read. -/
def reportCases (docs : List Document) : List Case := docs.flatMap fun doc => doc.suites.flatMap Suite.cases

/-- The call returns, and the file it writes counts the tests by their filtered name,
and the errors and failures by the elements it holds. -/
def CountsRight (strFloat : String → Option String) (docs : List Document) : Prop :=
  ∃ m, mergeReports strFloat docs = .ok m ∧
    m.tests = toString ((reportCases docs).map key).dedup.length ∧
    ∀ v : Verdict, v.attr m = toString (m.cases.countP fun c => (v.written c).isSome)

/-- Test cases with the element that are read again later. -/
def superseded (v : Verdict) : List Case → Nat
  | [] => 0
  | tc :: rest => (has v tc && rest.any fun b => key b = key tc).toNat + superseded v rest

/-- Test cases without the element that were read before; `seen` are the names of
those read so far. -/
def repeats (v : Verdict) (seen : List String) : List Case → Nat
  | [] => 0
  | tc :: rest => (!has v tc && decide (key tc ∈ seen)).toNat + repeats v (seen ++ [key tc]) rest

/-- No filtered name is a rearrangement of another one. -/
def Apart (cases : List Case) : Prop :=
  ∀ a ∈ cases, ∀ b ∈ cases, LookLike (key a) (key b) → key a = key b

/-- The last test case with a name. -/
def lastOf (k : String) (cases : List Case) : Option Case := cases.reverse.find? fun tc => key tc = k

theorem lastOf_append (k : String) (cases : List Case) (tc : Case) :
    lastOf k (cases ++ [tc]) = if k = key tc then some tc else lastOf k cases := by
  simp only [lastOf, List.reverse_append, List.reverse_singleton, List.singleton_append,
    List.find?_cons]
  by_cases h : k = key tc
  · simp [h]
  · simp [h, Ne.symm h]

theorem lastOf_isSome (k : String) (cases : List Case) :
    (lastOf k cases).isSome ↔ ∃ a ∈ cases, key a = k := by
  simp [lastOf]

theorem lastOf_cons (k : String) (tc : Case) (cases : List Case) :
    lastOf k (tc :: cases) = (lastOf k cases).or (if key tc = k then some tc else none) := by
  rw [lastOf, List.reverse_cons, List.find?_append]
  by_cases h : key tc = k <;> simp [lastOf, h]

theorem superseded_append (v : Verdict) (cases : List Case) (tc : Case) :
    superseded v (cases ++ [tc]) =
      superseded v cases + (lastOf (key tc) cases).elim 0 (fun a => (has v a).toNat) := by
  induction cases with
  | nil => simp [superseded, lastOf]
  | cons a rest ih =>
    rw [List.cons_append, superseded, superseded, ih, lastOf_cons, List.any_append]
    by_cases ha : key a = key tc
    · -- `a` is superseded by `tc` at the latest, and is the last one if nothing in between is
      have hany : (rest.any fun b => decide (key b = key a)) = (lastOf (key tc) rest).isSome := by
        rw [Bool.eq_iff_iff, lastOf_isSome]
        simp [ha]
      rw [hany]
      cases lastOf (key tc) rest with
      | none => simp [ha, Nat.add_comm]
      | some b => simp [ha, Nat.add_assoc]
    · simp [ha, Ne.symm ha, Nat.add_assoc]

theorem repeats_append (v : Verdict) (seen : List String) (cases : List Case) (tc : Case) :
    repeats v seen (cases ++ [tc]) =
      repeats v seen cases + (!has v tc && decide (key tc ∈ seen ++ cases.map key)).toNat := by
  induction cases generalizing seen with
  | nil => simp [repeats]
  | cons a rest ih =>
    rw [List.cons_append, repeats, repeats, ih]
    simp [Nat.add_assoc]

/-! ## One test case -/

/-- Every error and failure element has a text. -/
def Texts (tc : Case) : Prop := ∀ v : Verdict, ∀ e ∈ v.elems tc, ∃ text, e.text = some text ∧ text ≠ ""

/-- The record written for a test case whose elements have a text. -/
def recordOf (tc : Case) : Record :=
  let first (elems : List Elem) : String × String :=
    elems.head?.elim ("", "") fun e => (e.text.getD "", e.message)
  { name := tc.name, time := tc.time, error := (first tc.errors).1,
    failureMessage := (first tc.failures).2, errorMessage := (first tc.errors).2,
    failure := (first tc.failures).1, classname := tc.classname, file := tc.file }

theorem verdictText_eq {elems : List Elem} (h : ∀ e ∈ elems, ∃ text, e.text = some text ∧ text ≠ "") :
    verdictText elems = .ok (elems.head?.elim ("", "") fun e => (e.text.getD "", e.message)) := by
  cases elems with
  | nil => rfl
  | cons e rest =>
    obtain ⟨text, htext, -⟩ := h e List.mem_cons_self
    simp [verdictText, htext]

theorem record_eq {tc : Case} (h : Texts tc) : record tc = .ok (recordOf tc) := by
  have herror : verdictText tc.errors = _ := verdictText_eq (h .error)
  have hfailure : verdictText tc.failures = _ := verdictText_eq (h .failure)
  rw [record, herror, hfailure]
  rfl

theorem text_recordOf {tc : Case} (h : Texts tc) (v : Verdict) :
    v.text (recordOf tc) = "" ↔ has v tc = false := by
  have hfirst : ∀ elems : List Elem, (∀ e ∈ elems, ∃ text, e.text = some text ∧ text ≠ "") →
      ((elems.head?.elim ("", "") fun e => (e.text.getD "", e.message)).1 = "" ↔
        (!elems.isEmpty) = false) := by
    intro elems he
    cases elems with
    | nil => simp
    | cons e rest =>
      obtain ⟨text, htext, hne⟩ := he e List.mem_cons_self
      simp [htext, hne]
  cases v with
  | error => exact hfirst _ (h .error)
  | failure => exact hfirst _ (h .failure)

/-- The record shows the element. -/
def shows (v : Verdict) (r : Record) : Bool := decide (v.text r ≠ "")

theorem shows_recordOf {tc : Case} (h : Texts tc) (v : Verdict) : shows v (recordOf tc) = has v tc := by
  rw [shows, Bool.eq_iff_iff, decide_eq_true_iff, ne_eq, text_recordOf h, Bool.not_eq_false]

/-- What a test case that is not refused leaves. -/
structure Merges (st : St) (tc : Case) (st' : St) : Prop where
  entry : ∀ k, st'.tests.get? k = (st.tests.set (key tc) (recordOf tc)).get? k
  counter : ∀ v, st'.counter v + (!has v tc && (st.tests.get? (key tc)).isSome).toNat =
    st.counter v + (has v tc).toNat
  suite : st'.suite = st.suite

@[simp] theorem raise_tests (st : St) (tc : Case) (v : Verdict) : (st.raise tc v).tests = st.tests := by
  rw [St.raise]
  cases v <;> split <;> rfl

@[simp] theorem raise_suite (st : St) (tc : Case) (v : Verdict) : (st.raise tc v).suite = st.suite := by
  rw [St.raise]
  cases v <;> split <;> rfl

theorem raise_counter (st : St) (tc : Case) (v w : Verdict) :
    (st.raise tc v).counter w = st.counter w + (decide (w = v) && has v tc).toNat := by
  rw [St.raise, has]
  cases (v.elems tc).isEmpty with
  | true => simp
  | false => cases v <;> cases w <;> simp [St.add, St.counter]

@[simp] theorem lower_suite (st : St) (k : String) (r : Record) (v : Verdict) :
    (st.lower k r v).suite = st.suite := by
  rw [St.lower]
  cases v <;> split <;> rfl

/-- Deleting the entry and writing it again changes no entry. -/
theorem lower_get? {st : St} {k : String} {r : Record} (h : st.tests.get? k = some r) (v : Verdict)
    (k' : String) : (st.lower k r v).tests.get? k' = st.tests.get? k' := by
  rw [St.lower]
  split
  · by_cases hk : k' = k <;> simp [hk, h]
  · rfl

theorem lower_counter (st : St) (k : String) (r : Record) (v w : Verdict) :
    (st.lower k r v).counter w = st.counter w - (decide (w = v) && !shows v r).toNat := by
  rw [St.lower, shows]
  by_cases h : v.text r = ""
  · cases v <;> cases w <;> simp [h, St.add, St.counter, Int.sub_eq_add_neg]
  · simp [h]

theorem compareWithSort_iff (tests : PyDict String Record) (k : String) :
    compareWithSort tests k = true ↔ ∃ k', (tests.get? k').isSome ∧ LookLike k' k := by
  simp [compareWithSort, PyDict.mem_keys]

theorem filterFields_name (tc : Case) : filterFields tc.name = key tc := rfl

/-- `errors` and `failures` after a test case, before it is looked up. -/
def St.raised (st : St) (tc : Case) : St := (st.raise tc .error).raise tc .failure

@[simp] theorem raised_tests (st : St) (tc : Case) : (st.raised tc).tests = st.tests := by
  rw [St.raised, raise_tests, raise_tests]

@[simp] theorem raised_suite (st : St) (tc : Case) : (st.raised tc).suite = st.suite := by
  rw [St.raised, raise_suite, raise_suite]

@[simp] theorem raised_counter (st : St) (tc : Case) (v : Verdict) :
    (st.raised tc).counter v = st.counter v + (has v tc).toNat := by
  rw [St.raised, raise_counter, raise_counter]
  cases v <;> simp

/-- The first test case with its name. -/
theorem mergeCase_new {st : St} {tc : Case} (ht : Texts tc) (hget : st.tests.get? (key tc) = none)
    (hc : compareWithSort st.tests (key tc) = false) :
    ∃ st', mergeCase st tc = .ok st' ∧ Merges st tc st' := by
  refine ⟨{ st.raised tc with tests := st.tests.set (key tc) (recordOf tc) }, ?_, fun k => rfl, ?_, ?_⟩
  · simp [mergeCase, filterFields_name, record_eq ht, hget, hc, St.raised, bind, Except.bind, pure,
      Except.pure]
  · intro v
    have := raised_counter st tc v
    simp only [St.counter] at this ⊢
    cases v <;> simp [hget, this]
  · exact raised_suite st tc

/-- A test case whose test is in the dictionary: its record is replaced. -/
theorem mergeCase_again {st : St} {tc : Case} {r : Record} (ht : Texts tc)
    (hget : st.tests.get? (key tc) = some r) : ∃ st', mergeCase st tc = .ok st' ∧ Merges st tc st' := by
  have hc : compareWithSort st.tests (key tc) = true :=
    (compareWithSort_iff _ _).mpr ⟨key tc, by simp [hget], rfl⟩
  let stored : St := { st.raised tc with tests := st.tests.set (key tc) (recordOf tc) }
  have hstored : stored.tests.get? (key tc) = some (recordOf tc) := by simp [stored]
  refine ⟨(stored.lower (key tc) (recordOf tc) .failure).lower (key tc) (recordOf tc) .error, ?_,
    fun k => ?_, fun v => ?_, ?_⟩
  · simp [mergeCase, filterFields_name, record_eq ht, hget, hc, St.raised, bind, Except.bind, pure,
      Except.pure, stored]
  · rw [lower_get? (by rw [lower_get? hstored, hstored]), lower_get? hstored]
  · have hraised : stored.counter v = st.counter v + (has v tc).toNat := raised_counter st tc v
    rw [lower_counter, lower_counter, shows_recordOf ht, shows_recordOf ht, hraised, hget]
    cases v <;> simp
  · rw [lower_suite, lower_suite]
    exact raised_suite st tc

/-- A test case is refused when a name looks like its own and is not there itself;
else it is merged. -/
theorem mergeCase_cases (st : St) {tc : Case} (ht : Texts tc) :
    (st.tests.get? (key tc) = none ∧ (∃ k, (st.tests.get? k).isSome ∧ LookLike k (key tc)) ∧
        mergeCase st tc = .error (.keyError (key tc))) ∨
      ((st.tests.get? (key tc) = none → ∀ k, (st.tests.get? k).isSome → ¬ LookLike k (key tc)) ∧
        ∃ st', mergeCase st tc = .ok st' ∧ Merges st tc st') := by
  have hknown := compareWithSort_iff st.tests (key tc)
  cases hget : st.tests.get? (key tc) with
  | none =>
    cases hc : compareWithSort st.tests (key tc) with
    | true =>
      refine .inl ⟨rfl, hknown.mp hc, ?_⟩
      simp [mergeCase, filterFields_name, hget, hc]
    | false =>
      refine .inr ⟨fun _ k hk hlike => ?_, mergeCase_new ht hget hc⟩
      rw [hknown.mpr ⟨k, hk, hlike⟩] at hc
      cases hc
  | some r => exact .inr ⟨fun h => absurd h (Option.some_ne_none r), mergeCase_again ht hget⟩

/-! ## All test cases -/

/-- After the given test cases: the dictionary holds the last one of each name, no two
names look alike, and a counter exceeds the records that show the element by those
replaced, less the repetitions without it. -/
structure Inv (cases : List Case) (st : St) : Prop where
  texts : ∀ tc ∈ cases, Texts tc
  apart : Apart cases
  entry : ∀ k, st.tests.get? k = (lastOf k cases).map recordOf
  counter : ∀ v, st.counter v + repeats v [] cases = st.tests.count (shows v) + superseded v cases

theorem inv_init : Inv [] .init where
  texts := by simp
  apart := by simp [Apart]
  entry := by simp [St.init, PyDict.empty, PyDict.get?, lastOf]
  counter v := by cases v <;> rfl

theorem Inv.isSome {cases : List Case} {st : St} (h : Inv cases st) (k : String) :
    (st.tests.get? k).isSome ↔ ∃ a ∈ cases, key a = k := by
  rw [h.entry, Option.isSome_map, lastOf_isSome]

theorem apart_append {cases : List Case} {tc : Case} (h : Apart cases) :
    Apart (cases ++ [tc]) ↔ ∀ a ∈ cases, LookLike (key a) (key tc) → key a = key tc := by
  constructor
  · intro happ a ha hlike
    exact happ a (List.mem_append_left _ ha) tc (by simp) hlike
  · intro hnew a ha b hb hlike
    rcases List.mem_append.mp ha with ha | ha <;> rcases List.mem_append.mp hb with hb | hb
    · exact h a ha b hb hlike
    · rw [List.mem_singleton.mp hb] at hlike ⊢
      exact hnew a ha hlike
    · rw [List.mem_singleton.mp ha] at hlike ⊢
      exact (hnew b hb hlike.symm).symm
    · rw [List.mem_singleton.mp ha, List.mem_singleton.mp hb]

/-- A test case is merged exactly when its name is no rearrangement of another one. -/
theorem mergeCase_ok_iff {cases : List Case} {st : St} {tc : Case} (h : Inv cases st) (ht : Texts tc) :
    (∃ st', mergeCase st tc = .ok st') ↔ Apart (cases ++ [tc]) := by
  rw [apart_append h.apart]
  rcases mergeCase_cases st ht with ⟨hnone, ⟨k, hk, hlike⟩, herr⟩ | ⟨hnew, st', hok, -⟩
  · rw [herr]
    refine ⟨fun ⟨_, h⟩ => (nomatch h), fun happ => ?_⟩
    obtain ⟨a, ha, rfl⟩ := (h.isSome k).mp hk
    rw [happ a ha hlike, hnone] at hk
    cases hk
  · refine ⟨fun _ a ha hlike => ?_, fun _ => ⟨st', hok⟩⟩
    have hsome : (st.tests.get? (key a)).isSome := (h.isSome _).mpr ⟨a, ha, rfl⟩
    cases hget : st.tests.get? (key tc) with
    | none => exact absurd hlike (hnew hget _ hsome)
    | some r =>
      obtain ⟨b, hb, hkey⟩ := (h.isSome (key tc)).mp (by simp [hget])
      rw [← hkey] at hlike ⊢
      exact h.apart a ha b hb hlike

theorem merges_counter {cases : List Case} {st st' : St} {tc : Case} (h : Inv cases st) (ht : Texts tc)
    (hm : Merges st tc st') (v : Verdict) :
    st'.counter v + repeats v [] (cases ++ [tc]) =
      st'.tests.count (shows v) + superseded v (cases ++ [tc]) := by
  have hcount := PyDict.count_set (shows v) st.tests (key tc) (recordOf tc)
  have hseen : decide (key tc ∈ [] ++ cases.map key) = (lastOf (key tc) cases).isSome := by
    rw [Bool.eq_iff_iff, lastOf_isSome]
    simp
  have hcounter := hm.counter v
  have hbefore := h.counter v
  rw [PyDict.count_congr hm.entry, superseded_append, repeats_append, hseen]
  rw [shows_recordOf ht, h.entry] at hcount
  rw [h.entry, Option.isSome_map] at hcounter
  cases hlast : lastOf (key tc) cases with
  | none =>
    simp only [hlast, Option.map_none, Option.elim_none, Option.isSome_none, Bool.and_false,
      Bool.toNat_false] at hcount hcounter ⊢
    omega
  | some a =>
    have ha : Texts a := h.texts a (List.mem_reverse.mp (List.mem_of_find?_eq_some hlast))
    simp only [hlast, Option.map_some, Option.elim_some, Option.isSome_some, Bool.and_true,
      shows_recordOf ha] at hcount hcounter ⊢
    omega

theorem mergeCase_inv {cases : List Case} {st st' : St} {tc : Case} (h : Inv cases st) (ht : Texts tc)
    (hok : mergeCase st tc = .ok st') : Inv (cases ++ [tc]) st' ∧ st'.suite = st.suite := by
  have happ := (mergeCase_ok_iff h ht).mp ⟨st', hok⟩
  rcases mergeCase_cases st ht with ⟨-, -, herr⟩ | ⟨-, st'', hok', hm⟩
  · rw [herr] at hok
    cases hok
  · rw [hok] at hok'
    obtain rfl := Except.ok.inj hok'
    have htexts : ∀ a ∈ cases ++ [tc], Texts a :=
      List.forall_mem_append.mpr ⟨h.texts, List.forall_mem_singleton.mpr ht⟩
    refine ⟨⟨htexts, happ, fun k => ?_, merges_counter h ht hm⟩, hm.suite⟩
    rw [hm.entry, PyDict.get?_set, lastOf_append, h.entry]
    split <;> rfl

/-- The attributes of the suite play no part. -/
theorem Inv.withSuite {cases : List Case} {st : St} (h : Inv cases st) (attrs : SuiteAttrs) :
    Inv cases { st with suite := some attrs } := ⟨h.texts, h.apart, h.entry, h.counter⟩

theorem Apart.mono {cases cases' : List Case} (h : Apart cases') (hsub : ∀ a ∈ cases, a ∈ cases') :
    Apart cases := fun a ha b hb => h a (hsub a ha) b (hsub b hb)

theorem mergeSuite_inv {cases : List Case} {st st' : St} {ts : Suite} (h : Inv cases st)
    (ht : ∀ tc ∈ ts.cases, Texts tc) (hok : mergeSuite st ts = .ok st') :
    Inv (cases ++ ts.cases) st' ∧ st'.suite.isSome := by
  rw [mergeSuite] at hok
  refine Loop.foldlM_inv (I := fun cs s => Inv cs s ∧ s.suite.isSome) ?_ ⟨h.withSuite ts.attrs, rfl⟩ hok
  intro pre s tc s' htc hs hstep
  obtain ⟨hinv, hsuite⟩ := mergeCase_inv hs.1 (ht tc htc) hstep
  exact ⟨hinv, hsuite ▸ hs.2⟩

theorem mergeSuite_runs {cases : List Case} {st : St} {ts : Suite} (h : Inv cases st)
    (ht : ∀ tc ∈ ts.cases, Texts tc) (happ : Apart (cases ++ ts.cases)) :
    ∃ st', mergeSuite st ts = .ok st' := by
  have hstep : ∀ pre s tc post, cases ++ ts.cases = pre ++ tc :: post → Inv pre s →
      ∃ s', mergeCase s tc = .ok s' ∧ Inv (pre ++ [tc]) s' := by
    intro pre s tc post hsplit hs
    have htc : Texts tc := List.forall_mem_append.mpr ⟨h.texts, ht⟩ tc (by simp [hsplit])
    rw [hsplit, ← List.singleton_append, ← List.append_assoc] at happ
    obtain ⟨s', hs'⟩ := (mergeCase_ok_iff hs htc).mpr
      (happ.mono fun a ha => List.mem_append_left _ ha)
    exact ⟨s', hs', (mergeCase_inv hs htc hs').1⟩
  obtain ⟨st', hrun, -⟩ := Loop.foldlM_runs hstep (h.withSuite ts.attrs)
  exact ⟨st', hrun⟩

/-- The loop over the files is one loop over their suites. -/
theorem foldlM_mergeDoc (docs : List Document) (st : St)
    (h : ∀ doc ∈ docs, doc.rootSuites = .ok doc.suites) :
    docs.foldlM mergeDoc st = (docs.flatMap Document.suites).foldlM mergeSuite st := by
  induction docs generalizing st with
  | nil => rfl
  | cons doc rest ih =>
    rw [List.foldlM_cons, List.flatMap_cons, List.foldlM_append, mergeDoc, h doc List.mem_cons_self]
    congr 1
    funext st'
    exact ih st' fun d hd => h d (List.mem_cons_of_mem _ hd)

theorem mergeSuites_inv {suites : List Suite} {st : St} (ht : ∀ ts ∈ suites, ∀ tc ∈ ts.cases, Texts tc)
    (hok : suites.foldlM mergeSuite .init = .ok st) :
    Inv (suites.flatMap Suite.cases) st ∧ (suites ≠ [] → st.suite.isSome) := by
  have hstep : ∀ pre s ts s', ts ∈ suites →
      Inv (pre.flatMap Suite.cases) s ∧ (pre ≠ [] → s.suite.isSome) → mergeSuite s ts = .ok s' →
      Inv ((pre ++ [ts]).flatMap Suite.cases) s' ∧ (pre ++ [ts] ≠ [] → s'.suite.isSome) := by
    intro pre s ts s' hts hs hstep
    obtain ⟨hinv, hsuite⟩ := mergeSuite_inv hs.1 (ht ts hts) hstep
    exact ⟨by simpa using hinv, fun _ => hsuite⟩
  have hstart : Inv (([] : List Suite).flatMap Suite.cases) .init ∧
      (([] : List Suite) ≠ [] → St.init.suite.isSome) := ⟨inv_init, by simp⟩
  simpa using Loop.foldlM_inv (I := fun done s => Inv (done.flatMap Suite.cases) s ∧
    (done ≠ [] → s.suite.isSome)) hstep hstart hok

theorem mergeSuites_runs {suites : List Suite} (ht : ∀ ts ∈ suites, ∀ tc ∈ ts.cases, Texts tc)
    (happ : Apart (suites.flatMap Suite.cases)) : ∃ st, suites.foldlM mergeSuite .init = .ok st := by
  have hstep : ∀ pre s ts post, [] ++ suites = pre ++ ts :: post → Inv (pre.flatMap Suite.cases) s →
      ∃ s', mergeSuite s ts = .ok s' ∧ Inv ((pre ++ [ts]).flatMap Suite.cases) s' := by
    intro pre s ts post hsplit hs
    rw [List.nil_append] at hsplit
    have hts := ht ts (by simp [hsplit])
    rw [hsplit, List.flatMap_append, List.flatMap_cons, ← List.append_assoc] at happ
    obtain ⟨s', hs'⟩ := mergeSuite_runs hs hts (happ.mono fun a ha => List.mem_append_left _ ha)
    refine ⟨s', hs', ?_⟩
    simpa using (mergeSuite_inv hs hts hs').1
  obtain ⟨st, hrun, -⟩ := Loop.foldlM_runs (I := fun done s => Inv (done.flatMap Suite.cases) s)
    hstep inv_init
  exact ⟨st, hrun⟩

/-! ## The merged file -/

theorem writeCase_ok {strFloat : String → Option String} {r : Record} {c : OutCase}
    (h : writeCase strFloat r = .ok c) (v : Verdict) : (v.written c).isSome = shows v r := by
  rw [writeCase] at h
  split at h
  · cases h
  · obtain rfl := Except.ok.inj h
    cases v with
    | error => by_cases he : r.error = "" <;> simp [Verdict.written, shows, Verdict.text, he]
    | failure => by_cases he : r.failure = "" <;> simp [Verdict.written, shows, Verdict.text, he]

theorem countP_of_forall₂ {α β : Type} {R : α → β → Prop} {p : α → Bool} {q : β → Bool} {l : List α}
    {l' : List β} (h : List.Forall₂ R l l') (hpq : ∀ a b, R a b → q b = p a) :
    l'.countP q = l.countP p := by
  induction h with
  | nil => rfl
  | cons hab _ ih => rw [List.countP_cons, List.countP_cons, ih, hpq _ _ hab]

/-- The dictionary has one entry for each name. -/
theorem Inv.length_keys {cases : List Case} {st : St} (h : Inv cases st) :
    st.tests.keys.length = (cases.map key).dedup.length := by
  refine ((List.perm_ext_iff_of_nodup st.tests.nodup (List.nodup_dedup _)).mpr fun k => ?_).length_eq
  rw [List.mem_dedup, ← PyDict.keys, PyDict.mem_keys, h.isSome]
  simp

/-- What the reports of the list are like: there is one, each has a `testsuites` root and
a suite, every time is a number and every error and failure has a text. -/
structure Downloaded (strFloat : String → Option String) (docs : List Document) : Prop where
  nonempty : docs ≠ []
  root : ∀ doc ∈ docs, ∃ suites, doc.rootSuites = .ok suites ∧ suites ≠ []
  time : ∀ tc ∈ reportCases docs, (strFloat tc.time).isSome
  texts : ∀ tc ∈ reportCases docs, Texts tc

section

variable {strFloat : String → Option String} {docs : List Document}

theorem Downloaded.rootSuites (h : Downloaded strFloat docs) {doc : Document} (hdoc : doc ∈ docs) :
    doc.rootSuites = .ok doc.suites ∧ doc.suites ≠ [] := by
  obtain ⟨suites, hroot, hne⟩ := h.root doc hdoc
  cases doc with
  | testsuites entries =>
    obtain rfl : suitesOf entries = suites := Except.ok.inj hroot
    exact ⟨rfl, hne⟩
  | testsuite attrs entries => cases hroot

theorem Downloaded.suites_ne_nil (h : Downloaded strFloat docs) : docs.flatMap Document.suites ≠ [] := by
  obtain ⟨doc, rest, rfl⟩ := List.exists_cons_of_ne_nil h.nonempty
  simp [(h.rootSuites (List.mem_cons_self)).2]

/-- The loops over files, suites and test cases are done exactly when no two names look
alike, and then the state satisfies the invariant. -/
theorem Downloaded.merge (h : Downloaded strFloat docs) :
    (Apart (reportCases docs) → ∃ st, docs.foldlM mergeDoc .init = .ok st) ∧
      ∀ st, docs.foldlM mergeDoc .init = .ok st → Inv (reportCases docs) st ∧ st.suite.isSome := by
  have hcases : reportCases docs = (docs.flatMap Document.suites).flatMap Suite.cases := by
    rw [reportCases, List.flatMap_assoc]
  have ht : ∀ ts ∈ docs.flatMap Document.suites, ∀ tc ∈ ts.cases, Texts tc := by
    intro ts hts tc htc
    exact h.texts tc (hcases ▸ List.mem_flatMap.mpr ⟨ts, hts, htc⟩)
  rw [foldlM_mergeDoc docs _ fun doc hdoc => (h.rootSuites hdoc).1, hcases]
  refine ⟨mergeSuites_runs ht, fun st hst => ?_⟩
  obtain ⟨hinv, hsuite⟩ := mergeSuites_inv ht hst
  exact ⟨hinv, hsuite h.suites_ne_nil⟩

/-- What is written for a state that satisfies the invariant. -/
theorem Downloaded.write (h : Downloaded strFloat docs) {st : St}
    (hrun : docs.foldlM mergeDoc .init = .ok st) :
    ∃ m, mergeReports strFloat docs = .ok m ∧
      m.tests = toString ((reportCases docs).map key).dedup.length ∧
      ∀ v : Verdict, v.attr m = toString (st.counter v) ∧
        (m.cases.countP fun c => (v.written c).isSome) = st.tests.count (shows v) := by
  obtain ⟨hinv, hsuite⟩ := h.merge.2 st hrun
  obtain ⟨suite, hsuite⟩ := Option.isSome_iff_exists.mp hsuite
  have htimes : ∀ kv ∈ st.tests.items, ∃ c, writeCase strFloat kv.2 = .ok c := by
    rintro ⟨k, r⟩ hkv
    rw [PyDict.mem_items_iff, hinv.entry, Option.map_eq_some_iff] at hkv
    obtain ⟨tc, hlast, rfl⟩ := hkv
    have htc : tc ∈ reportCases docs := List.mem_reverse.mp (List.mem_of_find?_eq_some hlast)
    obtain ⟨time, htime⟩ := Option.isSome_iff_exists.mp (h.time tc htc)
    have hrecord : strFloat (recordOf tc).time = some time := htime
    exact ⟨_, by rw [writeCase, hrecord]⟩
  obtain ⟨cases, hcases⟩ := Loop.mapM_runs htimes
  have hwritten := fun v : Verdict =>
    countP_of_forall₂ (Loop.mapM_forall₂ hcases) fun kv c hc => writeCase_ok hc v
  refine ⟨⟨toString st.errors, toString st.failures, suite.skips, toString st.tests.keys.length,
    suite.time, "pytest", cases⟩, ?_, ?_, fun v => ⟨?_, hwritten v⟩⟩
  · rw [mergeReports, hrun]
    simp only [bind, Except.bind, hsuite] at hcases ⊢
    rw [hcases]
    rfl
  · exact congrArg toString hinv.length_keys
  · cases v <;> rfl

/-- The merged counts are right exactly when no two names look alike and, for errors and
failures alike, as many elements were replaced as tests came again without one. -/
theorem countsRight_iff (h : Downloaded strFloat docs) :
    CountsRight strFloat docs ↔ Apart (reportCases docs) ∧
      ∀ v, superseded v (reportCases docs) = repeats v [] (reportCases docs) := by
  -- the counters in terms of the two sides, for a run that is done
  have hdone : ∀ st, docs.foldlM mergeDoc .init = .ok st →
      (CountsRight strFloat docs ↔
        ∀ v, superseded v (reportCases docs) = repeats v [] (reportCases docs)) := by
    intro st hrun
    obtain ⟨hinv, -⟩ := h.merge.2 st hrun
    obtain ⟨m, hm, htests, hv⟩ := h.write hrun
    have hcount : ∀ v : Verdict,
        (v.attr m = toString (m.cases.countP fun c => (v.written c).isSome)) ↔
          superseded v (reportCases docs) = repeats v [] (reportCases docs) := by
      intro v
      have hcounter := hinv.counter v
      rw [(hv v).1, (hv v).2]
      constructor
      · intro hstr
        have := PyStr.toString_int_inj (m := st.counter v) (n := (st.tests.count (shows v) : Nat)) hstr
        omega
      · intro heq
        have hint : st.counter v = (st.tests.count (shows v) : Nat) := by omega
        rw [hint]
        rfl
    rw [CountsRight, hm]
    constructor
    · rintro ⟨m', hm', -, hright⟩ v
      obtain rfl := Except.ok.inj hm'
      exact (hcount v).mp (hright v)
    · exact fun heq => ⟨m, rfl, htests, fun v => (hcount v).mpr (heq v)⟩
  constructor
  · intro hright
    obtain ⟨m, hm, -⟩ := id hright
    obtain ⟨st, hrun, -⟩ := Loop.bind_eq_ok.mp hm
    exact ⟨(h.merge.2 st hrun).1.apart, (hdone st hrun).mp hright⟩
  · rintro ⟨happ, heq⟩
    obtain ⟨st, hrun⟩ := h.merge.1 happ
    exact (hdone st hrun).mpr heq

end

theorem texts_iff (tc : Case) : Texts tc ↔ ∀ e ∈ tc.errors ++ tc.failures, e.text.any (· ≠ "") = true := by
  have helem : ∀ e : Elem, (∃ text, e.text = some text ∧ text ≠ "") ↔ e.text.any (· ≠ "") = true := by
    intro e
    cases e.text <;> simp
  constructor
  · intro h e he
    rcases List.mem_append.mp he with he | he
    · exact (helem e).mp (h .error e he)
    · exact (helem e).mp (h .failure e he)
  · intro h v e he
    refine (helem e).mpr (h e (List.mem_append.mpr ?_))
    cases v with
    | error => exact .inl he
    | failure => exact .inr he

instance (tc : Case) : Decidable (Texts tc) := decidable_of_iff _ (texts_iff tc).symm

instance (cases : List Case) : Decidable (Apart cases) :=
  inferInstanceAs (Decidable (∀ a ∈ cases, ∀ b ∈ cases, _ → _))

theorem reportCases_ofSuites (files : List (List Suite)) :
    reportCases (files.map .ofSuites) = files.flatMap fun suites => suites.flatMap Suite.cases := by
  simp [reportCases, List.flatMap_map]

theorem downloaded_ofSuites {strFloat : String → Option String} {files : List (List Suite)}
    (hne : files ≠ []) (hsuites : ∀ suites ∈ files, suites ≠ [])
    (hcases : ∀ tc ∈ files.flatMap fun suites => suites.flatMap Suite.cases,
      (strFloat tc.time).isSome ∧ Texts tc) : Downloaded strFloat (files.map .ofSuites) where
  nonempty := by simpa using hne
  root doc hdoc := by
    obtain ⟨suites, hmem, rfl⟩ := List.mem_map.mp hdoc
    exact ⟨suites, rootSuites_ofSuites suites, hsuites suites hmem⟩
  time tc htc := (hcases tc (reportCases_ofSuites files ▸ htc)).1
  texts tc htc := (hcases tc (reportCases_ofSuites files ▸ htc)).2

/-- `str(float(t))` for two times. -/
def twoTimes (t : String) : Option String := if t = "1.5" ∨ t = "0.25" then some t else none

def attrsOf (tests : String) : SuiteAttrs := ⟨"pytest", "0", "0", "0", "1.75", tests⟩

/-- A test that broke in the first report and failed in the second one, and a test that is
in the second one only. -/
def brokeThenFailed : List (List Suite) :=
  [[⟨attrsOf "1", [⟨"test_a[x:1]", "tests", "1.5", "a.py", [⟨"boom", some "trace"⟩], []⟩]⟩],
    [⟨attrsOf "2", [⟨"test_a[x:1]", "tests", "1.5", "a.py", [], [⟨"1 != 2", some "assert"⟩]⟩,
      ⟨"test_b", "tests", "0.25", "b.py", [], []⟩]⟩]]

theorem downloaded_brokeThenFailed : Downloaded twoTimes (brokeThenFailed.map .ofSuites) :=
  downloaded_ofSuites (by decide) (by decide) (by decide)

theorem brokeThenFailed_counts : Downloaded twoTimes (brokeThenFailed.map .ofSuites) ∧
    CountsRight twoTimes (brokeThenFailed.map .ofSuites) := by
  refine ⟨downloaded_brokeThenFailed, (countsRight_iff downloaded_brokeThenFailed).mpr ?_⟩
  rw [reportCases_ofSuites]
  refine ⟨by decide, fun v => ?_⟩
  cases v <;> decide

/-- A test that passed in both reports. -/
def passedTwice : List (List Suite) :=
  [[⟨attrsOf "1", [⟨"test_a", "tests", "1.5", "a.py", [], []⟩]⟩],
    [⟨attrsOf "1", [⟨"test_a", "tests", "1.5", "a.py", [], []⟩]⟩]]

theorem mergeReports_passedTwice : mergeReports twoTimes (passedTwice.map .ofSuites) =
    .ok ⟨"-1", "-1", "0", "1", "1.75", "pytest", [⟨"test_a", "tests", "a.py", "1.5", none, none⟩]⟩ := by
  rfl

/-- The merged file has one test, `-1` errors and `-1` failures. -/
theorem passedTwice_not_right : Downloaded twoTimes (passedTwice.map .ofSuites) ∧
    ¬ CountsRight twoTimes (passedTwice.map .ofSuites) := by
  refine ⟨downloaded_ofSuites (by decide) (by decide) (by decide), ?_⟩
  rintro ⟨m, hm, -, hright⟩
  rw [mergeReports_passedTwice] at hm
  obtain rfl := Except.ok.inj hm
  exact absurd (hright .error) (by decide)

end MobileTestkit.L4.ReportMerge
