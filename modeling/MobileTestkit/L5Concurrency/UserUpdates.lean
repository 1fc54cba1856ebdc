import MobileTestkit.Core.JsonValue
import MobileTestkit.Core.Tasks

/-!
# A user updating its documents

Model of `User.update_doc` and `User.update_docs` (libraries/testkit/user.py): one task for
each document in the cache, in any interleaving (`updateDocs`). A task gets its document and
puts it back a number of times, and writes the revision of each PUT to the cache; then the
tasks are gathered in any order, and of what they raise only an `HTTPError` is collected.

Without `content`, and with `retries` either way, which makes no difference. What is only
logged is left out.

* `alone_updateDoc`: what a task does, from its answers.
* `get_storeAll`: the cache after all tasks holds what each of them has written last.
* `collected_iff`: every error is collected and the cache holds the last revisions, exactly
  if no PUT fails to write a document, but for one that carries that revision as its own `rev`.
-/
namespace MobileTestkit.L5.UserUpdates

open MobileTestkit.Core

abbrev Dict := PyDict String JsonValue

inductive Exn where
  | httpError (url : String) (status : Nat)
  | valueError (message : String)

/-- A document of this user: its number of updates is an integer. -/
structure Document where
  data : Dict
  updates : Int
  isInt : data.get? "updates" = some (.int updates)

inductive GetAnswer where
  | found (doc : Document)
  | other (url : String) (status : Nat) (isOther : status ≠ 200 ∧ status < 600)

inductive PutAnswer where
  | created (id rev : String)
  | failed (url : String) (status : Nat) (isError : 400 ≤ status ∧ status < 600)

/-- The requests for update `i` of a document. -/
inductive Query where
  | getDoc (docId : String) (i : Nat)
  | putDoc (docId : String) (i : Nat) (data : Dict)

@[reducible] def Answer : Query → Type
  | .getDoc _ _ => GetAnswer
  | .putDoc _ _ _ => PutAnswer

/-- The events are the assignments to the cache. -/
abbrev sig : Sig := ⟨Query, Answer, String × JsonValue, Exn⟩

abbrev Prog := Proc sig

/-- The body of the PUT.
mirrors libraries/testkit/user.py:255-261 -/
def revised (doc : Document) : Dict := doc.data.set "updates" (.int (doc.updates + 1))

def PutAnswer.json (data : Dict) : PutAnswer → Dict
  | .created id rev => ((PyDict.empty.set "id" (.str id)).set "ok" (.bool true)).set "rev" (.str rev)
  | .failed _ _ _ => data

/-- The updates from number `i` on.
mirrors libraries/testkit/user.py:242-290 -/
def updateDoc (docId : String) : (left i : Nat) → Dict → Prog Dict
  | 0, _, updatedDocs => .ret updatedDocs
  | left + 1, i, updatedDocs =>
    .call (Query.getDoc docId i) fun (resp : GetAnswer) =>
      match resp with
      | .other url status _ =>
        if 400 ≤ status then .raise (.httpError url status) else updateDoc docId left (i + 1) updatedDocs
      | .found doc =>
        let data := revised doc
        .call (Query.putDoc docId i data) fun (putResp : PutAnswer) =>
          -- `data` is still the document when the PUT has failed
          match (putResp.json data).get? "rev" with
          | none => .raise (.valueError "Did not find _rev property after Update response")
          | some rev =>
            .emit (docId, rev)
              (match putResp with
              | .failed url status _ => .raise (.httpError url status)
              | .created _ _ => updateDoc docId left (i + 1) (updatedDocs.set docId rev))

/-- The tasks, one for each key of the cache.
mirrors libraries/testkit/user.py:299-303 -/
def tasks (cache : Dict) (numRevsPerDoc : Int) (i : Nat) : Prog Unit :=
  match cache.keys[i]? with
  | some docId => (updateDoc docId numRevsPerDoc.toNat 0 .empty).void
  | none => .ret ()

/-- The answers are given from outside. -/
def server : Server sig Unit := ⟨fun _ _ _ => True, fun s _ _ => s⟩

def start (cache : Dict) (numRevsPerDoc : Int) : Sys sig Unit := ⟨(), tasks cache numRevsPerDoc, []⟩

/-- The assignments of all tasks, in the order they were made. -/
def storeAll (cache : Dict) (log : List (Nat × String × JsonValue)) : Dict :=
  log.foldl (fun cache e => cache.set e.2.1 e.2.2) cache

/-- One task that has ended.
mirrors libraries/testkit/user.py:305-314 -/
def gather (errors : List (String × Nat)) : Except Exn Unit → Except Exn (List (String × Nat))
  | .ok _ => .ok errors
  | .error (.httpError url status) => .ok (errors ++ [(url, status)])
  | .error x => .error x

/-- The tasks run by the schedule and gathered in the order; nothing as long as one of them is
not done. The pool waits for all of them, also if the loop raises.
mirrors libraries/testkit/user.py:292-316 -/
def updateDocs (answer : (q : Query) → Answer q) (cache : Dict) (numRevsPerDoc : Int)
    (schedule order : List Nat) : Option (Dict × Except Exn (List (String × Nat))) :=
  let s := (start cache numRevsPerDoc).exec server (fun _ => answer) schedule
  (order.mapM fun i => (s.procs i).result).map fun results =>
    (storeAll cache s.log, results.foldlM gather [])

/-! ## What is answered -/

section Answers
variable (answer : (q : Query) → Answer q) (docId : String)

/-- The HTTP error that update `i` meets. -/
def errorAt (i : Nat) : Option (String × Nat) :=
  match (answer (.getDoc docId i) : GetAnswer) with
  | .other url status _ => if 400 ≤ status then some (url, status) else none
  | .found doc =>
    match (answer (.putDoc docId i (revised doc)) : PutAnswer) with
    | .failed url status _ => some (url, status)
    | .created _ _ => none

/-- The revision of a PUT that succeeds. -/
def revAt (i : Nat) : Option String :=
  match (answer (.getDoc docId i) : GetAnswer) with
  | .other _ _ _ => none
  | .found doc =>
    match (answer (.putDoc docId i (revised doc)) : PutAnswer) with
    | .failed _ _ _ => none
    | .created _ rev => some rev

/-- The document that a PUT fails to write. -/
def lostAt (i : Nat) : Option Dict :=
  match (answer (.getDoc docId i) : GetAnswer) with
  | .other _ _ _ => none
  | .found doc =>
    match (answer (.putDoc docId i (revised doc)) : PutAnswer) with
    | .failed _ _ _ => some (revised doc)
    | .created _ _ => none

/-- The first HTTP error of the updates. -/
def firstError (is : List Nat) : Option (String × Nat) := is.findSome? (errorAt answer docId)

/-- The revisions of the PUTs before the first error. -/
def revs (is : List Nat) : List String :=
  (is.takeWhile fun i => (errorAt answer docId i).isNone).filterMap (revAt answer docId)

/-- The document that the first error loses, if it is the error of a PUT. -/
def lost (is : List Nat) : Option Dict :=
  (is.find? fun i => (errorAt answer docId i).isSome).bind (lostAt answer docId)

end Answers

/-! ## One task -/

section
variable {answer : (q : Query) → Answer q} {docId : String}

/-- The assignments and the result of a task, from the errors and revisions. -/
def taskOf (answer : (q : Query) → Answer q) (docId : String) (is : List Nat) : List JsonValue × Except Exn Unit :=
  let written := (revs answer docId is).map .str
  match firstError answer docId is with
  | none => (written, .ok ())
  | some (url, status) =>
    match lost answer docId is with
    | none => (written, .error (.httpError url status))
    | some data =>
      match data.get? "rev" with
      | none => (written, .error (.valueError "Did not find _rev property after Update response"))
      | some rev => (written ++ [rev], .error (.httpError url status))

theorem taskOf_cons_error {i : Nat} (is : List Nat) {e : String × Nat} (h : errorAt answer docId i = some e) :
    firstError answer docId (i :: is) = some e ∧ revs answer docId (i :: is) = [] ∧
      lost answer docId (i :: is) = lostAt answer docId i := by
  simp [firstError, revs, lost, h]

theorem taskOf_cons {i : Nat} {is : List Nat} (h : errorAt answer docId i = none) :
    taskOf answer docId (i :: is) =
      (((revAt answer docId i).toList.map .str) ++ (taskOf answer docId is).1, (taskOf answer docId is).2) := by
  have hfirst : firstError answer docId (i :: is) = firstError answer docId is := by simp [firstError, h]
  have hlost : lost answer docId (i :: is) = lost answer docId is := by simp [lost, h]
  have hrevs : (revs answer docId (i :: is)).map JsonValue.str =
      (revAt answer docId i).toList.map .str ++ (revs answer docId is).map .str := by
    cases hrev : revAt answer docId i <;> simp [revs, h, hrev]
  simp only [taskOf, hfirst, hlost, hrevs]
  cases firstError answer docId is with
  | none => rfl
  | some e =>
    cases lost answer docId is with
    | none => rfl
    | some data =>
      cases hdata : data.get? "rev" with
      | none => simp only [hdata]
      | some rev => simp only [hdata, List.append_assoc]

theorem created_rev (data : Dict) (id rev : String) :
    ((PutAnswer.created id rev).json data).get? "rev" = some (.str rev) := by
  rw [PutAnswer.json, PyDict.get?_set, if_pos rfl]

/-- What a task does. -/
theorem alone_updateDoc (answer : (q : Query) → Answer q) (docId : String) (left i : Nat) (updatedDocs : Dict) :
    ((updateDoc docId left i updatedDocs).void).alone answer =
      ((taskOf answer docId (List.range' i left)).1.map (docId, ·),
        (taskOf answer docId (List.range' i left)).2) := by
  induction left generalizing i updatedDocs with
  | zero => rfl
  | succ left ih =>
    rw [List.range'_succ, updateDoc, Proc.void, Proc.call_bind, Proc.alone]
    cases hget : (answer (.getDoc docId i) : GetAnswer) with
    | other url status hother =>
      by_cases hstatus : 400 ≤ status
      · have herror : errorAt answer docId i = some (url, status) := by simp [errorAt, hget, hstatus]
        have hlost : lostAt answer docId i = none := by simp [lostAt, hget]
        obtain ⟨hfirst, hrevs, hlosts⟩ := taskOf_cons_error (List.range' (i + 1) left) herror
        simp [taskOf, hfirst, hrevs, hlosts, hlost, hstatus, Proc.alone]
      · have herror : errorAt answer docId i = none := by simp [errorAt, hget, hstatus]
        have hrev : revAt answer docId i = none := by simp [revAt, hget]
        rw [taskOf_cons herror, hrev]
        simp only [if_neg hstatus]
        exact ih (i + 1) updatedDocs
    | found doc =>
      simp only [Proc.call_bind, Proc.alone]
      cases hput : (answer (.putDoc docId i (revised doc)) : PutAnswer) with
      | created id rev =>
        have herror : errorAt answer docId i = none := by simp [errorAt, hget, hput]
        have hrev : revAt answer docId i = some rev := by simp [revAt, hget, hput]
        have htask := ih (i + 1) (updatedDocs.set docId (.str rev))
        simp only [created_rev, Proc.emit_bind, Proc.alone]
        rw [taskOf_cons herror, hrev]
        unfold Proc.void at htask
        rw [htask]
        rfl
      | failed url status hfail =>
        have herror : errorAt answer docId i = some (url, status) := by simp [errorAt, hget, hput]
        have hlost : lostAt answer docId i = some (revised doc) := by simp [lostAt, hget, hput]
        obtain ⟨hfirst, hrevs, hlosts⟩ := taskOf_cons_error (List.range' (i + 1) left) herror
        simp only [PutAnswer.json, taskOf, hfirst, hrevs, hlosts, hlost]
        cases hdata : (revised doc).get? "rev" with
        | none => rfl
        | some rev => rfl

/-- The revision that the cache should hold for a document afterwards. -/
def lastRev (answer : (q : Query) → Answer q) (cache : Dict) (docId : String) (is : List Nat) : Option JsonValue :=
  ((revs answer docId is).map JsonValue.str).getLast?.or (cache.get? docId)

/-- A document that a PUT loses has a revision `rev` of its own, the one that the cache should
hold. -/
def Spares (answer : (q : Query) → Answer q) (cache : Dict) (docId : String) (is : List Nat) : Prop :=
  ∀ data, lost answer docId is = some data → data.get? "rev" = lastRev answer cache docId is

def IsValueError : Except Exn Unit → Prop
  | .ok _ => False
  | .error (.httpError _ _) => False
  | .error (.valueError _) => True

/-- What is collected of a result. -/
def httpErrorOf : Except Exn Unit → Option (String × Nat)
  | .ok _ => none
  | .error (.httpError url status) => some (url, status)
  | .error (.valueError _) => none

theorem firstError_of_lost {is : List Nat} {data : Dict} (h : lost answer docId is = some data) :
    firstError answer docId is ≠ none := by
  intro hnone
  obtain ⟨i, hfind, -⟩ := Option.bind_eq_some_iff.mp h
  have herror := List.find?_some hfind
  rw [List.findSome?_eq_none_iff.mp hnone i (List.mem_of_find?_eq_some hfind)] at herror
  cases herror

/-- A task raises no `ValueError` and writes the last revision last, exactly if it spares what
it loses. -/
theorem task_iff {cache : Dict} (hmem : (cache.get? docId).isSome) (is : List Nat) :
    (¬ IsValueError (taskOf answer docId is).2 ∧
        (taskOf answer docId is).1.getLast?.or (cache.get? docId) = lastRev answer cache docId is) ↔
      Spares answer cache docId is := by
  obtain ⟨v, hv⟩ : ∃ v, lastRev answer cache docId is = some v := by
    obtain ⟨old, hold⟩ := Option.isSome_iff_exists.mp hmem
    rw [lastRev, hold]
    cases ((revs answer docId is).map JsonValue.str).getLast? <;> exact ⟨_, rfl⟩
  unfold Spares taskOf
  cases hlost : lost answer docId is with
  | none =>
    refine iff_of_true ?_ (fun data h => by cases h)
    cases firstError answer docId is <;> exact ⟨id, rfl⟩
  | some data =>
    obtain ⟨e, he⟩ := Option.ne_none_iff_exists'.mp (firstError_of_lost hlost)
    rw [he, hv]
    cases hrev : data.get? "rev" with
    | none => simp [IsValueError, hrev]
    | some rev => simp [IsValueError, hrev]

theorem httpErrorOf_task {is : List Nat} (h : ¬ IsValueError (taskOf answer docId is).2) :
    httpErrorOf (taskOf answer docId is).2 = firstError answer docId is := by
  unfold taskOf at h ⊢
  cases hfirst : firstError answer docId is with
  | none => rfl
  | some e =>
    cases hlost : lost answer docId is with
    | none => rfl
    | some data =>
      cases hrev : data.get? "rev" with
      | none => simp [hfirst, hlost, hrev, IsValueError] at h
      | some rev => simp [hrev, httpErrorOf]

end

/-! ## All tasks -/

theorem gather_iff (results : List (Except Exn Unit)) (errors errors' : List (String × Nat)) :
    results.foldlM gather errors = .ok errors' ↔
      (∀ r ∈ results, ¬ IsValueError r) ∧ errors' = errors ++ results.filterMap httpErrorOf := by
  induction results generalizing errors with
  | nil => simp [pure, Except.pure, eq_comm]
  | cons r results ih =>
    rw [List.foldlM_cons]
    match r with
    | .ok () =>
      have hnone : httpErrorOf (.ok ()) = none := rfl
      simp [gather, bind, Except.bind, ih, IsValueError, List.filterMap_cons_none hnone]
    | .error (.httpError url status) => simp [gather, bind, Except.bind, ih, IsValueError, httpErrorOf]
    | .error (.valueError message) => simp [gather, bind, Except.bind, IsValueError]

theorem get_foldl (log : List (Nat × String × JsonValue)) (cache : Dict) (docId : String) :
    (storeAll cache log).get? docId =
      (((log.filter (·.2.1 == docId)).map (·.2.2)).getLast?).or (cache.get? docId) := by
  unfold storeAll
  induction log generalizing cache with
  | nil => rfl
  | cons e log ih =>
    rw [List.foldl_cons, ih, PyDict.get?_set]
    by_cases hkey : docId = e.2.1
    · have hfilter : (e :: log).filter (·.2.1 == docId) = e :: log.filter (·.2.1 == docId) :=
        List.filter_cons_of_pos (by simp [hkey])
      rw [if_pos hkey, hfilter, List.map_cons, List.getLast?_cons]
      cases ((log.filter (·.2.1 == docId)).map (·.2.2)).getLast? <;> rfl
    · have hfilter : (e :: log).filter (·.2.1 == docId) = log.filter (·.2.1 == docId) :=
        List.filter_cons_of_neg (by simpa using Ne.symm hkey)
      rw [if_neg hkey, hfilter]

section
variable {answer : (q : Query) → Answer q} {cache : Dict} {num : Int}

theorem settled_start (i : Nat) : ((start cache num).procs i).Settled := by
  simp only [start, tasks]
  cases cache.keys[i]? with
  | none => exact trivial
  | some docId => cases num.toNat <;> exact trivial

theorem alone_tasks (i : Nat) : ((start cache num).procs i).alone answer =
    match cache.keys[i]? with
    | some docId =>
      ((taskOf answer docId (List.range num.toNat)).1.map (docId, ·),
        (taskOf answer docId (List.range num.toNat)).2)
    | none => ([], .ok ()) := by
  simp only [start, tasks]
  cases cache.keys[i]? with
  | none => rfl
  | some docId => exact List.range_eq_range' ▸ alone_updateDoc answer docId num.toNat 0 .empty

theorem told_start (i : Nat) : (start cache num).told i = [] := rfl

/-- The schedule has let every task end. -/
def Done (answer : (q : Query) → Answer q) (cache : Dict) (num : Int) (schedule : List Nat) : Prop :=
  ∀ i < cache.keys.length,
    (((start cache num).exec server (fun _ => answer) schedule).procs i).result.isSome

theorem calls_updateDoc (docId : String) (left i : Nat) (updatedDocs : Dict) :
    ((updateDoc docId left i updatedDocs).void).calls answer ≤ 2 * left := by
  induction left generalizing i updatedDocs with
  | zero => exact Nat.le_refl 0
  | succ left ih =>
    rw [updateDoc, Proc.void, Proc.call_bind, Proc.calls]
    cases hget : (answer (.getDoc docId i) : GetAnswer) with
    | other url status hother =>
      by_cases hstatus : 400 ≤ status
      · simp only [if_pos hstatus, Proc.raise_bind, Proc.calls]
        omega
      · simp only [if_neg hstatus]
        have := ih (i + 1) updatedDocs
        unfold Proc.void at this
        omega
    | found doc =>
      simp only [Proc.call_bind, Proc.calls]
      cases hput : (answer (.putDoc docId i (revised doc)) : PutAnswer) with
      | created id rev =>
        have := ih (i + 1) (updatedDocs.set docId (.str rev))
        unfold Proc.void at this
        simp only [created_rev, Proc.emit_bind, Proc.calls]
        omega
      | failed url status hfail =>
        simp only [PutAnswer.json]
        cases hdata : (revised doc).get? "rev" with
        | none =>
          simp only [Proc.raise_bind, Proc.calls]
          omega
        | some rev =>
          simp only [Proc.emit_bind, Proc.raise_bind, Proc.calls]
          omega

/-- Two turns for each update are enough. -/
theorem done_of_turns {schedule : List Nat}
    (h : ∀ i < cache.keys.length, 2 * num.toNat ≤ schedule.count i) : Done answer cache num schedule := by
  intro i hi
  refine ended_of_turns server answer settled_start (Nat.le_trans ?_ (h i hi))
  simp only [start, tasks, List.getElem?_eq_getElem hi]
  exact calls_updateDoc _ _ _ _

variable {schedule : List Nat}

/-- An assignment of a task is one to its own document. -/
theorem key_of_told {i : Nat} {e : String × JsonValue}
    (h : e ∈ ((start cache num).exec server (fun _ => answer) schedule).told i) :
    cache.keys[i]? = some e.1 := by
  have hwhole := congrArg Prod.fst (told_exec server answer (start cache num) schedule i)
  simp only [Sys.whole, told_start, List.nil_append, alone_tasks] at hwhole
  have hmem := List.mem_append_left (((((start cache num).exec server (fun _ => answer) schedule).procs i).alone
    answer).1) h
  rw [hwhole] at hmem
  cases hkey : cache.keys[i]? with
  | none =>
    rw [hkey] at hmem
    cases hmem
  | some docId =>
    rw [hkey] at hmem
    obtain ⟨v, -, rfl⟩ := List.mem_map.mp hmem
    rfl

/-- The cache holds what the task of a document has written last. -/
theorem get_storeAll (hdone : Done answer cache num schedule) {i : Nat} {docId : String}
    (hi : cache.keys[i]? = some docId) :
    (storeAll cache ((start cache num).exec server (fun _ => answer) schedule).log).get? docId =
      (taskOf answer docId (List.range num.toNat)).1.getLast?.or (cache.get? docId) := by
  have hlt : i < cache.keys.length := (List.getElem?_eq_some_iff.mp hi).1
  obtain ⟨r, hr⟩ := Option.isSome_iff_exists.mp (hdone i hlt)
  have htold := (ended_exec server answer hr).1
  rw [told_start, alone_tasks, hi, List.nil_append] at htold
  -- the assignments to the document are those of its task
  have hfilter : ((start cache num).exec server (fun _ => answer) schedule).log.filter (·.2.1 == docId) =
      ((start cache num).exec server (fun _ => answer) schedule).log.filter (·.1 == i) := by
    refine List.filter_congr fun e he => ?_
    have hkey : cache.keys[e.1]? = some e.2.1 :=
      key_of_told (List.mem_map.mpr ⟨e, List.mem_filter.mpr ⟨he, by simp⟩, rfl⟩)
    rw [Bool.eq_iff_iff, beq_iff_eq, beq_iff_eq]
    constructor
    · intro heq
      obtain ⟨hlt', -⟩ := List.getElem?_eq_some_iff.mp hkey
      exact (List.getElem?_inj hlt' cache.nodup).mp (hkey.trans (heq ▸ hi.symm))
    · intro heq
      rw [heq, hi] at hkey
      exact (Option.some.inj hkey).symm
  have hvalues : ((((start cache num).exec server (fun _ => answer) schedule).log.filter (·.1 == i)).map (·.2.2)) =
      (taskOf answer docId (List.range num.toNat)).1 := by
    have hmap := congrArg (List.map Prod.snd) htold
    simpa [Sys.told, Function.comp_def] using hmap
  rw [get_foldl, hfilter, hvalues]

theorem mapM_of_forall {α β : Type} {f : α → Option β} {g : α → β} {l : List α}
    (h : ∀ a ∈ l, f a = some (g a)) : l.mapM f = some (l.map g) := by
  induction l with
  | nil => rfl
  | cons a l ih =>
    rw [List.mapM_cons, h a List.mem_cons_self, ih fun b hb => h b (List.mem_cons_of_mem _ hb)]
    rfl

/-- The results of the tasks, in the order of the keys. -/
theorem results_eq (hdone : Done answer cache num schedule) {order : List Nat}
    (horder : order.Perm (List.range cache.keys.length)) :
    ∃ results, (order.mapM fun i =>
        (((start cache num).exec server (fun _ => answer) schedule).procs i).result) = some results ∧
      results.Perm (cache.keys.map fun docId => (taskOf answer docId (List.range num.toNat)).2) := by
  refine ⟨order.map fun i => (((start cache num).procs i).alone answer).2,
    mapM_of_forall fun i hi => ?_, ?_⟩
  · have hlt := List.mem_range.mp (horder.mem_iff.mp hi)
    obtain ⟨r, hr⟩ := Option.isSome_iff_exists.mp (hdone i hlt)
    rw [hr, (ended_exec server answer hr).2]
  · refine (horder.map _).trans (List.Perm.of_eq (List.ext_getElem (by simp) fun i h1 h2 => ?_))
    have hlt : i < cache.keys.length := by simpa using h2
    simp only [List.getElem_map, List.getElem_range, alone_tasks, List.getElem?_eq_getElem hlt]

/-- One entry for each document whose update has met an HTTP error, and the last revisions in
the cache. -/
structure Collected (answer : (q : Query) → Answer q) (cache : Dict) (num : Int) (cache' : Dict)
    (errors : List (String × Nat)) : Prop where
  errors : errors.Perm (cache.keys.filterMap fun docId => firstError answer docId (List.range num.toNat))
  revs : ∀ docId ∈ cache.keys,
    cache'.get? docId = lastRev answer cache docId (List.range num.toNat)

/-- Every error is collected and the cache holds the last revisions, exactly if no PUT is
answered with an error, unless its document has the last revision as a property `rev`. -/
theorem collected_iff (answer : (q : Query) → Answer q) (cache : Dict) (num : Int)
    {schedule order : List Nat} (hdone : Done answer cache num schedule)
    (horder : order.Perm (List.range cache.keys.length)) :
    (∃ cache' errors, updateDocs answer cache num schedule order = some (cache', .ok errors) ∧
        Collected answer cache num cache' errors) ↔
      ∀ docId ∈ cache.keys, Spares answer cache docId (List.range num.toNat) := by
  obtain ⟨results, hresults, hperm⟩ := results_eq hdone horder
  have hrun : updateDocs answer cache num schedule order =
      some (storeAll cache ((start cache num).exec server (fun _ => answer) schedule).log,
        results.foldlM gather []) := by
    simp only [updateDocs, hresults, Option.map_some]
  have hget : ∀ docId ∈ cache.keys,
      (storeAll cache ((start cache num).exec server (fun _ => answer) schedule).log).get? docId =
        (taskOf answer docId (List.range num.toNat)).1.getLast?.or (cache.get? docId) := by
    intro docId hmem
    obtain ⟨i, hi⟩ := List.getElem?_of_mem hmem
    exact get_storeAll hdone hi
  rw [hrun]
  constructor
  · rintro ⟨cache', errors, heq, hcollected⟩ docId hmem
    obtain ⟨rfl, hgather⟩ := Prod.mk.inj (Option.some.inj heq)
    refine (task_iff ((PyDict.mem_keys cache docId).mp hmem) _).mp ⟨?_, ?_⟩
    · exact ((gather_iff results [] errors).mp hgather).1 _ (hperm.mem_iff.mpr (List.mem_map_of_mem hmem))
    · rw [← hget docId hmem]
      exact hcollected.revs docId hmem
  · intro hspares
    have htask : ∀ docId ∈ cache.keys, _ := fun docId hmem =>
      (task_iff ((PyDict.mem_keys cache docId).mp hmem) _).mpr (hspares docId hmem)
    have hnone : ∀ r ∈ results, ¬ IsValueError r := by
      intro r hr
      obtain ⟨docId, hmem, rfl⟩ := List.mem_map.mp (hperm.mem_iff.mp hr)
      exact (htask docId hmem).1
    refine ⟨_, results.filterMap httpErrorOf, by rw [(gather_iff results [] _).mpr ⟨hnone, rfl⟩]; rfl, ?_, ?_⟩
    · refine (hperm.filterMap httpErrorOf).trans (List.Perm.of_eq ?_)
      rw [List.filterMap_map]
      exact List.filterMap_congr fun docId hmem => httpErrorOf_task (htask docId hmem).1
    · intro docId hmem
      rw [hget docId hmem]
      exact (htask docId hmem).2

end

/-- A document that has not been updated. -/
def fresh : Document := ⟨PyDict.empty.set "updates" (.int 0), 0, rfl⟩

def twoDocs : Dict := (PyDict.empty.set "d" (.str "1-a")).set "gone" (.str "1-b")

/-- One document is not there. -/
def oneGone : (q : Query) → Answer q
  | .getDoc docId _ =>
    if docId = "gone" then .other "http://sg:4984/db/gone" 404 ⟨by decide, by decide⟩ else .found fresh
  | .putDoc _ _ _ => .created "d" "2-c"

theorem collected_oneGone : ∃ cache' errors,
    updateDocs oneGone twoDocs 1 [1, 0, 0, 1] [1, 0] = some (cache', .ok errors) ∧
      Collected oneGone twoDocs 1 cache' errors := by
  refine (collected_iff oneGone twoDocs 1 (done_of_turns (by decide)) (by decide)).mpr ?_
  intro docId _ data hlost
  obtain ⟨i, -, hlost⟩ := Option.bind_eq_some_iff.mp hlost
  unfold lostAt oneGone at hlost
  by_cases hgone : docId = "gone"
  · simp [hgone] at hlost
  · simp [hgone] at hlost

/-- The PUT comes too late. -/
def conflict : (q : Query) → Answer q
  | .getDoc _ _ => .found fresh
  | .putDoc docId _ _ => .failed ("http://sg:4984/db/" ++ docId) 409 ⟨by decide, by decide⟩

/-- The update of the document meets a 409, and the call raises `ValueError`. -/
theorem conflict_raises :
    firstError conflict "d" (List.range 1) = some ("http://sg:4984/db/d", 409) ∧
      (updateDocs conflict (PyDict.empty.set "d" (.str "1-a")) 1 [0, 0] [0]).map Prod.snd =
        some (.error (.valueError "Did not find _rev property after Update response")) :=
  ⟨rfl, rfl⟩

end MobileTestkit.L5.UserUpdates
