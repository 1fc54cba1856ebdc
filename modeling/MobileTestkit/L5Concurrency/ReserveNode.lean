import MobileTestkit.Core.Rely
import MobileTestkit.L5Concurrency.ServerPool

/-!
# Reserving one node, whatever others do

One run of `reserve_node` (utilities/mobile_server_pool.py) while other clients change the
pool between its calls: they may replace, add and remove documents, as long as every new
version gets a fresh `cas` (`CasStore.Evolves`). The store may also refuse a replace that
it could accept, and answer with another exception.

* `attempt_cases`: what one attempt does, up to its recursive call.
* `reserveNode_outcome`: at most six replaces; one of them was applied exactly if the
  result is `True`, and the document is then booked from the one it replaced.
-/
namespace MobileTestkit.L5.ReserveNode

open MobileTestkit.Core MobileTestkit.L5.ServerPool

/-- A call of the run. -/
abbrev Call := Moment sig Pool

/-- The call is a replace. -/
def isReplace (m : Call) : Bool :=
  match m with
  | ⟨_, .replace _ _ _, _⟩ => true
  | _ => false

/-- The call is a replace that the store accepted. -/
def applied (m : Call) : Bool :=
  match m with
  | ⟨_, .replace _ _ _, (r : Replaced)⟩ => decide (r = .ok)
  | _ => false

@[simp] theorem isReplace_replace (t : Pool) (id : String) (d : Doc) (c : Option Nat) (r : Replaced) :
    isReplace ⟨t, .replace id d c, r⟩ = true := rfl

@[simp] theorem applied_replace (t : Pool) (id : String) (d : Doc) (c : Option Nat) (r : Replaced) :
    applied ⟨t, .replace id d c, r⟩ = decide (r = .ok) := rfl

@[simp] theorem isReplace_get (t : Pool) (id : String) (a : Option (Doc × Nat)) :
    isReplace ⟨t, .get id, a⟩ = false := rfl

@[simp] theorem applied_get (t : Pool) (id : String) (a : Option (Doc × Nat)) :
    applied ⟨t, .get id, a⟩ = false := rfl

@[simp] theorem isReplace_strftime (t : Pool) (now : String) : isReplace ⟨t, .strftime, now⟩ = false := rfl

@[simp] theorem applied_strftime (t : Pool) (now : String) : applied ⟨t, .strftime, now⟩ = false := rfl

/-- A run of a program of the pool among other clients. -/
abbrev Run {α : Type} (J : String → String → Jenkins → Prop) :
    Prog α → Pool → Pool → Except Exn α → List Call → Prop :=
  RelyRun (poolServer J) CasStore.Evolves

/-- The document was booked for the job over the version that was stored. -/
def Booked (docId : String) (jobName : Job) (m : Call) (s' : Pool) : Prop :=
  ∃ now, s'.doc docId = (m.before.doc docId).book jobName now

/-- What a run has done: the number of replaces is bounded, and one of them was applied
exactly if the result is `True`. -/
structure Outcome (docId : String) (jobName : Job) (limit : Nat) (s' : Pool) (o : Except Exn Bool)
    (calls : List Call) : Prop where
  bound : calls.countP isReplace ≤ limit
  once : o = .ok true → calls.countP applied = 1 ∧ ∃ m ∈ calls, applied m = true ∧ Booked docId jobName m s'
  never : o ≠ .ok true → calls.countP applied = 0

variable {J : String → String → Jenkins → Prop} {docId : String} {jobName : Job} {limit : Nat}
  {s s' : Pool} {o : Except Exn Bool} {calls : List Call}

/-- Nothing was applied, and the result is not `True`. -/
theorem outcome_refused (ho : o ≠ .ok true) (hbound : calls.countP isReplace ≤ limit)
    (hnone : calls.countP applied = 0) : Outcome docId jobName limit s' o calls :=
  ⟨hbound, fun h => absurd h ho, fun _ => hnone⟩

/-- `sdk_client.get` in a run: nothing is raised if the document is there. -/
theorem run_sdkGet {α : Type} {why : Why} {f : Doc × Nat → Prog α} {r : Except Exn α}
    (h : Run J ((sdkGet why docId).bind f) s s' r calls) :
    ∃ t a rest, s.Evolves t ∧ a = t.get docId ∧ calls = ⟨t, .get docId, a⟩ :: rest ∧
      ((a = none ∧ rest = [] ∧ ∃ x, r = .error x) ∨
        ∃ d c, a = some (d, c) ∧ Run J (f (d, c)) t s' r rest) := by
  obtain ⟨t, a, rest, hR, hok, hrest, rfl⟩ := h
  obtain rfl : a = t.get docId := hok
  refine ⟨t, t.get docId, rest, hR, rfl, rfl, ?_⟩
  match hget : t.get docId with
  | none =>
    rw [hget] at hrest
    obtain ⟨-, rfl, rfl⟩ := hrest
    exact .inl ⟨rfl, rfl, _, rfl⟩
  | some (d, c) =>
    rw [hget] at hrest
    exact .inr ⟨d, c, rfl, hrest⟩

/-- What an attempt does: it books the document, gives up without a write, or goes on with
`retry` after a replace that was refused. -/
theorem attempt_cases {retry : Prog Bool} (h : Run J (reserveAttempt docId jobName retry) s s' o calls) :
    Outcome docId jobName 1 s' o calls ∨
      ∃ t first rest, calls = first ++ rest ∧ first.countP isReplace = 1 ∧
        first.countP applied = 0 ∧ Run J retry t s' o rest := by
  obtain ⟨t₀, a, rest, -, ha, rfl, ⟨rfl, rfl, x, rfl⟩ | ⟨d, c, rfl, hrun⟩⟩ := run_sdkGet h
  · exact .inl (outcome_refused (by simp) (by simp) (by simp))
  · have hseen : t₀.Seen docId d c := CasStore.seen_get ha.symm
    obtain ⟨t₁, now, rest, h₁, -, hrun, rfl⟩ := hrun
    obtain ⟨t₂, r, rest, h₂, hok, hrun, rfl⟩ := hrun
    have hseen₂ : t₂.Seen docId d c := (hseen.evolves h₁).evolves h₂
    cases (r : Replaced) with
    | ok =>
      obtain ⟨rfl, rfl, rfl⟩ := hrun
      obtain ⟨hmem, hcas⟩ : docId ∈ t₂.keys ∧ t₂.cas docId = c := hok
      have hdoc : t₂.doc docId = d := hseen₂.2 hcas
      refine .inl ⟨by simp, fun _ => ⟨by simp, ?_⟩, fun ho => absurd rfl ho⟩
      refine ⟨⟨t₂, .replace docId (d.book jobName now) (some c), Replaced.ok⟩, by simp, rfl, now, ?_⟩
      rw [hdoc]
      exact CasStore.put_doc_self t₂ docId _
    | couchbaseException =>
      obtain ⟨t₃, a', rest, -, -, rfl, ⟨rfl, rfl, x, rfl⟩ | ⟨d', c', rfl, hrun'⟩⟩ := run_sdkGet hrun
      · exact .inl (outcome_refused (by simp) (by simp [List.countP_cons]) (by simp))
      · simp only at hrun'
        split at hrun'
        · exact .inr ⟨t₃, [_, _, _, _], rest, rfl, by simp [List.countP_cons], by simp, hrun'⟩
        · obtain ⟨-, rfl, rfl⟩ := hrun'
          exact .inl (outcome_refused (by simp) (by simp [List.countP_cons]) (by simp))
    | exception =>
      obtain ⟨-, rfl, rfl⟩ := hrun
      exact .inl (outcome_refused (by simp) (by simp [List.countP_cons]) (by simp))

/-- Calls before that wrote nothing do not change the outcome. -/
theorem outcome_append {first rest : List Call} (hfirst : first.countP isReplace = 1)
    (hnone : first.countP applied = 0) (h : Outcome docId jobName limit s' o rest) :
    Outcome docId jobName (limit + 1) s' o (first ++ rest) where
  bound := by
    rw [List.countP_append, hfirst]
    have := h.bound
    omega
  once ho := by
    obtain ⟨hcount, m, hm, hb⟩ := h.once ho
    rw [List.countP_append, hnone, hcount]
    exact ⟨rfl, m, List.mem_append_right _ hm, hb⟩
  never ho := by rw [List.countP_append, hnone, h.never ho]

theorem Outcome.mono {limit' : Nat} (h : Outcome docId jobName limit s' o calls) (hle : limit ≤ limit') :
    Outcome docId jobName limit' s' o calls := ⟨Nat.le_trans h.bound hle, h.once, h.never⟩

/-- `left` recursive calls to go: one more replace for each. -/
theorem reserveRetry_outcome (left : Nat) (h : Run J (reserveRetry docId jobName left) s s' o calls) :
    Outcome docId jobName (left + 1) s' o calls := by
  induction left generalizing s calls with
  | zero =>
    rcases attempt_cases h with h | ⟨t, first, rest, rfl, hfirst, hnone, hrun⟩
    · exact h
    · -- the counter is used up
      obtain ⟨-, rfl, rfl⟩ := hrun
      refine outcome_refused (by simp) ?_ ?_
      · simp [hfirst]
      · simpa using hnone
  | succ left ih =>
    rcases attempt_cases h with h | ⟨t, first, rest, rfl, hfirst, hnone, hrun⟩
    · exact h.mono (by omega)
    · exact outcome_append hfirst hnone (ih hrun)

/-- `reserve_node` is all or nothing: at most six replaces; the result is `True` exactly if
one of them was applied, which books the document for the job from the version it
replaced; on any other result nothing was written. -/
theorem reserveNode_outcome (h : Run J (reserveNode docId jobName 0) s s' o calls) :
    calls.countP isReplace ≤ 6 ∧ (o = .ok true ↔ calls.countP applied = 1) ∧
      (o = .ok true → ∃ m ∈ calls, applied m = true ∧
        (s'.doc docId).username = jobName ∧ (s'.doc docId).state = "booked" ∧
        (s'.doc docId).prevUser = (m.before.doc docId).username) ∧
      (o = .ok false → calls.countP applied = 0) := by
  have hout := reserveRetry_outcome 5 h
  refine ⟨hout.bound, ⟨fun ho => (hout.once ho).1, fun hc => ?_⟩, fun ho => ?_, fun ho => ?_⟩
  · by_contra ho
    rw [hout.never ho] at hc
    cases hc
  · obtain ⟨-, m, hm, happ, now, hdoc⟩ := hout.once ho
    refine ⟨m, hm, happ, ?_⟩
    rw [hdoc]
    exact ⟨rfl, rfl, rfl⟩
  · refine hout.never ?_
    rw [ho]
    simp

/-! A run with another client between the read and the first replace. -/

def freeNode (username : Job) : Doc := ⟨"windows", "10", none, "available", username, none, "t0"⟩

def onePool : Pool where
  keys := ["n1"]
  doc := fun _ => freeNode (some "u0")
  cas := fun _ => 0
  clock := 1
  nodup := by decide
  cas_lt := fun _ => Nat.zero_lt_one

def otherPool : Pool := onePool.put "n1" (freeNode (some "u1"))

def bookedDoc : Doc := (freeNode (some "u1")).book (some "job:1") "t2"

def refusedOnce : List Call :=
  [⟨onePool, .get "n1", some (freeNode (some "u0"), 0)⟩, ⟨onePool, .strftime, "t1"⟩,
    ⟨otherPool, .replace "n1" ((freeNode (some "u0")).book (some "job:1") "t1") (some 0),
      Replaced.couchbaseException⟩,
    ⟨otherPool, .get "n1", some (freeNode (some "u1"), 1)⟩,
    ⟨otherPool, .get "n1", some (freeNode (some "u1"), 1)⟩, ⟨otherPool, .strftime, "t2"⟩,
    ⟨otherPool, .replace "n1" bookedDoc (some 1), Replaced.ok⟩]

theorem run_call {α : Type} {r : Except Exn α} (q : Query) {k : Answer q → Prog α} (t : Pool)
    (a : Answer q) (hR : s.Evolves t) (hok : (poolServer J).ok t q a)
    (h : Run J (k a) ((poolServer J).next t q a) s' r calls) :
    Run J (.call q k) s s' r (⟨t, q, a⟩ :: calls) := ⟨t, a, calls, hR, hok, h, rfl⟩

theorem run_refusedOnce : Run (fun _ _ _ => False) (reserveNode "n1" (some "job:1") 0) onePool
    (otherPool.put "n1" bookedDoc) (.ok true) refusedOnce := by
  have stay (t : Pool) : t.Evolves t := CasStore.Evolves.refl t
  refine run_call (.get "n1") onePool (some (freeNode (some "u0"), 0)) (stay _) rfl ?_
  refine run_call .strftime onePool "t1" (stay _) trivial ?_
  -- the other client writes here
  refine run_call (.replace _ _ _) otherPool .couchbaseException (CasStore.evolves_put _ _ _) trivial ?_
  refine run_call (.get "n1") otherPool (some (freeNode (some "u1"), 1)) (stay _) rfl ?_
  refine run_call (.get "n1") otherPool (some (freeNode (some "u1"), 1)) (stay _) rfl ?_
  refine run_call .strftime otherPool "t2" (stay _) trivial ?_
  refine run_call (.replace _ _ _) otherPool .ok (stay _) ⟨List.mem_singleton.mpr rfl, rfl⟩ ?_
  exact ⟨rfl, rfl, rfl⟩

theorem reserve_after_refusal : refusedOnce.countP isReplace ≤ 6 ∧ refusedOnce.countP applied = 1 ∧
    ((otherPool.put "n1" bookedDoc).doc "n1").username = some "job:1" := by
  obtain ⟨hbound, honce, hbooked, -⟩ := reserveNode_outcome run_refusedOnce
  obtain ⟨m, -, -, huser, -⟩ := hbooked rfl
  exact ⟨hbound, honce.mp rfl, huser⟩

end MobileTestkit.L5.ReserveNode
