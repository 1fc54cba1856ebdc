import Mathlib.Data.Finset.Basic
import MobileTestkit.Core.Rely
import MobileTestkit.L2Cluster.DeleteBuckets

/-!
# What deleting all buckets comes to

The runs of `CouchbaseServer.delete_buckets` (L2Cluster.DeleteBuckets): on a server that has
other users, and with a query service that is never done.

* `deleteBuckets_empties`: when it returns the server had no buckets, whoever else is at work.
* `rowsLoop_iff`: where the loops that wait for the query service end.
* `deleteBuckets_forever_iff`: when it never ends.
-/
namespace MobileTestkit.L2.DeleteBuckets

open MobileTestkit.Core

/-! ## On a server with other users -/

/-- The state is the set of buckets. A listing that is not an error lists them; only a
deletion that is answered 200 is known to have been made. -/
def cluster : Server sig (Finset String) where
  ok s q a :=
    match q, a with
    | .getBuckets, .ok (status, names) => isErrorStatus status = false → ∀ name, name ∈ names ↔ name ∈ s
    | _, _ => True
  next s q a :=
    match q, a with
    | .deleteBucket name, .ok (status, _) => if status = 200 then s.erase name else s
    | _, _ => s

abbrev Call := Moment sig (Finset String)

/-- A deletion that is answered with neither 200 nor an error. -/
def Ignored (m : Call) : Prop :=
  ∃ t name status, m = ⟨t, .deleteBucket name, .ok (status, ())⟩ ∧ status ≠ 200 ∧ isErrorStatus status = false

section Others
variable {R : Finset String → Finset String → Prop} {s s' : Finset String} {ms : List Call}

theorem rely_getBucketNames {left : Nat} {names : List String}
    (h : RelyRun cluster R (getBucketNames left) s s' (.ok names) ms) :
    ∃ before status, ms = before ++ [⟨s', .getBuckets, .ok (status, names)⟩] ∧
      ∀ name, name ∈ names ↔ name ∈ s' := by
  induction left generalizing s ms with
  | zero =>
    obtain ⟨-, ho, -⟩ := h
    cases ho
  | succ left ih =>
    obtain ⟨t, a, rest, -, hok, hrest, rfl⟩ := h
    match a with
    | .error .connectionError =>
      obtain ⟨before, status, rfl, hnames⟩ := ih hrest
      exact ⟨_ :: before, status, rfl, hnames⟩
    | .error .chunkedEncodingError =>
      obtain ⟨-, ho, -⟩ := hrest
      cases ho
    | .error .otherError =>
      obtain ⟨-, ho, -⟩ := hrest
      cases ho
    | .ok (status, listed) =>
      cases hstatus : isErrorStatus status with
      | true =>
        simp only [hstatus, if_true] at hrest
        obtain ⟨-, ho, -⟩ := hrest
        cases ho
      | false =>
        simp only [hstatus, Bool.false_eq_true, if_false] at hrest
        obtain ⟨rfl, ho, rfl⟩ := hrest
        obtain rfl := Except.ok.inj ho
        exact ⟨[], status, rfl, hok hstatus⟩

theorem rely_checkEmpty {u : Unit} (h : RelyRun cluster R checkEmpty s s' (.ok u) ms) :
    ∃ before status, ms = before ++ [⟨∅, .getBuckets, .ok (status, [])⟩] ∧ s' = ∅ := by
  rcases rely_bind h with ⟨names, t, ms₁, ms₂, hlist, hrest, rfl⟩ | ⟨x, -, ho⟩
  · obtain ⟨before, status, rfl, hnames⟩ := rely_getBucketNames hlist
    cases names with
    | nil =>
      obtain ⟨rfl, -, rfl⟩ := hrest
      obtain rfl : s' = ∅ := Finset.eq_empty_of_forall_notMem fun name hname => by
        cases (hnames name).mpr hname
      exact ⟨before, status, by rw [List.append_nil], rfl⟩
    | cons name names =>
      obtain ⟨-, ho, -⟩ := hrest
      cases ho
  · cases ho

/-- The calls after the check. -/
def Late (e : Ev) : Prop := e.q = .getIndexStatus ∨ ∃ statement, e.q = .postQuery statement

theorem calls_post (statement : String) : (post statement).Calls Late := by
  intro a
  refine ⟨.inr ⟨statement, rfl⟩, ?_⟩
  match a with
  | .error _ => exact trivial
  | .ok (_, none) => exact trivial
  | .ok (_, some _) => exact trivial

theorem calls_rowsLoop (statement : String) (fuel count : Nat) :
    (rowsLoop statement fuel count).Calls Late := by
  induction fuel generalizing count with
  | zero => exact trivial
  | succ fuel ih =>
    unfold rowsLoop
    split
    · refine Proc.calls_bind (calls_post statement) fun body _ => ?_
      split
      · split
        · exact trivial
        · exact ih (count + 1)
      · exact ih count
    · exact trivial

theorem calls_indexLoop (left : Nat) : (indexLoop left).Calls Late := by
  induction left with
  | zero => exact trivial
  | succ left ih =>
    intro a
    refine ⟨.inl rfl, ?_⟩
    match a with
    | .error _ => exact trivial
    | .ok (_, none) => exact trivial
    | .ok (_, some true) => exact ih
    | .ok (_, some false) => exact trivial

theorem calls_afterCheck (fuel : Nat) : (afterCheck fuel).Calls Late := by
  refine Proc.calls_bind (calls_indexLoop 5) fun _ _ => ?_
  refine Proc.calls_bind (calls_post _) fun _ _ => ?_
  refine Proc.calls_bind (calls_post _) fun _ _ => ?_
  refine Proc.calls_bind (calls_rowsLoop _ fuel 0) fun done _ => ?_
  cases done with
  | none => exact trivial
  | some _ => exact calls_rowsLoop _ fuel 0

/-- Nobody else creates buckets: then there are never more. -/
theorem rely_subset {α : Type} {p : Prog α} {o : Except Exn α} (hR : ∀ s t, R s t → t ⊆ s)
    (h : RelyRun cluster R p s s' o ms) : s' ⊆ s := by
  refine rely_inv (I := (· ⊆ s)) (fun t u htu ht => (hR t u htu).trans ht) (fun t q a _ ht => ?_) h
    (Finset.Subset.refl s)
  match q, a with
  | .deleteBucket name, .ok (status, _) =>
    simp only [cluster]
    split
    · exact (Finset.erase_subset name t).trans ht
    · exact ht
  | .deleteBucket name, .error _ => exact ht
  | .getPools, _ => exact ht
  | .getBuckets, _ => exact ht
  | .deleteUser _, _ => exact ht
  | .getIndexStatus, _ => exact ht
  | .postQuery _, _ => exact ht

/-- The bucket is gone, or a deletion was ignored; or there was no try. -/
theorem rely_deleteBucketLoop {name : String} {left : Nat} {resp : Option Nat} {u : Unit}
    (h : RelyRun cluster R (deleteBucketLoop name left resp) s s' (.ok u) ms) :
    name ∉ s' ∨ (∃ m ∈ ms, Ignored m) ∨ ms = [] ∧ ∃ status, resp = some status ∧ isErrorStatus status = false := by
  induction left generalizing s resp ms with
  | zero =>
    cases resp with
    | none =>
      obtain ⟨-, ho, -⟩ := h
      cases ho
    | some status =>
      cases hstatus : isErrorStatus status with
      | true =>
        simp only [deleteBucketLoop, hstatus, if_true] at h
        obtain ⟨-, ho, -⟩ := h
        cases ho
      | false =>
        simp only [deleteBucketLoop, hstatus, Bool.false_eq_true, if_false] at h
        exact .inr (.inr ⟨h.2.2, status, rfl, hstatus⟩)
  | succ left ih =>
    unfold deleteBucketLoop at h
    obtain ⟨t, a, rest, -, -, hrest, rfl⟩ := h
    rcases a with failure | ⟨status, _⟩
    · obtain ⟨-, ho, -⟩ := hrest
      cases ho
    · by_cases h200 : status = 200
      · simp only [h200, if_true] at hrest
        obtain ⟨rfl, -, -⟩ := hrest
        exact .inl (by simp [cluster])
      · simp only [h200, if_false] at hrest
        rcases ih hrest with hgone | ⟨m, hm, hignored⟩ | ⟨-, status', hs, hok⟩
        · exact .inl hgone
        · exact .inr (.inl ⟨m, List.mem_cons_of_mem _ hm, hignored⟩)
        · obtain rfl := Option.some.inj hs
          exact .inr (.inl ⟨_, List.mem_cons_self, t, name, status, rfl, h200, hok⟩)

theorem rely_deleteBucket {name : String} {u : Unit}
    (h : RelyRun cluster R (deleteBucket name) s s' (.ok u) ms) : name ∉ s' ∨ ∃ m ∈ ms, Ignored m := by
  rcases rely_bind h with ⟨version, t, ms₁, ms₂, -, h₂, rfl⟩ | ⟨x, -, ho⟩
  · cases hmajor : serverMajorVersion version with
    | none =>
      simp only [hmajor] at h₂
      obtain ⟨-, ho, -⟩ := h₂
      cases ho
    | some major =>
      simp only [hmajor] at h₂
      rcases rely_bind h₂ with ⟨_, t', ms₃, ms₄, -, h₄, rfl⟩ | ⟨x, -, ho⟩
      · rcases rely_deleteBucketLoop h₄ with hgone | ⟨m, hm, hignored⟩ | ⟨-, status, hs, -⟩
        · exact .inl hgone
        · exact .inr ⟨m, List.mem_append_right _ (List.mem_append_right _ hm), hignored⟩
        · cases hs
      · cases ho
  · cases ho

theorem rely_tryDelete {name : String} (h : RelyRun cluster R (tryDelete name) s s' (.ok false) ms) :
    name ∉ s' ∨ ∃ m ∈ ms, Ignored m := by
  rcases rely_tryCatch h with ⟨b, hrun, -⟩ | ⟨x, t, ms₁, ms₂, -, hhandler, -⟩
  · rcases rely_bind hrun with ⟨u, t, ms₁, ms₂, h₁, h₂, rfl⟩ | ⟨x, -, ho⟩
    · obtain ⟨rfl, -, rfl⟩ := h₂
      rw [List.append_nil]
      exact rely_deleteBucket h₁
    · cases ho
  · split at hhandler
    · obtain ⟨-, ho, -⟩ := hhandler
      cases ho
    · obtain ⟨-, ho, -⟩ := hhandler
      cases ho

/-- A pass without failures. -/
theorem rely_deleteEach (hR : ∀ s t, R s t → t ⊆ s) {names : List String} {numFailures failures : Nat}
    (h : RelyRun cluster R (deleteEach names numFailures) s s' (.ok failures) ms) :
    numFailures ≤ failures ∧
      (failures = 0 → (∀ name ∈ names, name ∉ s') ∨ ∃ m ∈ ms, Ignored m) := by
  induction names generalizing s numFailures ms with
  | nil =>
    obtain ⟨-, ho, -⟩ := h
    obtain rfl := Except.ok.inj ho
    exact ⟨Nat.le_refl _, fun _ => .inl fun name hname => absurd hname List.not_mem_nil⟩
  | cons name rest ih =>
    rcases rely_bind h with ⟨failed, t, ms₁, ms₂, h₁, h₂, rfl⟩ | ⟨x, -, ho⟩
    · obtain ⟨hle, hgone⟩ := ih h₂
      cases failed with
      | true =>
        simp only [if_true] at hle
        exact ⟨by omega, fun hzero => by omega⟩
      | false =>
        refine ⟨hle, fun hzero => ?_⟩
        rcases hgone hzero with hgone | ⟨m, hm, hignored⟩
        · rcases rely_tryDelete h₁ with hname | ⟨m, hm, hignored⟩
          · refine .inl (List.forall_mem_cons.mpr ⟨fun hs' => hname ?_, hgone⟩)
            exact rely_subset hR h₂ hs'
          · exact .inr ⟨m, List.mem_append_left _ hm, hignored⟩
        · exact .inr ⟨m, List.mem_append_right _ hm, hignored⟩
    · cases ho

theorem rely_deleteLoop (hR : ∀ s t, R s t → t ⊆ s) {left : Nat} {u : Unit}
    (h : RelyRun cluster R (deleteLoop left) s s' (.ok u) ms) : s' = ∅ ∨ ∃ m ∈ ms, Ignored m := by
  induction left generalizing s ms with
  | zero =>
    obtain ⟨-, ho, -⟩ := h
    cases ho
  | succ left ih =>
    rcases rely_bind h with ⟨names, t, ms₁, ms₂, h₁, h₂, rfl⟩ | ⟨x, -, ho⟩
    · obtain ⟨before, status, -, hnames⟩ := rely_getBucketNames h₁
      have hempty : ∀ u, u ⊆ t → (∀ name ∈ names, name ∉ u) → u = ∅ := fun u hu hgone =>
        Finset.eq_empty_of_forall_notMem fun name hname => hgone name ((hnames name).mpr (hu hname)) hname
      by_cases hlen : names.length = 0
      · simp only [hlen, if_true] at h₂
        obtain ⟨rfl, -, -⟩ := h₂
        rw [List.length_eq_zero_iff.mp hlen] at hempty
        exact .inl (hempty _ (Finset.Subset.refl _) fun name hname => absurd hname List.not_mem_nil)
      · simp only [hlen, if_false] at h₂
        rcases rely_bind h₂ with ⟨failures, t', ms₃, ms₄, h₃, h₄, rfl⟩ | ⟨x, -, ho⟩
        · by_cases hfailures : failures > 0
          · simp only [hfailures, if_true] at h₄
            rcases ih h₄ with hgone | ⟨m, hm, hignored⟩
            · exact .inl hgone
            · exact .inr ⟨m, List.mem_append_right _ (List.mem_append_right _ hm), hignored⟩
          · simp only [hfailures, if_false] at h₄
            obtain ⟨rfl, -, rfl⟩ := h₄
            rcases (rely_deleteEach hR h₃).2 (by omega) with hgone | ⟨m, hm, hignored⟩
            · exact .inl (hempty _ (rely_subset hR h₃) hgone)
            · exact .inr ⟨m, List.mem_append_right _ (List.mem_append_left _ hm), hignored⟩
        · cases ho
    · cases ho

theorem answer_nonempty (q : Query) : Nonempty (Answer q) := ⟨.error .otherError⟩

/-- However others change the buckets: when `delete_buckets` has come to its end, or waits for
the query service, there was a moment without any bucket after its last deletion. If the
others only remove buckets, there are none at the end; and if it raises that it failed to
delete all of them, then a deletion was answered with neither 200 nor an error. -/
theorem deleteBuckets_empties {fuel : Nat} {o : Except Exn (Option Unit)}
    (h : RelyRun cluster R (deleteBuckets fuel) s s' o ms) :
    (∀ r, o = .ok r → ∃ before status after, ms = before ++ ⟨∅, .getBuckets, .ok (status, [])⟩ :: after ∧
      ∀ m ∈ after, m.q = .getIndexStatus ∨ ∃ statement, m.q = .postQuery statement) ∧
    ((∀ s t, R s t → t ⊆ s) → (∀ r, o = .ok r → s' = ∅) ∧
      (o = .error (.cbServerError failedToDelete) → ∃ m ∈ ms, Ignored m)) := by
  have hearly : ∀ {α} {p : Prog α} {s s' ms} {Pre : List Ev → Prop} {Q}, Pre [] → Proc.Triple Pre p Q Early →
      ¬ RelyRun cluster R p s s' (.error (.cbServerError failedToDelete)) ms := by
    intro α p s s' ms Pre Q hpre htriple hrun
    obtain ⟨reply, hlog⟩ := rely_log answer_nonempty hrun []
    exact (htriple.raises reply _ _ _ hpre hlog).2 rfl
  rcases rely_bind h with ⟨_, t, ms₁, ms₂, hloop, h₂, rfl⟩ | ⟨x, hx, rfl⟩
  · rcases rely_bind h₂ with ⟨_, t', ms₃, ms₄, hcheck, h₄, rfl⟩ | ⟨x, hx, rfl⟩
    · obtain ⟨before, status, rfl, rfl⟩ := rely_checkEmpty hcheck
      refine ⟨fun r _ => ?_, fun hR => ⟨fun r _ => ?_, fun ho => ?_⟩⟩
      · refine ⟨ms₁ ++ before, status, ms₄, by simp, fun m hm => ?_⟩
        exact rely_calls (calls_afterCheck fuel) h₄ m hm
      · exact Finset.subset_empty.mp (rely_subset hR h₄)
      · rw [ho] at h₄
        exact absurd h₄ (hearly trivial (triple_afterCheck fuel))
    · refine ⟨fun r hr => (by cases hr), fun hR => ⟨fun r hr => (by cases hr), fun ho => ?_⟩⟩
      obtain rfl := Except.error.inj ho
      rcases rely_deleteLoop hR hloop with hgone | ⟨m, hm, hignored⟩
      · -- the listing of no bucket is empty
        rcases rely_bind hx with ⟨names, t', ms₃, ms₄, hlist, hrest, rfl⟩ | ⟨y, hy, hsame⟩
        · obtain ⟨before, status, -, hnames⟩ := rely_getBucketNames hlist
          have hsub := rely_subset hR hlist
          rw [hgone] at hsub
          cases names with
          | nil =>
            obtain ⟨-, hsame, -⟩ := hrest
            cases hsame
          | cons name names => cases hsub ((hnames name).mp List.mem_cons_self)
        · obtain rfl := Except.error.inj hsame
          exact absurd hy (hearly (Nat.zero_le _) (triple_getBucketNames 0))
      · exact ⟨m, List.mem_append_left _ hm, hignored⟩
  · refine ⟨fun r hr => (by cases hr), fun hR => ⟨fun r hr => (by cases hr), fun ho => ?_⟩⟩
    obtain rfl := Except.error.inj ho
    exact absurd hx (hearly (Nat.zero_le _) (triple_deleteLoop 0 maxRetries (Nat.zero_add _)))

theorem rely_next {p : Prog (Option Unit)} {q : Query} {k : Answer q → Prog (Option Unit)} (hp : p = .call q k)
    {o : Except Exn (Option Unit)} (a : Answer q) (hok : cluster.ok s q a)
    (h : ∃ s' ms, RelyRun cluster Eq (k a) (cluster.next s q a) s' o ms) :
    ∃ s' ms, RelyRun cluster Eq p s s' o ms := by
  subst hp
  obtain ⟨s', ms, h⟩ := h
  exact ⟨s', ⟨s, q, a⟩ :: ms, s, a, ms, rfl, hok, h, rfl⟩

/-- One bucket, on a server before version 5. -/
theorem deleteBuckets_oneBucket : ∃ s' ms, RelyRun cluster Eq (deleteBuckets 1) {"data"} s' (.ok (some ())) ms ∧
    s' = ∅ := by
  have hrun : ∃ s' ms, RelyRun cluster Eq (deleteBuckets 1) {"data"} s' (.ok (some ())) ms := by
    refine rely_next rfl (.ok (200, ["data"])) (fun _ name => by simp) ?_
    refine rely_next rfl (.ok (200, "4.6.4-4590-enterprise")) trivial ?_
    refine rely_next rfl (.ok (200, ())) trivial ?_
    refine rely_next rfl (.ok (200, [])) (fun _ name => by simp [cluster]) ?_
    refine rely_next rfl (.ok (200, some false)) trivial ?_
    refine rely_next rfl (.ok (200, some ⟨"success", 0⟩)) trivial ?_
    refine rely_next rfl (.ok (200, some ⟨"success", 0⟩)) trivial ?_
    refine rely_next rfl (.ok (200, some ⟨"success", 0⟩)) trivial ?_
    refine rely_next rfl (.ok (200, some ⟨"success", 0⟩)) trivial ?_
    exact ⟨_, _, rfl, rfl, rfl⟩
  obtain ⟨s', ms, h⟩ := hrun
  exact ⟨s', ms, h, ((deleteBuckets_empties h).2 fun s t hst => hst ▸ Finset.Subset.refl s).1 _ rfl⟩

end Others

/-! ## When it never ends -/

section Forever
variable (reply : Replies sig) (statement : String)

/-- The conversation after asking the statement `k` times. -/
def asked (h : List Ev) : Nat → List Ev
  | 0 => h
  | k + 1 => asked h k ++ [⟨.postQuery statement, reply (asked h k) (.postQuery statement)⟩]

/-- What the statement is answered after that. -/
def answerAt (h : List Ev) (k : Nat) : Answer (.postQuery statement) :=
  reply (asked reply statement h k) (.postQuery statement)

def isSuccess (a : Except Failure (Nat × Option QueryBody)) : Bool :=
  match a with
  | .ok (_, some body) => body.status == "success"
  | _ => false

/-- The answer can be read and does not say that there are no rows. -/
def Unfinished (a : Except Failure (Nat × Option QueryBody)) : Prop :=
  ∃ status body, a = .ok (status, some body) ∧ (body.status = "success" → body.resultCount ≠ 0)

/-- How many of the first `k` answers are counted. -/
def successes (h : List Ev) (k : Nat) : Nat := (List.range k).countP fun j => isSuccess (answerAt reply statement h j)

/-- The statement is asked again and again. -/
def Spins (h : List Ev) : Prop :=
  ∀ k, successes reply statement h k < 5 ∧ Unfinished (answerAt reply statement h k)

variable {reply statement}

theorem asked_succ (h : List Ev) (k : Nat) :
    asked reply statement h (k + 1) =
      asked reply statement (h ++ [⟨.postQuery statement, reply h (.postQuery statement)⟩]) k := by
  induction k with
  | zero => rfl
  | succ k ih => rw [asked, ih, asked]

theorem successes_succ (h : List Ev) (k : Nat) :
    successes reply statement h (k + 1) = (if isSuccess (answerAt reply statement h 0) then 1 else 0) +
      successes reply statement (h ++ [⟨.postQuery statement, reply h (.postQuery statement)⟩]) k := by
  unfold successes
  rw [List.range_succ_eq_map, List.countP_cons, List.countP_map, Nat.add_comm]
  congr 1
  refine List.countP_congr fun j _ => ?_
  simp only [Function.comp_apply, answerAt, asked_succ]

/-- The loop goes on past the first `fuel` answers. -/
def Passes (reply : Replies sig) (statement : String) (fuel count : Nat) (h : List Ev) : Prop :=
  ∀ k < fuel, count + successes reply statement h k < 5 ∧ Unfinished (answerAt reply statement h k)

theorem passes_succ {fuel count : Nat} {h : List Ev} :
    Passes reply statement (fuel + 1) count h ↔ (count < 5 ∧ Unfinished (answerAt reply statement h 0)) ∧
      Passes reply statement fuel (count + if isSuccess (answerAt reply statement h 0) then 1 else 0)
        (h ++ [⟨.postQuery statement, reply h (.postQuery statement)⟩]) := by
  have hshift : ∀ k, answerAt reply statement h (k + 1) =
      answerAt reply statement (h ++ [⟨.postQuery statement, reply h (.postQuery statement)⟩]) k := fun k => by
    rw [answerAt, asked_succ, answerAt]
  constructor
  · intro hall
    refine ⟨hall 0 (Nat.succ_pos fuel), fun k hk => ?_⟩
    have := hall (k + 1) (by omega)
    rw [successes_succ, hshift] at this
    rwa [Nat.add_assoc]
  · intro hall k hk
    cases k with
    | zero => exact hall.1
    | succ k =>
      have := hall.2 k (by omega)
      rw [successes_succ, hshift]
      rwa [Nat.add_assoc] at this

/-- The loop ends behind `n` answers: it has counted five successes, or the next answer says
that there are no rows. The conversation is then `h'`. -/
def FinishesAt (reply : Replies sig) (statement : String) (n count : Nat) (h h' : List Ev) : Prop :=
  Passes reply statement n count h ∧
    (5 ≤ count + successes reply statement h n ∧ h' = asked reply statement h n ∨
      count + successes reply statement h n < 5 ∧
        (∃ status, answerAt reply statement h n = .ok (status, some ⟨"success", 0⟩)) ∧
        h' = asked reply statement h (n + 1))

/-- The fuel lasts until then. -/
def Finishes (reply : Replies sig) (statement : String) (fuel count : Nat) (h h' : List Ev) : Prop :=
  ∃ n < fuel, FinishesAt reply statement n count h h'

theorem passes_zero (count : Nat) (h : List Ev) : Passes reply statement 0 count h :=
  fun k hk => absurd hk (Nat.not_lt_zero k)

theorem finishes_succ {fuel count : Nat} {h h' : List Ev} (hcount : count < 5)
    (hunfinished : Unfinished (answerAt reply statement h 0)) :
    Finishes reply statement (fuel + 1) count h h' ↔
      Finishes reply statement fuel (count + if isSuccess (answerAt reply statement h 0) then 1 else 0)
        (h ++ [⟨.postQuery statement, reply h (.postQuery statement)⟩]) h' := by
  have hanswer : ∀ k, answerAt reply statement h (k + 1) =
      answerAt reply statement (h ++ [⟨.postQuery statement, reply h (.postQuery statement)⟩]) k := fun k => by
    rw [answerAt, asked_succ, answerAt]
  constructor
  · intro hfinish
    obtain ⟨n, hn, hpasses, hend⟩ := hfinish
    cases n with
    | zero =>
      -- the first answer is unfinished
      rcases hend with ⟨hfive, -⟩ | ⟨-, ⟨status, hzero⟩, -⟩
      · have hnone : successes reply statement h 0 = 0 := rfl
        omega
      · obtain ⟨_, _, ha, hrows⟩ := hunfinished
        rw [hzero] at ha
        cases ha
        exact absurd rfl (hrows rfl)
    | succ n =>
      rw [successes_succ, hanswer, asked_succ, asked_succ, ← Nat.add_assoc] at hend
      exact ⟨n, by omega, (passes_succ.mp hpasses).2, hend⟩
  · intro hfinish
    obtain ⟨n, hn, hpasses, hend⟩ := hfinish
    refine ⟨n + 1, by omega, passes_succ.mpr ⟨⟨hcount, hunfinished⟩, hpasses⟩, ?_⟩
    rw [successes_succ, hanswer, asked_succ, asked_succ, ← Nat.add_assoc]
    exact hend

theorem finishes_first {fuel count : Nat} {h h' : List Ev} (hcount : count < 5)
    (hlast : ¬ Unfinished (answerAt reply statement h 0)) :
    Finishes reply statement (fuel + 1) count h h' ↔
      (∃ status, answerAt reply statement h 0 = .ok (status, some ⟨"success", 0⟩)) ∧
        h' = asked reply statement h 1 := by
  have hnone : successes reply statement h 0 = 0 := rfl
  constructor
  · intro hfinish
    obtain ⟨n, -, hpasses, hend⟩ := hfinish
    cases n with
    | zero =>
      rcases hend with ⟨hfive, -⟩ | ⟨-, hzero, hh⟩
      · omega
      · exact ⟨hzero, hh⟩
    | succ n => exact absurd (passes_succ.mp hpasses).1.2 hlast
  · intro hfirst
    exact ⟨0, Nat.succ_pos fuel, passes_zero count h, .inr ⟨by omega, hfirst⟩⟩

theorem rowsLoop_log {count : Nat} (hcount : count < 5) (fuel : Nat) (h : List Ev) :
    (rowsLoop statement (fuel + 1) count).log reply h =
      ((received (answerAt reply statement h 0)).bind fun body =>
          if body.status = "success" then
            if body.resultCount = 0 then .ret (some ()) else rowsLoop statement fuel (count + 1)
          else rowsLoop statement fuel count).log reply (asked reply statement h 1) := by
  rw [rowsLoop, if_pos hcount]
  rfl

theorem rowsLoop_goes {count : Nat} (hcount : count < 5) {h : List Ev}
    (hunfinished : Unfinished (answerAt reply statement h 0)) (fuel : Nat) :
    (rowsLoop statement (fuel + 1) count).log reply h =
      (rowsLoop statement fuel (count + if isSuccess (answerAt reply statement h 0) then 1 else 0)).log reply
        (asked reply statement h 1) := by
  rw [rowsLoop_log hcount]
  obtain ⟨status, body, ha, hrows⟩ := hunfinished
  rw [ha]
  by_cases hsuccess : body.status = "success"
  · simp [received, isSuccess, hsuccess, hrows hsuccess]
  · simp [received, isSuccess, hsuccess]

/-- Another answer ends it. -/
theorem rowsLoop_stops {count : Nat} (hcount : count < 5) {h : List Ev}
    (hlast : ¬ Unfinished (answerAt reply statement h 0)) (fuel : Nat) :
    (∃ status, answerAt reply statement h 0 = .ok (status, some ⟨"success", 0⟩)) ∧
        (rowsLoop statement (fuel + 1) count).log reply h = (asked reply statement h 1, .ok (some ())) ∨
      (¬ ∃ status, answerAt reply statement h 0 = .ok (status, some ⟨"success", 0⟩)) ∧
        ∃ x, (rowsLoop statement (fuel + 1) count).log reply h = (asked reply statement h 1, .error x) := by
  rw [rowsLoop_log hcount]
  generalize answerAt reply statement h 0 = a at *
  match a with
  | .error failure => exact .inr ⟨by simp, _, rfl⟩
  | .ok (_, none) => exact .inr ⟨by simp, _, rfl⟩
  | .ok (status, some ⟨said, resultCount⟩) =>
    have hzero : said = "success" ∧ resultCount = 0 := by
      by_contra hno
      exact hlast ⟨status, ⟨said, resultCount⟩, rfl, fun hs hr => hno ⟨hs, hr⟩⟩
    obtain ⟨rfl, rfl⟩ := hzero
    exact .inl ⟨⟨status, rfl⟩, rfl⟩

/-- The loop uses up its fuel exactly if it goes on past as many answers, and where it ends. -/
theorem rowsLoop_iff (fuel count : Nat) (h : List Ev) :
    (((rowsLoop statement fuel count).log reply h).2 = .ok none ↔ Passes reply statement fuel count h) ∧
      ∀ h', (rowsLoop statement fuel count).log reply h = (h', .ok (some ())) ↔
        Finishes reply statement fuel count h h' := by
  induction fuel generalizing count h with
  | zero =>
    refine ⟨iff_of_true rfl (passes_zero count h), fun h' => iff_of_false (fun hlog => by cases hlog) fun hfin => ?_⟩
    obtain ⟨n, hn, -⟩ := hfin
    exact absurd hn (Nat.not_lt_zero n)
  | succ fuel ih =>
    by_cases hcount : count < 5
    · rw [passes_succ]
      by_cases hunfinished : Unfinished (answerAt reply statement h 0)
      · rw [rowsLoop_goes hcount hunfinished]
        exact ⟨(ih _ _).1.trans (and_iff_right ⟨hcount, hunfinished⟩).symm,
          fun h' => ((ih _ _).2 h').trans (finishes_succ hcount hunfinished).symm⟩
      · rcases rowsLoop_stops hcount hunfinished fuel with ⟨hzero, hlog⟩ | ⟨hzero, x, hlog⟩
        · rw [hlog]
          refine ⟨iff_of_false (fun hnone => by cases hnone) fun hall => hunfinished hall.1.2, fun h' => ?_⟩
          rw [finishes_first hcount hunfinished, and_iff_right hzero]
          exact ⟨fun he => (Prod.mk.inj he).1.symm, fun he => by rw [he]⟩
        · rw [hlog]
          refine ⟨iff_of_false (fun hnone => by cases hnone) fun hall => hunfinished hall.1.2, fun h' => ?_⟩
          rw [finishes_first hcount hunfinished]
          exact iff_of_false (fun he => by cases (Prod.mk.inj he).2) fun hfin => hzero hfin.1
    · -- it has counted five
      have hlog : (rowsLoop statement (fuel + 1) count).log reply h = (h, .ok (some ())) := by
        rw [rowsLoop, if_neg hcount]
        rfl
      rw [hlog]
      refine ⟨iff_of_false (fun hnone => by cases hnone) fun hall => hcount (passes_succ.mp hall).1.1, fun h' => ?_⟩
      constructor
      · intro he
        exact ⟨0, Nat.succ_pos fuel, passes_zero count h, .inl ⟨by omega, (Prod.mk.inj he).1.symm⟩⟩
      · intro hfinish
        obtain ⟨n, -, hpasses, hend⟩ := hfinish
        cases n with
        | zero =>
          rcases hend with ⟨-, rfl⟩ | ⟨hless, -⟩
          · rfl
          · omega
        | succ n => exact absurd (passes_succ.mp hpasses).1.1 hcount

theorem rowsLoop_spins_iff (h : List Ev) :
    (∀ fuel, ((rowsLoop statement fuel 0).log reply h).2 = .ok none) ↔ Spins reply statement h := by
  constructor
  · intro hall k
    have := (rowsLoop_iff (k + 1) 0 h).1.mp (hall (k + 1)) k (Nat.lt_succ_self k)
    rwa [Nat.zero_add] at this
  · intro hspins fuel
    refine (rowsLoop_iff fuel 0 h).1.mpr fun k _ => ?_
    rw [Nat.zero_add]
    exact hspins k

/-- What comes before the two loops. -/
def untilLoops : Prog Unit :=
  (deleteLoop maxRetries).bind fun _ =>
    checkEmpty.bind fun _ =>
      (indexLoop 5).bind fun _ =>
        (post "delete from system:prepareds").bind fun _ => (post "delete from system:indexes").void

def waits (fuel : Nat) : Prog (Option Unit) :=
  (rowsLoop selectPrepareds fuel 0).bind fun done =>
    match done with
    | none => .ret none
    | some _ => rowsLoop selectIndexes fuel 0

theorem deleteBuckets_eq (fuel : Nat) : deleteBuckets fuel = untilLoops.bind fun _ => waits fuel := by
  simp only [untilLoops, Proc.void, Proc.bind_assoc, Proc.ret_bind]
  rfl

theorem Passes.mono {fuel fuel' : Nat} {h : List Ev} (hpasses : Passes reply statement fuel 0 h)
    (hle : fuel' ≤ fuel) : Passes reply statement fuel' 0 h := fun k hk => hpasses k (by omega)

/-- The two loops with their fuel: the first one finishes behind `n` answers. -/
theorem waits_of_finishes {n fuel : Nat} {h h' : List Ev} (hfinish : FinishesAt reply selectPrepareds n 0 h h') :
    ((waits fuel).log reply h).2 = .ok none ↔ n < fuel → Passes reply selectIndexes fuel 0 h' := by
  by_cases hn : n < fuel
  · have hlog := ((rowsLoop_iff fuel 0 h).2 h').mpr ⟨n, hn, hfinish⟩
    rw [waits, Proc.log_bind_ok reply hlog, (rowsLoop_iff fuel 0 h').1]
    exact ⟨fun h _ => h, fun h => h hn⟩
  · have hnone := (@rowsLoop_iff reply selectPrepareds fuel 0 h).1.mpr (hfinish.1.mono (not_lt.mp hn))
    refine iff_of_true ?_ fun hlt => absurd hlt hn
    cases hrun : (rowsLoop selectPrepareds fuel 0).log reply h with
    | mk h₁ o =>
      rw [hrun] at hnone
      obtain rfl : o = .ok none := hnone
      rw [waits, Proc.log_bind_ok reply hrun]
      rfl

theorem waits_spins_iff (h : List Ev) :
    (∀ fuel, ((waits fuel).log reply h).2 = .ok none) ↔
      Spins reply selectPrepareds h ∨
        ∃ n h', FinishesAt reply selectPrepareds n 0 h h' ∧ Spins reply selectIndexes h' := by
  constructor
  · intro hall
    by_cases hspins : Spins reply selectPrepareds h
    · exact .inl hspins
    · rw [← rowsLoop_spins_iff, not_forall] at hspins
      obtain ⟨fuel, hfuel⟩ := hspins
      have hwaits := hall fuel
      cases hrun : (rowsLoop selectPrepareds fuel 0).log reply h with
      | mk h' o =>
        rw [hrun] at hfuel
        cases o with
        | error x =>
          rw [waits, Proc.log_bind_error reply hrun] at hwaits
          cases hwaits
        | ok done =>
          cases done with
          | none => exact absurd rfl hfuel
          | some u =>
            obtain ⟨n, hn, hfinish⟩ := ((rowsLoop_iff fuel 0 h).2 h').mp hrun
            refine .inr ⟨n, h', hfinish, fun k => ?_⟩
            have hpasses := (waits_of_finishes hfinish).mp (hall (n + k + 1)) (by omega) k (by omega)
            rwa [Nat.zero_add] at hpasses
  · intro hcond fuel
    rcases hcond with hspins | ⟨n, h', hfinish, hspins⟩
    · have hnone := rowsLoop_spins_iff h |>.mpr hspins fuel
      cases hrun : (rowsLoop selectPrepareds fuel 0).log reply h with
      | mk h₁ o =>
        rw [hrun] at hnone
        obtain rfl : o = .ok none := hnone
        rw [waits, Proc.log_bind_ok reply hrun]
        rfl
    · refine (waits_of_finishes hfinish).mpr fun _ => (rowsLoop_iff fuel 0 h').1.mp ?_
      exact (rowsLoop_spins_iff h').mpr hspins fuel

/-- It never ends exactly if, after all else, one of the two statements is answered again and
again without an error, without being told that there are no rows, and with fewer than five
successes: any other status is not counted. -/
theorem deleteBuckets_forever_iff (reply : Replies sig) :
    (∀ fuel, ((deleteBuckets fuel).log reply []).2 = .ok none) ↔
      ∃ h, untilLoops.log reply [] = (h, .ok ()) ∧
        (Spins reply selectPrepareds h ∨
          ∃ n h', FinishesAt reply selectPrepareds n 0 h h' ∧ Spins reply selectIndexes h') := by
  simp only [deleteBuckets_eq, ← waits_spins_iff]
  cases hrun : untilLoops.log reply [] with
  | mk h o =>
    cases o with
    | error x =>
      refine iff_of_false (fun hall => ?_) fun hcond => ?_
      · have := hall 0
        rw [Proc.log_bind_error reply hrun] at this
        cases this
      · obtain ⟨h', he, -⟩ := hcond
        cases he
    | ok u =>
      simp only [Proc.log_bind_ok reply hrun]
      exact ⟨fun hall => ⟨h, rfl, hall⟩, fun hcond => by
        obtain ⟨h', he, hall⟩ := hcond
        cases he
        exact hall⟩

end Forever
end MobileTestkit.L2.DeleteBuckets
