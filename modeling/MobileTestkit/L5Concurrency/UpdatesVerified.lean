import MobileTestkit.Core.Shards
import MobileTestkit.L4App.VerifyChanges
import MobileTestkit.L5Concurrency.UserUpdates

/-!
# Updates that are verified

`User.update_docs` (L5Concurrency.UserUpdates) on the documents that the user has created,
and then `verify_changes` (L4App.VerifyChanges) with the cache of the user as what is
expected. A document has a revision, whose generation counts its writes, and a PUT is
accepted only with the current revision; others may write to it at any time, the tasks run
in any interleaving, and any request may be refused.

* `task_run`: what a task without errors leaves in its document, and which revision is the last
  that it is told.
* `exists_served`: in any interleaving the tasks are answered by a function, as `updateDocs`
  takes it.
* `updated_cache`: what the call without errors leaves in the cache.
* `verified_iff`: the check passes exactly if nobody else has written.
-/
namespace MobileTestkit.L5.UpdatesVerified

open MobileTestkit.Core MobileTestkit.L5.UserUpdates
open MobileTestkit.L4.VerifyChanges (Complete Correct Entry Expected Passes Result User Users checkUsers_iff docsOf
  generation getChanges verifyChanges verifyChanges_eq_ok)

/-- A document as it is stored: how often it has been written, its revision and its count of
updates. -/
structure Stored where
  gen : Nat
  rev : String
  updates : Int

/-- The revision has the generation. -/
def Stored.Wf (s : Stored) : Prop := generation s.rev = some (s.gen : Int)

instance (s : Stored) : Decidable s.Wf := inferInstanceAs (Decidable (_ = _))

/-- A GET answers with the document, or refuses; a PUT is accepted only with the current
revision, and makes the next one. -/
def Stored.Answers (s : Stored) : (q : Query) → Answer q → Prop
  | .getDoc _ _, (.found doc : GetAnswer) => doc.data.get? "_rev" = some (.str s.rev) ∧ doc.updates = s.updates
  | .getDoc _ _, (.other _ status _ : GetAnswer) => 400 ≤ status
  | .putDoc _ _ data, (.created _ rev : PutAnswer) =>
    data.get? "_rev" = some (.str s.rev) ∧ generation rev = some ((s.gen + 1 : Nat) : Int)
  | .putDoc _ _ _, (.failed _ _ _ : PutAnswer) => True

/-- The count of updates in the body of a PUT. -/
def updatesOf (data : Dict) : Int :=
  match data.get? "updates" with
  | some (.int n) => n
  | _ => 0

def Stored.next (s : Stored) : (q : Query) → Answer q → Stored
  | .putDoc _ _ data, (.created _ rev : PutAnswer) => ⟨s.gen + 1, rev, updatesOf data⟩
  | _, _ => s

def gateway : Server sig Stored where
  ok := Stored.Answers
  next := Stored.next

/-- What others may do: nothing, or write to the document. -/
def Others (s t : Stored) : Prop := t = s ∨ (s.gen < t.gen ∧ t.Wf)

theorem Others.refl (s : Stored) : Others s s := .inl rfl

theorem Others.wf {s t : Stored} (h : Others s t) (hs : s.Wf) : t.Wf := by
  rcases h with rfl | ⟨-, ht⟩
  · exact hs
  · exact ht

theorem Others.gen_le {s t : Stored} (h : Others s t) : s.gen ≤ t.gen := by
  rcases h with rfl | ⟨hlt, -⟩
  · exact Nat.le_refl _
  · omega

theorem Others.trans {s t u : Stored} (h : Others s t) (h' : Others t u) : Others s u := by
  rcases h' with rfl | ⟨hlt, hu⟩
  · exact h
  · have hle := h.gen_le
    exact .inr ⟨by omega, hu⟩

theorem Others.eq_of_gen {s t : Stored} (h : Others s t) (hgen : t.gen = s.gen) : t = s := by
  rcases h with rfl | ⟨hlt, -⟩
  · rfl
  · omega

/-- A revision that is still current has not been written over. -/
theorem Others.eq_of_rev {s t : Stored} (h : Others s t) (hs : s.Wf) (hrev : t.rev = s.rev) : t = s := by
  refine h.eq_of_gen ?_
  have ht := h.wf hs
  unfold Stored.Wf at hs ht
  rw [hrev, hs] at ht
  exact Int.ofNat.inj (Option.some.inj ht).symm

/-! ## One task -/

section Task
variable {answer : (q : Query) → Answer q} {docId : String}

/-- The answers of a run are those that are given. -/
def Told (answer : (q : Query) → Answer q) (ms : List (Moment sig Stored)) : Prop :=
  ∀ m ∈ ms, answer m.q = m.a

/-- The document after an update of it, that is answered `rev`. -/
def Stored.updated (s : Stored) (rev : String) : Stored := ⟨s.gen + 1, rev, s.updates + 1⟩

theorem updatesOf_revised (doc : Document) : updatesOf (revised doc) = doc.updates + 1 := by
  rw [updatesOf, revised, PyDict.get?_set, if_pos rfl]

theorem rev_revised (doc : Document) : (revised doc).get? "_rev" = doc.data.get? "_rev" := by
  rw [revised, PyDict.get?_set, if_neg (by decide)]

/-- One update without an error: nobody writes between the GET and the PUT. -/
theorem update_run {left i : Nat} {acc : Dict} {s u : Stored} {o : Except Exn Dict}
    {ms : List (Moment sig Stored)} (hs : s.Wf)
    (h : RelyRun gateway Others (updateDoc docId (left + 1) i acc) s u o ms) (htold : Told answer ms)
    (hnone : errorAt answer docId i = none) :
    ∃ t rev acc' rest, Others s t ∧ revAt answer docId i = some rev ∧ (t.updated rev).Wf ∧
      RelyRun gateway Others (updateDoc docId left (i + 1) acc') (t.updated rev) u o rest ∧ Told answer rest := by
  rw [updateDoc] at h
  obtain ⟨t, (a : GetAnswer), rest, hst, hok, hrest, rfl⟩ := h
  have hget : (answer (.getDoc docId i) : GetAnswer) = a := htold _ List.mem_cons_self
  cases a with
  | other url status hother =>
    have hstatus : 400 ≤ status := hok
    simp [errorAt, hget, hstatus] at hnone
  | found doc =>
    obtain ⟨hrev, hupdates⟩ := hok
    obtain ⟨t', (b : PutAnswer), rest', htt, hput, hrun, rfl⟩ := hrest
    have htold' : (answer (.putDoc docId i (revised doc)) : PutAnswer) = b :=
      htold _ (List.mem_cons_of_mem _ List.mem_cons_self)
    cases b with
    | failed url status hfail => simp [errorAt, hget, htold'] at hnone
    | created id rev =>
      obtain ⟨hcurrent, hgen⟩ := hput
      -- the PUT carries the revision of the GET, which is still current
      rw [rev_revised, hrev] at hcurrent
      obtain rfl : t' = t := Others.eq_of_rev htt (hst.wf hs) (JsonValue.str.inj (Option.some.inj hcurrent)).symm
      simp only [created_rev] at hrun
      have hnext : gateway.next t' (.putDoc docId i (revised doc)) (PutAnswer.created id rev) = t'.updated rev := by
        change Stored.mk _ _ (updatesOf (revised doc)) = _
        rw [updatesOf_revised, hupdates]
        rfl
      refine ⟨t', rev, acc.set docId (.str rev), rest', hst, by simp [revAt, hget, htold'], hgen, ?_, fun m hm =>
        htold m (List.mem_cons_of_mem _ (List.mem_cons_of_mem _ hm))⟩
      rw [← hnext]
      exact hrun

/-- What `n` updates, and maybe others, have made of a document. -/
structure Chained (s u : Stored) (n : Nat) : Prop where
  wf : u.Wf
  gen : s.gen + n ≤ u.gen
  alone : u.gen = s.gen + n → u.updates = s.updates + n

theorem revs_cons {i : Nat} (is : List Nat) {rev : String} (h : errorAt answer docId i = none)
    (hrev : revAt answer docId i = some rev) :
    revs answer docId (i :: is) = rev :: revs answer docId is := by
  simp [revs, h, hrev]

/-- A task without errors, by induction on the updates that are left. -/
theorem task_run {left i : Nat} {acc : Dict} {s u : Stored} {o : Except Exn Dict}
    {ms : List (Moment sig Stored)} (hs : s.Wf)
    (h : RelyRun gateway Others (updateDoc docId left i acc) s u o ms) (htold : Told answer ms)
    (hnone : ∀ j ∈ List.range' i left, errorAt answer docId j = none) :
    Chained s u left ∧ (revs answer docId (List.range' i left)).getLast?.getD s.rev = u.rev := by
  induction left generalizing i acc s ms with
  | zero =>
    obtain ⟨rfl, -, -⟩ := h
    exact ⟨⟨hs, Nat.le_refl _, fun _ => (Int.add_zero _).symm⟩, rfl⟩
  | succ left ih =>
    rw [List.range'_succ, List.forall_mem_cons] at hnone
    obtain ⟨t, rev, acc', rest, hst, hrev, hwf, hrun, hrest⟩ := update_run hs h htold hnone.1
    obtain ⟨hchain, hlast⟩ := ih hwf hrun hrest hnone.2
    have hle := hst.gen_le
    have hgen := hchain.gen
    simp only [Stored.updated] at hgen
    refine ⟨⟨hchain.wf, by omega, fun heq => ?_⟩, ?_⟩
    · obtain rfl := hst.eq_of_gen (by omega)
      have halone := hchain.alone (by simp only [Stored.updated]; omega)
      simp only [Stored.updated] at halone
      omega
    · rw [List.range'_succ, revs_cons _ hnone.1 hrev, List.getLast?_cons]
      exact hlast

end Task

/-! ## The answers to all tasks -/

def docIdOf : Query → String
  | .getDoc docId _ => docId
  | .putDoc docId _ _ => docId

def numberOf : Query → Nat
  | .getDoc _ i => i
  | .putDoc _ i _ => i

/-- A task asks for its own document only, and never the same twice: a later question is about a
later update. -/
theorem asked_once {R : Stored → Stored → Prop} {docId : String} {left i : Nat} {acc : Dict} {s u : Stored}
    {o : Except Exn Dict} {ms : List (Moment sig Stored)}
    (h : RelyRun gateway R (updateDoc docId left i acc) s u o ms) :
    (∀ m ∈ ms, docIdOf m.q = docId ∧ i ≤ numberOf m.q) ∧ (ms.map Moment.q).Nodup := by
  induction left generalizing i acc s ms with
  | zero =>
    obtain ⟨-, -, rfl⟩ := h
    exact ⟨fun m hm => absurd hm List.not_mem_nil, List.nodup_nil⟩
  | succ left ih =>
    rw [updateDoc] at h
    obtain ⟨t, (a : GetAnswer), rest, -, hok, hrest, rfl⟩ := h
    cases a with
    | other url status hother =>
      have hstatus : 400 ≤ status := hok
      simp only [if_pos hstatus] at hrest
      obtain ⟨-, -, rfl⟩ := hrest
      exact ⟨List.forall_mem_singleton.mpr ⟨rfl, Nat.le_refl i⟩, List.nodup_singleton _⟩
    | found doc =>
      obtain ⟨t', (b : PutAnswer), rest', -, -, hrun, rfl⟩ := hrest
      have hrest : (∀ m ∈ rest', docIdOf m.q = docId ∧ i + 1 ≤ numberOf m.q) ∧
          (rest'.map Moment.q).Nodup := by
        cases b with
        | created id rev =>
          simp only [created_rev] at hrun
          exact ih hrun
        | failed url status hfail =>
          simp only [PutAnswer.json] at hrun
          cases hdata : (revised doc).get? "rev" with
          | none =>
            rw [hdata] at hrun
            obtain ⟨-, -, rfl⟩ := hrun
            exact ⟨fun m hm => absurd hm List.not_mem_nil, List.nodup_nil⟩
          | some rev =>
            rw [hdata] at hrun
            obtain ⟨-, -, rfl⟩ := hrun
            exact ⟨fun m hm => absurd hm List.not_mem_nil, List.nodup_nil⟩
      obtain ⟨hlater, hnodup⟩ := hrest
      have hnew : ∀ q : Query, numberOf q = i → q ∉ rest'.map Moment.q := by
        intro q hq hmem
        obtain ⟨m, hm, rfl⟩ := List.mem_map.mp hmem
        have hle := (hlater m hm).2
        omega
      refine ⟨List.forall_mem_cons.mpr ⟨⟨rfl, Nat.le_refl i⟩, List.forall_mem_cons.mpr ⟨⟨rfl, Nat.le_refl i⟩,
        fun m hm => ⟨(hlater m hm).1, Nat.le_of_succ_le (hlater m hm).2⟩⟩⟩, ?_⟩
      refine List.nodup_cons.mpr ⟨?_, List.nodup_cons.mpr ⟨hnew _ rfl, hnodup⟩⟩
      intro hmem
      rcases List.mem_cons.mp hmem with heq | hmem
      · cases heq
      · exact hnew _ rfl hmem

/-- The requests of a task are answered so, and others may have written since the last one. -/
def Served (answer : (q : Query) → Answer q) (num : Nat) (docId : String) (s now : Stored) : Prop :=
  ∃ u o ms, RelyRun gateway Others (updateDoc docId num 0 .empty) s u o ms ∧ Told answer ms ∧ Others u now

/-- The tasks on the documents of the cache, among others that write. -/
def system (cache : Dict) (num : Nat) (created : String → Stored) :
    LTS (Shards sig Stored (Fin cache.keys.length) String Dict) (Option (Fin cache.keys.length)) :=
  Shards.system gateway Others cache.keys.get (fun i => updateDoc (cache.keys.get i) num 0 .empty) created

/-- What the questions of no run are answered. -/
def refused : (q : Query) → Answer q
  | .getDoc _ _ => .other "" 503 ⟨by decide, by decide⟩
  | .putDoc _ _ _ => .failed "" 503 ⟨by decide, by decide⟩

/-- Whatever the interleaving, the tasks are answered by a function. -/
theorem exists_served {cache : Dict} {num : Nat} {created : String → Stored}
    {s : Shards sig Stored (Fin cache.keys.length) String Dict} (h : (system cache num created).Reachable s)
    (hended : ∀ i, (s.procs i).result.isSome) :
    ∃ answer, ∀ docId ∈ cache.keys, Served answer num docId (created docId) (s.state docId) := by
  classical
  have hkeys : Function.Injective cache.keys.get := List.nodup_iff_injective_get.mp cache.nodup
  have hruns : ∀ i, ∃ u o ms, RelyRun gateway Others (updateDoc (cache.keys.get i) num 0 .empty)
      (created (cache.keys.get i)) u o ms ∧ Others u (s.state (cache.keys.get i)) := by
    intro i
    obtain ⟨o, ho⟩ := Option.isSome_iff_exists.mp (hended i)
    obtain ⟨u, ms, hrun, hu⟩ := Shards.run_of_ended Others.refl (fun _ _ _ => Others.trans)
      (Shards.allows_of_injective hkeys) h ho
    exact ⟨u, o, ms, hrun, hu⟩
  choose u o ms hrun hu using hruns
  have hnodup : (((List.finRange cache.keys.length).flatMap ms).map Moment.q).Nodup := by
    rw [List.map_flatMap]
    refine List.nodup_flatMap.mpr ⟨fun i _ => (asked_once (hrun i)).2, ?_⟩
    refine (List.nodup_finRange _).imp fun {i j} hij q hi hj => hij ?_
    -- a question that two tasks ask would be about both their documents
    obtain ⟨m, hm, rfl⟩ := List.mem_map.mp hi
    obtain ⟨m', hm', heq⟩ := List.mem_map.mp hj
    have hdoc : cache.keys.get i = cache.keys.get j := by
      rw [← ((asked_once (hrun i)).1 m hm).1, ← ((asked_once (hrun j)).1 m' hm').1, heq]
    exact hkeys hdoc
  obtain ⟨answer, hanswer⟩ := exists_answers hnodup refused
  refine ⟨answer, fun docId hmem => ?_⟩
  obtain ⟨i, rfl⟩ := List.get_of_mem hmem
  exact ⟨u i, o i, ms i, hrun i, fun m hm => hanswer m (List.mem_flatMap.mpr ⟨i, List.mem_finRange i, hm⟩), hu i⟩

/-! ## The call -/

section Call
variable {answer : (q : Query) → Answer q} {cache cache' : Dict} {num : Nat} {schedule order : List Nat}

/-- The call has collected no error, so that no update has met one. -/
theorem errorAt_none (hdone : Done answer cache num schedule)
    (horder : order.Perm (List.range cache.keys.length))
    (hupdate : updateDocs answer cache num schedule order = some (cache', .ok [])) {docId : String}
    (hmem : docId ∈ cache.keys) : firstError answer docId (List.range num) = none := by
  obtain ⟨results, hresults, hperm⟩ := results_eq hdone horder
  simp only [updateDocs, hresults, Option.map_some, Option.some.injEq, Prod.mk.injEq] at hupdate
  obtain ⟨hvalue, herrors⟩ := (gather_iff results [] []).mp hupdate.2
  have hin : (taskOf answer docId (List.range num)).2 ∈ results :=
    hperm.mem_iff.mpr (List.mem_map_of_mem (f := fun docId => (taskOf answer docId (List.range num)).2) hmem)
  rw [← httpErrorOf_task (hvalue _ hin)]
  exact List.filterMap_eq_nil_iff.mp herrors.symm _ hin

theorem cache_eq (hdone : Done answer cache num schedule) (horder : order.Perm (List.range cache.keys.length))
    (hupdate : updateDocs answer cache num schedule order = some (cache', .ok [])) :
    cache' = storeAll cache ((start cache num).exec server (fun _ => answer) schedule).log := by
  obtain ⟨results, hresults, -⟩ := results_eq hdone horder
  simp only [updateDocs, hresults, Option.map_some, Option.some.injEq, Prod.mk.injEq] at hupdate
  exact hupdate.1.symm

theorem keys_storeAll (cache : Dict) {log : List (Nat × String × JsonValue)} (h : ∀ e ∈ log, e.2.1 ∈ cache.keys) :
    (storeAll cache log).keys = cache.keys := by
  unfold storeAll
  induction log generalizing cache with
  | nil => rfl
  | cons e log ih =>
    have hkeys : (cache.set e.2.1 e.2.2).keys = cache.keys :=
      (PyDict.keys_setItems _ _ _).trans (if_pos (h e List.mem_cons_self))
    rw [List.foldl_cons, ih _ fun e' he' => hkeys ▸ h e' (List.mem_cons_of_mem e he'), hkeys]

theorem updated_cache (hdone : Done answer cache num schedule)
    (horder : order.Perm (List.range cache.keys.length))
    (hupdate : updateDocs answer cache num schedule order = some (cache', .ok [])) {docId : String}
    (hmem : docId ∈ cache.keys) {s now : Stored} (hs : s.Wf) (hcache : cache.get? docId = some (.str s.rev))
    (hserved : Served answer num docId s now) :
    ∃ u, Chained s u num ∧ cache'.get? docId = some (.str u.rev) ∧ Others u now := by
  obtain ⟨u, o, ms, hrun, htold, hnow⟩ := hserved
  have herror := errorAt_none hdone horder hupdate hmem
  obtain ⟨hchain, hlast⟩ := task_run hs hrun htold fun j hj =>
    List.findSome?_eq_none_iff.mp herror j (by rwa [List.range_eq_range'])
  refine ⟨u, hchain, ?_, hnow⟩
  have htask : (taskOf answer docId (List.range (num : Int).toNat)).1 =
      (revs answer docId (List.range' 0 num)).map .str := by
    rw [← List.range_eq_range']
    simp only [taskOf, Int.toNat_natCast, herror]
  obtain ⟨i, hi⟩ := List.getElem?_of_mem hmem
  rw [cache_eq hdone horder hupdate, get_storeAll hdone hi, htask, hcache, ← hlast, List.getLast?_map]
  cases (revs answer docId (List.range' 0 num)).getLast? <;> rfl

theorem keys_updated (hdone : Done answer cache num schedule)
    (horder : order.Perm (List.range cache.keys.length))
    (hupdate : updateDocs answer cache num schedule order = some (cache', .ok [])) : cache'.keys = cache.keys := by
  rw [cache_eq hdone horder hupdate]
  refine keys_storeAll cache fun e he => ?_
  have hkey : cache.keys[e.1]? = some e.2.1 :=
    key_of_told (List.mem_map.mpr ⟨e, List.mem_filter.mpr ⟨he, by simp⟩, rfl⟩)
  exact List.mem_of_getElem? hkey

end Call

/-! ## The check -/

/-- A document as it is created: written once, and not updated. -/
structure Stored.Created (s : Stored) : Prop where
  wf : s.Wf
  gen : s.gen = 1
  updates : s.updates = 0

/-- The cache, as it is given to the check. -/
def expected (docs : PyDict String String) (num : Nat) : Expected := ⟨docs.keys.length, num, docs, false⟩

/-- The documents in a feed, as they are stored. -/
def feedOf (keys : List String) (now : String → Stored) : List (Result Int) :=
  keys.map fun docId => ⟨docId, (now docId).rev, (now docId).updates⟩

abbrev eqInt : Int → Int → Bool := fun v n => decide (v = n)

theorem passes_iff {docs : PyDict String String} {num : Nat} {docId : String} {s u now : Stored} (hs : s.Created)
    (hchain : Chained s u num) (hdocs : docs.get? docId = some u.rev) (hnow : Others u now) :
    Passes eqInt (expected docs num) ⟨docId, now.rev, now.updates⟩ ↔ now.gen = num + 1 := by
  have hcreated := hs.gen
  have hle := hchain.gen
  have hlater := hnow.gen_le
  constructor
  · intro h
    obtain ⟨gen, hgen, hnum⟩ := h.generation
    have hwf := hnow.wf hchain.wf
    simp only [Stored.Wf] at hwf
    rw [hwf] at hgen
    have hgen := Option.some.inj hgen
    simp only [expected] at hnum
    omega
  · intro hgen
    -- then nobody has written after the last update, nor before
    obtain rfl := hnow.eq_of_gen (by omega)
    have hupdates := hchain.alone (by omega)
    refine ⟨fun _ => hdocs, ⟨_, hchain.wf, ?_⟩, ?_⟩
    · simp only [expected]
      omega
    · rw [hs.updates, Int.zero_add] at hupdates
      exact decide_eq_true hupdates

theorem correct_iff {docs : PyDict String String} {num : Nat} {keys : List String} {now : String → Stored}
    {rs : List (Result Int)} (hkeys : docs.keys.Perm keys) (hrs : rs.Perm (feedOf keys now)) :
    Correct eqInt (expected docs num) rs ↔
      ∀ docId ∈ keys, Passes eqInt (expected docs num) ⟨docId, (now docId).rev, (now docId).updates⟩ := by
  have hids : (rs.map Result.id).Perm keys := by
    refine (hrs.map _).trans (List.Perm.of_eq ?_)
    simp [feedOf, Function.comp_def]
  constructor
  · intro h docId hmem
    exact h.passes _ (hrs.mem_iff.mpr (List.mem_map_of_mem (f := fun docId => (⟨docId, _, _⟩ : Result Int)) hmem))
  · intro h
    refine ⟨?_, ?_, (hids.nodup_iff).mpr (hkeys.nodup_iff.mp docs.nodup), fun docId => ?_, fun r hr => ?_⟩
    · have hlength := hids.length_eq.trans hkeys.length_eq.symm
      rw [List.length_map] at hlength
      exact congrArg Nat.cast hlength
    · simp only [expected, PyDict.keys, List.length_map]
    · exact hids.mem_iff.trans hkeys.symm.mem_iff
    · obtain ⟨docId, hmem, rfl⟩ := List.mem_map.mp (hrs.mem_iff.mp hr)
      exact h docId hmem

/-- After a call without errors on documents as they were created, the check passes exactly if
every document has only been written by it. -/
theorem verified_iff {answer : (q : Query) → Answer q} {cache cache' : Dict} {num : Nat} {schedule order : List Nat}
    (hdone : Done answer cache num schedule) (horder : order.Perm (List.range cache.keys.length))
    (hupdate : updateDocs answer cache num schedule order = some (cache', .ok []))
    {created now : String → Stored}
    (hcreated : ∀ docId ∈ cache.keys, (created docId).Created ∧ cache.get? docId = some (.str (created docId).rev))
    (hserved : ∀ docId ∈ cache.keys, Served answer num docId (created docId) (now docId))
    {docs : PyDict String String} (hdocs : ∀ docId, cache'.get? docId = (docs.get? docId).map .str)
    {users : Users Int} (husers : users.userList ≠ []) {results : User Int → List (Entry Int)}
    (hfeeds : ∀ u ∈ users.userList, getChanges u { includeDocs := some true } = .ok (results u) ∧
      Complete (results u) ∧ (docsOf (results u)).Perm (feedOf cache.keys now)) :
    verifyChanges eqInt (expected docs num) users = .ok () ↔ ∀ docId ∈ cache.keys, (now docId).gen = num + 1 := by
  have hkeys : docs.keys.Perm cache.keys := by
    refine (List.perm_ext_iff_of_nodup docs.nodup cache.nodup).mpr fun docId => ?_
    have hmem : docId ∈ docs.keys ↔ docId ∈ cache.keys := by
      rw [← keys_updated hdone horder hupdate, PyDict.mem_keys, PyDict.mem_keys, hdocs, Option.isSome_map]
    exact hmem
  have hpasses : ∀ docId ∈ cache.keys,
      (Passes eqInt (expected docs num) ⟨docId, (now docId).rev, (now docId).updates⟩ ↔
        (now docId).gen = num + 1) := by
    intro docId hmem
    obtain ⟨hnew, hcache⟩ := hcreated docId hmem
    obtain ⟨u, hchain, hrev, hnow⟩ := updated_cache hdone horder hupdate hmem hnew.wf hcache (hserved docId hmem)
    rw [hdocs] at hrev
    obtain ⟨rev, hget, heq⟩ := Option.map_eq_some_iff.mp hrev
    exact passes_iff hnew hchain (hget.trans (congrArg some (JsonValue.str.inj heq))) hnow
  have hcorrect : ∀ u ∈ users.userList, (Correct eqInt (expected docs num) (docsOf (results u)) ↔
      ∀ docId ∈ cache.keys, (now docId).gen = num + 1) := fun u hu =>
    (correct_iff hkeys (hfeeds u hu).2.2).trans (forall₂_congr hpasses)
  rw [verifyChanges_eq_ok, checkUsers_iff users.userList results fun u hu => ⟨(hfeeds u hu).1, (hfeeds u hu).2.1⟩]
  constructor
  · intro h
    obtain ⟨u, hu⟩ := List.exists_mem_of_ne_nil _ husers
    exact (hcorrect u hu).mp (h u hu)
  · exact fun h u hu => (hcorrect u hu).mpr h

/-! ## One document, updated once -/

def oneDoc : Dict := PyDict.empty.set "d" (.str "1-a")

def fetched : Document := ⟨(PyDict.empty.set "_rev" (.str "1-a")).set "updates" (.int 0), 0, rfl⟩

/-- The GET gives the document as it was created, and the PUT is accepted. -/
def accepted : (q : Query) → Answer q
  | .getDoc _ _ => .found fetched
  | .putDoc docId _ _ => .created docId "2-b"

def createdDoc : Stored := ⟨1, "1-a", 0⟩

def updatedDoc : Stored := ⟨2, "2-b", 1⟩

/-- The document after somebody else has written to it. -/
def rewrittenDoc : Stored := ⟨3, "3-c", 7⟩

theorem served_accepted {now : Stored} (h : Others updatedDoc now) : Served accepted 1 "d" createdDoc now := by
  refine ⟨updatedDoc, .ok (PyDict.empty.set "d" (.str "2-b")),
    [⟨createdDoc, .getDoc "d" 0, GetAnswer.found fetched⟩,
      ⟨createdDoc, .putDoc "d" 0 (revised fetched), PutAnswer.created "d" "2-b"⟩],
    ⟨createdDoc, GetAnswer.found fetched, _, .inl rfl, ⟨rfl, rfl⟩,
      ⟨createdDoc, PutAnswer.created "d" "2-b", [], .inl rfl, ⟨rfl, by decide⟩, ⟨rfl, rfl, rfl⟩, rfl⟩, rfl⟩,
    fun m hm => ?_, h⟩
  simp only [List.mem_cons, List.not_mem_nil, or_false] at hm
  obtain rfl | rfl := hm
  · rfl
  · rfl

/-- A user that sees the document. -/
def reader (s : Stored) : User Int where
  name := "seth"
  post _ := .ok ⟨some [⟨"d", some ⟨some "d", some s.rev, some s.updates⟩⟩]⟩

theorem reader_feed (s : Stored) :
    getChanges (reader s) { includeDocs := some true } = .ok [⟨"d", some ⟨some "d", some s.rev, some s.updates⟩⟩] ∧
      Complete (V := Int) [⟨"d", some ⟨some "d", some s.rev, some s.updates⟩⟩] ∧
      (docsOf [⟨"d", some ⟨some "d", some s.rev, some s.updates⟩⟩]).Perm (feedOf oneDoc.keys fun _ => s) := by
  have hdoc : PyStr.startswith "d" "_user" = false := by decide
  refine ⟨rfl, fun e he _ => ?_, List.Perm.of_eq (by simp [docsOf, Entry.isDoc, Entry.result?, hdoc, feedOf]; rfl)⟩
  obtain rfl := List.mem_singleton.mp he
  exact ⟨_, _, _, rfl⟩

/-- The check passes on what the call has left, and fails on what somebody else has written. -/
theorem verified_oneDoc :
    verifyChanges eqInt (expected (PyDict.empty.set "d" "2-b") 1) (.single (reader updatedDoc)) = .ok () ∧
      verifyChanges eqInt (expected (PyDict.empty.set "d" "2-b") 1) (.single (reader rewrittenDoc)) ≠ .ok () := by
  have hcreated : ∀ docId ∈ oneDoc.keys, createdDoc.Created ∧ oneDoc.get? docId = some (.str createdDoc.rev) := by
    intro docId hmem
    obtain rfl : docId = "d" := List.mem_singleton.mp hmem
    exact ⟨⟨by decide, rfl, rfl⟩, rfl⟩
  have hserved : ∀ {now : Stored}, Others updatedDoc now →
      ∀ docId ∈ oneDoc.keys, Served accepted 1 docId createdDoc now := by
    intro now h docId hmem
    obtain rfl : docId = "d" := List.mem_singleton.mp hmem
    exact served_accepted h
  have hdocs : ∀ docId, (oneDoc.set "d" (.str "2-b")).get? docId =
      ((PyDict.empty.set "d" "2-b").get? docId).map JsonValue.str := by
    intro docId
    by_cases hd : docId = "d"
    · rw [PyDict.get?_set, PyDict.get?_set, if_pos hd, if_pos hd]
      rfl
    · rw [PyDict.get?_set, PyDict.get?_set, oneDoc, PyDict.get?_set, if_neg hd, if_neg hd, if_neg hd]
      rfl
  have hdone : Done accepted oneDoc (1 : Nat) [0, 0] := done_of_turns (by decide)
  have horder : [0].Perm (List.range oneDoc.keys.length) := by decide
  have hupdate : updateDocs accepted oneDoc (1 : Nat) [0, 0] [0] = some (oneDoc.set "d" (.str "2-b"), .ok []) := rfl
  have husers : ∀ s, (Users.single (reader s)).userList ≠ [] := fun s => List.cons_ne_nil _ _
  have hfeeds : ∀ s, ∀ u ∈ (Users.single (reader s)).userList,
      getChanges u { includeDocs := some true } =
        .ok [⟨"d", some ⟨some "d", some s.rev, some s.updates⟩⟩] ∧
      Complete (V := Int) [⟨"d", some ⟨some "d", some s.rev, some s.updates⟩⟩] ∧
      (docsOf [⟨"d", some ⟨some "d", some s.rev, some s.updates⟩⟩]).Perm (feedOf oneDoc.keys fun _ => s) := by
    intro s u hu
    obtain rfl := List.mem_singleton.mp hu
    exact reader_feed s
  refine ⟨?_, fun h => ?_⟩
  · exact (verified_iff hdone horder hupdate hcreated (hserved (.inl rfl)) hdocs (husers updatedDoc)
      (hfeeds updatedDoc)).mpr fun _ _ => rfl
  · have hlate : Others updatedDoc rewrittenDoc := .inr ⟨by decide, by decide⟩
    exact absurd ((verified_iff hdone horder hupdate hcreated (hserved hlate) hdocs (husers rewrittenDoc)
      (hfeeds rewrittenDoc)).mp h "d" (List.mem_singleton.mpr rfl)) (by decide)

end MobileTestkit.L5.UpdatesVerified
