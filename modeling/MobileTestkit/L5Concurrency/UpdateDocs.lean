import MobileTestkit.Core.Shards
import MobileTestkit.L5Concurrency.UpdateDoc

/-!
# Updating many documents at once

`MobileRestClient.update_docs` (keywords/MobileRestClient.py) submits one `update_doc` for
each document to an executor and gathers the results as they are completed. The tasks run
in any interleaving of their requests, those of the executor's two workers among them,
while other clients may write to the documents in between.

`delay`, the authentication and `channels` are left out; they change nothing but the time,
the headers and one field of the bodies.

* `task_safe`: a task that has ended has made a run of its own.
* `updateDocs_spec`: what the call returns, and what it leaves in each document.
-/
namespace MobileTestkit.L5.UpdateDocs

open MobileTestkit.Core MobileTestkit.L5.UpdateDoc

/-- The documents, the tasks that update them and the order in which these are completed. -/
abbrev State (docs : List String) := Shards sig Store (Fin docs.length) String String

section Call
variable (load : String → Except Exn (String × JsonValue)) (docs : List String) (numberUpdates : Int)
  (propertyUpdater : Option (Nat → Dict → Dict))

/-- mirrors keywords/MobileRestClient.py:1330-1344 -/
def tasks (_ : Fin docs.length) : Prog String := updateDoc load (plain numberUpdates propertyUpdater)

/-- The tasks on the documents they are given, among clients that write as `R` says. -/
def system (R : Store → Store → Prop) (stores : String → Store) : LTS (State docs) (Option (Fin docs.length)) :=
  Shards.system server R docs.get (tasks load docs numberUpdates propertyUpdater) stores

end Call

/-- The results, in the order in which the tasks are completed; nothing as long as one of
them runs, for which `executor` waits. The first one that raised is raised.
mirrors keywords/MobileRestClient.py:1346-1351 -/
def updatedDocs {docs : List String} (s : State docs) (order : List (Fin docs.length)) :
    Option (Except Exn (List String)) :=
  (order.mapM fun i => (s.procs i).result).map fun results => results.mapM id

/-- What a task does to its document among other writers: its calls are a run of its own, which
begins with the GET and goes on from the store `t` that this one reads. -/
def Outcome (task : Prog String) (n : Nat) (stored now : Store) (o : Except Exn String) : Prop :=
  ∃ t u calls, RelyRun server Foreign task stored u o calls ∧ Foreign u now ∧
    (∃ rest, calls = ⟨t, .getDoc, t.read⟩ :: rest) ∧ Foreign stored t ∧ FromRead n t (puts calls) u o

section Tasks
variable {load : String → Except Exn (String × JsonValue)} {docs : List String} {n : Nat}
  {propertyUpdater : Option (Nat → Dict → Dict)} {stores : String → Store} {s : State docs}

/-- A task among other writers. -/
theorem task_safe (hdocs : docs.Nodup) (hn : 1 ≤ n) (hkeeps : Keeps propertyUpdater)
    (h : (system load docs n propertyUpdater Foreign stores).Reachable s) {i : Fin docs.length}
    {o : Except Exn String} (hend : (s.procs i).result = some o) :
    Outcome (tasks load docs n propertyUpdater i) n (stores (docs.get i)) (s.state (docs.get i)) o := by
  obtain ⟨u, ms, hrun, hu⟩ := Shards.run_of_ended Foreign.refl (fun _ _ _ => Foreign.trans)
    (Shards.allows_of_injective (List.nodup_iff_injective_get.mp hdocs)) h hend
  obtain ⟨t, rest, hcalls, ht, hfrom⟩ := updateDoc_fromRead (fun _ _ => id) hkeeps hn hrun
  exact ⟨t, u, ms, hrun, hu, ⟨rest, hcalls⟩, ht, hfrom⟩

/-- A task while nobody else writes. -/
theorem task_alone (hdocs : docs.Nodup) (hn : 1 ≤ n) (hkeeps : Keeps propertyUpdater)
    (h : (system load docs n propertyUpdater Eq stores).Reachable s) {i : Fin docs.length}
    {o : Except Exn String} (hend : (s.procs i).result = some o) {c : JsonValue}
    (hc : count (stores (docs.get i)).read = some c) :
    ∃ ps, Safe n c (stores (docs.get i)) ps (s.state (docs.get i)) o ∧
      o = .ok (s.state (docs.get i)).current.rev ∧ ps.length = n := by
  obtain ⟨u, ms, hrun, rfl⟩ := Shards.run_of_ended (fun _ => rfl) (fun _ _ _ => Eq.trans)
    (Shards.allows_of_injective (List.nodup_iff_injective_get.mp hdocs)) h hend
  obtain ⟨hsafe, ho, hlen, -⟩ := updateDoc_alone hkeeps hn hrun hc
  exact ⟨puts ms, hsafe, ho, hlen⟩

end Tasks

/-! ## The whole call -/

theorem mapM_result {α β : Type} {f : α → Option β} {l : List α} {out : List β} (h : l.mapM f = some out) :
    List.Forall₂ (fun x y => f x = some y) l out := by
  induction l generalizing out with
  | nil =>
    obtain rfl : [] = out := Option.some.inj h
    exact .nil
  | cons x rest ih =>
    simp only [List.mapM_cons, Option.bind_eq_bind, Option.bind_eq_some_iff] at h
    obtain ⟨y, hy, ys, hys, h⟩ := h
    obtain rfl : y :: ys = out := Option.some.inj h
    exact .cons hy (ih hys)

theorem isSome_mapM {α β : Type} {f : α → Option β} {l : List α} (h : ∀ x ∈ l, (f x).isSome) :
    (l.mapM f).isSome := by
  induction l with
  | nil => rfl
  | cons x rest ih =>
    obtain ⟨y, hy⟩ := Option.isSome_iff_exists.mp (h x List.mem_cons_self)
    obtain ⟨ys, hys⟩ := Option.isSome_iff_exists.mp (ih fun z hz => h z (List.mem_cons_of_mem x hz))
    rw [List.mapM_cons, hy, hys]
    rfl

/-- The call has a result once all tasks have ended. -/
theorem isSome_updatedDocs {docs : List String} {s : State docs} {order : List (Fin docs.length)}
    (h : ∀ i ∈ order, (s.procs i).result.isSome) : (updatedDocs s order).isSome := by
  rw [updatedDocs, Option.isSome_map]
  exact isSome_mapM h

/-- The call has a result only if all tasks have ended, and it is made of theirs. -/
theorem ended_of_updatedDocs {docs : List String} {s : State docs} {order : List (Fin docs.length)}
    {r : Except Exn (List String)} (hmem : ∀ i, i ∈ order) (h : updatedDocs s order = some r) :
    ∃ results, List.Forall₂ (fun i o => (s.procs i).result = some o) order results ∧
      results.mapM id = r ∧ ∀ i, ∃ o, (s.procs i).result = some o := by
  obtain ⟨results, hresults, rfl⟩ := Option.map_eq_some_iff.mp h
  have hall := mapM_result hresults
  refine ⟨results, hall, rfl, fun i => ?_⟩
  obtain ⟨k, hk, hki⟩ := List.mem_iff_getElem.mp (hmem i)
  have hget := (List.forall₂_iff_get.mp hall).2 k hk (by rw [← hall.length_eq]; exact hk)
  simp only [List.get_eq_getElem, hki] at hget
  exact ⟨_, hget⟩

/-- The results of tasks that have all returned. -/
theorem gathered_ok {docs : List String} {s : State docs} {order : List (Fin docs.length)}
    {results : List (Except Exn String)} {g : Fin docs.length → String}
    (h : List.Forall₂ (fun i o => (s.procs i).result = some o) order results)
    (hg : ∀ i ∈ order, ∀ o, (s.procs i).result = some o → o = .ok (g i)) :
    results.mapM id = .ok (order.map g) := by
  induction h with
  | nil => rfl
  | @cons i o order results hi _ ih =>
    have hrest := ih fun j hj => hg j (List.mem_cons_of_mem i hj)
    rw [List.mapM_cons, hrest, hg i List.mem_cons_self o hi]
    rfl

/-- The call raises what a task has raised. -/
theorem gathered_error {docs : List String} {s : State docs} {order : List (Fin docs.length)}
    {results : List (Except Exn String)} {x : Exn}
    (h : List.Forall₂ (fun i o => (s.procs i).result = some o) order results)
    (hx : results.mapM id = .error x) : ∃ i ∈ order, (s.procs i).result = some (.error x) := by
  induction h with
  | nil => cases hx
  | @cons i o order results hi _ ih =>
    rw [List.mapM_cons] at hx
    cases o with
    | error y =>
      obtain rfl : y = x := Except.error.inj hx
      exact ⟨i, List.mem_cons_self, hi⟩
    | ok rev =>
      cases hrest : results.mapM id with
      | error y =>
        rw [hrest] at hx
        obtain rfl : y = x := Except.error.inj hx
        obtain ⟨j, hj, hjx⟩ := ih hrest
        exact ⟨j, List.mem_cons_of_mem i hj, hjx⟩
      | ok revs =>
        rw [hrest] at hx
        cases hx

/-- `update_docs` on distinct documents, whatever the order in which the tasks proceed and
are completed. While nobody else writes it returns, and each document has got its updates
as one chain of revisions, of which the last is in the result; all others are as they were.
Among other writers each task makes a chain of its own whatever becomes of the others, and
what the call raises one of them has raised. -/
theorem updateDocs_spec (load : String → Except Exn (String × JsonValue)) {docs : List String}
    (hdocs : docs.Nodup) {n : Nat} (hn : 1 ≤ n) {propertyUpdater : Option (Nat → Dict → Dict)}
    (hkeeps : Keeps propertyUpdater) (stores : String → Store)
    (hcount : ∀ id ∈ docs, ∃ c, count (stores id).read = some c) {order : List (Fin docs.length)}
    (horder : order.Perm (List.finRange docs.length)) :
    (∃ s, (system load docs n propertyUpdater Eq stores).Reachable s ∧ (updatedDocs s order).isSome) ∧
    (∀ s r, (system load docs n propertyUpdater Eq stores).Reachable s → updatedDocs s order = some r →
      r = .ok (order.map fun i => (s.state (docs.get i)).current.rev) ∧
      (∀ id ∈ docs, ∃ c ps o, count (stores id).read = some c ∧
        Safe n c (stores id) ps (s.state id) o ∧ ps.length = n) ∧
      ∀ id, id ∉ docs → s.state id = stores id) ∧
    ∀ s r, (system load docs n propertyUpdater Foreign stores).Reachable s → updatedDocs s order = some r →
      (∀ i, ∃ o, (s.procs i).result = some o ∧
        Outcome (tasks load docs n propertyUpdater i) n (stores (docs.get i)) (s.state (docs.get i)) o) ∧
      ∀ x, r = .error x → ∃ i, (s.procs i).result = some (.error x) := by
  have hmem : ∀ i, i ∈ order := fun i => horder.mem_iff.mpr (List.mem_finRange i)
  refine ⟨?_, fun s r h hr => ?_, fun s r h hr => ?_⟩
  · obtain ⟨s, hs, hall⟩ := Shards.exists_ended exists_answer order
      (LTS.reachable_init (T := system load docs n propertyUpdater Eq stores) rfl)
    exact ⟨s, hs, isSome_updatedDocs hall⟩
  · obtain ⟨results, hall, rfl, hends⟩ := ended_of_updatedDocs hmem hr
    have htask : ∀ i o, (s.procs i).result = some o → ∃ c ps, count (stores (docs.get i)).read = some c ∧
        Safe n c (stores (docs.get i)) ps (s.state (docs.get i)) o ∧
        o = .ok (s.state (docs.get i)).current.rev ∧ ps.length = n := by
      intro i o ho
      obtain ⟨c, hc⟩ := hcount (docs.get i) (List.get_mem docs i)
      obtain ⟨ps, hsafe, hok, hlen⟩ := task_alone hdocs hn hkeeps h ho hc
      exact ⟨c, ps, hc, hsafe, hok, hlen⟩
    refine ⟨gathered_ok hall fun i _ o ho => ?_, fun id hid => ?_, fun id hid => ?_⟩
    · obtain ⟨c, ps, -, -, hok, -⟩ := htask i o ho
      exact hok
    · obtain ⟨i, rfl⟩ := List.get_of_mem hid
      obtain ⟨o, ho⟩ := hends i
      obtain ⟨c, ps, hc, hsafe, -, hlen⟩ := htask i o ho
      exact ⟨c, ps, o, hc, hsafe, hlen⟩
    · refine (Shards.untouched (fun _ => rfl) (fun _ _ _ => Eq.trans) h fun i hi => hid ?_).symm
      rw [← hi]
      exact List.get_mem docs i
  · obtain ⟨results, hall, rfl, hends⟩ := ended_of_updatedDocs hmem hr
    refine ⟨fun i => ?_, fun x hx => ?_⟩
    · obtain ⟨o, ho⟩ := hends i
      exact ⟨o, ho, task_safe hdocs hn hkeeps h ho⟩
    · obtain ⟨i, -, hi⟩ := gathered_error hall hx
      exact ⟨i, hi⟩

theorem updateDocs_two : ∃ s : State ["a", "b"],
    (updatedDocs s [(1 : Fin 2), (0 : Fin 2)]).isSome ∧ s.state "c" = firstStore := by
  obtain ⟨⟨s, hs, hsome⟩, halone, -⟩ := @updateDocs_spec (fun _ => .error .typeError) ["a", "b"]
    (by decide) 2 (by decide) (some addContent) keeps_addContent (fun _ => firstStore) (fun _ _ => ⟨.int 0, rfl⟩)
    [(1 : Fin 2), (0 : Fin 2)] (by decide)
  obtain ⟨r, hr⟩ := Option.isSome_iff_exists.mp hsome
  exact ⟨s, hsome, (halone s r hs hr).2.2 "c" (by decide)⟩

end MobileTestkit.L5.UpdateDocs
