import MobileTestkit.Core.ExceptLoop
import MobileTestkit.Core.RevTree
import MobileTestkit.L4App.ClientChecks
import MobileTestkit.L4App.Conflicts

/-!
# Conflicts that are deleted

`delete_conflicts` of keywords/MobileRestClient.py, as in L4App.ClientChecks, on a server
that keeps a tree of revisions for each document: a DELETE puts a tombstone on a live leaf,
and a GET with `conflicts=true` names the live leaves besides the winner, and has no
`_conflicts` when there are none.

* `deleteConflicts_resolves`: after a call the winners of the listed documents are the only
  live leaves, and when a call returns.
-/
namespace MobileTestkit.L4.ConflictsDeleted

open MobileTestkit.Core MobileTestkit.L4.ClientChecks
open MobileTestkit.L4.Conflicts (Store Plain name name_injective withFoo)

/-- The `_conflicts` of a document that is read. -/
def Names (t : RevTree String) (conflicts : Option (List String)) : Prop :=
  ∃ w, ∃ l : List (Rev String), t.IsWinner w ∧ l.Nodup ∧ l.toFinset = t.live.erase w ∧
    conflicts = if l = [] then none else some (l.map name)

/-- A server of trees, some of whose answers may be errors. -/
structure TreeServer {σ : Type} (server : Server σ) (trees : σ → Store) : Prop where
  get_keeps : ∀ s id resp, (server.getDoc s id).1 = .ok resp → trees (server.getDoc s id).2 = trees s
  get_names : ∀ s id resp, (server.getDoc s id).1 = .ok resp → Names (trees s id) resp.conflicts
  delete_buries : ∀ s id rev, (server.deleteDoc s id rev).1 = .ok () → ∃ r, name r = rev ∧
    (trees s id).Buried r (trees (server.deleteDoc s id rev).2 id)
  delete_others : ∀ s id rev id', id' ≠ id → trees (server.deleteDoc s id rev).2 id' = trees s id'

/-- Nothing that can be answered is refused. -/
structure Willing {σ : Type} (server : Server σ) (trees : σ → Store) : Prop where
  get : ∀ s id, (trees s id).live.Nonempty → ∃ resp, (server.getDoc s id).1 = .ok resp
  delete : ∀ s id, ∀ r ∈ (trees s id).live, (server.deleteDoc s id (name r)).1 = .ok ()

/-- The winners are all that is left of the listed documents. -/
structure Resolved (before after : Store) (ids : List String) : Prop where
  winner : ∀ id ∈ ids, ∃ w, (before id).IsWinner w ∧ (after id).live = {w}
  others : ∀ id, id ∉ ids → after id = before id

theorem Resolved.live_subset {before after : Store} {ids : List String} (h : Resolved before after ids)
    (id : String) : (after id).live ⊆ (before id).live := by
  by_cases hid : id ∈ ids
  · obtain ⟨w, hw, hlive⟩ := h.winner id hid
    rw [hlive, Finset.singleton_subset_iff]
    exact hw.1
  · rw [h.others id hid]

theorem Resolved.nil (s : Store) : Resolved s s [] :=
  ⟨fun _ hid => absurd hid List.not_mem_nil, fun _ _ => rfl⟩

/-- A document that is listed again has its winner as the only live leaf already. -/
theorem Resolved.cons {s₀ s₁ s₂ : Store} {id : String} {ids : List String} (h : Resolved s₀ s₁ [id])
    (hrest : Resolved s₁ s₂ ids) : Resolved s₀ s₂ (id :: ids) := by
  obtain ⟨w, hw, hlive⟩ := h.winner id List.mem_cons_self
  refine ⟨fun id' hid' => ?_, fun id' hid' => ?_⟩
  · by_cases hsame : id' = id
    · subst hsame
      refine ⟨w, hw, ?_⟩
      by_cases hagain : id' ∈ ids
      · obtain ⟨w', hw', hlive'⟩ := hrest.winner id' hagain
        have hmem : w' ∈ (s₁ id').live := hw'.1
        rw [hlive, Finset.mem_singleton] at hmem
        rw [hlive', hmem]
      · rw [hrest.others id' hagain, hlive]
    · obtain ⟨w', hw', hlive'⟩ := hrest.winner id' ((List.mem_cons.mp hid').resolve_left hsame)
      rw [h.others id' (fun hm => hsame (List.mem_singleton.mp hm))] at hw'
      exact ⟨w', hw', hlive'⟩
  · rw [List.mem_cons, not_or] at hid'
    rw [hrest.others id' hid'.2, h.others id' (fun hm => hid'.1 (List.mem_singleton.mp hm))]

section Passes
variable {σ : Type} {server : Server σ} {trees : σ → Store} (hserver : TreeServer server trees)
include hserver

theorem get_ok {s s' : σ} {id : String} {resp : DocResp} (h : server.get s id = .ok (resp, s')) :
    trees s' = trees s ∧ Names (trees s id) resp.conflicts := by
  obtain ⟨resp', hget, hret⟩ := Loop.bind_eq_ok.mp h
  obtain ⟨rfl, rfl⟩ := Prod.mk.inj (Except.ok.inj hret)
  exact ⟨hserver.get_keeps s id resp' hget, hserver.get_names s id resp' hget⟩

theorem delete_ok {s s' : σ} {id : String} {r : Rev String} (hplain : ∀ q ∈ (trees s id).live, Plain q)
    (hr : Plain r) (h : server.delete s id (name r) = .ok s') :
    (trees s' id).live = (trees s id).live.erase r ∧ ∀ id', id' ≠ id → trees s' id' = trees s id' := by
  obtain ⟨u, hdelete, hret⟩ := Loop.bind_eq_ok.mp h
  obtain rfl := Except.ok.inj hret
  obtain ⟨r', hname, hburied⟩ := hserver.delete_buries s id (name r) hdelete
  obtain rfl := name_injective (hplain r' hburied.isLeaf) hr hname
  exact ⟨RevTree.live_bury hburied, fun id' hid' => hserver.delete_others s id (name r') id' hid'⟩

/-- The loop over the conflicts of a document takes just these leaves away. -/
theorem deletes_ok {id : String} {l : List (Rev String)} {s s' : σ} (hplain : ∀ q ∈ (trees s id).live, Plain q)
    (hl : ∀ r ∈ l, Plain r) (h : (l.map name).foldlM (fun s rev => server.delete s id rev) s = .ok s') :
    (trees s' id).live = (trees s id).live \ l.toFinset ∧ ∀ id', id' ≠ id → trees s' id' = trees s id' := by
  induction l generalizing s with
  | nil =>
    obtain rfl := Except.ok.inj h
    rw [List.toFinset_nil, Finset.sdiff_empty]
    exact ⟨rfl, fun _ _ => rfl⟩
  | cons r l ih =>
    rw [List.map_cons, List.foldlM_cons] at h
    obtain ⟨t, hdelete, hrest⟩ := Loop.bind_eq_ok.mp h
    obtain ⟨hlive, hothers⟩ := delete_ok hserver hplain (hl r List.mem_cons_self) hdelete
    obtain ⟨hlive', hothers'⟩ := ih (fun q hq => hplain q (Finset.mem_of_mem_erase (hlive ▸ hq)))
      (fun q hq => hl q (List.mem_cons_of_mem _ hq)) hrest
    refine ⟨?_, fun id' hid' => (hothers' id' hid').trans (hothers id' hid')⟩
    rw [hlive', hlive, List.toFinset_cons]
    ext q
    simp only [Finset.mem_sdiff, Finset.mem_erase, Finset.mem_insert]
    tauto

theorem purge_ok {s s' : σ} {doc : Entry} (hplain : ∀ q ∈ (trees s doc.id).live, Plain q)
    (h : purge server s doc = .ok s') : Resolved (trees s) (trees s') [doc.id] := by
  obtain ⟨⟨resp, t⟩, hget, hloop⟩ := Loop.bind_eq_ok.mp h
  obtain ⟨htrees, w, l, hw, -, hl, hconflicts⟩ := get_ok hserver hget
  have hleft : (trees s doc.id).live \ l.toFinset = {w} := by
    rw [hl, Finset.sdiff_erase hw.1, Finset.sdiff_self, insert_empty_eq]
  have hends : (trees s' doc.id).live = {w} ∧ ∀ id', id' ≠ doc.id → trees s' id' = trees s id' := by
    rw [← hleft]
    simp only [hconflicts] at hloop
    by_cases hnil : l = []
    · rw [if_pos hnil] at hloop
      obtain rfl := Except.ok.inj hloop
      rw [htrees, hnil, List.toFinset_nil, Finset.sdiff_empty]
      exact ⟨rfl, fun _ _ => rfl⟩
    · rw [if_neg hnil] at hloop
      have hlplain : ∀ r ∈ l, Plain r := fun r hr =>
        hplain r (Finset.mem_of_mem_erase (hl ▸ List.mem_toFinset.mpr hr))
      rw [← htrees]
      exact deletes_ok hserver (fun q hq => hplain q (by rwa [htrees] at hq)) hlplain hloop
  refine ⟨fun id hid => ?_, fun id hid => hends.2 id (fun he => hid (List.mem_singleton.mpr he))⟩
  rw [List.mem_singleton.mp hid]
  exact ⟨w, hw, hends.1⟩

/-- The first pass. -/
theorem purges_ok {docs : List Entry} {s s' : σ} (hplain : ∀ doc ∈ docs, ∀ q ∈ (trees s doc.id).live, Plain q)
    (h : docs.foldlM (purge server) s = .ok s') : Resolved (trees s) (trees s') (docs.map Entry.id) := by
  induction docs generalizing s with
  | nil =>
    obtain rfl := Except.ok.inj h
    exact Resolved.nil _
  | cons doc docs ih =>
    rw [List.foldlM_cons] at h
    obtain ⟨t, hpurge, hrest⟩ := Loop.bind_eq_ok.mp h
    have hfirst := purge_ok hserver (hplain doc List.mem_cons_self) hpurge
    refine hfirst.cons (ih (fun doc' hdoc' q hq => ?_) hrest)
    exact hplain doc' (List.mem_cons_of_mem _ hdoc') q (hfirst.live_subset doc'.id hq)

/-- Where the winner is the only live leaf, a document is read without `_conflicts`. -/
theorem get_resolved {s s' : σ} {id : String} {w : Rev String} {resp : DocResp} (hw : (trees s id).live = {w})
    (h : server.get s id = .ok (resp, s')) : trees s' = trees s ∧ resp.conflicts = none := by
  obtain ⟨htrees, w', l, hw', -, hl, hconflicts⟩ := get_ok hserver h
  have hmem : w' ∈ (trees s id).live := hw'.1
  rw [hw, Finset.mem_singleton] at hmem
  rw [hw, hmem, Finset.erase_singleton, List.toFinset_eq_empty_iff] at hl
  rw [hconflicts, if_pos hl]
  exact ⟨htrees, rfl⟩

/-- The second pass returns for entries without `_conflicts` of their own only. -/
theorem rechecks_ok {docs : List Entry} {s s' : σ} (hlive : ∀ doc ∈ docs, ∃ w, (trees s doc.id).live = {w})
    (h : docs.foldlM (recheck server) s = .ok s') :
    trees s' = trees s ∧ ∀ doc ∈ docs, doc.conflicts = none := by
  induction docs generalizing s with
  | nil =>
    obtain rfl := Except.ok.inj h
    exact ⟨rfl, fun doc hdoc => absurd hdoc List.not_mem_nil⟩
  | cons doc docs ih =>
    rw [List.foldlM_cons] at h
    obtain ⟨t, hcheck, hrest⟩ := Loop.bind_eq_ok.mp h
    obtain ⟨resp, hget, hpass⟩ := (recheck_ok_iff server).mp hcheck
    obtain ⟨w, hw⟩ := hlive doc List.mem_cons_self
    obtain ⟨htrees, hnone⟩ := get_resolved hserver hw hget
    obtain ⟨htrees', hall⟩ := ih (fun doc' hdoc' => htrees ▸ hlive doc' (List.mem_cons_of_mem _ hdoc')) hrest
    refine ⟨htrees'.trans htrees, List.forall_mem_cons.mpr ⟨?_, hall⟩⟩
    cases hown : doc.conflicts with
    | none => rfl
    | some own =>
      have hsome := hpass (by rw [hown]; rfl)
      rw [hnone] at hsome
      cases hsome

end Passes

/-! ## A server that refuses nothing -/

theorem get_runs {σ : Type} {server : Server σ} {trees : σ → Store} (hwilling : Willing server trees) {s : σ}
    {id : String} (h : (trees s id).live.Nonempty) : ∃ resp s', server.get s id = .ok (resp, s') := by
  obtain ⟨resp, hresp⟩ := hwilling.get s id h
  exact ⟨resp, _, Loop.bind_eq_ok.mpr ⟨resp, hresp, rfl⟩⟩

section Willing
variable {σ : Type} {server : Server σ} {trees : σ → Store} (hserver : TreeServer server trees)
  (hwilling : Willing server trees)
include hserver hwilling

theorem deletes_run {id : String} {l : List (Rev String)} (hnd : l.Nodup) {s : σ}
    (hplain : ∀ q ∈ (trees s id).live, Plain q) (hl : ∀ r ∈ l, r ∈ (trees s id).live) :
    ∃ s', (l.map name).foldlM (fun s rev => server.delete s id rev) s = .ok s' := by
  induction l generalizing s with
  | nil => exact ⟨s, rfl⟩
  | cons r l ih =>
    obtain ⟨hr, hnd⟩ := List.nodup_cons.mp hnd
    have hmem := hl r List.mem_cons_self
    have hdelete : server.delete s id (name r) = .ok (server.deleteDoc s id (name r)).2 :=
      Loop.bind_eq_ok.mpr ⟨(), hwilling.delete s id r hmem, rfl⟩
    obtain ⟨hlive, -⟩ := delete_ok hserver hplain (hplain r hmem) hdelete
    have hleft : ∀ q ∈ l, q ∈ (trees (server.deleteDoc s id (name r)).2 id).live := fun q hq =>
      hlive ▸ Finset.mem_erase_of_ne_of_mem (ne_of_mem_of_not_mem hq hr) (hl q (List.mem_cons_of_mem _ hq))
    obtain ⟨s', hs'⟩ := ih hnd (fun q hq => hplain q (Finset.mem_of_mem_erase (hlive ▸ hq))) hleft
    refine ⟨s', ?_⟩
    rw [List.map_cons, List.foldlM_cons, hdelete]
    exact hs'

theorem purge_runs {s : σ} {doc : Entry} (hplain : ∀ q ∈ (trees s doc.id).live, Plain q)
    (h : (trees s doc.id).live.Nonempty) : ∃ s', purge server s doc = .ok s' := by
  obtain ⟨resp, t, hget⟩ := get_runs hwilling h
  obtain ⟨htrees, w, l, -, hnd, hl, hconflicts⟩ := get_ok hserver hget
  unfold purge
  simp only [hget, bind, Except.bind, hconflicts]
  by_cases hnil : l = []
  · rw [if_pos hnil]
    exact ⟨t, rfl⟩
  · rw [if_neg hnil]
    refine deletes_run hserver hwilling hnd (fun q hq => hplain q (by rwa [htrees] at hq)) fun r hr => ?_
    rw [htrees]
    exact Finset.mem_of_mem_erase (hl ▸ List.mem_toFinset.mpr hr)

theorem purges_run {docs : List Entry} {s : σ} (hplain : ∀ doc ∈ docs, ∀ q ∈ (trees s doc.id).live, Plain q)
    (h : ∀ doc ∈ docs, (trees s doc.id).live.Nonempty) : ∃ s', docs.foldlM (purge server) s = .ok s' := by
  induction docs generalizing s with
  | nil => exact ⟨s, rfl⟩
  | cons doc docs ih =>
    obtain ⟨t, ht⟩ := purge_runs hserver hwilling (hplain doc List.mem_cons_self) (h doc List.mem_cons_self)
    have hfirst := purge_ok hserver (hplain doc List.mem_cons_self) ht
    have hrest : ∀ doc' ∈ docs, (trees t doc'.id).live.Nonempty := by
      intro doc' hdoc'
      by_cases hsame : doc'.id = doc.id
      · obtain ⟨w, -, hw⟩ := hfirst.winner doc.id List.mem_cons_self
        rw [hsame, hw]
        exact Finset.singleton_nonempty w
      · rw [hfirst.others doc'.id (fun hm => hsame (List.mem_singleton.mp hm))]
        exact h doc' (List.mem_cons_of_mem _ hdoc')
    obtain ⟨s', hs'⟩ := ih (fun doc' hdoc' q hq =>
      hplain doc' (List.mem_cons_of_mem _ hdoc') q (hfirst.live_subset doc'.id hq)) hrest
    refine ⟨s', ?_⟩
    rw [List.foldlM_cons, ht]
    exact hs'

/-- One entry with `_conflicts` of its own ends the second pass. -/
theorem rechecks_run {docs : List Entry} {s : σ} (h : ∀ doc ∈ docs, ∃ w, (trees s doc.id).live = {w}) :
    if ∀ doc ∈ docs, doc.conflicts = none then ∃ s', docs.foldlM (recheck server) s = .ok s'
    else docs.foldlM (recheck server) s = .error (.keyError "_conflicts") := by
  induction docs generalizing s with
  | nil => exact ⟨s, rfl⟩
  | cons doc docs ih =>
    obtain ⟨w, hw⟩ := h doc List.mem_cons_self
    have hlive : (trees s doc.id).live.Nonempty := hw ▸ Finset.singleton_nonempty w
    obtain ⟨resp, t, hget⟩ := get_runs hwilling hlive
    obtain ⟨htrees, hnone⟩ := get_resolved hserver hw hget
    have hcheck : recheck server s doc
        = if doc.conflicts = none then .ok t else .error (.keyError "_conflicts") := by
      unfold recheck
      simp only [hget, bind, Except.bind, hnone]
      cases doc.conflicts <;> rfl
    rw [List.foldlM_cons, hcheck]
    by_cases hown : doc.conflicts = none
    · rw [if_pos hown]
      have hrest := @ih t fun doc' hdoc' => htrees ▸ h doc' (List.mem_cons_of_mem _ hdoc')
      simp only [List.forall_mem_cons, hown, true_and]
      exact hrest
    · rw [if_neg hown, if_neg fun hall => hown (hall doc List.mem_cons_self)]
      rfl

end Willing

/-! ## A server of trees -/

noncomputable section

/-- Answers whatever can be answered. -/
def treeServer : Server Store where
  getDoc s id :=
    if h : (s id).live.Nonempty then
      let others := ((s id).live.erase (RevTree.exists_winner h).choose).toList
      (.ok ⟨if others = [] then none else some (others.map name)⟩, s)
    else (.error .httpError, s)
  deleteDoc s id rev :=
    if h : ∃ r ∈ (s id).live, name r = rev then
      (.ok (), Function.update s id (RevTree.exists_bury h.choose_spec.1).choose)
    else (.error .httpError, s)

end

theorem treeServer_trees : TreeServer treeServer fun s => s where
  get_keeps s id resp h := by
    simp only [treeServer] at h ⊢
    split <;> rfl
  get_names s id resp h := by
    simp only [treeServer] at h
    split at h
    · rename_i hlive
      obtain rfl := Except.ok.inj h
      exact ⟨_, _, (RevTree.exists_winner hlive).choose_spec, Finset.nodup_toList _, Finset.toList_toFinset _, rfl⟩
    · cases h
  delete_buries s id rev h := by
    simp only [treeServer] at h ⊢
    split at h
    · rename_i hleaf
      rw [dif_pos hleaf]
      refine ⟨hleaf.choose, hleaf.choose_spec.2, ?_⟩
      simp only [Function.update_self]
      exact (RevTree.exists_bury hleaf.choose_spec.1).choose_spec
    · cases h
  delete_others s id rev id' hid' := by
    simp only [treeServer]
    split
    · exact Function.update_of_ne hid' _ _
    · rfl

theorem treeServer_willing : Willing treeServer fun s => s where
  get s id h := ⟨_, by simp only [treeServer]; rw [dif_pos h]⟩
  delete s id r hr := by
    simp only [treeServer]
    rw [dif_pos ⟨r, hr, rfl⟩]

/-! ## A call -/

/-- **Conflicts are resolved.** When the first pass is through, the winner of each listed
document is its only live leaf, and no other document has changed. A call returns only if
no entry of the list has `_conflicts` of its own; on a server that refuses nothing it
returns then, and raises a KeyError otherwise. -/
theorem deleteConflicts_resolves {σ : Type} {server : Server σ} {trees : σ → Store}
    (hserver : TreeServer server trees) (s : σ) (docs : List Entry)
    (hplain : ∀ doc ∈ docs, ∀ r ∈ (trees s doc.id).live, Plain r) :
    (∀ s₁, docs.foldlM (purge server) s = .ok s₁ → Resolved (trees s) (trees s₁) (docs.map Entry.id)) ∧
    (∀ s', deleteConflicts server s docs = .ok s' →
      Resolved (trees s) (trees s') (docs.map Entry.id) ∧ ∀ doc ∈ docs, doc.conflicts = none) ∧
    (Willing server trees → (∀ doc ∈ docs, (trees s doc.id).live.Nonempty) →
      if ∀ doc ∈ docs, doc.conflicts = none then ∃ s', deleteConflicts server s docs = .ok s'
      else deleteConflicts server s docs = .error (.keyError "_conflicts")) := by
  have hleft : ∀ s₁, docs.foldlM (purge server) s = .ok s₁ →
      Resolved (trees s) (trees s₁) (docs.map Entry.id) ∧ ∀ doc ∈ docs, ∃ w, (trees s₁ doc.id).live = {w} := by
    intro s₁ hfirst
    have hres := purges_ok hserver hplain hfirst
    refine ⟨hres, fun doc hdoc => ?_⟩
    obtain ⟨w, -, hw⟩ := hres.winner doc.id (List.mem_map_of_mem hdoc)
    exact ⟨w, hw⟩
  refine ⟨fun s₁ hfirst => (hleft s₁ hfirst).1, fun s' hrun => ?_, fun hwilling hlive => ?_⟩
  · obtain ⟨s₁, hfirst, hsecond⟩ := Loop.bind_eq_ok.mp hrun
    obtain ⟨hres, hlone⟩ := hleft s₁ hfirst
    obtain ⟨htrees, hnone⟩ := rechecks_ok hserver hlone hsecond
    exact ⟨htrees ▸ hres, hnone⟩
  · obtain ⟨s₁, hfirst⟩ := purges_run hserver hwilling hplain hlive
    have hrun := rechecks_run hserver hwilling (hleft s₁ hfirst).2
    have heq : deleteConflicts server s docs = docs.foldlM (recheck server) s₁ := by
      rw [deleteConflicts, hfirst]
      rfl
    rw [heq]
    exact hrun

theorem deleteConflicts_resolves_foo : ∃ left, deleteConflicts treeServer withFoo [⟨"d", "2-b", none⟩] = .ok left ∧
    ∃ w, (withFoo "d").IsWinner w ∧ (left "d").live = {w} := by
  obtain ⟨-, hreturned, hruns⟩ :=
    deleteConflicts_resolves treeServer_trees withFoo [⟨"d", "2-b", none⟩] (by decide)
  obtain ⟨left, hrun⟩ := hruns treeServer_willing (by decide)
  exact ⟨left, hrun, (hreturned left hrun).1.winner "d" (by decide)⟩

end MobileTestkit.L4.ConflictsDeleted
