import MobileTestkit.L2Cluster.Allocation
import MobileTestkit.L5Concurrency.PoolLedger
import MobileTestkit.L5Concurrency.ReserveNode

/-!
# From the machine pool to the cluster definitions

`--reserve-nodes` of utilities/mobile_server_pool.py writes the nodes it has reserved to
resources/pool.json, and `generate_clusters_from_pool` of
libraries/utilities/generate_clusters_from_pool.py writes from that file the two files of
every cluster definition it knows.

* `main_reserves`: the nodes in the text are the wanted number of rows, each booked for the
  job by a replace the store accepted and then found alive, whatever other clients do.
* `readPool_written`: what `get_hosts` makes of the text.
* `reserved_clusters`: which definitions are written from it, and with which machines.
-/
namespace MobileTestkit.L5.PoolClusters

open MobileTestkit.Core MobileTestkit.L5.ServerPool MobileTestkit.L5.ReserveNode
open MobileTestkit.L5.PoolLedger MobileTestkit.L2.GenerateClusters MobileTestkit.L2.PoolFile

/-! ## Generating -/

/-- mirrors libraries/utilities/generate_clusters_from_pool.py:474-550 -/
def clusterConfs : List ClusterDef := [
  ⟨"base_cc", 1, 0, 1, 0, 0⟩,
  ⟨"base_di", 1, 1, 1, 0, 0⟩,
  ⟨"ci_cc", 1, 0, 3, 0, 0⟩,
  ⟨"ci_di", 1, 2, 3, 0, 0⟩,
  ⟨"base_lb_cc", 3, 0, 1, 0, 1⟩,
  ⟨"base_lb_di", 3, 1, 1, 0, 1⟩,
  ⟨"ci_lb_cc", 3, 0, 3, 0, 1⟩,
  ⟨"ci_lb_di", 3, 3, 3, 0, 1⟩,
  ⟨"2each_lb_cc", 2, 0, 2, 0, 1⟩,
  ⟨"2each_lb_di", 2, 2, 2, 0, 1⟩,
  ⟨"multiple_servers_cc", 1, 0, 3, 0, 0⟩,
  ⟨"multiple_servers_di", 1, 1, 3, 0, 0⟩,
  ⟨"multiple_sg_accels_di", 1, 3, 1, 0, 0⟩,
  ⟨"multiple_sync_gateways_cc", 2, 0, 1, 0, 0⟩,
  ⟨"multiple_sync_gateways_di", 2, 1, 1, 0, 0⟩,
  ⟨"three_sync_gateways_cc", 3, 0, 1, 0, 0⟩,
  ⟨"four_sync_gateways_cc", 4, 0, 1, 0, 0⟩,
  ⟨"load_balancer_cc", 2, 0, 1, 0, 1⟩,
  ⟨"load_balancer_2_cc", 4, 0, 2, 0, 2⟩,
  ⟨"load_balancer_di", 2, 1, 1, 0, 1⟩,
  ⟨"1sg", 1, 0, 0, 0, 0⟩,
  ⟨"2sgs", 2, 0, 0, 0, 0⟩,
  ⟨"1cbs", 0, 0, 1, 0, 0⟩,
  ⟨"1sg_1cbs_1lgs", 1, 0, 1, 1, 0⟩,
  ⟨"1cb_1sg_1lb", 1, 0, 1, 0, 1⟩,
  ⟨"1sg_1ac_1cbs_1lgs", 1, 1, 1, 1, 0⟩,
  ⟨"1sg_1ac_3cbs_1lgs", 1, 1, 3, 1, 0⟩,
  ⟨"1sg_2ac_3cbs_1lgs", 1, 2, 3, 1, 0⟩,
  ⟨"1sg_3cbs_1lgs", 1, 0, 3, 1, 0⟩,
  ⟨"2sg_1cbs_1lgs", 2, 0, 1, 1, 0⟩,
  ⟨"2sg_3cbs_2lgs", 2, 0, 3, 2, 0⟩,
  ⟨"2sg_6cbs_2lgs", 2, 0, 6, 2, 0⟩,
  ⟨"2sg_2ac_3cbs_1lgs", 2, 2, 3, 1, 0⟩,
  ⟨"2sg_2ac_3cbs_2lgs", 2, 2, 3, 2, 0⟩,
  ⟨"2sg_2ac_6cbs_2lgs", 2, 2, 6, 2, 0⟩,
  ⟨"2sg_4ac_3cbs_2lgs", 2, 4, 3, 2, 0⟩,
  ⟨"2sg_8ac_3cbs_2lgs", 2, 8, 3, 2, 0⟩,
  ⟨"2sg_2ac_6cbs_2lgs", 2, 2, 6, 2, 0⟩,
  ⟨"2sg_8ac_6cbs_2lgs", 2, 8, 6, 2, 0⟩,
  ⟨"4sg_2ac_3cbs_4lgs", 4, 2, 3, 4, 0⟩,
  ⟨"4sg_2ac_6cbs_4lgs", 4, 2, 6, 4, 0⟩,
  ⟨"4sg_4ac_3cbs_4lgs", 4, 4, 3, 4, 0⟩,
  ⟨"4sg_4ac_6cbs_4lgs", 4, 4, 6, 4, 0⟩,
  ⟨"4sg_8ac_3cbs_4lgs", 4, 8, 3, 4, 0⟩,
  ⟨"4sg_8ac_6cbs_4lgs", 4, 8, 6, 4, 0⟩,
  ⟨"8sg_4ac_3cbs_8lgs", 8, 4, 3, 8, 0⟩,
  ⟨"8sg_4ac_6cbs_8lgs", 8, 4, 6, 8, 0⟩,
  ⟨"8sg_4ac_12cbs_8lgs", 8, 4, 12, 8, 0⟩,
  ⟨"8sg_8ac_3cbs_8lgs", 8, 8, 3, 8, 0⟩,
  ⟨"8sg_8ac_6cbs_8lgs", 8, 8, 6, 8, 0⟩,
  ⟨"8sg_12ac_3cbs_8lgs", 8, 12, 3, 8, 0⟩,
  ⟨"12sg_4ac_6cbs_12lgs", 12, 4, 6, 12, 0⟩,
  ⟨"12sg_4ac_12cbs_12lgs", 12, 4, 12, 12, 0⟩,
  ⟨"12sg_8ac_6cbs_12lgs", 12, 8, 6, 12, 0⟩,
  ⟨"12sg_8ac_12cbs_12lgs", 12, 8, 12, 12, 0⟩,
  ⟨"16sg_4ac_3cbs_16lgs", 16, 4, 3, 16, 0⟩,
  ⟨"16sg_4ac_6cbs_16lgs", 16, 4, 6, 16, 0⟩,
  ⟨"16sg_4ac_12cbs_16lgs", 16, 4, 12, 16, 0⟩,
  ⟨"16sg_8ac_3cbs_16lgs", 16, 8, 3, 16, 0⟩,
  ⟨"16sg_8ac_6cbs_16lgs", 16, 8, 6, 16, 0⟩,
  ⟨"16sg_8ac_12cbs_16lgs", 16, 8, 12, 16, 0⟩,
  ⟨"32sg_16ac_16cbs_32lgs", 32, 16, 16, 32, 0⟩,
  ⟨"1sg_2ac_3cbs", 1, 2, 3, 0, 0⟩]

/-- The two files of each name in `cluster_configs`. -/
abbrev ConfigDir := String → Files

def ConfigDir.set (dir : ConfigDir) (name : String) (fs : Files) : ConfigDir :=
  fun n => if n = name then fs else dir n

theorem ConfigDir.set_self (dir : ConfigDir) (name : String) (fs : Files) : dir.set name fs name = fs :=
  if_pos rfl

theorem ConfigDir.set_of_ne {n name : String} (h : n ≠ name) (dir : ConfigDir) (fs : Files) :
    dir.set name fs n = dir n := if_neg h

/-- The loop over the definitions; `localIp` is the address of the socket, which is opened
again for each of them. -/
def writeConfigs (o : Options) (poolFile : PoolFile) (localIp : Nat → Option String) :
    List ClusterDef → ConfigDir → ConfigDir × Option L2.GenerateClusters.Exn
  | [], dir => (dir, none)
  | config :: rest, dir =>
    match writeConfig o config poolFile (localIp rest.length) (dir config.name) with
    | (fs, .raised x) => (dir.set config.name fs, some x)
    | (fs, _) => writeConfigs o poolFile localIp rest (dir.set config.name fs)

/-- Without a pool file it exits, and `get_hosts` is asked once before any file is opened.
mirrors libraries/utilities/generate_clusters_from_pool.py:470-563 -/
def generateClustersFromPool (o : Options) (poolFile : Option PoolFile)
    (localIp : Nat → Option String) (dir : ConfigDir) : ConfigDir × Option L2.GenerateClusters.Exn :=
  match poolFile with
  | none => (dir, some .systemExit)
  | some poolFile =>
    match getHosts poolFile with
    | .error x => (dir, some x)
    | .ok _ => writeConfigs o poolFile localIp clusterConfs dir

/-! ## Reserving -/

section Reserving
variable {J : String → String → Jenkins → Prop} {docId : String} {jobName : Job} {s s' : Pool}
  {calls : List ReserveNode.Call}

/-- The store has accepted a replace that books the document as it was stored. -/
def booking (docId : String) (jobName : Job) (t : Pool) (now : String) : ReserveNode.Call :=
  ⟨t, .replace docId ((t.doc docId).book jobName now) (some (t.cas docId)), Replaced.ok⟩

/-- The node was booked for the job, and then found alive. -/
def Reserved (docId : String) (jobName : Job) (calls : List ReserveNode.Call) : Prop :=
  ∃ t now t', [booking docId jobName t now, ⟨t', .ssh docId, true⟩].Sublist calls

theorem Reserved.sublist {calls' : List ReserveNode.Call} (h : Reserved docId jobName calls)
    (hs : calls.Sublist calls') : Reserved docId jobName calls' := by
  obtain ⟨t, now, t', hsub⟩ := h
  exact ⟨t, now, t', hsub.trans hs⟩

/-- An attempt that ends in `True` has booked the document, or its retry has. -/
theorem attempt_books {retry : Prog Bool}
    (h : Run J (reserveAttempt docId jobName retry) s s' (.ok true) calls) :
    (∃ t now, booking docId jobName t now ∈ calls) ∨
      ∃ t first rest, calls = first ++ rest ∧ Run J retry t s' (.ok true) rest := by
  obtain ⟨t₀, a, rest, -, ha, rfl, ⟨-, -, x, hx⟩ | ⟨d, c, rfl, hrun⟩⟩ := run_sdkGet h
  · cases hx
  have hseen : t₀.Seen docId d c := CasStore.seen_get ha.symm
  obtain ⟨t₁, now, rest, h₁, -, hrun, rfl⟩ := hrun
  obtain ⟨t₂, r, rest, h₂, hok, hrun, rfl⟩ := hrun
  have hseen₂ : t₂.Seen docId d c := (hseen.evolves h₁).evolves h₂
  cases (r : Replaced) with
  | ok =>
    obtain ⟨-, hcas⟩ : docId ∈ t₂.keys ∧ t₂.cas docId = c := hok
    have hdoc : t₂.doc docId = d := hseen₂.2 hcas
    refine .inl ⟨t₂, now, ?_⟩
    rw [booking, hdoc, hcas]
    simp
  | couchbaseException =>
    obtain ⟨t₃, a', rest, -, -, rfl, ⟨-, -, x, hx⟩ | ⟨d', c', rfl, hrun'⟩⟩ := run_sdkGet hrun
    · cases hx
    · simp only at hrun'
      split at hrun'
      · exact .inr ⟨t₃, [_, _, _, _], rest, rfl, hrun'⟩
      · obtain ⟨-, hret, -⟩ := hrun'
        cases hret
  | exception =>
    obtain ⟨-, hret, -⟩ := hrun
    cases hret

theorem reserveRetry_books (left : Nat)
    (h : Run J (reserveRetry docId jobName left) s s' (.ok true) calls) :
    ∃ t now, booking docId jobName t now ∈ calls := by
  induction left generalizing s calls with
  | zero =>
    rcases attempt_books h with h | ⟨t, first, rest, -, hrun⟩
    · exact h
    · obtain ⟨-, hret, -⟩ := hrun
      cases hret
  | succ left ih =>
    rcases attempt_books h with h | ⟨t, first, rest, rfl, hrun⟩
    · exact h
    · obtain ⟨t', now, hmem⟩ := ih hrun
      exact ⟨t', now, List.mem_append_right _ hmem⟩

theorem sshAttempts_alive (server : String) (left : Nat)
    (h : Run J (sshAttempts server left) s s' (.ok true) calls) :
    ∃ t, (⟨t, .ssh server, true⟩ : ReserveNode.Call) ∈ calls := by
  induction left generalizing s calls with
  | zero =>
    obtain ⟨-, hret, -⟩ := h
    cases hret
  | succ left ih =>
    obtain ⟨t, up, rest, -, -, hrest, rfl⟩ := h
    cases (up : Bool) with
    | true => exact ⟨t, List.mem_cons_self⟩
    | false =>
      obtain ⟨t', hmem⟩ := ih hrest
      exact ⟨t', List.mem_cons_of_mem _ hmem⟩

theorem checkAlive_alive {nodesOsType : String} (hos : nodesOsType ∉ MOBILE_OS)
    (h : Run J (checkAlive nodesOsType docId) s s' (.ok true) calls) :
    ∃ t, (⟨t, .ssh docId, true⟩ : ReserveNode.Call) ∈ calls := by
  rw [checkAlive, if_neg hos] at h
  rcases rely_bind h with ⟨alive, t, ms₁, ms₂, hssh, hret, rfl⟩ | ⟨x, -, hx⟩
  · obtain ⟨-, halive, rfl⟩ := hret
    rw [← Except.ok.inj halive] at hssh
    obtain ⟨t', hmem⟩ := sshAttempts_alive docId _ hssh
    exact ⟨t', List.mem_append_left _ hmem⟩
  · cases hx

/-- The loop returns what it had and rows it has reserved, as many as were wanted. -/
theorem allocate_reserves {nodesOsType : String} (hos : nodesOsType ∉ MOBILE_OS) {numOfNodes : Int}
    (rows : List String) {poolList nodes : List String}
    (h : Run J (allocate numOfNodes nodesOsType jobName rows poolList) s s' (.ok nodes) calls) :
    ∃ new, nodes = poolList ++ new ∧ new.Sublist rows ∧ (nodes.length : Int) = numOfNodes ∧
      ∀ n ∈ new, Reserved n jobName calls := by
  induction rows generalizing poolList s calls with
  | nil =>
    rcases rely_bind h with ⟨-, t, ms₁, ms₂, -, hraise, -⟩ | ⟨x, -, hx⟩
    · obtain ⟨-, hret, -⟩ := hraise
      cases hret
    · cases hx
  | cons docId rows ih =>
    rcases rely_bind h with ⟨reserved, t₁, ms₁, ms₂, hres, hrest, rfl⟩ | ⟨x, -, hx⟩
    swap
    · cases hx
    rcases rely_bind hrest with ⟨alive, t₂, ms₃, ms₄, hlive, hloop, rfl⟩ | ⟨x, -, hx⟩
    swap
    · cases hx
    -- what this row adds to the list
    obtain ⟨added, hadded, hsub, hheld⟩ : ∃ added,
        (if reserved && alive then poolList ++ [docId] else poolList) = poolList ++ added ∧
          added.Sublist [docId] ∧ ∀ n ∈ added, Reserved n jobName (ms₁ ++ ms₃) := by
      cases hboth : reserved && alive with
      | false => exact ⟨[], by simp, List.nil_sublist _, fun n hn => absurd hn List.not_mem_nil⟩
      | true =>
        obtain ⟨rfl, rfl⟩ := Bool.and_eq_true_iff.mp hboth
        obtain ⟨t, now, hbook⟩ := reserveRetry_books _ hres
        obtain ⟨t', hssh⟩ := checkAlive_alive hos hlive
        refine ⟨[docId], rfl, List.Sublist.refl _, fun n hn => ?_⟩
        obtain rfl := List.mem_singleton.mp hn
        have hpair := (List.singleton_sublist.mpr hbook).append (List.singleton_sublist.mpr hssh)
        exact ⟨t, now, t', hpair⟩
    have hcalls : (ms₁ ++ ms₃).Sublist (ms₁ ++ (ms₃ ++ ms₄)) := by
      rw [← List.append_assoc]
      exact List.sublist_append_left _ _
    simp only [hadded] at hloop
    split at hloop
    · rename_i hlen
      obtain ⟨-, hret, rfl⟩ := hloop
      obtain rfl := Except.ok.inj hret
      exact ⟨added, rfl, hsub.trans (List.singleton_sublist.mpr List.mem_cons_self), hlen,
        fun n hn => (hheld n hn).sublist hcalls⟩
    · obtain ⟨new, rfl, hnew, hlen, hall⟩ := ih hloop
      refine ⟨added ++ new, by simp, hsub.append hnew, hlen, fun n hn => ?_⟩
      rcases List.mem_append.mp hn with hn | hn
      · exact (hheld n hn).sublist hcalls
      · exact (hall n hn).sublist ((List.sublist_append_right _ _).trans (List.sublist_append_right _ _))

/-- The rows a select was answered. -/
def Listed (n : String) (calls : List ReserveNode.Call) : Prop :=
  ∃ t w, ∃ rows : List String, (⟨t, .select w, rows⟩ : ReserveNode.Call) ∈ calls ∧ n ∈ rows

theorem not_run_none {α : Type} {p : Prog α} {text : String}
    (h : Run J (p.bind fun _ => .ret (none : Option String)) s s' (.ok (some text)) calls) : False := by
  rcases rely_bind h with ⟨-, -, -, -, -, ⟨-, hret, -⟩, -⟩ | ⟨x, -, hx⟩
  · cases hret
  · cases hx

theorem not_run_raise {x : ServerPool.Exn} {text : String}
    (h : Run J (.raise x : Prog (Option String)) s s' (.ok (some text)) calls) : False := by
  obtain ⟨-, hret, -⟩ := h
  cases hret

/-- A command line that writes a pool file has reserved its nodes. -/
theorem main_reserves {opts : Opts} {text : String} (h : Run J (main opts) s s' (.ok (some text)) calls) :
    ∃ nodes, text = poolJsonStr nodes opts.sgwNodes opts.loadBalancerNodes ∧ nodes.Nodup ∧
      (nodes.length : Int) = opts.numOfNodes ∧
      ∀ n ∈ nodes, Listed n calls ∧ Reserved n opts.jobName calls := by
  unfold main at h
  split at h
  · exact (not_run_raise h).elim
  split at h
  · exact (not_run_none h).elim
  split at h
  · rcases rely_bind h with ⟨nodes, t, ms₁, ms₂, hget, ⟨-, hret, rfl⟩, rfl⟩ | ⟨x, -, hx⟩
    swap
    · cases hx
    have htext := Except.ok.inj hret
    unfold poolText at htext
    split at htext
    · cases htext
    rename_i hos
    unfold getNodesFromPoolServer at hget
    rw [if_neg hos] at hget
    obtain ⟨t', rows, rest, -, hok, hloop, rfl⟩ := hget
    have hrows : rows.Nodup := (List.Perm.nodup_iff hok).mpr (t'.nodup.filter _)
    obtain ⟨new, hnew, hsub, hlen, hall⟩ := allocate_reserves hos rows hloop
    obtain rfl : nodes = new := hnew
    refine ⟨nodes, Option.some.inj htext, hsub.nodup hrows, hlen, fun n hn => ⟨?_, ?_⟩⟩
    · exact ⟨t', _, rows, List.mem_append_left _ List.mem_cons_self, hsub.subset hn⟩
    · rw [List.append_nil]
      exact (hall n hn).sublist (List.sublist_cons_self _ _)
  split at h
  · split at h
    · exact (not_run_raise h).elim
    · rename_i poolList _
      generalize nodeList poolList = released at h
      exact (not_run_none h).elim
  split at h
  · exact (not_run_none h).elim
  · exact (not_run_raise h).elim

end Reserving

/-! ## The machines in the file -/

/-- The machines of a pool file: those that were reserved, and those of the two options. -/
structure Machines where
  nodes : List String
  sgw : Option (List String)
  loadBalancers : List String

def Machines.given (opts : Opts) (nodes : List String) : Machines where
  nodes := nodes
  sgw := optionNodes opts.sgwNodes
  loadBalancers := (optionNodes opts.loadBalancerNodes).getD []

namespace Machines
variable (ms : Machines)

def ips : List String := ms.nodes ++ ms.sgw.getD [] ++ ms.loadBalancers

def types : PyDict String String :=
  match ms.sgw with
  | none => .empty
  | some sgw => .ofList (typedNodes ms.nodes sgw ms.loadBalancers)

/-- What is there for a role once the machines have types. -/
def ofRole : Role → List String
  | .couchbaseServers => ms.nodes
  | .syncGateways => ms.sgw.getD []
  | .loadBalancers => ms.loadBalancers
  | .sgAccels => []
  | .loadGenerators => []

/-- The machines a role may get: without sync gateways the file has no types, and any
machine may have any role. -/
def forRole (role : Role) : List String := if ms.sgw.isSome then ms.ofRole role else ms.ips

/-- The definition can be written. -/
def Fits (config : ClusterDef) : Prop :=
  if ms.sgw.isSome then ∀ r, config.count r ≤ (ms.ofRole r).length
  else config.numMachinesRequired ≤ ms.ips.length

end Machines

theorem optionNodes_ne_nil {option : Option String} {l : List String} (h : optionNodes option = some l) :
    l ≠ [] := by
  unfold optionNodes at h
  split at h
  · cases h
  · split at h
    · cases h
    · rw [← Option.some.inj h]
      exact fun he => PyStr.splitList_ne_nil _ _ (List.map_eq_nil_iff.mp he)

/-- What the text is read as. -/
theorem readPool_written {opts : Opts} {nodes : List String}
    (hclean : ∀ n ∈ (Machines.given opts nodes).ips, CleanName n) :
    readPool (poolJsonStr nodes opts.sgwNodes opts.loadBalancerNodes)
      = .pool (Machines.given opts nodes).ips (Machines.given opts nodes).types := by
  unfold Machines.types Machines.ips Machines.given at *
  rw [readPool, loads_poolJsonStr hclean]
  cases optionNodes opts.sgwNodes with
  | none => exact poolOf_ips _
  | some sgw => exact poolOf_types _ _

theorem Machines.mem_typedNodes (ms : Machines) {sgw : List String} (hsgw : ms.sgw = some sgw) (ip : String)
    (role : Role) :
    (ip, role.key) ∈ typedNodes ms.nodes sgw ms.loadBalancers ↔ ip ∈ ms.ofRole role := by
  cases role <;> simp [typedNodes, Role.key, Machines.ofRole, hsgw]

theorem Machines.ofRole_sublist (ms : Machines) (role : Role) : (ms.ofRole role).Sublist ms.ips := by
  unfold Machines.ips
  cases role with
  | couchbaseServers => exact (List.sublist_append_left _ _).trans (List.sublist_append_left _ _)
  | syncGateways => exact (List.sublist_append_right _ _).trans (List.sublist_append_left _ _)
  | loadBalancers => exact List.sublist_append_right _ _
  | sgAccels => exact List.nil_sublist _
  | loadGenerators => exact List.nil_sublist _

section Typed
variable {ms : Machines} {sgw : List String} (hsgw : ms.sgw = some sgw) (hnd : ms.ips.Nodup)
include hsgw

theorem types_eq : ms.types = .ofList (typedNodes ms.nodes sgw ms.loadBalancers) := by
  rw [Machines.types, hsgw]

include hnd

theorem typedNodes_nodup : ((typedNodes ms.nodes sgw ms.loadBalancers).map Prod.fst).Nodup := by
  rw [keys_typedNodes]
  simpa [Machines.ips, hsgw] using hnd

theorem types_get (ip : String) (role : Role) : ms.types.get? ip = some role.key ↔ ip ∈ ms.ofRole role := by
  rw [types_eq hsgw, PyDict.get?_ofList (typedNodes_nodup hsgw hnd), ms.mem_typedNodes hsgw]

/-- The machines of a type are those that were given for it. -/
theorem ofType_length (role : Role) :
    (ms.ips.filter fun ip => ms.types.get? ip = some role.key).length = (ms.ofRole role).length := by
  refine List.Perm.length_eq ((List.perm_ext_iff_of_nodup (hnd.filter _)
    ((ms.ofRole_sublist role).nodup hnd)).mpr fun ip => ?_)
  rw [List.mem_filter, decide_eq_true_iff, types_get hsgw hnd]
  exact ⟨fun h => h.2, fun h => ⟨(ms.ofRole_sublist role).subset h, h⟩⟩

theorem types_keys (ip : String) : ip ∈ ms.types.keys ↔ ip ∈ ms.ips := by
  rw [types_eq hsgw, PyDict.keys, PyDict.items_ofList _ (typedNodes_nodup hsgw hnd), keys_typedNodes]
  simp [Machines.ips, hsgw]

end Typed

/-- Without sync gateways there is no map, and with them a map of all machines. -/
theorem mapsPool (ms : Machines) (hsgw : ∀ l ∈ ms.sgw, l ≠ []) (hnd : ms.ips.Nodup) :
    MapsPool ms.types ms.ips ∧ (ms.types.items = [] ↔ ms.sgw = none) := by
  cases hcase : ms.sgw with
  | none =>
    have hnone : ms.types.items = [] := by
      rw [Machines.types, hcase]
      rfl
    exact ⟨.inl hnone, iff_of_true hnone rfl⟩
  | some sgw =>
    have hne : ms.types.items ≠ [] := by
      obtain ⟨ip, hip⟩ := List.exists_mem_of_ne_nil sgw (hsgw sgw hcase)
      have hkey : ip ∈ ms.types.keys :=
        (types_keys hcase hnd ip).mpr (by simp [Machines.ips, hcase, hip])
      intro he
      rw [PyDict.keys, he] at hkey
      exact absurd hkey List.not_mem_nil
    exact ⟨.inr ⟨hne, types_keys hcase hnd⟩, iff_of_false hne (by simp)⟩

theorem count_nonneg : ∀ config ∈ clusterConfs, ∀ r, 0 ≤ config.count r := by
  have hall : ∀ config ∈ clusterConfs, ∀ r ∈ roles, 0 ≤ config.count r := by decide
  exact fun config hc r => hall config hc r (mem_roles r)

/-! ## One definition -/

/-- Both files of the definition are there and agree; each role has as many machines as the
definition says, all of them given for that role, and no machine has two roles. -/
def Allocated (ms : Machines) (config : ClusterDef) (fs : Files) : Prop :=
  ∃ inv js, fs = ⟨some inv, some js⟩ ∧
    (∀ r, inventoryIps inv r = js.ips r ∧ (js.ips r).Nodup ∧ js.ips r ⊆ ms.forRole r ∧
      ((js.ips r).length : Int) = config.count r) ∧
    ∀ r r', r ≠ r' → List.Disjoint (js.ips r) (js.ips r')

/-- The JSON is as it was, and the inventory as it was or gone. -/
def Spared (before after : Files) : Prop :=
  after.json = before.json ∧ (after.inventory = before.inventory ∨ after.inventory = none)

theorem Spared.trans {a b c : Files} (h : Spared a b) (h' : Spared b c) : Spared a c := by
  obtain ⟨hjson, hinv⟩ := h
  obtain ⟨hjson', hinv'⟩ := h'
  refine ⟨hjson'.trans hjson, ?_⟩
  rcases hinv' with hinv' | hinv'
  · rw [hinv']
    exact hinv
  · exact .inr hinv'

/-- What is to become of the files of a definition. -/
def Due (ms : Machines) (config : ClusterDef) (before after : Files) : Prop :=
  (ms.Fits config → Allocated ms config after) ∧ (¬ ms.Fits config → Spared before after)

theorem numMachinesRequired_le {ms : Machines} {config : ClusterDef}
    (h : ∀ r, config.count r ≤ (ms.ofRole r).length) : config.numMachinesRequired ≤ ms.ips.length := by
  have hcbs : config.numCbs ≤ ms.nodes.length := h .couchbaseServers
  have hsgs : config.numSgs ≤ (ms.sgw.getD []).length := h .syncGateways
  have hlbs : config.numLbs ≤ ms.loadBalancers.length := h .loadBalancers
  have hacs : config.numAcs ≤ (0 : Nat) := h .sgAccels
  have hlgs : config.numLgs ≤ (0 : Nat) := h .loadGenerators
  unfold ClusterDef.numMachinesRequired Machines.ips
  rw [List.length_append, List.length_append]
  omega

/-- The definition fits exactly if it is opened and every role is filled. -/
theorem fits_iff {ms : Machines} {config : ClusterDef} (hsgw : ∀ l ∈ ms.sgw, l ≠ [])
    (hnd : ms.ips.Nodup) (hcount : ∀ r, 0 ≤ config.count r) :
    ms.Fits config ↔ config.numMachinesRequired ≤ ms.ips.length ∧
      ∀ r ∈ roles, Filled config ms.types ms.ips r := by
  obtain ⟨hmaps, hitems⟩ := mapsPool ms hsgw hnd
  unfold Machines.Fits
  cases hcase : ms.sgw with
  | none =>
    have hnone := hitems.mpr hcase
    rw [Option.isSome_none, if_neg Bool.false_ne_true]
    exact ⟨fun hfit => ⟨hfit, fun r _ => filled_of_fits hnone hcount hfit r⟩, fun h => h.1⟩
  | some sgw =>
    have hne : ms.types.items ≠ [] := fun he => by simp [hitems.mp he] at hcase
    have hfilled := fun hfit : config.numMachinesRequired ≤ ms.ips.length => hmaps.filled_iff hcount hfit
    simp only [ofType_length hcase hnd] at hfilled
    rw [Option.isSome_some, if_pos rfl]
    constructor
    · intro hall
      have hfit := numMachinesRequired_le hall
      exact ⟨hfit, (hfilled hfit).mpr fun _ => hall⟩
    · intro h
      obtain ⟨hfit, hall⟩ := h
      exact (hfilled hfit).mp hall hne

/-- `write_config` on such a pool file does what is due, and raises nothing. -/
theorem writeConfig_due (o : Options) {ms : Machines} {config : ClusterDef} (localIp : Option String)
    (fs : Files) (hsgw : ∀ l ∈ ms.sgw, l ≠ []) (hnd : ms.ips.Nodup) (hcount : ∀ r, 0 ≤ config.count r) :
    ∃ fs' out, writeConfig o config (.pool ms.ips ms.types) localIp fs = (fs', out) ∧
      (∀ x, out ≠ .raised x) ∧ Due ms config fs fs' := by
  obtain ⟨hmaps, hitems⟩ := mapsPool ms hsgw hnd
  have hfits := fits_iff hsgw hnd hcount
  by_cases hfit : config.numMachinesRequired ≤ ms.ips.length
  swap
  · refine ⟨fs, .skipped, ?_, fun x => nofun, fun hf => absurd (hfits.mp hf).1 hfit,
      fun _ => ⟨rfl, .inl rfl⟩⟩
    unfold writeConfig getHosts
    simp only [hnd, if_true, if_pos (Int.not_le.mp hfit)]
  have hspec := writeConfig_of_opened o config ms.types ms.ips localIp fs (hmaps.opened hnd hfit)
  by_cases hfill : ∀ r ∈ roles, Filled config ms.types ms.ips r
  · rw [if_pos hfill] at hspec
    obtain ⟨inv, js, hres, hips⟩ := hspec
    obtain ⟨hrole, hdisj, htype⟩ := chosen_correct hnd hcount hfill fun r => (hips r).2
    refine ⟨_, _, hres, fun x => nofun, fun _ => ⟨inv, js, rfl, fun r => ?_, hdisj⟩,
      fun hno => absurd (hfits.mpr ⟨hfit, hfill⟩) hno⟩
    refine ⟨(hips r).1.trans (hips r).2.symm, (hrole r).1, fun ip hip => ?_, (hrole r).2.2⟩
    unfold Machines.forRole
    cases hcase : ms.sgw with
    | none => exact (hrole r).2.1 hip
    | some sgw =>
      have hne : ms.types.items ≠ [] := fun he => by simp [hitems.mp he] at hcase
      exact (types_get hcase hnd ip r).mp (htype hne r ip hip)
  · have hne : ms.types.items ≠ [] := fun hm => hfill fun r _ => filled_of_fits hm hcount hfit r
    rw [if_neg hfill, shortage_of_mapped hne (hmaps.mapped hne)] at hspec
    exact ⟨_, _, hspec, fun x => nofun, fun hf => absurd (hfits.mp hf).2 hfill,
      fun _ => ⟨rfl, .inr rfl⟩⟩

/-! ## All of them -/

theorem Due.trans {ms : Machines} {config : ClusterDef} {a b c : Files} (h : Due ms config a b)
    (h' : Due ms config b c) : Due ms config a c :=
  ⟨h'.1, fun hno => (h.2 hno).trans (h'.2 hno)⟩

/-- The loop, over definitions of which two with one name are the same. -/
theorem writeConfigs_due (o : Options) {ms : Machines} (localIp : Nat → Option String)
    (hsgw : ∀ l ∈ ms.sgw, l ≠ []) (hnd : ms.ips.Nodup) (confs : List ClusterDef)
    (hcount : ∀ config ∈ confs, ∀ r, 0 ≤ config.count r)
    (hsame : ∀ a ∈ confs, ∀ b ∈ confs, a.name = b.name → a = b) (dir : ConfigDir) :
    ∃ made, writeConfigs o (.pool ms.ips ms.types) localIp confs dir = (made, none) ∧
      (∀ name ∉ confs.map ClusterDef.name, made name = dir name) ∧
      ∀ config ∈ confs, Due ms config (dir config.name) (made config.name) := by
  induction confs generalizing dir with
  | nil => exact ⟨dir, rfl, fun _ _ => rfl, fun config hc => absurd hc List.not_mem_nil⟩
  | cons config rest ih =>
    obtain ⟨fs, out, hwrite, hout, hdue⟩ := writeConfig_due o (localIp rest.length)
      (dir config.name) hsgw hnd (hcount config List.mem_cons_self)
    obtain ⟨made, hloop, hother, hrest⟩ := ih (fun c hc => hcount c (List.mem_cons_of_mem _ hc))
      (fun a ha b hb => hsame a (List.mem_cons_of_mem _ ha) b (List.mem_cons_of_mem _ hb))
      (dir.set config.name fs)
    have hstep : writeConfigs o (.pool ms.ips ms.types) localIp (config :: rest) dir = (made, none) := by
      rw [writeConfigs, hwrite, ← hloop]
      cases out with
      | raised x => exact absurd rfl (hout x)
      | written => rfl
      | skipped => rfl
    have hself : Due ms config (dir config.name) (made config.name) := by
      by_cases hagain : config.name ∈ rest.map ClusterDef.name
      · -- the definition is written again later on
        obtain ⟨c, hc, hname⟩ := List.mem_map.mp hagain
        obtain rfl := hsame c (List.mem_cons_of_mem _ hc) config List.mem_cons_self hname
        have hlater := hrest c hc
        rw [ConfigDir.set_self] at hlater
        exact hdue.trans hlater
      · rw [hother config.name hagain, ConfigDir.set_self]
        exact hdue
    refine ⟨made, hstep, fun name hname => ?_, fun c hc => ?_⟩
    · rw [List.map_cons, List.mem_cons, not_or] at hname
      rw [hother name hname.2, ConfigDir.set_of_ne hname.1]
    · rcases List.mem_cons.mp hc with rfl | hc'
      · exact hself
      · by_cases hname : c.name = config.name
        · obtain rfl := hsame c hc config List.mem_cons_self hname
          exact hself
        · have hdir := hrest c hc'
          rw [ConfigDir.set_of_ne hname] at hdir
          exact hdir

deriving instance DecidableEq for ClusterDef

/-- A name that is listed twice is listed with the same numbers. -/
theorem clusterConfs_same : ∀ a ∈ clusterConfs, ∀ b ∈ clusterConfs, a.name = b.name → a = b := by
  decide +kernel

/-- **From the pool to the definitions.** When a command line has written a pool file, its
nodes are booked for the job and were found alive after that; the generation exits, with
nothing written, if a machine is given twice, and else writes exactly the definitions the
machines are enough for, each role with machines given for it and no machine in two roles,
and leaves the JSON of every other definition as it was. -/
theorem reserved_clusters {J : String → String → Jenkins → Prop} {opts : Opts} {text : String}
    {s s' : Pool} {calls : List ReserveNode.Call} (h : Run J (main opts) s s' (.ok (some text)) calls)
    (hrows : ∀ n, Listed n calls → CleanName n)
    (hoptions : ∀ n ∈ (optionNodes opts.sgwNodes).getD [] ++
      (optionNodes opts.loadBalancerNodes).getD [], CleanName n)
    (o : Options) (localIp : Nat → Option String) (dir : ConfigDir) :
    ∃ nodes, nodes.Nodup ∧ (nodes.length : Int) = opts.numOfNodes ∧
      (∀ n ∈ nodes, Reserved n opts.jobName calls) ∧
      (¬ (Machines.given opts nodes).ips.Nodup →
        generateClustersFromPool o (some (readPool text)) localIp dir = (dir, some .systemExit)) ∧
      ((Machines.given opts nodes).ips.Nodup →
        ∃ made, generateClustersFromPool o (some (readPool text)) localIp dir = (made, none) ∧
          (∀ name ∉ clusterConfs.map ClusterDef.name, made name = dir name) ∧
          ∀ config ∈ clusterConfs,
            Due (Machines.given opts nodes) config (dir config.name) (made config.name)) := by
  obtain ⟨nodes, rfl, hnd, hlen, hall⟩ := main_reserves h
  refine ⟨nodes, hnd, hlen, fun n hn => (hall n hn).2, ?_⟩
  have hclean : ∀ n ∈ (Machines.given opts nodes).ips, CleanName n := by
    intro n hn
    unfold Machines.ips Machines.given at hn
    rw [List.append_assoc] at hn
    rcases List.mem_append.mp hn with hn | hn
    · exact hrows n (hall n hn).1
    · exact hoptions n hn
  rw [readPool_written hclean]
  generalize hms : Machines.given opts nodes = ms
  have hsgw : ∀ l ∈ ms.sgw, l ≠ [] := by
    intro l hl
    rw [← hms] at hl
    exact optionNodes_ne_nil hl
  unfold generateClustersFromPool
  constructor
  · intro htwice
    simp only [getHosts, if_neg htwice]
  · intro hips
    simp only [getHosts, if_pos hips]
    exact writeConfigs_due o localIp hsgw hips clusterConfs count_nonneg clusterConfs_same dir

def oneNode : Opts where
  numOfNodes := 1
  nodesOsType := "windows"
  nodesOsVersion := "10"
  jobName := some "job:1"
  reserveNodes := true
  sgwNodes := some "sg-1"

def bookedOnce : List ReserveNode.Call :=
  [⟨onePool, .select (.available "windows" "10" none), ["n1"]⟩,
    ⟨onePool, .get "n1", some (freeNode (some "u0"), 0)⟩, ⟨onePool, .strftime, "t1"⟩,
    ⟨onePool, .replace "n1" ((freeNode (some "u0")).book (some "job:1") "t1") (some 0), Replaced.ok⟩,
    ⟨onePool.put "n1" ((freeNode (some "u0")).book (some "job:1") "t1"), .ssh "n1", true⟩]

theorem run_oneNode : Run (fun _ _ _ => False) (main oneNode) onePool
    (onePool.put "n1" ((freeNode (some "u0")).book (some "job:1") "t1"))
    (.ok (some (poolJsonStr ["n1"] (some "sg-1") none))) bookedOnce := by
  have stay (t : Pool) : t.Evolves t := CasStore.Evolves.refl t
  refine run_call (.select _) onePool ["n1"] (stay _) (List.Perm.refl _) ?_
  refine run_call (.get "n1") onePool (some (freeNode (some "u0"), 0)) (stay _) rfl ?_
  refine run_call .strftime onePool "t1" (stay _) trivial ?_
  refine run_call (.replace _ _ _) onePool .ok (stay _) ⟨List.mem_singleton.mpr rfl, rfl⟩ ?_
  refine run_call (.ssh "n1") _ true (stay _) trivial ?_
  exact ⟨rfl, rfl, rfl⟩

theorem bookedOnce_listed {n : String} (h : Listed n bookedOnce) : n = "n1" := by
  obtain ⟨t, w, rows, hmem, hn⟩ := h
  simp only [bookedOnce, List.mem_cons, Moment.mk.injEq, reduceCtorEq, false_and, and_false,
    or_false, List.not_mem_nil, Query.select.injEq] at hmem
  obtain ⟨-, rfl, hrows⟩ := hmem
  obtain rfl := eq_of_heq hrows
  exact List.mem_singleton.mp hn

theorem bookedOnce_reserved {n : String} {job : Job} (h : Reserved n job bookedOnce) : n = "n1" := by
  obtain ⟨t, now, t', hsub⟩ := h
  have hmem := hsub.subset (List.mem_cons_of_mem _ List.mem_cons_self)
  simp [bookedOnce] at hmem
  exact hmem.2

theorem oneNode_clean : ∀ n ∈ (optionNodes oneNode.sgwNodes).getD [] ++
    (optionNodes oneNode.loadBalancerNodes).getD [], CleanName n := by
  have hnodes : (optionNodes oneNode.sgwNodes).getD [] ++ (optionNodes oneNode.loadBalancerNodes).getD []
      = ["sg-1"] := by decide
  intro n hn
  rw [hnodes, List.mem_singleton] at hn
  rw [hn, CleanName]
  decide

/-- One node and a sync gateway make the definition `base_cc`. -/
theorem reserved_base_cc : ∃ made,
    generateClustersFromPool plainOptions (some (readPool (poolJsonStr ["n1"] (some "sg-1") none)))
      (fun _ => none) (fun _ => ⟨none, none⟩) = (made, none) ∧
    Allocated (Machines.given oneNode ["n1"]) oneEach (made "base_cc") := by
  obtain ⟨nodes, -, hlen, hres, -, hmade⟩ := reserved_clusters run_oneNode
    (fun n hn => by rw [bookedOnce_listed hn, CleanName]; decide)
    oneNode_clean plainOptions (fun _ => none) (fun _ => ⟨none, none⟩)
  obtain ⟨n, rfl⟩ := List.length_eq_one_iff.mp (Int.ofNat.inj hlen)
  obtain rfl := bookedOnce_reserved (hres n List.mem_cons_self)
  obtain ⟨made, hgen, -, hdue⟩ := hmade (by decide)
  refine ⟨made, hgen, (hdue oneEach List.mem_cons_self).1 ?_⟩
  intro r
  cases r <;> decide

end MobileTestkit.L5.PoolClusters
