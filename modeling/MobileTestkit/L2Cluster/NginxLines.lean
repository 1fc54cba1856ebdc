import MobileTestkit.Core.ExceptLoop
import MobileTestkit.L2Cluster.Nginx

/-!
# The form of the upstream definitions

What `install_nginx` (libraries/provision/install_nginx.py) deploys should be lines
`server HOST:PORT;`, one for each gateway behind the load balancer. The gateway URLs
come from `get_cluster_topology`, which builds them with `https` when sync gateway SSL
is on, and only `http://` is taken off them.

* `upstreams_windows`: the definitions of the runs, for every cluster JSON and every
  outcome of the playbooks.
* `wellFormed_iff`: they have the form exactly when sync gateway SSL is off and no ip
  has a scheme in it, or no gateway is deployed.
-/
namespace MobileTestkit.L2.NginxLines

open MobileTestkit.Core MobileTestkit.L2.ClusterModels MobileTestkit.L2.Nginx

/-! ## The form -/

/-- What each playbook run is for: all of a list with an entry for each gateway, or the
part of the cluster behind the load balancer. -/
def windows {α : Type} (c : ClusterJson) (gateways : List α) : List (List α) :=
  if isLoadBalancerWithTwoClustersEnabled c then
    let cluster1Count := c.environment.sgwCluster1Count.getD 0
    let total := cluster1Count + c.environment.sgwCluster2Count.getD 0
    [gateways.take cluster1Count.toNat,
      (gateways.take total.toNat).drop cluster1Count.toNat].take c.loadBalancers.length
  else [gateways]

def ipv6 (c : ClusterJson) : Bool := c.environment.ipv6Enabled.getD false

def scheme (c : ClusterJson) : Scheme := (ClusterKeywords.init c).sgScheme

/-- A line `server HOST:PORT;` for each gateway, in order and without a scheme. -/
structure Lines (definition port : String) (ipv6 : Bool) (gateways : List Node) : Prop where
  lines : definition = definitionOf (gateways.map (endpoint ipv6 port))
  noScheme : ∀ sg ∈ gateways, PyStr.contains (endpoint ipv6 port sg) "://" = false

/-- Both definitions of each run have the form, for the gateways the run is for. -/
def WellFormed (c : ClusterJson) (runs : List PlaybookRun) : Prop :=
  ∀ (k : Nat) (run : PlaybookRun), runs[k]? = some run →
    ∃ gateways, (windows c c.syncGateways)[k]? = some gateways ∧
      Lines (run.var "upstream_sync_gatways") "4984" (ipv6 c) gateways ∧
      Lines (run.var "upstream_sync_gatways_admin") "4985" (ipv6 c) gateways

/-! ## The definitions of the runs -/

def upstreamsOf (sgs : List SgUrl) : Upstreams := sgs.foldl Upstreams.add ⟨"", ""⟩

def upstreams (run : PlaybookRun) : Upstreams :=
  ⟨run.var "upstream_sync_gatways", run.var "upstream_sync_gatways_admin"⟩

theorem upstreams_ansiblePlaybook (sgPlatform scriptName : String)
    (extraVars : PyDict String String) (u : Upstreams) (subset : Option String) :
    upstreams (ansiblePlaybook sgPlatform scriptName (setUpstreams extraVars u) subset) = u := by
  obtain ⟨hpub, hadm⟩ := var_ansiblePlaybook sgPlatform scriptName extraVars u subset
  rw [upstreams, hpub, hadm]

/-- The optional proxy settings leave the definitions alone. -/
theorem upstreams_proxyVars (sgPlatform scriptName : String) (extraVars : PyDict String String)
    (u : Upstreams) (subset : Option String) :
    upstreams (ansiblePlaybook sgPlatform scriptName (proxyVars (setUpstreams extraVars u)) subset)
      = u := by
  unfold upstreams PlaybookRun.var ansiblePlaybook proxyVars setUpstreams
  cases isDebian sgPlatform <;> simp [PyDict.get?_set]

/-- The runs made are the first of those an outcome without failures makes. -/
theorem runThen_runs (runner : PlaybookRun → Nat) (run : PlaybookRun) (msg : String)
    (next : Outcome) :
    (runThen runner run msg next).1 = run :: next.1 ∧ runner run = 0 ∨
      (runThen runner run msg next).1 = [run] ∧ runner run ≠ 0 := by
  unfold runThen
  split
  · exact .inl ⟨rfl, ‹_›⟩
  · exact .inr ⟨rfl, ‹_›⟩

/-- The windows of the two clusters go to the load balancers there are, as far as the
playbooks do not fail. -/
theorem installTwo_upstreams (runner : PlaybookRun → Nat) {c : ClusterJson}
    (htwo : isLoadBalancerWithTwoClustersEnabled c = true) (sgPlatform : String)
    (sgs : List SgUrl) :
    ∃ n, (installTwo runner c sgPlatform sgs).1.map upstreams
        = ((windows c sgs).map upstreamsOf).take n ∧
      ((∀ run, runner run = 0) → c.environment.sgwCluster1Count.isSome →
        c.environment.sgwCluster2Count.isSome → n = 2) := by
  unfold installTwo windows
  rw [if_pos htwo]
  cases h1 : c.environment.sgwCluster1Count with
  | none => exact ⟨0, rfl, fun _ hsome => nomatch hsome⟩
  | some cluster1Count =>
    cases h2 : c.environment.sgwCluster2Count with
    | none => exact ⟨0, rfl, fun _ _ hsome => nomatch hsome⟩
    | some cluster2Count =>
      simp only [lookup, Option.getD_some, upstreamLoop_windows, Nat.sub_zero]
      cases hlbs : c.loadBalancers with
      | nil => exact ⟨2, rfl, fun _ _ _ => rfl⟩
      | cons lb1 rest =>
        simp only [List.map_cons, List.getElem?_cons_zero, List.length_cons]
        rcases runThen_runs runner _ _ _ with ⟨hruns, -⟩ | ⟨hruns, hfail⟩
        · rw [hruns]
          cases rest with
          | nil =>
            refine ⟨2, ?_, fun _ _ _ => rfl⟩
            simp [upstreams_ansiblePlaybook, upstreamsOf]
          | cons lb2 rest =>
            simp only [List.map_cons, List.getElem?_cons_succ, List.getElem?_cons_zero]
            refine ⟨2, ?_, fun _ _ _ => rfl⟩
            rcases runThen_runs runner _ _ _ with ⟨hruns, -⟩ | ⟨hruns, -⟩
            · rw [hruns]
              simp [upstreams_ansiblePlaybook, upstreamsOf]
            · rw [hruns]
              simp [upstreams_ansiblePlaybook, upstreamsOf]
        · rw [hruns]
          refine ⟨1, ?_, fun hrun => absurd (hrun _) hfail⟩
          simp [upstreams_ansiblePlaybook, upstreamsOf]

/-- The keys that are read before the first playbook run. -/
structure Ready (c : ClusterJson) : Prop where
  ipv6 : c.environment.ipv6Enabled.isSome
  cbsSsl : c.environment.cbsSslEnabled.isSome
  lb : c.environment.sgLbEnabled.isSome
  platform : c.environment.sgPlatform.isSome
  counts : isLoadBalancerWithTwoClustersEnabled c = true →
    c.environment.sgwCluster1Count.isSome ∧ c.environment.sgwCluster2Count.isSome

theorem forNodes_ok {α : Type} {c : ClusterJson} {entry : Node → String → α} {nodes : List Node}
    {l : List α} (h : forNodes c entry nodes = .ok l) :
    l = nodes.map fun n => entry n (wrap (ipv6 c) n.ip) := by
  cases hip : c.environment.ipv6Enabled with
  | some b =>
    rw [forNodes_eq hip] at h
    rw [← Except.ok.inj h, ipv6, hip]
    rfl
  | none =>
    cases nodes with
    | nil => exact (Except.ok.inj h).symm
    | cons node rest =>
      simp only [forNodes, wrapIp, hip] at h
      cases h

/-- The URLs in a topology without load balancers. -/
theorem topology_gateways {self : ClusterKeywords} {c : ClusterJson} {t : Topology}
    (h : self.getClusterTopology c false = .ok t) :
    t.syncGateways = c.syncGateways.map fun sg => sgUrl self.sgScheme (wrap (ipv6 c) sg.ip) := by
  unfold ClusterKeywords.getClusterTopology at h
  obtain ⟨sgs, hsgs, h⟩ := Loop.bind_eq_ok.mp h
  obtain ⟨acs, -, h⟩ := Loop.bind_eq_ok.mp h
  obtain ⟨lbs, -, h⟩ := Loop.bind_eq_ok.mp h
  obtain ⟨cbsSsl, -, h⟩ := Loop.bind_eq_ok.mp h
  obtain ⟨cbs, -, h⟩ := Loop.bind_eq_ok.mp h
  rw [← Except.ok.inj h]
  simp only [ClusterKeywords.sgUrls, Bool.and_false] at hsgs
  obtain ⟨lbEnabled, -, hsgs⟩ := Loop.bind_eq_ok.mp hsgs
  exact forNodes_ok hsgs

/-- The definitions of the runs made, for every outcome of the playbooks. -/
theorem upstreams_windows (runner : PlaybookRun → Nat) (c : ClusterJson) (customizeProxy : Bool) :
    ∃ n, (installNginx runner c customizeProxy).1.map upstreams =
        ((windows c (c.syncGateways.map fun sg => sgUrl (scheme c) (wrap (ipv6 c) sg.ip))).map
          upstreamsOf).take n ∧
      ((∀ run, runner run = 0) → Ready c → n = 2) := by
  unfold installNginx
  cases ht : (ClusterKeywords.init c).getClusterTopology c false with
  | error x =>
    refine ⟨0, rfl, fun _ hready => ?_⟩
    obtain ⟨b, hb⟩ := Option.isSome_iff_exists.mp hready.ipv6
    obtain ⟨t, ht', -⟩ := topology_real hb hready.cbsSsl hready.lb (ClusterKeywords.init c)
    cases ht.symm.trans ht'
  | ok t =>
    cases hp : getSgPlatform c with
    | error x =>
      refine ⟨0, rfl, fun _ hready => ?_⟩
      obtain ⟨p, hp'⟩ := Option.isSome_iff_exists.mp hready.platform
      simp [getSgPlatform, hp', lookup] at hp
    | ok sgPlatform =>
      have hsgs : t.syncGateways = _ := topology_gateways ht
      simp only [hsgs]
      by_cases htwo : isLoadBalancerWithTwoClustersEnabled c = true
      · rw [if_pos htwo]
        obtain ⟨n, hruns, hall⟩ := installTwo_upstreams runner htwo sgPlatform
          (c.syncGateways.map fun sg => sgUrl (scheme c) (wrap (ipv6 c) sg.ip))
        refine ⟨n, hruns, fun hrun hready => ?_⟩
        obtain ⟨h1, h2⟩ := hready.counts htwo
        exact hall hrun h1 h2
      · rw [if_neg htwo, installAll, windows, if_neg htwo]
        refine ⟨2, ?_, fun _ _ => rfl⟩
        rcases runThen_runs runner _ _ _ with ⟨hruns, -⟩ | ⟨hruns, -⟩
        all_goals
          rw [hruns]
          cases customizeProxy
          · simp [upstreams_ansiblePlaybook, upstreamsOf]
            rfl
          · simp [upstreams_proxyVars, upstreamsOf]
            rfl

/-! ## The form of one definition -/

theorem infix_of_append {x : Char} {s cs tail : List Char} (hx : x ∉ tail)
    (h : s ++ [x] <:+: cs ++ tail) : s ++ [x] <:+: cs := by
  obtain ⟨a, b, hab⟩ := h
  rcases List.append_eq_append_iff.mp hab with ⟨r, hcs, -⟩ | ⟨r, hr, htail⟩
  · exact ⟨a, r, hcs.symm⟩
  · -- what sticks out of `cs` would end with `x`
    rcases List.eq_nil_or_concat r with rfl | ⟨init, y, rfl⟩
    · rw [List.append_nil] at hr
      exact ⟨a, [], by rw [hr, List.append_nil]⟩
    · rw [List.concat_eq_append, ← List.append_assoc, ← List.append_assoc] at hr
      obtain rfl : x = y := by simpa using (List.append_inj' hr rfl).2
      exact absurd (by rw [htail]; simp) hx

/-- Of an endpoint only the ip can have a scheme in it. -/
theorem contains_endpoint (ipv6 : Bool) {port : String} (hport : '/' ∉ port.toList) (sg : Node) :
    PyStr.contains (endpoint ipv6 port sg) "://" = PyStr.contains sg.ip "://" := by
  have hend : ∀ cs : List Char, ":/".toList ++ ['/'] <:+: cs ++ ':' :: port.toList ↔
      ":/".toList ++ ['/'] <:+: cs := fun cs =>
    ⟨infix_of_append (by simp [hport]), fun h => List.infix_append_of_infix_left h⟩
  rw [Bool.eq_iff_iff]
  simp only [PyStr.contains, PyStr.containsList_iff_infix]
  have htext : (endpoint ipv6 port sg).toList = (wrap ipv6 sg.ip).toList ++ ':' :: port.toList := by
    simp [endpoint]
  rw [htext]
  refine (hend _).trans ?_
  cases ipv6 with
  | false => exact Iff.rfl
  | true =>
    have hwrap : (wrap true sg.ip).toList = '[' :: (sg.ip.toList ++ [']']) := by simp [wrap]
    rw [hwrap]
    constructor
    · intro h
      rcases List.infix_cons_iff.mp h with ⟨b, hb⟩ | h
      · simp at hb
      · exact infix_of_append (by decide) h
    · exact fun h => List.infix_cons (List.infix_append_of_infix_left h)

/-- A definition over the URLs of gateways has the form exactly when their scheme is
`http` and there is none in the ips. -/
theorem lines_iff (scheme : Scheme) (ipv6 : Bool) {port : String} (hport : '/' ∉ port.toList)
    (hdigit : '4' ∈ port.toList) (gateways : List Node) :
    Lines (definitionOf (gateways.map fun sg => ipPort (url scheme (wrap ipv6 sg.ip) port))) port ipv6
        gateways ↔
      ∀ sg ∈ gateways, scheme = .http ∧ PyStr.contains sg.ip "://" = false := by
  have htext : ∀ sg : Node, (endpoint ipv6 port sg).toList
      = (wrap ipv6 sg.ip).toList ++ ':' :: port.toList := by simp [endpoint]
  constructor
  · rintro ⟨hlines, hscheme⟩ sg hsg
    refine ⟨?_, contains_endpoint ipv6 hport sg ▸ hscheme sg hsg⟩
    cases gateways with
    | nil => cases hsg
    | cons first rest =>
      cases scheme with
      | http => rfl
      | https =>
        have hfirst := congrArg String.toList hlines
        simp only [List.map_cons, definitionOf, serverLine, String.toList_append, ipPort_https,
          List.append_assoc, List.append_cancel_left_eq] at hfirst
        have hno := hscheme first List.mem_cons_self
        rcases List.append_eq_append_iff.mp hfirst.symm with ⟨r, hr, -⟩ | ⟨r, hr, -⟩
        · -- the endpoint would be a part of the text of the scheme
          have hmem : '4' ∈ "https://".toList := by
            rw [hr, htext]
            simp [hdigit]
          exact absurd hmem (by decide)
        · have hin : "://".toList <:+: (endpoint ipv6 port first).toList := by
            rw [hr]
            exact List.infix_append_of_infix_left ⟨"https".toList, [], by decide⟩
          rw [PyStr.contains, PyStr.containsList_iff_infix.mpr hin] at hno
          cases hno
  · intro h
    have hno : ∀ sg ∈ gateways, PyStr.contains (endpoint ipv6 port sg) "://" = false :=
      fun sg hsg => (contains_endpoint ipv6 hport sg).trans (h sg hsg).2
    refine ⟨congrArg definitionOf (List.map_congr_left fun sg hsg => ?_), hno⟩
    apply String.toList_injective
    have hkeep : PyStr.containsList "http://".toList (endpoint ipv6 port sg).toList = false := by
      rw [Bool.eq_false_iff]
      intro hc
      have hin := PyStr.containsList_iff_infix.mp hc
      have hmark : "://".toList <:+: "http://".toList := ⟨"http".toList, [], by decide⟩
      have hcontains := hno sg hsg
      rw [PyStr.contains, PyStr.containsList_iff_infix.mpr (hmark.trans hin)] at hcontains
      cases hcontains
    rw [(h sg hsg).1, ipPort_http, ← htext, PyStr.deleteList_of_not_contains _ _ hkeep]

/-! ## The form of all definitions -/

theorem windows_map {α β : Type} (c : ClusterJson) (f : α → β) (gateways : List α) :
    windows c (gateways.map f) = (windows c gateways).map (List.map f) := by
  unfold windows
  split
  · simp [List.map_take, List.map_drop]
  · rfl

/-- What a run for a window of the gateways deploys. -/
theorem upstreamsOf_gateways (scheme : Scheme) (ipv6 : Bool) (gateways : List Node) :
    upstreamsOf (gateways.map fun sg => sgUrl scheme (wrap ipv6 sg.ip)) =
      { definition := definitionOf (gateways.map fun sg => ipPort (url scheme (wrap ipv6 sg.ip) "4984"))
        definitionAdmin :=
          definitionOf (gateways.map fun sg => ipPort (url scheme (wrap ipv6 sg.ip) "4985")) } := by
  rw [upstreamsOf, foldl_add, List.map_map, List.map_map]
  simp only [String.empty_append]
  rfl

theorem scheme_eq_http (c : ClusterJson) : scheme c = .http ↔ sgSslEnabled c = false := by
  cases h : sgSslEnabled c <;> simp [scheme, ClusterKeywords.init, h]

theorem isSome_of_lookup {α : Type} {key : String} {o : Option α} {v : α} (h : lookup key o = .ok v) :
    o.isSome := by
  cases o with
  | none => cases h
  | some w => rfl

/-- With gateways, no run is made before all keys are read. -/
theorem ready_of_run {runner : PlaybookRun → Nat} {c : ClusterJson} {customizeProxy : Bool}
    {run : PlaybookRun} (h : run ∈ (installNginx runner c customizeProxy).1)
    (hne : c.syncGateways ≠ []) : Ready c := by
  unfold installNginx at h
  split at h
  · cases h
  · rename_i t ht
    split at h
    · cases h
    · rename_i sgPlatform hp
      unfold ClusterKeywords.getClusterTopology at ht
      obtain ⟨sgs, hsgs, ht⟩ := Loop.bind_eq_ok.mp ht
      obtain ⟨acs, -, ht⟩ := Loop.bind_eq_ok.mp ht
      obtain ⟨lbs, -, ht⟩ := Loop.bind_eq_ok.mp ht
      obtain ⟨cbsSsl, hssl, -⟩ := Loop.bind_eq_ok.mp ht
      simp only [ClusterKeywords.sgUrls, Bool.and_false] at hsgs
      obtain ⟨lbEnabled, hlb, hsgs⟩ := Loop.bind_eq_ok.mp hsgs
      refine ⟨?_, isSome_of_lookup hssl, isSome_of_lookup hlb, isSome_of_lookup hp, fun htwo => ?_⟩
      · obtain ⟨first, rest, hcons⟩ := List.exists_cons_of_ne_nil hne
        have hnodes : forNodes c (fun _ ip => sgUrl (ClusterKeywords.init c).sgScheme ip)
            (first :: rest) = .ok sgs := hcons ▸ hsgs
        rw [forNodes] at hnodes
        obtain ⟨ip, hip, -⟩ := Loop.bind_eq_ok.mp hnodes
        obtain ⟨b, hb, -⟩ := Loop.bind_eq_ok.mp hip
        exact isSome_of_lookup hb
      · rw [if_pos htwo] at h
        unfold installTwo at h
        split at h
        · cases h
        · rename_i n1 h1
          split at h
          · cases h
          · rename_i n2 h2
            exact ⟨isSome_of_lookup h1, isSome_of_lookup h2⟩

/-- A run deploys the definitions of its window. -/
theorem run_window {runner : PlaybookRun → Nat} {c : ClusterJson} {customizeProxy : Bool} {k : Nat}
    {run : PlaybookRun} (h : (installNginx runner c customizeProxy).1[k]? = some run) :
    ∃ gateways, (windows c c.syncGateways)[k]? = some gateways ∧
      upstreams run = upstreamsOf (gateways.map fun sg => sgUrl (scheme c) (wrap (ipv6 c) sg.ip)) := by
  obtain ⟨n, hruns, -⟩ := upstreams_windows runner c customizeProxy
  have hk := congrArg (fun l : List Upstreams => l[k]?) hruns
  simp only [List.getElem?_map, h, windows_map, Option.map_some, List.getElem?_take] at hk
  split at hk
  · cases hw : (windows c c.syncGateways)[k]? with
    | none =>
      rw [hw] at hk
      cases hk
    | some gateways =>
      rw [hw] at hk
      exact ⟨gateways, rfl, Option.some.inj hk⟩
  · cases hk

theorem lines_run {c : ClusterJson} {run : PlaybookRun} {gateways : List Node}
    (h : upstreams run
      = upstreamsOf (gateways.map fun sg => sgUrl (scheme c) (wrap (ipv6 c) sg.ip))) :
    Lines (run.var "upstream_sync_gatways") "4984" (ipv6 c) gateways ∧
        Lines (run.var "upstream_sync_gatways_admin") "4985" (ipv6 c) gateways ↔
      ∀ sg ∈ gateways, sgSslEnabled c = false ∧ PyStr.contains sg.ip "://" = false := by
  rw [upstreamsOf_gateways] at h
  have hpub := congrArg Upstreams.definition h
  have hadm := congrArg Upstreams.definitionAdmin h
  simp only [upstreams] at hpub hadm
  rw [hpub, hadm, lines_iff _ _ (by decide) (by decide), lines_iff _ _ (by decide) (by decide),
    and_self_iff, scheme_eq_http]

/-- All definitions that are deployed have the form exactly when sync gateway SSL is off
and no gateway behind a load balancer has a scheme in its ip, or a key is missing and
nothing is deployed. -/
theorem wellFormed_iff (c : ClusterJson) (customizeProxy : Bool) :
    (∀ runner, WellFormed c (installNginx runner c customizeProxy).1) ↔
      (Ready c → ∀ gateways ∈ windows c c.syncGateways, ∀ sg ∈ gateways,
        sgSslEnabled c = false ∧ PyStr.contains sg.ip "://" = false) := by
  constructor
  · intro hwell hready gateways hmem
    obtain ⟨k, hk⟩ := List.mem_iff_getElem?.mp hmem
    -- where no playbook fails, every window has its run
    obtain ⟨n, hruns, hall⟩ := upstreams_windows (fun _ => 0) c customizeProxy
    have hn := hall (fun _ => rfl) hready
    have hlen : k < 2 := by
      have hlt := (List.getElem?_eq_some_iff.mp hk).1
      unfold windows at hlt
      split at hlt
      · simp only [List.length_take, List.length_cons, List.length_nil] at hlt
        omega
      · simp only [List.length_cons, List.length_nil] at hlt
        omega
    have hrun := congrArg (fun l : List Upstreams => l[k]?) hruns
    simp only [List.getElem?_map, windows_map, List.getElem?_take, hn, if_pos hlen, hk,
      Option.map_some] at hrun
    cases hr : (installNginx (fun _ => 0) c customizeProxy).1[k]? with
    | none =>
      rw [hr] at hrun
      cases hrun
    | some run =>
      rw [hr] at hrun
      obtain ⟨gateways', hk', hlines⟩ := hwell (fun _ => 0) k run hr
      obtain rfl : gateways = gateways' := Option.some.inj (hk.symm.trans hk')
      exact (lines_run (Option.some.inj hrun)).mp hlines
  · intro hcond runner k run hr
    obtain ⟨gateways, hk, hup⟩ := run_window hr
    refine ⟨gateways, hk, (lines_run hup).mpr fun sg hsg => ?_⟩
    have hne : c.syncGateways ≠ [] := by
      intro hnil
      have hin := List.mem_of_getElem? hk
      rw [hnil] at hin
      unfold windows at hin
      split at hin
      · have hempty : gateways = [] := by simpa using List.mem_of_mem_take hin
        rw [hempty] at hsg
        cases hsg
      · rw [List.mem_singleton.mp hin] at hsg
        cases hsg
    exact hcond (ready_of_run (List.mem_of_getElem? hr) hne) gateways (List.mem_of_getElem? hk) sg hsg

/-- One gateway with sync gateway SSL, behind one load balancer. -/
def sslCluster : ClusterJson where
  environment :=
    { ipv6Enabled := some false, cbsSslEnabled := some false, xattrsEnabled := some false
      syncGatewaySsl := some true, disablePersistentConfig := some false, sgLbEnabled := some true
      twoSgClusterLbEnabled := some false, sgwCluster1Count := none, sgwCluster2Count := none
      sgPlatform := some "centos" }
  couchbaseServers := []
  syncGateways := [⟨"sg1", "192.168.33.11"⟩]
  sgAccels := []
  loadBalancers := [⟨"lb1", "192.168.33.15"⟩]

/-- The line keeps the scheme. -/
theorem sslCluster_not_wellFormed :
    (installNginx (fun _ => 0) sslCluster false).1.map (·.var "upstream_sync_gatways")
        = ["server https://192.168.33.11:4984;\n"] ∧
      ¬ ∀ runner, WellFormed sslCluster (installNginx runner sslCluster false).1 := by
  have hdeployed : (installNginx (fun _ => 0) sslCluster false).1.map
      (·.var "upstream_sync_gatways") = ["server https://192.168.33.11:4984;\n"] := by decide
  refine ⟨hdeployed, fun hwell => ?_⟩
  cases hr : (installNginx (fun _ => 0) sslCluster false).1 with
  | nil =>
    rw [hr] at hdeployed
    cases hdeployed
  | cons run rest =>
    obtain ⟨gateways, hk, hlines, -⟩ := hwell (fun _ => 0) 0 run (by rw [hr]; rfl)
    have hgateways : [⟨"sg1", "192.168.33.11"⟩] = gateways := Option.some.inj hk
    have hline := hlines.lines
    rw [hr, List.map_cons] at hdeployed
    rw [(List.cons.inj hdeployed).1, ← hgateways] at hline
    exact absurd hline (by decide)

end MobileTestkit.L2.NginxLines
