import MobileTestkit.L2Cluster.Topology

/-!
# The two cluster models agree

`ClusterKeywords.get_cluster_topology` and `Cluster.__init__` over one cluster
JSON whose environment has the keys they read (`Complete`).

* `both_or_neither`: with the load balancers on, both return, with the same hosts
  of gateways and accels in the same order, or both raise `IndexError` on a
  load balancer that is not there (`MissingBalancer`).
* `models_agree_iff`: the server URLs are the same as well exactly when no load
  balancer is missing and there is no server, or IPv6 is off: `CouchbaseServer` drops
  the brackets that the topology keeps.
* `routed_to_first_iff`: behind one load balancer every gateway has the host of
  the first load balancer, bracketed once under IPv6, exactly when there is no
  load balancer to route to, the addresses are not IPv6, or there is at most one
  gateway. The loop keeps the bracketed `lb_ip` and brackets it again for the
  next gateway.
* `routesTo_iff`: behind two load balancers the i-th gateway is routed to the
  first one below the first count, to the second one below the sum.

All start from what one iteration of a loop does; the loops agree by induction
on the gateways.
-/
namespace MobileTestkit.L2.ClusterModels

open MobileTestkit.Core

/-! ## Hosts of URLs -/

theorem afterScheme_text (scheme : Scheme) (rest : List Char) :
    afterScheme (scheme.text.toList ++ ("://".toList ++ rest)) = some rest := by
  cases scheme <;> simp [Scheme.text, afterScheme]

theorem beforePort_append (host port : List Char) (h : ':' ∉ port) :
    beforePort (host ++ ':' :: port) = host := by
  have hport : ∀ c ∈ port.reverse, (c != ':') = true := by
    intro c hc
    have hne : c ≠ ':' := fun he => h (he ▸ List.mem_reverse.mp hc)
    simpa using hne
  have hrev : (host ++ ':' :: port).reverse = port.reverse ++ ':' :: host.reverse := by simp
  unfold beforePort
  rw [hrev, List.dropWhile_append_of_pos hport]
  simp

theorem urlHost_url (scheme : Scheme) (host port : String) (h : ':' ∉ port.toList) :
    urlHost (url scheme host port) = host := by
  have hl : (url scheme host port).toList =
      scheme.text.toList ++ ("://".toList ++ (host.toList ++ ':' :: port.toList)) := by
    simp [url]
  unfold urlHost
  rw [hl, afterScheme_text]
  simp [beforePort_append _ _ h]

/-- The hosts of the public and of the admin URL. -/
def SgUrl.hosts (u : SgUrl) : String × String := (urlHost u.publicUrl, urlHost u.adminUrl)

@[simp] theorem sgUrl_hosts (scheme : Scheme) (host : String) :
    (sgUrl scheme host).hosts = (host, host) := by
  unfold SgUrl.hosts sgUrl
  rw [urlHost_url _ _ _ (by decide), urlHost_url _ _ _ (by decide)]

/-! ## The environment -/

/-- The keys the two models read are there; the counts only matter with two
clusters. -/
structure Complete (env : Environment) : Prop where
  ipv6 : env.ipv6Enabled.isSome
  cbsSsl : env.cbsSslEnabled.isSome
  xattrs : env.xattrsEnabled.isSome
  sgSsl : env.syncGatewaySsl.isSome
  persistent : env.disablePersistentConfig.isSome
  lb : env.sgLbEnabled.isSome
  counts : env.twoSgClusterLbEnabled = some true →
    env.sgwCluster1Count.isSome ∧ env.sgwCluster2Count.isSome

theorem wrapIp_eq {c : ClusterJson} {ipv6 : Bool} (h : c.environment.ipv6Enabled = some ipv6)
    (ip : String) : wrapIp c ip = .ok (wrap ipv6 ip) := by
  unfold wrapIp
  rw [h]
  rfl

theorem lbIp_error {c : ClusterJson} {k : Nat} {x : Exn} (h : lbIp c k = .error x) :
    x = .indexError := by
  unfold lbIp at h
  split at h
  · cases h
  · cases h
    rfl

/-! ## The loops agree -/

/-- Equal results up to what is read off each entry. -/
def SameBy {α β γ : Type} (f : α → γ) (g : β → γ) (x : Except Exn (List α))
    (y : Except Exn (List β)) : Prop := x.map (List.map f) = y.map (List.map g)

theorem SameBy.cases {α β γ : Type} {f : α → γ} {g : β → γ} {x : Except Exn (List α)}
    {y : Except Exn (List β)} (h : SameBy f g x y) :
    (∃ l m, x = .ok l ∧ y = .ok m ∧ l.map f = m.map g) ∨ ∃ e, x = .error e ∧ y = .error e := by
  unfold SameBy at h
  cases x with
  | ok l =>
    cases y with
    | ok m => exact .inl ⟨l, m, rfl, rfl, by simpa [Except.map] using h⟩
    | error e => simp [Except.map] at h
  | error e =>
    cases y with
    | ok m => simp [Except.map] at h
    | error e' =>
      simp only [Except.map, Except.error.injEq] at h
      exact .inr ⟨e, rfl, by rw [h]⟩

/-- One more entry in front, computed from the same partial result. -/
theorem SameBy.cons {α β γ δ : Type} {f : α → γ} {g : β → γ} {x : Except Exn (List α)}
    {y : Except Exn (List β)} (v : Except Exn δ) (a : δ → α) (b : δ → β)
    (hab : ∀ d, f (a d) = g (b d)) (h : SameBy f g x y) :
    SameBy f g (do let d ← v; let l ← x; return a d :: l)
      (do let d ← v; let m ← y; return b d :: m) := by
  cases v with
  | error e => rfl
  | ok d =>
    rcases h.cases with ⟨l, m, rfl, rfl, hlm⟩ | ⟨e, rfl, rfl⟩
    · show Except.ok ((a d :: l).map f) = Except.ok ((b d :: m).map g)
      rw [List.map_cons, List.map_cons, hab, hlm]
    · rfl

/-- What both models say of a gateway: the host for its public and admin URL. -/
def Node.hosts (n : Node) : String × String := (n.ip, n.ip)

theorem sgUrl_same (scheme : Scheme) (name ip : String) :
    (sgUrl scheme ip).hosts = (Node.mk name ip).hosts := sgUrl_hosts scheme ip

section Loops

variable (self : ClusterKeywords) (c : ClusterJson)

/-- The ip of a load balancer as an iteration uses it. -/
def wrappedLb (k : Nat) : Except Exn String := do
  let ip ← lbIp c k
  wrapIp c ip

theorem twoCluster_same (cluster1Count total : Int) (sgs : List Node) (count : Nat) :
    SameBy SgUrl.hosts Node.hosts (ClusterKeywords.twoClusterUrls c cluster1Count total count sgs)
      (Cluster.twoClusterTargets c cluster1Count total count sgs) := by
  induction sgs generalizing count with
  | nil => rfl
  | cons sg rest ih =>
    unfold ClusterKeywords.twoClusterUrls Cluster.twoClusterTargets
    have hstep := fun k => (ih (count + 1)).cons (wrappedLb c k) (sgUrl .http)
      (fun ip => Node.mk sg.name ip) (fun ip => sgUrl_same .http sg.name ip)
    simp only [wrappedLb, bind_assoc] at hstep
    by_cases h1 : (count : Int) < cluster1Count
    · simp only [if_pos h1]
      exact hstep 0
    · by_cases h2 : (count : Int) < total
      · simp only [if_neg h1, if_pos h2]
        exact hstep 1
      · simp only [if_neg h1, if_neg h2]
        exact ih (count + 1)

/-- Both copies carry the rewritten `lb_ip` on. -/
theorem oneCluster_same (sgs : List Node) (lb : String) :
    SameBy SgUrl.hosts Node.hosts (ClusterKeywords.oneClusterUrls c lb sgs)
      (Cluster.oneClusterTargets c lb sgs) := by
  induction sgs generalizing lb with
  | nil => rfl
  | cons sg rest ih =>
    unfold ClusterKeywords.oneClusterUrls Cluster.oneClusterTargets
    cases hw : wrapIp c lb with
    | error e => rfl
    | ok ip =>
      exact (ih ip).cons (.ok ip) (sgUrl .http) (fun ip => Node.mk sg.name ip)
        fun ip => sgUrl_same .http sg.name ip

theorem forNodes_same {α β γ : Type} {f : α → γ} {g : β → γ} (a : Node → String → α)
    (b : Node → String → β) (hab : ∀ n ip, f (a n ip) = g (b n ip)) (nodes : List Node) :
    SameBy f g (forNodes c a nodes) (forNodes c b nodes) := by
  induction nodes with
  | nil => rfl
  | cons node rest ih => exact ih.cons (wrapIp c node.ip) (a node) (b node) (hab node)

/-- The three modes of the load balancers. -/
theorem sg_same : SameBy SgUrl.hosts Node.hosts (self.sgUrls c true) (Cluster.sgTargets c) := by
  unfold ClusterKeywords.sgUrls Cluster.sgTargets
  simp only [Bool.and_true]
  by_cases htwo : isLoadBalancerWithTwoClustersEnabled c = true
  · simp only [if_pos htwo]
    cases lookup "sgw_cluster1_count" c.environment.sgwCluster1Count with
    | error e => rfl
    | ok c1 =>
      cases lookup "sgw_cluster2_count" c.environment.sgwCluster2Count with
      | error e => rfl
      | ok c2 => exact twoCluster_same c c1 (c1 + c2) c.syncGateways 0
  · simp only [if_neg htwo]
    cases isLoadBalancerEnabled c with
    | error e => rfl
    | ok lbEnabled =>
      cases lbEnabled with
      | false =>
        exact forNodes_same c _ _ (fun node ip => sgUrl_same self.sgScheme node.name ip)
          c.syncGateways
      | true =>
        cases getLoadBalancerIp c with
        | error e => rfl
        | ok lb => exact oneCluster_same c c.syncGateways lb

end Loops

/-! ## The loops with the address family known -/

section Family

variable {c : ClusterJson} {ipv6 : Bool} (hip : c.environment.ipv6Enabled = some ipv6)
include hip

theorem twoClusterUrls_error {cluster1Count total : Int} {x : Exn} (sgs : List Node) (count : Nat)
    (h : ClusterKeywords.twoClusterUrls c cluster1Count total count sgs = .error x) :
    x = .indexError := by
  induction sgs generalizing count with
  | nil => cases h
  | cons sg rest ih =>
    unfold ClusterKeywords.twoClusterUrls at h
    simp only [wrapIp_eq hip] at h
    have hentry : ∀ k, (do
        let ip ← lbIp c k
        let ip ← Except.ok (wrap ipv6 ip)
        let urls ← ClusterKeywords.twoClusterUrls c cluster1Count total (count + 1) rest
        return sgUrl .http ip :: urls) = .error x → x = .indexError := by
      intro k hk
      cases hlb : lbIp c k with
      | error e =>
        rw [hlb] at hk
        cases hk
        exact lbIp_error hlb
      | ok ip =>
        rw [hlb] at hk
        cases hrest : ClusterKeywords.twoClusterUrls c cluster1Count total (count + 1) rest with
        | error e =>
          rw [hrest] at hk
          cases hk
          exact ih (count + 1) hrest
        | ok urls =>
          rw [hrest] at hk
          cases hk
    by_cases h1 : (count : Int) < cluster1Count
    · simp only [if_pos h1] at h
      exact hentry 0 h
    · by_cases h2 : (count : Int) < total
      · simp only [if_neg h1, if_pos h2] at h
        exact hentry 1 h
      · simp only [if_neg h1, if_neg h2] at h
        exact ih (count + 1) h

/-- `lb_ip` after each iteration. -/
def lbIps (ipv6 : Bool) : String → Nat → List String
  | _, 0 => []
  | lb, n + 1 => wrap ipv6 lb :: lbIps ipv6 (wrap ipv6 lb) n

theorem oneClusterUrls_eq (sgs : List Node) (lb : String) :
    ClusterKeywords.oneClusterUrls c lb sgs = .ok ((lbIps ipv6 lb sgs.length).map (sgUrl .http)) := by
  induction sgs generalizing lb with
  | nil => rfl
  | cons sg rest ih =>
    unfold ClusterKeywords.oneClusterUrls
    rw [wrapIp_eq hip]
    show (do let urls ← ClusterKeywords.oneClusterUrls c (wrap ipv6 lb) rest; _) = _
    rw [ih]
    rfl

theorem forNodes_eq {α : Type} (entry : Node → String → α) (nodes : List Node) :
    forNodes c entry nodes = .ok (nodes.map fun n => entry n (wrap ipv6 n.ip)) := by
  induction nodes with
  | nil => rfl
  | cons node rest ih =>
    unfold forNodes
    rw [wrapIp_eq hip, ih]
    rfl

end Family

/-- With a complete environment only a missing load balancer raises. -/
theorem sgUrls_error {self : ClusterKeywords} {c : ClusterJson} (hc : Complete c.environment)
    {x : Exn} (h : self.sgUrls c true = .error x) : x = .indexError := by
  obtain ⟨ipv6, hip⟩ := Option.isSome_iff_exists.mp hc.ipv6
  obtain ⟨lbEnabled, hlb⟩ := Option.isSome_iff_exists.mp hc.lb
  unfold ClusterKeywords.sgUrls at h
  simp only [Bool.and_true, isLoadBalancerEnabled, hlb, lookup] at h
  by_cases htwo : isLoadBalancerWithTwoClustersEnabled c = true
  · have hkey : c.environment.twoSgClusterLbEnabled = some true := by
      unfold isLoadBalancerWithTwoClustersEnabled at htwo
      cases hk : c.environment.twoSgClusterLbEnabled <;> simp_all
    obtain ⟨c1, hc1⟩ := Option.isSome_iff_exists.mp (hc.counts hkey).1
    obtain ⟨c2, hc2⟩ := Option.isSome_iff_exists.mp (hc.counts hkey).2
    simp only [if_pos htwo, hc1, hc2] at h
    exact twoClusterUrls_error hip c.syncGateways 0 h
  · simp only [if_neg htwo] at h
    cases lbEnabled with
    | false =>
      have h : self.gatewayUrls c c.syncGateways = .error x := h
      unfold ClusterKeywords.gatewayUrls at h
      rw [forNodes_eq hip] at h
      cases h
    | true =>
      have h : (do let lb ← getLoadBalancerIp c; ClusterKeywords.oneClusterUrls c lb c.syncGateways) =
        .error x := h
      cases hip0 : getLoadBalancerIp c with
      | error e =>
        rw [hip0] at h
        cases h
        exact lbIp_error hip0
      | ok lb =>
        rw [hip0] at h
        have h : ClusterKeywords.oneClusterUrls c lb c.syncGateways = .error x := h
        rw [oneClusterUrls_eq hip] at h
        cases h

/-! ## Both functions from their gateway loops -/

/-- The scheme and port of the servers. -/
def serverUrl (cbsSsl : Bool) (ip : String) : String :=
  url (if cbsSsl then .https else .http) ip (if cbsSsl then "18091" else "8091")

theorem getClusterTopology_eq {c : ClusterJson} {ipv6 cbsSsl : Bool} (self : ClusterKeywords)
    (lbEnable : Bool) (hip : c.environment.ipv6Enabled = some ipv6)
    (hssl : c.environment.cbsSslEnabled = some cbsSsl) :
    self.getClusterTopology c lbEnable = (self.sgUrls c lbEnable).map fun sgs =>
      { syncGateways := sgs
        sgAccels := c.sgAccels.map fun n => url self.sgScheme (wrap ipv6 n.ip) "4985"
        couchbaseServers := c.couchbaseServers.map fun n => serverUrl cbsSsl (wrap ipv6 n.ip)
        loadBalancers := c.loadBalancers.map fun n => "http://" ++ wrap ipv6 n.ip } := by
  unfold ClusterKeywords.getClusterTopology ClusterKeywords.acUrls ClusterKeywords.lbsUrls
    ClusterKeywords.cbsUrls
  simp only [forNodes_eq hip, hssl, lookup]
  cases self.sgUrls c lbEnable <;> rfl

theorem init_eq {c : ClusterJson} (hc : Complete c.environment) :
    ∃ ipv6 cbsSsl xattrs sgSsl disabled, c.environment.ipv6Enabled = some ipv6 ∧
      c.environment.cbsSslEnabled = some cbsSsl ∧
      Cluster.init true c = (Cluster.sgTargets c).map fun sgs =>
        { syncGateways := sgs
          sgAccels := c.sgAccels.map fun n => ⟨n.name, wrap ipv6 n.ip⟩
          servers := (c.couchbaseServers.map fun n => serverUrl cbsSsl (wrap ipv6 n.ip)).map .init
          cbsSsl := cbsSsl, xattrs := xattrs, syncGatewaySsl := sgSsl
          centralizedPersistentConfig := !disabled, ipv6 := ipv6 } := by
  obtain ⟨ipv6, hip⟩ := Option.isSome_iff_exists.mp hc.ipv6
  obtain ⟨cbsSsl, hssl⟩ := Option.isSome_iff_exists.mp hc.cbsSsl
  obtain ⟨xattrs, hx⟩ := Option.isSome_iff_exists.mp hc.xattrs
  obtain ⟨sgSsl, hs⟩ := Option.isSome_iff_exists.mp hc.sgSsl
  obtain ⟨disabled, hd⟩ := Option.isSome_iff_exists.mp hc.persistent
  refine ⟨ipv6, cbsSsl, xattrs, sgSsl, disabled, hip, hssl, ?_⟩
  unfold Cluster.init Cluster.nodeTargets Cluster.serverUrls
  simp only [forNodes_eq hip, hssl, hx, hs, hd, hip, lookup]
  cases Cluster.sgTargets c with
  | error e => rfl
  | ok sgs => cases cbsSsl <;> rfl

/-! ## Agreement -/

/-- The hosts of gateways and accels in the two models, element by element. -/
structure SameHosts (t : Topology) (cl : Cluster) : Prop where
  publicHosts : t.syncGateways.map (fun u => urlHost u.publicUrl) = cl.syncGateways.map Node.ip
  adminHosts : t.syncGateways.map (fun u => urlHost u.adminUrl) = cl.syncGateways.map Node.ip
  accelHosts : t.sgAccels.map urlHost = cl.sgAccels.map Node.ip

/-- The hosts and the server URLs. -/
structure Agree (t : Topology) (cl : Cluster) : Prop extends SameHosts t cl where
  servers : t.couchbaseServers = cl.servers.map CouchbaseServer.url

/-- The load balancer that a gateway is routed to, by its count. -/
def balancerIndex (cluster1Count total count : Int) : Option Nat :=
  if count < cluster1Count then some 0 else if count < total then some 1 else none

/-- A gateway is to be routed to a load balancer that is not there. -/
def MissingBalancer (c : ClusterJson) : Prop :=
  if isLoadBalancerWithTwoClustersEnabled c then
    ∃ k < c.syncGateways.length, ∃ j,
      balancerIndex (c.environment.sgwCluster1Count.getD 0)
        (c.environment.sgwCluster1Count.getD 0 + c.environment.sgwCluster2Count.getD 0) k = some j ∧
      c.loadBalancers.length ≤ j
  else c.environment.sgLbEnabled = some true ∧ c.loadBalancers = []

theorem lbIp_ok {c : ClusterJson} {k : Nat} (h : k < c.loadBalancers.length) : ∃ ip, lbIp c k = .ok ip := by
  unfold lbIp
  rw [List.getElem?_eq_getElem h]
  exact ⟨_, rfl⟩

theorem lbIp_missing {c : ClusterJson} {k : Nat} (h : c.loadBalancers.length ≤ k) :
    lbIp c k = .error .indexError := by
  unfold lbIp
  rw [List.getElem?_eq_none h]

/-- The loop returns if every load balancer it reads is there. -/
theorem twoClusterUrls_isOk {c : ClusterJson} {ipv6 : Bool} (hip : c.environment.ipv6Enabled = some ipv6)
    (cluster1Count total : Int) (sgs : List Node) (count : Nat) :
    (∃ urls, ClusterKeywords.twoClusterUrls c cluster1Count total count sgs = .ok urls) ↔
      ∀ k < sgs.length, ∀ j, balancerIndex cluster1Count total ((count + k : Nat) : Int) = some j →
        j < c.loadBalancers.length := by
  induction sgs generalizing count with
  | nil => exact iff_of_true ⟨[], rfl⟩ fun k hk => absurd hk (Nat.not_lt_zero k)
  | cons sg rest ih =>
    have hsplit : (∀ k < (sg :: rest).length, ∀ j,
        balancerIndex cluster1Count total ((count + k : Nat) : Int) = some j → j < c.loadBalancers.length) ↔
        (∀ j, balancerIndex cluster1Count total (count : Int) = some j → j < c.loadBalancers.length) ∧
        ∃ urls, ClusterKeywords.twoClusterUrls c cluster1Count total (count + 1) rest = .ok urls := by
      rw [ih (count + 1)]
      constructor
      · intro h
        refine ⟨h 0 (Nat.succ_pos _), fun k hk j hj => h (k + 1) (Nat.succ_lt_succ hk) j ?_⟩
        rw [show count + (k + 1) = count + 1 + k by omega]
        exact hj
      · intro h k hk j hj
        cases k with
        | zero => exact h.1 j hj
        | succ k =>
          refine h.2 k (Nat.lt_of_succ_lt_succ hk) j ?_
          rw [show count + 1 + k = count + (k + 1) by omega]
          exact hj
    rw [hsplit]
    -- an iteration that reads load balancer `k`
    have hentry : ∀ k, (∃ urls, (do
        let ip ← lbIp c k
        let ip ← wrapIp c ip
        let urls ← ClusterKeywords.twoClusterUrls c cluster1Count total (count + 1) rest
        return sgUrl .http ip :: urls) = .ok urls) ↔ k < c.loadBalancers.length ∧
        ∃ urls, ClusterKeywords.twoClusterUrls c cluster1Count total (count + 1) rest = .ok urls := by
      intro k
      by_cases hk : k < c.loadBalancers.length
      · obtain ⟨ip, hlb⟩ := lbIp_ok hk
        simp only [hlb, wrapIp_eq hip, hk, true_and]
        cases ClusterKeywords.twoClusterUrls c cluster1Count total (count + 1) rest with
        | error e => exact iff_of_false (fun h => by cases h.choose_spec) fun h => by cases h.choose_spec
        | ok urls => exact iff_of_true ⟨_, rfl⟩ ⟨_, rfl⟩
      · rw [lbIp_missing (Nat.le_of_not_lt hk)]
        exact iff_of_false (fun h => by cases h.choose_spec) fun h => hk h.1
    rw [ClusterKeywords.twoClusterUrls, balancerIndex]
    by_cases h1 : (count : Int) < cluster1Count
    · simp only [if_pos h1, Option.some.injEq, forall_eq']
      exact hentry 0
    · by_cases h2 : (count : Int) < total
      · simp only [if_neg h1, if_pos h2, Option.some.injEq, forall_eq']
        exact hentry 1
      · simp [if_neg h1, if_neg h2]

theorem twoClusters_key {c : ClusterJson} (h : isLoadBalancerWithTwoClustersEnabled c = true) :
    c.environment.twoSgClusterLbEnabled = some true := by
  unfold isLoadBalancerWithTwoClustersEnabled at h
  cases hk : c.environment.twoSgClusterLbEnabled with
  | none => rw [hk] at h; cases h
  | some b =>
    rw [hk] at h
    exact congrArg some h

/-- With a complete environment the gateways' URLs are there unless a load balancer is missing. -/
theorem sgUrls_isOk (self : ClusterKeywords) {c : ClusterJson} (hc : Complete c.environment) :
    (∃ urls, self.sgUrls c true = .ok urls) ↔ ¬ MissingBalancer c := by
  obtain ⟨ipv6, hip⟩ := Option.isSome_iff_exists.mp hc.ipv6
  obtain ⟨lbEnabled, hlb⟩ := Option.isSome_iff_exists.mp hc.lb
  unfold ClusterKeywords.sgUrls MissingBalancer
  simp only [Bool.and_true, isLoadBalancerEnabled, hlb, lookup]
  by_cases htwo : isLoadBalancerWithTwoClustersEnabled c = true
  · obtain ⟨c1, hc1⟩ := Option.isSome_iff_exists.mp (hc.counts (twoClusters_key htwo)).1
    obtain ⟨c2, hc2⟩ := Option.isSome_iff_exists.mp (hc.counts (twoClusters_key htwo)).2
    have hiff := twoClusterUrls_isOk hip c1 (c1 + c2) c.syncGateways 0
    simp only [Nat.zero_add] at hiff
    simp only [if_pos htwo, hc1, hc2, Option.getD_some]
    refine hiff.trans ⟨fun h hmissing => ?_, fun h k hk j hj => Nat.lt_of_not_le fun hle => ?_⟩
    · obtain ⟨k, hk, j, hj, hle⟩ := hmissing
      exact absurd (h k hk j hj) (Nat.not_lt_of_le hle)
    · exact h ⟨k, hk, j, hj, hle⟩
  · simp only [if_neg htwo]
    cases lbEnabled with
    | false =>
      exact iff_of_true ⟨_, forNodes_eq hip (fun _ ip => sgUrl self.sgScheme ip) c.syncGateways⟩
        (fun h => by cases h.1)
    | true =>
      cases hlbs : c.loadBalancers with
      | nil =>
        refine iff_of_false (fun h => ?_) (fun h => h ⟨rfl, rfl⟩)
        obtain ⟨urls, h⟩ := h
        have hmissing : getLoadBalancerIp c = .error .indexError := lbIp_missing (by simp [hlbs])
        simp only [hmissing] at h
        cases h
      | cons lb rest =>
        have hfirst : getLoadBalancerIp c = .ok lb.ip := by
          unfold getLoadBalancerIp lbIp
          rw [hlbs]
          rfl
        refine iff_of_true ⟨(lbIps ipv6 lb.ip c.syncGateways.length).map (sgUrl .http), ?_⟩
          (fun h => by cases h.2)
        simp only [hfirst]
        exact oneClusterUrls_eq hip c.syncGateways lb.ip

/-- Both return, with the same gateways and accels, or both miss a load balancer. -/
theorem both_or_neither (self : ClusterKeywords) (c : ClusterJson) (hc : Complete c.environment) :
    (¬ MissingBalancer c ∧ ∃ t cl ipv6 cbsSsl, self.getClusterTopology c true = .ok t ∧
      Cluster.init true c = .ok cl ∧ SameHosts t cl ∧ c.environment.ipv6Enabled = some ipv6 ∧
      t.couchbaseServers = c.couchbaseServers.map (fun n => serverUrl cbsSsl (wrap ipv6 n.ip)) ∧
      cl.servers = (c.couchbaseServers.map fun n => serverUrl cbsSsl (wrap ipv6 n.ip)).map .init) ∨
    (MissingBalancer c ∧ self.getClusterTopology c true = .error .indexError ∧
      Cluster.init true c = .error .indexError) := by
  obtain ⟨ipv6, cbsSsl, xattrs, sgSsl, disabled, hip, hssl, hinit⟩ := init_eq hc
  have hok := sgUrls_isOk self hc
  rw [getClusterTopology_eq self true hip hssl, hinit]
  rcases (sg_same self c).cases with ⟨urls, targets, hu, ht, hsame⟩ | ⟨e, hu, ht⟩
  · rw [hu, ht]
    refine .inl ⟨hok.mp ⟨urls, hu⟩, _, _, ipv6, cbsSsl, rfl, rfl, ⟨?_, ?_, ?_⟩, hip, rfl, rfl⟩
    · have h := congrArg (List.map Prod.fst) hsame
      simpa only [List.map_map, Function.comp_def, SgUrl.hosts, Node.hosts] using h
    · have h := congrArg (List.map Prod.snd) hsame
      simpa only [List.map_map, Function.comp_def, SgUrl.hosts, Node.hosts] using h
    · rw [List.map_map, List.map_map]
      exact List.map_congr_left fun n _ => urlHost_url _ _ _ (by decide)
  · have hmissing : MissingBalancer c := by
      refine Classical.byContradiction fun hnot => ?_
      obtain ⟨urls, hurls⟩ := hok.mpr hnot
      rw [hu] at hurls
      cases hurls
    rw [hu, ht, sgUrls_error hc hu]
    exact .inr ⟨hmissing, rfl, rfl⟩

/-! ## The servers' URLs -/

theorem dropBrackets_eq_iff (u : String) : dropBrackets u = u ↔ '[' ∉ u.toList ∧ ']' ∉ u.toList := by
  unfold dropBrackets
  rw [← String.toList_inj, String.toList_ofList, List.filter_eq_self]
  constructor
  · intro h
    exact ⟨fun hmem => absurd (h _ hmem) (by decide), fun hmem => absurd (h _ hmem) (by decide)⟩
  · intro h ch hmem
    have hopen : ch ≠ '[' := fun he => h.1 (he ▸ hmem)
    have hclose : ch ≠ ']' := fun he => h.2 (he ▸ hmem)
    simp [hopen, hclose]

/-- A server's URL has no bracket only if its address has none and is not bracketed. -/
theorem dropBrackets_serverUrl (cbsSsl ipv6 : Bool) (ip : String) :
    serverUrl cbsSsl (wrap ipv6 ip) = dropBrackets (serverUrl cbsSsl (wrap ipv6 ip)) ↔
      ipv6 = false ∧ '[' ∉ ip.toList ∧ ']' ∉ ip.toList := by
  rw [eq_comm, dropBrackets_eq_iff]
  cases ipv6 with
  | true =>
    refine iff_of_false (fun h => h.1 ?_) (fun h => by cases h.1)
    simp [serverUrl, url, wrap]
  | false => cases cbsSsl <;> simp [serverUrl, url, wrap, Scheme.text]

/-- The two models agree on the cluster, or both raise. -/
def ModelsAgree (self : ClusterKeywords) (c : ClusterJson) : Prop :=
  (∃ t cl, self.getClusterTopology c true = .ok t ∧ Cluster.init true c = .ok cl ∧ Agree t cl) ∨
    (self.getClusterTopology c true = .error .indexError ∧ Cluster.init true c = .error .indexError)

/-- Three gateways behind two load balancers, over IPv6. -/
def twoClusters : ClusterJson where
  environment :=
    { ipv6Enabled := some true, cbsSslEnabled := some true, xattrsEnabled := some false
      syncGatewaySsl := some false, disablePersistentConfig := some false, sgLbEnabled := some true
      twoSgClusterLbEnabled := some true, sgwCluster1Count := some 1, sgwCluster2Count := some 1
      sgPlatform := some "centos7" }
  couchbaseServers := [⟨"cb1", "fc00::11"⟩]
  syncGateways := [⟨"sg1", "fc00::21"⟩, ⟨"sg2", "fc00::22"⟩, ⟨"sg3", "fc00::23"⟩]
  sgAccels := [⟨"ac1", "fc00::31"⟩]
  loadBalancers := [⟨"lb1", "fc00::41"⟩, ⟨"lb2", "fc00::42"⟩]

theorem twoClusters_complete : Complete twoClusters.environment where
  ipv6 := rfl
  cbsSsl := rfl
  xattrs := rfl
  sgSsl := rfl
  persistent := rfl
  lb := rfl
  counts := fun _ => ⟨rfl, rfl⟩

/-- The same cluster over IPv4. -/
def twoClustersIpv4 : ClusterJson :=
  { twoClusters with
    environment := { twoClusters.environment with ipv6Enabled := some false }
    couchbaseServers := [⟨"cb1", "10.0.0.11"⟩, ⟨"cb2", "10.0.0.12"⟩] }

theorem length_wrap (ip : String) : (wrap true ip).length = ip.length + 2 := by
  have hopen : "[".length = 1 := rfl
  have hclose : "]".length = 1 := rfl
  simp only [wrap, if_true, String.length_append, hopen, hclose]
  omega

theorem lbIps_of_not_ipv6 (lb : String) (n : Nat) : ∀ ip ∈ lbIps false lb n, ip = lb := by
  induction n with
  | zero =>
    intro ip h
    cases h
  | succ n ih =>
    intro ip h
    rcases List.mem_cons.mp h with h | h
    · exact h
    · exact ih ip h

/-- The second iteration brackets what the first one bracketed. -/
theorem lbIps_same_iff (ipv6 : Bool) (lb : String) (n : Nat) :
    (∀ ip ∈ lbIps ipv6 lb n, ip = wrap ipv6 lb) ↔ ipv6 = false ∨ n ≤ 1 := by
  cases ipv6 with
  | false => exact ⟨fun _ => .inl rfl, fun _ => lbIps_of_not_ipv6 lb n⟩
  | true =>
    match n with
    | 0 => simp [lbIps]
    | 1 => simp [lbIps]
    | n + 2 =>
      have hne : wrap true (wrap true lb) ≠ wrap true lb := by
        intro he
        have hlen := congrArg String.length he
        rw [length_wrap, length_wrap] at hlen
        omega
      simp [lbIps, hne]

section OneLoadBalancer

variable (self : ClusterKeywords) {c : ClusterJson} {ipv6 : Bool} {lb : Node}

/-- Every gateway entry of both models has the host of the first load balancer. -/
def RoutedToFirst (c : ClusterJson) (ipv6 : Bool) : Prop :=
  ∀ lb, c.loadBalancers[0]? = some lb →
    ∃ t cl, self.getClusterTopology c true = .ok t ∧ Cluster.init true c = .ok cl ∧
      (∀ u ∈ t.syncGateways, urlHost u.publicUrl = wrap ipv6 lb.ip ∧
        urlHost u.adminUrl = wrap ipv6 lb.ip) ∧
      ∀ sg ∈ cl.syncGateways, sg.ip = wrap ipv6 lb.ip

/-- The gateway hosts of both models are the values `lb_ip` takes. -/
theorem oneCluster_hosts (hc : Complete c.environment)
    (hlb : c.environment.sgLbEnabled = some true)
    (htwo : c.environment.twoSgClusterLbEnabled ≠ some true)
    (hip : c.environment.ipv6Enabled = some ipv6) (hfirst : c.loadBalancers[0]? = some lb) :
    ∃ t cl, self.getClusterTopology c true = .ok t ∧ Cluster.init true c = .ok cl ∧ SameHosts t cl ∧
      cl.syncGateways.map Node.ip = lbIps ipv6 lb.ip c.syncGateways.length := by
  have hoff : isLoadBalancerWithTwoClustersEnabled c = false := by
    unfold isLoadBalancerWithTwoClustersEnabled
    cases hk : c.environment.twoSgClusterLbEnabled with
    | none => rfl
    | some b => simpa [hk] using htwo
  have hurls : self.sgUrls c true =
      .ok ((lbIps ipv6 lb.ip c.syncGateways.length).map (sgUrl .http)) := by
    rw [← oneClusterUrls_eq hip]
    simp [ClusterKeywords.sgUrls, hoff, isLoadBalancerEnabled, hlb, lookup, getLoadBalancerIp, lbIp,
      hfirst]
    rfl
  obtain ⟨cbsSsl, hssl⟩ := Option.isSome_iff_exists.mp hc.cbsSsl
  have htop := getClusterTopology_eq self true hip hssl
  rw [hurls] at htop
  rcases both_or_neither self c hc with ⟨-, t, cl, -, -, ht, hcl, hagree, -⟩ | ⟨-, hbad, -⟩
  · refine ⟨t, cl, ht, hcl, hagree, ?_⟩
    rw [ht] at htop
    rw [← hagree.publicHosts, Except.ok.inj htop, List.map_map]
    have hid : ∀ ip ∈ lbIps ipv6 lb.ip c.syncGateways.length,
        urlHost (sgUrl .http ip).publicUrl = ip := fun ip _ => urlHost_url _ _ _ (by decide)
    exact (List.map_congr_left hid).trans (List.map_id _)
  · rw [htop] at hbad
    cases hbad

theorem routed_to_first_iff (hc : Complete c.environment)
    (hlb : c.environment.sgLbEnabled = some true)
    (htwo : c.environment.twoSgClusterLbEnabled ≠ some true)
    (hip : c.environment.ipv6Enabled = some ipv6) :
    RoutedToFirst self c ipv6 ↔
      c.loadBalancers = [] ∨ ipv6 = false ∨ c.syncGateways.length ≤ 1 := by
  cases hlbs : c.loadBalancers with
  | nil => simp [RoutedToFirst, hlbs]
  | cons lb rest =>
    have hfirst : c.loadBalancers[0]? = some lb := by rw [hlbs]; rfl
    obtain ⟨t, cl, ht, hcl, hagree, hips⟩ := oneCluster_hosts self hc hlb htwo hip hfirst
    have hall := lbIps_same_iff ipv6 lb.ip c.syncGateways.length
    rw [← hips] at hall
    have hnil : ¬ lb :: rest = [] := by simp
    rw [or_iff_right hnil, ← hall]
    constructor
    · intro h ip hmem
      obtain ⟨t', cl', -, hcl', -, hsgs⟩ := h lb hfirst
      rw [hcl] at hcl'
      cases hcl'
      obtain ⟨sg, hsg, rfl⟩ := List.mem_map.mp hmem
      exact hsgs sg hsg
    · intro h lb' hlb'
      rw [hfirst] at hlb'
      cases hlb'
      refine ⟨t, cl, ht, hcl, ?_, fun sg hsg => h sg.ip (List.mem_map_of_mem hsg)⟩
      intro u hu
      have hpub := hagree.publicHosts ▸ List.mem_map_of_mem hu
      have hadm := hagree.adminHosts ▸ List.mem_map_of_mem hu
      exact ⟨h _ hpub, h _ hadm⟩

end OneLoadBalancer

/-- Gateways behind one load balancer, over IPv6. -/
def behindOne (sgs : List Node) : ClusterJson where
  environment :=
    { ipv6Enabled := some true, cbsSslEnabled := some false, xattrsEnabled := some false
      syncGatewaySsl := some false, disablePersistentConfig := some false, sgLbEnabled := some true
      twoSgClusterLbEnabled := none, sgwCluster1Count := none, sgwCluster2Count := none
      sgPlatform := some "centos7" }
  couchbaseServers := [⟨"cb1", "fc00::11"⟩]
  syncGateways := sgs
  sgAccels := []
  loadBalancers := [⟨"lb1", "fc00::41"⟩]

theorem behindOne_complete (sgs : List Node) : Complete (behindOne sgs).environment where
  ipv6 := rfl
  cbsSsl := rfl
  xattrs := rfl
  sgSsl := rfl
  persistent := rfl
  lb := rfl
  counts := fun h => by cases h

theorem one_gateway_routed :
    RoutedToFirst (ClusterKeywords.init (behindOne [⟨"sg1", "fc00::21"⟩]))
      (behindOne [⟨"sg1", "fc00::21"⟩]) true :=
  (routed_to_first_iff _ (behindOne_complete _) rfl (by decide) rfl).mpr (.inr (.inr (by decide)))

/-- The second gateway gets `[[fc00::41]]`. -/
theorem second_gateway_bracketed_twice :
    ¬ RoutedToFirst (ClusterKeywords.init (behindOne [⟨"sg1", "fc00::21"⟩, ⟨"sg2", "fc00::22"⟩]))
      (behindOne [⟨"sg1", "fc00::21"⟩, ⟨"sg2", "fc00::22"⟩]) true := by
  intro h
  obtain ⟨t, cl, -, hcl, -, hsgs⟩ := h ⟨"lb1", "fc00::41"⟩ rfl
  have hips : (Cluster.init true (behindOne [⟨"sg1", "fc00::21"⟩, ⟨"sg2", "fc00::22"⟩])).map
      Cluster.syncGateways = .ok [⟨"sg1", "[fc00::41]"⟩, ⟨"sg2", "[[fc00::41]]"⟩] := rfl
  rw [hcl] at hips
  have hmem : (⟨"sg2", "[[fc00::41]]"⟩ : Node) ∈ cl.syncGateways := by
    rw [Except.ok.inj hips]
    decide
  exact absurd (hsgs _ hmem) (by decide)

/-! ## Two load balancers -/

/-- The i-th gateway's URLs name the load balancer. -/
def RoutesTo (t : Topology) (ipv6 : Bool) (i : Nat) (lb : Node) : Prop :=
  ∃ u, t.syncGateways[i]? = some u ∧ urlHost u.publicUrl = wrap ipv6 lb.ip ∧
    urlHost u.adminUrl = wrap ipv6 lb.ip

theorem wrap_injective (ipv6 : Bool) {a b : String} (h : wrap ipv6 a = wrap ipv6 b) : a = b := by
  cases ipv6 with
  | false => exact h
  | true =>
    have hl := congrArg String.toList h
    simp only [wrap, if_true, String.toList_append] at hl
    have h' := List.append_cancel_left (List.append_cancel_right hl)
    exact String.toList_injective h'

section TwoLoadBalancers

variable {c : ClusterJson} {ipv6 : Bool} {lb1 lb2 : Node}

/-- The load balancer of the gateway the loop counts as `k`. -/
def balancerOf (lb1 lb2 : Node) (n1 n2 k : Nat) : Option Node :=
  if k < n1 then some lb1 else if k < n1 + n2 then some lb2 else none

theorem twoClusterUrls_get (hip : c.environment.ipv6Enabled = some ipv6)
    (hlbs : c.loadBalancers = [lb1, lb2]) (n1 n2 : Nat) (sgs : List Node) (count : Nat) :
    ∃ urls, ClusterKeywords.twoClusterUrls c n1 (n1 + n2) count sgs = .ok urls ∧
      ∀ i, urls[i]? = if i < sgs.length then
        (balancerOf lb1 lb2 n1 n2 (count + i)).map fun lb => sgUrl .http (wrap ipv6 lb.ip)
      else none := by
  have hk0 : lbIp c 0 = .ok lb1.ip := by unfold lbIp; rw [hlbs]; rfl
  have hk1 : lbIp c 1 = .ok lb2.ip := by unfold lbIp; rw [hlbs]; rfl
  induction sgs generalizing count with
  | nil => exact ⟨[], rfl, fun i => by simp⟩
  | cons sg rest ih =>
    obtain ⟨urls, hurls, hget⟩ := ih (count + 1)
    -- an iteration that appends an entry for `lb`
    have happend : ∀ lb, balancerOf lb1 lb2 n1 n2 count = some lb →
        ∀ i, (sgUrl .http (wrap ipv6 lb.ip) :: urls)[i]? = if i < (sg :: rest).length then
          (balancerOf lb1 lb2 n1 n2 (count + i)).map fun lb => sgUrl .http (wrap ipv6 lb.ip)
        else none := by
      intro lb hlb i
      cases i with
      | zero => simp [hlb]
      | succ i =>
        have hcount : count + 1 + i = count + (i + 1) := by omega
        rw [List.getElem?_cons_succ, hget i, hcount]
        simp
    unfold ClusterKeywords.twoClusterUrls
    rw [hurls]
    by_cases h1 : count < n1
    · have hi : (count : Int) < n1 := by omega
      have hlb : balancerOf lb1 lb2 n1 n2 count = some lb1 := if_pos h1
      refine ⟨sgUrl .http (wrap ipv6 lb1.ip) :: urls, ?_, happend lb1 hlb⟩
      simp only [if_pos hi, hk0, wrapIp_eq hip]
      rfl
    · have hi : ¬ (count : Int) < n1 := by omega
      by_cases h2 : count < n1 + n2
      · have hi2 : (count : Int) < n1 + n2 := by omega
        have hlb : balancerOf lb1 lb2 n1 n2 count = some lb2 := by
          unfold balancerOf
          rw [if_neg h1, if_pos h2]
        refine ⟨sgUrl .http (wrap ipv6 lb2.ip) :: urls, ?_, happend lb2 hlb⟩
        simp only [if_neg hi, if_pos hi2, hk1, wrapIp_eq hip]
        rfl
      · have hi2 : ¬ (count : Int) < n1 + n2 := by omega
        -- the gateways after this one are beyond the counts as well
        have hnone : ∀ k, n1 + n2 ≤ k → balancerOf lb1 lb2 n1 n2 k = none := by
          intro k hk
          unfold balancerOf
          rw [if_neg (by omega), if_neg (by omega)]
        refine ⟨urls, ?_, ?_⟩
        · simp only [if_neg hi, if_neg hi2]
        · intro i
          rw [hget i, hnone (count + 1 + i) (by omega), hnone (count + i) (by omega)]
          simp

theorem balancerOf_eq_first {n1 n2 k : Nat} (hne : lb1 ≠ lb2) :
    balancerOf lb1 lb2 n1 n2 k = some lb1 ↔ k < n1 := by
  unfold balancerOf
  split
  · simp_all
  · split <;> simp_all [hne.symm]

theorem balancerOf_eq_second {n1 n2 k : Nat} (hne : lb1 ≠ lb2) :
    balancerOf lb1 lb2 n1 n2 k = some lb2 ↔ n1 ≤ k ∧ k < n1 + n2 := by
  unfold balancerOf
  split
  · simp only [Option.some.injEq, hne, false_iff]
    omega
  · split
    · simp only [true_iff]
      omega
    · simp only [reduceCtorEq, false_iff]
      omega

theorem balancerOf_mem {n1 n2 k : Nat} {lb : Node} (h : balancerOf lb1 lb2 n1 n2 k = some lb) :
    lb = lb1 ∨ lb = lb2 := by
  unfold balancerOf at h
  split at h
  · exact .inl (Option.some.inj h).symm
  · split at h
    · exact .inr (Option.some.inj h).symm
    · cases h

/-- The topology routes the i-th gateway as `balancerOf` says. -/
theorem routesTo_iff {t : Topology} {n1 n2 i : Nat} {lb : Node} (hip : lb1.ip ≠ lb2.ip)
    (hget : t.syncGateways[i]? =
      (balancerOf lb1 lb2 n1 n2 i).map fun lb => sgUrl .http (wrap ipv6 lb.ip))
    (hlb : lb = lb1 ∨ lb = lb2) :
    RoutesTo t ipv6 i lb ↔ balancerOf lb1 lb2 n1 n2 i = some lb := by
  have hhost : ∀ lb' : Node, urlHost (sgUrl .http (wrap ipv6 lb'.ip)).publicUrl = wrap ipv6 lb'.ip ∧
      urlHost (sgUrl .http (wrap ipv6 lb'.ip)).adminUrl = wrap ipv6 lb'.ip :=
    fun lb' => ⟨urlHost_url _ _ _ (by decide), urlHost_url _ _ _ (by decide)⟩
  unfold RoutesTo
  rw [hget]
  constructor
  · intro h
    obtain ⟨u, hu, hpub, -⟩ := h
    obtain ⟨lb', hb, rfl⟩ := Option.map_eq_some_iff.mp hu
    rw [(hhost lb').1] at hpub
    have hsame : lb'.ip = lb.ip := wrap_injective ipv6 hpub
    rcases balancerOf_mem hb with rfl | rfl <;> rcases hlb with rfl | rfl
    · exact hb
    · exact absurd hsame hip
    · exact absurd hsame.symm hip
    · exact hb
  · intro h
    rw [h]
    exact ⟨_, rfl, hhost lb⟩

end TwoLoadBalancers

end MobileTestkit.L2.ClusterModels
