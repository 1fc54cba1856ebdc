import MobileTestkit.Core.PyDict
import MobileTestkit.L2Cluster.TopologyAgree

/-!
# The load balancers' upstream definitions

Model of `install_nginx` (libraries/provision/install_nginx.py): from the real
gateway addresses it writes the `server` lines of the upstream definitions and
runs the install-nginx playbook, once for all load balancers or, with two
clusters, once for each of the first two.

`runner` stands for ansible: it says for a playbook run how many hosts failed
or were unreachable. The dictionary of extra variables is shared by the runs,
and `run_ansible_playbook` writes to it as well.

* `upstreams_agree`: with two clusters, the definitions deployed to a load
  balancer list the endpoints of a gateway, once, exactly when
  `get_cluster_topology` routes that gateway's URLs to the load balancer.

The definitions are read back line by line (`servers`); `upstreamLoop_eq` says
which window of the gateways each definition holds, and `twoClusterUrls_get`
which load balancer the other loop gives them.
-/
namespace MobileTestkit.L2.Nginx

open MobileTestkit.Core MobileTestkit.L2.ClusterModels

/-! ## The playbook -/

/-- One run of a playbook; without a subset it is for all hosts. -/
structure PlaybookRun where
  scriptName : String
  extraVars : PyDict String String
  subset : Option String

def isDebian (sgPlatform : String) : Bool := PyStr.contains (PyStr.lower sgPlatform) "debian"

/-- What the run is started with.
mirrors libraries/provision/ansible_runner.py:15-32 -/
def ansiblePlaybook (sgPlatform scriptName : String) (extraVars : PyDict String String)
    (subset : Option String) : PlaybookRun where
  scriptName := scriptName
  extraVars :=
    if isDebian sgPlatform then
      ((extraVars.set "ansible_distribution" (PyStr.capitalize sgPlatform)).set
        "ansible_os_family" "Linux").set "ansible_python_interpreter" "/usr/bin/python3"
    else extraVars
  subset := subset

/-- The playbook runs a call makes, and how it ends. -/
abbrev Outcome := List PlaybookRun × Option Exn

/-- `status = run_ansible_playbook(…); assert status == 0, msg`. -/
def runThen (runner : PlaybookRun → Nat) (run : PlaybookRun) (msg : String) (next : Outcome) :
    Outcome :=
  if runner run = 0 then (run :: next.1, next.2) else ([run], some (.assertionError msg))

/-! ## install_nginx -/

/-- mirrors libraries/provision/install_nginx.py:203-212 -/
def initializeExtraVars (sgPlatform : String) : PyDict String String :=
  let extraVars := PyDict.ofList [("ansible_distribution", PyStr.capitalize sgPlatform)]
  if isDebian sgPlatform then extraVars.set "ansible_python_interpreter" "/usr/bin/python3"
  else extraVars

/-- mirrors libraries/provision/install_nginx.py:36-41 -/
def installVars (sgPlatform : String) : PyDict String String :=
  let extraVars := initializeExtraVars sgPlatform
  if isDebian sgPlatform then
    ((extraVars.set "ansible_python_interpreter" "/usr/bin/python3").set
      "ansible_distribution" "Debian").set "ansible_os_family" "Linux"
  else extraVars

/-- `url.replace("http://", "")`. -/
def ipPort (u : String) : String := PyStr.replace u "http://" ""

/-- `"server {};\n".format(ip_port)`. -/
def serverLine (ipPort : String) : String := "server " ++ ipPort ++ ";\n"

structure Upstreams where
  definition : String
  definitionAdmin : String
  deriving DecidableEq, Repr

def Upstreams.add (u : Upstreams) (sg : SgUrl) : Upstreams where
  definition := u.definition ++ serverLine (ipPort sg.publicUrl)
  definitionAdmin := u.definitionAdmin ++ serverLine (ipPort sg.adminUrl)

/-- The loop that splits the gateways between the two load balancers.
mirrors libraries/provision/install_nginx.py:54-66 -/
def upstreamLoop (cluster1Count total : Int) :
    Nat → List SgUrl → Upstreams → Upstreams → Upstreams × Upstreams
  | _, [], lb1, lb2 => (lb1, lb2)
  | count, sg :: rest, lb1, lb2 =>
    if (count : Int) < cluster1Count then
      upstreamLoop cluster1Count total (count + 1) rest (lb1.add sg) lb2
    else if (count : Int) < total then
      upstreamLoop cluster1Count total (count + 1) rest lb1 (lb2.add sg)
    else upstreamLoop cluster1Count total (count + 1) rest lb1 lb2

def setUpstreams (extraVars : PyDict String String) (u : Upstreams) : PyDict String String :=
  (extraVars.set "upstream_sync_gatways" u.definition).set
    "upstream_sync_gatways_admin" u.definitionAdmin

/-- mirrors libraries/provision/install_nginx.py:43-89 -/
def installTwo (runner : PlaybookRun → Nat) (c : ClusterJson) (sgPlatform : String)
    (sgs : List SgUrl) : Outcome :=
  let lbNames := c.loadBalancers.map Node.name
  match lookup "sgw_cluster1_count" c.environment.sgwCluster1Count with
  | .error x => ([], some x)
  | .ok cluster1Count =>
    match lookup "sgw_cluster2_count" c.environment.sgwCluster2Count with
    | .error x => ([], some x)
    | .ok cluster2Count =>
      let us := upstreamLoop cluster1Count (cluster1Count + cluster2Count) 0 sgs ⟨"", ""⟩ ⟨"", ""⟩
      match lbNames[0]? with
      | none => ([], some .indexError)
      | some lb1 =>
        let run1 := ansiblePlaybook sgPlatform "install-nginx.yml"
          (setUpstreams (installVars sgPlatform) us.1) (some lb1)
        runThen runner run1 "Failed to install nginx! on lb1" <|
          match lbNames[1]? with
          | none => ([], some .indexError)
          | some lb2 =>
            let run2 := ansiblePlaybook sgPlatform "install-nginx.yml"
              (setUpstreams run1.extraVars us.2) (some lb2)
            runThen runner run2 "Failed to install nginx on lb2!" ([], none)

/-- mirrors libraries/provision/install_nginx.py:105-108 -/
def proxyVars (extraVars : PyDict String String) : PyDict String String :=
  (((extraVars.set "keepalive_timeout" "keepalive_timeout 60s 60s;").set
    "proxy_send_timeout" "proxy_send_timeout 60s;").set
    "proxy_read_timeout" "proxy_read_timeout 60s;").set
    "proxy_socket_keepalive" "proxy_socket_keepalive on;"

/-- mirrors libraries/provision/install_nginx.py:91-120 -/
def installAll (runner : PlaybookRun → Nat) (sgPlatform : String) (customizeProxy : Bool)
    (sgs : List SgUrl) : Outcome :=
  let extraVars := setUpstreams (installVars sgPlatform) (sgs.foldl Upstreams.add ⟨"", ""⟩)
  let extraVars := if customizeProxy then proxyVars extraVars else extraVars
  runThen runner (ansiblePlaybook sgPlatform "install-nginx.yml" extraVars none)
    "Failed to install nginx! on lb1" ([], none)

/-- mirrors libraries/provision/install_nginx.py:9-120 -/
def installNginx (runner : PlaybookRun → Nat) (c : ClusterJson) (customizeProxy : Bool) : Outcome :=
  match (ClusterKeywords.init c).getClusterTopology c false with
  | .error x => ([], some x)
  | .ok topology =>
    match getSgPlatform c with
    | .error x => ([], some x)
    | .ok sgPlatform =>
      if isLoadBalancerWithTwoClustersEnabled c then
        installTwo runner c sgPlatform topology.syncGateways
      else installAll runner sgPlatform customizeProxy topology.syncGateways

/-! ## Reading a definition back -/

/-- The address of a `server ADDRESS;` line. -/
def serverOf (line : List Char) : Option (List Char) :=
  if "server ".toList.isPrefixOf line && ";".toList.isSuffixOf line then
    some ((line.drop 7).dropLast)
  else none

/-- The addresses of a definition, line by line. -/
def servers (definition : List Char) : List (List Char) :=
  (PyStr.splitList '\n' definition).filterMap serverOf

/-- The `host:port` of an address, which may still have its scheme. -/
def endpointOf (address : List Char) : String := String.ofList ((afterScheme address).getD address)

/-- The endpoints a definition lists. -/
def endpoints (definition : String) : List String := (servers definition.toList).map endpointOf

theorem servers_line {address : List Char} (h : '\n' ∉ address) (rest : List Char) :
    servers ("server ".toList ++ address ++ ";\n".toList ++ rest) = address :: servers rest := by
  have hline : "server ".toList ++ address ++ ";\n".toList ++ rest =
      ("server ".toList ++ address ++ ";".toList) ++ '\n' :: rest := by simp
  have hno : '\n' ∉ "server ".toList ++ address ++ ";".toList := by
    simp only [List.mem_append, not_or]
    exact ⟨⟨by decide, h⟩, by decide⟩
  have hserver : serverOf ("server ".toList ++ address ++ ";".toList) = some address := by
    have hp : "server ".toList.isPrefixOf ("server ".toList ++ address ++ ";".toList) = true :=
      List.isPrefixOf_iff_prefix.mpr ⟨address ++ ";".toList, by simp⟩
    have hs : ";".toList.isSuffixOf ("server ".toList ++ address ++ ";".toList) = true :=
      List.isSuffixOf_iff_suffix.mpr ⟨"server ".toList ++ address, rfl⟩
    unfold serverOf
    rw [hp, hs]
    simp
  unfold servers
  rw [hline, PyStr.splitList_append hno, List.filterMap_cons, hserver]

/-- A text as it may stand in a host: no `/` and no line break. -/
def HostText (s : String) : Prop := '/' ∉ s.toList ∧ '\n' ∉ s.toList

instance (s : String) : Decidable (HostText s) := inferInstanceAs (Decidable (_ ∧ _))

theorem afterScheme_of_no_slash (cs : List Char) (h : '/' ∉ cs) : afterScheme cs = none := by
  induction cs with
  | nil => rfl
  | cons c cs ih =>
    have hno : ¬ "://".toList.isPrefixOf (c :: cs) = true := by
      intro hp
      exact h ((List.isPrefixOf_iff_prefix.mp hp).subset (by decide))
    rw [afterScheme, if_neg hno, ih fun hm => h (List.mem_cons_of_mem _ hm)]

/-- Of a URL with the scheme `http`, the replacement leaves what it leaves of the rest. -/
theorem ipPort_http (host port : String) :
    (ipPort (url .http host port)).toList =
      PyStr.replaceList "http://".toList [] 0 (host.toList ++ ':' :: port.toList) := by
  have hurl : (url .http host port).toList = "http://".toList ++ (host.toList ++ ':' :: port.toList) := by
    simp [url, Scheme.text]
  simp only [ipPort, PyStr.replace, String.toList_ofList, hurl]
  exact PyStr.replaceList_append [] _ (by decide)

/-- The scheme `https` stays: none of its characters starts an occurrence. -/
theorem ipPort_https (host port : String) :
    (ipPort (url .https host port)).toList = "https://".toList ++
      PyStr.replaceList "http://".toList [] 0 (host.toList ++ ':' :: port.toList) := by
  simp [ipPort, PyStr.replace, url, Scheme.text, PyStr.replaceList]

/-- What `.replace("http://", "")` leaves of a URL: only `http` is taken off. -/
theorem ipPort_url (scheme : Scheme) {host port : String} (hhost : '/' ∉ host.toList)
    (hport : '/' ∉ port.toList) :
    (ipPort (url scheme host port)).toList =
      (if scheme = .http then [] else "https://".toList) ++ (host.toList ++ ':' :: port.toList) := by
  have hrest : '/' ∉ host.toList ++ ':' :: port.toList := by simp [hhost, hport]
  have hmem : '/' ∈ "http://".toList := by decide
  have hkeep := PyStr.replaceList_of_not_mem [] hmem _ hrest
  cases scheme with
  | http => rw [ipPort_http, hkeep]; rfl
  | https => rw [ipPort_https, hkeep]; rfl

section Endpoints

variable {host : String} (hhost : HostText host) (scheme : Scheme) {port : String}
  (hport : HostText port)
include hhost hport

theorem endpointOf_url :
    endpointOf (ipPort (url scheme host port)).toList = host ++ ":" ++ port := by
  have hrest : '/' ∉ host.toList ++ ':' :: port.toList := by simp [hhost.1, hport.1]
  have hafter : (afterScheme (ipPort (url scheme host port)).toList).getD
      (ipPort (url scheme host port)).toList = host.toList ++ ':' :: port.toList := by
    rw [ipPort_url scheme hhost.1 hport.1]
    cases scheme with
    | http =>
      simp only [if_true, List.nil_append]
      rw [afterScheme_of_no_slash _ hrest]
      rfl
    | https =>
      have h := afterScheme_text .https (host.toList ++ ':' :: port.toList)
      exact congrArg (Option.getD · _) h
  unfold endpointOf
  rw [hafter]
  apply String.toList_injective
  simp

theorem no_newline_ipPort : '\n' ∉ (ipPort (url scheme host port)).toList := by
  rw [ipPort_url scheme hhost.1 hport.1]
  cases scheme <;> simp [hhost.2, hport.2]

end Endpoints

/-! ## What the loops write -/

/-- A definition with a line for each address. -/
def definitionOf : List String → String
  | [] => ""
  | address :: rest => serverLine address ++ definitionOf rest

theorem endpoints_definitionOf (addresses : List String) (h : ∀ a ∈ addresses, '\n' ∉ a.toList) :
    endpoints (definitionOf addresses) = addresses.map fun a => endpointOf a.toList := by
  induction addresses with
  | nil => rfl
  | cons a rest ih =>
    have hl : (definitionOf (a :: rest)).toList =
        "server ".toList ++ a.toList ++ ";\n".toList ++ (definitionOf rest).toList := by
      simp [definitionOf, serverLine]
    have hrest := ih fun b hb => h b (List.mem_cons_of_mem _ hb)
    unfold endpoints at hrest ⊢
    rw [hl, servers_line (h a List.mem_cons_self), List.map_cons, List.map_cons, hrest]

theorem foldl_add (sgs : List SgUrl) (u : Upstreams) :
    sgs.foldl Upstreams.add u =
      { definition := u.definition ++ definitionOf (sgs.map fun sg => ipPort sg.publicUrl)
        definitionAdmin :=
          u.definitionAdmin ++ definitionOf (sgs.map fun sg => ipPort sg.adminUrl) } := by
  induction sgs generalizing u with
  | nil => simp [definitionOf]
  | cons sg rest ih =>
    rw [List.foldl_cons, ih]
    simp [Upstreams.add, definitionOf, String.append_assoc]

/-- Each definition gets a window of the gateways. -/
theorem upstreamLoop_windows (cluster1Count total : Int) (sgs : List SgUrl) (count : Nat)
    (lb1 lb2 : Upstreams) :
    upstreamLoop cluster1Count total count sgs lb1 lb2 =
      ((sgs.take (cluster1Count.toNat - count)).foldl Upstreams.add lb1,
        ((sgs.take (total.toNat - count)).drop (cluster1Count.toNat - count)).foldl
          Upstreams.add lb2) := by
  induction sgs generalizing count lb1 lb2 with
  | nil => simp [upstreamLoop]
  | cons sg rest ih =>
    unfold upstreamLoop
    by_cases h1 : (count : Int) < cluster1Count
    · have e1 : cluster1Count.toNat - count = (cluster1Count.toNat - (count + 1)) + 1 := by omega
      rw [if_pos h1, ih, e1]
      by_cases h2 : (count : Int) < total
      · have e2 : total.toNat - count = (total.toNat - (count + 1)) + 1 := by omega
        simp [e2]
      · have e2 : total.toNat - count = 0 := by omega
        have e2' : total.toNat - (count + 1) = 0 := by omega
        simp [e2, e2']
    · have e1 : cluster1Count.toNat - count = 0 := by omega
      have e1' : cluster1Count.toNat - (count + 1) = 0 := by omega
      rw [if_neg h1, e1]
      by_cases h2 : (count : Int) < total
      · have e2 : total.toNat - count = (total.toNat - (count + 1)) + 1 := by omega
        rw [if_pos h2, ih, e1', e2]
        simp
      · have e2 : total.toNat - count = 0 := by omega
        have e2' : total.toNat - (count + 1) = 0 := by omega
        rw [if_neg h2, ih, e1', e2, e2']
        simp

theorem upstreamLoop_eq (n1 n2 : Nat) (sgs : List SgUrl) (count : Nat) (lb1 lb2 : Upstreams) :
    upstreamLoop n1 (n1 + n2) count sgs lb1 lb2 =
      ((sgs.take (n1 - count)).foldl Upstreams.add lb1,
        ((sgs.take (n1 + n2 - count)).drop (n1 - count)).foldl Upstreams.add lb2) := by
  have htotal : ((n1 : Int) + n2).toNat = n1 + n2 := by omega
  rw [upstreamLoop_windows, htotal, Int.toNat_natCast]

/-! ## What is deployed -/

/-- The last run that reached the load balancer. -/
def deployedTo (runs : List PlaybookRun) (lb : Node) : Option PlaybookRun :=
  runs.reverse.find? fun run => run.subset == none || run.subset == some lb.name

def PlaybookRun.var (run : PlaybookRun) (key : String) : String := (run.extraVars.get? key).getD ""

def endpoint (ipv6 : Bool) (port : String) (sg : Node) : String := wrap ipv6 sg.ip ++ ":" ++ port

/-- The deployed definitions list the endpoints of a gateway `n` times, each in
its own definition. -/
structure Lists (run : PlaybookRun) (ipv6 : Bool) (sg : Node) (n : Nat) : Prop where
  publicCount :
    (endpoints (run.var "upstream_sync_gatways")).count (endpoint ipv6 "4984" sg) = n
  adminCount :
    (endpoints (run.var "upstream_sync_gatways_admin")).count (endpoint ipv6 "4985" sg) = n
  publicNotAdmin : endpoint ipv6 "4984" sg ∉ endpoints (run.var "upstream_sync_gatways_admin")
  adminNotPublic : endpoint ipv6 "4985" sg ∉ endpoints (run.var "upstream_sync_gatways")

theorem var_ansiblePlaybook (sgPlatform scriptName : String) (extraVars : PyDict String String)
    (u : Upstreams) (subset : Option String) :
    (ansiblePlaybook sgPlatform scriptName (setUpstreams extraVars u) subset).var
        "upstream_sync_gatways" = u.definition ∧
      (ansiblePlaybook sgPlatform scriptName (setUpstreams extraVars u) subset).var
        "upstream_sync_gatways_admin" = u.definitionAdmin := by
  unfold PlaybookRun.var ansiblePlaybook setUpstreams
  cases isDebian sgPlatform <;> simp [PyDict.get?_set]

theorem hostText_wrap (ipv6 : Bool) {ip : String} (h : HostText ip) : HostText (wrap ipv6 ip) := by
  cases ipv6 with
  | false => exact h
  | true => exact ⟨by simp [wrap, h.1], by simp [wrap, h.2]⟩

theorem endpoint_injective {ipv6 : Bool} {port : String} {a b : Node}
    (h : endpoint ipv6 port a = endpoint ipv6 port b) : a.ip = b.ip := by
  have hl := congrArg String.toList h
  simp only [endpoint, String.toList_append] at hl
  have hwrap := List.append_cancel_right (List.append_cancel_right hl)
  exact wrap_injective ipv6 (String.toList_injective hwrap)

theorem endpoint_ports_ne (ipv6 : Bool) (a b : Node) :
    endpoint ipv6 "4984" a ≠ endpoint ipv6 "4985" b := by
  intro h
  have hl := congrArg (fun s : String => s.toList.getLast?) h
  simp [endpoint] at hl

/-- In a list without repetitions an element is in a window once or not at all. -/
theorem count_window {α : Type} [BEq α] [LawfulBEq α] {l : List α} (hl : l.Nodup) {i : Nat} {x : α}
    (hi : l[i]? = some x) (n m : Nat) :
    ((l.take m).drop n).count x = if n ≤ i ∧ i < m then 1 else 0 := by
  have hnodup : ((l.take m).drop n).Nodup :=
    hl.sublist ((List.drop_sublist _ _).trans (List.take_sublist _ _))
  have hmem : x ∈ (l.take m).drop n ↔ n ≤ i ∧ i < m := by
    rw [List.mem_iff_getElem?]
    constructor
    · intro h
      obtain ⟨j, hj⟩ := h
      rw [List.getElem?_drop, List.getElem?_take] at hj
      split at hj
      · have hlen : n + j < l.length := (List.getElem?_eq_some_iff.mp hj).1
        have hij : n + j = i := (List.getElem?_inj hlen hl).mp (hj.trans hi.symm)
        omega
      · cases hj
    · intro h
      refine ⟨i - n, ?_⟩
      have hni : n + (i - n) = i := by omega
      rw [List.getElem?_drop, List.getElem?_take, hni, if_pos h.2, hi]
  split
  · rename_i h
    exact List.count_eq_one_of_mem hnodup (hmem.mpr h)
  · rename_i h
    exact List.count_eq_zero.mpr fun hx => h (hmem.mp hx)

section Window

variable {ipv6 : Bool} {gateways : List Node} (scheme : Scheme)
  (hhosts : ∀ sg ∈ gateways, HostText sg.ip)
include hhosts

/-- A definition over the URLs of gateways lists their endpoints. -/
theorem endpoints_gateways {port : String} (hport : HostText port) :
    endpoints (definitionOf (gateways.map fun sg => ipPort (url scheme (wrap ipv6 sg.ip) port))) =
      gateways.map (endpoint ipv6 port) := by
  have hno : ∀ a ∈ gateways.map fun sg => ipPort (url scheme (wrap ipv6 sg.ip) port),
      '\n' ∉ a.toList := by
    intro a ha
    obtain ⟨sg, hsg, rfl⟩ := List.mem_map.mp ha
    exact no_newline_ipPort (hostText_wrap ipv6 (hhosts sg hsg)) scheme hport
  rw [endpoints_definitionOf _ hno, List.map_map]
  exact List.map_congr_left fun sg hsg =>
    endpointOf_url (hostText_wrap ipv6 (hhosts sg hsg)) scheme hport

/-- The definitions of a window of the gateways. -/
theorem lists_window (hips : (gateways.map Node.ip).Nodup) {n m : Nat} {run : PlaybookRun}
    {us : Upstreams}
    (hus : us = ((gateways.map fun sg => sgUrl scheme (wrap ipv6 sg.ip)).take m |>.drop n).foldl
      Upstreams.add ⟨"", ""⟩)
    (hvars : run.var "upstream_sync_gatways" = us.definition ∧
      run.var "upstream_sync_gatways_admin" = us.definitionAdmin)
    {i : Nat} {sg : Node} (hi : gateways[i]? = some sg) :
    Lists run ipv6 sg (if n ≤ i ∧ i < m then 1 else 0) := by
  have hwindow : ∀ sg ∈ (gateways.take m).drop n, HostText sg.ip :=
    fun sg hsg => hhosts sg (List.mem_of_mem_take (List.mem_of_mem_drop hsg))
  rw [foldl_add, ← List.map_take, ← List.map_drop, List.map_map, List.map_map] at hus
  have hpub : endpoints (run.var "upstream_sync_gatways") =
      ((gateways.take m).drop n).map (endpoint ipv6 "4984") := by
    rw [hvars.1, hus]
    simp only [String.empty_append]
    exact endpoints_gateways scheme hwindow (by decide)
  have hadm : endpoints (run.var "upstream_sync_gatways_admin") =
      ((gateways.take m).drop n).map (endpoint ipv6 "4985") := by
    rw [hvars.2, hus]
    simp only [String.empty_append]
    exact endpoints_gateways scheme hwindow (by decide)
  have hcount : ∀ port, (((gateways.take m).drop n).map (endpoint ipv6 port)).count
      (endpoint ipv6 port sg) = if n ≤ i ∧ i < m then 1 else 0 := by
    intro port
    have hnodup : (gateways.map (endpoint ipv6 port)).Nodup := by
      rw [List.nodup_iff_pairwise_ne, List.pairwise_map] at hips ⊢
      exact hips.imp fun hne he => hne (endpoint_injective he)
    have hget : (gateways.map (endpoint ipv6 port))[i]? = some (endpoint ipv6 port sg) := by
      rw [List.getElem?_map, hi]
      rfl
    rw [List.map_drop, List.map_take]
    exact count_window hnodup hget n m
  refine ⟨hpub ▸ hcount "4984", hadm ▸ hcount "4985", ?_, ?_⟩
  · rw [hadm]
    intro hmem
    obtain ⟨sg', -, he⟩ := List.mem_map.mp hmem
    exact endpoint_ports_ne ipv6 sg sg' he.symm
  · rw [hpub]
    intro hmem
    obtain ⟨sg', -, he⟩ := List.mem_map.mp hmem
    exact endpoint_ports_ne ipv6 sg' sg he

end Window

/-! ## Agreement -/

/-- A window that is exactly the gateways of `R`. -/
theorem lists_of_iff {run : PlaybookRun} {ipv6 : Bool} {sg : Node} {P R : Prop} [Decidable P]
    (h : Lists run ipv6 sg (if P then 1 else 0)) (hr : R ↔ P) :
    (R → Lists run ipv6 sg 1) ∧ (¬ R → Lists run ipv6 sg 0) := by
  refine ⟨fun hin => ?_, fun hout => ?_⟩
  · rwa [if_pos (hr.mp hin)] at h
  · rwa [if_neg fun hp => hout (hr.mpr hp)] at h

/-- Without a load balancer the topology has the URLs of the gateways. -/
theorem topology_real {c : ClusterJson} {ipv6 : Bool} (haddr : c.environment.ipv6Enabled = some ipv6)
    (hssl : c.environment.cbsSslEnabled.isSome) (hlb : c.environment.sgLbEnabled.isSome)
    (self : ClusterKeywords) :
    ∃ t, self.getClusterTopology c false = .ok t ∧
      t.syncGateways = c.syncGateways.map fun sg => sgUrl self.sgScheme (wrap ipv6 sg.ip) := by
  obtain ⟨cbsSsl, hssl⟩ := Option.isSome_iff_exists.mp hssl
  obtain ⟨lbEnabled, hlb⟩ := Option.isSome_iff_exists.mp hlb
  have hsg : self.sgUrls c false = self.gatewayUrls c c.syncGateways := by
    simp only [ClusterKeywords.sgUrls, Bool.and_false, isLoadBalancerEnabled, hlb, lookup]
    rfl
  rw [getClusterTopology_eq self false haddr hssl, hsg, ClusterKeywords.gatewayUrls,
    forNodes_eq haddr]
  exact ⟨_, rfl, rfl⟩

/-- A cluster JSON with two load-balanced clusters. -/
structure TwoClusters (c : ClusterJson) (ipv6 : Bool) (n1 n2 : Nat) (lb1 lb2 : Node) : Prop where
  complete : Complete c.environment
  addresses : c.environment.ipv6Enabled = some ipv6
  two : c.environment.twoSgClusterLbEnabled = some true
  count1 : c.environment.sgwCluster1Count = some (n1 : Int)
  count2 : c.environment.sgwCluster2Count = some (n2 : Int)
  platform : c.environment.sgPlatform.isSome
  balancers : c.loadBalancers = [lb1, lb2]
  names : lb1.name ≠ lb2.name
  ips : lb1.ip ≠ lb2.ip
  gateways : (c.syncGateways.map Node.ip).Nodup
  hosts : ∀ sg ∈ c.syncGateways, HostText sg.ip

section TwoClusters

variable {c : ClusterJson} {ipv6 : Bool} {n1 n2 : Nat} {lb1 lb2 : Node}
  (h : TwoClusters c ipv6 n1 n2 lb1 lb2)
include h

theorem topology_two (self : ClusterKeywords) :
    ∃ t, self.getClusterTopology c true = .ok t ∧ ∀ i < c.syncGateways.length,
      t.syncGateways[i]? =
        (balancerOf lb1 lb2 n1 n2 i).map fun lb => sgUrl .http (wrap ipv6 lb.ip) := by
  obtain ⟨cbsSsl, hssl⟩ := Option.isSome_iff_exists.mp h.complete.cbsSsl
  obtain ⟨urls, hurls, hget⟩ :=
    twoClusterUrls_get h.addresses h.balancers n1 n2 c.syncGateways 0
  have hsg : self.sgUrls c true = .ok urls := by
    rw [← hurls]
    simp only [ClusterKeywords.sgUrls, isLoadBalancerWithTwoClustersEnabled, h.two, h.count1, h.count2,
      lookup]
    rfl
  rw [getClusterTopology_eq self true h.addresses hssl, hsg]
  refine ⟨_, rfl, ?_⟩
  intro i hi
  have hgi := hget i
  rw [if_pos hi, Nat.zero_add] at hgi
  exact hgi

/-- The two runs, one for each pair of definitions. -/
theorem installNginx_runs {runner : PlaybookRun → Nat} (hrun : ∀ run, runner run = 0)
    (customizeProxy : Bool) {t : Topology}
    (ht : (ClusterKeywords.init c).getClusterTopology c false = .ok t) {us1 us2 : Upstreams}
    (hloop : upstreamLoop n1 (n1 + n2) 0 t.syncGateways ⟨"", ""⟩ ⟨"", ""⟩ = (us1, us2)) :
    ∃ sgPlatform vars1 vars2, installNginx runner c customizeProxy =
      ([ansiblePlaybook sgPlatform "install-nginx.yml" (setUpstreams vars1 us1) (some lb1.name),
        ansiblePlaybook sgPlatform "install-nginx.yml" (setUpstreams vars2 us2) (some lb2.name)],
        none) := by
  obtain ⟨sgPlatform, hplatform⟩ := Option.isSome_iff_exists.mp h.platform
  refine ⟨sgPlatform, installVars sgPlatform, (ansiblePlaybook sgPlatform "install-nginx.yml"
    (setUpstreams (installVars sgPlatform) us1) (some lb1.name)).extraVars, ?_⟩
  simp only [installNginx, ht, getSgPlatform, hplatform, lookup, isLoadBalancerWithTwoClustersEnabled,
    h.two, Option.getD_some, if_true, installTwo, h.count1, h.count2, h.balancers, hloop,
    List.map_cons, List.map_nil, List.getElem?_cons_zero, List.getElem?_cons_succ, runThen, hrun]

/-- The two runs list the two windows of the gateways. -/
theorem installNginx_two {runner : PlaybookRun → Nat} (hrun : ∀ run, runner run = 0)
    (customizeProxy : Bool) :
    ∃ run1 run2, installNginx runner c customizeProxy = ([run1, run2], none) ∧
      run1.subset = some lb1.name ∧ run2.subset = some lb2.name ∧
      ∀ i sg, c.syncGateways[i]? = some sg →
        Lists run1 ipv6 sg (if 0 ≤ i ∧ i < n1 then 1 else 0) ∧
        Lists run2 ipv6 sg (if n1 ≤ i ∧ i < n1 + n2 then 1 else 0) := by
  obtain ⟨t, ht, hsgs⟩ :=
    topology_real h.addresses h.complete.cbsSsl h.complete.lb (ClusterKeywords.init c)
  have hloop := upstreamLoop_eq n1 n2 t.syncGateways 0 ⟨"", ""⟩ ⟨"", ""⟩
  obtain ⟨sgPlatform, vars1, vars2, hout⟩ := installNginx_runs h hrun customizeProxy ht hloop
  refine ⟨_, _, hout, rfl, rfl, ?_⟩
  intro i sg hi
  constructor
  · exact lists_window (ClusterKeywords.init c).sgScheme h.hosts h.gateways
      (by rw [hsgs, Nat.sub_zero, List.drop_zero]) (var_ansiblePlaybook _ _ _ _ _) hi
  · exact lists_window (ClusterKeywords.init c).sgScheme h.hosts h.gateways
      (by rw [hsgs, Nat.sub_zero, Nat.sub_zero]) (var_ansiblePlaybook _ _ _ _ _) hi

/-- The load balancers serve the gateways whose URLs name them. -/
theorem upstreams_agree {runner : PlaybookRun → Nat} (hrun : ∀ run, runner run = 0)
    (customizeProxy : Bool) :
    ∃ t runs, (ClusterKeywords.init c).getClusterTopology c true = .ok t ∧
      installNginx runner c customizeProxy = (runs, none) ∧
      ∀ lb ∈ c.loadBalancers, ∃ run, deployedTo runs lb = some run ∧
        ∀ i sg, c.syncGateways[i]? = some sg →
          (RoutesTo t ipv6 i lb → Lists run ipv6 sg 1) ∧
          (¬ RoutesTo t ipv6 i lb → Lists run ipv6 sg 0) ∧
          (n1 + n2 ≤ i → Lists run ipv6 sg 0) := by
  obtain ⟨t, ht, hget⟩ := topology_two h (ClusterKeywords.init c)
  obtain ⟨run1, run2, hout, hs1, hs2, hlists⟩ := installNginx_two h hrun customizeProxy
  have hd1 : deployedTo [run1, run2] lb1 = some run1 := by
    simp [deployedTo, hs1, hs2, h.names.symm]
  have hd2 : deployedTo [run1, run2] lb2 = some run2 := by
    simp [deployedTo, hs2]
  have hne : lb1 ≠ lb2 := fun he => h.ips (congrArg Node.ip he)
  have hroute : ∀ lb, lb = lb1 ∨ lb = lb2 → ∀ i sg, c.syncGateways[i]? = some sg →
      (RoutesTo t ipv6 i lb ↔ balancerOf lb1 lb2 n1 n2 i = some lb) := by
    intro lb hlb i sg hi
    exact routesTo_iff h.ips (hget i (List.getElem?_eq_some_iff.mp hi).1) hlb
  refine ⟨t, [run1, run2], ht, hout, ?_⟩
  intro lb hlb
  rw [h.balancers, List.mem_cons, List.mem_singleton] at hlb
  rcases hlb with rfl | rfl
  · refine ⟨run1, hd1, fun i sg hi => ?_⟩
    have hr := (hroute _ (.inl rfl) i sg hi).trans (balancerOf_eq_first hne)
    have hwindow : 0 ≤ i ∧ i < n1 ↔ i < n1 := by omega
    obtain ⟨hin, hout⟩ := lists_of_iff (hlists i sg hi).1 (hr.trans hwindow.symm)
    refine ⟨hin, hout, fun hge => hout fun hroutes => ?_⟩
    have hlt := hr.mp hroutes
    omega
  · refine ⟨run2, hd2, fun i sg hi => ?_⟩
    have hr := (hroute _ (.inr rfl) i sg hi).trans (balancerOf_eq_second hne)
    obtain ⟨hin, hout⟩ := lists_of_iff (hlists i sg hi).2 hr
    refine ⟨hin, hout, fun hge => hout fun hroutes => ?_⟩
    have hlt := hr.mp hroutes
    omega

end TwoClusters

theorem twoClusters_wellFormed : TwoClusters twoClusters true 1 1 ⟨"lb1", "fc00::41"⟩
    ⟨"lb2", "fc00::42"⟩ where
  complete := twoClusters_complete
  addresses := rfl
  two := rfl
  count1 := rfl
  count2 := rfl
  platform := rfl
  balancers := rfl
  names := by decide
  ips := by decide
  gateways := by decide
  hosts := by decide

theorem upstreams_agree_twoClusters : ∃ t runs,
    (ClusterKeywords.init twoClusters).getClusterTopology twoClusters true = .ok t ∧
      installNginx (fun _ => 0) twoClusters false = (runs, none) ∧
      ∃ run, deployedTo runs ⟨"lb2", "fc00::42"⟩ = some run ∧
        Lists run true ⟨"sg2", "fc00::22"⟩ 1 ∧ Lists run true ⟨"sg3", "fc00::23"⟩ 0 := by
  have hzero : ∀ run : PlaybookRun, (fun _ => 0 : PlaybookRun → Nat) run = 0 := fun _ => rfl
  obtain ⟨t, runs, ht, hruns, hlbs⟩ := upstreams_agree twoClusters_wellFormed hzero false
  obtain ⟨run, hrun, hlists⟩ := hlbs ⟨"lb2", "fc00::42"⟩ (by decide)
  have hsgs : ((ClusterKeywords.init twoClusters).getClusterTopology twoClusters true).map
      Topology.syncGateways = .ok [sgUrl .http "[fc00::41]", sgUrl .http "[fc00::42]"] := rfl
  rw [ht] at hsgs
  have hroute : RoutesTo t true 1 ⟨"lb2", "fc00::42"⟩ := by
    refine ⟨sgUrl .http "[fc00::42]", ?_, by decide, by decide⟩
    rw [Except.ok.inj hsgs]
    rfl
  exact ⟨t, runs, ht, hruns, run, hrun, (hlists 1 _ rfl).1 hroute, (hlists 2 _ rfl).2.2 (by decide)⟩

end MobileTestkit.L2.Nginx
