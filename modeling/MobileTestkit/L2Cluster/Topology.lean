import MobileTestkit.Core.PyStr

/-!
# The two cluster models

Model of `ClusterKeywords.get_cluster_topology` (keywords/ClusterKeywords.py)
and of `Cluster.__init__` (libraries/testkit/cluster.py). Each reads
`<cluster_config>.json` and works out the addresses of the nodes, with the
sync gateways behind no load balancer, one, or two. The two functions are
separate copies of the same loops and are kept separate here.

A key that may be missing from `environment` is an `Option`, and reading it
raises `KeyError`. The loops write the bracketed ip back into the loaded JSON;
no element is visited twice, so the written value is only the one the same
iteration goes on with. `Cluster.__init__` ends by wrapping its three lists in
objects. `SyncGateway` and `SgAccel` keep the name and the ip they are given,
and stay a `Node` here; `CouchbaseServer` drops the brackets from its URL.
-/
namespace MobileTestkit.L2.ClusterModels

open MobileTestkit.Core

inductive Exn where
  | ioError
  | keyError (key : String)
  | indexError
  | assertionError (msg : String)
  deriving DecidableEq, Repr

structure Node where
  name : String
  ip : String
  deriving DecidableEq, Repr

structure Environment where
  ipv6Enabled : Option Bool
  cbsSslEnabled : Option Bool
  xattrsEnabled : Option Bool
  syncGatewaySsl : Option Bool
  disablePersistentConfig : Option Bool
  sgLbEnabled : Option Bool
  twoSgClusterLbEnabled : Option Bool
  sgwCluster1Count : Option Int
  sgwCluster2Count : Option Int
  sgPlatform : Option String
  deriving DecidableEq, Repr

/-- `<cluster_config>.json`. -/
structure ClusterJson where
  environment : Environment
  couchbaseServers : List Node
  syncGateways : List Node
  sgAccels : List Node
  loadBalancers : List Node
  deriving DecidableEq, Repr

/-- `environment[key]`. -/
def lookup {α : Type} (key : String) : Option α → Except Exn α
  | some v => .ok v
  | none => .error (.keyError key)

/-- `load_balancers[k]["ip"]`. -/
def lbIp (c : ClusterJson) (k : Nat) : Except Exn String :=
  match c.loadBalancers[k]? with
  | some lb => .ok lb.ip
  | none => .error .indexError

/-! ## cluster_config_utils.py -/

/-- mirrors utilities/cluster_config_utils.py:335-341 -/
def isLoadBalancerWithTwoClustersEnabled (c : ClusterJson) : Bool :=
  c.environment.twoSgClusterLbEnabled.getD false

/-- mirrors utilities/cluster_config_utils.py:167-170 -/
def isLoadBalancerEnabled (c : ClusterJson) : Except Exn Bool :=
  lookup "sg_lb_enabled" c.environment.sgLbEnabled

/-- mirrors utilities/cluster_config_utils.py:173-178 -/
def getLoadBalancerIp (c : ClusterJson) : Except Exn String := lbIp c 0

/-- mirrors utilities/cluster_config_utils.py:238-244 -/
def sgSslEnabled (c : ClusterJson) : Bool := c.environment.syncGatewaySsl.getD false

/-- mirrors utilities/cluster_config_utils.py:258-260 -/
def getSgPlatform (c : ClusterJson) : Except Exn String :=
  lookup "sg_platform" c.environment.sgPlatform

/-! ## Addresses -/

/-- `"[{}]".format(ip)` under IPv6. -/
def wrap (ipv6 : Bool) (ip : String) : String := if ipv6 then "[" ++ ip ++ "]" else ip

/-- `if environment["ipv6_enabled"]: ip = "[{}]".format(ip)`. -/
def wrapIp (c : ClusterJson) (ip : String) : Except Exn String := do
  let ipv6 ← lookup "ipv6_enabled" c.environment.ipv6Enabled
  return wrap ipv6 ip

inductive Scheme where
  | http | https
  deriving DecidableEq, Repr

def Scheme.text : Scheme → String
  | .http => "http"
  | .https => "https"

/-- `"{}://{}:{}".format(scheme, host, port)`. -/
def url (scheme : Scheme) (host port : String) : String :=
  scheme.text ++ "://" ++ host ++ ":" ++ port

/-- The text after the first `://`, if there is one. -/
def afterScheme : List Char → Option (List Char)
  | [] => none
  | c :: cs => if "://".toList.isPrefixOf (c :: cs) then some (cs.drop 2) else afterScheme cs

/-- The text before the last colon. -/
def beforePort (cs : List Char) : List Char :=
  ((cs.reverse.dropWhile fun c => c != ':').drop 1).reverse

/-- The host of a URL, with its brackets. -/
def urlHost (u : String) : String :=
  String.ofList (beforePort ((afterScheme u.toList).getD u.toList))

/-- `re.sub(r'[\[\]]', '', url)`. -/
def dropBrackets (u : String) : String :=
  String.ofList (u.toList.filter fun ch => !(ch == '[' || ch == ']'))

/-- Scheme and port cut off, in the constructor of `CouchbaseServer` and in `rebalance_in`.
mirrors keywords/couchbaseserver.py:80-86, 758-763 -/
def stripUrl (u : String) : String :=
  if PyStr.contains u "https" then PyStr.replace (PyStr.replace u "https://" "") ":18091" ""
  else PyStr.replace (PyStr.replace u "http://" "") ":8091" ""

/-- `CouchbaseServer(url).host`.
mirrors keywords/couchbaseserver.py:73-88 -/
def hostOf (u : String) : String := stripUrl (dropBrackets u)

structure CouchbaseServer where
  url : String
  host : String
  cbsSsl : Bool
  deriving DecidableEq, Repr

/-- mirrors keywords/couchbaseserver.py:73-95 -/
def CouchbaseServer.init (u : String) : CouchbaseServer :=
  ⟨dropBrackets u, hostOf u, PyStr.contains (dropBrackets u) "https"⟩

/-- The loops that append one entry for each node, made of the node and its ip. -/
def forNodes {α : Type} (c : ClusterJson) (entry : Node → String → α) :
    List Node → Except Exn (List α)
  | [] => .ok []
  | node :: rest => do
    let ip ← wrapIp c node.ip
    let entries ← forNodes c entry rest
    return entry node ip :: entries

structure SgUrl where
  publicUrl : String
  adminUrl : String
  deriving DecidableEq, Repr

def sgUrl (scheme : Scheme) (host : String) : SgUrl := ⟨url scheme host "4984", url scheme host "4985"⟩

/-! ## ClusterKeywords -/

structure ClusterKeywords where
  sgScheme : Scheme
  deriving DecidableEq, Repr

/-- mirrors keywords/ClusterKeywords.py:22-29 -/
def ClusterKeywords.init (c : ClusterJson) : ClusterKeywords :=
  ⟨if sgSslEnabled c then .https else .http⟩

structure Topology where
  syncGateways : List SgUrl
  sgAccels : List String
  couchbaseServers : List String
  loadBalancers : List String
  deriving DecidableEq, Repr

namespace ClusterKeywords

/-- The loop over the sync gateways behind two load balancers.
mirrors keywords/ClusterKeywords.py:90-105 -/
def twoClusterUrls (c : ClusterJson) (cluster1Count totalSgsCount : Int) :
    Nat → List Node → Except Exn (List SgUrl)
  | _, [] => .ok []
  | count, _ :: rest => do
    if (count : Int) < cluster1Count then
      let lb1 ← lbIp c 0
      let lb1 ← wrapIp c lb1
      let urls ← twoClusterUrls c cluster1Count totalSgsCount (count + 1) rest
      return sgUrl .http lb1 :: urls
    else if (count : Int) < totalSgsCount then
      let lb2 ← lbIp c 1
      let lb2 ← wrapIp c lb2
      let urls ← twoClusterUrls c cluster1Count totalSgsCount (count + 1) rest
      return sgUrl .http lb2 :: urls
    else twoClusterUrls c cluster1Count totalSgsCount (count + 1) rest

/-- The loop behind one load balancer; `lb_ip` is rewritten by every iteration.
mirrors keywords/ClusterKeywords.py:114-119 -/
def oneClusterUrls (c : ClusterJson) : String → List Node → Except Exn (List SgUrl)
  | _, [] => .ok []
  | lb, _ :: rest => do
    let lb ← wrapIp c lb
    let urls ← oneClusterUrls c lb rest
    return sgUrl .http lb :: urls

/-- The loop without a load balancer.
mirrors keywords/ClusterKeywords.py:123-128 -/
def gatewayUrls (self : ClusterKeywords) (c : ClusterJson) : List Node → Except Exn (List SgUrl) :=
  forNodes c fun _ ip => sgUrl self.sgScheme ip

/-- mirrors keywords/ClusterKeywords.py:130-133 -/
def acUrls (self : ClusterKeywords) (c : ClusterJson) : List Node → Except Exn (List String) :=
  forNodes c fun _ ip => url self.sgScheme ip "4985"

/-- mirrors keywords/ClusterKeywords.py:134-137 -/
def lbsUrls (c : ClusterJson) : List Node → Except Exn (List String) :=
  forNodes c fun _ ip => "http://" ++ ip

/-- mirrors keywords/ClusterKeywords.py:146-149 -/
def cbsUrls (c : ClusterJson) (serverScheme : Scheme) (serverPort : String) :
    List Node → Except Exn (List String) :=
  forNodes c fun _ ip => url serverScheme ip serverPort

/-- mirrors keywords/ClusterKeywords.py:85-128 -/
def sgUrls (self : ClusterKeywords) (c : ClusterJson) (lbEnable : Bool) :
    Except Exn (List SgUrl) := do
  if isLoadBalancerWithTwoClustersEnabled c && lbEnable then
    let cluster1Count ← lookup "sgw_cluster1_count" c.environment.sgwCluster1Count
    let cluster2Count ← lookup "sgw_cluster2_count" c.environment.sgwCluster2Count
    twoClusterUrls c cluster1Count (cluster1Count + cluster2Count) 0 c.syncGateways
  else
    let lbEnabled ← isLoadBalancerEnabled c
    if lbEnabled && lbEnable then
      let lb ← getLoadBalancerIp c
      oneClusterUrls c lb c.syncGateways
    else gatewayUrls self c c.syncGateways

/-- mirrors keywords/ClusterKeywords.py:61-161 -/
def getClusterTopology (self : ClusterKeywords) (c : ClusterJson) (lbEnable : Bool) :
    Except Exn Topology := do
  let sgs ← sgUrls self c lbEnable
  let acs ← acUrls self c c.sgAccels
  let lbs ← lbsUrls c c.loadBalancers
  let cbsSsl ← lookup "cbs_ssl_enabled" c.environment.cbsSslEnabled
  let serverPort := if cbsSsl then "18091" else "8091"
  let serverScheme := if cbsSsl then Scheme.https else Scheme.http
  let cbs ← cbsUrls c serverScheme serverPort c.couchbaseServers
  return { syncGateways := sgs, sgAccels := acs, couchbaseServers := cbs, loadBalancers := lbs }

end ClusterKeywords

/-! ## Cluster -/

/-- What `Cluster.__init__` computes; of a `SyncGateway` and a `SgAccel` the
`{"name", "ip"}` that it keeps. -/
structure Cluster where
  syncGateways : List Node
  sgAccels : List Node
  servers : List CouchbaseServer
  cbsSsl : Bool
  xattrs : Bool
  syncGatewaySsl : Bool
  centralizedPersistentConfig : Bool
  ipv6 : Bool
  deriving DecidableEq, Repr

namespace Cluster

/-- mirrors libraries/testkit/cluster.py:58-69 -/
def twoClusterTargets (c : ClusterJson) (cluster1Count totalSgsCount : Int) :
    Nat → List Node → Except Exn (List Node)
  | _, [] => .ok []
  | count, sg :: rest => do
    if (count : Int) < cluster1Count then
      let lb1 ← lbIp c 0
      let lb1 ← wrapIp c lb1
      let sgs ← twoClusterTargets c cluster1Count totalSgsCount (count + 1) rest
      return ⟨sg.name, lb1⟩ :: sgs
    else if (count : Int) < totalSgsCount then
      let lb2 ← lbIp c 1
      let lb2 ← wrapIp c lb2
      let sgs ← twoClusterTargets c cluster1Count totalSgsCount (count + 1) rest
      return ⟨sg.name, lb2⟩ :: sgs
    else twoClusterTargets c cluster1Count totalSgsCount (count + 1) rest

/-- mirrors libraries/testkit/cluster.py:75-78 -/
def oneClusterTargets (c : ClusterJson) : String → List Node → Except Exn (List Node)
  | _, [] => .ok []
  | lb, sg :: rest => do
    let lb ← wrapIp c lb
    let sgs ← oneClusterTargets c lb rest
    return ⟨sg.name, lb⟩ :: sgs

/-- The loop over the real gateways, and the one over the accels.
mirrors libraries/testkit/cluster.py:81-89 -/
def nodeTargets (c : ClusterJson) : List Node → Except Exn (List Node) :=
  forNodes c fun node ip => ⟨node.name, ip⟩

/-- One of the two loops over the servers.
mirrors libraries/testkit/cluster.py:97-106 -/
def serverUrls (c : ClusterJson) (scheme : Scheme) (port : String) :
    List Node → Except Exn (List String) :=
  forNodes c fun _ ip => url scheme ip port

/-- mirrors libraries/testkit/cluster.py:52-84 -/
def sgTargets (c : ClusterJson) : Except Exn (List Node) := do
  if isLoadBalancerWithTwoClustersEnabled c then
    let cluster1Count ← lookup "sgw_cluster1_count" c.environment.sgwCluster1Count
    let cluster2Count ← lookup "sgw_cluster2_count" c.environment.sgwCluster2Count
    twoClusterTargets c cluster1Count (cluster1Count + cluster2Count) 0 c.syncGateways
  else
    let lbEnabled ← isLoadBalancerEnabled c
    if lbEnabled then
      let lb ← getLoadBalancerIp c
      oneClusterTargets c lb c.syncGateways
    else nodeTargets c c.syncGateways

/-- `isfile` says whether the inventory is there.
mirrors libraries/testkit/cluster.py:35-116 -/
def init (isfile : Bool) (c : ClusterJson) : Except Exn Cluster := do
  if !isfile then throw .ioError
  let sgs ← sgTargets c
  let acs ← nodeTargets c c.sgAccels
  let cbsSsl ← lookup "cbs_ssl_enabled" c.environment.cbsSslEnabled
  let xattrs ← lookup "xattrs_enabled" c.environment.xattrsEnabled
  let syncGatewaySsl ← lookup "sync_gateway_ssl" c.environment.syncGatewaySsl
  let disabled ← lookup "disable_persistent_config" c.environment.disablePersistentConfig
  let ipv6 ← lookup "ipv6_enabled" c.environment.ipv6Enabled
  let servers ←
    if cbsSsl then serverUrls c .https "18091" c.couchbaseServers
    else serverUrls c .http "8091" c.couchbaseServers
  return { syncGateways := sgs, sgAccels := acs, servers := servers.map CouchbaseServer.init, cbsSsl := cbsSsl
           xattrs := xattrs, syncGatewaySsl := syncGatewaySsl
           centralizedPersistentConfig := !disabled, ipv6 := ipv6 }

end Cluster

end MobileTestkit.L2.ClusterModels
