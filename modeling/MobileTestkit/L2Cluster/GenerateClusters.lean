import MobileTestkit.Core.PyDict
import MobileTestkit.Core.PyStr

/-!
# Cluster definitions from a machine pool

Model of `write_config` of libraries/utilities/generate_clusters_from_pool.py:
from the ips of a pool file it fills five roles and writes two files, the
ansible inventory `<name>` and `<name>.json`.

The inventory is opened (and truncated) first and written role by role; the
JSON is written last. On the way out the function may unlink the inventory
(not enough ips of a type), or raise and leave it as far as it got. The
written lines are kept as `Line`s, whose text is `Line.text`; logging is left
out. The five role phases of the source are one definition (`writeRole`) at
the five roles.
-/
namespace MobileTestkit.L2.GenerateClusters

open MobileTestkit.Core

inductive Role where
  | couchbaseServers | syncGateways | sgAccels | loadGenerators | loadBalancers
  deriving DecidableEq, Repr

/-- The section of the inventory, the key in the JSON and the node type. -/
def Role.key : Role → String
  | .couchbaseServers => "couchbase_servers"
  | .syncGateways => "sync_gateways"
  | .sgAccels => "sg_accels"
  | .loadGenerators => "load_generators"
  | .loadBalancers => "load_balancers"

/-- What the names of the hosts start with. -/
def Role.short : Role → String
  | .couchbaseServers => "cb"
  | .syncGateways => "sg"
  | .sgAccels => "ac"
  | .loadGenerators => "lg"
  | .loadBalancers => "lb"

/-- The roles in the order of the source. -/
def roles : List Role :=
  [.couchbaseServers, .syncGateways, .sgAccels, .loadGenerators, .loadBalancers]

/-- mirrors libraries/utilities/generate_clusters_from_pool.py:13-25 -/
structure ClusterDef where
  name : String
  numSgs : Int
  numAcs : Int
  numCbs : Int
  numLgs : Int
  numLbs : Int

def ClusterDef.count (config : ClusterDef) : Role → Int
  | .couchbaseServers => config.numCbs
  | .syncGateways => config.numSgs
  | .sgAccels => config.numAcs
  | .loadGenerators => config.numLgs
  | .loadBalancers => config.numLbs

def ClusterDef.numMachinesRequired (config : ClusterDef) : Int :=
  config.numSgs + config.numAcs + config.numCbs + config.numLgs + config.numLbs

structure Options where
  useDocker : Bool
  sgWindows : Bool
  sgAccelWindows : Bool
  sgPlatform : String := "centos7"
  ipv6 : Bool := false
  x509Certs : Bool := false
  cbsPlatform : String := "centos7"

inductive Exn where
  | poolFile
  | systemExit
  | exception (msg : String)
  | indexError
  | valueError
  deriving DecidableEq, Repr

/-! ## The files -/

structure Host where
  name : String
  ip : String
  deriving DecidableEq, Repr

inductive Line where
  | header (name : String)
  | host (name ip connection : String)
  | raw (s : String)
  deriving DecidableEq, Repr

def Line.text : Line → String
  | .header name => "[" ++ name ++ "]\n"
  | .host name ip connection => name ++ " ansible_host=" ++ ip ++ " " ++ connection ++ "\n"
  | .raw s => s

abbrev Inventory := List Line

structure ClusterJson where
  hosts : List Host
  roles : Role → List Host
  webhookIp : List Host
  ipv6Enabled : Bool
  x509Certs : Bool
  syncGatewayVars : Option (List (String × (String ⊕ Nat)))

/-- The two files of one config in `cluster_configs`. -/
structure Files where
  inventory : Option Inventory
  json : Option ClusterJson

/-- The ips under the section `name`; `inside` says whether the lines so far
ended in it. -/
def sectionIps (name : String) : Bool → Inventory → List String
  | _, [] => []
  | _, .header n :: rest => sectionIps name (n == name) rest
  | inside, .host _ ip _ :: rest =>
    if inside then ip :: sectionIps name inside rest else sectionIps name inside rest
  | inside, .raw _ :: rest => sectionIps name inside rest

/-- The ips the inventory lists for a role. -/
def inventoryIps (inv : Inventory) (role : Role) : List String := sectionIps role.key false inv

/-- The ips the JSON lists for a role. -/
def ClusterJson.ips (js : ClusterJson) (role : Role) : List String := (js.roles role).map Host.ip

/-! ## The pool file -/

inductive PoolFile where
  | broken (x : Exn)
  | pool (ips : List String) (ipToNodeType : PyDict String String)

/-- Without `ip_to_node_type` the map is empty.
mirrors libraries/utilities/generate_clusters_from_pool.py:453-467 -/
def getHosts : PoolFile → Except Exn (List String × PyDict String String)
  | .broken x => .error x
  | .pool ips ipToNodeType => if ips.Nodup then .ok (ips, ipToNodeType) else .error .systemExit

/-! ## One role -/

/-- How a phase can end the function early. -/
inductive Stop where
  | unlinked
  | raised (x : Exn)
  deriving DecidableEq, Repr

/-- The `while` loop: the first ip of the type that is not yet taken.
mirrors libraries/utilities/generate_clusters_from_pool.py:94-104 -/
def scan (nodeType : String) (ipToNodeType : PyDict String String) (taken : List String) :
    List String → Except Stop String
  | [] => .error .unlinked
  | ip :: rest =>
    match ipToNodeType.get? ip with
    | none => .error (.raised (.exception (ip ++ " not in ip_to_node_type")))
    | some t =>
      if t ≠ nodeType ∨ ip ∈ taken then scan nodeType ipToNodeType taken rest else .ok ip

/-- The ip of iteration `i`.
mirrors libraries/utilities/generate_clusters_from_pool.py:92-125 -/
def nextIp (nodeType : String) (ipToNodeType : PyDict String String) (ips : List String) (i : Nat)
    (taken : List String) : Except Stop String :=
  if ipToNodeType.items ≠ [] then scan nodeType ipToNodeType taken ips
  else match ips[i]? with
    | some ip => .ok ip
    | none => .error (.raised .indexError)

/-- The `for` loop over the iterations left, with the ips taken so far. -/
def pickIps (nodeType : String) (ipToNodeType : PyDict String String) (ips : List String) :
    List Nat → List String → List String × Option Stop
  | [], taken => (taken, none)
  | i :: todo, taken =>
    match nextIp nodeType ipToNodeType ips i taken with
    | .error stop => (taken, some stop)
    | .ok ip => pickIps nodeType ipToNodeType ips todo (taken ++ [ip])

/-- `for ip in taken: ips.remove(ip)`. -/
def removeAll (ips : List String) : List String → Except Stop (List String)
  | [] => .ok ips
  | ip :: rest => if ip ∈ ips then removeAll (ips.erase ip) rest else .error (.raised .valueError)

/-- The names count from 1. -/
def named (short : String) (ips : List String) : List Host :=
  ips.zipIdx.map fun x => ⟨short ++ toString (x.2 + 1), x.1⟩

def Host.line (connection : String) (h : Host) : Line := .host h.name h.ip connection

/-- What the function has written and recorded so far; `lastI` is the loop
variable `i`. -/
structure St where
  lines : Inventory
  ips : List String
  roles : Role → List Host
  lastI : Option Nat

/-- One role phase.
mirrors libraries/utilities/generate_clusters_from_pool.py:85-138 -/
def writeRole (config : ClusterDef) (ipToNodeType : PyDict String String) (connection : String)
    (role : Role) (st : St) : St × Option Stop :=
  let n := (config.count role).toNat
  let picked := pickIps role.key ipToNodeType st.ips (List.range n) []
  let hosts := named role.short picked.1
  let st := { st with
    lines := st.lines ++ .header role.key :: hosts.map (Host.line connection)
    roles := fun r => if r = role then hosts else st.roles r
    lastI := if n = 0 then st.lastI else some (n - 1) }
  match picked.2 with
  | some stop => (st, some stop)
  | none =>
    match removeAll st.ips picked.1 with
    | .error stop => (st, some stop)
    | .ok ips => ({ st with ips := ips, lines := st.lines ++ [.raw "\n"] }, none)

def writeRoles (config : ClusterDef) (ipToNodeType : PyDict String String) (connection : String) :
    List Role → St → St × Option Stop
  | [], st => (st, none)
  | role :: rest, st =>
    match writeRole config ipToNodeType connection role st with
    | (st, some stop) => (st, some stop)
    | (st, none) => writeRoles config ipToNodeType connection rest st

/-! ## The rest of the files -/

def pyBool (b : Bool) : String := if b then "True" else "False"

/-- mirrors libraries/utilities/generate_clusters_from_pool.py:65-84 -/
def poolLines (connection : String) (ips : List String) : Inventory :=
  .header "pool" :: (named "ma" ips).map (Host.line connection) ++ [.raw "\n", .raw "\n"]

/-- `localIp` is the address of the socket, if there is one.
mirrors libraries/utilities/generate_clusters_from_pool.py:342-364 -/
def webhookLines (connection : String) (localIp : Option String) : Inventory :=
  .header "webhook_ip" ::
    match localIp with
    | some ip => [.host "tf1" ip connection, .raw "\n"]
    | none => [.raw "\n\n"]

/-- The name uses `i`, which is unbound (and caught) when every role is empty. -/
def webhookIp (localIp : Option String) (lastI : Option Nat) : List Host :=
  match localIp, lastI with
  | some ip, some i => [⟨"wbhk" ++ toString (i + 1), ip⟩]
  | _, _ => []

def isMac (o : Options) : Bool := PyStr.contains (PyStr.lower o.sgPlatform) "macos"

def winrmLines : Inventory :=
  [.raw "ansible_user=FakeUser\n", .raw "ansible_password=FakePassword\n", .raw "ansible_port=5986\n",
    .raw "ansible_connection=winrm\n", .raw "ansible_winrm_server_cert_validation=ignore\n"]

def python3Line : Line := .raw "ansible_python_interpreter=/usr/bin/python3"

/-- mirrors libraries/utilities/generate_clusters_from_pool.py:366-406 -/
def environmentLines (o : Options) : Inventory :=
  [.header "environment", .raw "cbs_ssl_enabled=False\n", .raw "xattrs_enabled=False\n",
    .raw "sg_lb_enabled=False\n", .raw ("ipv6_enabled=" ++ pyBool o.ipv6 ++ "\n"),
    .raw ("x509_certs=" ++ pyBool o.x509Certs ++ "\n"), .raw "delta_sync_enabled=False\n",
    .raw "two_sg_cluster_lb_enabled=False\n"] ++
  (if isMac o then
    [.raw "\n\n", .header "sync_gateways:vars", .raw "ansible_user=MacOSFakeUser\n",
      .raw "ansible_password=MacOSFakePassword\n", .raw "ansible_sudo_pass=MacOSFakePassword\n"]
    else []) ++
  (if o.sgWindows then [.raw "\n\n", .header "sync_gateways:vars"] ++ winrmLines else []) ++
  (if o.sgAccelWindows then [.raw "\n\n", .header "sg_accels:vars"] ++ winrmLines else []) ++
  (if o.cbsPlatform = "centos8" then [.raw "\n\n", .header "couchbase_servers:vars", python3Line]
    else []) ++
  (if o.sgPlatform = "centos8" then [.raw "\n\n", .header "sync_gateways:vars", python3Line] else []) ++
  (if o.cbsPlatform = "centos8" ∧ o.sgPlatform = "centos8" then
    [.raw "\n\n", .header "pool:vars", python3Line] else [])

/-- The second `update` of the dictionary wins.
mirrors libraries/utilities/generate_clusters_from_pool.py:427-446 -/
def syncGatewayVars (o : Options) : Option (List (String × (String ⊕ Nat))) :=
  if isMac o then
    some [("ansible_user", .inl "MacOSFakeUser"), ("ansible_password", .inl "MacOSFakePassword")]
  else if o.sgWindows then
    some [("ansible_user", .inl "FakeUser"), ("ansible_password", .inl "FakePassword"),
      ("ansible_port", .inr 5986), ("ansible_connection", .inl "winrm"),
      ("ansible_winrm_server_cert_validation", .inl "ignore")]
  else none

/-! ## The function -/

inductive Outcome where
  | skipped
  | written
  | raised (x : Exn)
  deriving DecidableEq, Repr

def sizeMismatch : Exn :=
  .exception "Number of IPs in resources/pool:ips and ip_to_node_type do not match. Exiting ..."

def connectionString (o : Options) : String := if o.useDocker then "ansible_connection=docker" else ""

/-- The state in which the first role phase starts. -/
def initial (o : Options) (ips : List String) : St where
  lines := poolLines (connectionString o) ips
  ips := ips
  roles := fun _ => []
  lastI := none

/-- mirrors libraries/utilities/generate_clusters_from_pool.py:28-450 -/
def writeConfig (o : Options) (config : ClusterDef) (poolFile : PoolFile) (localIp : Option String)
    (fs : Files) : Files × Outcome :=
  match getHosts poolFile with
  | .error x => (fs, .raised x)
  | .ok (ips, ipToNodeType) =>
    if (ips.length : Int) < config.numMachinesRequired then (fs, .skipped)
    else if ipToNodeType.items ≠ [] ∧ ipToNodeType.items.length ≠ ips.length then
      (fs, .raised sizeMismatch)
    else
      match writeRoles config ipToNodeType (connectionString o) roles (initial o ips) with
      | (_, some .unlinked) => ({ fs with inventory := none }, .skipped)
      | (st, some (.raised x)) => ({ fs with inventory := some st.lines }, .raised x)
      | (st, none) =>
        ({ inventory := some (st.lines ++ webhookLines (connectionString o) localIp ++
             environmentLines o)
           json := some
             { hosts := named "host" ips
               roles := st.roles
               webhookIp := webhookIp localIp st.lastI
               ipv6Enabled := o.ipv6
               x509Certs := o.x509Certs
               syncGatewayVars := syncGatewayVars o } }, .written)

end MobileTestkit.L2.GenerateClusters
