import MobileTestkit.Core.JsonDoc
import MobileTestkit.L2Cluster.GenerateClusters

/-!
# The pool file of a reservation

Model of the `--reserve-nodes` branch of utilities/mobile_server_pool.py, which writes
the reserved nodes to resources/pool.json as a text put together by hand, and of the
reading of that file by `get_hosts` (libraries/utilities/generate_clusters_from_pool.py).

* `run_nodes`, `run_types`: what a reader of JSON has read after the nodes and after their
  types.
* `getHosts_poolJsonStr`: `get_hosts` reads the nodes, then the sync gateways, then the
  load balancers, and the types of all of them when sync gateways are given.
-/
namespace MobileTestkit.L2.PoolFile

open MobileTestkit.Core MobileTestkit.Core.JsonDoc MobileTestkit.L2.GenerateClusters

/-! ## Writing -/

/-- `s.rstrip(', ')` -/
def rstripComma (s : String) : String :=
  String.ofList (s.toList.reverse.dropWhile fun c => c == ',' || c == ' ').reverse

/-- `for node in nodes: s += '"\x7b\x7d", '.format(node)` -/
def addNodes (s : String) (nodes : List String) : String :=
  nodes.foldl (fun s node => s ++ ("\"" ++ node ++ "\", ")) s

/-- `for node in nodes: s += '"\x7b\x7d": "<node type>", '.format(node)` -/
def addTypes (nodeType : String) (s : String) (nodes : List String) : String :=
  nodes.foldl (fun s node => s ++ ("\"" ++ node ++ "\": \"" ++ nodeType ++ "\", ")) s

/-- The nodes of an option, when it is given and not empty. -/
def optionNodes (option : Option String) : Option (List String) :=
  match option with
  | none => none
  | some s => if s = "" then none else some (PyStr.split (String.ofList (PyStr.strip s.toList)) ',')

/-- `if opts.<option>:` around a loop over its nodes. -/
def ifGiven (nodes : Option (List String)) (add : String → List String → String) (s : String) : String :=
  match nodes with
  | none => s
  | some nodes => add s nodes

def typesOpen : String := "\"ip_to_node_type\": \x7b"

/-- The types of all nodes. -/
def addAllTypes (nodeList : List String) (loadBalancers : Option (List String)) (s : String)
    (sgwNodeList : List String) : String :=
  let s := addTypes "couchbase_servers" (s ++ typesOpen) nodeList
  let s := addTypes "sync_gateways" s sgwNodeList
  let s := ifGiven loadBalancers (addTypes "load_balancers") s
  rstripComma s ++ "\x7d,"

/-- The text written to resources/pool.json.
mirrors utilities/mobile_server_pool.py:337-365 -/
def poolJsonStr (nodeList : List String) (sgwNodes loadBalancerNodes : Option String) : String :=
  let sgw := optionNodes sgwNodes
  let loadBalancers := optionNodes loadBalancerNodes
  let s := addNodes "\x7b \"ips\": [" nodeList
  let s := ifGiven sgw addNodes s
  let s := ifGiven loadBalancers addNodes s
  let s := rstripComma s ++ "],"
  let s := ifGiven sgw (addAllTypes nodeList loadBalancers) s
  rstripComma s ++ "\x7d"

/-! ## Reading -/

def strings : List Doc → Option (List String)
  | [] => some []
  | .str s :: rest => (strings rest).map (s :: ·)
  | _ :: _ => none

def stringMembers : List (String × Doc) → Option (List (String × String))
  | [] => some []
  | (k, .str v) :: rest => (stringMembers rest).map ((k, v) :: ·)
  | _ :: _ => none

/-- The pool in a document. Pools whose ips or types are no strings are not among those
`write_config` is modelled for. -/
def poolOf : Doc → PoolFile
  | .obj members =>
    let poolDict := PyDict.ofList members
    match poolDict.get? "ips", poolDict.get? "ip_to_node_type" with
    | some (.arr items), none =>
      match strings items with
      | some ips => .pool ips PyDict.empty
      | none => .broken .poolFile
    | some (.arr items), some (.obj types) =>
      match strings items, stringMembers types with
      | some ips, some types => .pool ips (PyDict.ofList types)
      | _, _ => .broken .poolFile
    | _, _ => .broken .poolFile
  | _ => .broken .poolFile

/-- `json.loads(f.read())` and the look-ups of `get_hosts`. -/
def readPool (text : String) : PoolFile :=
  match loads docBuilder text.toList with
  | none => .broken .valueError
  | some poolDict => poolOf poolDict

/-! ## The text -/

def quoted (name : String) : List Char := '"' :: name.toList ++ ['"']

def typed (nodeType name : String) : List Char := quoted name ++ ':' :: ' ' :: quoted nodeType

/-- Words with a comma and a blank between them. -/
def commaSep : List (List Char) → List Char
  | [] => []
  | [w] => w
  | w :: v :: ws => w ++ ',' :: ' ' :: commaSep (v :: ws)

theorem flatMap_comma {ws : List (List Char)} (h : ws ≠ []) :
    ws.flatMap (· ++ [',', ' ']) = commaSep ws ++ [',', ' '] := by
  induction ws with
  | nil => exact absurd rfl h
  | cons w ws ih =>
    cases ws with
    | nil => simp [commaSep]
    | cons v ws =>
      rw [List.flatMap_cons, ih (by simp), commaSep]
      simp

/-- The last character is kept by `rstripComma`. -/
def Stops (cs : List Char) : Prop := ∃ init c, cs = init ++ [c] ∧ c ≠ ',' ∧ c ≠ ' '

theorem Stops.append {b : List Char} (h : Stops b) (a : List Char) : Stops (a ++ b) := by
  obtain ⟨init, c, rfl, hc⟩ := h
  exact ⟨a ++ init, c, by simp, hc⟩

theorem stops_quoted (name : String) : Stops (quoted name) :=
  ⟨'"' :: name.toList, '"', rfl, by decide, by decide⟩

theorem stops_typed (nodeType name : String) : Stops (typed nodeType name) :=
  Stops.append (Stops.append (stops_quoted nodeType) [':', ' ']) (quoted name)

theorem stops_commaSep {ws : List (List Char)} (hne : ws ≠ []) (hws : ∀ w ∈ ws, Stops w) :
    Stops (commaSep ws) := by
  induction ws with
  | nil => exact absurd rfl hne
  | cons w ws ih =>
    cases ws with
    | nil => exact hws w List.mem_cons_self
    | cons v ws =>
      have hrest := ih (by simp) fun u hu => hws u (List.mem_cons_of_mem _ hu)
      have hsep := hrest.append (w ++ [',', ' '])
      rw [commaSep]
      simpa using hsep

theorem rstripComma_append {s : String} {body junk : List Char} (hs : s.toList = body ++ junk)
    (hb : Stops body) (hj : ∀ c ∈ junk, c = ',' ∨ c = ' ') : (rstripComma s).toList = body := by
  obtain ⟨init, c, rfl, hc, hc'⟩ := hb
  rw [rstripComma, String.toList_ofList, hs, List.reverse_append,
    List.dropWhile_append_of_pos (fun d hd => by simpa using hj d (List.mem_reverse.mp hd))]
  simp [hc, hc']

/-- The words with a separator after each, and the last separator cut off. -/
theorem rstripComma_words {s : String} {x : List Char} {ws : List (List Char)}
    (hs : s.toList = x ++ ws.flatMap (· ++ [',', ' '])) (hx : Stops x) (hws : ∀ w ∈ ws, Stops w) :
    (rstripComma s).toList = x ++ commaSep ws := by
  by_cases hne : ws = []
  · subst hne
    have hnil : s.toList = x ++ [] := by simpa using hs
    simpa [commaSep] using rstripComma_append hnil hx (by simp)
  · rw [flatMap_comma hne, ← List.append_assoc] at hs
    exact rstripComma_append hs ((stops_commaSep hne hws).append x) (by simp)

theorem addNodes_toList (s : String) (nodes : List String) :
    (addNodes s nodes).toList = s.toList ++ (nodes.map quoted).flatMap (· ++ [',', ' ']) := by
  unfold addNodes
  induction nodes generalizing s with
  | nil => simp
  | cons n ns ih =>
    rw [List.foldl_cons, ih]
    simp [quoted]

theorem addTypes_toList (nodeType : String) (s : String) (nodes : List String) :
    (addTypes nodeType s nodes).toList
      = s.toList ++ (nodes.map (typed nodeType)).flatMap (· ++ [',', ' ']) := by
  unfold addTypes
  induction nodes generalizing s with
  | nil => simp
  | cons n ns ih =>
    rw [List.foldl_cons, ih]
    simp [typed, quoted]

def typedNodes (nodeList : List String) (sgw loadBalancers : List String) : List (String × String) :=
  nodeList.map (·, "couchbase_servers") ++ sgw.map (·, "sync_gateways")
    ++ loadBalancers.map (·, "load_balancers")

/-- The part with the types, as it stands in the text. -/
def typesText (nodeList : List String) (sgw loadBalancers : Option (List String)) : List Char :=
  match sgw with
  | none => []
  | some sgwNodeList =>
    ',' :: typesOpen.toList
      ++ commaSep ((typedNodes nodeList sgwNodeList (loadBalancers.getD [])).map fun kv =>
        typed kv.2 kv.1)
      ++ ['\x7d']

theorem stops_last {a : List Char} {c : Char} (h : c ≠ ',') (h' : c ≠ ' ') : Stops (a ++ [c]) :=
  ⟨a, c, rfl, h, h'⟩

theorem ifGiven_toList {add : String → List String → String} {word : String → List Char}
    (hadd : ∀ s nodes, (add s nodes).toList
      = s.toList ++ (nodes.map word).flatMap (· ++ [',', ' ']))
    (nodes : Option (List String)) (s : String) :
    (ifGiven nodes add s).toList
      = s.toList ++ ((nodes.getD []).map word).flatMap (· ++ [',', ' ']) := by
  cases nodes with
  | none => simp [ifGiven]
  | some nodes => exact hadd s nodes

theorem addAllTypes_toList (nodeList : List String) (loadBalancers : Option (List String))
    (s : String) (sgwNodeList : List String) :
    (addAllTypes nodeList loadBalancers s sgwNodeList).toList
      = s.toList ++ typesOpen.toList
        ++ commaSep ((typedNodes nodeList sgwNodeList (loadBalancers.getD [])).map fun kv =>
          typed kv.2 kv.1)
        ++ ['\x7d', ','] := by
  have hstart : Stops (s.toList ++ typesOpen.toList) :=
    Stops.append ⟨"\"ip_to_node_type\": ".toList, '\x7b', rfl, by decide, by decide⟩ s.toList
  have hws : ∀ w ∈ (typedNodes nodeList sgwNodeList (loadBalancers.getD [])).map fun kv =>
      typed kv.2 kv.1, Stops w := by
    intro w hw
    obtain ⟨kv, -, rfl⟩ := List.mem_map.mp hw
    exact stops_typed kv.2 kv.1
  unfold addAllTypes
  rw [String.toList_append, rstripComma_words ?_ hstart hws]
  · rfl
  · rw [ifGiven_toList (addTypes_toList "load_balancers"), addTypes_toList, addTypes_toList,
      String.toList_append]
    simp [typedNodes, Function.comp_def]

theorem ifGiven_addAllTypes (nodeList : List String) (sgw loadBalancers : Option (List String))
    (t : String) :
    (rstripComma (ifGiven sgw (addAllTypes nodeList loadBalancers) (t ++ "],"))).toList
      = t.toList ++ "]".toList ++ typesText nodeList sgw loadBalancers := by
  have hlist : (t ++ "],").toList = (t.toList ++ "]".toList) ++ [','] := by simp
  cases sgw with
  | none =>
    rw [ifGiven, typesText, List.append_nil]
    exact rstripComma_append hlist (stops_last (by decide) (by decide)) (by simp)
  | some sgwNodeList =>
    have htext := addAllTypes_toList nodeList loadBalancers (t ++ "],") sgwNodeList
    rw [List.append_cons] at htext
    rw [ifGiven, rstripComma_append htext (stops_last (by decide) (by decide)) (by simp), hlist,
      typesText]
    simp

theorem poolJsonStr_toList (nodeList : List String) (sgwNodes loadBalancerNodes : Option String) :
    (poolJsonStr nodeList sgwNodes loadBalancerNodes).toList
      = "\x7b \"ips\": [".toList
        ++ commaSep ((nodeList ++ (optionNodes sgwNodes).getD []
            ++ (optionNodes loadBalancerNodes).getD []).map quoted)
        ++ "]".toList
        ++ typesText nodeList (optionNodes sgwNodes) (optionNodes loadBalancerNodes)
        ++ "\x7d".toList := by
  unfold poolJsonStr
  generalize optionNodes sgwNodes = sgw
  generalize optionNodes loadBalancerNodes = loadBalancers
  have hstart : Stops "\x7b \"ips\": [".toList :=
    ⟨"\x7b \"ips\": ".toList, '[', rfl, by decide, by decide⟩
  have hws : ∀ w ∈ (nodeList ++ sgw.getD [] ++ loadBalancers.getD []).map quoted, Stops w := by
    intro w hw
    obtain ⟨n, -, rfl⟩ := List.mem_map.mp hw
    exact stops_quoted n
  have hips : (rstripComma (ifGiven loadBalancers addNodes
      (ifGiven sgw addNodes (addNodes "\x7b \"ips\": [" nodeList)))).toList
      = "\x7b \"ips\": [".toList
        ++ commaSep ((nodeList ++ sgw.getD [] ++ loadBalancers.getD []).map quoted) := by
    refine rstripComma_words ?_ hstart hws
    rw [ifGiven_toList addNodes_toList, ifGiven_toList addNodes_toList, addNodes_toList]
    simp
  simp only [String.toList_append]
  rw [ifGiven_addAllTypes, hips]

/-! ## What is read back -/

/-- A name that needs no escape in a JSON string. -/
def CleanName (name : String) : Prop := name ≠ "" ∧ name.toList.all plain = true

theorem CleanName.plain {name : String} (h : CleanName name) : ∀ c ∈ name.toList, plain c = true :=
  List.all_eq_true.mp h.2

theorem run_quoted {name : String} (h : ∀ c ∈ name.toList, plain c = true) {m : Mode Doc}
    {fs : List (Frame String Doc)} (hw : (⟨.between, m, fs⟩ : St String Doc).wantsString = true)
    (cs : List Char) :
    run docBuilder ⟨.between, m, fs⟩ (quoted name ++ cs)
      = (feedString docBuilder name.toList ⟨.between, m, fs⟩).bind fun st => run docBuilder st cs := by
  rw [run_append, quoted, run_literal docBuilder h hw]

/-- The nodes of an open array, and its end. -/
theorem run_nodes {names : List String} (h : ∀ n ∈ names, CleanName n) (done : List Doc)
    (m : Mode Doc) (hm : m = .value ∧ names ≠ [] ∨ m = .item) (fs : List (Frame String Doc))
    (cs : List Char) :
    run docBuilder ⟨.between, m, .arr done :: fs⟩ (commaSep (names.map quoted) ++ ']' :: cs)
      = run docBuilder ⟨.between, .after (.arr (done ++ names.map .str)), fs⟩ cs := by
  induction names generalizing done m with
  | nil =>
    rcases hm with ⟨-, hne⟩ | rfl
    · exact absurd rfl hne
    · simp [commaSep]
      rfl
  | cons n ns ih =>
    have hn := (h n List.mem_cons_self).plain
    have hw : (⟨.between, m, .arr done :: fs⟩ : St String Doc).wantsString = true := by
      rcases hm with ⟨rfl, -⟩ | rfl <;> rfl
    have hfeed : feedString docBuilder n.toList ⟨.between, m, .arr done :: fs⟩
        = some ⟨.between, .after (.str n), .arr done :: fs⟩ := by
      rcases hm with ⟨rfl, -⟩ | rfl <;> simp [feedString, docBuilder]
    cases ns with
    | nil =>
      rw [List.map_cons, List.map_nil, commaSep, run_quoted hn hw, hfeed]
      rfl
    | cons k ks =>
      rw [List.map_cons, List.map_cons, commaSep, List.append_assoc, run_quoted hn hw, hfeed]
      have hrest := ih (fun x hx => h x (List.mem_cons_of_mem _ hx)) (done ++ [.str n]) .value
        (.inl ⟨rfl, by simp⟩)
      rw [List.map_cons, List.append_assoc] at hrest
      exact hrest

/-- The members of an open object, and its end. -/
theorem run_types {kvs : List (String × String)}
    (h : ∀ kv ∈ kvs, (∀ c ∈ kv.1.toList, plain c = true) ∧ ∀ c ∈ kv.2.toList, plain c = true)
    (done : List (String × Doc)) (m : Mode Doc) (hm : m = .key ∧ kvs ≠ [] ∨ m = .firstKey)
    (fs : List (Frame String Doc)) (cs : List Char) :
    run docBuilder ⟨.between, m, .obj done :: fs⟩
        (commaSep (kvs.map fun kv => typed kv.2 kv.1) ++ '\x7d' :: cs)
      = run docBuilder ⟨.between, .after (.obj (done ++ kvs.map fun kv => (kv.1, .str kv.2))), fs⟩ cs := by
  induction kvs generalizing done m with
  | nil =>
    rcases hm with ⟨-, hne⟩ | rfl
    · exact absurd rfl hne
    · simp [commaSep]
      rfl
  | cons kv kvs ih =>
    obtain ⟨hk, hv⟩ := h kv List.mem_cons_self
    have hw : (⟨.between, m, .obj done :: fs⟩ : St String Doc).wantsString = true := by
      rcases hm with ⟨rfl, -⟩ | rfl <;> rfl
    have hkey : feedString docBuilder kv.1.toList ⟨.between, m, .obj done :: fs⟩
        = some ⟨.between, .colon, .member done kv.1 :: fs⟩ := by
      rcases hm with ⟨rfl, -⟩ | rfl <;> simp [feedString, docBuilder]
    have hval : feedString docBuilder kv.2.toList
        ⟨.between, .value, .member done kv.1 :: fs⟩
        = some ⟨.between, .after (.str kv.2), .member done kv.1 :: fs⟩ := by
      simp [feedString, docBuilder]
    have hmember : ∀ cs, run docBuilder ⟨.between, m, .obj done :: fs⟩ (typed kv.2 kv.1 ++ cs)
        = run docBuilder ⟨.between, .after (.str kv.2), .member done kv.1 :: fs⟩ cs := by
      intro cs
      rw [typed, List.append_assoc, run_quoted hk hw, hkey]
      have hcolon : run docBuilder ⟨.between, .value, .member done kv.1 :: fs⟩ (quoted kv.2 ++ cs)
          = run docBuilder ⟨.between, .after (.str kv.2), .member done kv.1 :: fs⟩ cs := by
        rw [run_quoted hv rfl, hval]
        rfl
      exact hcolon
    cases kvs with
    | nil =>
      rw [List.map_cons, List.map_nil, commaSep, hmember]
      rfl
    | cons kv' kvs =>
      rw [List.map_cons, List.map_cons, commaSep, List.append_assoc, hmember]
      have hrest := ih (fun x hx => h x (List.mem_cons_of_mem _ hx)) (done ++ [(kv.1, .str kv.2)]) .key
        (.inl ⟨rfl, by simp⟩)
      rw [List.map_cons, List.append_assoc] at hrest
      exact hrest

/-! ## The options -/

/-- A name that can stand in a comma-separated option. -/
def OptionName (name : String) : Prop :=
  CleanName name ∧ ',' ∉ name.toList ∧ PyStr.Trimmed name.toList

theorem head?_join (names : List String) {n : String} (hn : n.toList ≠ []) :
    (PyStr.join "," (n :: names)).toList.head? = n.toList.head? := by
  cases names with
  | nil => rfl
  | cons k ks =>
    rw [PyStr.toList_join_cons, List.append_assoc, List.head?_append_of_ne_nil _ hn]

theorem join_ne_nil {names : List String} {n : String} (hn : n.toList ≠ []) :
    (PyStr.join "," (n :: names)).toList ≠ [] := by
  intro he
  have hhead := head?_join names hn
  rw [he] at hhead
  exact hn (List.head?_eq_none_iff.mp hhead.symm)

theorem OptionName.ne_nil {name : String} (h : OptionName name) : name.toList ≠ [] :=
  fun he => h.1.1 (String.toList_eq_nil_iff.mp he)

theorem trimmed_join {names : List String} (hne : names ≠ []) (h : ∀ n ∈ names, OptionName n) :
    PyStr.Trimmed (PyStr.join "," names).toList := by
  induction names with
  | nil => exact absurd rfl hne
  | cons n ns ih =>
    have hn := (h n List.mem_cons_self).2.2
    constructor
    · rw [head?_join ns (h n List.mem_cons_self).ne_nil]
      exact hn.1
    · cases ns with
      | nil => exact hn.2
      | cons k ks =>
        have hrest := ih (by simp) fun x hx => h x (List.mem_cons_of_mem _ hx)
        rw [PyStr.toList_join_cons,
          List.getLast?_append_of_ne_nil _ (join_ne_nil (h k (by simp)).ne_nil)]
        exact hrest.2

theorem optionNodes_join {names : List String} (hne : names ≠ []) (h : ∀ n ∈ names, OptionName n) :
    optionNodes (some (PyStr.join "," names)) = some names := by
  have hsome : PyStr.join "," names ≠ "" := by
    cases names with
    | nil => exact absurd rfl hne
    | cons n ns =>
      intro he
      exact join_ne_nil (h n List.mem_cons_self).ne_nil (String.toList_eq_nil_iff.mpr he)
  rw [optionNodes, if_neg hsome, (trimmed_join hne h).strip, String.ofList_toList,
    PyStr.split_join rfl hne fun n hn => (h n hn).2.1]

/-! ## The file as a whole -/

/-- The members of the written object. -/
def poolMembers (ips : List String) (types : Option (List (String × String))) : List (String × Doc) :=
  ("ips", .arr (ips.map .str)) ::
    match types with
    | none => []
    | some types => [("ip_to_node_type", .obj (types.map fun kv => (kv.1, .str kv.2)))]

theorem run_ipsOpen (cs : List Char) :
    run docBuilder initial ("\x7b \"ips\": [".toList ++ cs)
      = run docBuilder ⟨.between, .item, [.arr [], .member [] "ips"]⟩ cs :=
  run_append_of docBuilder rfl cs

theorem run_typesOpen (v : Doc) (cs : List Char) :
    run docBuilder ⟨.between, .after v, [.member [] "ips"]⟩ (',' :: typesOpen.toList ++ cs)
      = run docBuilder ⟨.between, .firstKey, [.obj [], .member [("ips", v)] "ip_to_node_type"]⟩ cs :=
  run_append_of docBuilder rfl cs

theorem mem_typedNodes {nodeList sgw loadBalancers : List String} {kv : String × String}
    (h : kv ∈ typedNodes nodeList sgw loadBalancers) :
    kv.1 ∈ nodeList ++ sgw ++ loadBalancers ∧ ∀ c ∈ kv.2.toList, plain c = true := by
  have hall : ["couchbase_servers", "sync_gateways", "load_balancers"].all
      (fun t => t.toList.all plain) = true := by
    decide
  have htypes : ∀ t ∈ ["couchbase_servers", "sync_gateways", "load_balancers"],
      ∀ c ∈ t.toList, plain c = true :=
    fun t ht => List.all_eq_true.mp (List.all_eq_true.mp hall t ht)
  simp only [typedNodes, List.mem_append, List.mem_map] at h
  rcases h with (⟨n, hn, rfl⟩ | ⟨n, hn, rfl⟩) | ⟨n, hn, rfl⟩
  · exact ⟨by simp [hn], htypes _ (by simp)⟩
  · exact ⟨by simp [hn], htypes _ (by simp)⟩
  · exact ⟨by simp [hn], htypes _ (by simp)⟩

/-- The text is a JSON object of the ips and, when sync gateways are given, of the types. -/
theorem loads_poolJsonStr {nodeList : List String} {sgwNodes loadBalancerNodes : Option String}
    (h : ∀ n ∈ nodeList ++ (optionNodes sgwNodes).getD [] ++ (optionNodes loadBalancerNodes).getD [],
      CleanName n) :
    loads docBuilder (poolJsonStr nodeList sgwNodes loadBalancerNodes).toList
      = some (.obj (poolMembers
          (nodeList ++ (optionNodes sgwNodes).getD [] ++ (optionNodes loadBalancerNodes).getD [])
          ((optionNodes sgwNodes).map fun sgw =>
            typedNodes nodeList sgw ((optionNodes loadBalancerNodes).getD [])))) := by
  rw [loads, poolJsonStr_toList]
  generalize optionNodes sgwNodes = sgw at h ⊢
  generalize optionNodes loadBalancerNodes = lb at h ⊢
  generalize hips : nodeList ++ sgw.getD [] ++ lb.getD [] = ips at h ⊢
  have hnodes := run_nodes h [] .item (.inr rfl) [.member [] "ips"]
    (typesText nodeList sgw lb ++ "\x7d".toList)
  have htext : "\x7b \"ips\": [".toList ++ commaSep (ips.map quoted) ++ "]".toList
      ++ typesText nodeList sgw lb ++ "\x7d".toList
      = "\x7b \"ips\": [".toList ++ (commaSep (ips.map quoted)
        ++ ']' :: (typesText nodeList sgw lb ++ "\x7d".toList)) := by
    simp
  rw [htext, run_ipsOpen, hnodes]
  cases sgw with
  | none => rfl
  | some sgw =>
    have hclean : ∀ kv ∈ typedNodes nodeList sgw (lb.getD []),
        (∀ c ∈ kv.1.toList, plain c = true) ∧ ∀ c ∈ kv.2.toList, plain c = true := by
      intro kv hkv
      obtain ⟨hmem, hv⟩ := mem_typedNodes hkv
      exact ⟨(h kv.1 (hips ▸ hmem)).plain, hv⟩
    have htypes := run_types hclean [] .firstKey (.inr rfl)
      [.member [("ips", .arr (ips.map .str))] "ip_to_node_type"] "\x7d".toList
    have htext' : typesText nodeList (some sgw) lb ++ "\x7d".toList
        = ',' :: typesOpen.toList ++ (commaSep ((typedNodes nodeList sgw (lb.getD [])).map fun kv =>
          typed kv.2 kv.1) ++ '\x7d' :: "\x7d".toList) := by
      simp [typesText]
    rw [htext', List.nil_append, run_typesOpen, htypes]
    rfl

theorem strings_map (l : List String) : strings (l.map .str) = some l := by
  induction l with
  | nil => rfl
  | cons x l ih => simp [strings, ih]

theorem stringMembers_map (l : List (String × String)) :
    stringMembers (l.map fun kv => (kv.1, .str kv.2)) = some l := by
  induction l with
  | nil => rfl
  | cons x l ih => simp [stringMembers, ih]

theorem keys_typedNodes (nodeList sgw loadBalancers : List String) :
    (typedNodes nodeList sgw loadBalancers).map Prod.fst = nodeList ++ sgw ++ loadBalancers := by
  simp [typedNodes, Function.comp_def]

theorem poolOf_ips (ips : List String) : poolOf (.obj (poolMembers ips none)) = .pool ips PyDict.empty := by
  have hips : (PyDict.ofList (poolMembers ips none)).get? "ips" = some (.arr (ips.map .str)) := rfl
  have htypes : (PyDict.ofList (poolMembers ips none)).get? "ip_to_node_type" = none := rfl
  rw [poolOf]
  simp only [hips, htypes, strings_map]

theorem poolOf_types (ips : List String) (types : List (String × String)) :
    poolOf (.obj (poolMembers ips (some types))) = .pool ips (PyDict.ofList types) := by
  have hips : (PyDict.ofList (poolMembers ips (some types))).get? "ips" = some (.arr (ips.map .str)) :=
    rfl
  have htypes : (PyDict.ofList (poolMembers ips (some types))).get? "ip_to_node_type"
      = some (.obj (types.map fun kv => (kv.1, .str kv.2))) := rfl
  rw [poolOf]
  simp only [hips, htypes, strings_map, stringMembers_map]

/-- `get_hosts` reads the reserved nodes, the sync gateways and the load balancers, in
this order, and with sync gateways the type of each. -/
theorem getHosts_poolJsonStr (nodeList : List String) (sgw loadBalancers : Option (List String))
    (hsgw : ∀ l ∈ sgw, l ≠ []) (hlb : ∀ l ∈ loadBalancers, l ≠ [])
    (hnodes : ∀ n ∈ nodeList, CleanName n)
    (hoptions : ∀ n ∈ sgw.getD [] ++ loadBalancers.getD [], OptionName n)
    (hdistinct : (nodeList ++ sgw.getD [] ++ loadBalancers.getD []).Nodup) :
    ∃ doc types,
      loads docBuilder (poolJsonStr nodeList (sgw.map (PyStr.join ","))
        (loadBalancers.map (PyStr.join ","))).toList = some doc ∧
      getHosts (readPool (poolJsonStr nodeList (sgw.map (PyStr.join ","))
        (loadBalancers.map (PyStr.join ","))))
        = .ok (nodeList ++ sgw.getD [] ++ loadBalancers.getD [], types) ∧
      ∀ sgwNodes, sgw = some sgwNodes →
        types.items = nodeList.map (·, "couchbase_servers") ++ sgwNodes.map (·, "sync_gateways")
          ++ (loadBalancers.getD []).map (·, "load_balancers") := by
  have hoption : ∀ o : Option (List String), (∀ l ∈ o, l ≠ []) → (∀ n ∈ o.getD [], OptionName n) →
      optionNodes (o.map (PyStr.join ",")) = o := by
    intro o hne hnames
    cases o with
    | none => rfl
    | some l => exact optionNodes_join (hne l rfl) hnames
  have hs := hoption sgw hsgw fun n hn => hoptions n (List.mem_append_left _ hn)
  have hl := hoption loadBalancers hlb fun n hn => hoptions n (List.mem_append_right _ hn)
  have hclean : ∀ n ∈ nodeList ++ sgw.getD [] ++ loadBalancers.getD [], CleanName n := by
    intro n hn
    rw [List.append_assoc] at hn
    rcases List.mem_append.mp hn with hn | hn
    · exact hnodes n hn
    · exact (hoptions n hn).1
  have hloads : loads docBuilder (poolJsonStr nodeList (sgw.map (PyStr.join ","))
      (loadBalancers.map (PyStr.join ","))).toList
      = some (.obj (poolMembers (nodeList ++ sgw.getD [] ++ loadBalancers.getD [])
          (sgw.map fun sgw => typedNodes nodeList sgw (loadBalancers.getD [])))) := by
    rw [loads_poolJsonStr (by rw [hs, hl]; exact hclean), hs, hl]
  cases sgw with
  | none =>
    refine ⟨_, PyDict.empty, hloads, ?_, fun _ he => by cases he⟩
    rw [readPool, hloads]
    simp only [Option.map_none, poolOf_ips, getHosts]
    rw [if_pos hdistinct]
  | some sgwNodes =>
    refine ⟨_, PyDict.ofList (typedNodes nodeList sgwNodes (loadBalancers.getD [])), hloads, ?_, ?_⟩
    · rw [readPool, hloads]
      simp only [Option.map_some, poolOf_types, getHosts]
      rw [if_pos hdistinct]
    · intro l he
      rw [PyDict.items_ofList _ (by rw [keys_typedNodes]; exact hdistinct), Option.some.inj he]
      rfl

/-- Two nodes, a sync gateway and two load balancers. -/
theorem getHosts_fiveNodes :
    ∃ doc types,
      loads docBuilder (poolJsonStr ["10.1.1.1", "node, b"] (some "sg-1") (some "lb-1,lb 2")).toList
        = some doc ∧
      getHosts (readPool (poolJsonStr ["10.1.1.1", "node, b"] (some "sg-1") (some "lb-1,lb 2")))
        = .ok (["10.1.1.1", "node, b", "sg-1", "lb-1", "lb 2"], types) ∧
      ∀ sgwNodes, some ["sg-1"] = some sgwNodes →
        types.items = ["10.1.1.1", "node, b"].map (·, "couchbase_servers")
          ++ sgwNodes.map (·, "sync_gateways") ++ ["lb-1", "lb 2"].map (·, "load_balancers") :=
  getHosts_poolJsonStr ["10.1.1.1", "node, b"] (some ["sg-1"]) (some ["lb-1", "lb 2"])
    (by simp) (by simp) (by simp [CleanName]; decide) (by simp [OptionName, CleanName, PyStr.Trimmed]; decide)
    (by decide)

end MobileTestkit.L2.PoolFile
