import Mathlib.Algebra.GroupWithZero.Nat
import Mathlib.Algebra.Order.BigOperators.Group.List
import Mathlib.Algebra.Order.Group.Nat
import MobileTestkit.L2Cluster.UrlNodes

/-!
# Naming the nodes of a rebalance

Model of the `knownNodes` value that `CouchbaseServer.rebalance_in` posts
(keywords/couchbaseserver.py). The constructor (`hostOf` in L2Cluster.Topology) drops the
brackets of an IPv6 address before it cuts scheme and port off, the loop over the cluster's
URLs does not.

* `host_eq`, `loopName_eq`: what the two make of a URL.
* `knownNodes_eq`: the nodes that are named, in order.
* `names_once_iff`: every node is named once and in one notation, exactly if the server to
  add or all servers of the cluster have IPv4 addresses, and no address has a group that
  reads like the port.
-/
namespace MobileTestkit.L2.RebalanceIn

open MobileTestkit.Core
open MobileTestkit.L2.ClusterModels
open MobileTestkit.L2.UrlNodes

/-! ## keywords/couchbaseserver.py -/

/-- The value that is posted.
mirrors keywords/couchbaseserver.py:755-769 -/
def knownNodes (clusterServers : List String) (serverToAdd : String) : String :=
  let known := clusterServers.foldl
    (fun known server =>
      let server := stripUrl server
      if hostOf serverToAdd ≠ server then known ++ "ns_1@" ++ server ++ "," else known)
    "knownNodes="
  known ++ "ns_1@" ++ hostOf serverToAdd

/-! ## Servers -/

def IsV4 (ip : String) : Prop := IsAddress ip ∧ ':' ∉ ip.toList ∧ '.' ∈ ip.toList

instance (ip : String) : Decidable (IsV4 ip) := inferInstanceAs (Decidable (_ ∧ _ ∧ _))

/-- Groups with colons between them; an IPv4 address at the end begins with an octet. -/
def IsV6 (ip : String) : Prop := IsAddress ip ∧ ':' ∈ ip.toList ∧
  ('.' ∈ ip.toList → ∃ front octet rest, ip.toList = front ++ ':' :: (octet ++ '.' :: rest) ∧
    octet.length ≤ 3)

/-- A Couchbase Server, by its scheme and its address. -/
structure Server where
  scheme : Scheme
  ip : String
  isAddress : IsV4 ip ∨ IsV6 ip

def isIpv6 (ip : String) : Bool := decide (':' ∈ ip.toList)

/-- The port with its colon. -/
def portText : Scheme → String
  | .http => ":8091"
  | .https => ":18091"

namespace Server

theorem address (s : Server) : IsAddress s.ip := s.isAddress.elim And.left And.left

/-- The URL of the server in a topology. -/
def url (s : Server) : String := endpointUrl s.scheme (wrap (isIpv6 s.ip) s.ip) (portText s.scheme)

/-- What is left of the address when every text that reads like the port is deleted. -/
def cut (s : Server) : String :=
  String.ofList (PyStr.replaceList (portText s.scheme).toList [] 0 s.ip.toList)

end Server

/-- The texts behind the nodes, in a notation with brackets or without. -/
def notated (brackets : Bool) (ip : String) : String := wrap (brackets && isIpv6 ip) ip

theorem map_notated_false (ips : List String) : ips.map (notated false) = ips := by
  induction ips with
  | nil => rfl
  | cons ip ips ih => rw [List.map_cons, ih, notated, Bool.false_and, wrap, if_neg Bool.false_ne_true]

/-- The addresses of the cluster and of the server to add. -/
def nodeIps (servers : List Server) (add : Server) : List String :=
  if add.ip ∈ servers.map Server.ip then servers.map Server.ip else servers.map Server.ip ++ [add.ip]

/-- The value names every node once, all in one notation. -/
def NamesOnce (data : String) (servers : List Server) (add : Server) : Prop :=
  ∃ (brackets : Bool) (names : List String),
    data = "knownNodes=" ++ PyStr.join "," (names.map ("ns_1@" ++ ·)) ∧
      names.Perm ((nodeIps servers add).map (notated brackets))

/-! ## What is left of a URL -/

theorem portText_form (scheme : Scheme) :
    ∃ ds, (portText scheme).toList = ':' :: ds ∧ ':' ∉ ds ∧ '[' ∉ ds ∧ ']' ∉ ds ∧ '.' ∉ ds ∧ 4 ≤ ds.length := by
  cases scheme with
  | http => exact ⟨"8091".toList, by decide, by decide, by decide, by decide, by decide, by decide⟩
  | https => exact ⟨"18091".toList, by decide, by decide, by decide, by decide, by decide, by decide⟩

theorem portText_mem (scheme : Scheme) : portText scheme ∈ tails := by
  cases scheme <;> decide

theorem deletePortText_append (scheme : Scheme) (a : List Char) {b : List Char} (hb : Seam b) :
    PyStr.replaceList (portText scheme).toList [] 0 (a ++ b) =
      PyStr.replaceList (portText scheme).toList [] 0 a ++
        PyStr.replaceList (portText scheme).toList [] 0 b := by
  obtain ⟨ds, hds, hcolon, hleft, hright, -⟩ := portText_form scheme
  rw [hds]
  refine PyStr.deleteList_append a b fun x hx => ?_
  rcases hb x hx with rfl | rfl | rfl
  · exact hcolon
  · exact hleft
  · exact hright

/-- A URL whose host is written with what addresses are written with, and brackets. -/
theorem stripUrl_toList (scheme : Scheme) {host : String} (hslash : '/' ∉ host.toList) (hs : 's' ∉ host.toList) :
    (stripUrl (endpointUrl scheme host (portText scheme))).toList =
      PyStr.replaceList (portText scheme).toList [] 0 host.toList := by
  have htext : (endpointUrl scheme host (portText scheme)).toList =
      scheme.text.toList ++ ("://".toList ++ (host.toList ++ (portText scheme).toList)) := by
    simp [endpointUrl]
  have he : "".toList = [] := rfl
  have hrest : '/' ∉ host.toList ++ (portText scheme).toList := by
    rw [List.mem_append, not_or]
    exact ⟨hslash, by cases scheme <;> decide⟩
  have hport : PyStr.replaceList (portText scheme).toList [] 0 (host.toList ++ (portText scheme).toList) =
      PyStr.replaceList (portText scheme).toList [] 0 host.toList := by
    have hself : PyStr.replaceList (portText scheme).toList [] 0 (portText scheme).toList = [] := by
      cases scheme <;> decide
    rw [deletePortText_append scheme _ (seam_tail (portText_mem scheme)), hself, List.append_nil]
  unfold stripUrl
  cases scheme with
  | http =>
    have hno : PyStr.contains (endpointUrl .http host (portText .http)) "https" = false := by
      have hs' : 's' ∉ Scheme.http.text.toList ++ ("://".toList ++ (host.toList ++ (portText .http).toList)) := by
        simp [Scheme.text, portText, hs]
      rw [PyStr.contains, htext]
      exact PyStr.containsList_of_not_mem (by decide) _ hs'
    have hsplit : Scheme.http.text.toList ++ ("://".toList ++ (host.toList ++ (portText .http).toList)) =
        "http://".toList ++ (host.toList ++ (portText .http).toList) := rfl
    rw [hno, if_neg (by decide), PyStr.replace, PyStr.replace, String.toList_ofList, String.toList_ofList,
      htext, hsplit, he, PyStr.replaceList_append [] _ (by decide), List.nil_append,
      PyStr.replaceList_of_not_mem [] (by decide) _ hrest, String.toList_ofList]
    exact hport
  | https =>
    have hyes : PyStr.contains (endpointUrl .https host (portText .https)) "https" = true := by
      rw [PyStr.contains, htext]
      rfl
    have hsplit : Scheme.https.text.toList ++ ("://".toList ++ (host.toList ++ (portText .https).toList)) =
        "https://".toList ++ (host.toList ++ (portText .https).toList) := rfl
    rw [hyes, if_pos rfl, PyStr.replace, PyStr.replace, String.toList_ofList, String.toList_ofList,
      htext, hsplit, he, PyStr.replaceList_append [] _ (by decide), List.nil_append,
      PyStr.replaceList_of_not_mem [] (by decide) _ hrest, String.toList_ofList]
    exact hport

namespace Server

/-- The constructor's host. -/
theorem host_eq (s : Server) : hostOf s.url = s.cut := by
  have hurl : String.ofList (s.url.toList.filter fun ch => !(ch == '[' || ch == ']')) =
      endpointUrl s.scheme s.ip (portText s.scheme) := by
    apply String.toList_inj.mp
    have hscheme : deleteBrackets s.scheme.text.toList = s.scheme.text.toList := by
      cases s.scheme <;> decide
    have hport : deleteBrackets (portText s.scheme).toList = (portText s.scheme).toList := by
      cases s.scheme <;> decide
    have hsep : deleteBrackets "://".toList = "://".toList := by decide
    rw [String.toList_ofList, filter_brackets, url, endpointUrl_toList, restOf, deleteBrackets_append,
      deleteBrackets_append, deleteBrackets_append, deleteBrackets_wrap _ s.address, hscheme, hport, hsep]
    simp [endpointUrl]
  apply String.toList_inj.mp
  rw [hostOf, dropBrackets, hurl, stripUrl_toList _ (s.address.not_mem (by decide)) (s.address.not_mem (by decide)), cut,
    String.toList_ofList]

/-- What the loop makes of the URL: the brackets stay. -/
theorem loopName_eq (s : Server) : stripUrl s.url = wrap (isIpv6 s.ip) s.cut := by
  have hmem : ∀ {x : Char}, x ∉ addressChars → x ≠ '[' → x ≠ ']' → x ∉ (wrap (isIpv6 s.ip) s.ip).toList := by
    intro x hx hl hr hm
    rcases mem_wrap hm with hm | hm | hm
    · exact s.address.not_mem hx hm
    · exact hl hm
    · exact hr hm
  apply String.toList_inj.mp
  rw [url, stripUrl_toList _ (hmem (by decide) (by decide) (by decide))
    (hmem (by decide) (by decide) (by decide))]
  cases isIpv6 s.ip with
  | false => simp [wrap, cut]
  | true =>
    obtain ⟨ds, hds, -⟩ := portText_form s.scheme
    have hseam : Seam [']'] := by
      intro x hx
      exact .inr (.inr (by simpa using hx.symm))
    have hclose : PyStr.replaceList (portText s.scheme).toList [] 0 [']'] = [']'] := by
      cases s.scheme <;> decide
    have hopen : ∀ cs, PyStr.replaceList (portText s.scheme).toList [] 0 ('[' :: cs) =
        '[' :: PyStr.replaceList (portText s.scheme).toList [] 0 cs := by
      intro cs
      rw [hds]
      exact PyStr.replaceList_cons_of_ne ds [] (by decide) cs
    rw [wrap_true_toList, wrap_true_toList, hopen, deletePortText_append _ _ hseam, hclose, cut,
      String.toList_ofList]

/-- The address has a group that reads like the port. -/
def Clashes (s : Server) : Prop := PyStr.contains s.ip (portText s.scheme) = true

instance (s : Server) : Decidable s.Clashes := inferInstanceAs (Decidable (_ = true))

theorem cut_length_le (s : Server) : s.cut.toList.length ≤ s.ip.toList.length := by
  rw [cut, String.toList_ofList]
  exact PyStr.length_deleteList_le _ _ _

theorem cut_of_not_clashes {s : Server} (h : ¬ s.Clashes) : s.cut = s.ip := by
  rw [cut, PyStr.deleteList_of_not_contains _ _ (Bool.eq_false_iff.mpr h), String.ofList_toList]

theorem not_clashes_of_length {s : Server} (h : s.ip.toList.length ≤ s.cut.toList.length) : ¬ s.Clashes := by
  intro hc
  have hne : (portText s.scheme).toList ≠ [] := by
    cases s.scheme <;> decide
  have hlt := PyStr.length_deleteList_lt _ s.ip.toList hne hc
  rw [cut, String.toList_ofList] at h
  omega

theorem isIpv6_iff (s : Server) : isIpv6 s.ip = true ↔ IsV6 s.ip := by
  constructor
  · intro h
    exact s.isAddress.resolve_left fun h4 => h4.2.1 (by simpa [isIpv6] using h)
  · intro h
    simpa [isIpv6] using h.2.1

theorem not_clashes_of_v4 {s : Server} (h : isIpv6 s.ip = false) : ¬ s.Clashes := by
  have hcolon : ':' ∉ s.ip.toList := by simpa [isIpv6] using h
  obtain ⟨ds, hds, -⟩ := portText_form s.scheme
  have hmem : ':' ∈ (portText s.scheme).toList := by
    rw [hds]
    exact List.mem_cons_self
  rw [Clashes, PyStr.contains, PyStr.containsList_of_not_mem hmem _ hcolon]
  exact Bool.false_ne_true

theorem mem_cut {s : Server} {x : Char} (h : x ∈ s.cut.toList) : x ∈ s.ip.toList := by
  rw [cut, String.toList_ofList] at h
  exact PyStr.mem_of_mem_deleteList 0 _ h

theorem bracket_not_mem_cut (s : Server) : '[' ∉ s.cut.toList :=
  fun h => s.address.not_mem (by decide) (mem_cut h)

/-- What is left of an IPv6 address is no IPv4 address: the colon before an octet stays. -/
theorem cut_ne_v4 {s : Server} (h : isIpv6 s.ip = true) {ip : String} (hip : IsV4 ip) : s.cut ≠ ip := by
  intro heq
  have hdot : '.' ∈ s.ip.toList := mem_cut (heq ▸ hip.2.2)
  obtain ⟨front, octet, rest, hsplit, hlen⟩ := ((s.isIpv6_iff).mp h).2.2 hdot
  obtain ⟨ds, hds, -, -, -, hdsdot, hdslen⟩ := portText_form s.scheme
  have hseam : Seam (':' :: (octet ++ '.' :: rest)) := by
    intro x hx
    exact .inl (by simpa using hx.symm)
  have hkeep : PyStr.replaceList (portText s.scheme).toList [] 0 (':' :: (octet ++ '.' :: rest)) =
      ':' :: PyStr.replaceList (portText s.scheme).toList [] 0 (octet ++ '.' :: rest) := by
    have hno : ¬ (portText s.scheme).toList.isPrefixOf (':' :: (octet ++ '.' :: rest)) = true := by
      intro hp
      rw [hds] at hp
      have hp := (List.prefix_cons_inj ':').mp (List.isPrefixOf_iff_prefix.mp hp)
      -- the dot is one of the first four characters
      have hdot : octet ++ ['.'] <+: octet ++ '.' :: rest := by
        rw [List.prefix_append_right_inj]
        exact ⟨rest, rfl⟩
      have hin := List.prefix_of_prefix_length_le hdot hp (by simp; omega)
      exact hdsdot (hin.subset (by simp))
    rw [PyStr.replaceList, if_neg hno]
  have hcolon : ':' ∈ s.cut.toList := by
    rw [cut, String.toList_ofList, hsplit, deletePortText_append _ _ hseam, hkeep]
    simp
  exact hip.2.1 (heq ▸ hcolon)

end Server

/-! ## The names -/

/-- The names in the value: the server to add goes last. -/
def names (servers : List Server) (add : Server) : List String :=
  (servers.map fun s => stripUrl s.url).filter (fun name => decide (hostOf add.url ≠ name)) ++ [hostOf add.url]

theorem knownNodes_eq (servers : List Server) (add : Server) :
    knownNodes (servers.map Server.url) add.url =
      "knownNodes=" ++ PyStr.join "," ((names servers add).map ("ns_1@" ++ ·)) := by
  have key : ∀ known : String, ((servers.map Server.url).foldl
      (fun known server =>
        let server := stripUrl server
        if hostOf add.url ≠ server then known ++ "ns_1@" ++ server ++ "," else known) known) ++ "ns_1@" ++
        hostOf add.url = known ++ PyStr.join "," ((names servers add).map ("ns_1@" ++ ·)) := by
    induction servers with
    | nil =>
      intro known
      simp [names, PyStr.join, String.append_assoc]
    | cons s servers ih =>
      intro known
      rw [List.map_cons, List.foldl_cons, ih]
      by_cases hne : hostOf add.url ≠ stripUrl s.url
      · have hnames : names (s :: servers) add = stripUrl s.url :: names servers add := by
          simp [names, hne]
        obtain ⟨u, us, hu⟩ : ∃ u us, (names servers add).map ("ns_1@" ++ ·) = u :: us :=
          List.exists_cons_of_ne_nil (by simp [names])
        have hjoin : PyStr.join "," (("ns_1@" ++ stripUrl s.url) :: u :: us) =
            "ns_1@" ++ stripUrl s.url ++ "," ++ PyStr.join "," (u :: us) := rfl
        rw [if_pos hne, hnames, List.map_cons, hu, hjoin]
        simp only [String.append_assoc]
      · have hnames : names (s :: servers) add = names servers add := by
          simp [names, hne]
        rw [if_neg hne, hnames]
  exact key "knownNodes="

/-- A value is the list of its names in one way. -/
theorem join_names_inj {ns ns' : List String} (hne : ns ≠ []) (hne' : ns' ≠ [])
    (h : ∀ n ∈ ns, ',' ∉ n.toList) (h' : ∀ n ∈ ns', ',' ∉ n.toList)
    (heq : "knownNodes=" ++ PyStr.join "," (ns.map ("ns_1@" ++ ·)) =
      "knownNodes=" ++ PyStr.join "," (ns'.map ("ns_1@" ++ ·))) : ns = ns' := by
  have hsplit : ∀ l : List String, l ≠ [] → (∀ n ∈ l, ',' ∉ n.toList) →
      PyStr.split (PyStr.join "," (l.map ("ns_1@" ++ ·))) ',' = l.map ("ns_1@" ++ ·) := by
    intro l hl hcomma
    refine PyStr.split_join (by decide) (by simpa using hl) fun w hw => ?_
    obtain ⟨n, hn, rfl⟩ := List.mem_map.mp hw
    have hn := hcomma n hn
    simp [hn]
  have hinj : Function.Injective ("ns_1@" ++ · : String → String) :=
    fun a b hab => String.append_right_inj _ |>.mp hab
  have hjoin := String.append_right_inj _ |>.mp heq
  have hmap := hsplit ns hne h
  rw [hjoin, hsplit ns' hne' h'] at hmap
  exact (List.map_injective_iff.mpr hinj hmap).symm

theorem mem_name {s : Server} {x : Char} (h : x ∈ (stripUrl s.url).toList) :
    x ∈ s.ip.toList ∨ x = '[' ∨ x = ']' := by
  rw [s.loopName_eq] at h
  exact (mem_wrap h).imp Server.mem_cut id

theorem isAddress_nodeIps {servers : List Server} {add : Server} {ip : String} (h : ip ∈ nodeIps servers add) :
    IsAddress ip := by
  have hservers : ip ∈ servers.map Server.ip → IsAddress ip := by
    intro hm
    obtain ⟨s, -, rfl⟩ := List.mem_map.mp hm
    exact s.address
  unfold nodeIps at h
  split at h
  · exact hservers h
  · rcases List.mem_append.mp h with h | h
    · exact hservers h
    · rw [List.mem_singleton.mp h]
      exact add.address

theorem nodeIps_ne_nil (servers : List Server) (add : Server) : nodeIps servers add ≠ [] := by
  unfold nodeIps
  split
  · rename_i hmem
    exact List.ne_nil_of_mem hmem
  · simp

theorem comma_not_mem_notated {brackets : Bool} {ip : String} (h : IsAddress ip) :
    ',' ∉ (notated brackets ip).toList := by
  intro hcomma
  rcases mem_wrap hcomma with hm | hm | hm
  · exact h.not_mem (by decide) hm
  · exact absurd hm (by decide)
  · exact absurd hm (by decide)

theorem comma_not_mem_names {servers : List Server} {add : Server} {n : String} (h : n ∈ names servers add) :
    ',' ∉ n.toList := by
  intro hcomma
  rcases List.mem_append.mp h with hn | hn
  · obtain ⟨s, -, rfl⟩ := List.mem_map.mp (List.mem_of_mem_filter hn)
    rcases mem_name hcomma with hm | hm | hm
    · exact s.address.not_mem (by decide) hm
    · exact absurd hm (by decide)
    · exact absurd hm (by decide)
  · rw [List.mem_singleton.mp hn, add.host_eq] at hcomma
    exact add.address.not_mem (by decide) (Server.mem_cut hcomma)

theorem namesOnce_iff (servers : List Server) (add : Server) :
    NamesOnce (knownNodes (servers.map Server.url) add.url) servers add ↔
      ∃ brackets, (names servers add).Perm ((nodeIps servers add).map (notated brackets)) := by
  constructor
  · rintro ⟨brackets, ns, hdata, hperm⟩
    have hns : ∀ n ∈ ns, ',' ∉ n.toList := by
      intro n hn
      obtain ⟨ip, hip, rfl⟩ := List.mem_map.mp (hperm.subset hn)
      exact comma_not_mem_notated (isAddress_nodeIps hip)
    have hnil : ns ≠ [] := by
      rintro rfl
      exact nodeIps_ne_nil servers add (by simpa using hperm.symm)
    rw [knownNodes_eq] at hdata
    obtain rfl := join_names_inj (by simp [names]) hnil (fun _ => comma_not_mem_names) hns hdata
    exact ⟨brackets, hperm⟩
  · rintro ⟨brackets, hperm⟩
    exact ⟨brackets, _, knownNodes_eq servers add, hperm⟩

/-! ## A server to add with an IPv4 address -/

/-- The servers of the cluster that are not the one to add. -/
def others (servers : List Server) (add : Server) : List Server :=
  servers.filter fun s => decide (s.ip ≠ add.ip)

theorem isV4_of {s : Server} (h : isIpv6 s.ip = false) : IsV4 s.ip :=
  s.isAddress.resolve_right fun h6 => by simp [(s.isIpv6_iff).mpr h6] at h

theorem name_v4 {s : Server} (h : isIpv6 s.ip = false) : stripUrl s.url = s.ip := by
  rw [s.loopName_eq, h, Server.cut_of_not_clashes (Server.not_clashes_of_v4 h)]
  rfl

theorem bracket_mem_name {s : Server} (h : isIpv6 s.ip = true) : '[' ∈ (stripUrl s.url).toList := by
  rw [s.loopName_eq, h, wrap_true_toList]
  exact List.mem_cons_self

theorem names_v4 (servers : List Server) {add : Server} (h : isIpv6 add.ip = false) :
    names servers add = (others servers add).map (fun s => stripUrl s.url) ++ [add.ip] := by
  have hhost : hostOf add.url = add.ip := by
    rw [add.host_eq, Server.cut_of_not_clashes (Server.not_clashes_of_v4 h)]
  have hiff : ∀ s ∈ servers, add.ip ≠ stripUrl s.url ↔ s.ip ≠ add.ip := by
    intro s _
    cases hs : isIpv6 s.ip with
    | false => rw [name_v4 hs, ne_comm]
    | true =>
      refine iff_of_true (fun heq => ?_) fun heq => ?_
      · exact add.address.not_mem (by decide) (heq ▸ bracket_mem_name hs)
      · rw [heq, h] at hs
        cases hs
  have hfilter : servers.filter ((fun name => decide (add.ip ≠ name)) ∘ fun s => stripUrl s.url) =
      servers.filter fun s => decide (s.ip ≠ add.ip) :=
    List.filter_congr fun s hs => decide_eq_decide.mpr (hiff s hs)
  rw [names, hhost, List.filter_map, others, hfilter]

theorem nodeIps_perm {servers : List Server} (hd : (servers.map Server.ip).Nodup) (add : Server) :
    (nodeIps servers add).Perm ((others servers add).map Server.ip ++ [add.ip]) := by
  have hothers : (others servers add).map Server.ip = (servers.map Server.ip).filter (· != add.ip) := by
    rw [List.filter_map, others]
    congr 1
    refine List.filter_congr fun s _ => ?_
    by_cases hs : s.ip = add.ip <;> simp [hs]
  unfold nodeIps
  rw [hothers]
  split
  · rename_i hmem
    rw [← hd.erase_eq_filter]
    exact (List.perm_cons_erase hmem).trans (List.perm_append_singleton _ _).symm
  · rename_i hmem
    rw [List.filter_eq_self.mpr]
    intro ip hip
    simp only [bne_iff_ne]
    exact fun heq => hmem (heq ▸ hip)

theorem le_of_sum_le {α : Type} {f g : α → Nat} {l : List α} (hle : ∀ x ∈ l, f x ≤ g x)
    (hsum : (l.map g).sum ≤ (l.map f).sum) : ∀ x ∈ l, g x ≤ f x := by
  induction l with
  | nil => simp
  | cons a l ih =>
    have ha := hle a List.mem_cons_self
    have hrest : (l.map f).sum ≤ (l.map g).sum :=
      List.sum_le_sum fun x hx => hle x (List.mem_cons_of_mem _ hx)
    simp only [List.map_cons, List.sum_cons] at hsum
    exact List.forall_mem_cons.mpr
      ⟨by omega, ih (fun x hx => hle x (List.mem_cons_of_mem _ hx)) (by omega)⟩

theorem perm_others_iff {servers : List Server} (hd : (servers.map Server.ip).Nodup) {add : Server}
    (h : isIpv6 add.ip = false) (brackets : Bool) :
    (names servers add).Perm ((nodeIps servers add).map (notated brackets)) ↔
      ((others servers add).map fun s => stripUrl s.url).Perm
        ((others servers add).map fun s => notated brackets s.ip) := by
  have hadd : notated brackets add.ip = add.ip := by simp [notated, h, wrap]
  have hmap := (nodeIps_perm hd add).map (notated brackets)
  rw [List.map_append, List.map_singleton, hadd, List.map_map] at hmap
  have hshift : (names servers add).Perm ((nodeIps servers add).map (notated brackets)) ↔
      (names servers add).Perm ((others servers add).map (notated brackets ∘ Server.ip) ++ [add.ip]) :=
    ⟨fun hp => hp.trans hmap, fun hp => hp.trans hmap.symm⟩
  rw [hshift, names_v4 servers h, List.perm_append_right_iff]
  rfl

/-- A name in the loop has at most what the bracketed address has. -/
theorem length_stripUrl_le (s : Server) : (stripUrl s.url).toList.length ≤ (notated true s.ip).toList.length := by
  have hcut := s.cut_length_le
  rw [s.loopName_eq, notated, Bool.true_and]
  cases isIpv6 s.ip with
  | false => exact hcut
  | true =>
    rw [wrap_true_toList, wrap_true_toList]
    simpa using hcut

theorem mem_others {servers : List Server} {add s : Server} (hs : s ∈ add :: servers) (h6 : isIpv6 s.ip = true)
    (h : isIpv6 add.ip = false) : s ∈ others servers add := by
  have hne : s.ip ≠ add.ip := by
    intro heq
    rw [heq, h] at h6
    cases h6
  rcases List.mem_cons.mp hs with rfl | hs
  · exact absurd rfl hne
  · exact List.mem_filter.mpr ⟨hs, by simpa using hne⟩

theorem perm_v4_iff {servers : List Server} (hd : (servers.map Server.ip).Nodup) {add : Server}
    (h : isIpv6 add.ip = false) :
    (∃ brackets, (names servers add).Perm ((nodeIps servers add).map (notated brackets))) ↔
      ∀ s ∈ add :: servers, ¬ s.Clashes := by
  constructor
  · rintro ⟨brackets, hperm⟩ s hs
    rw [perm_others_iff hd h] at hperm
    cases h6 : isIpv6 s.ip with
    | false => exact Server.not_clashes_of_v4 h6
    | true =>
      have hother := mem_others hs h6 h
      cases brackets with
      | false =>
        -- the name has a bracket, and no node has one
        obtain ⟨s', -, heq⟩ := List.mem_map.mp (hperm.subset (List.mem_map_of_mem hother))
        have hbracket := bracket_mem_name h6
        rw [← heq] at hbracket
        exact absurd hbracket (s'.address.not_mem (by decide))
      | true =>
        have hsum := (hperm.map fun name => name.toList.length).sum_eq
        rw [List.map_map, List.map_map] at hsum
        have hge := le_of_sum_le (fun t _ => length_stripUrl_le t) (Nat.le_of_eq hsum.symm) s hother
        rw [s.loopName_eq, notated, Bool.true_and, h6, wrap_true_toList, wrap_true_toList] at hge
        exact Server.not_clashes_of_length (by simpa using hge)
  · intro hno
    refine ⟨true, (perm_others_iff hd h true).mpr (List.Perm.of_eq (List.map_congr_left fun s hs => ?_))⟩
    have hs := hno s (List.mem_cons_of_mem _ (List.mem_of_mem_filter hs))
    rw [s.loopName_eq, Server.cut_of_not_clashes hs, notated, Bool.true_and]

/-! ## A server to add with an IPv6 address -/

theorem names_v6 (servers : List Server) {add : Server} (h : isIpv6 add.ip = true) :
    names servers add = servers.map (fun s => stripUrl s.url) ++ [add.cut] := by
  rw [names, add.host_eq, List.filter_eq_self.mpr]
  intro name hname
  obtain ⟨s, -, rfl⟩ := List.mem_map.mp hname
  have hne : add.cut ≠ stripUrl s.url := by
    cases hs : isIpv6 s.ip with
    | false =>
      rw [name_v4 hs]
      exact Server.cut_ne_v4 h (isV4_of hs)
    | true => exact fun heq => add.bracket_not_mem_cut (heq ▸ bracket_mem_name hs)
  simpa using hne

/-- The name of the server to add has no brackets, so no node has any. -/
theorem plain_of_mem {servers : List Server} {add : Server} (h : isIpv6 add.ip = true) {brackets : Bool}
    (hcut : add.cut ∈ (servers.map Server.ip ++ [add.ip]).map (notated brackets)) : brackets = false := by
  obtain ⟨ip, hip, heq⟩ := List.mem_map.mp hcut
  cases brackets with
  | false => rfl
  | true =>
    exfalso
    cases h6 : isIpv6 ip with
    | true =>
      rw [notated, h6, Bool.true_and] at heq
      refine add.bracket_not_mem_cut (heq ▸ ?_)
      rw [wrap_true_toList]
      exact List.mem_cons_self
    | false =>
      have hv4 : IsV4 ip := by
        rcases List.mem_append.mp hip with hip | hip
        · obtain ⟨s, -, rfl⟩ := List.mem_map.mp hip
          exact isV4_of h6
        · rw [List.mem_singleton.mp hip, h] at h6
          cases h6
      rw [notated, h6, Bool.true_and] at heq
      exact Server.cut_ne_v4 h hv4 heq.symm

/-- A name that is an address has no brackets. -/
theorem v4_of_mem {servers : List Server} {add s : Server}
    (hs : stripUrl s.url ∈ servers.map Server.ip ++ [add.ip]) : isIpv6 s.ip = false := by
  cases h6 : isIpv6 s.ip with
  | false => rfl
  | true =>
    have haddr : IsAddress (stripUrl s.url) := by
      rcases List.mem_append.mp hs with hs | hs
      · obtain ⟨t, -, ht⟩ := List.mem_map.mp hs
        exact ht ▸ t.address
      · exact List.mem_singleton.mp hs ▸ add.address
    exact absurd (bracket_mem_name h6) (haddr.not_mem (by decide))

theorem names_of_v4 {servers : List Server} (hall : ∀ s ∈ servers, isIpv6 s.ip = false) :
    (servers.map fun s => stripUrl s.url) = servers.map Server.ip :=
  List.map_congr_left fun s hs => name_v4 (hall s hs)

theorem perm_v6_iff {servers : List Server} {add : Server} (h : isIpv6 add.ip = true) :
    (∃ brackets, (names servers add).Perm ((nodeIps servers add).map (notated brackets))) ↔
      (∀ s ∈ servers, isIpv6 s.ip = false) ∧ ¬ add.Clashes := by
  rw [names_v6 servers h]
  constructor
  · rintro ⟨brackets, hperm⟩
    have hnew : add.ip ∉ servers.map Server.ip := by
      intro hmem
      have hlen := hperm.length_eq
      simp [nodeIps, hmem] at hlen
    rw [nodeIps, if_neg hnew] at hperm
    obtain rfl := plain_of_mem h (hperm.subset (List.mem_append_right _ List.mem_cons_self))
    rw [map_notated_false] at hperm
    have hall : ∀ s ∈ servers, isIpv6 s.ip = false := by
      intro s hs
      have hname : stripUrl s.url ∈ servers.map fun s => stripUrl s.url := List.mem_map.mpr ⟨s, hs, rfl⟩
      exact v4_of_mem (hperm.subset (List.mem_append_left _ hname))
    refine ⟨hall, ?_⟩
    rw [names_of_v4 hall, List.perm_append_left_iff] at hperm
    have hcut : add.cut = add.ip := List.singleton_perm_singleton.mp hperm
    exact Server.not_clashes_of_length (by rw [hcut])
  · rintro ⟨hall, hno⟩
    have hnew : add.ip ∉ servers.map Server.ip := by
      intro hmem
      obtain ⟨s, hs, heq⟩ := List.mem_map.mp hmem
      rw [← heq, hall s hs] at h
      cases h
    refine ⟨false, ?_⟩
    rw [nodeIps, if_neg hnew, names_of_v4 hall, Server.cut_of_not_clashes hno, map_notated_false]

/-- Every node is named once, in one notation, exactly if no IPv6 server is to be added to
IPv6 servers, and no address has a group that reads like the port. -/
theorem names_once_iff {servers : List Server} (hd : (servers.map Server.ip).Nodup) (add : Server) :
    NamesOnce (knownNodes (servers.map Server.url) add.url) servers add ↔
      (isIpv6 add.ip = true → ∀ s ∈ servers, isIpv6 s.ip = false) ∧ ∀ s ∈ add :: servers, ¬ s.Clashes := by
  rw [namesOnce_iff]
  cases h : isIpv6 add.ip with
  | false =>
    rw [perm_v4_iff hd h]
    simp
  | true =>
    rw [perm_v6_iff h, List.forall_mem_cons]
    constructor
    · rintro ⟨hall, hno⟩
      exact ⟨fun _ => hall, hno, fun s hs => Server.not_clashes_of_v4 (hall s hs)⟩
    · rintro ⟨hall, hno, -⟩
      exact ⟨hall rfl, hno⟩

/-- A third node for two. -/
theorem names_once_third :
    let first : Server := ⟨.https, "10.0.0.1", .inl (by decide)⟩
    let second : Server := ⟨.https, "10.0.0.2", .inl (by decide)⟩
    let third : Server := ⟨.https, "10.0.0.3", .inl (by decide)⟩
    NamesOnce (knownNodes [first.url, second.url] third.url) [first, second] third := by
  intro first second third
  have hdistinct : ([first, second].map Server.ip).Nodup := by decide
  refine (names_once_iff hdistinct third).mpr ⟨fun h6 => ?_, by decide⟩
  exact absurd h6 (by decide)

theorem localIsV6 : IsV6 "2001:db8::1" := ⟨by decide, by decide, fun h => absurd h (by decide)⟩

/-- An IPv6 server that is in the cluster is named twice, with brackets and without. -/
theorem knownNodes_v6_twice :
    let server : Server := ⟨.http, "2001:db8::1", .inr localIsV6⟩
    knownNodes [server.url] server.url = "knownNodes=ns_1@[2001:db8::1],ns_1@2001:db8::1" ∧
      ¬ NamesOnce (knownNodes ([server].map Server.url) server.url) [server] server := by
  intro server
  have h : isIpv6 server.ip = true := by decide
  refine ⟨by decide, fun hnames => ?_⟩
  have h6 := (perm_v6_iff h).mp ((namesOnce_iff [server] server).mp hnames)
  have hserver := h6.1 server List.mem_cons_self
  rw [h] at hserver
  cases hserver

end MobileTestkit.L2.RebalanceIn
