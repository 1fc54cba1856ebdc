import Mathlib.Data.List.Forall2
import MobileTestkit.L2Cluster.TopologyAgree

/-!
# From a URL back to its node

Model of `host_for_url`, `hostname_for_url` and `ip_from_url` (keywords/utils.py),
which undo the URLs of `ClusterKeywords.get_cluster_topology`: two of them by
deleting the schemes, the ports and the brackets wherever they stand, one by
cutting at the last colon.

* `stripPorts_endpointUrl`: what is left of a URL is the address with every port
  text deleted from it, and `:18091`, which is no port the two functions know.
* `hostForUrl_lb_iff`: a load balancer URL has no port, so the last colon is one
  of the address, if there is one.
* `urls_map_back_iff`: every URL of a topology leads back to its node exactly
  when there is no server behind SSL, no load balancer with an IPv6 address and
  no address with a group that reads like a port.
-/
namespace MobileTestkit.L2.UrlNodes

open MobileTestkit.Core
open MobileTestkit.L2.ClusterModels

/-! ## keywords/utils.py -/

/-- mirrors keywords/utils.py:89-103 -/
def hostForUrl (url : String) : String :=
  let host :=
    if PyStr.contains url "https" then PyStr.replace url "https://" ""
    else PyStr.replace url "http://" ""
  let host := PyStr.rsplitHead host ':'
  -- `re.sub(r'[\[\]]', '', host)`
  String.ofList (host.toList.filter fun ch => !(ch == '[' || ch == ']'))

/-- `strip possible ports`, the seven replacements of `hostname_for_url` and of
`ip_from_url`. -/
def stripPorts (url : String) : String :=
  let url := PyStr.replace url "http://" ""
  let url := PyStr.replace url "https://" ""
  let url := PyStr.replace url ":4984" ""
  let url := PyStr.replace url ":4985" ""
  let url := PyStr.replace url ":8091" ""
  let url := PyStr.replace url "[" ""
  PyStr.replace url "]" ""

/-- The nodes `hostname_for_url` looks through, in its order. -/
def endpoints (c : ClusterJson) : List Node :=
  c.sgAccels ++ c.syncGateways ++ c.couchbaseServers ++ c.loadBalancers

structure ValueError where
  msg : String
  deriving DecidableEq, Repr

/-- `c` is what `<cluster_config>.json` holds.
mirrors keywords/utils.py:107-136 -/
def hostnameForUrl (clusterConfig : String) (c : ClusterJson) (url : String) :
    Except ValueError String :=
  let url := stripPorts url
  match (endpoints c).find? fun endpoint => endpoint.ip == url with
  | some endpoint => .ok endpoint.name
  | none => .error
      ⟨"Could not find name for url: " ++ url ++ " in cluster_config: " ++ clusterConfig ++ ".json"⟩

/-- mirrors keywords/utils.py:139-149 -/
def ipFromUrl (url : String) : String := stripPorts url

/-! ## Addresses and URLs -/

/-- What IPv4 and IPv6 addresses are written with. -/
def addressChars : List Char := "0123456789abcdefABCDEF.:".toList

def IsAddress (ip : String) : Prop := ∀ ch ∈ ip.toList, ch ∈ addressChars

instance (ip : String) : Decidable (IsAddress ip) := List.decidableBAll (· ∈ addressChars) ip.toList

theorem IsAddress.not_mem {ip : String} (h : IsAddress ip) {x : Char} (hx : x ∉ addressChars) :
    x ∉ ip.toList := fun hm => hx (h x hm)

/-- What follows the host in a URL of a topology. -/
def tails : List String := ["", ":4984", ":4985", ":8091", ":18091"]

def endpointUrl (scheme : Scheme) (host tail : String) : String :=
  scheme.text ++ "://" ++ host ++ tail

theorem url_eq (scheme : Scheme) (host port : String) :
    url scheme host port = endpointUrl scheme host (":" ++ port) := by
  simp [url, endpointUrl, String.append_assoc]

/-- The host and the tail, the characters behind the scheme. -/
def restOf (ipv6 : Bool) (ip tail : String) : List Char := (wrap ipv6 ip).toList ++ tail.toList

theorem endpointUrl_toList (scheme : Scheme) (ipv6 : Bool) (ip tail : String) :
    (endpointUrl scheme (wrap ipv6 ip) tail).toList =
      scheme.text.toList ++ ("://".toList ++ restOf ipv6 ip tail) := by
  simp [endpointUrl, restOf]

theorem mem_wrap {ipv6 : Bool} {ip : String} {x : Char} (h : x ∈ (wrap ipv6 ip).toList) :
    x ∈ ip.toList ∨ x = '[' ∨ x = ']' := by
  cases ipv6 with
  | false => exact .inl h
  | true =>
    simp only [wrap, if_true, String.toList_append, List.mem_append] at h
    rcases h with (h | h) | h
    · exact .inr (.inl (by simpa using h))
    · exact .inl h
    · exact .inr (.inr (by simpa using h))

theorem not_mem_restOf {ipv6 : Bool} {ip tail : String} {x : Char} (hip : IsAddress ip)
    (ht : tail ∈ tails) (hx : x ∉ addressChars) (hl : x ≠ '[') (hr : x ≠ ']') :
    x ∉ restOf ipv6 ip tail := by
  intro hm
  rcases List.mem_append.mp hm with hm | hm
  · rcases mem_wrap hm with hm | hm | hm
    · exact hip.not_mem hx hm
    · exact hl hm
    · exact hr hm
  · have htail : ∀ t ∈ tails, IsAddress t := by decide
    exact hx (htail tail ht x hm)

/-! ## Deleting the ports -/

def deletePort (port : String) (cs : List Char) : List Char := PyStr.replaceList port.toList [] 0 cs

/-- The port texts that are deleted, in order. -/
def portTexts : List String := [":4984", ":4985", ":8091"]

def deletePorts (cs : List Char) : List Char :=
  deletePort ":8091" (deletePort ":4985" (deletePort ":4984" cs))

theorem portTexts_form {port : String} (h : port ∈ portTexts) :
    ∃ ds, port.toList = ':' :: ds ∧ ':' ∉ ds ∧ '[' ∉ ds ∧ ']' ∉ ds := by
  simp only [portTexts, List.mem_cons, List.not_mem_nil, or_false] at h
  rcases h with rfl | rfl | rfl
  · exact ⟨"4984".toList, by decide, by decide, by decide, by decide⟩
  · exact ⟨"4985".toList, by decide, by decide, by decide, by decide⟩
  · exact ⟨"8091".toList, by decide, by decide, by decide, by decide⟩

/-- A text that begins with a colon or a bracket, or is empty: no port text
reaches into it from the left. -/
def Seam (b : List Char) : Prop := ∀ x, b.head? = some x → x = ':' ∨ x = '[' ∨ x = ']'

theorem deletePort_append {port : String} (hp : port ∈ portTexts) (a : List Char) {b : List Char}
    (hb : Seam b) : deletePort port (a ++ b) = deletePort port a ++ deletePort port b := by
  obtain ⟨ds, he, h1, h2, h3⟩ := portTexts_form hp
  unfold deletePort
  rw [he]
  refine PyStr.deleteList_append a b fun x hx => ?_
  rcases hb x hx with rfl | rfl | rfl
  · exact h1
  · exact h2
  · exact h3

theorem deletePort_bracket {port : String} (hp : port ∈ portTexts) {c : Char} (hc : c ≠ ':')
    (cs : List Char) : deletePort port (c :: cs) = c :: deletePort port cs := by
  obtain ⟨ds, he, -⟩ := portTexts_form hp
  unfold deletePort
  rw [he]
  exact PyStr.replaceList_cons_of_ne ds [] (Ne.symm hc) cs

theorem length_deletePort_le (port : String) (cs : List Char) :
    (deletePort port cs).length ≤ cs.length := PyStr.length_deleteList_le _ _ _

/-- A port text in the address is lost, and the address with it. -/
theorem deletePorts_eq_self_iff (cs : List Char) :
    deletePorts cs = cs ↔ ∀ port ∈ portTexts, PyStr.containsList port.toList cs = false := by
  constructor
  · intro h
    have hlen := congrArg List.length h
    have hkeep : ∀ (port : String) (ds : List Char), port.toList ≠ [] →
        ds.length ≤ (deletePort port ds).length → PyStr.containsList port.toList ds = false := by
      intro port ds hne hle
      refine Bool.eq_false_iff.mpr fun hc => ?_
      have hlt := PyStr.length_deleteList_lt port.toList ds hne hc
      unfold deletePort at hle
      omega
    have h1 := length_deletePort_le ":4984" cs
    have h2 := length_deletePort_le ":4985" (deletePort ":4984" cs)
    have h3 := length_deletePort_le ":8091" (deletePort ":4985" (deletePort ":4984" cs))
    unfold deletePorts at hlen
    have hc1 := hkeep ":4984" cs (by decide) (by omega)
    have he1 : deletePort ":4984" cs = cs := PyStr.deleteList_of_not_contains _ _ hc1
    rw [he1] at hlen h2 h3
    have hc2 := hkeep ":4985" cs (by decide) (by omega)
    have he2 : deletePort ":4985" cs = cs := PyStr.deleteList_of_not_contains _ _ hc2
    rw [he2] at hlen h3
    have hc3 := hkeep ":8091" cs (by decide) (by omega)
    intro port hp
    simp only [portTexts, List.mem_cons, List.not_mem_nil, or_false] at hp
    rcases hp with rfl | rfl | rfl
    · exact hc1
    · exact hc2
    · exact hc3
  · intro h
    have hkeep : ∀ port ∈ portTexts, deletePort port cs = cs :=
      fun port hp => PyStr.deleteList_of_not_contains _ _ (h port hp)
    unfold deletePorts
    rw [hkeep ":4984" (by decide), hkeep ":4985" (by decide), hkeep ":8091" (by decide)]

theorem seam_tail {tail : String} (ht : tail ∈ tails) : Seam tail.toList := by
  simp only [tails, List.mem_cons, List.not_mem_nil, or_false] at ht
  rcases ht with rfl | rfl | rfl | rfl | rfl <;> intro x hx <;> simp at hx <;> simp [← hx]

theorem seam_deletePort {port : String} {b : List Char} (hb : Seam b) (h : deletePort port b = b ∨
    deletePort port b = []) : Seam (deletePort port b) := by
  rcases h with h | h
  · rw [h]
    exact hb
  · rw [h]
    intro x hx
    cases hx

/-- The ports of a tail: each replacement leaves it or deletes all of it. -/
theorem deletePorts_append_tail (a : List Char) {tail : String} (ht : tail ∈ tails) :
    deletePorts (a ++ tail.toList) = deletePorts a ++ deletePorts tail.toList := by
  have hstep : ∀ t ∈ tails, (deletePort ":4984" t.toList = t.toList ∨ deletePort ":4984" t.toList = []) ∧
      (deletePort ":4985" (deletePort ":4984" t.toList) = deletePort ":4984" t.toList ∨
        deletePort ":4985" (deletePort ":4984" t.toList) = []) := by decide
  obtain ⟨h1, h2⟩ := hstep tail ht
  have hs := seam_tail ht
  have hs1 := seam_deletePort hs h1
  have hs2 := seam_deletePort hs1 h2
  unfold deletePorts
  rw [deletePort_append (by decide) _ hs, deletePort_append (by decide) _ hs1,
    deletePort_append (by decide) _ hs2]

theorem deletePort_bracketed {port : String} (hp : port ∈ portTexts) (cs : List Char) :
    deletePort port ('[' :: (cs ++ [']'])) = '[' :: (deletePort port cs ++ [']']) := by
  have hseam : Seam [']'] := by
    intro x hx
    exact .inr (.inr (by simpa using hx.symm))
  rw [deletePort_bracket hp (by decide), deletePort_append hp _ hseam,
    deletePort_bracket hp (by decide)]
  rfl

theorem wrap_true_toList (ip : String) : (wrap true ip).toList = '[' :: (ip.toList ++ [']']) := by
  simp [wrap]

theorem deletePorts_bracketed (cs : List Char) :
    deletePorts ('[' :: (cs ++ [']'])) = '[' :: (deletePorts cs ++ [']']) := by
  unfold deletePorts
  rw [deletePort_bracketed (by decide), deletePort_bracketed (by decide),
    deletePort_bracketed (by decide)]

theorem mem_deletePorts {x : Char} {cs : List Char} (h : x ∈ deletePorts cs) : x ∈ cs :=
  PyStr.mem_of_mem_deleteList 0 _
    (PyStr.mem_of_mem_deleteList 0 _ (PyStr.mem_of_mem_deleteList 0 _ h))

/-! ## Deleting the schemes and the brackets -/

theorem deleteSchemes (scheme : Scheme) {rest : List Char} (h : '/' ∉ rest) :
    PyStr.replaceList "https://".toList [] 0
      (PyStr.replaceList "http://".toList [] 0 (scheme.text.toList ++ ("://".toList ++ rest))) =
      rest := by
  have hs : PyStr.replaceList "https://".toList [] 0 rest = rest :=
    PyStr.replaceList_of_not_mem [] (by decide) rest h
  have hh : PyStr.replaceList "http://".toList [] 0 rest = rest :=
    PyStr.replaceList_of_not_mem [] (by decide) rest h
  cases scheme with
  | http =>
    have he : Scheme.http.text.toList ++ ("://".toList ++ rest) = "http://".toList ++ rest := rfl
    rw [he, PyStr.replaceList_append [] rest (by decide), hh]
    exact hs
  | https =>
    have he : Scheme.https.text.toList ++ ("://".toList ++ rest) = "https://".toList ++ rest := rfl
    have hkeep : PyStr.replaceList "http://".toList [] 0 ("https://".toList ++ rest) =
        "https://".toList ++ PyStr.replaceList "http://".toList [] 0 rest := by
      simp [PyStr.replaceList]
    rw [he, hkeep, hh, PyStr.replaceList_append [] rest (by decide)]
    exact hs

def deleteBrackets (cs : List Char) : List Char := (cs.filter (· ≠ '[')).filter (· ≠ ']')

theorem filter_brackets (cs : List Char) :
    (cs.filter fun ch => !(ch == '[' || ch == ']')) = deleteBrackets cs := by
  unfold deleteBrackets
  rw [List.filter_filter]
  refine List.filter_congr fun ch _ => ?_
  by_cases hl : ch = '[' <;> by_cases hr : ch = ']' <;> simp [hl, hr]

theorem deleteBrackets_append (a b : List Char) :
    deleteBrackets (a ++ b) = deleteBrackets a ++ deleteBrackets b := by
  simp [deleteBrackets]

theorem deleteBrackets_of_not_mem {cs : List Char} (hl : '[' ∉ cs) (hr : ']' ∉ cs) :
    deleteBrackets cs = cs := by
  unfold deleteBrackets
  rw [List.filter_eq_self.mpr, List.filter_eq_self.mpr]
  · intro x hx
    have : x ≠ '[' := fun he => hl (he ▸ hx)
    simpa using this
  · intro x hx
    have hx := (List.mem_filter.mp hx).1
    have : x ≠ ']' := fun he => hr (he ▸ hx)
    simpa using this

theorem stripPorts_toList (u : String) : (stripPorts u).toList =
    deleteBrackets (deletePorts (PyStr.replaceList "https://".toList [] 0
      (PyStr.replaceList "http://".toList [] 0 u.toList))) := by
  have he : "".toList = [] := rfl
  have hl : "[".toList = ['['] := rfl
  have hr : "]".toList = [']'] := rfl
  simp only [stripPorts, PyStr.replace, String.toList_ofList, he, hl, hr, PyStr.deleteList_singleton]
  rfl

/-- Only the known ports go; what else goes is taken from the address. -/
theorem stripPorts_endpointUrl (scheme : Scheme) (ipv6 : Bool) {ip tail : String}
    (hip : IsAddress ip) (ht : tail ∈ tails) :
    (stripPorts (endpointUrl scheme (wrap ipv6 ip) tail)).toList =
      deletePorts ip.toList ++ deletePorts tail.toList := by
  have htext := endpointUrl_toList scheme ipv6 ip tail
  have hslash : '/' ∉ restOf ipv6 ip tail :=
    not_mem_restOf hip ht (by decide) (by decide) (by decide)
  have htail : deleteBrackets (deletePorts tail.toList) = deletePorts tail.toList :=
    (by decide : ∀ t ∈ tails, deleteBrackets (deletePorts t.toList) = deletePorts t.toList) tail ht
  have hipp : deleteBrackets (deletePorts ip.toList) = deletePorts ip.toList :=
    deleteBrackets_of_not_mem (fun h => hip.not_mem (by decide) (mem_deletePorts h))
      fun h => hip.not_mem (by decide) (mem_deletePorts h)
  rw [stripPorts_toList, htext, deleteSchemes scheme hslash, restOf, deletePorts_append_tail _ ht,
    deleteBrackets_append, htail]
  refine congrArg (· ++ deletePorts tail.toList) ?_
  cases ipv6 with
  | false => exact hipp
  | true =>
    have hsplit : '[' :: (deletePorts ip.toList ++ [']']) = ['['] ++ (deletePorts ip.toList ++ [']']) :=
      rfl
    rw [wrap_true_toList, deletePorts_bracketed, hsplit, deleteBrackets_append,
      deleteBrackets_append, hipp]
    simp [deleteBrackets]

theorem deleteBrackets_wrap (ipv6 : Bool) {ip : String} (hip : IsAddress ip) :
    deleteBrackets (wrap ipv6 ip).toList = ip.toList := by
  have hipp : deleteBrackets ip.toList = ip.toList :=
    deleteBrackets_of_not_mem (hip.not_mem (by decide)) (hip.not_mem (by decide))
  cases ipv6 with
  | false => exact hipp
  | true =>
    rw [wrap_true_toList, ← List.singleton_append, deleteBrackets_append, deleteBrackets_append, hipp]
    simp [deleteBrackets]

theorem hostForUrl_endpointUrl (scheme : Scheme) (ipv6 : Bool) {ip tail : String}
    (hip : IsAddress ip) (ht : tail ∈ tails) :
    (hostForUrl (endpointUrl scheme (wrap ipv6 ip) tail)).toList =
      deleteBrackets (PyStr.rsplitHeadList ':' (restOf ipv6 ip tail)) := by
  have htext := endpointUrl_toList scheme ipv6 ip tail
  have hslash : '/' ∉ restOf ipv6 ip tail :=
    not_mem_restOf hip ht (by decide) (by decide) (by decide)
  have he : "".toList = [] := rfl
  unfold hostForUrl
  simp only [PyStr.rsplitHead, String.toList_ofList, filter_brackets]
  refine congrArg (fun cs => deleteBrackets (PyStr.rsplitHeadList ':' cs)) ?_
  cases scheme with
  | http =>
    have hs : 's' ∉ Scheme.http.text.toList ++ ("://".toList ++ restOf ipv6 ip tail) := by
      have hrest : 's' ∉ restOf ipv6 ip tail :=
        not_mem_restOf hip ht (by decide) (by decide) (by decide)
      simp [Scheme.text, hrest]
    have hno : PyStr.contains (endpointUrl .http (wrap ipv6 ip) tail) "https" = false := by
      rw [PyStr.contains, htext]
      exact PyStr.containsList_of_not_mem (by decide) _ hs
    have hsplit : Scheme.http.text.toList ++ ("://".toList ++ restOf ipv6 ip tail) =
        "http://".toList ++ restOf ipv6 ip tail := rfl
    rw [hno, if_neg (by decide), PyStr.replace, String.toList_ofList, htext, hsplit, he,
      PyStr.replaceList_append [] _ (by decide), List.nil_append]
    exact PyStr.replaceList_of_not_mem [] (by decide) _ hslash
  | https =>
    have hyes : PyStr.contains (endpointUrl .https (wrap ipv6 ip) tail) "https" = true := by
      rw [PyStr.contains, htext]
      rfl
    have hsplit : Scheme.https.text.toList ++ ("://".toList ++ restOf ipv6 ip tail) =
        "https://".toList ++ restOf ipv6 ip tail := rfl
    rw [hyes, if_pos rfl, PyStr.replace, String.toList_ofList, htext, hsplit, he,
      PyStr.replaceList_append [] _ (by decide), List.nil_append]
    exact PyStr.replaceList_of_not_mem [] (by decide) _ hslash

/-- With a port the last colon is the one before it. -/
theorem hostForUrl_port (scheme : Scheme) (ipv6 : Bool) {ip tail : String} (hip : IsAddress ip)
    (ht : tail ∈ tails) (hne : tail ≠ "") :
    hostForUrl (endpointUrl scheme (wrap ipv6 ip) tail) = ip := by
  have hform : ∃ ds, tail.toList = ':' :: ds ∧ ':' ∉ ds := by
    simp only [tails, List.mem_cons, List.not_mem_nil, or_false] at ht
    rcases ht with rfl | rfl | rfl | rfl | rfl
    · exact absurd rfl hne
    · exact ⟨"4984".toList, by decide, by decide⟩
    · exact ⟨"4985".toList, by decide, by decide⟩
    · exact ⟨"8091".toList, by decide, by decide⟩
    · exact ⟨"18091".toList, by decide, by decide⟩
  obtain ⟨ds, hds, hno⟩ := hform
  apply String.toList_inj.mp
  rw [hostForUrl_endpointUrl scheme ipv6 hip ht, restOf, hds, PyStr.rsplitHeadList_append _ hno,
    deleteBrackets_wrap ipv6 hip]

/-- Without a port the last colon is one of the address. -/
theorem hostForUrl_lb_iff (ipv6 : Bool) {ip : String} (hip : IsAddress ip) :
    hostForUrl (endpointUrl .http (wrap ipv6 ip) "") = ip ↔ ':' ∉ ip.toList := by
  have hrest : restOf ipv6 ip "" = (wrap ipv6 ip).toList := by simp [restOf]
  rw [← String.toList_inj, hostForUrl_endpointUrl .http ipv6 hip (by decide), hrest]
  have hmem : ':' ∈ (wrap ipv6 ip).toList ↔ ':' ∈ ip.toList := by
    cases ipv6 with
    | false => exact Iff.rfl
    | true => simp [wrap]
  constructor
  · intro h hc
    obtain ⟨a, b, hab, hno⟩ := PyStr.exists_last (hmem.mpr hc)
    have hwrap := deleteBrackets_wrap ipv6 hip
    rw [hab, PyStr.rsplitHeadList_append _ hno, ← hwrap, hab, ← List.singleton_append,
      deleteBrackets_append, deleteBrackets_append] at h
    have hlen := congrArg List.length h
    have hone : (deleteBrackets [':']).length = 1 := by decide
    simp only [List.length_append, hone] at hlen
    omega
  · intro h
    rw [PyStr.rsplitHeadList, if_neg (fun hc => h (hmem.mp hc)), deleteBrackets_wrap ipv6 hip]

/-! ## The way back -/

/-- No group of the address reads like one of the ports that are deleted. -/
def NoPortText (ip : String) : Prop :=
  ∀ port ∈ portTexts, PyStr.contains ip port = false

instance (ip : String) : Decidable (NoPortText ip) :=
  inferInstanceAs (Decidable (∀ port ∈ portTexts, PyStr.contains ip port = false))

/-- Behind an address the server port for SSL stays: an address that ended in it
and lost as much elsewhere would be shorter than itself. -/
theorem deletePorts_append_ssl_ne (cs : List Char) :
    deletePorts cs ++ ":18091".toList ≠ cs := by
  intro h
  have hshort : (deletePorts cs).length < cs.length := by
    have hlen := congrArg List.length h
    have hsix : (":18091".toList).length = 6 := by decide
    rw [List.length_append, hsix] at hlen
    omega
  have hstep : deletePorts (deletePorts cs) ++ ":18091".toList = deletePorts cs := by
    have hport : deletePorts ":18091".toList = ":18091".toList := by decide
    have htail : ":18091" ∈ tails := by decide
    have happ := deletePorts_append_tail (deletePorts cs) htail
    rw [h, hport] at happ
    exact happ.symm
  exact deletePorts_append_ssl_ne (deletePorts cs) hstep
termination_by cs.length
decreasing_by exact hshort

theorem ipFromUrl_iff (scheme : Scheme) (ipv6 : Bool) {ip tail : String} (hip : IsAddress ip)
    (ht : tail ∈ tails) : ipFromUrl (endpointUrl scheme (wrap ipv6 ip) tail) = ip ↔
      tail ≠ ":18091" ∧ NoPortText ip := by
  unfold ipFromUrl
  rw [← String.toList_inj, stripPorts_endpointUrl scheme ipv6 hip ht]
  by_cases hssl : tail = ":18091"
  · subst hssl
    have hport : deletePorts ":18091".toList = ":18091".toList := by decide
    rw [hport]
    exact ⟨fun h => absurd h (deletePorts_append_ssl_ne _), fun h => absurd rfl h.1⟩
  · have hgone : deletePorts tail.toList = [] :=
      (by decide : ∀ t ∈ tails, t ≠ ":18091" → deletePorts t.toList = []) tail ht hssl
    rw [hgone, List.append_nil, deletePorts_eq_self_iff]
    exact ⟨fun h => ⟨hssl, h⟩, fun h => h.2⟩

/-- A URL leads back to the node it was built from. -/
structure MapsBack (clusterConfig : String) (c : ClusterJson) (u : String) (n : Node) : Prop where
  hostname : hostnameForUrl clusterConfig c u = .ok n.name
  host : hostForUrl u = n.ip
  ip : ipFromUrl u = n.ip

/-- Every URL of a topology leads back to the node at its place. -/
structure AllMapBack (clusterConfig : String) (c : ClusterJson) (t : Topology) : Prop where
  syncGateways : List.Forall₂ (fun u n => MapsBack clusterConfig c u.publicUrl n ∧
    MapsBack clusterConfig c u.adminUrl n) t.syncGateways c.syncGateways
  sgAccels : List.Forall₂ (MapsBack clusterConfig c) t.sgAccels c.sgAccels
  couchbaseServers : List.Forall₂ (MapsBack clusterConfig c) t.couchbaseServers c.couchbaseServers
  loadBalancers : List.Forall₂ (MapsBack clusterConfig c) t.loadBalancers c.loadBalancers

theorem find?_ip {nodes : List Node} (hd : (nodes.map Node.ip).Nodup) {n : Node} (hn : n ∈ nodes) :
    (nodes.find? fun m => m.ip == n.ip) = some n := by
  induction nodes with
  | nil => cases hn
  | cons m nodes ih =>
    rw [List.map_cons, List.nodup_cons] at hd
    rcases List.mem_cons.mp hn with rfl | hn
    · simp
    · have hne : m.ip ≠ n.ip := fun he => hd.1 (he ▸ List.mem_map_of_mem hn)
      simp [hne, ih hd.2 hn]

section Back

variable {clusterConfig : String} {c : ClusterJson} (hd : ((endpoints c).map Node.ip).Nodup)
  {n : Node} (hn : n ∈ endpoints c)
include hd hn

/-- The name follows from the ip, and the ip is found from the same text. -/
theorem mapsBack_iff (u : String) :
    MapsBack clusterConfig c u n ↔ hostForUrl u = n.ip ∧ ipFromUrl u = n.ip := by
  refine ⟨fun h => ⟨h.host, h.ip⟩, fun h => ⟨?_, h.1, h.2⟩⟩
  have hip : stripPorts u = n.ip := h.2
  unfold hostnameForUrl
  simp only [hip, find?_ip hd hn]

variable (hip : IsAddress n.ip)
include hip

theorem mapsBack_url_iff (scheme : Scheme) (ipv6 : Bool) {port : String}
    (hp : ":" ++ port ∈ tails) (hne : ":" ++ port ≠ "") :
    MapsBack clusterConfig c (url scheme (wrap ipv6 n.ip) port) n ↔
      ":" ++ port ≠ ":18091" ∧ NoPortText n.ip := by
  rw [mapsBack_iff hd hn, url_eq, hostForUrl_port scheme ipv6 hip hp hne,
    ipFromUrl_iff scheme ipv6 hip hp]
  exact ⟨fun h => h.2, fun h => ⟨rfl, h⟩⟩

theorem mapsBack_sgUrl_iff (scheme : Scheme) (ipv6 : Bool) :
    (MapsBack clusterConfig c (sgUrl scheme (wrap ipv6 n.ip)).publicUrl n ∧
      MapsBack clusterConfig c (sgUrl scheme (wrap ipv6 n.ip)).adminUrl n) ↔ NoPortText n.ip := by
  unfold sgUrl
  rw [mapsBack_url_iff hd hn hip scheme ipv6 (by decide) (by decide),
    mapsBack_url_iff hd hn hip scheme ipv6 (by decide) (by decide)]
  exact ⟨fun h => h.1.2, fun h => ⟨⟨by decide, h⟩, by decide, h⟩⟩

theorem mapsBack_serverUrl_iff (cbsSsl ipv6 : Bool) :
    MapsBack clusterConfig c (serverUrl cbsSsl (wrap ipv6 n.ip)) n ↔
      cbsSsl = false ∧ NoPortText n.ip := by
  cases cbsSsl with
  | false =>
    rw [serverUrl, if_neg (by decide), if_neg (by decide),
      mapsBack_url_iff hd hn hip .http ipv6 (by decide) (by decide)]
    exact ⟨fun h => ⟨rfl, h.2⟩, fun h => ⟨by decide, h.2⟩⟩
  | true =>
    rw [serverUrl, if_pos rfl, if_pos rfl,
      mapsBack_url_iff hd hn hip .https ipv6 (by decide) (by decide)]
    exact ⟨fun h => absurd rfl h.1, fun h => absurd h.1 (by decide)⟩

theorem mapsBack_lb_iff (ipv6 : Bool) :
    MapsBack clusterConfig c ("http://" ++ wrap ipv6 n.ip) n ↔ ':' ∉ n.ip.toList := by
  have hu : "http://" ++ wrap ipv6 n.ip = endpointUrl .http (wrap ipv6 n.ip) "" := by
    simp [endpointUrl, Scheme.text]
  rw [mapsBack_iff hd hn, hu, hostForUrl_lb_iff ipv6 hip, ipFromUrl_iff .http ipv6 hip (by decide)]
  refine ⟨fun h => h.1, fun h => ⟨h, by decide, fun port hp => ?_⟩⟩
  obtain ⟨ds, he, -⟩ := portTexts_form hp
  exact PyStr.containsList_of_not_mem (he ▸ List.mem_cons_self) _ h

end Back

theorem forall₂_map_iff {α : Type} {R : α → Node → Prop} (f : Node → α) (nodes : List Node)
    {p : Node → Prop} (h : ∀ n ∈ nodes, (R (f n) n ↔ p n)) :
    List.Forall₂ R (nodes.map f) nodes ↔ ∀ n ∈ nodes, p n := by
  rw [List.forall₂_map_left_iff, List.forall₂_same]
  exact ⟨fun hr n hn => (h n hn).mp (hr n hn), fun hp n hn => (h n hn).mpr (hp n hn)⟩

/-- With `lb_enable=False` the gateways are asked for themselves. -/
theorem getClusterTopology_direct {c : ClusterJson} {ipv6 cbsSsl lb : Bool} (self : ClusterKeywords)
    (hip : c.environment.ipv6Enabled = some ipv6) (hssl : c.environment.cbsSslEnabled = some cbsSsl)
    (hlb : c.environment.sgLbEnabled = some lb) :
    self.getClusterTopology c false = .ok
      { syncGateways := c.syncGateways.map fun n => sgUrl self.sgScheme (wrap ipv6 n.ip)
        sgAccels := c.sgAccels.map fun n => url self.sgScheme (wrap ipv6 n.ip) "4985"
        couchbaseServers := c.couchbaseServers.map fun n => serverUrl cbsSsl (wrap ipv6 n.ip)
        loadBalancers := c.loadBalancers.map fun n => "http://" ++ wrap ipv6 n.ip } := by
  have hsg : self.sgUrls c false =
      .ok (c.syncGateways.map fun n => sgUrl self.sgScheme (wrap ipv6 n.ip)) := by
    unfold ClusterKeywords.sgUrls
    rw [Bool.and_false, if_neg (by decide), isLoadBalancerEnabled, hlb]
    show (if (lb && false) = true then _ else self.gatewayUrls c c.syncGateways) = _
    rw [Bool.and_false, if_neg (by decide), ClusterKeywords.gatewayUrls, forNodes_eq hip]
  rw [getClusterTopology_eq self false hip hssl, hsg]
  rfl

/-- The URLs that lead back to their nodes, for every cluster with distinct
addresses and every setting. -/
theorem urls_map_back_iff (clusterConfig : String) (c : ClusterJson) (ipv6 cbsSsl lb : Bool)
    (hip : c.environment.ipv6Enabled = some ipv6) (hssl : c.environment.cbsSslEnabled = some cbsSsl)
    (hlb : c.environment.sgLbEnabled = some lb) (haddr : ∀ n ∈ endpoints c, IsAddress n.ip)
    (hd : ((endpoints c).map Node.ip).Nodup) :
    ∃ t, (ClusterKeywords.init c).getClusterTopology c false = .ok t ∧
      (AllMapBack clusterConfig c t ↔
        (cbsSsl = true → c.couchbaseServers = []) ∧
          (∀ n ∈ c.loadBalancers, ':' ∉ n.ip.toList) ∧
          ∀ n ∈ c.sgAccels ++ c.syncGateways ++ c.couchbaseServers, NoPortText n.ip) := by
  refine ⟨_, getClusterTopology_direct _ hip hssl hlb, ?_⟩
  have hmem : ∀ n, n ∈ endpoints c ↔ n ∈ c.sgAccels ∨ n ∈ c.syncGateways ∨
      n ∈ c.couchbaseServers ∨ n ∈ c.loadBalancers := by
    intro n
    simp [endpoints]
  have hsg := forall₂_map_iff (R := fun (u : SgUrl) n => MapsBack clusterConfig c u.publicUrl n ∧
      MapsBack clusterConfig c u.adminUrl n)
    (fun n => sgUrl (ClusterKeywords.init c).sgScheme (wrap ipv6 n.ip)) c.syncGateways
    fun n hn => mapsBack_sgUrl_iff hd ((hmem n).mpr (.inr (.inl hn)))
      (haddr n ((hmem n).mpr (.inr (.inl hn)))) _ ipv6
  have hac := forall₂_map_iff (R := MapsBack clusterConfig c)
    (fun n => url (ClusterKeywords.init c).sgScheme (wrap ipv6 n.ip) "4985") c.sgAccels
    fun n hn => mapsBack_url_iff hd ((hmem n).mpr (.inl hn)) (haddr n ((hmem n).mpr (.inl hn)))
      _ ipv6 (by decide) (by decide)
  have hcb := forall₂_map_iff (R := MapsBack clusterConfig c)
    (fun n => serverUrl cbsSsl (wrap ipv6 n.ip)) c.couchbaseServers
    fun n hn => mapsBack_serverUrl_iff hd ((hmem n).mpr (.inr (.inr (.inl hn))))
      (haddr n ((hmem n).mpr (.inr (.inr (.inl hn))))) cbsSsl ipv6
  have hlbs := forall₂_map_iff (R := MapsBack clusterConfig c)
    (fun n => "http://" ++ wrap ipv6 n.ip) c.loadBalancers
    fun n hn => mapsBack_lb_iff hd ((hmem n).mpr (.inr (.inr (.inr hn))))
      (haddr n ((hmem n).mpr (.inr (.inr (.inr hn))))) ipv6
  constructor
  · intro h
    have h1 := hsg.mp h.syncGateways
    have h2 := hac.mp h.sgAccels
    have h3 := hcb.mp h.couchbaseServers
    refine ⟨fun hs => List.eq_nil_iff_forall_not_mem.mpr fun n hn => ?_, hlbs.mp h.loadBalancers, ?_⟩
    · rw [(h3 n hn).1] at hs
      cases hs
    · intro n hn
      simp only [List.mem_append] at hn
      rcases hn with (hn | hn) | hn
      · exact (h2 n hn).2
      · exact h1 n hn
      · exact (h3 n hn).2
  · rintro ⟨hs, hl, hport⟩
    refine ⟨hsg.mpr fun n hn => hport n (by simp [hn]), hac.mpr fun n hn => ⟨by decide, hport n (by simp [hn])⟩,
      hcb.mpr fun n hn => ⟨?_, hport n (by simp [hn])⟩, hlbs.mpr hl⟩
    cases cbsSsl with
    | false => rfl
    | true =>
      rw [hs rfl] at hn
      cases hn

def plainCluster : ClusterJson where
  environment :=
    { ipv6Enabled := some false, cbsSslEnabled := some false, xattrsEnabled := none
      syncGatewaySsl := some true, disablePersistentConfig := none, sgLbEnabled := some true
      twoSgClusterLbEnabled := none, sgwCluster1Count := none, sgwCluster2Count := none
      sgPlatform := none }
  couchbaseServers := [⟨"cb1", "192.168.33.10"⟩]
  syncGateways := [⟨"sg1", "192.168.33.11"⟩, ⟨"sg2", "192.168.33.12"⟩]
  sgAccels := [⟨"ac1", "192.168.33.13"⟩]
  loadBalancers := [⟨"lb1", "192.168.33.14"⟩]

theorem urls_map_back_plainCluster : ∃ t,
    (ClusterKeywords.init plainCluster).getClusterTopology plainCluster false = .ok t ∧
      AllMapBack "resources/cluster_configs/base_lb_cc" plainCluster t := by
  obtain ⟨t, ht, hiff⟩ := urls_map_back_iff "resources/cluster_configs/base_lb_cc" plainCluster
    false false true rfl rfl rfl (by decide) (by decide)
  exact ⟨t, ht, hiff.mpr ⟨by decide, by decide, by decide⟩⟩

/-- IPv6, with the servers behind SSL and a load balancer. -/
def sslCluster : ClusterJson where
  environment :=
    { ipv6Enabled := some true, cbsSslEnabled := some true, xattrsEnabled := none
      syncGatewaySsl := some false, disablePersistentConfig := none, sgLbEnabled := some true
      twoSgClusterLbEnabled := none, sgwCluster1Count := none, sgwCluster2Count := none
      sgPlatform := none }
  couchbaseServers := [⟨"cb1", "fc00::10"⟩]
  syncGateways := [⟨"sg1", "fc00::11"⟩]
  sgAccels := []
  loadBalancers := [⟨"lb1", "fc00::41"⟩]

/-- `:18091` stays on the server's address, and the load balancer's is cut. -/
theorem sslCluster_not_back :
    (∀ n ∈ endpoints sslCluster, IsAddress n.ip) ∧ ((endpoints sslCluster).map Node.ip).Nodup ∧
      ∃ t, (ClusterKeywords.init sslCluster).getClusterTopology sslCluster false = .ok t ∧
        t.couchbaseServers = ["https://[fc00::10]:18091"] ∧ t.loadBalancers = ["http://[fc00::41]"] ∧
        ipFromUrl "https://[fc00::10]:18091" = "fc00::10:18091" ∧
        hostnameForUrl "ssl_cc" sslCluster "https://[fc00::10]:18091" =
          .error ⟨"Could not find name for url: fc00::10:18091 in cluster_config: ssl_cc.json"⟩ ∧
        hostForUrl "http://[fc00::41]" = "fc00:" ∧ ¬ AllMapBack "ssl_cc" sslCluster t := by
  refine ⟨by decide, by decide, _, getClusterTopology_direct _ rfl rfl rfl, rfl, rfl, by decide,
    by decide, by decide, ?_⟩
  intro h
  have hcb := h.couchbaseServers
  rw [List.forall₂_map_left_iff, List.forall₂_same] at hcb
  exact absurd (hcb _ List.mem_cons_self).ip (by decide)

end MobileTestkit.L2.UrlNodes
