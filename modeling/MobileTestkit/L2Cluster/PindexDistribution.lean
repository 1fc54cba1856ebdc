import Mathlib.Data.List.Dedup
import MobileTestkit.Core.ExceptLoop
import MobileTestkit.Core.PyDict

/-!
# Distribution of the pindexes

Model of `Cluster.validate_cbgt_pindex_distribution` (libraries/testkit/cluster.py): the
pindexes of a plan are counted node by node, and every count is compared with that of the
node that came first.

* `nodeCounts_eq`: the counts are those of the nodes in the plan, in the order in which the
  nodes first appear.
* `validate_eq`: what the check decides.
* `validate_iff`: it decides that any two nodes differ by at most one, exactly if the first
  node does not stand between two others.
* `validate_of_balanced`, `within_two`: in no order of the plan does it reject a balanced
  plan, or accept one where two nodes differ by more than two.
-/
namespace MobileTestkit.L2.PindexDistribution

open MobileTestkit.Core

inductive Exn where
  | clusterError (message : String)
  | exception (message : String)
  deriving DecidableEq, Repr

/-- `planPIndexes`: the names of the pindexes, each with the nodes it lives on. -/
abbrev Plan := List (String × List String)

abbrev Counts := PyDict String Nat

/-- One node of one pindex.
mirrors libraries/testkit/cluster.py:721-728 -/
def countNode (counts : Counts) (node : String) : Counts :=
  let counts := if node ∈ counts.keys then counts else counts.set node 0
  counts.set node ((counts.get? node).getD 0 + 1)

/-- mirrors libraries/testkit/cluster.py:711-728 -/
def countPindex (counts : Counts) (pindex : String × List String) : Except Exn Counts :=
  if 1 < pindex.2.length then
    .error (.exception "Unexpected: a CBGT Pindex was assigned to more than one node")
  else .ok (pindex.2.foldl countNode counts)

/-- `node_defs_pindex_counts`. -/
def nodeCounts (plan : Plan) : Except Exn Counts := plan.foldlM countPindex .empty

/-- The loop over the counts: the first one is recorded, the others are compared with it.
mirrors libraries/testkit/cluster.py:741-759 -/
def compareWithFirst : List Nat → Bool
  | [] => true
  | first :: rest => rest.all fun n => decide (Int.natAbs ((first : Int) - n) ≤ 1)

/-- mirrors libraries/testkit/cluster.py:694-761 -/
def validateCbgtPindexDistribution (plan : Plan) (numRunningSgAccels : Int) : Except Exn Bool := do
  if numRunningSgAccels < 1 then
    throw (.clusterError "Need at least one sg_accel running to verify pindexes")
  let counts ← nodeCounts plan
  if (counts.items.length : Int) ≠ numRunningSgAccels then return false
  return compareWithFirst (counts.items.map Prod.snd)

/-! ## What is counted -/

/-- The nodes of the pindexes, in the order of the plan. -/
def assigned (plan : Plan) : List String := plan.flatMap Prod.snd

/-- How many pindexes live on a node. -/
def load (plan : Plan) (node : String) : Nat := (assigned plan).count node

/-- As many nodes as sync gateway accelerators, and no two nodes that differ by more than one
pindex. -/
def Balanced (plan : Plan) (numRunningSgAccels : Int) : Prop :=
  ((assigned plan).dedup.length : Int) = numRunningSgAccels ∧
    ∀ a ∈ assigned plan, ∀ b ∈ assigned plan, load plan a ≤ load plan b + 1

/-- What the counts are after the nodes that have been seen. -/
structure Counted (seen : List String) (counts : Counts) : Prop where
  get : ∀ node, counts.get? node = if node ∈ seen then some (seen.count node) else none
  first : counts.keys.head? = seen.head?

theorem keys_set (d : Counts) (node : String) (n : Nat) :
    (d.set node n).keys = if node ∈ d.keys then d.keys else d.keys ++ [node] :=
  PyDict.keys_setItems node n d.items

theorem Counted.mem_keys {seen : List String} {counts : Counts} (h : Counted seen counts) (node : String) :
    node ∈ counts.keys ↔ node ∈ seen := by
  rw [PyDict.mem_keys, h.get]
  split <;> simp [*]

theorem Counted.countNode {seen : List String} {counts : Counts} (h : Counted seen counts) (node : String) :
    Counted (seen ++ [node]) (countNode counts node) := by
  have hkeys : (PindexDistribution.countNode counts node).keys =
      if node ∈ counts.keys then counts.keys else counts.keys ++ [node] := by
    unfold PindexDistribution.countNode
    by_cases hmem : node ∈ counts.keys
    · simp [hmem, keys_set]
    · simp [hmem, keys_set]
  constructor
  · intro other
    have hnode := h.get node
    simp only [PindexDistribution.countNode]
    by_cases hmem : node ∈ counts.keys
    · rw [if_pos ((h.mem_keys node).mp hmem)] at hnode
      rw [if_pos hmem, PyDict.get?_set, hnode, h.get]
      by_cases ho : other = node
      · simp [ho, List.count_append]
      · simp [ho, List.count_append, Ne.symm ho]
    · have hnew : node ∉ seen := fun hseen => hmem ((h.mem_keys node).mpr hseen)
      rw [if_neg hmem, PyDict.get?_set, PyDict.get?_set, PyDict.get?_set]
      by_cases ho : other = node
      · simp [ho, List.count_append, List.count_eq_zero_of_not_mem hnew]
      · simp [ho, List.count_append, Ne.symm ho, h.get]
  · rw [hkeys]
    have hfirst := h.first
    split
    · rename_i hmem
      rw [hfirst]
      cases seen with
      | nil => exact absurd ((h.mem_keys node).mp hmem) List.not_mem_nil
      | cons x seen => rfl
    · cases seen with
      | nil => simp [List.head?_eq_none_iff.mp hfirst]
      | cons x seen =>
        obtain ⟨rest, hrest⟩ := List.head?_eq_some_iff.mp hfirst
        simp [hrest]

theorem counted_foldl (nodes : List String) {seen : List String} {counts : Counts} (h : Counted seen counts) :
    Counted (seen ++ nodes) (nodes.foldl PindexDistribution.countNode counts) := by
  induction nodes generalizing seen counts with
  | nil => simpa using h
  | cons node nodes ih =>
    have := ih (h.countNode node)
    simpa using this

/-- The counts of a plan. -/
theorem nodeCounts_eq {plan : Plan} (hone : ∀ pindex ∈ plan, pindex.2.length ≤ 1) :
    ∃ counts, nodeCounts plan = .ok counts ∧ Counted (assigned plan) counts := by
  have hstart : Counted (assigned []) PyDict.empty := ⟨fun node => rfl, rfl⟩
  refine Loop.foldlM_runs (I := fun done counts => Counted (assigned done) counts) ?_ hstart
  intro before counts pindex after hplan hcounted
  have hlen : ¬ 1 < pindex.2.length := by
    have := hone pindex (by simp [show plan = before ++ pindex :: after from hplan])
    omega
  refine ⟨_, if_neg hlen, ?_⟩
  have := counted_foldl pindex.2 hcounted
  simpa [assigned] using this

theorem Counted.length {plan : Plan} {counts : Counts} (h : Counted (assigned plan) counts) :
    counts.items.length = (assigned plan).dedup.length := by
  have hperm : counts.keys.Perm (assigned plan).dedup := by
    refine (List.perm_ext_iff_of_nodup counts.nodup (List.nodup_dedup _)).mpr fun node => ?_
    rw [List.mem_dedup]
    exact h.mem_keys node
  have := hperm.length_eq
  simpa [PyDict.keys] using this

/-- The loop over the counts compares every node with the first one of the plan. -/
theorem Counted.compare {plan : Plan} {counts : Counts} (h : Counted (assigned plan) counts) :
    compareWithFirst (counts.items.map Prod.snd) = true ↔ ∀ first ∈ (assigned plan).head?,
      ∀ node ∈ assigned plan, load plan first ≤ load plan node + 1 ∧ load plan node ≤ load plan first + 1 := by
  have hitem : ∀ node n, (node, n) ∈ counts.items ↔ node ∈ assigned plan ∧ n = load plan node := by
    intro node n
    rw [PyDict.mem_items_iff, h.get]
    split
    · rename_i hmem
      simp [hmem, load, eq_comm]
    · rename_i hmem
      simp [hmem]
  have hfirst := h.first
  unfold PyDict.keys at hfirst
  cases hitems : counts.items with
  | nil =>
    rw [hitems] at hfirst
    rw [← hfirst]
    simp [compareWithFirst]
  | cons item rest =>
    obtain ⟨first, n⟩ := item
    rw [hitems] at hfirst hitem
    rw [← hfirst]
    obtain ⟨hmem, rfl⟩ := (hitem first n).mp List.mem_cons_self
    have hcmp : ∀ k : Nat, Int.natAbs ((load plan first : Int) - k) ≤ 1 ↔
        load plan first ≤ k + 1 ∧ k ≤ load plan first + 1 := by
      intro k
      omega
    simp only [List.map_cons, compareWithFirst, List.all_map, List.all_eq_true, Function.comp_apply,
      decide_eq_true_eq, hcmp, List.head?_cons, Option.mem_def, Option.some.injEq, forall_eq']
    constructor
    · intro hall node hnode
      rcases List.mem_cons.mp ((hitem node _).mpr ⟨hnode, rfl⟩) with heq | hmem
      · rw [(Prod.mk.inj heq).1]
        exact ⟨Nat.le_succ _, Nat.le_succ _⟩
      · exact hall _ hmem
    · rintro hall ⟨node, k⟩ hmem
      obtain ⟨hnode, rfl⟩ := (hitem node k).mp (List.mem_cons_of_mem _ hmem)
      exact hall node hnode

/-! ## What the check decides -/

/-- The first node of the plan differs from every node by at most one. -/
def NearFirst (plan : Plan) : Prop := ∀ first ∈ (assigned plan).head?, ∀ node ∈ assigned plan,
  load plan first ≤ load plan node + 1 ∧ load plan node ≤ load plan first + 1

theorem validate_eq {plan : Plan} {num : Int} (hone : ∀ pindex ∈ plan, pindex.2.length ≤ 1) (hnum : 1 ≤ num) :
    ∃ valid, validateCbgtPindexDistribution plan num = .ok valid ∧
      (valid = true ↔ ((assigned plan).dedup.length : Int) = num ∧ NearFirst plan) := by
  obtain ⟨counts, hcounts, hcounted⟩ := nodeCounts_eq hone
  simp only [validateCbgtPindexDistribution, if_neg (Int.not_lt.mpr hnum), hcounts, bind, Except.bind, pure,
    Except.pure, hcounted.length]
  split
  · rename_i hne
    exact ⟨false, rfl, by simp [hne]⟩
  · rename_i heq
    exact ⟨_, rfl, hcounted.compare.trans (by simp [not_not.mp heq, NearFirst])⟩

theorem Balanced.nearFirst {plan : Plan} {num : Int} (h : Balanced plan num) : NearFirst plan := by
  intro first hfirst node hnode
  have hmem := List.mem_of_mem_head? hfirst
  exact ⟨h.2 first hmem node hnode, h.2 node hnode first hmem⟩

/-- A balanced plan is accepted, in every order. -/
theorem validate_of_balanced {plan : Plan} {num : Int} (hone : ∀ pindex ∈ plan, pindex.2.length ≤ 1)
    (hnum : 1 ≤ num) (h : Balanced plan num) : validateCbgtPindexDistribution plan num = .ok true := by
  obtain ⟨valid, hrun, hvalid⟩ := validate_eq hone hnum
  rw [hrun, hvalid.mpr ⟨h.1, h.nearFirst⟩]

/-- In no order is a plan accepted where two nodes differ by more than two. -/
theorem within_two {plan : Plan} {num : Int} (hone : ∀ pindex ∈ plan, pindex.2.length ≤ 1) (hnum : 1 ≤ num)
    (h : validateCbgtPindexDistribution plan num = .ok true) :
    ∀ a ∈ assigned plan, ∀ b ∈ assigned plan, load plan a ≤ load plan b + 2 := by
  obtain ⟨valid, hrun, hvalid⟩ := validate_eq hone hnum
  obtain rfl : true = valid := Except.ok.inj (h.symm.trans hrun)
  have hnear := (hvalid.mp rfl).2
  intro a ha b hb
  obtain ⟨first, rest, hfirst⟩ := List.exists_cons_of_ne_nil (List.ne_nil_of_mem ha)
  have hhead : first ∈ (assigned plan).head? := by
    rw [hfirst]
    rfl
  have h1 := hnear first hhead a ha
  have h2 := hnear first hhead b hb
  omega

/-- The first node of the plan has one pindex less than some node and one more than
another, and differs by at most one from all of them. -/
def BetweenOthers (plan : Plan) : Prop := NearFirst plan ∧ ∃ first ∈ (assigned plan).head?,
  (∃ a ∈ assigned plan, load plan a = load plan first + 1) ∧
    ∃ b ∈ assigned plan, load plan b + 1 = load plan first

theorem not_balanced_iff {plan : Plan} {num : Int} (hlen : ((assigned plan).dedup.length : Int) = num)
    (hnear : NearFirst plan) : ¬ Balanced plan num ↔ BetweenOthers plan := by
  constructor
  · intro h
    have hall : ¬ ∀ a ∈ assigned plan, ∀ b ∈ assigned plan, load plan a ≤ load plan b + 1 :=
      fun hall => h ⟨hlen, hall⟩
    push Not at hall
    obtain ⟨a, ha, b, hb, hlt⟩ := hall
    obtain ⟨first, rest, hfirst⟩ := List.exists_cons_of_ne_nil (List.ne_nil_of_mem ha)
    have hhead : first ∈ (assigned plan).head? := by
      rw [hfirst]
      rfl
    have h1 := hnear first hhead a ha
    have h2 := hnear first hhead b hb
    exact ⟨hnear, first, hhead, ⟨a, ha, by omega⟩, b, hb, by omega⟩
  · rintro ⟨-, first, -, ⟨a, ha, hlow⟩, b, hb, hhigh⟩ h
    have := h.2 a ha b hb
    omega

/-- The check decides whether the plan is balanced, unless it has as many nodes as there
are accelerators, and the first one stands between others. -/
theorem validate_iff {plan : Plan} {num : Int} (hone : ∀ pindex ∈ plan, pindex.2.length ≤ 1) (hnum : 1 ≤ num) :
    (∃ valid, validateCbgtPindexDistribution plan num = .ok valid ∧ (valid = true ↔ Balanced plan num)) ↔
      ¬ (((assigned plan).dedup.length : Int) = num ∧ BetweenOthers plan) := by
  obtain ⟨valid, hrun, hvalid⟩ := validate_eq hone hnum
  constructor
  · rintro ⟨valid', hrun', hvalid'⟩ ⟨hlen, hbetween⟩
    obtain rfl : valid = valid' := Except.ok.inj (hrun.symm.trans hrun')
    exact (not_balanced_iff hlen hbetween.1).mpr hbetween (hvalid'.mp (hvalid.mpr ⟨hlen, hbetween.1⟩))
  · intro hno
    refine ⟨valid, hrun, hvalid.trans ⟨fun ⟨hlen, hnear⟩ => ?_, fun h => ⟨h.1, h.nearFirst⟩⟩⟩
    by_contra hbal
    exact hno ⟨hlen, (not_balanced_iff hlen hnear).mp hbal⟩

/-- Two pindexes on one node and one on another are balanced. -/
theorem validate_two_one :
    ∃ valid, validateCbgtPindexDistribution [("p0", ["n1"]), ("p1", ["n2"]), ("p2", ["n1"])] 2 = .ok valid ∧
      (valid = true ↔ Balanced [("p0", ["n1"]), ("p1", ["n2"]), ("p2", ["n1"])] 2) :=
  (validate_iff (by decide) (by decide)).mpr fun h => by
    obtain ⟨-, -, first, hfirst, ⟨a, ha, hlt⟩, -⟩ := h
    obtain rfl : "n1" = first := by simpa [assigned] using hfirst
    have hload : ∀ node ∈ assigned [("p0", ["n1"]), ("p1", ["n2"]), ("p2", ["n1"])],
        load [("p0", ["n1"]), ("p1", ["n2"]), ("p2", ["n1"])] node ≤ 2 := by decide
    have hfirst : load [("p0", ["n1"]), ("p1", ["n2"]), ("p2", ["n1"])] "n1" = 2 := by decide
    have := hload a ha
    omega

/-- Two, three and one pindexes on the nodes, in that order. -/
def twoThreeOne : Plan :=
  [("p0", ["n1"]), ("p1", ["n1"]), ("p2", ["n2"]), ("p3", ["n2"]), ("p4", ["n2"]), ("p5", ["n3"])]

/-- The plan is accepted, and with its entries turned round it is not. -/
theorem validate_twoThreeOne :
    validateCbgtPindexDistribution twoThreeOne 3 = .ok true ∧ ¬ Balanced twoThreeOne 3 ∧
      validateCbgtPindexDistribution twoThreeOne.reverse 3 = .ok false := by
  refine ⟨by decide, ?_, by decide⟩
  rintro ⟨-, h⟩
  exact absurd (h "n2" (by decide) "n3" (by decide)) (by decide)

end MobileTestkit.L2.PindexDistribution
