import MobileTestkit.L2Cluster.GenerateClusters
import Mathlib.Algebra.GroupWithZero.Nat
import Mathlib.Data.List.Basic
import Mathlib.Data.List.Induction
import Mathlib.Data.List.Nodup
import Mathlib.Data.List.Perm.Lattice
import Mathlib.Data.List.TakeDrop
import Mathlib.Data.List.TakeWhile

/-!
# What `write_config` allocates and what it leaves behind

The five search loops have a closed form. With a map, a role gets the first
ips of its type among those before the first ip that is not in the map;
without one, the roles get consecutive slices of the pool (`chosen`). A role
that comes out short ends the function, and `listed` is what has been written
by then (`writeRoles_spec`).

* `allocation_correct`: on a pool with distinct ips, and no map or one for
  exactly these ips, the JSON is written iff the machines are there, and the
  role lists are what they should be.
* `files_agree_iff`: after two files that agree, `write_config` leaves two
  files that agree in exactly four situations. An early exit unlinks the
  inventory, or leaves it half written, and does not touch the JSON.
-/
namespace MobileTestkit.L2.GenerateClusters

open MobileTestkit.Core

section Closed
variable (config : ClusterDef) (nodeType : PyDict String String) (ips : List String)

def mapped (ip : String) : Bool := (nodeType.get? ip).isSome

/-- The ips before the first one that is not in the map. -/
def known : List String := ips.takeWhile (mapped nodeType)

/-- The ips a role may take from `ips`, in the order it takes them. -/
def supply (role : Role) : List String :=
  if nodeType.items = [] then ips
  else (known nodeType ips).filter fun ip => nodeType.get? ip = some role.key

def need (role : Role) : Nat := (config.count role).toNat

/-- The machines of the roles before `role`. -/
def start (role : Role) : Nat := ((roles.takeWhile (· ≠ role)).map (need config)).sum

/-- The ips of a role, from the whole pool. -/
def chosen (role : Role) : List String :=
  if nodeType.items = [] then (ips.drop (start config role)).take (need config role)
  else (supply nodeType ips role).take (need config role)

/-- The role gets all its machines. -/
def Filled (role : Role) : Prop := (chosen config nodeType ips role).length = need config role

instance (role : Role) : Decidable (Filled config nodeType ips role) :=
  inferInstanceAs (Decidable (_ = _))

/-- What has been written for a role when the function ends: nothing, if an
earlier role came out short. -/
def listed (role : Role) : List String :=
  if ∀ r ∈ roles.takeWhile (· ≠ role), Filled config nodeType ips r then
    chosen config nodeType ips role
  else []

/-- How a role that comes out short ends the function. -/
def shortage : Stop :=
  if nodeType.items = [] then .raised .indexError
  else match ips.find? fun ip => !mapped nodeType ip with
    | none => .unlinked
    | some ip => .raised (.exception (ip ++ " not in ip_to_node_type"))

end Closed

/-! ## The loops -/

section Loops
variable (nodeType : PyDict String String) {ips : List String}

omit nodeType in
theorem filter_not_mem_take {l : List String} (h : l.Nodup) (k : Nat) :
    l.filter (fun x => x ∉ l.take k) = l.drop k := by
  have hsplit := List.take_append_drop k l
  have hd : List.Disjoint (l.take k) (l.drop k) := by
    rw [← hsplit] at h
    exact List.disjoint_of_nodup_append h
  have h1 : (l.take k).filter (fun x => x ∉ l.take k) = [] := by
    rw [List.filter_eq_nil_iff]
    simp
  have h2 : (l.drop k).filter (fun x => x ∉ l.take k) = l.drop k := by
    rw [List.filter_eq_self]
    intro x hx
    simpa using fun hm => hd hm hx
  calc l.filter (fun x => x ∉ l.take k)
      = (l.take k ++ l.drop k).filter (fun x => x ∉ l.take k) := by rw [hsplit]
    _ = l.drop k := by rw [List.filter_append, h1, h2, List.nil_append]

/-- The scan finds the first candidate before the first unknown ip. -/
theorem scan_eq (key : String) (taken : List String) (hmap : nodeType.items ≠ []) :
    scan key nodeType taken ips =
      match (known nodeType ips).filter fun ip => nodeType.get? ip = some key ∧ ip ∉ taken with
      | ip :: _ => .ok ip
      | [] => .error (shortage nodeType ips) := by
  unfold shortage
  rw [if_neg hmap]
  induction ips with
  | nil => rfl
  | cons ip rest ih =>
    unfold scan known
    cases hget : nodeType.get? ip with
    | none =>
      have hm : mapped nodeType ip = false := by simp [mapped, hget]
      simp [hm]
    | some t =>
      have hm : mapped nodeType ip = true := by simp [mapped, hget]
      simp only [List.takeWhile_cons, hm, if_true, List.filter_cons, List.find?_cons, Bool.not_true]
      by_cases hc : t ≠ key ∨ ip ∈ taken
      · have hno : decide (nodeType.get? ip = some key ∧ ip ∉ taken) = false := by
          rw [hget, decide_eq_false_iff_not]
          rintro ⟨h1, h2⟩
          rcases hc with hc | hc
          · exact hc (Option.some.inj h1)
          · exact h2 hc
        rw [if_pos hc, ih, if_neg (by rw [hno]; exact Bool.false_ne_true)]
        rfl
      · have hyes : decide (nodeType.get? ip = some key ∧ ip ∉ taken) = true := by
          rw [not_or, not_not] at hc
          rw [hget, decide_eq_true_eq, hc.1]
          exact ⟨rfl, hc.2⟩
        rw [if_neg hc, if_pos hyes]

theorem supply_subset (role : Role) : supply nodeType ips role ⊆ ips := by
  unfold supply
  split
  · exact fun _ h => h
  · intro ip h
    exact (List.takeWhile_sublist _).subset (List.mem_filter.mp h).1

theorem supply_nodup (h : ips.Nodup) (role : Role) : (supply nodeType ips role).Nodup := by
  unfold supply
  split
  · exact h
  · exact ((List.takeWhile_sublist _).nodup h).filter _

/-- Iteration `k` takes the `k`-th ip of the supply. -/
theorem nextIp_eq (h : ips.Nodup) (role : Role) (k : Nat) :
    nextIp role.key nodeType ips k ((supply nodeType ips role).take k) =
      match (supply nodeType ips role)[k]? with
      | some ip => .ok ip
      | none => .error (shortage nodeType ips) := by
  unfold nextIp
  by_cases hmap : nodeType.items = []
  · rw [if_neg (by simp [hmap])]
    cases hk : ips[k]? <;> simp [supply, shortage, hmap, hk]
  · rw [if_pos hmap, scan_eq nodeType _ _ hmap]
    have hdrop : (known nodeType ips).filter (fun ip => nodeType.get? ip = some role.key ∧
        ip ∉ (supply nodeType ips role).take k) = (supply nodeType ips role).drop k := by
      rw [← filter_not_mem_take (supply_nodup nodeType h role) k]
      conv_rhs => rw [supply, if_neg hmap, List.filter_filter]
      apply List.filter_congr
      intro ip _
      simp only [supply, if_neg hmap, Bool.decide_and, Bool.and_comm]
    rw [hdrop, ← List.head?_drop]
    cases (supply nodeType ips role).drop k <;> rfl

theorem pickIps_from (h : ips.Nodup) (role : Role) (m k : Nat)
    (hk : k ≤ (supply nodeType ips role).length) :
    pickIps role.key nodeType ips (List.range' k m) ((supply nodeType ips role).take k) =
      ((supply nodeType ips role).take (k + m),
        if k + m ≤ (supply nodeType ips role).length then none else some (shortage nodeType ips)) := by
  induction m generalizing k with
  | zero => simp [pickIps, hk]
  | succ m ih =>
    rw [List.range'_succ, pickIps, nextIp_eq nodeType h]
    by_cases hlt : k < (supply nodeType ips role).length
    · simp only [List.getElem?_eq_getElem hlt]
      rw [List.take_append_getElem hlt, ih (k + 1) hlt]
      have hadd : k + 1 + m = k + (m + 1) := by omega
      rw [hadd]
    · have hle : (supply nodeType ips role).length ≤ k := by omega
      simp only [List.getElem?_eq_none hle]
      rw [List.take_of_length_le hle, List.take_of_length_le (by omega), if_neg (by omega)]

theorem pickIps_eq (h : ips.Nodup) (role : Role) (n : Nat) :
    pickIps role.key nodeType ips (List.range n) [] =
      ((supply nodeType ips role).take n,
        if n ≤ (supply nodeType ips role).length then none else some (shortage nodeType ips)) := by
  have hfrom := pickIps_from nodeType h role n 0 (Nat.zero_le _)
  rw [List.take_zero, Nat.zero_add] at hfrom
  rw [List.range_eq_range', hfrom]

omit nodeType in
theorem removeAll_eq {taken : List String} (h : ips.Nodup) (ht : taken.Nodup) (hsub : taken ⊆ ips) :
    removeAll ips taken = .ok (ips.filter fun ip => ip ∉ taken) := by
  induction taken generalizing ips with
  | nil => simp [removeAll]
  | cons ip rest ih =>
    obtain ⟨hip, hrest⟩ := List.nodup_cons.mp ht
    have hmem : ip ∈ ips := hsub List.mem_cons_self
    have herase : rest ⊆ ips.erase ip := by
      intro x hx
      rw [h.mem_erase_iff]
      exact ⟨fun e => hip (e ▸ hx), hsub (List.mem_cons_of_mem _ hx)⟩
    rw [removeAll, if_pos hmem, ih (h.erase ip) hrest herase, h.erase_eq_filter, List.filter_filter]
    congr 1
    apply List.filter_congr
    intro x _
    by_cases hx : x = ip <;> simp [hx]

end Loops

/-! ## One phase -/

section Phase
variable (config : ClusterDef) (nodeType : PyDict String String) (connection : String)

/-- The state after the hosts of a role are written. -/
def St.wrote (st : St) (role : Role) (got : List String) : St :=
  { st with
    lines := st.lines ++ .header role.key :: (named role.short got).map (Host.line connection)
    roles := fun r => if r = role then named role.short got else st.roles r
    lastI := if need config role = 0 then st.lastI else some (need config role - 1) }

/-- The state in which the next role starts. -/
def St.advanced (st : St) (got : List String) : St :=
  { st with ips := st.ips.filter fun ip => ip ∉ got
            lines := st.lines ++ [.raw "\n"] }

theorem writeRole_eq (role : Role) (st : St) (h : st.ips.Nodup) :
    writeRole config nodeType connection role st =
      let got := (supply nodeType st.ips role).take (need config role)
      if need config role ≤ (supply nodeType st.ips role).length then
        ((st.wrote config connection role got).advanced got, none)
      else (st.wrote config connection role got, some (shortage nodeType st.ips)) := by
  have htake : (supply nodeType st.ips role).take (need config role) ⊆ st.ips :=
    fun _ hx => supply_subset nodeType role (List.take_subset _ _ hx)
  have hnd := (supply_nodup nodeType h role).sublist (List.take_sublist (need config role) _)
  have hneed : (config.count role).toNat = need config role := rfl
  unfold writeRole
  dsimp only
  rw [pickIps_eq nodeType h role]
  by_cases hlen : need config role ≤ (supply nodeType st.ips role).length
  · simp only [hneed, hlen, if_true, removeAll_eq h hnd htake]
    rfl
  · simp only [hneed, hlen, if_false]
    rfl

end Phase

/-! ## The inventory, section by section -/

/-- Lines that say the same wherever they stand can be read on their own. -/
theorem sectionIps_append {name : String} {l' : Inventory} {out : List String}
    (h : ∀ b, sectionIps name b l' = out) (b : Bool) (l : Inventory) :
    sectionIps name b (l ++ l') = sectionIps name b l ++ out := by
  induction l generalizing b with
  | nil => exact h b
  | cons x l ih =>
    cases x with
    | header m => exact ih _
    | raw s => exact ih _
    | host m ip connection =>
      cases b with
      | false => exact ih _
      | true => simpa [sectionIps] using ih true

theorem sectionIps_append_header (name n : String) (b : Bool) (l l' : Inventory) :
    sectionIps name b (l ++ .header n :: l') = sectionIps name b l ++ sectionIps name (n == name) l' :=
  sectionIps_append (fun _ => rfl) b l

theorem sectionIps_append_raw (name s : String) (b : Bool) (l : Inventory) :
    sectionIps name b (l ++ [.raw s]) = sectionIps name b l :=
  (sectionIps_append (fun _ => rfl) b l).trans (List.append_nil _)

theorem sectionIps_hosts (name connection : String) (b : Bool) (hosts : List Host) :
    sectionIps name b (hosts.map (Host.line connection)) = if b then hosts.map Host.ip else [] := by
  induction hosts with
  | nil => cases b <;> rfl
  | cons h hosts ih =>
    cases b with
    | false => exact ih
    | true => simpa [sectionIps, Host.line] using ih

/-- Lines without the section's header add nothing to it. -/
theorem sectionIps_eq_nil {name : String} {l : Inventory} (h : Line.header name ∉ l) :
    sectionIps name false l = [] := by
  induction l with
  | nil => rfl
  | cons x l ih =>
    have hl : Line.header name ∉ l := fun hm => h (List.mem_cons_of_mem _ hm)
    cases x with
    | header m =>
      have hm : (m == name) = false := by
        rw [beq_eq_false_iff_ne]
        intro he
        exact h (by rw [he]; exact List.mem_cons_self)
      rw [sectionIps, hm]
      exact ih hl
    | raw s => exact ih hl
    | host m ip connection => exact ih hl

theorem map_ip_named (short : String) (ips : List String) : (named short ips).map Host.ip = ips := by
  unfold named
  rw [List.map_map]
  change ips.zipIdx.map Prod.fst = ips
  exact List.zipIdx_map_fst 0 ips

theorem key_injective : Function.Injective Role.key := by
  intro a b h
  cases a <;> cases b <;> first | rfl | exact absurd h (by decide)

theorem roles_nodup : roles.Nodup := by decide

theorem mem_roles (role : Role) : role ∈ roles := by cases role <;> decide

/-! ## All phases -/

section Run
variable (config : ClusterDef) (nodeType : PyDict String String) (ips : List String)

/-- The ips of the roles that are done. -/
def taken (done : List Role) : List String := done.flatMap (chosen config nodeType ips)

theorem chosen_mapped {role : Role} {ip : String} (hmap : nodeType.items ≠ [])
    (h : ip ∈ chosen config nodeType ips role) : nodeType.get? ip = some role.key := by
  unfold chosen supply at h
  rw [if_neg hmap, if_neg hmap] at h
  simpa using (List.mem_filter.mp (List.take_subset _ _ h)).2

theorem not_mem_done {done rest : List Role} {role : Role} (h : roles = done ++ role :: rest) :
    role ∉ done := by
  have hnd := roles_nodup
  rw [h] at hnd
  exact fun hm => (List.nodup_append.mp hnd).2.2 role hm role (by simp) rfl

theorem takeWhile_ne {done rest : List Role} {role : Role} (h : roles = done ++ role :: rest) :
    roles.takeWhile (· ≠ role) = done := by
  rw [h, List.takeWhile_append_of_pos]
  · simp
  · intro r hr
    simpa using fun e : r = role => not_mem_done h (e ▸ hr)

theorem start_eq {done rest : List Role} {role : Role} (h : roles = done ++ role :: rest) :
    start config role = (done.map (need config)).sum := by
  unfold start
  rw [takeWhile_ne h]

/-- Without a map the roles that are done hold the first ips of the pool. -/
theorem taken_eq_take (hmap : nodeType.items = []) (done rest : List Role)
    (h : roles = done ++ rest) :
    taken config nodeType ips done = ips.take ((done.map (need config)).sum) := by
  induction done using List.reverseRecOn generalizing rest with
  | nil => simp [taken]
  | append_singleton done role ih =>
    rw [List.append_assoc] at h
    have hdone := ih _ h
    unfold taken at hdone ⊢
    rw [List.flatMap_append, hdone]
    simp only [List.flatMap_cons, List.flatMap_nil, List.append_nil, chosen, if_pos hmap,
      start_eq config h, List.map_append, List.map_cons, List.map_nil, List.sum_append, List.sum_cons, List.sum_nil,
      Nat.add_zero]
    rw [← List.take_add]

theorem takeWhile_filter {p q : String → Bool} (l : List String)
    (h : ∀ x, p x = false → q x = true) :
    (l.filter p).takeWhile q = (l.takeWhile q).filter p := by
  induction l with
  | nil => rfl
  | cons x l ih =>
    cases hp : p x with
    | false => simp [hp, h x hp, ih]
    | true => cases hq : q x <;> simp [hp, hq, ih]

theorem taken_mapped (hmap : nodeType.items ≠ []) {done : List Role} {ip : String}
    (h : ip ∈ taken config nodeType ips done) : ∃ r ∈ done, nodeType.get? ip = some r.key := by
  obtain ⟨r, hr, hc⟩ := List.mem_flatMap.mp h
  exact ⟨r, hr, chosen_mapped config nodeType ips hmap hc⟩

theorem mapped_of_taken (hmap : nodeType.items ≠ []) {done : List Role} {ip : String}
    (h : decide (ip ∉ taken config nodeType ips done) = false) : mapped nodeType ip = true := by
  rw [decide_eq_false_iff_not, not_not] at h
  obtain ⟨r, -, hr⟩ := taken_mapped config nodeType ips hmap h
  simp [mapped, hr]

/-- What is left for a role once the earlier ones are done. -/
theorem supply_left {done rest : List Role} {role : Role} (hnd : ips.Nodup)
    (h : roles = done ++ role :: rest) :
    (supply nodeType (ips.filter fun ip => ip ∉ taken config nodeType ips done) role).take
        (need config role) = chosen config nodeType ips role := by
  by_cases hmap : nodeType.items = []
  · rw [taken_eq_take config nodeType ips hmap done _ h, filter_not_mem_take hnd]
    simp [supply, chosen, hmap, start_eq config h]
  · unfold chosen supply known
    simp only [if_neg hmap]
    rw [takeWhile_filter ips fun ip => mapped_of_taken config nodeType ips hmap, List.filter_filter]
    congr 1
    apply List.filter_congr
    intro ip _
    -- an ip of this role's type is not taken by an earlier role
    by_cases hip : nodeType.get? ip = some role.key
    · have hnot : ip ∉ taken config nodeType ips done := by
        intro hm
        obtain ⟨r, hr, hk⟩ := taken_mapped config nodeType ips hmap hm
        rw [hip, Option.some.injEq] at hk
        exact not_mem_done h (key_injective hk ▸ hr)
      simp [hip, hnot]
    · simp [hip]

/-- How a short role ends the function does not depend on what is left. -/
theorem shortage_left (done : List Role) :
    shortage nodeType (ips.filter fun ip => ip ∉ taken config nodeType ips done) =
      shortage nodeType ips := by
  unfold shortage
  by_cases hmap : nodeType.items = []
  · rw [if_pos hmap, if_pos hmap]
  · rw [if_neg hmap, if_neg hmap, List.find?_filter]
    have hfun : (fun ip => decide (decide (ip ∉ taken config nodeType ips done) = true ∧
        (!mapped nodeType ip) = true)) = fun ip => !mapped nodeType ip := by
      funext ip
      cases hm : mapped nodeType ip with
      | true => simp
      | false =>
        have hnot : ip ∉ taken config nodeType ips done := by
          intro hip
          have htaken : decide (ip ∉ taken config nodeType ips done) = false := by simpa using hip
          rw [mapped_of_taken config nodeType ips hmap htaken] at hm
          cases hm
        simp [hnot]
    rw [hfun]

/-- Between two phases: the roles in `done` have got their ips, the others
nothing, and the inventory says the same. -/
structure Between (done : List Role) (st : St) : Prop where
  left : st.ips = ips.filter fun ip => ip ∉ taken config nodeType ips done
  got : ∀ r, (st.roles r).map Host.ip = if r ∈ done then chosen config nodeType ips r else []
  same : ∀ r, inventoryIps st.lines r = (st.roles r).map Host.ip

theorem between_initial (o : Options) : Between config nodeType ips [] (initial o ips) where
  left := by simp [initial, taken]
  got r := by simp [initial]
  same r := by
    apply sectionIps_eq_nil
    simp only [initial, poolLines, List.mem_append, List.mem_cons, List.mem_map, Host.line,
      Line.header.injEq, reduceCtorEq, and_false, exists_false, or_false, List.not_mem_nil]
    cases r <;> decide

variable {config nodeType ips}

/-- Writing a role's hosts adds them to the record and to the inventory. -/
theorem wrote_same {done rest : List Role} {role : Role} {st : St} (connection : String)
    (h : roles = done ++ role :: rest) (hst : Between config nodeType ips done st) :
    (∀ r, ((st.wrote config connection role (chosen config nodeType ips role)).roles r).map Host.ip =
      if r ∈ done ++ [role] then chosen config nodeType ips r else []) ∧
    ∀ r, inventoryIps (st.wrote config connection role (chosen config nodeType ips role)).lines r =
      ((st.wrote config connection role (chosen config nodeType ips role)).roles r).map Host.ip := by
  constructor
  · intro r
    by_cases hr : r = role
    · subst hr
      simp [St.wrote, map_ip_named]
    · simpa [St.wrote, hr] using hst.got r
  · intro r
    have hsame := hst.same r
    unfold inventoryIps at hsame ⊢
    simp only [St.wrote]
    rw [sectionIps_append_header, hsame, hst.got r, sectionIps_hosts]
    by_cases hr : r = role
    · subst hr
      simp [not_mem_done h]
    · have hk : (role.key == r.key) = false := by
        rw [beq_eq_false_iff_ne]
        exact fun he => hr (key_injective he).symm
      rw [hk, if_neg hr, hst.got r]
      simp

theorem between_advanced {done rest : List Role} {role : Role} {st : St} (connection : String)
    (h : roles = done ++ role :: rest) (hst : Between config nodeType ips done st) :
    Between config nodeType ips (done ++ [role])
      ((st.wrote config connection role (chosen config nodeType ips role)).advanced
        (chosen config nodeType ips role)) := by
  obtain ⟨hgot, hsame⟩ := wrote_same connection h hst
  refine ⟨?_, hgot, fun r => ?_⟩
  · simp only [St.advanced, St.wrote]
    rw [hst.left, List.filter_filter]
    apply List.filter_congr
    intro ip _
    simp [taken, not_or, Bool.and_comm]
  · unfold inventoryIps
    simp only [St.advanced]
    rw [sectionIps_append_raw]
    exact hsame r

theorem filled_iff {done rest : List Role} {role : Role} (hnd : ips.Nodup)
    (h : roles = done ++ role :: rest) :
    need config role ≤ (supply nodeType
        (ips.filter fun ip => ip ∉ taken config nodeType ips done) role).length ↔
      Filled config nodeType ips role := by
  unfold Filled
  rw [← supply_left config nodeType ips hnd h, List.length_take]
  omega

theorem listed_of_filled (h : ∀ r ∈ roles, Filled config nodeType ips r) (role : Role) :
    listed config nodeType ips role = chosen config nodeType ips role :=
  if_pos fun r _ => h r (mem_roles r)

/-- When `role` is the first short role, the roles up to it are listed. -/
theorem listed_of_short {done rest : List Role} {role : Role} (h : roles = done ++ role :: rest)
    (hdone : ∀ r ∈ done, Filled config nodeType ips r) (hshort : ¬ Filled config nodeType ips role)
    (r : Role) :
    listed config nodeType ips r =
      if r ∈ done ++ [role] then chosen config nodeType ips r else [] := by
  by_cases hr : r ∈ done ++ [role]
  · -- only done roles come before `r`
    rw [if_pos hr]
    apply if_pos
    intro r' hr'
    apply hdone
    rcases List.mem_append.mp hr with hr | hr
    · obtain ⟨d, d', hd⟩ := List.append_of_mem hr
      have hroles : roles = d ++ r :: (d' ++ role :: rest) := by
        rw [h, hd]
        simp
      rw [takeWhile_ne hroles] at hr'
      rw [hd]
      exact List.mem_append_left _ hr'
    · rw [List.mem_singleton.mp hr] at hr'
      rwa [takeWhile_ne h] at hr'
  · -- the short role comes before `r`
    rw [if_neg hr]
    apply if_neg
    intro hall
    apply hshort
    apply hall
    have hroles : roles = (done ++ [role]) ++ rest := by
      rw [h]
      simp
    rw [hroles, List.takeWhile_append_of_pos]
    · simp
    · intro r' hr'
      simpa using fun e : r' = r => hr (e ▸ hr')

/-- What a run of the phases leaves: the lists of `listed`, in the record and
in the inventory, and a stop unless every role was filled. -/
theorem writeRoles_spec (connection : String) (hnd : ips.Nodup) (rest done : List Role) (st : St)
    (h : roles = done ++ rest) (hdone : ∀ r ∈ done, Filled config nodeType ips r)
    (hst : Between config nodeType ips done st) :
    (∀ r, ((writeRoles config nodeType connection rest st).1.roles r).map Host.ip =
      listed config nodeType ips r) ∧
    (∀ r, inventoryIps (writeRoles config nodeType connection rest st).1.lines r =
      listed config nodeType ips r) ∧
    (writeRoles config nodeType connection rest st).2 =
      if ∀ r ∈ rest, Filled config nodeType ips r then none else some (shortage nodeType ips) := by
  -- induction on the phases to come; `done` grows with them
  induction rest generalizing done st with
  | nil =>
    rw [List.append_nil] at h
    subst h
    have hgot : ∀ r, (st.roles r).map Host.ip = listed config nodeType ips r := by
      intro r
      rw [hst.got r, if_pos (mem_roles r), listed_of_filled hdone]
    refine ⟨hgot, fun r => ?_, by simp [writeRoles]⟩
    rw [← hgot r]
    exact hst.same r
  | cons role rest ih =>
    have hstnd : st.ips.Nodup := by
      rw [hst.left]
      exact hnd.filter _
    rw [writeRoles, writeRole_eq config nodeType connection role st hstnd]
    simp only [hst.left, supply_left config nodeType ips hnd h, shortage_left, filled_iff hnd h]
    by_cases hfill : Filled config nodeType ips role
    · simp only [if_pos hfill]
      have hdone' : ∀ r ∈ done ++ [role], Filled config nodeType ips r := by
        intro r hr
        rcases List.mem_append.mp hr with hr | hr
        · exact hdone r hr
        · rw [List.mem_singleton.mp hr]
          exact hfill
      obtain ⟨hroles, hinv, hstop⟩ :=
        ih (done ++ [role]) _ (by simpa using h) hdone' (between_advanced connection h hst)
      refine ⟨hroles, hinv, ?_⟩
      rw [hstop]
      simp [hfill]
    · simp only [if_neg hfill]
      obtain ⟨hgot, hsame⟩ := wrote_same connection h hst
      have hlisted := listed_of_short h hdone hfill
      refine ⟨fun r => by rw [hgot r, hlisted r], fun r => by rw [hsame r, hgot r, hlisted r], ?_⟩
      rw [if_neg]
      intro hall
      exact hfill (hall role List.mem_cons_self)

end Run

/-! ## The function -/

section Config
variable (o : Options) (config : ClusterDef) (nodeType : PyDict String String) (ips : List String)
variable (localIp : Option String) (fs : Files)

/-- The checks before the inventory is opened pass. -/
def Opened : Prop :=
  ips.Nodup ∧ config.numMachinesRequired ≤ ips.length ∧
    (nodeType.items = [] ∨ nodeType.items.length = ips.length)

theorem writeConfig_of_not_opened (h : ¬ Opened config nodeType ips) :
    (writeConfig o config (.pool ips nodeType) localIp fs).1 = fs ∧
      (writeConfig o config (.pool ips nodeType) localIp fs).2 ≠ .written := by
  unfold writeConfig getHosts
  by_cases hnd : ips.Nodup
  · simp only [hnd, if_true]
    split
    · simp
    · split
      · simp
      · rename_i hfit hsize
        exfalso
        apply h
        refine ⟨hnd, by omega, ?_⟩
        by_cases hmap : nodeType.items = []
        · exact .inl hmap
        · exact .inr (by_contra fun hne => hsize ⟨hmap, hne⟩)
  · simp [hnd]

/-- The sections after the roles are none of the roles. -/
theorem sectionIps_tail (role : Role) (l : Inventory) :
    inventoryIps (l ++ webhookLines (connectionString o) localIp ++ environmentLines o) role =
      inventoryIps l role := by
  have hweb : ∀ ls, webhookLines (connectionString o) localIp ++ ls =
      .header "webhook_ip" :: ((webhookLines (connectionString o) localIp).drop 1 ++ ls) := by
    intro ls
    rfl
  have hkey : ("webhook_ip" == role.key) = false := by cases role <;> decide
  have hno : Line.header role.key ∉
      (webhookLines (connectionString o) localIp).drop 1 ++ environmentLines o := by
    have hhead : ∀ n, Line.header n ∈
        (webhookLines (connectionString o) localIp).drop 1 ++ environmentLines o →
        n ∈ ["environment", "sync_gateways:vars", "sg_accels:vars", "couchbase_servers:vars",
          "pool:vars"] := by
      intro n hn
      unfold webhookLines environmentLines winrmLines python3Line at hn
      simp only [List.drop_succ_cons, List.drop_zero, List.mem_append] at hn
      rcases hn with hn | (((((hn | hn) | hn) | hn) | hn) | hn) | hn
      · cases localIp <;> simp at hn
      all_goals
        first
        | (split at hn <;> simp at hn <;> simp [hn])
        | (simp at hn; simp [hn])
    intro hm
    have := hhead _ hm
    revert this
    cases role <;> decide
  unfold inventoryIps
  rw [List.append_assoc, hweb, sectionIps_append_header, hkey, sectionIps_eq_nil hno, List.append_nil]

/-- **What the function leaves**, once the inventory is opened. -/
theorem writeConfig_of_opened (h : Opened config nodeType ips) :
    if ∀ r ∈ roles, Filled config nodeType ips r then
      ∃ inv js, writeConfig o config (.pool ips nodeType) localIp fs = (⟨some inv, some js⟩, .written) ∧
        ∀ r, inventoryIps inv r = chosen config nodeType ips r ∧
          js.ips r = chosen config nodeType ips r
    else match shortage nodeType ips with
      | .unlinked =>
        writeConfig o config (.pool ips nodeType) localIp fs = ({ fs with inventory := none }, .skipped)
      | .raised x => ∃ inv,
        writeConfig o config (.pool ips nodeType) localIp fs =
          ({ fs with inventory := some inv }, .raised x) ∧
        ∀ r, inventoryIps inv r = listed config nodeType ips r := by
  obtain ⟨hnd, hfit, hsize⟩ := h
  obtain ⟨hroles, hinv, hstop⟩ := writeRoles_spec (connectionString o) hnd roles [] _ rfl (by simp)
    (between_initial config nodeType ips o)
  have hsize' : ¬ (nodeType.items ≠ [] ∧ nodeType.items.length ≠ ips.length) := by
    rcases hsize with hsize | hsize
    · exact fun hn => hn.1 hsize
    · exact fun hn => hn.2 hsize
  unfold writeConfig getHosts
  simp only [hnd, if_true, if_neg (Int.not_lt.mpr hfit), if_neg hsize']
  generalize hres : writeRoles config nodeType (connectionString o) roles (initial o ips) = res at *
  obtain ⟨st, stop⟩ := res
  simp only at hroles hinv hstop
  by_cases hfill : ∀ r ∈ roles, Filled config nodeType ips r
  · rw [if_pos hfill] at hstop ⊢
    subst hstop
    refine ⟨_, _, rfl, fun r => ⟨?_, ?_⟩⟩
    · rw [sectionIps_tail, hinv r, listed_of_filled hfill]
    · rw [← listed_of_filled hfill, ← hroles r]
      rfl
  · rw [if_neg hfill] at hstop ⊢
    subst hstop
    cases hshort : shortage nodeType ips with
    | unlinked => rfl
    | raised x => exact ⟨st.lines, rfl, hinv⟩

end Config

/-! ## Allocation -/

section Correct
variable {config : ClusterDef} {nodeType : PyDict String String} {ips : List String}

theorem need_eq {role : Role} (h : 0 ≤ config.count role) : (need config role : Int) = config.count role :=
  Int.toNat_of_nonneg h

/-- The machines up to a role are among the machines required. -/
theorem start_add_need_le (h : ∀ r, 0 ≤ config.count r) (role : Role) :
    ((start config role + need config role : Nat) : Int) ≤ config.numMachinesRequired := by
  have h1 := h .couchbaseServers
  have h2 := h .syncGateways
  have h3 := h .sgAccels
  have h4 := h .loadGenerators
  have h5 := h .loadBalancers
  simp only [ClusterDef.count] at h1 h2 h3 h4 h5
  cases role <;> simp [start, roles, need, ClusterDef.count, ClusterDef.numMachinesRequired] <;> omega

/-- Of two roles one comes before the other. -/
theorem start_add_need_le_start (config : ClusterDef) {r r' : Role} (h : r ≠ r') :
    start config r + need config r ≤ start config r' ∨
      start config r' + need config r' ≤ start config r := by
  cases r <;> cases r' <;> simp [start, roles] at h ⊢ <;> omega

theorem chosen_sublist (role : Role) : (chosen config nodeType ips role).Sublist ips := by
  unfold chosen supply
  split
  · exact (List.take_sublist _ _).trans (List.drop_sublist _ _)
  · exact (List.take_sublist _ _).trans
      (List.filter_sublist.trans (List.takeWhile_sublist _))

theorem chosen_disjoint (hnd : ips.Nodup) {r r' : Role} (h : r ≠ r') :
    List.Disjoint (chosen config nodeType ips r) (chosen config nodeType ips r') := by
  by_cases hmap : nodeType.items = []
  · -- consecutive slices of a list without duplicates
    have hslice : ∀ {a b : Role}, start config a + need config a ≤ start config b →
        List.Disjoint (chosen config nodeType ips a) (chosen config nodeType ips b) := by
      intro a b hab x hx hx'
      simp only [chosen, if_pos hmap] at hx hx'
      have h1 : x ∈ ips.take (start config b) := by
        apply (List.take_subset_take_left ips hab) 
        rw [List.take_add]
        exact List.mem_append_right _ hx
      have h2 : x ∈ ips.drop (start config b) := List.take_subset _ _ hx'
      have hnd' := hnd
      rw [← List.take_append_drop (start config b) ips] at hnd'
      exact List.disjoint_of_nodup_append hnd' h1 h2
    rcases start_add_need_le_start config h with hab | hab
    · exact hslice hab
    · exact (hslice hab).symm
  · intro x hx hx'
    have h1 := chosen_mapped config nodeType ips hmap hx
    have h2 := chosen_mapped config nodeType ips hmap hx'
    rw [h1, Option.some.injEq] at h2
    exact h (key_injective h2)

/-- With a map of all ips the supply of a role is every ip of its type. -/
theorem supply_of_mapped (hmap : nodeType.items ≠ []) (hall : ∀ ip ∈ ips, mapped nodeType ip = true)
    (role : Role) :
    supply nodeType ips role = ips.filter fun ip => nodeType.get? ip = some role.key := by
  unfold supply known
  rw [if_neg hmap, List.takeWhile_eq_self_iff.mpr hall]

theorem filled_iff_of_mapped (hmap : nodeType.items ≠ [])
    (hall : ∀ ip ∈ ips, mapped nodeType ip = true) {role : Role} (hc : 0 ≤ config.count role) :
    Filled config nodeType ips role ↔
      config.count role ≤ (ips.filter fun ip => nodeType.get? ip = some role.key).length := by
  have hneed := need_eq hc
  unfold Filled chosen
  rw [if_neg hmap, supply_of_mapped hmap hall, List.length_take]
  omega

theorem filled_of_fits (hmap : nodeType.items = []) (hc : ∀ r, 0 ≤ config.count r)
    (hfit : config.numMachinesRequired ≤ ips.length) (role : Role) :
    Filled config nodeType ips role := by
  have hle := start_add_need_le hc role
  unfold Filled chosen
  rw [if_pos hmap, List.length_take, List.length_drop]
  omega

theorem shortage_of_mapped (hmap : nodeType.items ≠ [])
    (hall : ∀ ip ∈ ips, mapped nodeType ip = true) : shortage nodeType ips = .unlinked := by
  have hfind : ips.find? (fun ip => !mapped nodeType ip) = none := by
    rw [List.find?_eq_none]
    intro ip hip
    simp [hall ip hip]
  unfold shortage
  rw [if_neg hmap, hfind]

/-- Either no map, or one of exactly the ips of the pool. -/
def MapsPool (nodeType : PyDict String String) (ips : List String) : Prop :=
  nodeType.items = [] ∨ (nodeType.items ≠ [] ∧ ∀ ip, ip ∈ nodeType.keys ↔ ip ∈ ips)

theorem MapsPool.mapped (h : MapsPool nodeType ips) (hne : nodeType.items ≠ []) :
    ∀ ip ∈ ips, mapped nodeType ip = true := by
  intro ip hip
  rcases h with h | ⟨-, hkeys⟩
  · exact absurd h hne
  · exact (PyDict.mem_keys_iff nodeType.items ip).mp ((hkeys ip).mpr hip)

theorem MapsPool.opened (h : MapsPool nodeType ips) (hnd : ips.Nodup)
    (hfit : config.numMachinesRequired ≤ ips.length) : Opened config nodeType ips := by
  refine ⟨hnd, hfit, ?_⟩
  rcases h with h | ⟨-, hkeys⟩
  · exact .inl h
  · have hperm := (List.perm_ext_iff_of_nodup nodeType.nodup hnd).mpr hkeys
    exact .inr (by simpa using hperm.length_eq)

theorem MapsPool.filled_iff (h : MapsPool nodeType ips) (hcount : ∀ r, 0 ≤ config.count r)
    (hfit : config.numMachinesRequired ≤ ips.length) :
    (∀ r ∈ roles, Filled config nodeType ips r) ↔ (nodeType.items ≠ [] → ∀ r, config.count r ≤
      (ips.filter fun ip => nodeType.get? ip = some r.key).length) := by
  by_cases hm : nodeType.items = []
  · exact ⟨fun _ hne => absurd hm hne, fun _ r _ => filled_of_fits hm hcount hfit r⟩
  · have hrole := fun r => filled_iff_of_mapped hm (h.mapped hm) (hcount r)
    exact ⟨fun hf _ r => (hrole r).mp (hf r (mem_roles r)), fun hf r _ => (hrole r).mpr (hf hm r)⟩

/-- The lists of filled roles are right. -/
theorem chosen_correct (hnd : ips.Nodup) (hcount : ∀ r, 0 ≤ config.count r)
    (hfill : ∀ r ∈ roles, Filled config nodeType ips r) {js : ClusterJson}
    (hjs : ∀ r, js.ips r = chosen config nodeType ips r) :
    (∀ r, (js.ips r).Nodup ∧ js.ips r ⊆ ips ∧ ((js.ips r).length : Int) = config.count r) ∧
      (∀ r r', r ≠ r' → List.Disjoint (js.ips r) (js.ips r')) ∧
      (nodeType.items ≠ [] → ∀ r, ∀ ip ∈ js.ips r, nodeType.get? ip = some r.key) := by
  refine ⟨fun r => ?_, fun r r' hr => ?_, fun hm r ip hip => ?_⟩
  · rw [hjs r]
    refine ⟨(chosen_sublist r).nodup hnd, (chosen_sublist r).subset, ?_⟩
    rw [hfill r (mem_roles r), need_eq (hcount r)]
  · rw [hjs r, hjs r']
    exact chosen_disjoint hnd hr
  · rw [hjs r] at hip
    exact chosen_mapped config nodeType ips hm hip

/-- **Cluster allocation.** On distinct ips, counts that are not negative, and
no map or one of exactly these ips: the JSON is written iff the pool has the
machines, nothing is raised, and the lists written are right. -/
theorem allocation_correct (o : Options) (config : ClusterDef) (ips : List String)
    (nodeType : PyDict String String) (localIp : Option String) (fs : Files) (hnd : ips.Nodup)
    (hcount : ∀ r, 0 ≤ config.count r)
    (hmap : nodeType.items = [] ∨ (nodeType.items ≠ [] ∧ ∀ ip, ip ∈ nodeType.keys ↔ ip ∈ ips)) :
    let result := writeConfig o config (.pool ips nodeType) localIp fs
    (result.2 = .written ↔ config.numMachinesRequired ≤ ips.length ∧
      (nodeType.items ≠ [] → ∀ r, config.count r ≤
        (ips.filter fun ip => nodeType.get? ip = some r.key).length)) ∧
    (result.2 = .written ∨ result.2 = .skipped) ∧
    (result.2 = .written → ∃ js, result.1.json = some js ∧
      (∀ r, (js.ips r).Nodup ∧ js.ips r ⊆ ips ∧ ((js.ips r).length : Int) = config.count r) ∧
      (∀ r r', r ≠ r' → List.Disjoint (js.ips r) (js.ips r')) ∧
      (nodeType.items ≠ [] → ∀ r, ∀ ip ∈ js.ips r, nodeType.get? ip = some r.key)) := by
  intro result
  have hmaps : MapsPool nodeType ips := hmap
  have hne : Outcome.skipped ≠ .written := by decide
  by_cases hfit : config.numMachinesRequired ≤ ips.length
  · have hspec := writeConfig_of_opened o config nodeType ips localIp fs (hmaps.opened hnd hfit)
    have hfill := hmaps.filled_iff hcount hfit
    by_cases hf : ∀ r ∈ roles, Filled config nodeType ips r
    · rw [if_pos hf] at hspec
      obtain ⟨inv, js, hres, hips⟩ := hspec
      have hr : result = (⟨some inv, some js⟩, .written) := hres
      rw [hr]
      exact ⟨⟨fun _ => ⟨hfit, hfill.mp hf⟩, fun _ => rfl⟩, .inl rfl,
        fun _ => ⟨js, rfl, chosen_correct hnd hcount hf fun r => (hips r).2⟩⟩
    · have hm : nodeType.items ≠ [] := fun hm => hf fun r _ => filled_of_fits hm hcount hfit r
      rw [if_neg hf, shortage_of_mapped hm (hmaps.mapped hm)] at hspec
      have hr : result = ({ fs with inventory := none }, .skipped) := hspec
      rw [hr]
      exact ⟨⟨fun h => absurd h hne, fun h => absurd (hfill.mpr h.2) hf⟩, .inr rfl,
        fun h => absurd h hne⟩
  · have hr : result = (fs, .skipped) := by
      unfold result writeConfig getHosts
      simp only [hnd, if_true, if_pos (Int.not_le.mp hfit)]
    rw [hr]
    exact ⟨⟨fun h => absurd h hne, fun h => absurd h.1 hfit⟩, .inr rfl, fun h => absurd h hne⟩

end Correct

/-- One server, one gateway. -/
def oneEach : ClusterDef where
  name := "base_cc"
  numSgs := 1
  numAcs := 0
  numCbs := 1
  numLgs := 0
  numLbs := 0

def plainOptions : Options where
  useDocker := false
  sgWindows := false
  sgAccelWindows := false

def twoTyped : PyDict String String :=
  .ofList [("10.0.0.1", "sync_gateways"), ("10.0.0.2", "couchbase_servers")]

theorem allocation_base_cc :
    (writeConfig plainOptions oneEach (.pool ["10.0.0.1", "10.0.0.2"] twoTyped) none
      ⟨none, none⟩).2 = .written := by
  refine (allocation_correct plainOptions oneEach ["10.0.0.1", "10.0.0.2"] twoTyped none ⟨none, none⟩
    (by decide) ?_ (.inr ⟨by decide, fun ip => ?_⟩)).1.mpr ⟨by decide, fun _ r => ?_⟩
  · intro r
    cases r <;> decide
  · have hkeys : twoTyped.keys = ["10.0.0.1", "10.0.0.2"] := by decide
    rw [hkeys]
  · cases r <;> decide

/-! ## Inventory and JSON -/

/-- The two files list the same ips for every role, or are both absent. -/
def Agree (fs : Files) : Prop :=
  match fs.inventory, fs.json with
  | none, none => True
  | some inv, some js => ∀ r, inventoryIps inv r = js.ips r
  | _, _ => False

/-- When `write_config` leaves the files in agreement: nothing is opened, or
every role is filled, or (all ips in the map) there was no earlier file to
leave behind, or (an ip that is not in the map, or a count that runs off the
pool) the earlier JSON lists just what was written before the stop. -/
def KeepsAgreement (config : ClusterDef) (poolFile : PoolFile) (fs : Files) : Prop :=
  match poolFile with
  | .broken _ => True
  | .pool ips nodeType =>
    ¬ Opened config nodeType ips ∨ (∀ r, Filled config nodeType ips r) ∨
      (nodeType.items ≠ [] ∧ (∀ ip ∈ ips, mapped nodeType ip = true) ∧ fs.json = none) ∨
      ((nodeType.items = [] ∨ ∃ ip ∈ ips, mapped nodeType ip = false) ∧
        ∃ js, fs.json = some js ∧ ∀ r, js.ips r = listed config nodeType ips r)

theorem shortage_raised {nodeType : PyDict String String} {ips : List String}
    (h : nodeType.items = [] ∨ ∃ ip ∈ ips, mapped nodeType ip = false) :
    ∃ x, shortage nodeType ips = .raised x := by
  unfold shortage
  by_cases hmap : nodeType.items = []
  · exact ⟨_, if_pos hmap⟩
  · rw [if_neg hmap]
    rcases h with h | ⟨ip, hip, hm⟩
    · exact absurd h hmap
    · have hsome : (ips.find? fun ip => !mapped nodeType ip).isSome := by
        rw [List.find?_isSome]
        exact ⟨ip, hip, by simp [hm]⟩
      obtain ⟨x, hx⟩ := Option.isSome_iff_exists.mp hsome
      rw [hx]
      exact ⟨_, rfl⟩

theorem agree_unlinked (fs : Files) : Agree { fs with inventory := none } ↔ fs.json = none := by
  unfold Agree
  cases fs.json <;> simp

theorem agree_left (fs : Files) (inv : Inventory) :
    Agree { fs with inventory := some inv } ↔
      ∃ js, fs.json = some js ∧ ∀ r, inventoryIps inv r = js.ips r := by
  unfold Agree
  cases fs.json <;> simp

/-- A short role unlinks the inventory, or raises. -/
theorem mapped_or_raises (nodeType : PyDict String String) (ips : List String) :
    (nodeType.items ≠ [] ∧ ∀ ip ∈ ips, mapped nodeType ip = true) ∨
      (nodeType.items = [] ∨ ∃ ip ∈ ips, mapped nodeType ip = false) := by
  by_cases hm : nodeType.items = []
  · exact .inr (.inl hm)
  · by_cases hall : ∀ ip ∈ ips, mapped nodeType ip = true
    · exact .inl ⟨hm, hall⟩
    · simp only [not_forall, Bool.not_eq_true] at hall
      obtain ⟨ip, hip, hf⟩ := hall
      exact .inr (.inr ⟨ip, hip, hf⟩)

theorem not_raises_of_mapped {nodeType : PyDict String String} {ips : List String}
    (h : nodeType.items ≠ [] ∧ ∀ ip ∈ ips, mapped nodeType ip = true) :
    ¬ (nodeType.items = [] ∨ ∃ ip ∈ ips, mapped nodeType ip = false) := by
  intro hr
  rcases hr with hr | ⟨ip, hip, hm⟩
  · exact h.1 hr
  · rw [h.2 ip hip] at hm
    cases hm

/-- **Inventory and JSON**, exactly: whether two files that agree are followed
by two files that agree. -/
theorem files_agree_iff (o : Options) (config : ClusterDef) (poolFile : PoolFile)
    (localIp : Option String) (fs : Files) (h : Agree fs) :
    Agree (writeConfig o config poolFile localIp fs).1 ↔ KeepsAgreement config poolFile fs := by
  cases poolFile with
  | broken x =>
    have hsame : (writeConfig o config (.broken x) localIp fs).1 = fs := rfl
    rw [hsame]
    exact ⟨fun _ => trivial, fun _ => h⟩
  | pool ips nodeType =>
    unfold KeepsAgreement
    simp only
    by_cases hopen : Opened config nodeType ips
    swap
    · rw [(writeConfig_of_not_opened o config nodeType ips localIp fs hopen).1]
      exact ⟨fun _ => .inl hopen, fun _ => h⟩
    have hspec := writeConfig_of_opened o config nodeType ips localIp fs hopen
    by_cases hfill : ∀ r, Filled config nodeType ips r
    · rw [if_pos fun r _ => hfill r] at hspec
      obtain ⟨inv, js, hres, hips⟩ := hspec
      rw [hres]
      refine ⟨fun _ => .inr (.inl hfill), fun _ r => ?_⟩
      rw [(hips r).1, (hips r).2]
    · rw [if_neg fun hf => hfill fun r => hf r (mem_roles r)] at hspec
      rcases mapped_or_raises nodeType ips with hall | hraise
      · -- the inventory is unlinked, the JSON stays
        rw [shortage_of_mapped hall.1 hall.2] at hspec
        simp only at hspec
        rw [hspec, agree_unlinked]
        constructor
        · exact fun hj => .inr (.inr (.inl ⟨hall.1, hall.2, hj⟩))
        · intro hk
          rcases hk with hk | hk | hk | ⟨hk, -⟩
          · exact absurd hopen hk
          · exact absurd hk hfill
          · exact hk.2.2
          · exact absurd hk (not_raises_of_mapped hall)
      · -- the inventory stays as far as it got, and so does the JSON
        obtain ⟨x, hx⟩ := shortage_raised hraise
        rw [hx] at hspec
        obtain ⟨inv, hres, hinv⟩ := hspec
        rw [hres, agree_left]
        constructor
        · intro ⟨js, hj, hips⟩
          exact .inr (.inr (.inr ⟨hraise, js, hj, fun r => by rw [← hips r, hinv r]⟩))
        · intro hk
          rcases hk with hk | hk | hk | ⟨-, js, hj, hips⟩
          · exact absurd hopen hk
          · exact absurd hk hfill
          · exact absurd hraise (not_raises_of_mapped ⟨hk.1, hk.2.1⟩)
          · exact ⟨js, hj, fun r => by rw [hinv r, hips r]⟩

/-- The files of an earlier run: both ips, of the types the map gives. -/
def earlierFiles : Files :=
  (writeConfig plainOptions oneEach (.pool ["10.0.0.1", "10.0.0.2"] twoTyped) none ⟨none, none⟩).1

theorem earlierFiles_agree : Agree earlierFiles := by
  have hmap : ∀ r, inventoryIps (earlierFiles.inventory.getD []) r =
      ((earlierFiles.json.map fun js => js.ips r).getD []) := by
    intro r
    cases r <;> decide
  exact hmap

/-- Run again on the same pool, the files agree. -/
theorem files_agree_again :
    Agree (writeConfig plainOptions oneEach (.pool ["10.0.0.1", "10.0.0.2"] twoTyped) none
      earlierFiles).1 := by
  refine (files_agree_iff plainOptions oneEach _ none earlierFiles earlierFiles_agree).mpr
    (.inr (.inl fun r => ?_))
  cases r <;> decide

/-- Both ips are gateways now: no server is found, the inventory is unlinked
and the old JSON stays. -/
theorem unlinked_inventory_leaves_json :
    Agree earlierFiles ∧
      ¬ Agree (writeConfig plainOptions oneEach (.pool ["10.0.0.1", "10.0.0.2"]
        (.ofList [("10.0.0.1", "sync_gateways"), ("10.0.0.2", "sync_gateways")])) none
        earlierFiles).1 :=
  ⟨earlierFiles_agree, fun h => h⟩

end MobileTestkit.L2.GenerateClusters
