import MobileTestkit.L5Concurrency.ServerPool

/-!
# The pool scripts with no other job acting

What one call of a pool script leaves in the bucket when nobody else touches
it, for every answer of the store, the probes, the clock and Jenkins that
`poolServer` allows.

**Allocation.** `exec_allocate` follows the loop of
`get_nodes_from_pool_server` row by row: `reserve_node` books the document
before the liveness check, and only the rows that are reserved *and* alive
enter `pool_list`, which is all that is returned or released. A row that is
reserved and then found dead stays booked on both exits
(`no_leak_iff_reserved_alive`).

**Cleanup.** The loop of `cleanup_for_blocked_nodes` overwrites its parameter
`job_name` before testing it, so the Jenkins answer is never asked for and
every booked node is released (`exec_cleanup`); a running job keeps its nodes
only if there is none (`cleanup_spares_running_iff`).
-/
namespace MobileTestkit.L5.ServerPool

open MobileTestkit.Core

variable {J : String → String → Jenkins → Prop}

/-! ## One spec per function -/

theorem exec_sdkGet (why : Why) {id : String} {s s' : Pool} {o : Except Exn (Doc × Nat)}
    {tr : List Ev} (hk : id ∈ s.keys) :
    Exec (poolServer J) (sdkGet why id) s s' o tr ↔
      s' = s ∧ o = .ok (s.doc id, s.cas id) ∧ tr = [.read why id (s.doc id) (s.cas id)] := by
  unfold sdkGet
  simp only [Exec]
  constructor
  · rintro ⟨r, hr, h⟩
    have hr' : r = some (s.doc id, s.cas id) := by
      rw [← CasStore.get_of_mem hk]; exact hr
    subst hr'
    obtain ⟨tr', rfl, rfl, rfl, rfl⟩ := h
    exact ⟨rfl, rfl, rfl⟩
  · rintro ⟨h1, h2, h3⟩
    exact ⟨some (s.doc id, s.cas id), (CasStore.get_of_mem hk).symm, [], h3, h1, h2, rfl⟩

/-- A read of an existing document, and what follows it. -/
theorem exec_sdkGet_bind {β : Type} {why : Why} {id : String} {f : Doc × Nat → Prog β} {s s' : Pool}
    {o : Except Exn β} {tr : List Ev} (hk : id ∈ s.keys)
    (h : Exec (poolServer J) ((sdkGet why id).bind f) s s' o tr) :
    ∃ tr', Exec (poolServer J) (f (s.doc id, s.cas id)) s s' o tr' ∧
      tr = .read why id (s.doc id) (s.cas id) :: tr' := by
  obtain ⟨a, s₁, tr₁, tr₂, h1, h2, rfl⟩ := exec_bind_of_returns _
    (fun _ _ _ hx => by cases ((exec_sdkGet why hk).mp hx).2.1) h
  obtain ⟨rfl, ha, rfl⟩ := (exec_sdkGet why hk).mp h1
  cases ha
  exact ⟨tr₂, h2, rfl⟩

/-- The events that say how a row was judged. -/
def Ev.isVerdict : Ev → Bool
  | .reserved _ _ _ => true
  | .alive _ _ => true
  | _ => false

def verdicts (tr : List Ev) : List Ev := tr.filter Ev.isVerdict

@[simp] theorem verdicts_append (a b : List Ev) : verdicts (a ++ b) = verdicts a ++ verdicts b := by
  simp [verdicts]

@[simp] theorem verdicts_read (w : Why) (id : String) (d : Doc) (c : Nat) (tr : List Ev) :
    verdicts (.read w id d c :: tr) = verdicts tr := by
  simp [verdicts, Ev.isVerdict]

theorem mem_verdicts {v : Ev} (hv : v.isVerdict = true) (tr : List Ev) :
    v ∈ verdicts tr ↔ v ∈ tr := by
  simp [verdicts, hv]

/-- `reserve_node` answers `b` on an existing document: `True` books the
document, `False` leaves the bucket alone. -/
def ReserveDone (id : String) (jobName : Job) (s s' : Pool) (o : Except Exn Bool) (tr : List Ev) :
    Prop :=
  ∃ b, o = .ok b ∧ verdicts tr = [.reserved id jobName b] ∧
    (if b then ∃ now, s' = s.put id ((s.doc id).book jobName now) else s' = s)

theorem exec_told {id : String} {jobName : Job} {b : Bool} {s s' : Pool} {o : Except Exn Bool}
    {tr : List Ev} (h : Exec (poolServer J) (told id jobName b) s s' o tr) :
    s' = s ∧ o = .ok b ∧ tr = [.reserved id jobName b] := by
  unfold told at h
  obtain ⟨tr', rfl, h1, h2, rfl⟩ := h
  exact ⟨h1, h2, rfl⟩

theorem told_false_done {id : String} {jobName : Job} {s s' : Pool} {o : Except Exn Bool}
    {tr : List Ev} (h : Exec (poolServer J) (told id jobName false) s s' o tr) :
    ReserveDone id jobName s s' o tr := by
  obtain ⟨rfl, rfl, rfl⟩ := exec_told h
  exact ⟨false, rfl, rfl, rfl⟩

theorem exec_reserveAttempt {id : String} {jobName : Job} {retry : Prog Bool} {s s' : Pool}
    {o : Except Exn Bool} {tr : List Ev} (hk : id ∈ s.keys)
    (hretry : ∀ s' o tr, Exec (poolServer J) retry s s' o tr → ReserveDone id jobName s s' o tr)
    (h : Exec (poolServer J) (reserveAttempt id jobName retry) s s' o tr) :
    ReserveDone id jobName s s' o tr := by
  unfold reserveAttempt at h
  obtain ⟨tr₂, h1, rfl⟩ := exec_sdkGet_bind hk h
  obtain ⟨now, -, r, hok, h2⟩ := h1
  -- the three answers of the replace: accepted, refused, any other failure
  cases r with
  | ok =>
    obtain ⟨rfl, rfl, rfl⟩ := exec_told h2
    exact ⟨true, rfl, by simp [verdicts, Ev.isVerdict], now, rfl⟩
  | couchbaseException =>
    obtain ⟨tr₃, h3, rfl⟩ := exec_sdkGet_bind hk h2
    have hdone : ReserveDone id jobName s s' o tr₃ := by
      dsimp only at h3
      split at h3
      · exact hretry _ _ _ h3
      · exact told_false_done h3
    obtain ⟨b, ho, hv, hs⟩ := hdone
    exact ⟨b, ho, by simpa using hv, hs⟩
  | exception =>
    obtain ⟨b, ho, hv, hs⟩ := told_false_done h2
    exact ⟨b, ho, by simpa using hv, hs⟩

/-- `reserve_node` on an existing document, alone. -/
theorem exec_reserveNode {id : String} {jobName : Job} {counter : Nat} {s s' : Pool}
    {o : Except Exn Bool} {tr : List Ev} (hk : id ∈ s.keys)
    (h : Exec (poolServer J) (reserveNode id jobName counter) s s' o tr) :
    ReserveDone id jobName s s' o tr := by
  have hall : ∀ left s' o tr, Exec (poolServer J) (reserveRetry id jobName left) s s' o tr →
      ReserveDone id jobName s s' o tr := by
    intro left
    induction left with
    | zero => exact fun _ _ _ h => exec_reserveAttempt hk (fun _ _ _ h => told_false_done h) h
    | succ left ih => exact fun _ _ _ h => exec_reserveAttempt hk ih h
  exact hall _ _ _ _ h

theorem exec_sshAttempts {server : String} {s s' : Pool} {o : Except Exn Bool} {tr : List Ev}
    (left : Nat) (h : Exec (poolServer J) (sshAttempts server left) s s' o tr) :
    ∃ b, s' = s ∧ o = .ok b ∧ tr = [] := by
  induction left with
  | zero => exact ⟨false, h⟩
  | succ left ih =>
    simp only [sshAttempts, Exec] at h
    obtain ⟨up, -, h⟩ := h
    cases up with
    | true => exact ⟨true, h⟩
    | false => exact ih h

theorem exec_checkAlive {nodesOsType id : String} {s s' : Pool} {o : Except Exn Bool}
    {tr : List Ev} (h : Exec (poolServer J) (checkAlive nodesOsType id) s s' o tr) :
    ∃ b, s' = s ∧ o = .ok b ∧ tr = [.alive id b] := by
  have hprobe : ∀ s' o tr, Exec (poolServer J)
      (if nodesOsType ∈ MOBILE_OS then checkDeviceAlive id else checkVmAlive id) s s' o tr →
      ∃ b, s' = s ∧ o = .ok b ∧ tr = [] := by
    intro s' o tr h
    split at h
    · obtain ⟨up, -, h⟩ := h
      exact ⟨up, h⟩
    · exact exec_sshAttempts _ h
  unfold checkAlive at h
  obtain ⟨b, s₁, tr₁, tr₂, h1, h2, rfl⟩ := exec_bind_of_returns _ (fun s₁ x tr₁ hx => by
    obtain ⟨b', -, he, -⟩ := hprobe s₁ _ tr₁ hx
    cases he) h
  obtain ⟨b', rfl, he, rfl⟩ := hprobe _ _ _ h1
  cases he
  obtain ⟨tr', rfl, rfl, rfl, rfl⟩ := h2
  exact ⟨b, rfl, rfl, rfl⟩

/-- `sdk_client.replace` without a `cas` on an existing document. -/
theorem exec_sdkReplace {id : String} {d : Doc} {who : Releaser} {s s' : Pool}
    {o : Except Exn Unit} {tr : List Ev} (hk : id ∈ s.keys)
    (h : Exec (poolServer J) (sdkReplace id d who) s s' o tr) :
    s' = s.put id d ∧ o = .ok () ∧ tr = [.released id who] := by
  unfold sdkReplace at h
  simp only [Exec] at h
  obtain ⟨r, hok, h⟩ := h
  cases r with
  | ok =>
    obtain ⟨tr', rfl, h1, h2, rfl⟩ := h
    exact ⟨h1, h2, rfl⟩
  | couchbaseException => exact absurd hk hok
  | exception => exact hok.elim

/-- A release of an existing document, and what follows it. -/
theorem exec_sdkReplace_bind {id : String} {d : Doc} {who : Releaser} {f : Unit → Prog Unit}
    {s s' : Pool} {o : Except Exn Unit} {tr : List Ev} (hk : id ∈ s.keys)
    (h : Exec (poolServer J) ((sdkReplace id d who).bind f) s s' o tr) :
    ∃ tr', Exec (poolServer J) (f ()) (s.put id d) s' o tr' ∧ tr = .released id who :: tr' := by
  obtain ⟨_, s₁, tr₁, tr₂, h1, h2, rfl⟩ := exec_bind_of_returns _
    (fun _ _ _ hx => by cases (exec_sdkReplace hk hx).2.1) h
  obtain ⟨rfl, -, rfl⟩ := exec_sdkReplace hk h1
  exact ⟨tr₂, h2, rfl⟩

/-- Exactly the nodes of `l` were released. -/
def Freed (l : List String) (s s' : Pool) : Prop :=
  s'.keys = s.keys ∧ ∀ n, s'.doc n = if n ∈ l then (s.doc n).free else s.doc n

/-- A step on one node is not seen by the nodes still to come. -/
theorem doc_put_rest {node : String} {rest : List String} (hn : node ∉ rest) (s : Pool) (d : Doc) :
    ∀ n ∈ rest, (s.put node d).doc n = s.doc n :=
  fun _ hm => CasStore.put_doc_of_ne _ _ fun e => hn (e ▸ hm)

theorem freed_cons {node : String} {rest : List String} {s s' : Pool} (hn : node ∉ rest)
    (h : Freed rest (s.put node (s.doc node).free) s') : Freed (node :: rest) s s' := by
  refine ⟨h.1, fun n => ?_⟩
  have hd := h.2 n
  by_cases he : n = node
  · subst he
    simpa [hn] using hd
  · rw [CasStore.put_doc_of_ne _ _ he] at hd
    simpa [he] using hd

/-- Releasing nodes the job holds: each one becomes available, nothing else
changes, and nothing is raised. -/
theorem exec_releaseNode {jobName : Job} (poolList : List String) {s s' : Pool}
    {o : Except Exn Unit} {tr : List Ev} (hnd : poolList.Nodup) (hk : ∀ n ∈ poolList, n ∈ s.keys)
    (hu : ∀ n ∈ poolList, (s.doc n).username = jobName)
    (h : Exec (poolServer J) (releaseNode jobName poolList) s s' o tr) :
    o = .ok () ∧ verdicts tr = [] ∧ Freed poolList s s' := by
  induction poolList generalizing s tr with
  | nil =>
    obtain ⟨rfl, rfl, rfl⟩ := h
    exact ⟨rfl, rfl, rfl, fun n => by simp⟩
  | cons node rest ih =>
    have hkn : node ∈ s.keys := hk node List.mem_cons_self
    obtain ⟨hnr, hrest⟩ := List.nodup_cons.mp hnd
    unfold releaseNode at h
    obtain ⟨tr₁, h1, rfl⟩ := exec_sdkGet_bind hkn h
    dsimp only at h1
    rw [if_pos (by rw [hu node List.mem_cons_self])] at h1
    obtain ⟨tr₂, h2, rfl⟩ := exec_sdkReplace_bind hkn h1
    have hdoc := doc_put_rest hnr s (s.doc node).free
    have hk' : ∀ n ∈ rest, n ∈ (s.put node (s.doc node).free).keys :=
      fun n hn => hk n (List.mem_cons_of_mem _ hn)
    obtain ⟨ho, hv, hfreed⟩ := ih hrest hk'
      (fun n hn => by rw [hdoc n hn]; exact hu n (List.mem_cons_of_mem _ hn)) h2
    exact ⟨ho, by simpa [verdicts, Ev.isVerdict] using hv, freed_cons hnr hfreed⟩

/-! ## The allocation loop -/

/-- The document is booked under `jobName`. -/
def Doc.BookedBy (jobName : Job) (d : Doc) : Prop := d.state = "booked" ∧ d.username = jobName

instance (jobName : Job) (d : Doc) : Decidable (d.BookedBy jobName) :=
  inferInstanceAs (Decidable (_ ∧ _))

theorem Doc.book_bookedBy (d : Doc) (jobName : Job) (now : String) :
    (d.book jobName now).BookedBy jobName := ⟨rfl, rfl⟩

/-- A row the loop went through: the node, the answer of `reserve_node` and
the answer of the liveness check. -/
structure Visit where
  id : String
  reserved : Bool
  alive : Bool

def Visit.events (jobName : Job) (v : Visit) : List Ev :=
  [.reserved v.id jobName v.reserved, .alive v.id v.alive]

/-- The nodes that enter `pool_list`. -/
def kept (vs : List Visit) : List String :=
  (vs.filter fun v => v.reserved && v.alive).map Visit.id

/-- The nodes that are reserved and then found dead. -/
def lost (vs : List Visit) : List String :=
  (vs.filter fun v => v.reserved && !v.alive).map Visit.id

/-- What a finished loop leaves behind: on return, every reserved row is
booked; when it gives up, the rows of `pool_list` are free again. Everything
else is as it was. -/
def LoopDone (numOfNodes : Int) (jobName : Job) (poolList : List String) (vs : List Visit)
    (s s' : Pool) : Except Exn (List String) → Prop
  | .ok l => l = poolList ++ kept vs ∧ (l.length : Int) = numOfNodes ∧
      ∀ n, (n ∈ kept vs ∨ n ∈ lost vs → (s'.doc n).BookedBy jobName) ∧
        (n ∉ kept vs → n ∉ lost vs → s'.doc n = s.doc n)
  | .error x => x = notEnoughNodes ∧
      ∀ n, (n ∈ lost vs → (s'.doc n).BookedBy jobName) ∧
        (n ∈ poolList ∨ n ∈ kept vs → (s'.doc n).state = "available") ∧
        (n ∉ lost vs → n ∉ poolList → n ∉ kept vs → s'.doc n = s.doc n)

theorem kept_subset {vs : List Visit} {n : String} (h : n ∈ kept vs) : n ∈ vs.map Visit.id := by
  obtain ⟨v, hv, rfl⟩ := List.mem_map.mp h
  exact List.mem_map.mpr ⟨v, (List.mem_filter.mp hv).1, rfl⟩

theorem lost_subset {vs : List Visit} {n : String} (h : n ∈ lost vs) : n ∈ vs.map Visit.id := by
  obtain ⟨v, hv, rfl⟩ := List.mem_map.mp h
  exact List.mem_map.mpr ⟨v, (List.mem_filter.mp hv).1, rfl⟩

theorem kept_cons (v : Visit) (vs : List Visit) : kept (v :: vs) = kept [v] ++ kept vs := by
  unfold kept
  cases h : v.reserved && v.alive <;> simp [h]

theorem mem_kept_cons (v : Visit) (vs : List Visit) (n : String) :
    n ∈ kept (v :: vs) ↔ (n = v.id ∧ v.reserved = true ∧ v.alive = true) ∨ n ∈ kept vs := by
  obtain ⟨id, r, a⟩ := v
  cases r <;> cases a <;> simp [kept]

theorem mem_lost_cons (v : Visit) (vs : List Visit) (n : String) :
    n ∈ lost (v :: vs) ↔ (n = v.id ∧ v.reserved = true ∧ v.alive = false) ∨ n ∈ lost vs := by
  obtain ⟨id, r, a⟩ := v
  cases r <;> cases a <;> simp [lost]

/-- One row is judged: `s₁` is the bucket after `reserve_node`. -/
structure Judged (jobName : Job) (v : Visit) (s s₁ : Pool) : Prop where
  keys : s₁.keys = s.keys
  other : ∀ n, n ≠ v.id → s₁.doc n = s.doc n
  booked : v.reserved = true → (s₁.doc v.id).BookedBy jobName
  same : v.reserved = false → s₁.doc v.id = s.doc v.id

theorem judged_of_reserve {id : String} {jobName : Job} {b a : Bool} {s s₁ : Pool}
    (hs : if b then ∃ now, s₁ = s.put id ((s.doc id).book jobName now) else s₁ = s) :
    Judged jobName ⟨id, b, a⟩ s s₁ := by
  cases b with
  | false =>
    simp only [Bool.false_eq_true, if_false] at hs
    subst hs
    exact ⟨rfl, fun _ _ => rfl, fun h => Bool.noConfusion h, fun _ => rfl⟩
  | true =>
    simp only [if_true] at hs
    obtain ⟨now, rfl⟩ := hs
    refine ⟨rfl, fun n hn => CasStore.put_doc_of_ne _ _ hn, fun _ => ?_, fun h => Bool.noConfusion h⟩
    rw [CasStore.put_doc_self]
    exact Doc.book_bookedBy _ _ _

/-- A judged row in front of a finished loop. -/
theorem loopDone_cons {numOfNodes : Int} {jobName : Job} {poolList : List String} {v : Visit}
    {vs : List Visit} {s s₁ s' : Pool} {o : Except Exn (List String)} (hj : Judged jobName v s s₁)
    (hp : v.id ∉ poolList) (hvs : v.id ∉ vs.map Visit.id)
    (h : LoopDone numOfNodes jobName (poolList ++ kept [v]) vs s₁ s' o) :
    LoopDone numOfNodes jobName poolList (v :: vs) s s' o := by
  have hk : v.id ∉ kept vs := fun hm => hvs (kept_subset hm)
  have hl : v.id ∉ lost vs := fun hm => hvs (lost_subset hm)
  have hpool : ∀ n, n ∈ poolList ++ kept [v] ↔
      n ∈ poolList ∨ (n = v.id ∧ v.reserved = true ∧ v.alive = true) := by
    intro n
    rw [List.mem_append, mem_kept_cons]
    simp [kept]
  -- the node of the row itself, or one the row does not touch
  cases o with
  | ok l =>
    obtain ⟨hl', hlen, hd⟩ := h
    refine ⟨by rw [hl', kept_cons v vs, List.append_assoc], hlen, fun n => ?_⟩
    have hdn := hd n
    rw [mem_kept_cons, mem_lost_cons]
    by_cases hn : n = v.id
    · subst hn
      have hs' := hdn.2 hk hl
      cases hr : v.reserved with
      | false => simp [hk, hl, hs', hj.same hr]
      | true => cases ha : v.alive <;> simp [hs', hj.booked hr]
    · simpa [hn, hj.other n hn] using hdn
  | error x =>
    obtain ⟨hx, hd⟩ := h
    refine ⟨hx, fun n => ?_⟩
    have hdn := hd n
    rw [hpool] at hdn
    rw [mem_kept_cons, mem_lost_cons]
    by_cases hn : n = v.id
    · subst hn
      cases hr : v.reserved with
      | false =>
        have hs' := hdn.2.2 hl (by simp [hp, hr]) hk
        simp [hp, hk, hl, hs', hj.same hr]
      | true =>
        cases ha : v.alive with
        | false =>
          have hs' := hdn.2.2 hl (by simp [hp, ha]) hk
          simp [hp, hk, hs', hj.booked hr]
        | true =>
          have hs' := hdn.2.1 (by simp [hr, ha])
          simp [hl, hs']
    · simpa [hn, hj.other n hn] using hdn

/-- Where the loop stands: the job holds the nodes of `poolList`, and the rows
left are other nodes. -/
structure Holding (jobName : Job) (poolList rows : List String) (s : Pool) : Prop where
  nodup : (poolList ++ rows).Nodup
  keys : ∀ n ∈ poolList ++ rows, n ∈ s.keys
  held : ∀ n ∈ poolList, (s.doc n).username = jobName

section Loop

variable {numOfNodes : Int} {nodesOsType : String} {jobName : Job} {poolList rows : List String}
  {s s' : Pool} {o : Except Exn (List String)} {tr : List Ev}

/-- A judged row goes to the nodes held, or is left behind. -/
theorem Holding.next {v : Visit} {s₁ : Pool} (h : Holding jobName poolList (v.id :: rows) s)
    (hj : Judged jobName v s s₁) : Holding jobName (poolList ++ kept [v]) rows s₁ := by
  have hid : v.id ∉ poolList := fun hm => (List.nodup_append.mp h.nodup).2.2 _ hm _ (by simp) rfl
  have hmem : ∀ n ∈ poolList ++ kept [v], n ∈ poolList ∨ (n = v.id ∧ v.reserved = true) := by
    intro n hn
    rw [List.mem_append, mem_kept_cons] at hn
    rcases hn with hn | hn | hn
    · exact .inl hn
    · exact .inr ⟨hn.1, hn.2.1⟩
    · simp [kept] at hn
  refine ⟨?_, fun n hn => ?_, fun n hn => ?_⟩
  · have hsub : (poolList ++ (kept [v] ++ rows)).Sublist (poolList ++ v.id :: rows) := by
      apply List.Sublist.append_left
      obtain ⟨id, r, a⟩ := v
      cases r <;> cases a <;> simp [kept]
    rw [List.append_assoc]
    exact hsub.nodup h.nodup
  · rw [hj.keys]
    rcases List.mem_append.mp hn with hn | hn
    · rcases hmem n hn with hn | ⟨rfl, -⟩
      · exact h.keys n (List.mem_append_left _ hn)
      · exact h.keys _ (by simp)
    · exact h.keys n (by simp [hn])
  · rcases hmem n hn with hn | ⟨rfl, hr⟩
    · have hne : n ≠ v.id := fun e => hid (e ▸ hn)
      rw [hj.other n hne]
      exact h.held n hn
    · exact (hj.booked hr).2

/-- The loop gives up: `release_node` frees the nodes of `poolList`. -/
theorem exec_allocate_nil (hold : Holding jobName poolList [] s)
    (h : Exec (poolServer J) (allocate numOfNodes nodesOsType jobName [] poolList) s s' o tr) :
    verdicts tr = [] ∧ LoopDone numOfNodes jobName poolList [] s s' o := by
  have hnd := hold.nodup
  have hk := hold.keys
  rw [List.append_nil] at hnd hk
  unfold allocate at h
  obtain ⟨_, s₁, tr₁, tr₂, h1, h2, rfl⟩ := exec_bind_of_returns _
    (fun _ _ _ hx => by cases (exec_releaseNode poolList hnd hk hold.held hx).1) h
  obtain ⟨-, hv, -, hd⟩ := exec_releaseNode poolList hnd hk hold.held h1
  obtain ⟨rfl, rfl, rfl⟩ := h2
  refine ⟨by simpa using hv, rfl, fun n => ?_⟩
  have hdn := hd n
  by_cases hn : n ∈ poolList
  · rw [if_pos hn] at hdn
    simp [lost, kept, hn, hdn, Doc.free]
  · rw [if_neg hn] at hdn
    simp [lost, kept, hn, hdn]

/-- One iteration: the row is judged, and the loop returns or goes on. -/
theorem exec_allocate_cons {id : String} (hid : id ∈ s.keys)
    (h : Exec (poolServer J) (allocate numOfNodes nodesOsType jobName (id :: rows) poolList)
      s s' o tr) :
    ∃ v s₁ tr', v.id = id ∧ Judged jobName v s s₁ ∧
      verdicts tr = v.events jobName ++ verdicts tr' ∧
      Exec (poolServer J)
        (if ((poolList ++ kept [v]).length : Int) = numOfNodes then .ret (poolList ++ kept [v])
          else allocate numOfNodes nodesOsType jobName rows (poolList ++ kept [v])) s₁ s' o tr' := by
  unfold allocate at h
  obtain ⟨r, s₁, tr₁, tr₂, h1, hnext, rfl⟩ := exec_bind_of_returns _ (fun _ _ _ hx => by
    obtain ⟨b, hb, -⟩ := exec_reserveNode hid hx
    cases hb) h
  obtain ⟨_, hb, hv1, hs1⟩ := exec_reserveNode hid h1
  cases hb
  obtain ⟨a, s₂, tr₃, tr₄, h2, hrest, rfl⟩ := exec_bind_of_returns _ (fun _ _ _ hx => by
    obtain ⟨b, -, hb, -⟩ := exec_checkAlive hx
    cases hb) hnext
  obtain ⟨_, hs2, ha, rfl⟩ := exec_checkAlive h2
  cases ha
  subst s₂
  have hpool : (if (r && a) = true then poolList ++ [id] else poolList) =
      poolList ++ kept [⟨id, r, a⟩] := by
    cases r <;> cases a <;> simp [kept]
  dsimp only at hrest
  rw [hpool] at hrest
  refine ⟨⟨id, r, a⟩, s₁, tr₄, rfl, judged_of_reserve hs1, ?_, hrest⟩
  rw [verdicts_append, hv1, verdicts_append]
  rfl

end Loop

/-- **The loop.** It judges a prefix of the rows and leaves what `LoopDone`
says. -/
theorem exec_allocate (numOfNodes : Int) (nodesOsType : String) (jobName : Job)
    (rows poolList : List String) {s s' : Pool} {o : Except Exn (List String)} {tr : List Ev}
    (hold : Holding jobName poolList rows s)
    (h : Exec (poolServer J) (allocate numOfNodes nodesOsType jobName rows poolList) s s' o tr) :
    ∃ vs : List Visit, vs.map Visit.id <+: rows ∧
      verdicts tr = vs.flatMap (Visit.events jobName) ∧
      LoopDone numOfNodes jobName poolList vs s s' o := by
  -- induction on the rows; the bucket and `poolList` move with the loop
  induction rows generalizing s poolList tr with
  | nil =>
    obtain ⟨hv, hd⟩ := exec_allocate_nil hold h
    exact ⟨[], List.nil_prefix, hv, hd⟩
  | cons id rows ih =>
    obtain ⟨v, s₁, tr', rfl, hj, hv, hrest⟩ := exec_allocate_cons (hold.keys id (by simp)) h
    have hidp : v.id ∉ poolList :=
      fun hm => (List.nodup_append.mp hold.nodup).2.2 _ hm _ (by simp) rfl
    have hidr : v.id ∉ rows := (List.nodup_cons.mp (List.nodup_append.mp hold.nodup).2.1).1
    by_cases hlen : ((poolList ++ kept [v]).length : Int) = numOfNodes
    · -- the list is complete
      rw [if_pos hlen] at hrest
      obtain ⟨rfl, rfl, rfl⟩ := hrest
      refine ⟨[v], by simp, by simpa [verdicts] using hv, ?_⟩
      exact loopDone_cons hj hidp (by simp) ⟨by simp [kept], hlen, by simp [kept, lost]⟩
    · rw [if_neg hlen] at hrest
      obtain ⟨vs, hpre, hvs, hdone⟩ := ih _ (hold.next hj) hrest
      refine ⟨v :: vs, ?_, ?_, ?_⟩
      · exact (List.prefix_cons_inj v.id).mpr hpre
      · rw [hv, hvs]
        rfl
      · exact loopDone_cons hj hidp (fun hm => hidr (hpre.subset hm)) hdone

/-! ## No leaked booking -/

/-- Booked under `jobName` by the call: after it and not before. -/
def NewlyBooked (jobName : Job) (s s' : Pool) (n : String) : Prop :=
  (s'.doc n).BookedBy jobName ∧ ¬ (s.doc n).BookedBy jobName

instance (jobName : Job) (s s' : Pool) (n : String) : Decidable (NewlyBooked jobName s s' n) :=
  inferInstanceAs (Decidable (_ ∧ _))

/-- What `get_nodes_from_pool_server` owes its caller. -/
def NoLeak (numOfNodes : Int) (jobName : Job) (s s' : Pool) : Except Exn (List String) → Prop
  | .ok l => (l.length : Int) = numOfNodes ∧ l.Nodup ∧ ∀ n, NewlyBooked jobName s s' n ↔ n ∈ l
  | .error x => x = notEnoughNodes → ∀ n, ¬ NewlyBooked jobName s s' n

theorem mem_events {v : Ev} {jobName : Job} {tr : List Ev} {vs : List Visit}
    (hv : v.isVerdict = true) (h : verdicts tr = vs.flatMap (Visit.events jobName)) :
    v ∈ tr ↔ ∃ x ∈ vs, v ∈ x.events jobName := by
  rw [← mem_verdicts hv, h, List.mem_flatMap]

/-- Rows have different ids, so "the row of `n`" is one row. -/
theorem visit_unique {vs : List Visit} (hnd : (vs.map Visit.id).Nodup) {x y : Visit} (hx : x ∈ vs)
    (hy : y ∈ vs) (h : x.id = y.id) : x = y := List.inj_on_of_nodup_map hnd hx hy h

theorem lost_eq_nil_iff {jobName : Job} {tr : List Ev} {vs : List Visit}
    (hnd : (vs.map Visit.id).Nodup) (h : verdicts tr = vs.flatMap (Visit.events jobName)) :
    lost vs = [] ↔ ∀ n, Ev.reserved n jobName true ∈ tr → Ev.alive n false ∉ tr := by
  have hres : ∀ n, Ev.reserved n jobName true ∈ tr ↔ ∃ x ∈ vs, n = x.id ∧ x.reserved = true := by
    intro n
    rw [mem_events rfl h]
    simp [Visit.events]
  have halive : ∀ n, Ev.alive n false ∈ tr ↔ ∃ x ∈ vs, n = x.id ∧ x.alive = false := by
    intro n
    rw [mem_events rfl h]
    simp [Visit.events]
  unfold lost
  rw [List.map_eq_nil_iff, List.filter_eq_nil_iff]
  constructor
  · intro hall n hr ha
    obtain ⟨x, hx, hxn, hxr⟩ := (hres n).mp hr
    obtain ⟨y, hy, hyn, hya⟩ := (halive n).mp ha
    have hxy : x = y := visit_unique hnd hx hy (hxn.symm.trans hyn)
    subst hxy
    exact hall x hx (by simp [hxr, hya])
  · intro hall x hx hlost
    simp only [Bool.and_eq_true, Bool.not_eq_true'] at hlost
    exact hall x.id ((hres _).mpr ⟨x, hx, rfl, hlost.1⟩) ((halive _).mpr ⟨x, hx, rfl, hlost.2⟩)

/-- Kept and lost rows are different rows. -/
theorem not_mem_kept_of_lost {vs : List Visit} (hnd : (vs.map Visit.id).Nodup) {n : String}
    (hl : n ∈ lost vs) : n ∉ kept vs := by
  intro hk
  obtain ⟨x, hx, hxn⟩ := List.mem_map.mp hl
  obtain ⟨y, hy, hyn⟩ := List.mem_map.mp hk
  have hx' := List.mem_filter.mp hx
  have hy' := List.mem_filter.mp hy
  have hxy : x = y := visit_unique hnd hx'.1 hy'.1 (hxn.trans hyn.symm)
  subst hxy
  have h1 := hx'.2
  have h2 := hy'.2
  simp only [Bool.and_eq_true, Bool.not_eq_true'] at h1 h2
  rw [h1.2] at h2
  exact Bool.noConfusion h2.2

/-- A finished loop over available rows leaks exactly its lost rows. -/
theorem noLeak_iff_lost {numOfNodes : Int} {jobName : Job} {vs : List Visit} {s s' : Pool}
    {o : Except Exn (List String)} (hnd : (vs.map Visit.id).Nodup)
    (hfree : ∀ n ∈ vs.map Visit.id, ¬ (s.doc n).BookedBy jobName)
    (h : LoopDone numOfNodes jobName [] vs s s' o) :
    NoLeak numOfNodes jobName s s' o ↔ lost vs = [] := by
  have hlost : ∀ n ∈ lost vs, (s'.doc n).BookedBy jobName → NewlyBooked jobName s s' n :=
    fun n hn hb => ⟨hb, hfree n (lost_subset hn)⟩
  cases o with
  | ok l =>
    obtain ⟨hl, hlen, hd⟩ := h
    rw [List.nil_append] at hl
    subst hl
    constructor
    · intro ⟨_, _, hnew⟩
      apply List.eq_nil_iff_forall_not_mem.mpr
      intro n hn
      exact not_mem_kept_of_lost hnd hn ((hnew n).mp (hlost n hn ((hd n).1 (.inr hn))))
    · intro hnil
      have hsub : (kept vs).Sublist (vs.map Visit.id) := List.filter_sublist.map _
      refine ⟨hlen, hsub.nodup hnd, fun n => ?_⟩
      constructor
      · intro ⟨hb, hnb⟩
        by_cases hn : n ∈ kept vs
        · exact hn
        · rw [(hd n).2 hn (by simp [hnil])] at hb
          exact absurd hb hnb
      · intro hn
        exact ⟨(hd n).1 (.inl hn), hfree n (kept_subset hn)⟩
  | error x =>
    obtain ⟨hx, hd⟩ := h
    constructor
    · intro hnone
      apply List.eq_nil_iff_forall_not_mem.mpr
      intro n hn
      exact hnone hx n (hlost n hn ((hd n).1 hn))
    · intro hnil _ n ⟨hb, hnb⟩
      by_cases hn : n ∈ kept vs
      · have hst := (hd n).2.1 (.inr hn)
        rw [hb.1] at hst
        exact absurd hst (by decide)
      · rw [(hd n).2.2 (by simp [hnil]) (by simp) hn] at hb
        exact hnb hb

/-- The rows of the select are pool nodes, each once, and not booked. -/
theorem rows_of_select {os version : String} {ip : Option String} {s : Pool} {rows : List String}
    (h : rows.Perm (s.keys.filter fun k => (Where.available os version ip).holds (s.doc k))) :
    rows.Nodup ∧ ∀ n ∈ rows, n ∈ s.keys ∧ (s.doc n).state = "available" := by
  refine ⟨h.nodup_iff.mpr (s.nodup.filter _), fun n hn => ?_⟩
  obtain ⟨hk, hw⟩ := List.mem_filter.mp (h.mem_iff.mp hn)
  simp only [Where.holds, Bool.and_eq_true, beq_iff_eq] at hw
  exact ⟨hk, hw.1.2⟩

theorem noLeak_allocate {os version : String} {ip : Option String} {numOfNodes : Int}
    {nodesOsType : String} {jobName : Job} {rows : List String} {s s' : Pool}
    {o : Except Exn (List String)} {tr : List Ev}
    (hrows : rows.Perm (s.keys.filter fun k => (Where.available os version ip).holds (s.doc k)))
    (h : Exec (poolServer J) (allocate numOfNodes nodesOsType jobName rows []) s s' o tr) :
    NoLeak numOfNodes jobName s s' o ↔
      ∀ n, Ev.reserved n jobName true ∈ tr → Ev.alive n false ∉ tr := by
  obtain ⟨hnd, havail⟩ := rows_of_select hrows
  have hold : Holding jobName [] rows s :=
    ⟨hnd, fun n hn => (havail n hn).1, fun n hn => absurd hn List.not_mem_nil⟩
  obtain ⟨vs, hpre, htr, hdone⟩ := exec_allocate numOfNodes nodesOsType jobName rows [] hold h
  have hnd' : (vs.map Visit.id).Nodup := hpre.sublist.nodup hnd
  have hfree : ∀ n ∈ vs.map Visit.id, ¬ (s.doc n).BookedBy jobName := by
    intro n hn hb
    have hst := (havail n (hpre.subset hn)).2
    rw [hb.1] at hst
    exact absurd hst (by decide)
  rw [noLeak_iff_lost hnd' hfree hdone, lost_eq_nil_iff hnd' htr]

/-- **No leaked booking**, exactly: a call keeps its promise iff no node it
reserved was then found dead. -/
theorem no_leak_iff_reserved_alive (numOfNodes : Int) (nodesOsType nodeOsVersion : String)
    (jobName : Job) (slaveIp : Option String) (s s' : Pool) (o : Except Exn (List String))
    (tr : List Ev)
    (h : Exec (poolServer J)
      (getNodesFromPoolServer numOfNodes nodesOsType nodeOsVersion jobName slaveIp) s s' o tr) :
    NoLeak numOfNodes jobName s s' o ↔
      ∀ n, Ev.reserved n jobName true ∈ tr → Ev.alive n false ∉ tr := by
  unfold getNodesFromPoolServer at h
  split at h
  · split at h
    · -- no slave ip: nothing was touched
      obtain ⟨rfl, rfl, rfl⟩ := h
      simp [NoLeak, needSlaveIp, notEnoughNodes]
    · obtain ⟨rows, hrows, h⟩ := h
      exact noLeak_allocate hrows h
  · obtain ⟨rows, hrows, h⟩ := h
    exact noLeak_allocate hrows h

def idleNode : Doc where
  os := "debian"
  osVersion := "12"
  slaveIp := none
  state := "available"
  username := some ""
  prevUser := some ""
  bookedTime := ""

def idlePool : Pool where
  keys := ["10.0.0.1", "10.0.0.2"]
  doc _ := idleNode
  cas _ := 0
  clock := 1
  nodup := by decide
  cas_lt _ := Nat.one_pos

/-- A job that asks for one debian node. -/
def oneDebian : Prog (List String) := getNodesFromPoolServer 1 "debian" "12" (some "sgw:7") none

/-- The answers when only the nodes of `up` answer ssh. -/
def answering (up : String → Bool) : Pool → (q : Query) → Answer q :=
  Pool.reply up fun _ _ => .unreachable

/-- Both nodes up: the first one is booked and returned. -/
theorem no_leak_idle_pool :
    ∃ s' o tr, Exec (poolServer fun _ _ _ => True) oneDebian idlePool s' o tr ∧
      NoLeak 1 (some "sgw:7") idlePool s' o := by
  have hrun := exec_run (poolServer fun _ _ _ => True)
    (reply_ok (fun _ => true) (fun _ _ => .unreachable) fun _ _ => trivial) oneDebian idlePool
  refine ⟨_, _, _, hrun, (no_leak_iff_reserved_alive 1 _ _ _ _ _ _ _ _ hrun).mpr ?_⟩
  have htr : (oneDebian.run (poolServer fun _ _ _ => True) (answering fun _ => true) idlePool).2.2 =
      [.read .reserve "10.0.0.1" idleNode 0, .reserved "10.0.0.1" (some "sgw:7") true,
        .alive "10.0.0.1" true] := by decide
  intro n _ ha
  have ha' : Ev.alive n false ∈
      (oneDebian.run (poolServer fun _ _ _ => True) (answering fun _ => true) idlePool).2.2 := ha
  rw [htr] at ha'
  simp at ha'

/-- The first node is booked, does not answer, and is neither returned nor
released. -/
theorem reserved_dead_node_leaks :
    ∃ s' o tr, Exec (poolServer fun _ _ _ => True) oneDebian idlePool s' o tr ∧
      ¬ NoLeak 1 (some "sgw:7") idlePool s' o := by
  refine ⟨_, _, _, exec_run (poolServer fun _ _ _ => True)
    (reply_ok (· ≠ "10.0.0.1") (fun _ _ => .unreachable) fun _ _ => trivial) oneDebian idlePool, ?_⟩
  have ho : (oneDebian.run (poolServer fun _ _ _ => True) (answering (· ≠ "10.0.0.1")) idlePool).2.1 =
      .ok ["10.0.0.2"] := by rfl
  have hd : NewlyBooked (some "sgw:7") idlePool (oneDebian.run (poolServer fun _ _ _ => True)
      (answering (· ≠ "10.0.0.1")) idlePool).1 "10.0.0.1" := by decide
  intro h
  change NoLeak 1 _ _ _ (oneDebian.run (poolServer fun _ _ _ => True)
    (answering (· ≠ "10.0.0.1")) idlePool).2.1 at h
  rw [ho] at h
  have hmem : "10.0.0.1" ∈ ["10.0.0.2"] := (h.2.2 "10.0.0.1").mp hd
  exact absurd hmem (by decide)

/-! ## Cleanup -/

/-- A user the cleanup can take apart: empty, or a job and a build. -/
def JobBuild (username : Job) : Prop :=
  username = some "" ∨ ∃ job build : String, username = some (job ++ ":" ++ build)

theorem owner_ok {username : Job} (h : JobBuild username) :
    ∃ job build, owner username = .ok (job, build) := by
  rcases h with rfl | ⟨job, build, rfl⟩
  · exact ⟨"test_job", "123", by decide⟩
  · have hcolon : ':' ∈ (job ++ ":" ++ build).toList := by simp
    have hne : job ++ ":" ++ build ≠ "" := by
      intro he
      rw [he] at hcolon
      simp at hcolon
    obtain ⟨a, b, rest, hsplit⟩ := PyStr.split_two _ _ hcolon
    refine ⟨a, b, ?_⟩
    unfold owner
    simp only [if_neg hne, hsplit]

/-- Every booked row is released, whatever Jenkins would answer. -/
theorem exec_cleanupRows (rows : List String) {s s' : Pool} {o : Except Exn Unit} {tr : List Ev}
    (hnd : rows.Nodup) (hk : ∀ n ∈ rows, n ∈ s.keys)
    (hb : ∀ n ∈ rows, (s.doc n).state = "booked" ∧ JobBuild (s.doc n).username)
    (h : Exec (poolServer J) (cleanupRows rows) s s' o tr) : o = .ok () ∧ Freed rows s s' := by
  induction rows generalizing s tr with
  | nil =>
    obtain ⟨rfl, rfl, rfl⟩ := h
    exact ⟨rfl, rfl, fun n => by simp⟩
  | cons node rest ih =>
    have hkn : node ∈ s.keys := hk node List.mem_cons_self
    obtain ⟨hnr, hrest⟩ := List.nodup_cons.mp hnd
    obtain ⟨hst, hu⟩ := hb node List.mem_cons_self
    obtain ⟨job, build, hown⟩ := owner_ok hu
    unfold cleanupRows at h
    obtain ⟨r, hr, h⟩ := h
    have hr' : r = some (s.doc node, s.cas node) := by
      rw [← CasStore.get_of_mem hkn]; exact hr
    subst hr'
    obtain ⟨tr', rfl, h⟩ := h
    rw [if_neg (by rw [hst]; decide), hown] at h
    simp only [Option.isSome_some, if_true] at h
    obtain ⟨tr₂, h2, rfl⟩ := exec_sdkReplace_bind hkn h
    have hdoc := doc_put_rest hnr s (s.doc node).free
    have hk' : ∀ n ∈ rest, n ∈ (s.put node (s.doc node).free).keys :=
      fun n hn => hk n (List.mem_cons_of_mem _ hn)
    obtain ⟨ho, hfreed⟩ := ih hrest hk'
      (fun n hn => by rw [hdoc n hn]; exact hb n (List.mem_cons_of_mem _ hn)) h2
    exact ⟨ho, freed_cons hnr hfreed⟩

/-- The REST API answers as if the builds of `running` were running. -/
def AnswersAs (running : String → String → Bool) (job build : String) (r : Jenkins) : Prop :=
  r ≠ .unreachable ∧ (r = .resp 200 (some none) ↔ running job build = true)

/-- The build that owns the node is running. -/
def OwnerRunning (running : String → String → Bool) (d : Doc) : Prop :=
  ∃ job build, owner d.username = .ok (job, build) ∧ running job build = true

/-- A node is released iff it is booked and its owner is not running; every
other document is unchanged. -/
def SparesRunning (running : String → String → Bool) (s s' : Pool) : Prop :=
  ∀ n ∈ s.keys,
    ((s.doc n).state = "booked" ∧ ¬ OwnerRunning running (s.doc n) → s'.doc n = (s.doc n).free) ∧
    (¬ ((s.doc n).state = "booked" ∧ ¬ OwnerRunning running (s.doc n)) → s'.doc n = s.doc n)

theorem Doc.free_ne {d : Doc} (h : d.state = "booked") : d.free ≠ d := by
  intro he
  have hst : "available" = d.state := congrArg Doc.state he
  rw [h] at hst
  exact absurd hst (by decide)

/-- Without a job name, all booked nodes are released. -/
theorem exec_cleanup {s s' : Pool} {o : Except Exn Unit} {tr : List Ev}
    (hs : ∀ n ∈ s.keys, (s.doc n).state = "booked" → JobBuild (s.doc n).username)
    (h : Exec (poolServer J) (cleanupForBlockedNodes none) s s' o tr) :
    o = .ok () ∧ ∀ n ∈ s.keys,
      s'.doc n = if (s.doc n).state = "booked" then (s.doc n).free else s.doc n := by
  obtain ⟨rows, hrows, h⟩ := h
  have hperm : rows.Perm (s.keys.filter fun k => (Where.booked none).holds (s.doc k)) := hrows
  have hmem : ∀ n, n ∈ rows ↔ n ∈ s.keys ∧ (s.doc n).state = "booked" := by
    intro n
    rw [hperm.mem_iff, List.mem_filter]
    simp [Where.holds]
  obtain ⟨ho, -, hd⟩ := exec_cleanupRows rows (hperm.nodup_iff.mpr (s.nodup.filter _))
    (fun n hn => ((hmem n).mp hn).1)
    (fun n hn => ⟨((hmem n).mp hn).2, hs n ((hmem n).mp hn).1 ((hmem n).mp hn).2⟩) h
  refine ⟨ho, fun n hn => ?_⟩
  rw [hd n]
  simp only [hmem, hn, true_and]

/-- **Cleanup and running jobs**, exactly: `cleanup_for_blocked_nodes()`
always finishes, and spares the nodes of running jobs iff no booked node
belongs to one. -/
theorem cleanup_spares_running_iff (running : String → String → Bool) (s : Pool)
    (hs : ∀ n ∈ s.keys, (s.doc n).state = "booked" → JobBuild (s.doc n).username) :
    (∃ s' o tr, Exec (poolServer (AnswersAs running)) (cleanupForBlockedNodes none) s s' o tr) ∧
    ∀ s' o tr, Exec (poolServer (AnswersAs running)) (cleanupForBlockedNodes none) s s' o tr →
      ((o = .ok () ∧ SparesRunning running s s') ↔
        ∀ n ∈ s.keys, (s.doc n).state = "booked" → ¬ OwnerRunning running (s.doc n)) := by
  refine ⟨⟨_, _, _, exec_run _ (reply_ok (fun _ => true)
    (fun job build => .resp 200 (if running job build then some none else none)) ?_) _ _⟩, ?_⟩
  · intro job build
    unfold AnswersAs
    cases running job build <;> simp
  · intro s' o tr h
    obtain ⟨ho, hd⟩ := exec_cleanup hs h
    constructor
    · intro ⟨_, hspare⟩ n hn hb hrun
      have hsame := (hspare n hn).2 (fun hnot => hnot.2 hrun)
      rw [hd n hn, if_pos hb] at hsame
      exact Doc.free_ne hb hsame
    · intro hnone
      refine ⟨ho, fun n hn => ⟨fun hb => ?_, fun hnot => ?_⟩⟩
      · rw [hd n hn, if_pos hb.1]
      · have hnb : (s.doc n).state ≠ "booked" := fun hb => hnot ⟨hb, hnone n hn hb⟩
        rw [hd n hn, if_neg hnb]

/-- One node booked by `sgw:7`. -/
def busyPool : Pool where
  keys := ["10.0.0.1"]
  doc _ := idleNode.book (some "sgw:7") ""
  cas _ := 0
  clock := 1
  nodup := by decide
  cas_lt _ := Nat.one_pos

theorem busyPool_jobBuild : ∀ n ∈ busyPool.keys, (busyPool.doc n).state = "booked" →
    JobBuild (busyPool.doc n).username := by
  intro n _ _
  exact .inr ⟨"sgw", "7", rfl⟩

/-- No build is running: the node is released. -/
theorem cleanup_releases_finished :
    ∃ s' o tr, Exec (poolServer (AnswersAs fun _ _ => false)) (cleanupForBlockedNodes none)
      busyPool s' o tr ∧ o = .ok () ∧ SparesRunning (fun _ _ => false) busyPool s' := by
  obtain ⟨⟨s', o, tr, h⟩, hall⟩ :=
    cleanup_spares_running_iff (fun _ _ => false) busyPool busyPool_jobBuild
  refine ⟨s', o, tr, h, (hall s' o tr h).mpr ?_⟩
  intro n _ _ ⟨_, _, _, hrun⟩
  cases hrun

/-- The build `sgw:7` is running and its node is released all the same. -/
theorem cleanup_releases_running :
    ∃ s' o tr, Exec (poolServer (AnswersAs fun _ _ => true)) (cleanupForBlockedNodes none)
      busyPool s' o tr ∧ ¬ SparesRunning (fun _ _ => true) busyPool s' := by
  refine ⟨_, _, _, exec_run _ (reply_ok (fun _ => true) (fun _ _ => .resp 200 (some none)) ?_) _ _, ?_⟩
  · intro job build
    simp [AnswersAs]
  · intro hspare
    have hown : OwnerRunning (fun _ _ => true) (busyPool.doc "10.0.0.1") := ⟨"sgw", "7", by decide, rfl⟩
    have hsame := (hspare "10.0.0.1" (by decide)).2 (fun hnot => hnot.2 hown)
    revert hsame
    decide

end MobileTestkit.L5.ServerPool
