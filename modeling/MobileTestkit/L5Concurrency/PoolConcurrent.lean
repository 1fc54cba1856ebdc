import MobileTestkit.Core.History
import MobileTestkit.L5Concurrency.PoolAlone
import Mathlib.Data.List.Induction

/-!
# The pool scripts interleaved

Any number of jobs run the pool scripts against one bucket, one store
operation at a time.

The monitor `watch` says what every script does: a `cas` replace writes the
booking of the document last read for that node, a replace without a `cas`
writes the release of it, and an accepted replace is recorded at once.
`move_cases` turns this into the only four things a step can be, and both
results are invariants of these four.

* `exclusive_of_unbooked_reads`: as long as no attempt of `reserve_node`
  opens with the read of a booked document, no two jobs hold one node. The
  condition is needed: `reserve_node` never looks at the state it read, so a
  job with an old list of rows takes a booked node over (`both_told_true`).
* `booking_kept_of_fresh_release`: a booking stands until it is released, as
  long as no release or cleanup replaces a booked document that changed since
  it was read. The condition is needed: both write back without a `cas`
  (`stale_release_drops_booking`).
-/
namespace MobileTestkit.L5.ServerPool

open MobileTestkit.Core

variable {J : String → String → Jenkins → Prop} {reserver : Job → Prop}

/-- The programs of the pool: reservations by the jobs of `reserver`, and
releases and cleanups by anyone. -/
inductive PoolScript (reserver : Job → Prop) : Prog Unit → Prop where
  | reserve (docId : String) (jobName : Job) (counter : Nat) (h : reserver jobName) :
    PoolScript reserver (reserveNode docId jobName counter).void
  | getNodes (numOfNodes : Int) (nodesOsType nodeOsVersion : String) (jobName : Job)
    (slaveIp : Option String) (h : reserver jobName) :
    PoolScript reserver
      (getNodesFromPoolServer numOfNodes nodesOsType nodeOsVersion jobName slaveIp).void
  | release (jobName : Job) (poolList : List String) :
    PoolScript reserver (releaseNode jobName poolList)
  | cleanup (jobName : Job) : PoolScript reserver (cleanupForBlockedNodes jobName)

/-! ## The monitor -/

/-- What the program has to record before anything else. -/
inductive Pending where
  | none
  | read (id : String) (doc : Doc) (cas : Nat)
  | reserved (id : String) (job : Job)
  | released (id : String)

/-- The last read of each node, and what is to be recorded. -/
structure Watch where
  reads : String → Option (Why × Doc × Nat)
  pending : Pending

def Watch.idle : Watch := ⟨fun _ => none, .none⟩

/-- How a release follows from the last read of the node. -/
def ReleasedBy (last : Option (Why × Doc × Nat)) : Releaser → Prop
  | .job jobName => ∃ d c, last = some (.release, d, c) ∧ userText d.username = userText jobName
  | .cleanup d => ∃ c, last = some (.cleanup, d, c)

def Watch.may (reserver : Job → Prop) (m : Watch) : Query → Prop
  | .replace id doc (some c) => ∃ d job now, reserver job ∧ m.reads id = some (.reserve, d, c) ∧
      doc = d.book job now
  | .replace id doc none => ∃ w d c, m.reads id = some (w, d, c) ∧ doc = d.free
  | _ => True

def Watch.answer (m : Watch) : (q : Query) → Answer q → Watch
  | .get id, some (d, c) => { m with pending := .read id d c }
  | .replace id doc (some _), .ok => { m with pending := .reserved id doc.username }
  | .replace id _ none, .ok => { m with pending := .released id }
  | _, _ => m

def Watch.tell (m : Watch) (v : Ev) : Prop :=
  match m.pending, v with
  | .read id d c, .read _ id' d' c' => id' = id ∧ d' = d ∧ c' = c
  | .reserved id job, .reserved id' job' b => id' = id ∧ job' = job ∧ b = true
  | .released id, .released id' who => id' = id ∧ ReleasedBy (m.reads id) who
  | .none, .reserved _ _ b => b = false
  | .none, .alive _ _ => True
  | _, _ => False

def Watch.told (m : Watch) : Ev → Watch
  | .read w id d c => ⟨Function.update m.reads id (some (w, d, c)), .none⟩
  | _ => { m with pending := .none }

def watch (reserver : Job → Prop) : Monitor sig Watch where
  rest m := m.pending = .none
  may := Watch.may reserver
  answer := Watch.answer
  tell := Watch.tell
  told := Watch.told

/-! ## Every script obeys the monitor -/

/-- The program is allowed from `m` and ends with nothing to record. -/
def Allowed {α : Type} (reserver : Job → Prop) (p : Prog α) (m : Watch) : Prop :=
  Obeys (watch reserver) p m fun _ m' => m'.pending = .none

theorem allowed_bind {α β : Type} {p : Prog α} {f : α → Prog β} {m : Watch}
    (hp : Allowed reserver p m) (hf : ∀ a m', m'.pending = .none → Allowed reserver (f a) m') :
    Allowed reserver (p.bind f) m :=
  (obeys_bind _ p f m _).mpr (hp.mono _ hf)

theorem obeys_sdkGet (why : Why) (id : String) {m : Watch} (h : m.pending = .none) :
    Obeys (watch reserver) (sdkGet why id) m fun r m' =>
      m'.pending = .none ∧ m'.reads id = some (why, r.1, r.2) := by
  refine ⟨h, trivial, fun r => ?_⟩
  cases r with
  | none => exact h
  | some r => exact ⟨⟨rfl, rfl, rfl⟩, rfl, by simp [watch, Watch.told]⟩

theorem allowed_told (id : String) (jobName : Job) {m : Watch} (h : m.pending = .none) :
    Allowed reserver (told id jobName false) m := by
  refine ⟨?_, rfl⟩
  simp [watch, Watch.tell, h]

theorem allowed_reserveAttempt (id : String) {jobName : Job} {retry : Prog Bool} {m : Watch}
    (hj : reserver jobName) (hretry : ∀ m', m'.pending = .none → Allowed reserver retry m')
    (h : m.pending = .none) : Allowed reserver (reserveAttempt id jobName retry) m := by
  refine (obeys_bind _ _ _ m _).mpr ((obeys_sdkGet .reserve id h).mono _ ?_)
  intro (d, c) m' ⟨hm, hread⟩
  refine ⟨hm, trivial, fun now => ⟨hm, ⟨d, jobName, now, hj, hread, rfl⟩, fun r => ?_⟩⟩
  cases r with
  | ok => exact ⟨⟨rfl, rfl, rfl⟩, rfl⟩
  | couchbaseException =>
    refine (obeys_bind _ _ _ m' _).mpr ((obeys_sdkGet .recheck id hm).mono _ ?_)
    intro (d', c') m'' ⟨hm'', _⟩
    dsimp only
    split
    · exact hretry m'' hm''
    · exact allowed_told id jobName hm''
  | exception => exact allowed_told id jobName hm

theorem allowed_reserveNode (id : String) {jobName : Job} (counter : Nat) {m : Watch}
    (hj : reserver jobName) (h : m.pending = .none) :
    Allowed reserver (reserveNode id jobName counter) m := by
  have hall : ∀ left m, m.pending = .none → Allowed reserver (reserveRetry id jobName left) m := by
    intro left
    induction left with
    | zero => exact fun m h => allowed_reserveAttempt id hj (fun _ h => allowed_told _ _ h) h
    | succ left ih => exact fun m h => allowed_reserveAttempt id hj ih h
  exact hall _ m h

theorem allowed_sshAttempts (server : String) (left : Nat) {m : Watch} (h : m.pending = .none) :
    Allowed reserver (sshAttempts server left) m := by
  induction left with
  | zero => exact h
  | succ left ih =>
    refine ⟨h, trivial, fun up => ?_⟩
    cases up with
    | true => exact h
    | false => exact ih

theorem allowed_checkAlive (nodesOsType id : String) {m : Watch} (h : m.pending = .none) :
    Allowed reserver (checkAlive nodesOsType id) m := by
  unfold checkAlive
  apply allowed_bind
  · split
    · exact ⟨h, trivial, fun _ => h⟩
    · exact allowed_sshAttempts _ _ h
  · intro alive m' hm
    refine ⟨?_, rfl⟩
    simp [watch, Watch.tell, hm]

theorem allowed_sdkReplace (id : String) {w : Why} {d : Doc} {c : Nat} {who : Releaser} {m : Watch}
    (h : m.pending = .none) (hread : m.reads id = some (w, d, c))
    (hwho : ReleasedBy (m.reads id) who) : Allowed reserver (sdkReplace id d.free who) m := by
  refine ⟨h, ⟨w, d, c, hread, rfl⟩, fun r => ?_⟩
  cases r with
  | ok => exact ⟨⟨rfl, hwho⟩, rfl⟩
  | couchbaseException => exact h
  | exception => exact h

theorem allowed_releaseNode (jobName : Job) (poolList : List String) {m : Watch}
    (h : m.pending = .none) : Allowed reserver (releaseNode jobName poolList) m := by
  induction poolList generalizing m with
  | nil => exact h
  | cons node rest ih =>
    refine (obeys_bind _ _ _ m _).mpr ((obeys_sdkGet .release node h).mono _ ?_)
    intro (d, c) m' ⟨hm, hread⟩
    dsimp only
    split
    · rename_i hu
      exact allowed_bind (allowed_sdkReplace node hm hread ⟨d, c, hread, hu⟩) fun _ _ hm' => ih hm'
    · exact hm

theorem allowed_allocate (numOfNodes : Int) (nodesOsType : String) {jobName : Job}
    (rows poolList : List String) {m : Watch} (hj : reserver jobName) (h : m.pending = .none) :
    Allowed reserver (allocate numOfNodes nodesOsType jobName rows poolList) m := by
  induction rows generalizing poolList m with
  | nil => exact allowed_bind (allowed_releaseNode jobName poolList h) fun _ _ hm => hm
  | cons id rows ih =>
    apply allowed_bind (allowed_reserveNode id 0 hj h)
    intro isNodeReserved m₁ h₁
    apply allowed_bind (allowed_checkAlive nodesOsType id h₁)
    intro alive m₂ h₂
    dsimp only
    split
    · split
      · exact h₂
      · exact ih _ h₂
    · split
      · exact h₂
      · exact ih _ h₂

theorem allowed_getNodes (numOfNodes : Int) (nodesOsType nodeOsVersion : String) {jobName : Job}
    (slaveIp : Option String) {m : Watch} (hj : reserver jobName) (h : m.pending = .none) :
    Allowed reserver
      (getNodesFromPoolServer numOfNodes nodesOsType nodeOsVersion jobName slaveIp) m := by
  unfold getNodesFromPoolServer
  split
  · split
    · exact h
    · exact ⟨h, trivial, fun rows => allowed_allocate _ _ rows [] hj h⟩
  · exact ⟨h, trivial, fun rows => allowed_allocate _ _ rows [] hj h⟩

theorem allowed_cleanupRows (rows : List String) {m : Watch} (h : m.pending = .none) :
    Allowed reserver (cleanupRows rows) m := by
  induction rows generalizing m with
  | nil => exact h
  | cons id rows ih =>
    refine ⟨h, trivial, fun r => ?_⟩
    cases r with
    | none => exact h
    | some r =>
      obtain ⟨d, c⟩ := r
      refine ⟨⟨rfl, rfl, rfl⟩, ?_⟩
      have hread : ((watch reserver).told ((watch reserver).answer m (.get id) (some (d, c)))
          (.read .cleanup id d c)).reads id = some (.cleanup, d, c) := by
        simp [watch, Watch.told]
      split
      · exact ih rfl
      · split
        · rfl
        · exact allowed_bind (allowed_sdkReplace id rfl hread ⟨c, hread⟩) fun _ _ hm => ih hm

theorem allowed_script {p : Prog Unit} (hp : PoolScript reserver p) :
    Allowed reserver p .idle := by
  have hret : ∀ m : Watch, m.pending = .none → Allowed reserver (.ret () : Prog Unit) m :=
    fun _ hm => hm
  cases hp with
  | reserve docId jobName counter hj =>
    exact allowed_bind (allowed_reserveNode docId counter hj rfl) fun _ m hm => hret m hm
  | getNodes numOfNodes nodesOsType nodeOsVersion jobName slaveIp hj =>
    exact allowed_bind (allowed_getNodes _ _ _ _ hj rfl) fun _ m hm => hret m hm
  | release jobName poolList => exact allowed_releaseNode jobName poolList rfl
  | cleanup jobName => exact ⟨rfl, trivial, fun rows => allowed_cleanupRows rows rfl⟩

/-! ## What a step can be -/

/-- Events with no bearing on bookings. -/
def Ev.Quiet : Ev → Prop
  | .reserved _ _ b => b = false
  | .alive _ _ => True
  | _ => False

theorem tells_quiet {m m' : Watch} {vs : List Ev} (h : m.pending = .none)
    (ht : Tells (watch reserver) m vs m') : (∀ v ∈ vs, v.Quiet) ∧ m' = m := by
  induction vs generalizing m with
  | nil => exact ⟨by simp, ht⟩
  | cons v vs ih =>
    obtain ⟨hv, ht⟩ := ht
    have hv' : v.Quiet ∧ (watch reserver).told m v = m := by
      obtain ⟨reads, pending⟩ := m
      subst h
      cases v with
      | read _ _ _ _ => exact absurd hv (by simp [watch, Watch.tell])
      | reserved _ _ _ => exact ⟨hv, rfl⟩
      | alive _ _ => exact ⟨trivial, rfl⟩
      | released _ _ => exact absurd hv (by simp [watch, Watch.tell])
    rw [hv'.2] at ht
    obtain ⟨hall, hm⟩ := ih h ht
    refine ⟨fun x hx => ?_, hm⟩
    rcases List.mem_cons.mp hx with rfl | hx
    · exact hv'.1
    · exact hall x hx

/-- The event that was owed comes first, quiet ones follow. -/
theorem tells_pending {m m' : Watch} {vs : List Ev} (h : m.pending ≠ .none)
    (ht : Tells (watch reserver) m vs m') (hm : m'.pending = .none) :
    ∃ v vs', vs = v :: vs' ∧ m.tell v ∧ (∀ x ∈ vs', x.Quiet) ∧ m' = m.told v := by
  cases vs with
  | nil =>
    have he : m' = m := ht
    exact absurd (he ▸ hm) h
  | cons v vs =>
    obtain ⟨hv, ht⟩ := ht
    have hnone : ((watch reserver).told m v).pending = .none := by
      cases v <;> rfl
    obtain ⟨hq, hm'⟩ := tells_quiet hnone ht
    exact ⟨v, vs, rfl, hv, hq, hm'⟩

/-- One answered call of a script. -/
inductive PoolMove (reserver : Job → Prop) (st : Pool) (m : Watch) (q : Query) :
    Pool → List Ev → Watch → Prop where
  | quiet {vs : List Ev} (hvs : ∀ v ∈ vs, v.Quiet) : PoolMove reserver st m q st vs m
  | read {vs : List Ev} (w : Why) (n : String) (d : Doc) (c : Nat) (hget : st.get n = some (d, c))
    (hvs : ∀ v ∈ vs, v.Quiet) :
    PoolMove reserver st m q st (.read w n d c :: vs)
      ⟨Function.update m.reads n (some (w, d, c)), .none⟩
  | booked {vs : List Ev} (n : String) (d : Doc) (job : Job) (now : String)
    (hj : reserver job) (hread : m.reads n = some (.reserve, d, st.cas n))
    (hvs : ∀ v ∈ vs, v.Quiet) :
    PoolMove reserver st m q (st.put n (d.book job now)) (.reserved n job true :: vs) m
  | freed {vs : List Ev} (n : String) (w : Why) (d : Doc) (c : Nat) (who : Releaser)
    (hq : q = .replace n d.free none) (hread : m.reads n = some (w, d, c))
    (hwho : ReleasedBy (m.reads n) who) (hvs : ∀ v ∈ vs, v.Quiet) :
    PoolMove reserver st m q (st.put n d.free) (.released n who :: vs) m

theorem Watch.eq_self {m : Watch} (h : m.pending = .none) : (⟨m.reads, .none⟩ : Watch) = m := by
  rw [← h]

theorem move_cases {st : Pool} {m m' : Watch} {q : Query} {a : Answer q} {vs : List Ev}
    (h : Move (watch reserver) (poolServer J) st m q a vs m') :
    PoolMove reserver st m q ((poolServer J).next st q a) vs m' := by
  obtain ⟨hrest, hmay, hok, htells, hdone⟩ := h
  have hself := Watch.eq_self hrest
  have hquiet : (watch reserver).answer m q a = m → (poolServer J).next st q a = st →
      PoolMove reserver st m q ((poolServer J).next st q a) vs m' := by
    intro hans hnext
    rw [hans] at htells
    obtain ⟨hvs, hm⟩ := tells_quiet hrest htells
    rw [hnext, hm]
    exact .quiet hvs
  cases q with
  | select w => exact hquiet rfl rfl
  | ssh server => exact hquiet rfl rfl
  | ping device => exact hquiet rfl rfl
  | strftime => exact hquiet rfl rfl
  | jenkins job build => exact hquiet rfl rfl
  | get id =>
    cases a with
    | none => exact hquiet rfl rfl
    | some r =>
      obtain ⟨d, c⟩ := r
      obtain ⟨v, vs', rfl, hv, hq, hm⟩ := tells_pending (by simp [watch, Watch.answer]) htells hdone
      cases v with
      | read w id' d' c' =>
        obtain ⟨rfl, rfl, rfl⟩ := hv
        rw [hm]
        exact .read w id' d' c' (Eq.symm hok) hq
      | reserved _ _ _ => exact hv.elim
      | alive _ _ => exact hv.elim
      | released _ _ => exact hv.elim
  | replace id doc cas =>
    cases a with
    | couchbaseException => cases cas <;> exact hquiet rfl rfl
    | exception => cases cas <;> exact hquiet rfl rfl
    | ok =>
      cases cas with
      | some c =>
        obtain ⟨v, vs', rfl, hv, hq, hm⟩ :=
          tells_pending (by simp [watch, Watch.answer]) htells hdone
        obtain ⟨d, job, now, hj, hread, rfl⟩ := hmay
        cases v with
        | read _ _ _ _ => exact hv.elim
        | reserved id' job' b =>
          obtain ⟨rfl, rfl, rfl⟩ := hv
          have hc : st.cas id' = c := hok.2
          rw [hm]
          refine hself ▸ .booked id' d job' now hj ?_ hq
          rw [hc]
          exact hread
        | alive _ _ => exact hv.elim
        | released _ _ => exact hv.elim
      | none =>
        obtain ⟨v, vs', rfl, hv, hq, hm⟩ :=
          tells_pending (by simp [watch, Watch.answer]) htells hdone
        obtain ⟨w, d, c, hread, rfl⟩ := hmay
        cases v with
        | read _ _ _ _ => exact hv.elim
        | reserved _ _ _ => exact hv.elim
        | alive _ _ => exact hv.elim
        | released id' who =>
          obtain ⟨rfl, hwho⟩ := hv
          rw [hm]
          exact hself ▸ .freed id' w d c who rfl hread hwho hq

/-! ## Reads -/

abbrev Log := List (Nat × Ev)

def noteRead (i : Nat) (n : String) (last : Option (Why × Doc × Nat)) (e : Nat × Ev) :
    Option (Why × Doc × Nat) :=
  match e with
  | (j, .read w k d c) => if j = i ∧ k = n then some (w, d, c) else last
  | _ => last

/-- The last read of node `n` by program `i`. -/
def lastRead (i : Nat) (n : String) (log : Log) : Option (Why × Doc × Nat) :=
  log.foldl (noteRead i n) none

theorem lastRead_snoc (i : Nat) (n : String) (log : Log) (e : Nat × Ev) :
    lastRead i n (log ++ [e]) = noteRead i n (lastRead i n log) e := by
  simp [lastRead]

theorem lastRead_append {i : Nat} {n : String} {vs : Log}
    (h : ∀ e ∈ vs, ∀ last, noteRead i n last e = last) (log : Log) :
    lastRead i n (log ++ vs) = lastRead i n log := by
  induction vs generalizing log with
  | nil => rw [List.append_nil]
  | cons e vs ih =>
    rw [List.append_cons, ih (fun x hx => h x (List.mem_cons_of_mem _ hx)), lastRead_snoc]
    exact h e List.mem_cons_self _

theorem mem_of_lastRead {i : Nat} {n : String} {w : Why} {d : Doc} {c : Nat} (log : Log)
    (h : lastRead i n log = some (w, d, c)) : (i, Ev.read w n d c) ∈ log := by
  induction log using List.reverseRecOn with
  | nil => simp [lastRead] at h
  | append_singleton log e ih =>
    rw [lastRead_snoc] at h
    unfold noteRead at h
    split at h
    · split at h
      · rename_i hjk
        simp only [Option.some.injEq, Prod.mk.injEq] at h
        obtain ⟨rfl, rfl, rfl⟩ := h
        obtain ⟨rfl, rfl⟩ := hjk
        simp
      · exact List.mem_append_left _ (ih h)
    · exact List.mem_append_left _ (ih h)

theorem noteRead_of_quiet {v : Ev} (hv : v.Quiet) (i j : Nat) (n : String)
    (last : Option (Why × Doc × Nat)) : noteRead i n last (j, v) = last := by
  cases v with
  | read _ _ _ _ => exact hv.elim
  | reserved _ _ _ => rfl
  | alive _ _ => rfl
  | released _ _ => rfl

theorem noteRead_of_ne {i j : Nat} (h : i ≠ j) (n : String) (v : Ev)
    (last : Option (Why × Doc × Nat)) : noteRead j n last (i, v) = last := by
  cases v with
  | read _ _ _ _ => exact if_neg fun hi => h hi.1
  | reserved _ _ _ => rfl
  | alive _ _ => rfl
  | released _ _ => rfl

/-- The monitor of program `i` remembers its last reads. -/
def Remembers (i : Nat) (m : Watch) (log : Log) : Prop := ∀ n, m.reads n = lastRead i n log

theorem quiet_map {vs : List Ev} (hvs : ∀ v ∈ vs, v.Quiet) (i : Nat) :
    ∀ e ∈ vs.map (i, ·), e.2.Quiet := by
  intro e he
  obtain ⟨v, hv, rfl⟩ := List.mem_map.mp he
  exact hvs v hv

theorem lastRead_quiet {vs : List Ev} (hvs : ∀ v ∈ vs, v.Quiet) (i j : Nat) (n : String)
    (log : Log) : lastRead i n (log ++ vs.map (j, ·)) = lastRead i n log :=
  lastRead_append (fun e he last => noteRead_of_quiet (quiet_map hvs j e he) i e.1 n last) log

theorem remembers_move {i : Nat} {st st' : Pool} {log : Log} {m m' : Watch} {q : Query}
    {vs : List Ev} (h : PoolMove reserver st m q st' vs m') (hm : Remembers i m log) :
    Remembers i m' (log ++ vs.map (i, ·)) := by
  intro n
  cases h with
  | quiet hvs => rw [lastRead_quiet hvs, hm n]
  | read w k d c hget hvs =>
    rw [List.map_cons, List.append_cons, lastRead_quiet hvs, lastRead_snoc]
    by_cases hk : n = k
    · subst hk
      simp [noteRead]
    · have hupd : Function.update m.reads k (some (w, d, c)) n = m.reads n :=
        Function.update_of_ne hk _ _
      have hskip : noteRead i n (lastRead i n log) (i, .read w k d c) = lastRead i n log :=
        if_neg fun h => hk h.2.symm
      rw [hskip, ← hm n]
      exact hupd
  | booked k d job now hj hread hvs =>
    rw [List.map_cons, List.append_cons, lastRead_quiet hvs, lastRead_snoc, hm n]
    rfl
  | freed k w d c who hq hread hwho hvs =>
    rw [List.map_cons, List.append_cons, lastRead_quiet hvs, lastRead_snoc, hm n]
    rfl

theorem remembers_frame {i j : Nat} {log : Log} {m : Watch} (vs : List Ev) (h : i ≠ j)
    (hm : Remembers j m log) : Remembers j m (log ++ vs.map (i, ·)) := by
  intro n
  rw [hm n, lastRead_append]
  intro e he last
  obtain ⟨v, -, rfl⟩ := List.mem_map.mp he
  exact noteRead_of_ne h n v last

/-- A document that was read is still the stored one while its `cas` is. -/
def ReadsSeen (st : Pool) (log : Log) : Prop :=
  ∀ i w n d c, (i, Ev.read w n d c) ∈ log → st.Seen n d c

theorem readsSeen_quiet {st : Pool} {log vs : Log} (hvs : ∀ e ∈ vs, e.2.Quiet)
    (hs : ReadsSeen st log) : ReadsSeen st (log ++ vs) := by
  intro j w n d c hmem
  rcases List.mem_append.mp hmem with hmem | hmem
  · exact hs j w n d c hmem
  · exact (hvs _ hmem).elim

/-- A write recorded as `e`, which is not a read. -/
theorem readsSeen_put {st : Pool} {log : Log} {e : Nat × Ev} (k : String) (d : Doc)
    (he : ∀ w n d c, e.2 ≠ .read w n d c) (hs : ReadsSeen st log) :
    ReadsSeen (st.put k d) (log ++ [e]) := by
  intro j w n d c hmem
  rcases List.mem_append.mp hmem with hmem | hmem
  · exact (hs j w n d c hmem).put _ _
  · rw [← List.mem_singleton.mp hmem] at he
    exact absurd rfl (he w n d c)

theorem readsSeen_move {i : Nat} {st st' : Pool} {log : Log} {m m' : Watch} {q : Query}
    {vs : List Ev} (h : PoolMove reserver st m q st' vs m') (hs : ReadsSeen st log) :
    ReadsSeen st' (log ++ vs.map (i, ·)) := by
  cases h with
  | quiet hvs => exact readsSeen_quiet (quiet_map hvs i) hs
  | read w k d c hget hvs =>
    rw [List.map_cons, List.append_cons]
    apply readsSeen_quiet (quiet_map hvs i)
    intro j w' n d' c' hmem
    rcases List.mem_append.mp hmem with hmem | hmem
    · exact hs j w' n d' c' hmem
    · have he := List.mem_singleton.mp hmem
      simp only [Prod.mk.injEq, Ev.read.injEq] at he
      obtain ⟨-, -, rfl, rfl, rfl⟩ := he
      exact CasStore.seen_get hget
  | booked k d job now hj hread hvs =>
    rw [List.map_cons, List.append_cons]
    apply readsSeen_quiet (quiet_map hvs i)
    exact readsSeen_put k _ (fun w n d c he => by cases he) hs
  | freed k w d c who hq hread hwho hvs =>
    rw [List.map_cons, List.append_cons]
    apply readsSeen_quiet (quiet_map hvs i)
    exact readsSeen_put k _ (fun w n d c he => by cases he) hs

/-- What a program last read of a node is the stored document if its `cas`
still is. -/
theorem doc_of_reads {i : Nat} {st : Pool} {log : Log} {m : Watch} {n : String} {w : Why} {d : Doc}
    (hm : Remembers i m log) (hs : ReadsSeen st log) (hread : m.reads n = some (w, d, st.cas n)) :
    st.doc n = d := by
  rw [hm n] at hread
  exact (hs i w n d _ (mem_of_lastRead log hread)).2 rfl

/-! ## Mutual exclusion -/

/-- Someone was told `True` for `n`. -/
def Told (n : String) (e : Nat × Ev) : Prop := ∃ job, e.2 = .reserved n job true

/-- Someone released `n`. -/
def Gone (n : String) (e : Nat × Ev) : Prop := ∃ who, e.2 = .released n who

/-- Two programs told `True` for one node have a release of it between them. -/
def Exclusive (log : Log) : Prop :=
  ∀ past between after i j a b n, i ≠ j →
    log = past ++ (i, .reserved n a true) :: between ++ (j, .reserved n b true) :: after →
      ∃ k who, (k, Ev.released n who) ∈ between

/-- Every attempt of `reserve_node` opens with the read of a document that is
not booked. -/
def UnbookedReads (log : Log) : Prop :=
  ∀ i n d c, (i, Ev.read .reserve n d c) ∈ log → d.state ≠ "booked"

/-- A `True` answer finds no other one since the last release. -/
def Alone (past : Log) (e : Nat × Ev) : Prop := ∀ n, Told n e → ¬ Since (Told n) (Gone n) past

theorem exclusive_of_alone {log : Log} (h : AtEach Alone log) : Exclusive log := by
  intro past between after i j a b n _ hlog
  by_contra hno
  apply h _ _ _ hlog n ⟨b, rfl⟩
  refine ⟨past, _, between, rfl, ⟨a, rfl⟩, fun x hx ⟨who, hwho⟩ => hno ⟨x.1, who, ?_⟩⟩
  rw [← hwho]
  exact hx

/-- What is true of every state: a node that is not booked is held by no one. -/
def Guarded (st : Pool) (log : Log) : Prop :=
  AtEach Alone log ∧ ∀ n, (st.doc n).state ≠ "booked" → ¬ Since (Told n) (Gone n) log

theorem not_told_gone_of_quiet {e : Nat × Ev} (h : e.2.Quiet) (n : String) :
    ¬ Told n e ∧ ¬ Gone n e := by
  refine ⟨fun ⟨job, hj⟩ => ?_, fun ⟨who, hw⟩ => ?_⟩
  · rw [hj] at h
    cases h
  · rw [hw] at h
    exact h

theorem guarded_quiet {st : Pool} {log vs : Log} (hvs : ∀ e ∈ vs, e.2.Quiet)
    (h : Guarded st log) : Guarded st (log ++ vs) := by
  refine ⟨atEach_append h.1 fun e he _ n ht => ?_, fun n hn => ?_⟩
  · exact absurd ht (not_told_gone_of_quiet (hvs e he) n).1
  · rw [since_append_iff fun e he => not_told_gone_of_quiet (hvs e he) n]
    exact h.2 n hn

/-- One more event: `True` is told for a node that was not booked, and a node
that is not booked now was released by the event or was not booked before. -/
theorem guarded_snoc {st st' : Pool} {log : Log} {e : Nat × Ev} (hg : Guarded st log)
    (htold : ∀ n, Told n e → (st.doc n).state ≠ "booked")
    (hfree : ∀ n, (st'.doc n).state ≠ "booked" →
      ¬ Told n e ∧ (Gone n e ∨ (st.doc n).state ≠ "booked")) : Guarded st' (log ++ [e]) := by
  refine ⟨atEach_snoc hg.1 fun n ht => hg.2 n (htold n ht), fun n hn => ?_⟩
  obtain ⟨hno, hor⟩ := hfree n hn
  intro hsince
  rcases since_snoc.mp hsince with ht | ⟨ht, hnot⟩
  · exact hno ht
  · rcases hor with hgone | hst
    · exact hnot hgone
    · exact hg.2 n hst ht

theorem guarded_move {i : Nat} {st st' : Pool} {log : Log} {m m' : Watch} {q : Query}
    {vs : List Ev} (h : PoolMove reserver st m q st' vs m') (hm : Remembers i m log)
    (hs : ReadsSeen st log) (hclean : UnbookedReads log) (hg : Guarded st log) :
    Guarded st' (log ++ vs.map (i, ·)) := by
  cases h with
  | quiet hvs => exact guarded_quiet (quiet_map hvs i) hg
  | read w k d c hget hvs =>
    rw [List.map_cons, List.append_cons]
    apply guarded_quiet (quiet_map hvs i)
    have hno : ∀ n, ¬ Told n (i, Ev.read w k d c) := fun n ⟨_, hj⟩ => by cases hj
    exact guarded_snoc hg (fun n ht => absurd ht (hno n)) fun n hn => ⟨hno n, .inr hn⟩
  | booked k d job now hj hread hvs =>
    rw [List.map_cons, List.append_cons]
    apply guarded_quiet (quiet_map hvs i)
    -- the replace was accepted, so the stored document is the one read
    have hfree : (st.doc k).state ≠ "booked" := by
      rw [doc_of_reads hm hs hread]
      rw [hm k] at hread
      exact hclean i k d _ (mem_of_lastRead log hread)
    have htold : ∀ n, Told n (i, Ev.reserved k job true) → n = k := by
      intro n ⟨_, he⟩
      simp only [Ev.reserved.injEq] at he
      exact he.1.symm
    refine guarded_snoc hg (fun n ht => htold n ht ▸ hfree) fun n hn => ?_
    by_cases hnk : n = k
    · rw [hnk, CasStore.put_doc_self] at hn
      exact absurd rfl hn
    · rw [CasStore.put_doc_of_ne _ _ hnk] at hn
      exact ⟨fun ht => hnk (htold n ht), .inr hn⟩
  | freed k w d c who hq hread hwho hvs =>
    rw [List.map_cons, List.append_cons]
    apply guarded_quiet (quiet_map hvs i)
    have hno : ∀ n, ¬ Told n (i, Ev.released k who) := fun n ⟨_, hj⟩ => by cases hj
    refine guarded_snoc hg (fun n ht => absurd ht (hno n)) fun n hn => ⟨hno n, ?_⟩
    by_cases hnk : n = k
    · exact .inl ⟨who, by rw [hnk]⟩
    · rw [CasStore.put_doc_of_ne _ _ hnk] at hn
      exact .inr hn

theorem UnbookedReads.left {log vs : Log} (h : UnbookedReads (log ++ vs)) : UnbookedReads log :=
  fun i n d c hmem => h i n d c (List.mem_append_left _ hmem)

/-- **Mutual exclusion of the node pool.** In every run of any number of jobs
in which no attempt of `reserve_node` opens with the read of a booked
document, two jobs are told `True` for one node only with a release between. -/
theorem exclusive_of_unbooked_reads (s : Sys sig Pool)
    (hr : (interleave (poolServer J) (PoolScript fun _ => True)).Reachable s)
    (hclean : UnbookedReads s.log) : Exclusive s.log := by
  have hind := interleave_inductive (watch fun _ => True) (poolServer J)
    (PoolScript fun _ => True) (fun _ _ => True) Remembers
    (fun st log => ReadsSeen st log ∧ (UnbookedReads log → Guarded st log))
    (fun i p hp => ⟨.idle, fun _ => rfl, allowed_script hp⟩)
    (fun st => ⟨by simp [ReadsSeen], fun _ => ⟨atEach_nil _, fun _ _ => not_since_nil _ _⟩⟩)
    (fun i st log m q a vs m' hmove hm => remembers_move (move_cases hmove) hm)
    (fun i j log m vs hij hm => remembers_frame vs hij hm)
    (fun s i q k a vs m m' _ _ hmove hm hg => by
      have hpm := move_cases hmove
      exact ⟨readsSeen_move hpm hg.1,
        fun hc => guarded_move hpm hm hg.1 hc.left (hg.2 hc.left)⟩)
  rw [LTS.guard_true] at hind
  exact exclusive_of_alone ((hind.reachable s hr).1.2 hclean).1

/-- Two jobs ask for a debian node each. -/
def twoJobs : Sys sig Pool where
  state := idlePool
  procs
    | 0 => (getNodesFromPoolServer 1 "debian" "12" (some "sgw:7") none).void
    | 1 => (getNodesFromPoolServer 1 "debian" "12" (some "lite:8") none).void
    | _ => releaseNode none []
  log := []

theorem twoJobs_reachable :
    (interleave (poolServer fun _ _ _ => True) (PoolScript fun _ => True)).Reachable twoJobs := by
  refine LTS.reachable_init ⟨fun i => ?_, rfl⟩
  match i with
  | 0 => exact .getNodes 1 "debian" "12" (some "sgw:7") none trivial
  | 1 => exact .getNodes 1 "debian" "12" (some "lite:8") none trivial
  | _ + 2 => exact .release none []

theorem twoJobs_exec (schedule : List Nat) :
    (interleave (poolServer fun _ _ _ => True) (PoolScript fun _ => True)).Reachable
      (twoJobs.exec (poolServer fun _ _ _ => True) (answering fun _ => true) schedule) := by
  have hreach := reachable_exec (poolServer fun _ _ _ => True)
    (reply_ok (fun _ => true) (fun _ _ => .unreachable) fun _ _ => trivial)
    (PoolScript fun _ => True) (fun _ _ => True) schedule twoJobs
  rw [LTS.guard_true] at hreach
  exact hreach twoJobs_reachable (meets_true _ _ twoJobs schedule)

/-- The second job selects its rows after the first one has booked its node. -/
theorem exclusive_one_after_the_other :
    ∃ s : Sys sig Pool, (1, Ev.reserved "10.0.0.2" (some "lite:8") true) ∈ s.log ∧
      Exclusive s.log := by
  refine ⟨_, ?_, exclusive_of_unbooked_reads _ (twoJobs_exec [0, 0, 0, 0, 1, 1, 1, 1]) ?_⟩
  · decide
  · have hlog : (twoJobs.exec (poolServer fun _ _ _ => True) (answering fun _ => true)
        [0, 0, 0, 0, 1, 1, 1, 1]).log =
        [(0, .read .reserve "10.0.0.1" idleNode 0), (0, .reserved "10.0.0.1" (some "sgw:7") true),
          (1, .read .reserve "10.0.0.2" idleNode 0),
          (1, .reserved "10.0.0.2" (some "lite:8") true)] := by decide
    intro i n d c hmem
    rw [hlog] at hmem
    simp only [List.mem_cons, Prod.mk.injEq, Ev.read.injEq, reduceCtorEq, and_false, or_false,
      false_or, List.not_mem_nil] at hmem
    rcases hmem with ⟨-, -, -, rfl, -⟩ | ⟨-, -, -, rfl, -⟩ <;> decide

/-- Both jobs select the same row; the second one reads the document the
first one has booked, and books it again. -/
theorem both_told_true :
    ∃ s, (interleave (poolServer fun _ _ _ => True) (PoolScript fun _ => True)).Reachable s ∧
      ¬ Exclusive s.log := by
  refine ⟨_, twoJobs_exec [0, 1, 0, 0, 0, 1, 1, 1], fun h => ?_⟩
  have hlog : (twoJobs.exec (poolServer fun _ _ _ => True) (answering fun _ => true)
      [0, 1, 0, 0, 0, 1, 1, 1]).log =
      [(0, .read .reserve "10.0.0.1" idleNode 0)] ++
        (0, .reserved "10.0.0.1" (some "sgw:7") true) ::
        [(1, .read .reserve "10.0.0.1" (idleNode.book (some "sgw:7") "2021-01-01 00:00:00") 1)] ++
        (1, .reserved "10.0.0.1" (some "lite:8") true) :: [] := by decide
  obtain ⟨k, who, hmem⟩ := h _ _ _ 0 1 _ _ "10.0.0.1" (by decide) hlog
  simp at hmem

/-! ## Bookings are not overwritten -/

/-- `B` was told `True` for `n`. -/
def Booked (B : Job) (n : String) (e : Nat × Ev) : Prop := e.2 = .reserved n B true

/-- `B` itself released `n` (jobs are the same when `release_node` says so),
or a cleanup that had read `B`'s booking did. -/
def Ended (B : Job) (n : String) (e : Nat × Ev) : Prop :=
  (∃ job, userText job = userText B ∧ e.2 = .released n (.job job)) ∨
    ∃ d : Doc, d.BookedBy B ∧ e.2 = .released n (.cleanup d)

/-- A booking of `B` that has not ended is what the bucket holds. -/
def BookingKept (B : Job) (st : Pool) (log : Log) : Prop :=
  ∀ n, Since (Booked B n) (Ended B n) log → (st.doc n).BookedBy B

/-- The step does not replace, without a `cas`, a booking of `B` that is newer
than the program's own last read of the node. -/
def FreshRelease (B : Job) (s : Sys sig Pool) (i : Nat) : Prop :=
  ∀ n d k, s.procs i = .call (Query.replace n d none) k → (s.state.doc n).BookedBy B →
    ∃ w d₀, lastRead i n s.log = some (w, d₀, s.state.cas n)

def freshCheck (B : Job) (s : Sys sig Pool) (i : Nat) : Bool :=
  match s.procs i with
  | .call (Query.replace n _ none) _ =>
    decide (¬ (s.state.doc n).BookedBy B) ||
      (lastRead i n s.log).any fun last => last.2.2 == s.state.cas n
  | _ => true

theorem freshCheck_iff (B : Job) (s : Sys sig Pool) (i : Nat) :
    freshCheck B s i = true ↔ FreshRelease B s i := by
  unfold freshCheck FreshRelease
  split
  · rename_i n d k hp
    simp only [hp, Bool.or_eq_true, decide_eq_true_eq, Option.any_eq_true, beq_iff_eq]
    constructor
    · intro h n' d' k' heq hb
      cases heq
      rcases h with h | ⟨last, hlast, hc⟩
      · exact absurd hb h
      · exact ⟨last.1, last.2.1, by rw [hlast, ← hc]⟩
    · intro h
      by_cases hb : (s.state.doc n).BookedBy B
      · obtain ⟨w, d₀, hlast⟩ := h n d k rfl hb
        exact .inr ⟨_, hlast, rfl⟩
      · exact .inl hb
  · rename_i hno
    simp only [true_iff]
    intro n d k hp
    exact absurd hp (hno n d k)

instance (B : Job) (s : Sys sig Pool) (i : Nat) : Decidable (FreshRelease B s i) :=
  decidable_of_iff _ (freshCheck_iff B s i)

theorem not_booked_ended_of_quiet {e : Nat × Ev} (h : e.2.Quiet) (B : Job) (n : String) :
    ¬ Booked B n e ∧ ¬ Ended B n e := by
  refine ⟨fun hb => ?_, fun hend => ?_⟩
  · exact (not_told_gone_of_quiet h n).1 ⟨B, hb⟩
  · rcases hend with ⟨job, -, he⟩ | ⟨d, -, he⟩
    · exact (not_told_gone_of_quiet h n).2 ⟨_, he⟩
    · exact (not_told_gone_of_quiet h n).2 ⟨_, he⟩

theorem bookingKept_quiet {B : Job} {st : Pool} {log vs : Log} (hvs : ∀ e ∈ vs, e.2.Quiet)
    (h : BookingKept B st log) : BookingKept B st (log ++ vs) := by
  intro n hn
  rw [since_append_iff fun e he => not_booked_ended_of_quiet (hvs e he) B n] at hn
  exact h n hn

/-- A release of a document booked by `B` ends the booking. -/
theorem ended_of_releasedBy {B : Job} {i : Nat} {n : String} {w : Why} {d : Doc} {c : Nat}
    {who : Releaser} (hb : d.BookedBy B) (h : ReleasedBy (some (w, d, c)) who) :
    Ended B n (i, .released n who) := by
  cases who with
  | job job =>
    obtain ⟨d', c', he, hu⟩ := h
    simp only [Option.some.injEq, Prod.mk.injEq] at he
    obtain ⟨-, rfl, -⟩ := he
    exact .inl ⟨job, by rw [← hu, hb.2], rfl⟩
  | cleanup d' =>
    obtain ⟨c', he⟩ := h
    simp only [Option.some.injEq, Prod.mk.injEq] at he
    obtain ⟨-, rfl, -⟩ := he
    exact .inr ⟨d, hb, rfl⟩

theorem bookingKept_move {B : Job} {i : Nat} {st st' : Pool} {log : Log} {m m' : Watch} {q : Query}
    {vs : List Ev} (h : PoolMove (· = B) st m q st' vs m') (hm : Remembers i m log)
    (hs : ReadsSeen st log)
    (hfresh : ∀ n d, q = .replace n d none → (st.doc n).BookedBy B →
      ∃ w d₀, lastRead i n log = some (w, d₀, st.cas n))
    (hk : BookingKept B st log) : BookingKept B st' (log ++ vs.map (i, ·)) := by
  cases h with
  | quiet hvs => exact bookingKept_quiet (quiet_map hvs i) hk
  | read w k d c hget hvs =>
    rw [List.map_cons, List.append_cons]
    apply bookingKept_quiet (quiet_map hvs i)
    intro n hn
    rcases since_snoc.mp hn with hb | hb
    · cases hb
    · exact hk n hb.1
  | booked k d job now hj hread hvs =>
    rw [List.map_cons, List.append_cons]
    apply bookingKept_quiet (quiet_map hvs i)
    subst hj
    intro n hn
    by_cases hnk : n = k
    · rw [hnk, CasStore.put_doc_self]
      exact Doc.book_bookedBy _ _ _
    · rw [CasStore.put_doc_of_ne _ _ hnk]
      rcases since_snoc.mp hn with hb | hb
      · simp only [Booked, Ev.reserved.injEq] at hb
        exact absurd hb.1.symm hnk
      · exact hk n hb.1
  | freed k w d c who hq hread hwho hvs =>
    rw [List.map_cons, List.append_cons]
    apply bookingKept_quiet (quiet_map hvs i)
    intro n hn
    rcases since_snoc.mp hn with hb | ⟨hb, hend⟩
    · cases hb
    · by_cases hnk : n = k
      · -- the booking is the document that was read, so this release ends it
        subst hnk
        have hstored := hk n hb
        obtain ⟨w', d₀, hlast⟩ := hfresh n d.free hq hstored
        rw [← hm n] at hlast
        have hdoc := doc_of_reads hm hs hlast
        rw [hlast] at hwho
        rw [hdoc] at hstored
        exact absurd (ended_of_releasedBy hstored hwho) hend
      · rw [CasStore.put_doc_of_ne _ _ hnk]
        exact hk n hb

/-- **Bookings stand.** In every run of reservations by `B`, releases by any
jobs and cleanups, in which no release or cleanup replaces a booking of `B`
newer than its own read of the node: once `reserve_node` has told `B` `True`,
the document keeps `B`'s booking until `B`, or a cleanup that read it,
releases it. -/
theorem booking_kept_of_fresh_release (B : Job) (s : Sys sig Pool)
    (hr : ((interleave (poolServer J) (PoolScript (· = B))).guard (FreshRelease B)).Reachable s) :
    BookingKept B s.state s.log := by
  have hind := interleave_inductive (watch (· = B)) (poolServer J)
    (PoolScript (· = B)) (FreshRelease B) Remembers
    (fun st log => ReadsSeen st log ∧ BookingKept B st log)
    (fun i p hp => ⟨.idle, fun _ => rfl, allowed_script hp⟩)
    (fun st => ⟨by simp [ReadsSeen], fun _ hn => absurd hn (not_since_nil _ _)⟩)
    (fun i st log m q a vs m' hmove hm => remembers_move (move_cases hmove) hm)
    (fun i j log m vs hij hm => remembers_frame vs hij hm)
    (fun s i q k a vs m m' hfresh hp hmove hm hg => by
      have hpm := move_cases hmove
      refine ⟨readsSeen_move hpm hg.1, bookingKept_move hpm hm hg.1 ?_ hg.2⟩
      intro n d hq
      subst hq
      exact hfresh n d k hp)
  exact (hind.reachable s hr).1.2

/-- `sgw:7` holds the node and releases it, a cleanup runs, and `lite:8`
reserves the node. -/
def handover : Sys sig Pool where
  state := busyPool
  procs
    | 0 => releaseNode (some "sgw:7") ["10.0.0.1"]
    | 1 => cleanupForBlockedNodes none
    | 2 => (reserveNode "10.0.0.1" (some "lite:8") 0).void
    | _ => releaseNode none []
  log := []

theorem handover_start (i : Nat) : PoolScript (· = some "lite:8") (handover.procs i) := by
  match i with
  | 0 => exact .release (some "sgw:7") ["10.0.0.1"]
  | 1 => exact .cleanup none
  | 2 => exact .reserve "10.0.0.1" (some "lite:8") 0 rfl
  | _ + 3 => exact .release none []

/-- The release is over before `lite:8` reserves the node. -/
theorem booking_kept_after_release :
    ∃ s : Sys sig Pool, Since (Booked (some "lite:8") "10.0.0.1") (Ended (some "lite:8") "10.0.0.1")
      s.log ∧ (s.state.doc "10.0.0.1").BookedBy (some "lite:8") := by
  have hreach := reachable_exec (poolServer fun _ _ _ => True)
    (reply_ok (fun _ => true) (fun _ _ => .unreachable) fun _ _ => trivial)
    (PoolScript (· = some "lite:8")) (FreshRelease (some "lite:8")) [0, 0, 2, 2, 2] handover
    (LTS.reachable_init ⟨handover_start, rfl⟩) (by decide)
  have hsince : Since (Booked (some "lite:8") "10.0.0.1") (Ended (some "lite:8") "10.0.0.1")
      (handover.exec (poolServer fun _ _ _ => True) (answering fun _ => true) [0, 0, 2, 2, 2]).log :=
    ⟨[(0, .read .release "10.0.0.1" (idleNode.book (some "sgw:7") "") 0),
        (0, .released "10.0.0.1" (.job (some "sgw:7"))),
        (2, .read .reserve "10.0.0.1" (idleNode.book (some "sgw:7") "").free 1)],
      (2, .reserved "10.0.0.1" (some "lite:8") true), [], by decide, rfl, by simp⟩
  exact ⟨_, hsince, booking_kept_of_fresh_release (some "lite:8") _ hreach "10.0.0.1" hsince⟩

/-- The release of `sgw:7` reads its booking and is suspended; a cleanup frees
the node and `lite:8` reserves it; then the release writes. -/
theorem stale_release_drops_booking :
    ∃ s, (interleave (poolServer fun _ _ _ => True) (PoolScript (· = some "lite:8"))).Reachable s ∧
      ¬ BookingKept (some "lite:8") s.state s.log := by
  have hreach := reachable_exec (poolServer fun _ _ _ => True)
    (reply_ok (fun _ => true) (fun _ _ => .unreachable) fun _ _ => trivial)
    (PoolScript (· = some "lite:8")) (fun _ _ => True) [0, 1, 1, 1, 2, 2, 2, 0] handover
  rw [LTS.guard_true] at hreach
  refine ⟨_, hreach (LTS.reachable_init ⟨handover_start, rfl⟩) (meets_true _ _ _ _), fun h => ?_⟩
  have hdoc := h "10.0.0.1" ⟨[(0, .read .release "10.0.0.1" (idleNode.book (some "sgw:7") "") 0),
      (1, .read .cleanup "10.0.0.1" (idleNode.book (some "sgw:7") "") 0),
      (1, .released "10.0.0.1" (.cleanup (idleNode.book (some "sgw:7") ""))),
      (2, .read .reserve "10.0.0.1" (idleNode.book (some "sgw:7") "").free 1)],
    (2, .reserved "10.0.0.1" (some "lite:8") true),
    [(0, .released "10.0.0.1" (.job (some "sgw:7")))], by decide, rfl, ?_⟩
  · revert hdoc
    decide
  · intro x hx hend
    rw [List.mem_singleton.mp hx] at hend
    rcases hend with ⟨job, hu, he⟩ | ⟨d, hd, he⟩
    · simp only [Ev.released.injEq, Releaser.job.injEq, true_and] at he
      subst he
      exact absurd hu (by decide)
    · cases he

end MobileTestkit.L5.ServerPool
