import MobileTestkit.L2Cluster.PoolFile
import MobileTestkit.L5Concurrency.PoolConcurrent

/-!
# The pool as its log tells it

The command line of utilities/mobile_server_pool.py (`main`), any number of times at once
against one bucket. The log of a run tells who has each node (`ledger`), and the bucket is
what the ledger says: the pool of documents refines a table of holders.

* `kept_run`: the bucket agrees with the ledger after any steps.
* `pool_ledger`: the same for a run from its start; and whoever is told `True` for a node
  has read it after the last write to it, so that a reservation is never told to two jobs
  for one version of the document.
-/
namespace MobileTestkit.L5.PoolLedger

open MobileTestkit.Core MobileTestkit.L5.ServerPool

variable {J : String → String → Jenkins → Prop} {reserver : Job → Prop}

/-! ## The command line -/

/-- How many of the rows are alive.
mirrors utilities/mobile_server_pool.py:50-59 -/
def countAlive (nodesOsType : String) : List String → Nat → Prog Nat
  | [], count => .ret count
  | docId :: rows, count =>
    (if nodesOsType ∈ MOBILE_OS then checkDeviceAlive docId else checkVmAlive docId).bind fun alive =>
      countAlive nodesOsType rows (if alive then count + 1 else count)

/-- The number that is printed.
mirrors utilities/mobile_server_pool.py:30-59 -/
def getNodesAvailableFromMobilePool (nodesOsType nodeOsVersion : String) (slaveIp : Option String) :
    Prog Nat :=
  if nodesOsType ∈ MOBILE_OS then
    match slaveIp with
    | none => .raise needSlaveIp
    | some ip =>
      .call (Query.select (.available nodesOsType "7" (some ip))) fun (rows : List String) =>
        countAlive nodesOsType rows 0
  else
    .call (Query.select (.available nodesOsType nodeOsVersion none)) fun (rows : List String) =>
      countAlive nodesOsType rows 0

/-- mirrors utilities/mobile_server_pool.py:274-317 -/
structure Opts where
  numOfNodes : Int := 2
  nodesOsType : String := "debian"
  slaveIp : Option String := none
  nodesOsVersion : String := "12"
  jobName : Job := none
  reserveNodes : Bool := false
  getAvailableNodes : Bool := false
  releaseNodes : Bool := false
  cleanupNodes : Bool := false
  poolList : Option String := none
  sgwNodes : Option String := none
  loadBalancerNodes : Option String := none

def useEitherOne : Exn := .exception
  "Use either one the flag from --cleanup_nodes or --release-nodes or --reserve-nodes or --get-available-nodes"

def useEitherOneElse : Exn := .exception
  "Use either one the flag from --cleanup_nodes or --release-nodes or --reserve-nodes or --get-available-nodes "

/-- mirrors utilities/mobile_server_pool.py:368-371 -/
def nodeList (poolList : String) : List String :=
  let stripped := String.ofList (PyStr.strip poolList.toList)
  if ',' ∈ stripped.toList then PyStr.split stripped ',' else [stripped]

/-- What is written for the nodes; devices have no pool file.
mirrors utilities/mobile_server_pool.py:336-365 -/
def poolText (opts : Opts) (nodes : List String) : Option String :=
  if opts.nodesOsType ∈ MOBILE_OS then none
  else some (L2.PoolFile.poolJsonStr nodes opts.sgwNodes opts.loadBalancerNodes)

/-- The text written to resources/pool.json, if any.
mirrors utilities/mobile_server_pool.py:320-379 -/
def main (opts : Opts) : Prog (Option String) :=
  if opts.cleanupNodes && opts.reserveNodes && opts.releaseNodes && opts.getAvailableNodes then
    .raise useEitherOne
  else if opts.getAvailableNodes then
    (getNodesAvailableFromMobilePool opts.nodesOsType opts.nodesOsVersion opts.slaveIp).bind fun _ => .ret none
  else if opts.reserveNodes then
    (getNodesFromPoolServer opts.numOfNodes opts.nodesOsType opts.nodesOsVersion opts.jobName
      opts.slaveIp).bind fun nodes => .ret (poolText opts nodes)
  else if opts.releaseNodes then
    match opts.poolList with
    | none => .raise .attributeError
    | some poolList => (releaseNode opts.jobName (nodeList poolList)).bind fun _ => .ret none
  else if opts.cleanupNodes then (cleanupForBlockedNodes opts.jobName).bind fun _ => .ret none
  else .raise useEitherOneElse

/-- A call of the command line. -/
def Command (p : Prog Unit) : Prop := ∃ opts, p = (main opts).void

theorem allowed_checkVmAlive (server : String) {m : Watch} (h : m.pending = .none) :
    Allowed reserver (checkVmAlive server) m := allowed_sshAttempts server _ h

theorem allowed_countAlive (nodesOsType : String) (rows : List String) (count : Nat) {m : Watch}
    (h : m.pending = .none) : Allowed reserver (countAlive nodesOsType rows count) m := by
  induction rows generalizing count m with
  | nil => exact h
  | cons docId rows ih =>
    refine allowed_bind ?_ fun alive m' hm => ih _ hm
    split
    · exact ⟨h, trivial, fun _ => h⟩
    · exact allowed_checkVmAlive docId h

theorem allowed_getNodesAvailable (nodesOsType nodeOsVersion : String) (slaveIp : Option String)
    {m : Watch} (h : m.pending = .none) :
    Allowed reserver (getNodesAvailableFromMobilePool nodesOsType nodeOsVersion slaveIp) m := by
  unfold getNodesAvailableFromMobilePool
  split
  · split
    · exact h
    · exact ⟨h, trivial, fun rows => allowed_countAlive nodesOsType rows 0 h⟩
  · exact ⟨h, trivial, fun rows => allowed_countAlive nodesOsType rows 0 h⟩

theorem allowed_main (opts : Opts) {m : Watch} (h : m.pending = .none) :
    Allowed (fun _ => True) (main opts) m := by
  unfold main
  split
  · exact h
  · split
    · exact allowed_bind (allowed_getNodesAvailable _ _ _ h) fun _ _ hm => hm
    · split
      · exact allowed_bind (allowed_getNodes _ _ _ _ trivial h) fun _ _ hm => hm
      · split
        · split
          · exact h
          · rename_i poolList _
            generalize nodeList poolList = nodes
            exact allowed_bind (allowed_releaseNode _ nodes h) fun _ _ hm => hm
        · split
          · exact allowed_bind ⟨h, trivial, fun rows => allowed_cleanupRows rows h⟩ fun _ _ hm => hm
          · exact h

theorem allowed_command {p : Prog Unit} (h : Command p) : Allowed (fun _ => True) p .idle := by
  obtain ⟨opts, rfl⟩ := h
  exact allowed_bind (allowed_main opts rfl) fun _ _ hm => hm

/-! ## The ledger -/

/-- Who has a node: whoever had it at the start, a job that was told `True`, or no one. -/
inductive Holder where
  | initially
  | heldBy (job : Job)
  | free
  deriving DecidableEq

/-- What an event says about who has the node. -/
def note (n : String) (holder : Holder) (e : Nat × Ev) : Holder :=
  match e.2 with
  | .reserved id job true => if id = n then .heldBy job else holder
  | .released id _ => if id = n then .free else holder
  | _ => holder

/-- Who has the node after the events. -/
def ledger (log : Log) (n : String) : Holder := log.foldl (note n) .initially

/-- What a document says that no script changes. -/
def machine (d : Doc) : String × String × Option String := (d.os, d.osVersion, d.slaveIp)

/-- The document is the one of a node with that holder; `d₀` is the one at the start. -/
def Agrees (d₀ d : Doc) : Holder → Prop
  | .initially => d = d₀
  | .heldBy job => d.BookedBy job ∧ machine d = machine d₀
  | .free => (d.state = "available" ∧ d.username = some "") ∧ machine d = machine d₀

theorem Agrees.machine {d₀ d : Doc} {holder : Holder} (h : Agrees d₀ d holder) :
    machine d = machine d₀ := by
  cases holder with
  | initially =>
    have hsame : d = d₀ := h
    rw [hsame]
  | heldBy job => exact h.2
  | free => exact h.2

/-- The event is a write to the node. -/
def Writes (n : String) (e : Nat × Ev) : Prop := Told n e ∨ Gone n e

/-- Whoever is told `True` has read the document after the last write to it. -/
def Atomic (past : Log) (e : Nat × Ev) : Prop :=
  ∀ n job, e.2 = .reserved n job true →
    ∃ d c, Since (· = (e.1, Ev.read .reserve n d c)) (Writes n) past

theorem ledger_snoc (log : Log) (e : Nat × Ev) (n : String) :
    ledger (log ++ [e]) n = note n (ledger log n) e := by
  simp [ledger]

theorem note_of_not_writes {n : String} {e : Nat × Ev} (h : ¬ Writes n e) (holder : Holder) :
    note n holder e = holder := by
  obtain ⟨i, v⟩ := e
  cases v with
  | read w id d c => rfl
  | alive id b => rfl
  | reserved id job b =>
    cases b with
    | false => rfl
    | true => exact if_neg fun hid => h (.inl ⟨job, by rw [hid]⟩)
  | released id who => exact if_neg fun hid => h (.inr ⟨who, by rw [hid]⟩)

theorem not_writes_of_quiet {e : Nat × Ev} (h : e.2.Quiet) (n : String) : ¬ Writes n e :=
  fun hw => hw.elim (not_told_gone_of_quiet h n).1 (not_told_gone_of_quiet h n).2

theorem not_writes_read (i : Nat) (w : Why) (k : String) (d : Doc) (c : Nat) (n : String) :
    ¬ Writes n (i, .read w k d c) := by
  rintro (⟨job, h⟩ | ⟨who, h⟩) <;> cases h

/-- What a run has made of the bucket it began with. -/
structure Kept (st₀ st : Pool) (log : Log) : Prop where
  keys : st.keys = st₀.keys
  docs : ∀ n, Agrees (st₀.doc n) (st.doc n) (ledger log n)
  reads : ∀ i w n d c, (i, Ev.read w n d c) ∈ log → machine d = machine (st₀.doc n)
  current : ∀ i n w d c, lastRead i n log = some (w, d, c) → st.cas n = c →
    Since (· = (i, Ev.read w n d c)) (Writes n) log
  atomic : AtEach Atomic log

theorem kept_nil (st : Pool) : Kept st st [] where
  keys := rfl
  docs _ := rfl
  reads _ _ _ _ _ h := absurd h List.not_mem_nil
  current _ _ _ _ _ h := by cases h
  atomic := atEach_nil _

theorem kept_quiet {st₀ st : Pool} {log vs : Log} (hvs : ∀ e ∈ vs, e.2.Quiet) (h : Kept st₀ st log) :
    Kept st₀ st (log ++ vs) := by
  induction vs generalizing log with
  | nil =>
    rw [List.append_nil]
    exact h
  | cons e vs ih =>
    have hq := hvs e List.mem_cons_self
    have hno := not_writes_of_quiet hq
    rw [List.append_cons]
    refine ih (fun x hx => hvs x (List.mem_cons_of_mem e hx)) ⟨h.keys, fun n => ?_, ?_, ?_, ?_⟩
    · rw [ledger_snoc, note_of_not_writes (hno n)]
      exact h.docs n
    · intro i w n d c hmem
      rcases List.mem_append.mp hmem with hmem | hmem
      · exact h.reads i w n d c hmem
      · rw [← List.mem_singleton.mp hmem] at hq
        exact hq.elim
    · intro i n w d c hlast hcas
      rw [lastRead_snoc, noteRead_of_quiet hq] at hlast
      exact since_snoc.mpr (.inr ⟨h.current i n w d c hlast hcas, hno n⟩)
    · exact atEach_snoc h.atomic fun n job he => absurd (.inl ⟨job, he⟩) (hno n)

/-- A program reads the stored document. -/
theorem kept_read {st₀ st : Pool} {log : Log} (h : Kept st₀ st log) (i : Nat) (w : Why) {k : String}
    {d : Doc} {c : Nat} (hget : st.get k = some (d, c)) : Kept st₀ st (log ++ [(i, .read w k d c)]) where
  keys := h.keys
  docs n := by
    rw [ledger_snoc, note_of_not_writes (not_writes_read i w k d c n)]
    exact h.docs n
  reads j w' n d' c' hmem := by
    rcases List.mem_append.mp hmem with hmem | hmem
    · exact h.reads j w' n d' c' hmem
    · have he := List.mem_singleton.mp hmem
      simp only [Prod.mk.injEq, Ev.read.injEq] at he
      obtain ⟨-, -, rfl, rfl, -⟩ := he
      rw [← (CasStore.get_eq_some hget).2.1]
      exact (h.docs n).machine
  current j n w' d' c' hlast hcas := by
    rw [lastRead_snoc] at hlast
    simp only [noteRead] at hlast
    split at hlast
    · rename_i hjk
      obtain ⟨rfl, rfl⟩ := hjk
      obtain ⟨rfl, rfl, rfl⟩ : w = w' ∧ d = d' ∧ c = c' := by simpa using hlast
      exact since_snoc.mpr (.inl rfl)
    · exact since_snoc.mpr (.inr ⟨h.current j n w' d' c' hlast hcas, not_writes_read i w k d c n⟩)
  atomic := atEach_snoc h.atomic fun n job he => by cases he

/-- A write that is recorded as `e`, of a document of the same machine. -/
theorem kept_put {st₀ st : Pool} {log : Log} (h : Kept st₀ st log) (hs : ReadsSeen st log) {k : String}
    {d : Doc} {e : Nat × Ev} (hread : ∀ w n d c, e.2 ≠ .read w n d c) (hwrites : ∀ n, Writes n e → n = k)
    (hagrees : ∀ holder, Agrees (st₀.doc k) d (note k holder e)) (hatomic : Atomic log e) :
    Kept st₀ (st.put k d) (log ++ [e]) where
  keys := h.keys
  docs n := by
    rw [ledger_snoc]
    by_cases hn : n = k
    · rw [hn, CasStore.put_doc_self]
      exact hagrees _
    · rw [CasStore.put_doc_of_ne _ _ hn, note_of_not_writes fun hw => hn (hwrites n hw)]
      exact h.docs n
  reads j w n d' c hmem := by
    rcases List.mem_append.mp hmem with hmem | hmem
    · exact h.reads j w n d' c hmem
    · rw [← List.mem_singleton.mp hmem] at hread
      exact absurd rfl (hread w n d' c)
  current j n w d' c hlast hcas := by
    have hsame : lastRead j n (log ++ [e]) = lastRead j n log := lastRead_append (by
      intro x hx last
      rw [List.mem_singleton.mp hx]
      obtain ⟨i, v⟩ := e
      cases v with
      | read w n d c => exact absurd rfl (hread w n d c)
      | reserved _ _ _ => rfl
      | alive _ _ => rfl
      | released _ _ => rfl) log
    rw [hsame] at hlast
    by_cases hn : n = k
    · -- every cas that was read is older than the new one
      subst hn
      have hseen := hs j w n d' c (mem_of_lastRead log hlast)
      rw [CasStore.put_cas_self] at hcas
      exact absurd hseen.1 (by omega)
    · rw [CasStore.put_cas_of_ne _ _ hn] at hcas
      exact since_snoc.mpr (.inr ⟨h.current j n w d' c hlast hcas, fun hw => hn (hwrites n hw)⟩)
  atomic := atEach_snoc h.atomic hatomic

theorem kept_move {i : Nat} {st₀ st st' : Pool} {log : Log} {m m' : Watch} {q : Query} {vs : List Ev}
    (hmove : PoolMove reserver st m q st' vs m') (hm : Remembers i m log) (hs : ReadsSeen st log)
    (h : Kept st₀ st log) : Kept st₀ st' (log ++ vs.map (i, ·)) := by
  cases hmove with
  | quiet hvs => exact kept_quiet (quiet_map hvs i) h
  | read w k d c hget hvs =>
    rw [List.map_cons, List.append_cons]
    exact kept_quiet (quiet_map hvs i) (kept_read h i w hget)
  | booked k d job now hj hread hvs =>
    rw [List.map_cons, List.append_cons]
    refine kept_quiet (quiet_map hvs i) (kept_put h hs (fun w n d c he => by cases he) ?_ ?_ ?_)
    · rintro n (⟨job', he⟩ | ⟨who, he⟩)
      · simp only [Ev.reserved.injEq] at he
        exact he.1.symm
      · cases he
    · intro holder
      have hdoc : st.doc k = d := doc_of_reads hm hs hread
      have hmachine := (h.docs k).machine
      rw [hdoc] at hmachine
      simp only [note, if_pos]
      exact ⟨Doc.book_bookedBy d job now, hmachine⟩
    · intro n job' he
      simp only [Ev.reserved.injEq] at he
      obtain ⟨rfl, -, -⟩ := he
      rw [hm k] at hread
      exact ⟨d, _, h.current i k .reserve d _ hread rfl⟩
  | freed k w d c who hq hread hwho hvs =>
    rw [List.map_cons, List.append_cons]
    refine kept_quiet (quiet_map hvs i) (kept_put h hs (fun w n d c he => by cases he) ?_ ?_ ?_)
    · rintro n (⟨job', he⟩ | ⟨who', he⟩)
      · cases he
      · simp only [Ev.released.injEq] at he
        exact he.1.symm
    · intro holder
      rw [hm k] at hread
      simp only [note, if_pos]
      exact ⟨⟨rfl, rfl⟩, h.reads i w k d c (mem_of_lastRead log hread)⟩
    · intro n job' he
      cases he

/-! ## Every run -/

/-- What the programs remember of their reads, in every state. -/
theorem watched_inductive : (interleave (poolServer J) Command).Inductive fun s =>
    ReadsSeen s.state s.log ∧ ∀ i, ∃ m, Remembers i m s.log ∧
      Obeys (watch fun _ => True) (s.procs i) m fun _ m' => m'.pending = .none := by
  have hind := interleave_inductive (watch fun _ => True) (poolServer J) Command (fun _ _ => True) Remembers
    ReadsSeen (fun i p hp => ⟨.idle, fun _ => rfl, allowed_command hp⟩) (fun st => by simp [ReadsSeen])
    (fun i st log m q a vs m' hmove hm => remembers_move (move_cases hmove) hm)
    (fun i j log m vs hij hm => remembers_frame vs hij hm)
    (fun s i q k a vs m m' _ _ hmove _ hs => readsSeen_move (move_cases hmove) hs)
  rw [LTS.guard_true] at hind
  exact hind

theorem kept_run {s₀ s : Sys sig Pool} (h₀ : (interleave (poolServer J) Command).init s₀)
    (hrun : Relation.ReflTransGen (interleave (poolServer J) Command).Next s₀ s) :
    Kept s₀.state s.state s.log := by
  induction hrun with
  | refl =>
    rw [h₀.2]
    exact kept_nil s₀.state
  | tail hrun hnext ih =>
    obtain ⟨i, hstep⟩ := hnext
    obtain ⟨hs, hwatch⟩ := watched_inductive.reachable _ ⟨s₀, h₀, hrun⟩
    obtain ⟨m, q, a, vs, m', hm, hmove, hstate, hlog⟩ := interleave_move (hwatch i) hstep
    rw [hstate, hlog]
    exact kept_move (move_cases hmove) hm hs ih

/-- Any number of calls of the command line, with any options, one store operation at a
time: no document appears or disappears, and each is what the log tells about its node,
booked by whoever was told `True` last, free if it was released last, as at the start if
neither, and still the document of the same machine. Whoever is told `True` has read the
document after the last write to it. -/
theorem pool_ledger {s₀ s : Sys sig Pool} (h₀ : (interleave (poolServer J) Command).init s₀)
    (hrun : Relation.ReflTransGen (interleave (poolServer J) Command).Next s₀ s) :
    s.state.keys = s₀.state.keys ∧
    (∀ n, Agrees (s₀.state.doc n) (s.state.doc n) (ledger s.log n)) ∧
    AtEach Atomic s.log := ⟨(kept_run h₀ hrun).keys, (kept_run h₀ hrun).docs, (kept_run h₀ hrun).atomic⟩

/-- One call that reserves a node. -/
def oneCall : Sys sig Pool where
  state := idlePool
  procs
    | 0 => (main ⟨1, "debian", none, "12", some "sgw:7", true, false, false, false, none, none, none⟩).void
    | _ => (main ⟨2, "debian", none, "12", none, false, false, false, false, none, none, none⟩).void
  log := []

theorem oneCall_init : (interleave (poolServer fun _ _ _ => True) Command).init oneCall := by
  refine ⟨fun i => ?_, rfl⟩
  match i with
  | 0 => exact ⟨_, rfl⟩
  | _ + 1 => exact ⟨_, rfl⟩

theorem pool_ledger_oneCall : ∃ s : Sys sig Pool, (s.state.doc "10.0.0.1").BookedBy (some "sgw:7") ∧
    AtEach Atomic s.log := by
  obtain ⟨-, hdocs, hatomic⟩ := pool_ledger oneCall_init
    (schedule_run (poolServer fun _ _ _ => True) (reply_ok (fun _ => true) (fun _ _ => .unreachable)
      fun _ _ => trivial) Command [0, 0, 0, 0] oneCall)
  have hheld := hdocs "10.0.0.1"
  rw [show ledger _ "10.0.0.1" = .heldBy (some "sgw:7") by decide] at hheld
  exact ⟨_, hheld.1, hatomic⟩

end MobileTestkit.L5.PoolLedger
