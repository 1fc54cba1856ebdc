import Mathlib.Data.List.Range
import MobileTestkit.Core.ExceptLoop
import MobileTestkit.Core.PyStr
import MobileTestkit.Core.Turns

/-!
# Waiting until a replicator is idle

Model of `Replication.wait_until_replicator_idle` (CBLClient/Replication.py) and of the test
of error messages it uses (keywords/utils.py). The answers of the replicator and the clock
are given turn by turn; what is only logged is left out.

The level a turn starts with was read at the end of the turn before. A run that returns
also says what it observed last: the level and the counts it was read with.

* `wait_ends`: the loop ends, whatever it is answered.
* `wait_within`: how many turns it takes at most.
* `turn_ok`: what a turn does, from the answers.
* `wait_idle_iff`: a normal return means an idle or stopped replicator that is done,
  exactly when the loop does not use up its turns before, on one that is not.
-/
namespace MobileTestkit.L4.ReplicatorIdle

open MobileTestkit.Core

inductive Level where
  | offline | connecting | busy | idle | stopped
  deriving DecidableEq, Repr

/-- The answers to `getError`. -/
inductive Err where
  | none
  | str (message : String)
  | int (n : Int)
  deriving DecidableEq, Repr

inductive Exn where
  | replicating (err : Err)
  | exception (message : String)
  | typeError
  deriving DecidableEq, Repr

/-- The answers of one turn: `getCompleted` and twice `getTotal` for a level that is idle,
then whether `max_timeout` has not passed, the error, and level and counts at the end. -/
structure Answers where
  idleCompleted : Int
  idleTotal : Int
  idleTotalAgain : Int
  inTime : Bool
  error : Err
  level : Level
  total : Int
  completed : Int
  deriving DecidableEq, Repr

/-- A level with the counts, completed and total, that were read with it. -/
structure Observation where
  level : Level
  progress : Option (Int × Int)
  deriving DecidableEq, Repr

structure State where
  count : Int
  idleCount : Nat
  level : Level
  last : Observation
  deriving DecidableEq, Repr

structure Args where
  errCheck : Bool
  maxTimes : Int
  isContinuous : Bool

def maxIdleCount : Nat := 20

/-- mirrors keywords/utils.py:510-530 -/
def isReplicatorInConnectionRetry (errorMsg : String) : Bool :=
  let has (s : String) := PyStr.contains errorMsg s
  if has "POSIXErrorDomain,111" && has "Connection refused" && has "Android" then true
  else if has "CouchbaseLite,11001" && has "WebSocket connection closed by peer" && has "Java" then true
  else if has "POSIXDomain / 111" && has "Connection refused" then true
  else if has "NSPOSIXErrorDomain" && has "Connection refused" && has "Code=61" then true
  -- `("111" or "61" or "5003")` is "111"
  else if has "111" then true
  else has "No connection could be made because the target machine actively refused it"

/-- `err is not None and err != 'nil' and err != -1`. -/
def Err.isError : Err → Bool
  | .none => false
  | .str message => message ≠ "nil"
  | .int n => n ≠ -1

/-- mirrors CBLClient/Replication.py:366-374 -/
def checkError (args : Args) (t : Answers) : Except Exn Unit :=
  if args.errCheck && t.error.isError then
    if !args.isContinuous then .error (.replicating t.error)
    else match t.error with
      | .str message =>
        if isReplicatorInConnectionRetry message && t.inTime then .ok ()
        else .error (.replicating t.error)
      | _ => .error .typeError
  else .ok ()

/-- `activity_level == "offline" or activity_level == "connecting" or activity_level == "busy"`. -/
def Level.isActive : Level → Bool
  | .offline | .connecting | .busy => true
  | .idle | .stopped => false

/-- The test of an idle replicator that is not done.
mirrors CBLClient/Replication.py:357 -/
def Answers.lagging (t : Answers) : Bool := t.idleCompleted < t.idleTotal && t.idleTotalAgain ≠ 0

/-- The counts the test has read: the total is read again if the first one is not reached. -/
def Answers.idleProgress (t : Answers) : Int × Int :=
  (t.idleCompleted, if t.idleCompleted < t.idleTotal then t.idleTotalAgain else t.idleTotal)

/-- The counters after the look at the level.
mirrors CBLClient/Replication.py:352-360 -/
def State.counted (s : State) (t : Answers) : State :=
  if s.level.isActive then { s with count := s.count + 1, idleCount := 0 }
  else if s.level = .idle then
    if t.lagging then { s with count := s.count + 1 } else { s with idleCount := s.idleCount + 1 }
  else s

/-- The replicator has been idle for long enough.
mirrors CBLClient/Replication.py:361-363 -/
def State.breaks (s : State) (t : Answers) : Bool :=
  s.level = .idle && !t.lagging && maxIdleCount < (s.counted t).idleCount

/-- What is read at the end of a turn.
mirrors CBLClient/Replication.py:376-385 -/
def endTurn (s : State) (t : Answers) : Except Exn (Turns.Turn State Observation) :=
  if t.level = .stopped then
    if t.completed < t.total then .error (.exception "replication progress is not completed")
    else .ok (.done ⟨.stopped, some (t.completed, t.total)⟩)
  else if t.total < t.completed ∧ t.total ≤ 0 then
    .error (.exception "total is less than completed")
  else .ok (.go { s with level := t.level, last := ⟨t.level, some (t.completed, t.total)⟩ })

/-- One turn, or the end of the loop when its condition fails.
mirrors CBLClient/Replication.py:347-385 -/
def turn (args : Args) (answers : Nat → Answers) : Turns.Body Exn State Observation := fun k s =>
  let t := answers k
  if s.count < args.maxTimes then
    if s.breaks t then .ok (.done ⟨.idle, some t.idleProgress⟩)
    else do
      checkError args t
      endTurn (s.counted t) t
  else .ok (.done s.last)

/-- mirrors CBLClient/Replication.py:335-385 -/
def waitUntilReplicatorIdle (args : Args) (level : Level) (answers : Nat → Answers) (fuel : Nat) :
    Option (Nat × Except Exn Observation) :=
  Turns.run (turn args answers) fuel 0 ⟨0, 0, level, ⟨level, none⟩⟩

/-- Idle with all of it completed or nothing to do, or stopped with all of it completed. -/
def Observation.Done (o : Observation) : Prop := ∃ completed total, o.progress = some (completed, total) ∧
  (o.level = .idle ∧ (total ≤ completed ∨ total = 0) ∨ o.level = .stopped ∧ total ≤ completed)

/-! ## The loop ends -/

section
variable {args : Args} {answers : Nat → Answers} {first : Level}

/-- A turn that goes on counts, unless the level at the start was stopped. -/
def measure (args : Args) (s : State) : Nat :=
  (args.maxTimes - s.count).toNat * 22 + (20 - s.idleCount) + if s.level = .stopped then 1 else 0

theorem turn_ok {k : Nat} {s : State} {o : Turns.Turn State Observation}
    (h : turn args answers k s = .ok o) :
    (¬ s.count < args.maxTimes ∧ o = .done s.last) ∨ s.count < args.maxTimes ∧
      (s.breaks (answers k) = true ∧ o = .done ⟨.idle, some (answers k).idleProgress⟩ ∨
        s.breaks (answers k) = false ∧ checkError args (answers k) = .ok () ∧
          endTurn (s.counted (answers k)) (answers k) = .ok o) := by
  simp only [turn] at h
  split at h
  · rename_i hlt
    refine .inr ⟨hlt, ?_⟩
    split at h
    · rename_i hb
      exact .inl ⟨hb, (Except.ok.inj h).symm⟩
    · rename_i hb
      obtain ⟨⟨⟩, herr, hend⟩ := Loop.bind_eq_ok.mp h
      exact .inr ⟨by simpa using hb, herr, hend⟩
  · rename_i hlt
    exact .inl ⟨hlt, (Except.ok.inj h).symm⟩

theorem endTurn_go {s s' : State} {t : Answers} (h : endTurn s t = .ok (.go s')) :
    t.level ≠ .stopped ∧ ¬ (t.total < t.completed ∧ t.total ≤ 0) ∧
      s' = { s with level := t.level, last := ⟨t.level, some (t.completed, t.total)⟩ } := by
  rw [endTurn] at h
  split at h
  · split at h <;> cases h
  · rename_i hlevel
    split at h
    · cases h
    · rename_i htotal
      exact ⟨hlevel, htotal, (Turns.Turn.go.inj (Except.ok.inj h)).symm⟩

theorem measure_counted {s : State} {t : Answers} (hlt : s.count < args.maxTimes) (hidle : s.idleCount ≤ 20)
    (hb : s.breaks t = false) (l : Level) (hl : l ≠ .stopped) (o : Observation) :
    (s.counted t).idleCount ≤ 20 ∧
      measure args { s.counted t with level := l, last := o } < measure args s := by
  obtain ⟨count, idleCount, level, last⟩ := s
  simp only at hlt hidle
  cases level with
  | offline | connecting | busy =>
    simp only [State.counted, Level.isActive, if_true, measure, hl, if_false]
    omega
  | idle =>
    cases hlag : t.lagging with
    | true =>
      simp only [State.counted, Level.isActive, Bool.false_eq_true, if_false, hlag, if_true, measure, hl]
      omega
    | false =>
      simp only [State.breaks, State.counted, Level.isActive, Bool.false_eq_true, if_false, hlag, if_true,
        decide_true, Bool.not_false, Bool.true_and, maxIdleCount, decide_eq_false_iff_not] at hb
      simp only [State.counted, Level.isActive, Bool.false_eq_true, if_false, hlag, if_true, measure, hl]
      omega
  | stopped =>
    simp only [State.counted, Level.isActive, Bool.false_eq_true, if_false, reduceCtorEq, measure, hl,
      if_true]
    omega

/-- A turn that goes on uses up some of the measure. -/
theorem measure_turn {k : Nat} {s s' : State} (hidle : s.idleCount ≤ 20)
    (hgo : turn args answers k s = .ok (.go s')) : s'.idleCount ≤ 20 ∧ measure args s' < measure args s := by
  rcases turn_ok hgo with ⟨-, h⟩ | ⟨hlt, ⟨-, h⟩ | ⟨hb, -, hend⟩⟩
  · cases h
  · cases h
  · obtain ⟨hlevel, -, rfl⟩ := endTurn_go hend
    exact measure_counted hlt hidle hb _ hlevel _

theorem run_ends {s : State} (hidle : s.idleCount ≤ 20) {fuel : Nat} (hfuel : measure args s < fuel) (k : Nat) :
    ∃ n o, Turns.run (turn args answers) fuel k s = some (n, o) :=
  Turns.exists_run (μ := measure args) (I := fun s => s.idleCount ≤ 20)
    (fun _ _ _ hidle hgo => measure_turn hidle hgo) hidle hfuel

/-- Whatever the answers, the loop comes to an end. -/
theorem wait_ends (args : Args) (first : Level) (answers : Nat → Answers) :
    ∃ fuel n o, waitUntilReplicatorIdle args first answers fuel = some (n, o) :=
  ⟨_, run_ends (Nat.zero_le _) (Nat.lt_succ_self _) 0⟩

/-- Within 22 turns for each of the `max_times` and 21 more, the 20 idle ones behind the last
and the one on a replicator that was stopped at the start. -/
theorem wait_within (args : Args) (first : Level) (answers : Nat → Answers) :
    ∃ n o, n ≤ args.maxTimes.toNat * 22 + 21 ∧
      ∀ more, waitUntilReplicatorIdle args first answers (n + 1 + more) = some (n, o) := by
  have hstart : measure args ⟨0, 0, first, ⟨first, none⟩⟩ < args.maxTimes.toNat * 22 + 22 := by
    unfold measure
    split <;> simp
  have hends : ∃ n o, waitUntilReplicatorIdle args first answers (args.maxTimes.toNat * 22 + 22) =
      some (n, o) := run_ends (Nat.zero_le 20) hstart 0
  obtain ⟨n, o, hrun⟩ := hends
  obtain ⟨hn, hreach⟩ := Turns.run_eq_some_iff.mp hrun
  exact ⟨n, o, by omega, fun more => Turns.run_eq_some_iff.mpr ⟨by omega, hreach⟩⟩

/-! ## What a normal return means -/

section Inputs
variable (args : Args) (first : Level) (answers : Nat → Answers)

/-- The level turn `k` starts with. -/
def levelAt : Nat → Level
  | 0 => first
  | k + 1 => (answers k).level

/-- What has been read when turn `k` starts. -/
def observed : Nat → Observation
  | 0 => ⟨first, none⟩
  | k + 1 => ⟨(answers k).level, some ((answers k).completed, (answers k).total)⟩

/-- Turn `k` finds the replicator active, or idle and not done. -/
def Waits (k : Nat) : Prop :=
  (levelAt first answers k).isActive = true ∨ levelAt first answers k = .idle ∧ (answers k).lagging = true

instance (k : Nat) : Decidable (Waits first answers k) := inferInstanceAs (Decidable (_ ∨ _))

/-- How many of the turns before turn `k` waited. -/
def waited (k : Nat) : Nat := (List.range k).countP fun j => Waits first answers j

/-- How many turns found the replicator idle and done since it was last active. -/
def settled : Nat → Nat
  | 0 => 0
  | k + 1 =>
    if (levelAt first answers k).isActive then 0
    else if levelAt first answers k = .idle ∧ (answers k).lagging = false then settled k + 1
    else settled k

/-- Turn `k` does not end the loop. -/
structure GoesOn (k : Nat) : Prop where
  more : (waited first answers k : Int) < args.maxTimes
  unsettled : ¬ (levelAt first answers k = .idle ∧ (answers k).lagging = false ∧
    maxIdleCount ≤ settled first answers k)
  error : checkError args (answers k) = .ok ()
  running : (answers k).level ≠ .stopped
  total : ¬ ((answers k).total < (answers k).completed ∧ (answers k).total ≤ 0)

/-- The loop uses up its turns before turn `n`. -/
def GivesUp (n : Nat) : Prop :=
  args.maxTimes ≤ waited first answers n ∧ ∀ k < n, GoesOn args first answers k

end Inputs

/-- The state turn `k` starts with. -/
def stateAt (first : Level) (answers : Nat → Answers) (k : Nat) : State where
  count := waited first answers k
  idleCount := settled first answers k
  level := levelAt first answers k
  last := observed first answers k

@[simp] theorem levelAt_succ (k : Nat) : levelAt first answers (k + 1) = (answers k).level := rfl

@[simp] theorem observed_succ (k : Nat) : observed first answers (k + 1) =
    ⟨(answers k).level, some ((answers k).completed, (answers k).total)⟩ := rfl

theorem waited_succ (k : Nat) : waited first answers (k + 1) =
    waited first answers k + if Waits first answers k then 1 else 0 := by
  simp [waited, List.range_succ, List.countP_append]

theorem counted_stateAt (k : Nat) :
    { (stateAt first answers k).counted (answers k) with
      level := (answers k).level
      last := ⟨(answers k).level, some ((answers k).completed, (answers k).total)⟩ } =
    stateAt first answers (k + 1) := by
  simp only [stateAt, waited_succ, settled, Waits, State.counted]
  obtain ⟨l, hl⟩ : ∃ l, levelAt first answers k = l := ⟨_, rfl⟩
  cases l with
  | offline | connecting | busy => simp [hl, Level.isActive]
  | idle => by_cases hlag : (answers k).lagging = true <;> simp [hl, hlag, Level.isActive]
  | stopped => simp [hl, Level.isActive]

theorem breaks_stateAt (k : Nat) : (stateAt first answers k).breaks (answers k) = true ↔
    levelAt first answers k = .idle ∧ (answers k).lagging = false ∧ maxIdleCount ≤ settled first answers k := by
  simp only [stateAt, State.breaks, State.counted]
  obtain ⟨l, hl⟩ : ∃ l, levelAt first answers k = l := ⟨_, rfl⟩
  cases l with
  | offline | connecting | busy | stopped => simp [hl]
  | idle =>
    rw [← Nat.lt_succ_iff]
    by_cases hlag : (answers k).lagging = true <;> simp [hl, hlag, Level.isActive]

theorem turn_go_iff {k : Nat} {s' : State} :
    turn args answers k (stateAt first answers k) = .ok (.go s') ↔
      GoesOn args first answers k ∧ s' = stateAt first answers (k + 1) := by
  constructor
  · intro h
    rcases turn_ok h with ⟨-, h⟩ | ⟨hlt, ⟨-, h⟩ | ⟨hb, herr, hend⟩⟩
    · cases h
    · cases h
    · obtain ⟨hlevel, htotal, rfl⟩ := endTurn_go hend
      refine ⟨⟨hlt, fun hset => ?_, herr, hlevel, htotal⟩, counted_stateAt k⟩
      rw [(breaks_stateAt k).mpr hset] at hb
      cases hb
  · rintro ⟨hgo, rfl⟩
    have hb : (stateAt first answers k).breaks (answers k) = false := by
      rw [← Bool.not_eq_true, breaks_stateAt]
      exact hgo.unsettled
    simp only [turn]
    rw [if_pos (show (stateAt first answers k).count < args.maxTimes from hgo.more), hb,
      if_neg Bool.false_ne_true, hgo.error]
    simp only [bind, Except.bind]
    rw [endTurn, if_neg hgo.running, if_neg hgo.total, counted_stateAt]

/-- The states of a run. -/
theorem reaches_iff {n : Nat} {s : State} :
    Turns.Reaches (turn args answers) ⟨0, 0, first, ⟨first, none⟩⟩ n s ↔
      s = stateAt first answers n ∧ ∀ k < n, GoesOn args first answers k := by
  constructor
  · refine Turns.reaches_inv (I := fun n s => s = stateAt first answers n ∧
      ∀ k < n, GoesOn args first answers k) ⟨rfl, fun k hk => absurd hk (Nat.not_lt_zero k)⟩ ?_
    rintro k s s' ⟨rfl, hbefore⟩ hgo
    obtain ⟨hk, rfl⟩ := turn_go_iff.mp hgo
    refine ⟨rfl, fun j hj => ?_⟩
    rcases Nat.lt_succ_iff_lt_or_eq.mp hj with hj | rfl
    · exact hbefore j hj
    · exact hk
  · rintro ⟨rfl, hbefore⟩
    induction n with
    | zero => exact .start
    | succ n ih =>
      exact (ih fun k hk => hbefore k (by omega)).next (turn_go_iff.mpr ⟨hbefore n (by omega), rfl⟩)

/-- A turn that ends the loop with a result: out of turns, or on a replicator that is done. -/
theorem turn_done {k : Nat} {o : Observation}
    (h : turn args answers k (stateAt first answers k) = .ok (.done o)) :
    (args.maxTimes ≤ waited first answers k ∧ o = observed first answers k) ∨ o.Done := by
  rcases turn_ok h with ⟨hlt, ho⟩ | ⟨-, ⟨hb, ho⟩ | ⟨-, -, hend⟩⟩
  · exact .inl ⟨Int.not_lt.mp hlt, Turns.Turn.done.inj ho⟩
  · -- idle, and the test of the counts failed
    obtain rfl := Turns.Turn.done.inj ho
    obtain ⟨-, hlag, -⟩ := (breaks_stateAt k).mp hb
    refine .inr ⟨_, _, rfl, .inl ⟨rfl, ?_⟩⟩
    by_cases hc : (answers k).idleCompleted < (answers k).idleTotal
    · rw [if_pos hc]
      exact .inr (by simpa [Answers.lagging, hc] using hlag)
    · rw [if_neg hc]
      exact .inl (Int.not_lt.mp hc)
  · rw [endTurn] at hend
    split at hend
    · split at hend
      · cases hend
      · rename_i hc
        obtain rfl := Turns.Turn.done.inj (Except.ok.inj hend)
        exact .inr ⟨_, _, rfl, .inr ⟨rfl, Int.not_lt.mp hc⟩⟩
    · split at hend <;> cases hend

/-- The loop ends, and it returns only on a replicator that is done, exactly when it does not
use up its turns before, with a last look at one that is not. -/
theorem wait_idle_iff (args : Args) (first : Level) (answers : Nat → Answers) :
    (∃ fuel n r, waitUntilReplicatorIdle args first answers fuel = some (n, r) ∧
        ∀ o, r = .ok o → o.Done) ↔
      ∀ n, GivesUp args first answers n → (observed first answers n).Done := by
  constructor
  · rintro ⟨fuel, m, r, hrun, hdone⟩ n ⟨hmax, hbefore⟩
    have hreach := reaches_iff.mpr ⟨rfl, hbefore⟩
    have hturn : turn args answers n (stateAt first answers n) =
        .ok (.done (observed first answers n)) := by
      simp only [turn]
      rw [if_neg (Int.not_lt.mpr (show args.maxTimes ≤ (stateAt first answers n).count from hmax))]
      rfl
    have hrun' : waitUntilReplicatorIdle args first answers (n + 1) =
        some (n, .ok (observed first answers n)) :=
      Turns.run_eq_some_iff.mpr ⟨by omega, _, hreach, Turns.ends_eq_ok.mpr hturn⟩
    obtain ⟨-, rfl⟩ := Prod.mk.inj (Turns.run_unique hrun hrun')
    exact hdone _ rfl
  · intro h
    obtain ⟨fuel, n, r, hrun⟩ := wait_ends args first answers
    refine ⟨fuel, n, r, hrun, ?_⟩
    rintro o rfl
    obtain ⟨-, s, hreach, hend⟩ := Turns.run_eq_some_iff.mp hrun
    obtain ⟨rfl, hbefore⟩ := reaches_iff.mp hreach
    rcases turn_done (Turns.ends_eq_ok.mp hend) with ⟨hmax, rfl⟩ | hdone
    · exact h n ⟨hmax, hbefore⟩
    · exact hdone

/-- A replicator that is busy all the time, and counts that never meet. -/
def alwaysBusy (_ : Nat) : Answers where
  idleCompleted := 0
  idleTotal := 9
  idleTotalAgain := 9
  inTime := true
  error := .none
  level := .busy
  total := 9
  completed := 3

/-- After `max_times` turns the loop falls through to a normal return. -/
theorem returns_busy :
    waitUntilReplicatorIdle ⟨true, 2, true⟩ .busy alwaysBusy 3 =
      some (2, .ok ⟨.busy, some (3, 9)⟩) ∧ ¬ (Observation.mk .busy (some (3, 9))).Done := by
  refine ⟨rfl, ?_⟩
  rintro ⟨completed, total, -, ⟨h, -⟩ | ⟨h, -⟩⟩
  · cases h
  · cases h

end
end MobileTestkit.L4.ReplicatorIdle
