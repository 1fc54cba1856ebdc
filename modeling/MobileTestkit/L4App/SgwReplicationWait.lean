import Mathlib.Data.List.Range
import MobileTestkit.Core.ExceptLoop
import MobileTestkit.Core.Turns

/-!
# Waiting until a replication of the sync gateway is done

Model of `Admin.wait_until_sgw_replication_done` (libraries/testkit/admin.py). The answers to
the polls are given one by one. The credentials and what is only logged are left out; a run
that returns also says how many polls it has made.

A poll that is answered starting or started counts twice, so the count can go past
`max_times`, where the comparison behind the loop does not see it.

* `wait_ends`: the loop ends, whatever it is answered.
* `Tracks`: the counters of one direction, against what has been answered.
* `wait_done_iff`: a normal return means that the replication is over or has made no progress,
  exactly if the last of the `max_times` is not left for a poll that counts twice.
-/
namespace MobileTestkit.L4.SgwReplicationWait

open MobileTestkit.Core

inductive Exn where
  | httpError (code : Nat)
  | keyError (key : String)
  | exception (message : String)
  deriving DecidableEq, Repr

/-- The answer to a poll: its code, and the keys of the body that are read. -/
structure Response where
  code : Nat
  status : Option String
  docsRead : Option Int
  docsWritten : Option Int
  deriving DecidableEq, Repr

structure Args where
  readFlag : Bool
  writeFlag : Bool
  maxTimes : Int

/-- The variables of one direction. -/
structure Track where
  prevCount : Int
  retryCount : Nat
  timeout : Bool
  deriving DecidableEq, Repr

structure State where
  count : Int
  read : Track
  write : Track
  deriving DecidableEq, Repr

def retryMaxCount : Nat := 120

def timeoutError : Exn := .exception "timeout while waiting for replication to complete on sgw replication"

/-- `r.raise_for_status()` and `resp_obj["status"]`.
mirrors libraries/testkit/admin.py:459-461 -/
def Response.receive (r : Response) : Except Exn String :=
  if 400 ≤ r.code ∧ r.code < 600 then .error (.httpError r.code)
  else match r.status with
    | some status => .ok status
    | none => .error (.keyError "status")

/-- The same for both directions, `docs` being the number of documents in the answer.
mirrors libraries/testkit/admin.py:466-477, 480-491 -/
def Track.poll (t : Track) (docs : Option Int) : Track :=
  if t.retryCount < retryMaxCount then
    match docs with
    | some n =>
      if t.prevCount < n then { t with prevCount := n, retryCount := 0 }
      else { t with retryCount := t.retryCount + 1 }
    | none => { t with retryCount := t.retryCount + 1 }
  else { t with timeout := true }

/-- A poll of a replication that is running.
mirrors libraries/testkit/admin.py:464-491 -/
def State.running (args : Args) (s : State) (r : Response) : State :=
  { s with
    read := if args.readFlag then s.read.poll r.docsRead else s.read
    write := if args.writeFlag then s.write.poll r.docsWritten else s.write }

/-- The end of a turn: its result is the count and the number of polls.
mirrors libraries/testkit/admin.py:495-499 -/
def endTurn (k : Nat) (s : State) : Turns.Turn State (Int × Nat) :=
  let s := { s with count := s.count + 1 }
  if s.read.timeout && s.write.timeout then .done (s.count, k + 1) else .go s

/-- One turn, or the end of the loop when its condition fails.
mirrors libraries/testkit/admin.py:454-499 -/
def turn (args : Args) (answers : Nat → Response) : Turns.Body Exn State (Int × Nat) := fun k s =>
  if s.count < args.maxTimes then do
    let status ← (answers k).receive
    if status = "starting" ∨ status = "started" then
      return endTurn k { s with count := s.count + 1 }
    else if status = "running" then return endTurn k (s.running args (answers k))
    else return .done (s.count, k + 1)
  else .ok (.done (s.count, k))

/-- A direction nobody asked for has timed out from the start.
mirrors libraries/testkit/admin.py:442-453 -/
def start (args : Args) : State := ⟨0, ⟨0, 0, !args.readFlag⟩, ⟨0, 0, !args.writeFlag⟩⟩

/-- mirrors libraries/testkit/admin.py:500-501 -/
def finish (args : Args) (result : Int × Nat) : Except Exn Nat :=
  if result.1 = args.maxTimes then .error timeoutError else .ok result.2

/-- The turn that ends the loop, and the number of polls.
mirrors libraries/testkit/admin.py:437-501 -/
def waitUntilSgwReplicationDone (args : Args) (answers : Nat → Response) (fuel : Nat) :
    Option (Nat × Except Exn Nat) :=
  (Turns.run (turn args answers) fuel 0 (start args)).map fun (n, r) => (n, r >>= finish args)

/-! ## What has been answered -/

inductive Direction where
  | read | write
  deriving DecidableEq, Repr

def Args.requested (args : Args) : Direction → Bool
  | .read => args.readFlag
  | .write => args.writeFlag

def Response.docs (r : Response) : Direction → Option Int
  | .read => r.docsRead
  | .write => r.docsWritten

def State.track (s : State) : Direction → Track
  | .read => s.read
  | .write => s.write

def Starts (r : Response) : Prop := r.receive = .ok "starting" ∨ r.receive = .ok "started"

instance (r : Response) : Decidable (Starts r) := inferInstanceAs (Decidable (_ ∨ _))

def Running (r : Response) : Prop := r.receive = .ok "running"

instance (r : Response) : Decidable (Running r) := inferInstanceAs (Decidable (_ = _))

/-- Neither starting nor running. -/
def Stops (r : Response) : Prop := ∃ status, r.receive = .ok status ∧ status ≠ "starting" ∧
  status ≠ "started" ∧ status ≠ "running"

section Answers
variable (answers : Nat → Response) (d : Direction)

/-- The number of documents before poll `k`. -/
def best : Nat → Int
  | 0 => 0
  | k + 1 =>
    if Running (answers k) then
      match (answers k).docs d with
      | some n => max (best k) n
      | none => best k
    else best k

/-- Poll `k` reports more documents than the ones before. -/
def Progress (k : Nat) : Prop := ∃ n ∈ (answers k).docs d, best answers d k < n

instance (k : Nat) : Decidable (Progress answers d k) :=
  inferInstanceAs (Decidable (∃ n ∈ (answers k).docs d, best answers d k < n))

/-- How many polls before poll `k` found the replication running, since it last made
progress. -/
def idle : Nat → Nat
  | 0 => 0
  | k + 1 =>
    if Running (answers k) then if Progress answers d k then 0 else idle k + 1 else idle k

/-- Before poll `k` there has been no progress for as many polls as are allowed. -/
def Stalled (k : Nat) : Prop := ∃ j ≤ k, retryMaxCount ≤ idle answers d j

/-- A poll before poll `k` has found that. -/
def Flagged (k : Nat) : Prop := ∃ j < k, Running (answers j) ∧ Stalled answers d j

/-- How many of the polls before poll `k` count twice. -/
def starts (k : Nat) : Nat := (List.range k).countP fun j => Starts (answers j)

/-- A direction that is asked for goes on after poll `k`. -/
def Pending (args : Args) (k : Nat) : Prop := ∃ d, args.requested d = true ∧ ¬ Flagged answers d k

/-- Poll `k` is made, and does not end the loop. -/
structure GoesOn (args : Args) (k : Nat) : Prop where
  more : (k + starts answers k : Int) < args.maxTimes
  known : Starts (answers k) ∨ Running (answers k)
  pending : Pending answers args (k + 1)

/-- After `polls` polls the last status is none of the three, or no direction that is asked
for has made progress for as many polls as are allowed. -/
def Finished (args : Args) (polls : Nat) : Prop := (∃ j, polls = j + 1 ∧ Stops (answers j)) ∨
  ∀ d, args.requested d = true → Stalled answers d polls

/-- How a run may end at turn `n`: on a replication that is finished, with the timeout, or with
an answer that cannot be read. -/
def Sound (args : Args) (n : Nat) : Except Exn Nat → Prop
  | .ok polls => Finished answers args polls
  | .error x => x = timeoutError ∨ (answers n).receive = .error x

end Answers

/-! ## One direction -/

section
variable {args : Args} {answers : Nat → Response} {d : Direction} {k : Nat}

theorem not_running_of_starts {r : Response} (h : Starts r) : ¬ Running r := by
  intro hrun
  rcases h with h | h
  · exact absurd (Except.ok.inj (h.symm.trans hrun)) (by decide)
  · exact absurd (Except.ok.inj (h.symm.trans hrun)) (by decide)

theorem known_ok {r : Response} (h : Starts r ∨ Running r) : ¬ Stops r ∧ ∀ x, r.receive ≠ .error x := by
  refine ⟨?_, fun x hx => ?_⟩
  · rintro ⟨status, hstatus, h1, h2, h3⟩
    rcases h with (h | h) | h
    · exact h1 (Except.ok.inj (hstatus.symm.trans h))
    · exact h2 (Except.ok.inj (hstatus.symm.trans h))
    · exact h3 (Except.ok.inj (hstatus.symm.trans h))
  · rcases h with (h | h) | h
    all_goals cases hx.symm.trans h

theorem starts_succ (k : Nat) :
    starts answers (k + 1) = starts answers k + if Starts (answers k) then 1 else 0 := by
  simp [starts, List.range_succ, List.countP_append]

theorem Stalled.mono {j : Nat} (h : Stalled answers d j) (hjk : j ≤ k) : Stalled answers d k := by
  obtain ⟨i, hi, hidle⟩ := h
  exact ⟨i, by omega, hidle⟩

theorem Flagged.stalled (h : Flagged answers d k) : Stalled answers d k := by
  obtain ⟨j, hj, -, hstalled⟩ := h
  exact hstalled.mono (by omega)

theorem stalled_succ : Stalled answers d (k + 1) ↔
    Stalled answers d k ∨ retryMaxCount ≤ idle answers d (k + 1) := by
  constructor
  · rintro ⟨j, hj, hidle⟩
    rcases Nat.le_succ_iff.mp hj with hj | rfl
    · exact .inl ⟨j, hj, hidle⟩
    · exact .inr hidle
  · rintro (h | hidle)
    · exact h.mono (by omega)
    · exact ⟨k + 1, Nat.le_refl _, hidle⟩

theorem flagged_succ : Flagged answers d (k + 1) ↔
    Flagged answers d k ∨ Running (answers k) ∧ Stalled answers d k := by
  constructor
  · rintro ⟨j, hj, h⟩
    rcases Nat.lt_succ_iff_lt_or_eq.mp hj with hj | rfl
    · exact .inl ⟨j, hj, h⟩
    · exact .inr h
  · rintro (⟨j, hj, h⟩ | h)
    · exact ⟨j, by omega, h⟩
    · exact ⟨k, by omega, h⟩

theorem idle_succ_other (hrun : ¬ Running (answers k)) : idle answers d (k + 1) = idle answers d k := by
  rw [idle, if_neg hrun]

theorem stalled_succ_other (hrun : ¬ Running (answers k)) :
    Stalled answers d (k + 1) ↔ Stalled answers d k := by
  rw [stalled_succ, idle_succ_other hrun]
  exact or_iff_left_of_imp fun hle => ⟨k, Nat.le_refl k, hle⟩

/-- The variables of a direction that is asked for, when poll `k` is made. -/
structure Tracks (answers : Nat → Response) (d : Direction) (k : Nat) (t : Track) : Prop where
  live : ¬ Stalled answers d k → t.retryCount = idle answers d k ∧ t.prevCount = best answers d k
  stalled : Stalled answers d k → retryMaxCount ≤ t.retryCount
  timeout : t.timeout = true ↔ Flagged answers d k

theorem Tracks.other {t : Track} (h : Tracks answers d k t) (hrun : ¬ Running (answers k)) :
    Tracks answers d (k + 1) t := by
  have hidle := idle_succ_other hrun (d := d)
  have hstalled := stalled_succ_other hrun (d := d)
  refine ⟨fun hlive => ?_, fun hs => h.stalled (hstalled.mp hs), ?_⟩
  · rw [hidle, best, if_neg hrun]
    exact h.live fun hs => hlive (hstalled.mpr hs)
  · rw [h.timeout, flagged_succ]
    exact (or_iff_left fun hand => hrun hand.1).symm

/-- What a poll of a running replication makes of the variables. -/
theorem Tracks.running {t : Track} (h : Tracks answers d k t) (hrun : Running (answers k)) :
    Tracks answers d (k + 1) (t.poll ((answers k).docs d)) := by
  by_cases hs : Stalled answers d k
  · -- the answer is not looked at any more
    have hcount := h.stalled hs
    unfold Track.poll
    rw [if_neg (Nat.not_lt.mpr hcount)]
    refine ⟨fun hlive => absurd (hs.mono (by omega)) hlive, fun _ => hcount, ?_⟩
    exact iff_of_true rfl (flagged_succ.mpr (.inr ⟨hrun, hs⟩))
  · obtain ⟨hcount, hprev⟩ := h.live hs
    have hlt : idle answers d k < retryMaxCount := by
      by_contra hge
      exact hs ⟨k, Nat.le_refl k, Nat.not_lt.mp hge⟩
    have hflag : Flagged answers d (k + 1) ↔ t.timeout = true := by
      rw [flagged_succ, h.timeout]
      exact or_iff_left fun hand => hs hand.2
    unfold Track.poll
    rw [hcount, hprev, if_pos hlt]
    have hidle : idle answers d (k + 1) = if Progress answers d k then 0 else idle answers d k + 1 := by
      rw [idle, if_pos hrun]
    have hbest : best answers d (k + 1) =
        match (answers k).docs d with
        | some n => max (best answers d k) n
        | none => best answers d k := by
      rw [best, if_pos hrun]
    have hstalled : Stalled answers d (k + 1) → retryMaxCount ≤ idle answers d (k + 1) :=
      fun hs' => (stalled_succ.mp hs').resolve_left hs
    unfold Progress at hidle
    cases hdocs : (answers k).docs d with
    | none =>
      simp only [hdocs, Option.mem_def, reduceCtorEq, false_and, exists_false, if_false] at hidle hbest
      exact ⟨fun _ => ⟨hidle.symm, hbest.symm⟩, fun hs' => hidle ▸ hstalled hs', hflag.symm⟩
    | some n =>
      simp only [hdocs, Option.mem_def, Option.some.injEq, exists_eq_left'] at hidle hbest
      by_cases hn : best answers d k < n
      · simp only [if_pos hn] at hidle ⊢
        rw [Int.max_eq_right (Int.le_of_lt hn)] at hbest
        exact ⟨fun _ => ⟨hidle.symm, hbest.symm⟩, fun hs' => hidle ▸ hstalled hs', hflag.symm⟩
      · simp only [if_neg hn] at hidle ⊢
        rw [Int.max_eq_left (Int.not_lt.mp hn)] at hbest
        exact ⟨fun _ => ⟨hidle.symm, hbest.symm⟩, fun hs' => hidle ▸ hstalled hs', hflag.symm⟩

/-! ## The state of a run -/

/-- The state with which poll `k` is made. -/
structure At (args : Args) (answers : Nat → Response) (k : Nat) (s : State) : Prop where
  count : s.count = k + starts answers k
  tracks : ∀ d, args.requested d = true → Tracks answers d k (s.track d)
  unasked : ∀ d, args.requested d = false → (s.track d).timeout = true

theorem at_start (args : Args) (answers : Nat → Response) : At args answers 0 (start args) := by
  have hidle : ∀ d, ¬ Stalled answers d 0 := by
    rintro d ⟨j, hj, hle⟩
    obtain rfl := Nat.le_zero.mp hj
    exact absurd (show 120 ≤ 0 from hle) (by decide)
  have hflag : ∀ d, ¬ Flagged answers d 0 := fun d ⟨j, hj, _⟩ => Nat.not_lt_zero j hj
  refine ⟨rfl, fun d hd => ⟨fun _ => ?_, fun hs => absurd hs (hidle d), ?_⟩, fun d hd => ?_⟩
  · cases d <;> exact ⟨rfl, rfl⟩
  · refine iff_of_false ?_ (hflag d)
    cases d <;> simpa [start, State.track, Args.requested] using hd
  · cases d <;> simpa [start, State.track, Args.requested] using hd

theorem At.starts {s : State} (h : At args answers k s) (hstarts : Starts (answers k)) :
    At args answers (k + 1) { s with count := s.count + 1 + 1 } := by
  refine ⟨?_, fun d hd => ?_, fun d hd => ?_⟩
  · have := h.count
    rw [starts_succ, if_pos hstarts]
    push_cast
    omega
  · have htracks := (h.tracks d hd).other (not_running_of_starts hstarts)
    cases d <;> exact htracks
  · have hunasked := h.unasked d hd
    cases d <;> exact hunasked

theorem running_track (args : Args) (s : State) (r : Response) (d : Direction) :
    (s.running args r).track d = if args.requested d = true then (s.track d).poll (r.docs d) else s.track d := by
  cases d <;> rfl

theorem At.running {s : State} (h : At args answers k s) (hrun : Running (answers k)) :
    At args answers (k + 1) { s.running args (answers k) with count := s.count + 1 } := by
  have htrack : ∀ d, State.track { s.running args (answers k) with count := s.count + 1 } d =
      (s.running args (answers k)).track d := by
    intro d
    cases d <;> rfl
  refine ⟨?_, fun d hd => ?_, fun d hd => ?_⟩
  · have := h.count
    rw [starts_succ, if_neg fun hstarts => not_running_of_starts hstarts hrun]
    push_cast
    omega
  · rw [htrack, running_track, if_pos hd]
    exact (h.tracks d hd).running hrun
  · rw [htrack, running_track, if_neg (by simp [hd])]
    exact h.unasked d hd

/-- The loop is left when no direction that is asked for is pending. -/
theorem At.timeouts {s : State} (h : At args answers k s) :
    (s.read.timeout && s.write.timeout) = true ↔ ¬ Pending answers args k := by
  have heach : ∀ d, (s.track d).timeout = true ↔ (args.requested d = true → Flagged answers d k) := by
    intro d
    cases hd : args.requested d with
    | true => simpa using (h.tracks d hd).timeout
    | false => simpa using h.unasked d hd
  rw [Bool.and_eq_true]
  constructor
  · rintro ⟨hread, hwrite⟩ ⟨d, hd, hno⟩
    cases d with
    | read => exact hno ((heach .read).mp hread hd)
    | write => exact hno ((heach .write).mp hwrite hd)
  · intro hno
    have hall : ∀ d, args.requested d = true → Flagged answers d k := by
      intro d hd
      by_contra hflag
      exact hno ⟨d, hd, hflag⟩
    exact ⟨(heach .read).mpr (hall .read), (heach .write).mpr (hall .write)⟩

theorem endTurn_of_at {s : State} (h : At args answers (k + 1) { s with count := s.count + 1 }) :
    Pending answers args (k + 1) ∧ endTurn k s = .go { s with count := s.count + 1 } ∨
      ¬ Pending answers args (k + 1) ∧ endTurn k s = .done (s.count + 1, k + 1) := by
  have hends := h.timeouts
  simp only at hends
  unfold endTurn
  by_cases hpending : Pending answers args (k + 1)
  · refine .inl ⟨hpending, ?_⟩
    rw [if_neg fun htimeouts => hends.mp htimeouts hpending]
  · refine .inr ⟨hpending, ?_⟩
    rw [if_pos (hends.mpr hpending)]

/-- What a turn does, from the answer. -/
theorem turn_cases {s : State} (h : At args answers k s) :
    (args.maxTimes ≤ s.count ∧ turn args answers k s = .ok (.done (s.count, k))) ∨
      s.count < args.maxTimes ∧
        ((∃ x, (answers k).receive = .error x ∧ turn args answers k s = .error x) ∨
          (Stops (answers k) ∧ turn args answers k s = .ok (.done (s.count, k + 1))) ∨
          ((Starts (answers k) ∨ Running (answers k)) ∧ ∃ s', At args answers (k + 1) s' ∧
            (Pending answers args (k + 1) ∧ turn args answers k s = .ok (.go s') ∨
              ¬ Pending answers args (k + 1) ∧ turn args answers k s = .ok (.done (s'.count, k + 1))))) := by
  unfold turn
  by_cases hlt : s.count < args.maxTimes
  · refine .inr ⟨hlt, ?_⟩
    rw [if_pos hlt]
    cases hreceive : (answers k).receive with
    | error x => exact .inl ⟨x, rfl, rfl⟩
    | ok status =>
      refine .inr ?_
      by_cases hstarts : status = "starting" ∨ status = "started"
      · have hst : Starts (answers k) :=
          hstarts.imp (fun heq => hreceive.trans (congrArg _ heq)) (fun heq => hreceive.trans (congrArg _ heq))
        have hat := h.starts hst
        refine .inr ⟨.inl hst, _, hat, ?_⟩
        simp only [bind, Except.bind, pure, Except.pure, if_pos hstarts]
        exact (endTurn_of_at hat).imp (And.imp_right (congrArg _)) (And.imp_right (congrArg _))
      · by_cases hrun : status = "running"
        · have hrunning : Running (answers k) := hreceive.trans (congrArg _ hrun)
          have hat := h.running hrunning
          refine .inr ⟨.inr hrunning, _, hat, ?_⟩
          simp only [bind, Except.bind, pure, Except.pure, if_neg hstarts, if_pos hrun]
          exact (endTurn_of_at hat).imp (And.imp_right (congrArg _)) (And.imp_right (congrArg _))
        · rw [not_or] at hstarts
          refine .inl ⟨⟨status, hreceive, hstarts.1, hstarts.2, hrun⟩, ?_⟩
          simp [bind, Except.bind, pure, Except.pure, hstarts, hrun]
  · exact .inl ⟨Int.not_lt.mp hlt, if_neg hlt⟩

theorem reaches_at {s : State} (h : Turns.Reaches (turn args answers) (start args) k s) :
    At args answers k s ∧ ∀ j < k, GoesOn answers args j := by
  refine Turns.reaches_inv (I := fun k s => At args answers k s ∧ ∀ j < k, GoesOn answers args j)
    ⟨at_start args answers, fun j hj => absurd hj (Nat.not_lt_zero j)⟩ ?_ h
  rintro k s s' ⟨hat, hbefore⟩ hgo
  rcases turn_cases hat with ⟨-, hturn⟩ | ⟨hlt, ⟨x, -, hturn⟩ | ⟨-, hturn⟩ | ⟨hknown, t, ht, hend⟩⟩
  · cases hgo.symm.trans hturn
  · cases hgo.symm.trans hturn
  · cases hgo.symm.trans hturn
  · rcases hend with ⟨hpending, hturn⟩ | ⟨-, hturn⟩
    · obtain rfl := Turns.Turn.go.inj (Except.ok.inj (hgo.symm.trans hturn))
      refine ⟨ht, fun j hj => ?_⟩
      rcases Nat.lt_succ_iff_lt_or_eq.mp hj with hj | rfl
      · exact hbefore j hj
      · exact ⟨hat.count ▸ hlt, hknown, hpending⟩
    · cases hgo.symm.trans hturn

/-- Polls that go on are made. -/
theorem exists_reaches {n : Nat} (h : ∀ k < n, GoesOn answers args k) :
    ∃ s, Turns.Reaches (turn args answers) (start args) n s ∧ At args answers n s := by
  induction n with
  | zero => exact ⟨start args, .start, at_start args answers⟩
  | succ n ih =>
    obtain ⟨s, hreach, hat⟩ := ih fun k hk => h k (by omega)
    obtain ⟨hmore, hknown, hpending⟩ := h n (by omega)
    rcases turn_cases hat with ⟨hle, -⟩ | ⟨-, ⟨x, hx, -⟩ | ⟨hstops, -⟩ | ⟨-, t, ht, ⟨-, hturn⟩ | ⟨hno, -⟩⟩⟩
    · have := hat.count
      omega
    · exact absurd hx ((known_ok hknown).2 x)
    · exact absurd hstops (known_ok hknown).1
    · exact ⟨t, hreach.next hturn, ht⟩
    · exact absurd hpending hno

/-! ## What a normal return means -/

theorem endTurn_go {s s' : State} (h : endTurn k s = .go s') : s'.count = s.count + 1 := by
  simp only [endTurn] at h
  split at h
  · cases h
  · rw [← Turns.Turn.go.inj h]

/-- A turn that goes on counts. -/
theorem count_lt_of_go {s s' : State} (h : turn args answers k s = .ok (.go s')) :
    s.count < args.maxTimes ∧ s.count < s'.count := by
  unfold turn at h
  split at h
  · rename_i hlt
    refine ⟨hlt, ?_⟩
    obtain ⟨status, -, h⟩ := Loop.bind_eq_ok.mp h
    split at h
    · have := endTurn_go (Except.ok.inj h)
      simp only at this
      omega
    · split at h
      · have := endTurn_go (Except.ok.inj h)
        simp only [State.running] at this
        omega
      · cases h
  · cases h

/-- Whatever the answers, the loop comes to an end. -/
theorem wait_ends (args : Args) (answers : Nat → Response) :
    ∃ fuel n r, waitUntilSgwReplicationDone args answers fuel = some (n, r) := by
  have hstep : ∀ k s s', True → turn args answers k s = .ok (.go s') →
      True ∧ (args.maxTimes - s'.count).toNat < (args.maxTimes - s.count).toNat := by
    intro k s s' _ hgo
    obtain ⟨hlt, hcount⟩ := count_lt_of_go hgo
    exact ⟨trivial, by omega⟩
  obtain ⟨n, o, hrun⟩ := Turns.exists_run (k := 0) (s := start args) hstep trivial (Nat.lt_succ_self _)
  refine ⟨(args.maxTimes - (start args).count).toNat + 1, n, o >>= finish args, ?_⟩
  rw [waitUntilSgwReplicationDone, hrun]
  rfl

theorem wait_eq_some_iff {fuel n : Nat} {r : Except Exn Nat} :
    waitUntilSgwReplicationDone args answers fuel = some (n, r) ↔
      ∃ o, Turns.run (turn args answers) fuel 0 (start args) = some (n, o) ∧ o >>= finish args = r := by
  rw [waitUntilSgwReplicationDone, Option.map_eq_some_iff]
  constructor
  · rintro ⟨⟨n', o⟩, hrun, heq⟩
    obtain ⟨rfl, rfl⟩ := Prod.mk.inj heq
    exact ⟨o, hrun, rfl⟩
  · rintro ⟨o, hrun, rfl⟩
    exact ⟨(n, o), hrun, rfl⟩

/-- A poll that counts twice does not use up more than the last of the `max_times`, unless
there has been no progress. -/
def NoneSkipped (args : Args) (answers : Nat → Response) : Prop :=
  ∀ m, (∀ k < m, GoesOn answers args k) → (m + starts answers m + 1 : Int) = args.maxTimes →
    Starts (answers m) → ∀ d, args.requested d = true → Stalled answers d m

/-- What is behind the loop. -/
theorem sound_finish {n polls : Nat} {count : Int}
    (h : count ≠ args.maxTimes → Finished answers args polls) :
    Sound answers args n (finish args (count, polls)) := by
  unfold finish
  split
  · exact .inl rfl
  · rename_i hne
    exact h hne

/-- After a poll that counts twice and is the last one, the loop is left and nothing raised. -/
theorem finished_of_skip {m fuel n : Nat} {r : Except Exn Nat} (hbefore : ∀ k < m, GoesOn answers args k)
    (hlast : (m + starts answers m + 1 : Int) = args.maxTimes) (hstarts : Starts (answers m))
    (hrun : waitUntilSgwReplicationDone args answers fuel = some (n, r)) (hsound : Sound answers args n r) :
    ∀ d, args.requested d = true → Stalled answers d m := by
  intro d hd
  have hnot := not_running_of_starts hstarts
  have hknown := known_ok (.inl hstarts)
  obtain ⟨s, hreach, hat⟩ := exists_reaches hbefore
  have hcount := hat.count
  rcases turn_cases hat with ⟨hle, -⟩ | ⟨-, ⟨x, hx, -⟩ | ⟨hstops, -⟩ | ⟨-, t, ht, ⟨-, hturn⟩ | ⟨hno, -⟩⟩⟩
  · omega
  · exact absurd hx (hknown.2 x)
  · exact absurd hstops hknown.1
  · -- the count is past `max_times`
    have htcount := ht.count
    rw [starts_succ, if_pos hstarts] at htcount
    push_cast at htcount
    have hend : Turns.ends (turn args answers (m + 1) t) = some (.ok (t.count, m + 1)) := by
      unfold turn
      rw [if_neg (by omega)]
      rfl
    have hrun' := Turns.run_eq_some_iff.mpr ⟨Nat.lt_succ_self (m + 1), t, hreach.next hturn, hend⟩
    obtain ⟨o, ho, rfl⟩ := wait_eq_some_iff.mp hrun
    obtain ⟨rfl, rfl⟩ := Prod.mk.inj (Turns.run_unique ho hrun')
    have hfinish : finish args (t.count, m + 1) = .ok (m + 1) := if_neg (show ¬ t.count = args.maxTimes by omega)
    have hfinished : Sound answers args (m + 1) (finish args (t.count, m + 1)) := hsound
    rw [hfinish] at hfinished
    rcases hfinished with ⟨j, hj, hstops⟩ | hall
    · obtain rfl : m = j := Nat.succ.inj hj
      exact absurd hstops hknown.1
    · exact (stalled_succ_other hnot).mp (hall d hd)
  · have hflag : Flagged answers d (m + 1) := by
      by_contra hflag
      exact hno ⟨d, hd, hflag⟩
    exact (stalled_succ_other hnot).mp hflag.stalled

theorem sound_of_reaches (hmax : 1 ≤ args.maxTimes) (hskip : NoneSkipped args answers) {n : Nat} {s : State}
    (hreach : Turns.Reaches (turn args answers) (start args) n s) {o : Except Exn (Int × Nat)}
    (hend : Turns.ends (turn args answers n s) = some o) : Sound answers args n (o >>= finish args) := by
  obtain ⟨hat, hbefore⟩ := reaches_at hreach
  have hcount := hat.count
  rcases turn_cases hat with ⟨hle, hturn⟩ | ⟨hlt, ⟨x, hx, hturn⟩ | ⟨hstops, hturn⟩ | ⟨-, t, ht, hturn⟩⟩
  · -- the loop has run out of turns
    obtain rfl : .ok (s.count, n) = o := Option.some.inj (by rw [← hend, hturn]; rfl)
    refine sound_finish fun hne => ?_
    cases n with
    | zero =>
      have hzero : starts answers 0 = 0 := rfl
      rw [hzero] at hcount
      push_cast at hcount
      omega
    | succ m =>
      have hmore := (hbefore m (Nat.lt_succ_self m)).more
      rw [starts_succ] at hcount
      split at hcount
      · rename_i hstarts
        push_cast at hcount
        refine .inr fun d hd => ?_
        exact (hskip m (fun k hk => hbefore k (by omega)) (by omega) hstarts d hd).mono (by omega)
      · push_cast at hcount
        omega
  · obtain rfl : .error x = o := Option.some.inj (by rw [← hend, hturn]; rfl)
    exact .inr hx
  · obtain rfl : .ok (s.count, n + 1) = o := Option.some.inj (by rw [← hend, hturn]; rfl)
    exact sound_finish fun _ => .inl ⟨n, rfl, hstops⟩
  · rcases hturn with ⟨-, hturn⟩ | ⟨hno, hturn⟩
    · rw [hturn] at hend
      cases hend
    · obtain rfl : .ok (t.count, n + 1) = o := Option.some.inj (by rw [← hend, hturn]; rfl)
      refine sound_finish fun _ => .inr fun d hd => ?_
      by_contra hs
      exact hno ⟨d, hd, fun hflag => hs hflag.stalled⟩

theorem exists_sound (hmax : 1 ≤ args.maxTimes) (hskip : NoneSkipped args answers) :
    ∃ fuel n r, waitUntilSgwReplicationDone args answers fuel = some (n, r) ∧ Sound answers args n r := by
  obtain ⟨fuel, n, r, hrun⟩ := wait_ends args answers
  obtain ⟨o, ho, hr⟩ := wait_eq_some_iff.mp hrun
  obtain ⟨-, s, hreach, hend⟩ := Turns.run_eq_some_iff.mp ho
  exact ⟨fuel, n, r, hrun, hr ▸ sound_of_reaches hmax hskip hreach hend⟩

/-- If no poll counts twice, a return means that the replication is finished. -/
theorem sound_of_no_starts (hmax : 1 ≤ args.maxTimes) (h : ∀ k, ¬ Starts (answers k)) :
    ∃ fuel n r, waitUntilSgwReplicationDone args answers fuel = some (n, r) ∧ Sound answers args n r :=
  exists_sound hmax fun m _ _ hstarts => absurd hstarts (h m)

end

/-- The loop ends, and it returns only on a replication that is finished, exactly if the last of
the `max_times` is not left for a poll that counts twice. -/
theorem wait_done_iff (args : Args) (answers : Nat → Response) (hmax : 1 ≤ args.maxTimes) :
    (∃ fuel n r, waitUntilSgwReplicationDone args answers fuel = some (n, r) ∧ Sound answers args n r) ↔
      NoneSkipped args answers := by
  constructor
  · rintro ⟨fuel, n, r, hrun, hsound⟩ m hbefore hlast hstarts
    exact finished_of_skip hbefore hlast hstarts hrun hsound
  · exact exists_sound hmax

/-- A replication that has read five documents and is always running. -/
def readsFive (_ : Nat) : Response := ⟨200, some "running", some 5, none⟩

theorem wait_done_readsFive : ∃ fuel n r,
    waitUntilSgwReplicationDone ⟨true, false, 180⟩ readsFive fuel = some (n, r) ∧
      Sound readsFive ⟨true, false, 180⟩ n r :=
  (wait_done_iff ⟨true, false, 180⟩ readsFive (by decide)).mpr fun m _ _ hstarts =>
    absurd hstarts (show ¬ Starts ⟨200, some "running", some 5, none⟩ by decide)

/-- A replication that has not got started. -/
def starting (_ : Nat) : Response := ⟨200, some "starting", none, none⟩

/-- One poll of one allowed, answered starting: the call returns as if it were done. -/
theorem returns_starting : waitUntilSgwReplicationDone ⟨true, false, 1⟩ starting 2 = some (1, .ok 1) ∧
    ¬ Finished starting ⟨true, false, 1⟩ 1 := by
  refine ⟨rfl, ?_⟩
  rintro (⟨j, -, status, hstatus, hne, -⟩ | hall)
  · exact hne (Except.ok.inj hstatus).symm
  · obtain ⟨j, hj, hle⟩ := hall .read rfl
    have hidle : ∀ j, idle starting .read j = 0 := by
      intro j
      induction j with
      | zero => rfl
      | succ j ih => rw [idle_succ_other (show ¬ Running ⟨200, some "starting", none, none⟩ by decide), ih]
    rw [hidle] at hle
    exact absurd hle (by decide)

end MobileTestkit.L4.SgwReplicationWait
