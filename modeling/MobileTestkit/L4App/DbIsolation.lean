import Mathlib.Data.List.TakeWhile
import MobileTestkit.L4App.DbConfig

/-!
# What one database receives

The requests `send_dbconfig_as_restCall` makes for one database, and when they
are its own.

* `pushDb_segment`: whatever the gateway answers, the requests for a database
  are the create or update, the second update when there is an oidc body, the
  info, and roles and users from the variables of the loop.
* `isolated_iff`: every database gets only its own roles, users and oidc body,
  whatever the gateway answers, exactly when no section of an earlier database
  is left over for it (`Undisturbed`).

The sections left over come from `lastOf`; `sentRoles` and `sentUsers` say how
far the two loops get before a missing key raises.
-/
namespace MobileTestkit.L4.DbConfig

open MobileTestkit.Core

variable {V : Type}

/-! ## Sections of a configuration -/

/-- The last `f` of a list of databases that has one. -/
def lastOf {α : Type} (f : DbCfg V → Option α) : List (String × DbCfg V) → Option α
  | [] => none
  | e :: rest => (lastOf f rest).or (f e.2)

theorem lastOf_eq_none {α : Type} {f : DbCfg V → Option α} (dbs : List (String × DbCfg V)) :
    lastOf f dbs = none ↔ ∀ e ∈ dbs, f e.2 = none := by
  induction dbs with
  | nil => simp [lastOf]
  | cons e rest ih => simp [lastOf, ih, and_comm]

def RoleCfg.sendable (cfg : RoleCfg V) : Bool := cfg.adminChannels.isSome

/-- With roles all three keys are read; without, a missing password is caught. -/
def UserCfg.sendable (rolesExist : Bool) (cfg : UserCfg V) : Bool :=
  cfg.adminChannels.isSome && (!rolesExist || (cfg.password.isSome && cfg.adminRoles.isSome))

/-- The roles the loop gets to. -/
def sentRoles (roles : Option (PyDict String (RoleCfg V))) : List (String × RoleCfg V) :=
  (itemsOf roles).takeWhile fun e => e.2.sendable

/-- The users the loop gets to, after the loop over the roles. -/
def sentUsers (roles : Option (PyDict String (RoleCfg V)))
    (users : Option (PyDict String (UserCfg V))) : List (String × UserCfg V) :=
  if (itemsOf roles).all fun e => e.2.sendable then
    (itemsOf users).takeWhile fun e => e.2.sendable roles.isSome
  else []

/-- The body of the second `put_db_config`. -/
def ownSettings (cfg : DbCfg V) : DbCfg V := { deleteConnection cfg with roles := none, users := none }

/-- The oidc body, if the database declares oidc. -/
def oidcBody (cfg : DbCfg V) : Option (DbCfg V) := cfg.oidc.map fun _ => ownSettings cfg

theorem prepare_locals (cfg : DbCfg V) (l : Locals V) :
    (prepare cfg l).2 = ⟨cfg.roles.or l.rolesCfg, cfg.users.or l.usersCfg,
      (oidcBody cfg).or l.origConfig⟩ := by
  unfold prepare oidcBody
  cases h : cfg.oidc with
  | none => simp [deleteConnection, h]
  | some v => simp [deleteConnection, h, ownSettings]

/-- The variables after a list of databases. -/
def localsAfter (l : Locals V) (dbs : List (String × DbCfg V)) : Locals V :=
  dbs.foldl (fun l e => (prepare e.2 l).2) l

theorem localsAfter_eq (dbs : List (String × DbCfg V)) (l : Locals V) :
    localsAfter l dbs = ⟨(lastOf DbCfg.roles dbs).or l.rolesCfg, (lastOf DbCfg.users dbs).or l.usersCfg,
      (lastOf oidcBody dbs).or l.origConfig⟩ := by
  induction dbs generalizing l with
  | nil => rfl
  | cons e rest ih =>
    rw [localsAfter, List.foldl_cons]
    have h := ih (prepare e.2 l).2
    rw [localsAfter] at h
    rw [h, prepare_locals]
    simp [lastOf, Option.or_assoc]

/-- The variables when the requests for `cfg` are made. -/
def localsAt (l : Locals V) (pre : List (String × DbCfg V)) (cfg : DbCfg V) : Locals V :=
  (prepare cfg (localsAfter l pre)).2

theorem localsAt_start (pre : List (String × DbCfg V)) (cfg : DbCfg V) :
    localsAt Locals.start pre cfg = ⟨cfg.roles.or (lastOf DbCfg.roles pre),
      cfg.users.or (lastOf DbCfg.users pre), (oidcBody cfg).or (lastOf oidcBody pre)⟩ := by
  rw [localsAt, prepare_locals, localsAfter_eq]
  simp [Locals.start]

/-! ## The calls -/

/-- A role or a user of the variables, with its own data. -/
inductive Principal (db : String) (l : Locals V) : Call V → Prop where
  | role {name : String} {cfg : RoleCfg V} {channels : V} (hmem : (name, cfg) ∈ sentRoles l.rolesCfg)
      (hch : cfg.adminChannels = some channels) : Principal db l (.createRole db name channels)
  | user {name : String} {cfg : UserCfg V} {password : Option V} {channels : V} {roles : Option V}
      (hmem : (name, cfg) ∈ sentUsers l.rolesCfg l.usersCfg)
      (hch : cfg.adminChannels = some channels) (hpw : password = cfg.password ∨ password = none)
      (hro : roles = if l.rolesCfg.isSome then cfg.adminRoles else none)
      (hsome : roles.isSome = l.rolesCfg.isSome) :
      Principal db l (.registerUser db name password channels roles)

theorem calls_ask {P : Event (sig V) → Prop} (q : Call V) (h : ∀ a, P ⟨q, a⟩) : (ask q).Calls P := by
  intro a
  refine ⟨h a, ?_⟩
  cases a <;> trivial

theorem calls_need {α : Type} {P : Event (sig V) → Prop} (key : String) (v : Option α) :
    (need (V := V) key v).Calls P := by
  cases v <;> trivial

theorem canReturn_need {α : Type} {key : String} {v : Option α} {b : α}
    (h : (need (V := V) key v).CanReturn b) : v = some b := by
  cases v with
  | none => exact False.elim h
  | some a => exact congrArg some h

theorem createRoles_calls (db : String) (items : List (String × RoleCfg V)) :
    (createRoles db items).Calls fun e => ∃ name cfg channels, e.q = Call.createRole db name channels ∧
      (name, cfg) ∈ (items.takeWhile fun e => e.2.sendable) ∧ cfg.adminChannels = some channels := by
  induction items with
  | nil => trivial
  | cons item rest ih =>
    obtain ⟨role, cfg⟩ := item
    refine Proc.calls_bind (calls_need _ _) fun channels hch => ?_
    have hch := canReturn_need hch
    have htake : ((role, cfg) :: rest).takeWhile (fun e => e.2.sendable) =
        (role, cfg) :: rest.takeWhile fun e => e.2.sendable := by
      simp [RoleCfg.sendable, hch]
    refine Proc.calls_bind (calls_ask _ fun _ => ⟨role, cfg, channels, rfl, ?_, hch⟩) fun _ _ =>
      ih.mono ?_
    · rw [htake]
      exact List.mem_cons_self
    · rintro e ⟨name, cfg', ch, hq, hmem, hch'⟩
      exact ⟨name, cfg', ch, hq, htake ▸ List.mem_cons_of_mem _ hmem, hch'⟩

/-- The loop over the roles ends only when no key is missing. -/
theorem createRoles_canReturn {db : String} {items : List (String × RoleCfg V)}
    (h : (createRoles db items).CanReturn ()) : items.all fun e => e.2.sendable := by
  induction items with
  | nil => rfl
  | cons item rest ih =>
    obtain ⟨role, cfg⟩ := item
    obtain ⟨channels, hch, h⟩ := Proc.canReturn_bind.mp h
    obtain ⟨_, -, h⟩ := Proc.canReturn_bind.mp h
    have hch := canReturn_need hch
    simp only [List.all_cons, Bool.and_eq_true]
    exact ⟨by simp [RoleCfg.sendable, hch], ih h⟩

/-- The requests for one user. -/
def UserCall (db : String) (rolesExist : Bool) (name : String) (cfg : UserCfg V) (q : Call V) : Prop :=
  ∃ password channels roles, q = .registerUser db name password channels roles ∧
    cfg.sendable rolesExist ∧ cfg.adminChannels = some channels ∧
    (password = cfg.password ∨ password = none) ∧
    roles = (if rolesExist then cfg.adminRoles else none) ∧ roles.isSome = rolesExist

theorem registerWithRoles_calls (db name : String) (cfg : UserCfg V) :
    (registerWithRoles db name cfg).Calls fun e => UserCall db true name cfg e.q := by
  refine Proc.calls_bind (calls_need _ _) fun password hpw => ?_
  refine Proc.calls_bind (calls_need _ _) fun channels hch => ?_
  refine Proc.calls_bind (calls_need _ _) fun roles hro => calls_ask _ fun _ => ?_
  have hpw := canReturn_need hpw
  have hch := canReturn_need hch
  have hro := canReturn_need hro
  exact ⟨some password, channels, some roles, rfl, by simp [UserCfg.sendable, hpw, hch, hro], hch,
    .inl hpw.symm, hro.symm, rfl⟩

theorem registerPlain_calls (db name : String) (cfg : UserCfg V) :
    (registerPlain db name cfg).Calls fun e => UserCall db false name cfg e.q := by
  refine Proc.calls_tryCatch ?_ fun x => ?_
  · refine Proc.calls_bind (calls_need _ _) fun password hpw => ?_
    refine Proc.calls_bind (calls_need _ _) fun channels hch => calls_ask _ fun _ => ?_
    have hpw := canReturn_need hpw
    have hch := canReturn_need hch
    exact ⟨some password, channels, none, rfl, by simp [UserCfg.sendable, hch], hch, .inl hpw.symm,
      rfl, rfl⟩
  · cases x with
    | httpError => trivial
    | other => trivial
    | keyError key =>
      refine Proc.calls_bind (calls_need _ _) fun channels hch => calls_ask _ fun _ => ?_
      have hch := canReturn_need hch
      exact ⟨none, channels, none, rfl, by simp [UserCfg.sendable, hch], hch, .inr rfl, rfl, rfl⟩

theorem registerUser_canReturn {db name : String} {rolesExist : Bool} {cfg : UserCfg V}
    (h : (if rolesExist then registerWithRoles db name cfg
      else registerPlain db name cfg).CanReturn ()) : cfg.sendable rolesExist = true := by
  cases rolesExist with
  | true =>
    obtain ⟨password, hpw, h⟩ := Proc.canReturn_bind.mp h
    obtain ⟨channels, hch, h⟩ := Proc.canReturn_bind.mp h
    obtain ⟨roles, hro, h⟩ := Proc.canReturn_bind.mp h
    simp [UserCfg.sendable, canReturn_need hpw, canReturn_need hch, canReturn_need hro]
  | false =>
    -- without the channels both the body and the handler raise
    cases hch : cfg.adminChannels with
    | some ch => simp [UserCfg.sendable, hch]
    | none =>
      unfold registerPlain at h
      rw [hch] at h
      cases hpw : cfg.password with
      | none =>
        rw [hpw] at h
        exact False.elim h
      | some password =>
        rw [hpw] at h
        exact False.elim h

theorem registerUsers_calls (db : String) (rolesExist : Bool) (items : List (String × UserCfg V)) :
    (registerUsers db rolesExist items).Calls fun e => ∃ name cfg,
      (name, cfg) ∈ (items.takeWhile fun e => e.2.sendable rolesExist) ∧
        UserCall db rolesExist name cfg e.q := by
  induction items with
  | nil => trivial
  | cons item rest ih =>
    obtain ⟨user, cfg⟩ := item
    have htake : cfg.sendable rolesExist = true →
        ((user, cfg) :: rest).takeWhile (fun e => e.2.sendable rolesExist) =
          (user, cfg) :: rest.takeWhile fun e => e.2.sendable rolesExist := by
      intro h
      simp [h]
    have hfirst : (if rolesExist then registerWithRoles db user cfg
        else registerPlain db user cfg).Calls fun e => UserCall db rolesExist user cfg e.q := by
      cases rolesExist with
      | true => exact registerWithRoles_calls db user cfg
      | false => exact registerPlain_calls db user cfg
    refine Proc.calls_bind (hfirst.mono fun e hcall => ?_) fun _ hret => ih.mono ?_
    · obtain ⟨pw, ch, ro, hq, hsend, -⟩ := id hcall
      exact ⟨user, cfg, htake hsend ▸ List.mem_cons_self, hcall⟩
    · rintro e ⟨name, cfg', hmem, hcall⟩
      exact ⟨name, cfg', htake (registerUser_canReturn hret) ▸ List.mem_cons_of_mem _ hmem, hcall⟩

theorem createPrincipals_calls (db : String) (l : Locals V) :
    (createPrincipals db l).Calls fun e => Principal db l e.q := by
  refine Proc.calls_bind ((createRoles_calls db _).mono ?_) fun _ hret =>
    (registerUsers_calls db _ _).mono ?_
  · rintro e ⟨name, cfg, channels, hq, hmem, hch⟩
    rw [hq]
    exact .role hmem hch
  · rintro e ⟨name, cfg, hmem, password, channels, roles, hq, -, hch, hpw, hro, hsome⟩
    rw [hq]
    have hsent : (name, cfg) ∈ sentUsers l.rolesCfg l.usersCfg := by
      rw [sentUsers, if_pos (createRoles_canReturn hret)]
      exact hmem
    exact .user hsent hch hpw hro hsome

/-! ## The requests for one database -/

def putBody : Call V → Option (DbCfg V)
  | .putDbConfig _ cfg => some cfg
  | _ => none

/-- `create_db` raised `HTTPError`; an update follows in its place. -/
def createFailed : Event (sig V) → Bool
  | ⟨.createDb _ _, .error .httpError⟩ => true
  | _ => false

/-- The bodies of the updates, without the one in place of `create_db`. -/
def secondPuts (evs : List (Event (sig V))) : List (DbCfg V) :=
  (evs.filterMap fun e => putBody e.q).drop (if evs.any createFailed then 1 else 0)

theorem log_ask (reply : Replies (sig V)) (h : List (Event (sig V))) (q : Call V) :
    (ask q).log reply h = (h ++ [⟨q, reply h q⟩], reply h q) := by
  rw [ask, Proc.log]
  cases reply h q <;> rfl

/-- The create, with its update when it fails: no second update yet. -/
theorem createOrPut_log (reply : Replies (sig V)) (h : List (Event (sig V))) (db : String)
    (cfg : DbCfg V) : ∃ new o, (createOrPut db cfg).log reply h = (h ++ new, o) ∧
      (∀ e ∈ new, (∃ b, e.q = Call.createDb db b) ∨ ∃ b, e.q = Call.putDbConfig db b) ∧
      (new.filterMap fun e => putBody e.q).length = if new.any createFailed then 1 else 0 := by
  unfold createOrPut
  rw [Proc.log_tryCatch, log_ask]
  generalize reply h (Call.createDb db cfg) = a
  have hone : ∀ e ∈ [(⟨Call.createDb db cfg, a⟩ : Event (sig V))],
      (∃ b, e.q = Call.createDb db b) ∨ ∃ b, e.q = Call.putDbConfig db b := by
    intro e he
    rw [List.mem_singleton.mp he]
    exact .inl ⟨cfg, rfl⟩
  cases a with
  | ok v => exact ⟨_, _, rfl, hone, by simp [putBody, createFailed]⟩
  | error x =>
    cases x with
    | httpError =>
      let failed : Event (sig V) := ⟨Call.createDb db cfg, .error .httpError⟩
      let answer := reply (h ++ [failed]) (Call.putDbConfig db cfg)
      refine ⟨[failed, ⟨Call.putDbConfig db cfg, answer⟩], answer, ?_, ?_, ?_⟩
      · show Proc.log reply (ask (.putDbConfig db cfg)) (h ++ [failed]) = _
        rw [log_ask, List.append_assoc]
        rfl
      · intro e he
        rcases List.mem_cons.mp he with rfl | he
        · exact .inl ⟨cfg, rfl⟩
        · rw [List.mem_singleton.mp he]
          exact .inr ⟨cfg, rfl⟩
      · simp [failed, putBody, createFailed]
    | keyError key => exact ⟨_, _, rfl, hone, by simp [putBody, createFailed]⟩
    | other => exact ⟨_, _, rfl, hone, by simp [putBody, createFailed]⟩

theorem secondPuts_append {a b : List (Event (sig V))} (hb : b.any createFailed = false)
    (ha : (if a.any createFailed then 1 else 0) ≤ (a.filterMap fun e => putBody e.q).length) :
    secondPuts (a ++ b) = secondPuts a ++ b.filterMap fun e => putBody e.q := by
  unfold secondPuts
  rw [List.any_append, hb, Bool.or_false, List.filterMap_append, List.drop_append_of_le_length ha]

theorem saveConfig_log (reply : Replies (sig V)) (h : List (Event (sig V))) (db : String)
    (cfg : DbCfg V) (orig : Option (DbCfg V)) :
    ∃ new o, (saveConfig db cfg orig).log reply h = (h ++ new, o) ∧
      (∀ e ∈ new, (∃ b, e.q = Call.createDb db b) ∨ ∃ b, e.q = Call.putDbConfig db b) ∧
      (if new.any createFailed then 1 else 0) ≤ (new.filterMap fun e => putBody e.q).length ∧
      secondPuts new <+: orig.toList ∧ (o = .ok () → secondPuts new = orig.toList) := by
  obtain ⟨new, o, hlog, hq, hlen⟩ := createOrPut_log reply h db cfg
  have hnone : secondPuts new = [] := by
    unfold secondPuts
    rw [← hlen, List.drop_length]
  cases o with
  | error x =>
    refine ⟨new, .error x, Proc.log_bind_error reply hlog _, hq, Nat.le_of_eq hlen.symm, ?_, ?_⟩
    · rw [hnone]
      exact List.nil_prefix
    · simp
  | ok u =>
    cases orig with
    | none =>
      refine ⟨new, .ok (), Proc.log_bind_ok reply hlog _, hq, Nat.le_of_eq hlen.symm, ?_, ?_⟩
      · rw [hnone]
        exact List.nil_prefix
      · exact fun _ => hnone
    | some b =>
      let e : Event (sig V) := ⟨Call.putDbConfig db b, reply (h ++ new) (Call.putDbConfig db b)⟩
      have happ : secondPuts (new ++ [e]) = [b] := by
        rw [secondPuts_append rfl (Nat.le_of_eq hlen.symm), hnone]
        rfl
      refine ⟨new ++ [e], e.a, ?_, ?_, ?_, ?_, fun _ => happ⟩
      · show Proc.log reply ((createOrPut db cfg).bind fun _ => ask (.putDbConfig db b)) h = _
        rw [Proc.log_bind_ok reply hlog, log_ask, List.append_assoc]
      · intro e' he'
        rcases List.mem_append.mp he' with he' | he'
        · exact hq e' he'
        · rw [List.mem_singleton.mp he']
          exact .inr ⟨b, rfl⟩
      · have hany : (new ++ [e]).any createFailed = new.any createFailed := by
          rw [List.any_append]
          exact Bool.or_false _
        rw [hany, List.filterMap_append, List.length_append, hlen]
        omega
      · rw [happ]
        exact List.prefix_rfl

/-- What the gateway is asked for a database, up to where the run ends. -/
structure Segment (db : String) (l : Locals V) (evs : List (Event (sig V))) : Prop where
  calls : ∀ e ∈ evs, (∃ b, e.q = Call.createDb db b) ∨ (∃ b, e.q = Call.putDbConfig db b) ∨
    e.q = Call.getDbInfo db ∨ Principal db l e.q
  puts : secondPuts evs <+: l.origConfig.toList
  info : (∃ e ∈ evs, e.q = Call.getDbInfo db) → secondPuts evs = l.origConfig.toList

theorem Segment.nil (db : String) (l : Locals V) : Segment db l [] :=
  ⟨by simp, List.nil_prefix, by simp⟩

theorem Segment.about {db : String} {l : Locals V} {evs : List (Event (sig V))}
    (hs : Segment db l evs) : ∀ e ∈ evs, Call.db? e.q = some db := by
  intro e he
  rcases hs.calls e he with ⟨b, hq⟩ | ⟨b, hq⟩ | hq | hq
  · rw [hq]
    rfl
  · rw [hq]
    rfl
  · rw [hq]
    rfl
  · cases hq' : e.q with
    | createRole d n c => rw [hq'] at hq; cases hq; rfl
    | registerUser d n p c r => rw [hq'] at hq; cases hq; rfl
    | getDbs => rw [hq'] at hq; cases hq
    | deleteDb d => rw [hq'] at hq; cases hq
    | createDb d c => rw [hq'] at hq; cases hq
    | putDbConfig d c => rw [hq'] at hq; cases hq
    | getDbInfo d => rw [hq'] at hq; cases hq

theorem Segment.role {db : String} {l : Locals V} {evs : List (Event (sig V))}
    (hs : Segment db l evs) {e : Event (sig V)} (he : e ∈ evs) {name : String} {channels : V}
    (hq : e.q = Call.createRole db name channels) :
    ∃ cfg, (name, cfg) ∈ sentRoles l.rolesCfg ∧ cfg.adminChannels = some channels := by
  have hc := hs.calls e he
  rw [hq] at hc
  rcases hc with ⟨b, hc⟩ | ⟨b, hc⟩ | hc | hc
  · cases hc
  · cases hc
  · cases hc
  · cases hc with
    | role hmem hch => exact ⟨_, hmem, hch⟩

theorem Segment.user {db : String} {l : Locals V} {evs : List (Event (sig V))}
    (hs : Segment db l evs) {e : Event (sig V)} (he : e ∈ evs) {name : String}
    {password : Option V} {channels : V} {roles : Option V}
    (hq : e.q = Call.registerUser db name password channels roles) :
    ∃ cfg, (name, cfg) ∈ sentUsers l.rolesCfg l.usersCfg ∧ cfg.adminChannels = some channels ∧
      (password = cfg.password ∨ password = none) ∧ roles.isSome = l.rolesCfg.isSome := by
  have hc := hs.calls e he
  rw [hq] at hc
  rcases hc with ⟨b, hc⟩ | ⟨b, hc⟩ | hc | hc
  · cases hc
  · cases hc
  · cases hc
  · cases hc with
    | user hmem hch hpw _ hsome => exact ⟨_, hmem, hch, hpw, hsome⟩

theorem pushDb_segment (reply : Replies (sig V)) (h : List (Event (sig V))) (db : String)
    (cfg : DbCfg V) (l : Locals V) :
    ∃ new, ((pushDb db cfg l).log reply h).1 = h ++ new ∧ Segment db l new := by
  obtain ⟨saved, o, hlog, hq, hle, hputs, hget⟩ := saveConfig_log reply h db cfg l.origConfig
  have hcalls : ∀ e ∈ saved, (∃ b, e.q = Call.createDb db b) ∨ (∃ b, e.q = Call.putDbConfig db b) ∨
      e.q = Call.getDbInfo db ∨ Principal db l e.q := by
    intro e he
    rcases hq e he with hc | hp
    · exact .inl hc
    · exact .inr (.inl hp)
  cases o with
  | error x =>
    refine ⟨saved, by rw [pushDb, Proc.log_bind_error reply hlog], hcalls, hputs, ?_⟩
    rintro ⟨e, he, hi⟩
    rcases hq e he with ⟨b, hb⟩ | ⟨b, hb⟩
    · rw [hb] at hi
      cases hi
    · rw [hb] at hi
      cases hi
  | ok u =>
    have hrest : (((ask (.getDbInfo db)).bind fun state => (need "state" state).bind fun state =>
        if state = "Online" then createPrincipals db l else .ret ()) : Prog V Unit).Calls
        fun e => e.q = Call.getDbInfo db ∨ Principal db l e.q := by
      refine Proc.calls_bind (calls_ask _ fun _ => .inl rfl) fun _ _ =>
        Proc.calls_bind (calls_need _ _) fun state _ => ?_
      split
      · exact (createPrincipals_calls db l).mono fun e he => .inr he
      · trivial
    obtain ⟨rest, hr, hrcalls⟩ := Proc.calls_log reply hrest (h ++ saved)
    have hnoput : ∀ e ∈ rest, putBody e.q = none ∧ createFailed e = false := by
      rintro ⟨q, a⟩ he
      rcases hrcalls _ he with hq | hp
      · cases hq
        exact ⟨rfl, rfl⟩
      · cases hp <;> exact ⟨rfl, rfl⟩
    have hsecond : secondPuts (saved ++ rest) = secondPuts saved := by
      rw [secondPuts_append (List.any_eq_false.mpr fun e he => by simp [(hnoput e he).2]) hle,
        List.filterMap_eq_nil_iff.mpr fun e he => (hnoput e he).1, List.append_nil]
    refine ⟨saved ++ rest, ?_, ?_, ?_, ?_⟩
    · rw [pushDb, Proc.log_bind_ok reply hlog, hr, List.append_assoc]
    · intro e he
      rcases List.mem_append.mp he with he | he
      · exact hcalls e he
      · exact .inr (.inr (hrcalls e he))
    · rw [hsecond]
      exact hputs
    · rw [hsecond]
      exact fun _ => hget rfl

/-! ## All databases -/

def eventsOf (db : String) (h : List (Event (sig V))) : List (Event (sig V)) :=
  h.filter fun e => Call.db? e.q = some db

theorem eventsOf_append (db : String) (a b : List (Event (sig V))) :
    eventsOf db (a ++ b) = eventsOf db a ++ eventsOf db b := List.filter_append ..

theorem eventsOf_self {db : String} {h : List (Event (sig V))}
    (ha : ∀ e ∈ h, Call.db? e.q = some db) : eventsOf db h = h := by
  refine List.filter_eq_self.mpr fun e he => ?_
  simpa using ha e he

theorem eventsOf_nil {db : String} {h : List (Event (sig V))}
    (ha : ∀ e ∈ h, Call.db? e.q ≠ some db) : eventsOf db h = [] := by
  refine List.filter_eq_nil_iff.mpr fun e he => ?_
  simpa using ha e he

/-- The loop over the databases, whatever it is answered: each database has the
segment of its variables. Induction on the databases with the variables and the
conversation so far. -/
theorem pushDbs_segments (reply : Replies (sig V)) (items : List (String × DbCfg V)) (l : Locals V)
    (h : List (Event (sig V))) (hd : (items.map Prod.fst).Nodup) :
    ∃ new, ((pushDbs l items).log reply h).1 = h ++ new ∧
      (∀ e ∈ new, ∃ db ∈ items.map Prod.fst, Call.db? e.q = some db) ∧
      ∀ pre d post, items = pre ++ d :: post → Segment d.1 (localsAt l pre d.2) (eventsOf d.1 new) := by
  induction items generalizing l h with
  | nil =>
    refine ⟨[], by simp [pushDbs, Proc.log], by simp, ?_⟩
    intro pre d post he
    cases pre <;> cases he
  | cons item rest ih =>
    obtain ⟨db, cfg⟩ := item
    rw [List.map_cons, List.nodup_cons] at hd
    obtain ⟨new, hnew, hseg⟩ := pushDb_segment reply h db (prepare cfg l).1 (prepare cfg l).2
    have habout := hseg.about
    -- the run ends in the first database, or goes on with the others
    obtain ⟨more, hmore, habouts, hsegs⟩ : ∃ more,
        ((pushDbs l ((db, cfg) :: rest)).log reply h).1 = h ++ (new ++ more) ∧
        (∀ e ∈ more, ∃ db ∈ rest.map Prod.fst, Call.db? e.q = some db) ∧
        ∀ pre d post, rest = pre ++ d :: post →
          Segment d.1 (localsAt (prepare cfg l).2 pre d.2) (eventsOf d.1 more) := by
      rw [pushDbs, Proc.log_bind]
      split
      · rename_i h' u hp
        rw [hp] at hnew
        obtain ⟨more, hm, ha, hs⟩ := ih (prepare cfg l).2 h' hd.2
        refine ⟨more, ?_, ha, hs⟩
        rw [Proc.log_bind]
        split
        · rename_i h'' rest' hr
          rw [hr] at hm
          rw [← List.append_assoc, ← show h' = h ++ new from hnew]
          exact hm
        · rename_i h'' x hr
          rw [hr] at hm
          rw [← List.append_assoc, ← show h' = h ++ new from hnew]
          exact hm
      · rename_i h' x hp
        rw [hp] at hnew
        refine ⟨[], by simpa using hnew, by simp, fun pre d post _ => ?_⟩
        exact Segment.nil _ _
    refine ⟨new ++ more, hmore, ?_, ?_⟩
    · intro e he
      rcases List.mem_append.mp he with he | he
      · exact ⟨db, by simp, habout e he⟩
      · obtain ⟨db', hdb', hq⟩ := habouts e he
        exact ⟨db', List.mem_cons_of_mem _ hdb', hq⟩
    · intro pre d post he
      cases pre with
      | nil =>
        obtain ⟨rfl, rfl⟩ := List.cons.inj he
        have hother : eventsOf db more = [] := by
          refine eventsOf_nil fun e he hq => ?_
          obtain ⟨db', hdb', hq'⟩ := habouts e he
          rw [hq] at hq'
          exact hd.1 (Option.some.inj hq' ▸ hdb')
        rw [eventsOf_append, hother, List.append_nil, eventsOf_self habout]
        exact hseg
      | cons e pre =>
        obtain ⟨rfl, rfl⟩ := List.cons.inj he
        have hne : d.1 ≠ db := fun hdb => hd.1 (by simp [← hdb])
        have hfirst : eventsOf d.1 new = [] := by
          refine eventsOf_nil fun e he hq => hne ?_
          rw [habout e he] at hq
          exact (Option.some.inj hq).symm
        rw [eventsOf_append, hfirst, List.nil_append]
        exact hsegs pre d post rfl

/-- A call about none of the databases. -/
def Outside (names : List String) (e : Event (sig V)) : Prop := ∀ db ∈ names, Call.db? e.q ≠ some db

theorem eventsOf_outside {names : List String} {db : String} (hdb : db ∈ names)
    {h : List (Event (sig V))} (ha : ∀ e ∈ h, Outside names e) : eventsOf db h = [] :=
  eventsOf_nil fun e he => ha e he db hdb

theorem outside_getDbs (names : List String) : (ask (V := V) .getDbs).Calls (Outside names) := by
  refine calls_ask _ fun a db _ h => ?_
  cases h

theorem deleteDbs_calls (names dbs : List String) :
    (deleteDbs (V := V) names dbs).Calls (Outside names) := by
  induction dbs with
  | nil => trivial
  | cons db rest ih =>
    refine Proc.calls_bind ?_ fun _ _ => ih
    split
    · trivial
    · rename_i h
      refine calls_ask _ fun _ db' hdb' hq => h ?_
      exact Option.some.inj hq ▸ hdb'

theorem deleteOtherDbs_calls (names : List String) :
    (deleteOtherDbs (V := V) names).Calls (Outside names) := by
  refine Proc.calls_bind (outside_getDbs names) fun dbList _ => ?_
  refine Proc.calls_bind (deleteDbs_calls names dbList) fun _ _ => ?_
  exact Proc.calls_bind (outside_getDbs names) fun _ _ => trivial

/-- The conversation with one gateway. -/
def history (reply : Replies (sig V)) (c : PyDict String (DbCfg V)) : List (Event (sig V)) :=
  ((pushGateway c.items).log reply []).1

theorem history_segments (reply : Replies (sig V)) (c : PyDict String (DbCfg V))
    (pre : List (String × DbCfg V)) (d : String × DbCfg V) (post : List (String × DbCfg V))
    (he : c.items = pre ++ d :: post) :
    Segment d.1 (localsAt Locals.start pre d.2) (eventsOf d.1 (history reply c)) := by
  have hmem : d.1 ∈ c.items.map Prod.fst := by simp [he]
  unfold history pushGateway
  obtain ⟨first, hfirst, ⟨u, -, e1⟩ | ⟨x, -, e1⟩⟩ := Proc.log_bind_calls reply
    (deleteOtherDbs_calls (c.items.map Prod.fst)) (fun _ => (pushDbs Locals.start c.items).bind
      fun config => (ask .getDbs).bind fun _ => .ret config) []
  · obtain ⟨new, hnew, -, hseg⟩ :=
      pushDbs_segments reply c.items Locals.start ([] ++ first) c.nodup
    have hlast : ∀ config : List (String × DbCfg V),
        ((ask .getDbs).bind fun _ => .ret config : Prog V _).Calls (Outside (c.items.map Prod.fst)) :=
      fun config => Proc.calls_bind (outside_getDbs _) fun _ _ => trivial
    obtain ⟨last, hl, hlog⟩ : ∃ last, (∀ e ∈ last, Outside (c.items.map Prod.fst) e) ∧
        (((pushDbs Locals.start c.items).bind fun config => (ask .getDbs).bind fun _ => .ret config).log
          reply ([] ++ first)).1 = [] ++ first ++ new ++ last := by
      rw [Proc.log_bind]
      split
      · rename_i h' config hp
        rw [hp] at hnew
        obtain ⟨last, hlog, hl⟩ := Proc.calls_log reply (hlast config) h'
        exact ⟨last, hl, hnew ▸ hlog⟩
      · rename_i h' x hp
        rw [hp] at hnew
        exact ⟨[], by simp, by simpa using hnew⟩
    rw [e1, hlog, eventsOf_append, eventsOf_append, eventsOf_append, eventsOf_outside hmem hfirst,
      eventsOf_outside hmem hl, List.append_nil, List.append_nil]
    exact hseg pre d post he
  · rw [e1, List.nil_append, eventsOf_outside hmem hfirst]
    exact Segment.nil _ _

/-! ## Isolation -/

/-- Every role, user and oidc body a database is given is its own. -/
structure Isolated (db : String) (cfg : DbCfg V) (h : List (Event (sig V))) : Prop where
  roles : ∀ e ∈ h, ∀ name channels, e.q = Call.createRole db name channels →
    ∃ roles role, cfg.roles = some roles ∧ (name, role) ∈ roles.items ∧
      role.adminChannels = some channels
  users : ∀ e ∈ h, ∀ name password channels roles,
    e.q = Call.registerUser db name password channels roles →
    ∃ users user, cfg.users = some users ∧ (name, user) ∈ users.items ∧
      user.adminChannels = some channels ∧ (password = user.password ∨ password = none)
  adminRoles : ∀ e ∈ h, ∀ name password channels roles,
    e.q = Call.registerUser db name password channels roles → roles.isSome = cfg.roles.isSome
  /-- No other second update, also in a run that raises. -/
  puts : secondPuts (eventsOf db h) <+: (oidcBody cfg).toList
  /-- The second update is made by the time the info is asked for. -/
  info : (∃ e ∈ h, e.q = Call.getDbInfo db) → secondPuts (eventsOf db h) = (oidcBody cfg).toList

/-- Nothing of the databases `pre` is left over for `cfg`: no oidc body, no role
that would be created and no user that would be registered, nor the flag that
users are registered with roles. -/
structure Undisturbed (pre : List (String × DbCfg V)) (cfg : DbCfg V) : Prop where
  oidc : cfg.oidc = none → ∀ e ∈ pre, e.2.oidc = none
  roles : cfg.roles = none → sentRoles (lastOf DbCfg.roles pre) = []
  adminRoles : cfg.roles = none → lastOf DbCfg.roles pre ≠ none →
    sentUsers (lastOf DbCfg.roles pre) (cfg.users.or (lastOf DbCfg.users pre)) = []
  users : cfg.users = none →
    sentUsers (cfg.roles.or (lastOf DbCfg.roles pre)) (lastOf DbCfg.users pre) = []

theorem mem_sentRoles {roles : Option (PyDict String (RoleCfg V))} {e : String × RoleCfg V}
    (h : e ∈ sentRoles roles) : e ∈ itemsOf roles := List.takeWhile_subset _ h

theorem mem_sentUsers {roles : Option (PyDict String (RoleCfg V))}
    {users : Option (PyDict String (UserCfg V))} {e : String × UserCfg V}
    (h : e ∈ sentUsers roles users) : e ∈ itemsOf users := by
  unfold sentUsers at h
  split at h
  · exact List.takeWhile_subset _ h
  · cases h

theorem isolated_of_undisturbed {pre : List (String × DbCfg V)} {db : String} {cfg : DbCfg V}
    (hu : Undisturbed pre cfg) {h : List (Event (sig V))}
    (hs : Segment db (localsAt Locals.start pre cfg) (eventsOf db h)) : Isolated db cfg h := by
  rw [localsAt_start] at hs
  have hof : ∀ e ∈ h, Call.db? e.q = some db → e ∈ eventsOf db h := by
    intro e he hq
    exact List.mem_filter.mpr ⟨he, by simpa using hq⟩
  have horig : (oidcBody cfg).or (lastOf oidcBody pre) = oidcBody cfg := by
    cases ho : cfg.oidc with
    | some v => simp [oidcBody, ho]
    | none =>
      have hnone : lastOf oidcBody pre = none := by
        refine (lastOf_eq_none pre).mpr fun e he => ?_
        simp [oidcBody, hu.oidc ho e he]
      rw [hnone, Option.or_none]
  refine ⟨?_, ?_, ?_, ?_, ?_⟩
  · intro e he name channels hq
    obtain ⟨role, hmem, hch⟩ := hs.role (hof e he (by rw [hq]; rfl)) hq
    cases hr : cfg.roles with
    | none =>
      rw [hr, Option.none_or, hu.roles hr] at hmem
      cases hmem
    | some roles =>
      rw [hr, Option.some_or] at hmem
      exact ⟨roles, role, rfl, mem_sentRoles hmem, hch⟩
  · intro e he name password channels roles hq
    obtain ⟨user, hmem, hch, hpw, -⟩ := hs.user (hof e he (by rw [hq]; rfl)) hq
    cases hc : cfg.users with
    | none =>
      rw [hc, Option.none_or, hu.users hc] at hmem
      cases hmem
    | some users =>
      rw [hc, Option.some_or] at hmem
      exact ⟨users, user, rfl, mem_sentUsers hmem, hch, hpw⟩
  · intro e he name password channels roles hq
    obtain ⟨user, hmem, -, -, hsome⟩ := hs.user (hof e he (by rw [hq]; rfl)) hq
    rw [hsome]
    cases hr : cfg.roles with
    | some roles => rfl
    | none =>
      rw [hr, Option.none_or] at hmem
      cases hl : lastOf DbCfg.roles pre with
      | none => rfl
      | some roles =>
        rw [hu.adminRoles hr (by simp [hl])] at hmem
        cases hmem
  · rw [← horig]
    exact hs.puts
  · rintro ⟨e, he, hq⟩
    rw [← horig]
    exact hs.info ⟨e, hof e he (by rw [hq]; rfl), hq⟩

/-! ## A gateway that answers everything -/

/-- Nothing to delete, every request accepted; `online` says which databases are. -/
def okReply (online : String → Bool) : Replies (sig V) := fun _ q =>
  match q with
  | .getDbs => .ok []
  | .getDbInfo db => .ok (some (if online db then "Online" else "Offline"))
  | .deleteDb _ => .ok ()
  | .createDb _ _ => .ok ()
  | .putDbConfig _ _ => .ok ()
  | .createRole _ _ _ => .ok ()
  | .registerUser _ _ _ _ _ => .ok ()

section Ok

variable (online : String → Bool)

def saveEvents (db : String) (cfg : DbCfg V) (orig : Option (DbCfg V)) : List (Event (sig V)) :=
  ⟨.createDb db cfg, .ok ()⟩ :: orig.toList.map fun b => ⟨.putDbConfig db b, .ok ()⟩

theorem saveConfig_ok (h : List (Event (sig V))) (db : String) (cfg : DbCfg V)
    (orig : Option (DbCfg V)) :
    (saveConfig db cfg orig).log (okReply online) h = (h ++ saveEvents db cfg orig, .ok ()) := by
  cases orig with
  | none => rfl
  | some b =>
    show (h ++ [_] ++ [_], _) = _
    rw [List.append_assoc]
    rfl

/-- The roles the loop creates, before a missing key raises. -/
theorem createRoles_ok (db : String) (items : List (String × RoleCfg V)) (h : List (Event (sig V)))
    {name : String} {cfg : RoleCfg V} {channels : V}
    (hmem : (name, cfg) ∈ items.takeWhile fun e => e.2.sendable)
    (hch : cfg.adminChannels = some channels) :
    ∃ e ∈ ((createRoles db items).log (okReply online) h).1, e.q = Call.createRole db name channels := by
  induction items generalizing h with
  | nil => cases hmem
  | cons item rest ih =>
    obtain ⟨role, rcfg⟩ := item
    cases hc : rcfg.adminChannels with
    | none => simp [RoleCfg.sendable, hc] at hmem
    | some ch =>
      have hstep : (createRoles db ((role, rcfg) :: rest)).log (okReply online) h =
          (createRoles db rest).log (okReply online) (h ++ [⟨.createRole db role ch, .ok ()⟩]) := by
        rw [createRoles, hc]
        rfl
      simp only [List.takeWhile_cons, RoleCfg.sendable, hc, Option.isSome_some, if_true,
        List.mem_cons, Prod.mk.injEq] at hmem
      rw [hstep]
      rcases hmem with ⟨rfl, rfl⟩ | hmem
      · rw [hch] at hc
        refine ⟨⟨.createRole db name ch, .ok ()⟩, Proc.mem_log _ (by simp), ?_⟩
        rw [Option.some.inj hc]
      · exact ih _ hmem

theorem createRoles_all (db : String) (items : List (String × RoleCfg V)) (h : List (Event (sig V)))
    (hall : items.all fun e => e.2.sendable) :
    ∃ new, (createRoles db items).log (okReply online) h = (h ++ new, .ok ()) := by
  induction items generalizing h with
  | nil => exact ⟨[], by simp [createRoles, Proc.log]⟩
  | cons item rest ih =>
    obtain ⟨role, rcfg⟩ := item
    rw [List.all_cons, Bool.and_eq_true] at hall
    obtain ⟨ch, hc⟩ := Option.isSome_iff_exists.mp hall.1
    obtain ⟨new, hnew⟩ := ih (h ++ [⟨.createRole db role ch, .ok ()⟩]) hall.2
    refine ⟨⟨.createRole db role ch, .ok ()⟩ :: new, ?_⟩
    rw [createRoles, show (role, rcfg).2.adminChannels = some ch from hc]
    show (createRoles db rest).log (okReply online) (h ++ [⟨.createRole db role ch, .ok ()⟩]) = _
    rw [hnew, List.append_assoc]
    rfl

/-- One user whose keys are there is registered. -/
theorem registerUser_ok (db name : String) (rolesExist : Bool) (cfg : UserCfg V)
    (h : List (Event (sig V))) (hs : cfg.sendable rolesExist = true) :
    ∃ password channels roles, roles.isSome = rolesExist ∧
      (if rolesExist then registerWithRoles db name cfg else registerPlain db name cfg).log
        (okReply online) h =
        (h ++ [⟨.registerUser db name password channels roles, .ok ()⟩], .ok ()) := by
  simp only [UserCfg.sendable, Bool.and_eq_true, Bool.or_eq_true, Bool.not_eq_true'] at hs
  obtain ⟨ch, hch⟩ := Option.isSome_iff_exists.mp hs.1
  cases rolesExist with
  | true =>
    obtain ⟨hpw, hro⟩ : cfg.password.isSome = true ∧ cfg.adminRoles.isSome = true := by
      simpa using hs.2
    obtain ⟨pw, hpw⟩ := Option.isSome_iff_exists.mp hpw
    obtain ⟨ro, hro⟩ := Option.isSome_iff_exists.mp hro
    refine ⟨some pw, ch, some ro, rfl, ?_⟩
    rw [if_pos rfl, registerWithRoles, hpw, hch, hro]
    rfl
  | false =>
    refine ⟨cfg.password, ch, none, rfl, ?_⟩
    rw [if_neg (by decide), registerPlain, hch]
    cases cfg.password <;> rfl

theorem registerUsers_ok (db : String) (rolesExist : Bool) (items : List (String × UserCfg V))
    (h : List (Event (sig V))) {name : String} {cfg : UserCfg V}
    (hmem : (name, cfg) ∈ items.takeWhile fun e => e.2.sendable rolesExist) :
    ∃ e ∈ ((registerUsers db rolesExist items).log (okReply online) h).1, ∃ password channels roles,
      e.q = Call.registerUser db name password channels roles ∧ roles.isSome = rolesExist := by
  induction items generalizing h with
  | nil => cases hmem
  | cons item rest ih =>
    obtain ⟨user, ucfg⟩ := item
    cases hs : ucfg.sendable rolesExist with
    | false => simp [hs] at hmem
    | true =>
      obtain ⟨pw, ch, ro, hro, hlog⟩ := registerUser_ok online db user rolesExist ucfg h hs
      rw [registerUsers, Proc.log_bind_ok _ hlog]
      simp only [List.takeWhile_cons, hs, if_true, List.mem_cons, Prod.mk.injEq] at hmem
      rcases hmem with ⟨rfl, rfl⟩ | hmem
      · exact ⟨⟨.registerUser db name pw ch ro, .ok ()⟩, Proc.mem_log _ (by simp), pw, ch, ro, rfl, hro⟩
      · exact ih _ hmem

theorem createPrincipals_role (db : String) (l : Locals V) {name : String} {cfg : RoleCfg V}
    (h : List (Event (sig V))) (hmem : (name, cfg) ∈ sentRoles l.rolesCfg) :
    ∃ e ∈ ((createPrincipals db l).log (okReply online) h).1,
      ∃ channels, e.q = Call.createRole db name channels := by
  have hsend : cfg.sendable = true :=
    List.mem_takeWhile_imp (p := fun e : String × RoleCfg V => e.2.sendable) hmem
  obtain ⟨ch, hch⟩ := Option.isSome_iff_exists.mp hsend
  obtain ⟨e, he, hq⟩ := createRoles_ok online db _ h hmem hch
  exact ⟨e, Proc.mem_log_bind _ he, ch, hq⟩

theorem createPrincipals_user (db : String) (l : Locals V) {name : String} {cfg : UserCfg V}
    (h : List (Event (sig V))) (hmem : (name, cfg) ∈ sentUsers l.rolesCfg l.usersCfg) :
    ∃ e ∈ ((createPrincipals db l).log (okReply online) h).1, ∃ password channels roles,
      e.q = Call.registerUser db name password channels roles ∧ roles.isSome = l.rolesCfg.isSome := by
  unfold sentUsers at hmem
  split at hmem
  · rename_i hall
    obtain ⟨new, hnew⟩ := createRoles_all online db _ h hall
    rw [createPrincipals, Proc.log_bind_ok _ hnew]
    exact registerUsers_ok online db _ _ _ hmem
  · cases hmem

/-- The requests up to the info. -/
def infoEvents (db : String) (cfg : DbCfg V) (orig : Option (DbCfg V)) : List (Event (sig V)) :=
  saveEvents db cfg orig ++
    [⟨.getDbInfo db, .ok (some (if online db then "Online" else "Offline"))⟩]

theorem pushDb_online {db : String} (hon : online db = true) (cfg : DbCfg V) (l : Locals V)
    (h : List (Event (sig V))) : (pushDb db cfg l).log (okReply online) h =
      (createPrincipals db l).log (okReply online) (h ++ infoEvents online db cfg l.origConfig) := by
  have hstate : (if online db then "Online" else "Offline") = "Online" := if_pos hon
  rw [pushDb, Proc.log_bind_ok _ (saveConfig_ok online h db cfg l.origConfig),
    Proc.log_bind_ok _ (log_ask _ _ _)]
  show Proc.log _ (if (if online db then "Online" else "Offline") = "Online" then
    createPrincipals db l else .ret ()) _ = _
  rw [if_pos hstate, List.append_assoc]
  rfl

theorem pushDb_offline {db : String} (hoff : online db = false) (cfg : DbCfg V) (l : Locals V)
    (h : List (Event (sig V))) : (pushDb db cfg l).log (okReply online) h =
      (h ++ infoEvents online db cfg l.origConfig, .ok ()) := by
  have hstate : (if online db then "Online" else "Offline") ≠ "Online" := by
    rw [hoff]
    decide
  rw [pushDb, Proc.log_bind_ok _ (saveConfig_ok online h db cfg l.origConfig),
    Proc.log_bind_ok _ (log_ask _ _ _)]
  show Proc.log _ (if (if online db then "Online" else "Offline") = "Online" then
    createPrincipals db l else .ret ()) _ = _
  rw [if_neg hstate, List.append_assoc]
  rfl

/-- With the databases before it offline, the loop comes to the database `d`. -/
theorem pushDbs_reach (pre : List (String × DbCfg V)) (d : String × DbCfg V)
    (post : List (String × DbCfg V)) (hoff : ∀ e ∈ pre, online e.1 = false) (l : Locals V)
    (h : List (Event (sig V))) : ∃ h' cfg,
      ∀ e ∈ ((pushDb d.1 cfg (localsAt l pre d.2)).log (okReply online) h').1,
        e ∈ ((pushDbs l (pre ++ d :: post)).log (okReply online) h).1 := by
  induction pre generalizing l h with
  | nil => exact ⟨h, (prepare d.2 l).1, fun e he => Proc.mem_log_bind _ he⟩
  | cons first pre ih =>
    obtain ⟨db, cfg⟩ := first
    have hfirst := pushDb_offline online (hoff _ List.mem_cons_self) (prepare cfg l).1
      (prepare cfg l).2 h
    obtain ⟨h', cfg', hsub⟩ := ih (fun e he => hoff e (List.mem_cons_of_mem _ he)) (prepare cfg l).2
      (h ++ infoEvents online db (prepare cfg l).1 (prepare cfg l).2.origConfig)
    refine ⟨h', cfg', fun e he => ?_⟩
    rw [List.cons_append, pushDbs, Proc.log_bind_ok _ hfirst]
    exact Proc.mem_log_bind _ (hsub e he)

theorem history_reach (c : PyDict String (DbCfg V)) (pre : List (String × DbCfg V))
    (d : String × DbCfg V) (post : List (String × DbCfg V)) (he : c.items = pre ++ d :: post)
    (hoff : ∀ e ∈ pre, online e.1 = false) : ∃ h' cfg,
      ∀ e ∈ ((pushDb d.1 cfg (localsAt Locals.start pre d.2)).log (okReply online) h').1,
        e ∈ history (okReply online) c := by
  have hfirst : (deleteOtherDbs (c.items.map Prod.fst)).log (okReply (V := V) online) [] =
      ([⟨.getDbs, .ok []⟩, ⟨.getDbs, .ok []⟩], .ok ()) := rfl
  obtain ⟨h', cfg, hsub⟩ := pushDbs_reach online pre d post hoff Locals.start
    [⟨.getDbs, .ok []⟩, ⟨.getDbs, .ok []⟩]
  refine ⟨h', cfg, fun e hmem => ?_⟩
  rw [history, pushGateway, Proc.log_bind_ok _ hfirst, he]
  exact Proc.mem_log_bind _ (hsub e hmem)

end Ok

/-! ## The condition is exact -/

theorem undisturbed_of_isolated (c : PyDict String (DbCfg V)) (pre : List (String × DbCfg V))
    (d : String × DbCfg V) (post : List (String × DbCfg V)) (he : c.items = pre ++ d :: post)
    (hiso : Isolated d.1 d.2 (history (okReply fun db => db == d.1) c)) : Undisturbed pre d.2 := by
  have hoff : ∀ e ∈ pre, (e.1 == d.1) = false := by
    intro e hmem
    have hd := c.nodup
    rw [he, List.map_append, List.map_cons] at hd
    have hne : e.1 ≠ d.1 := (List.nodup_append.mp hd).2.2 e.1 (List.mem_map_of_mem hmem) d.1 (by simp)
    simpa using hne
  obtain ⟨h', cfg, hsub⟩ := history_reach (fun db => db == d.1) c pre d post he hoff
  have hseg := history_segments (okReply fun db => db == d.1) c pre d post he
  rw [pushDb_online _ (by simp)] at hsub
  have hlocals := localsAt_start pre d.2
  rw [hlocals] at hsub hseg
  refine ⟨?_, ?_, ?_, ?_⟩
  · intro ho e hmem
    have hown : oidcBody d.2 = none := by simp [oidcBody, ho]
    have hinfo : ∃ e ∈ history (okReply fun db => db == d.1) c, e.q = Call.getDbInfo d.1 :=
      ⟨_, hsub _ (Proc.mem_log _ (List.mem_append_right _ (List.mem_append_right _
        (List.mem_singleton_self _)))), rfl⟩
    have hnone : lastOf oidcBody pre = none := by
      obtain ⟨e', he', hq⟩ := hinfo
      have hmem' : e' ∈ eventsOf d.1 (history (okReply fun db => db == d.1) c) :=
        List.mem_filter.mpr ⟨he', by rw [hq]; simp [Call.db?]⟩
      have h1 := hseg.info ⟨e', hmem', hq⟩
      have h2 := hiso.info ⟨e', he', hq⟩
      rw [h2, hown, Option.none_or] at h1
      cases hl : lastOf oidcBody pre with
      | none => rfl
      | some b =>
        rw [hl] at h1
        cases h1
    have hbody := (lastOf_eq_none pre).mp hnone e hmem
    cases hoidc : e.2.oidc with
    | none => rfl
    | some v => simp [oidcBody, hoidc] at hbody
  · intro hr
    by_contra hne
    obtain ⟨⟨name, role⟩, hmem⟩ := List.exists_mem_of_ne_nil _ hne
    rw [hr, Option.none_or] at hsub
    obtain ⟨e, hev, ch, hq⟩ := createPrincipals_role (fun db => db == d.1) d.1 ⟨_, _, _⟩ _ hmem
    obtain ⟨roles, _, hroles, -⟩ := hiso.roles e (hsub e hev) name ch hq
    rw [hr] at hroles
    cases hroles
  · intro hr hlast
    by_contra hne
    obtain ⟨⟨name, user⟩, hmem⟩ := List.exists_mem_of_ne_nil _ hne
    rw [hr, Option.none_or] at hsub
    obtain ⟨e, hev, pw, ch, ro, hq, hro⟩ := createPrincipals_user (fun db => db == d.1) d.1 ⟨_, _, _⟩ _ hmem
    have hsome := hiso.adminRoles e (hsub e hev) name pw ch ro hq
    rw [hro, hr, Option.isSome_none] at hsome
    exact hlast (by simpa using hsome)
  · intro hus
    by_contra hne
    obtain ⟨⟨name, user⟩, hmem⟩ := List.exists_mem_of_ne_nil _ hne
    rw [hus, Option.none_or] at hsub
    obtain ⟨e, hev, pw, ch, ro, hq, hro⟩ := createPrincipals_user (fun db => db == d.1) d.1 ⟨_, _, _⟩ _ hmem
    obtain ⟨users, _, husers, -⟩ := hiso.users e (hsub e hev) name pw ch ro hq
    rw [hus] at husers
    cases husers

/-- Whatever the gateway answers, each database is given only what is its own,
exactly when no section of a database before it is left over. -/
theorem isolated_iff (c : PyDict String (DbCfg V)) :
    (∀ reply, ∀ d ∈ c.items, Isolated d.1 d.2 (history reply c)) ↔
      ∀ pre d post, c.items = pre ++ d :: post → Undisturbed pre d.2 := by
  constructor
  · intro h pre d post he
    exact undisturbed_of_isolated c pre d post he (h _ d (by simp [he]))
  · intro h reply d hd
    obtain ⟨pre, post, he⟩ := List.append_of_mem hd
    exact isolated_of_undisturbed (h pre d post he) (history_segments reply c pre d post he)

/-- A database with nothing but its bucket. -/
def bucketOnly (bucket : String) : DbCfg String where
  server := none
  username := none
  password := none
  caCertPath := none
  x509KeyPath := none
  x509CertPath := none
  roles := none
  users := none
  oidc := none
  settings := ⟨[("bucket", bucket)], List.nodup_singleton _⟩

/-- A role and oidc in the first of two databases. -/
def rolesFirst : PyDict String (DbCfg String) where
  items := [
    ("db1", { bucketOnly "b1" with
      roles := some ⟨[("editors", ⟨some "[\"ABC\"]"⟩)], by decide⟩
      oidc := some "providers" }),
    ("db2", bucketOnly "b2")]
  nodup := by decide

/-- `db2` is updated with the settings of `db1` and given its role. -/
theorem rolesFirst_not_isolated :
    (history (okReply fun _ => true) rolesFirst).map (fun e => e.q) =
      [.getDbs, .getDbs,
        .createDb "db1" (bucketOnly "b1"),
        .putDbConfig "db1" { bucketOnly "b1" with oidc := some "providers" },
        .getDbInfo "db1", .createRole "db1" "editors" "[\"ABC\"]",
        .createDb "db2" (bucketOnly "b2"),
        .putDbConfig "db2" { bucketOnly "b1" with oidc := some "providers" },
        .getDbInfo "db2", .createRole "db2" "editors" "[\"ABC\"]", .getDbs] ∧
      ¬ ∀ reply, ∀ d ∈ rolesFirst.items, Isolated d.1 d.2 (history reply rolesFirst) := by
  refine ⟨rfl, fun h => ?_⟩
  have hiso := h (okReply fun _ => true) ("db2", bucketOnly "b2") (by simp [rolesFirst])
  have hmem : Call.createRole "db2" "editors" "[\"ABC\"]" ∈
      (history (okReply fun _ => true) rolesFirst).map fun e => e.q := by
    show _ ∈ [_, _, _, _, _, _, _, _, _, Call.createRole "db2" "editors" "[\"ABC\"]", _]
    simp
  obtain ⟨e, he, hq⟩ := List.mem_map.mp hmem
  obtain ⟨roles, _, hroles, -⟩ := hiso.roles e he _ _ hq
  cases hroles

end MobileTestkit.L4.DbConfig
