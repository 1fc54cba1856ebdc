import MobileTestkit.L4App.DbIsolation

/-!
# What the second gateway receives

`send_dbconfig_as_restCall` deletes the sections from the dictionaries it was
given, so every gateway after the first is sent the `stripped` configuration;
and a gateway after one that raised is sent nothing.

* `pushGateway_result`: what one round leaves behind.
* `pushGateway_idle`: with no oidc, no role and no user, the round is the round
  of the stripped configuration.
* `pushGateway_returns`: against gateways that accept what they are sent
  (`Serves`), it does not raise.
* `uniform_iff`: gateways that answer alike are sent the same create, update,
  role and user requests, also in calls that raise. For gateways that accept what
  they are sent that is so exactly when there is at most one, or no database has
  anything to send (`NothingToSend`); for gateways that answer anything, exactly
  when there is at most one, or no database.
-/
namespace MobileTestkit.L4.DbConfig

open MobileTestkit.Core

variable {V : Type}

/-- What `send_dbconfig_as_restCall` leaves of a database's dictionary. -/
def stripped (cfg : DbCfg V) : DbCfg V :=
  { deleteConnection cfg with roles := none, users := none, oidc := none }

def strippedDbs (items : List (String × DbCfg V)) : List (String × DbCfg V) :=
  items.map fun e => (e.1, stripped e.2)

theorem prepare_cfg (cfg : DbCfg V) (l : Locals V) : (prepare cfg l).1 = stripped cfg := by
  unfold prepare stripped
  cases h : cfg.oidc with
  | none => simp [deleteConnection, h]
  | some v => simp [deleteConnection, h]

theorem strippedDbs_names (items : List (String × DbCfg V)) :
    (strippedDbs items).map Prod.fst = items.map Prod.fst := by
  simp [strippedDbs]

/-- One round leaves the stripped configuration. -/
theorem pushDbs_result {l : Locals V} {items rest : List (String × DbCfg V)}
    (h : (pushDbs l items).CanReturn rest) : rest = strippedDbs items := by
  induction items generalizing l rest with
  | nil => exact (show [] = rest from h).symm
  | cons item items ih =>
    obtain ⟨db, cfg⟩ := item
    obtain ⟨_, -, h⟩ := Proc.canReturn_bind.mp h
    obtain ⟨rest', hrest, h⟩ := Proc.canReturn_bind.mp h
    have he : (db, (prepare cfg l).1) :: rest' = rest := h
    rw [← he, ih hrest, prepare_cfg]
    rfl

theorem pushGateway_result {items rest : List (String × DbCfg V)}
    (h : (pushGateway items).CanReturn rest) : rest = strippedDbs items := by
  obtain ⟨_, -, h⟩ := Proc.canReturn_bind.mp h
  obtain ⟨config, hpush, h⟩ := Proc.canReturn_bind.mp h
  obtain ⟨_, -, h⟩ := Proc.canReturn_bind.mp h
  exact (show config = rest from h) ▸ pushDbs_result hpush

/-! ## Nothing to send -/

/-- The variables have no oidc body, no role and no user. -/
structure Locals.Idle (l : Locals V) : Prop where
  oidc : l.origConfig = none
  roles : itemsOf l.rolesCfg = []
  users : itemsOf l.usersCfg = []

theorem createPrincipals_empty {db : String} {l : Locals V} (hr : itemsOf l.rolesCfg = [])
    (hu : itemsOf l.usersCfg = []) : createPrincipals db l = .ret () := by
  unfold createPrincipals
  rw [hr, hu]
  rfl

/-- With nothing to send, the requests are those of empty variables. -/
theorem pushDb_idle (db : String) (cfg : DbCfg V) {l : Locals V} (hl : l.Idle) :
    pushDb db cfg l = pushDb db cfg Locals.start := by
  unfold pushDb
  rw [hl.oidc, createPrincipals_empty hl.roles hl.users, createPrincipals_empty rfl rfl]
  rfl

/-- With nothing to send, a round is the round of the stripped databases.
Induction on the databases; `Idle` is asked of the variables of each. -/
theorem pushDbs_idle (items : List (String × DbCfg V)) (l : Locals V)
    (hl : ∀ pre d post, items = pre ++ d :: post → (localsAt l pre d.2).Idle) :
    pushDbs l items = pushDbs Locals.start (strippedDbs items) := by
  induction items generalizing l with
  | nil => rfl
  | cons item items ih =>
    obtain ⟨db, cfg⟩ := item
    have hmore := ih (prepare cfg l).2 fun pre d post he =>
      hl ((db, cfg) :: pre) d post (by rw [he]; rfl)
    have hidle : (prepare cfg l).2.Idle := hl [] (db, cfg) items rfl
    have hfirst : pushDb db (prepare cfg l).1 (prepare cfg l).2 =
        pushDb db (stripped cfg) Locals.start := by
      rw [pushDb_idle db _ hidle, prepare_cfg]
    show (pushDb db (prepare cfg l).1 (prepare cfg l).2).bind _ = _
    rw [hfirst]
    simp only [hmore, prepare_cfg]
    rfl

theorem pushGateway_idle {items : List (String × DbCfg V)}
    (hl : ∀ pre d post, items = pre ++ d :: post → (localsAt Locals.start pre d.2).Idle) :
    pushGateway items = pushGateway (strippedDbs items) := by
  rw [pushGateway, pushGateway, strippedDbs_names, pushDbs_idle items _ hl]

/-! ## Gateways that accept what they are sent -/

/-- A gateway that refuses nothing, but for a `create_db` that raises
`HTTPError`, and reports a state for every database. -/
structure Serves (reply : Replies (sig V)) : Prop where
  created : ∀ h db cfg, reply h (.createDb db cfg) = .ok () ∨
    reply h (.createDb db cfg) = .error .httpError
  state : ∀ h db, ∃ state, reply h (.getDbInfo db) = .ok (some state)
  accepted : ∀ h q, (∀ db cfg, q ≠ .createDb db cfg) → ∃ v, reply h q = .ok v

section Serves

variable {reply : Replies (sig V)} (hs : Serves reply)

include hs

theorem ask_returns (q : Call V) (hq : ∀ db cfg, q ≠ .createDb db cfg) : Proc.Returns reply (ask q) := by
  intro h
  obtain ⟨v, hv⟩ := hs.accepted h q hq
  exact ⟨_, v, by rw [log_ask, hv]⟩

theorem createOrPut_returns (db : String) (cfg : DbCfg V) : Proc.Returns reply (createOrPut db cfg) := by
  intro h
  rw [createOrPut, Proc.log_tryCatch, log_ask]
  rcases hs.created h db cfg with hc | hc
  · exact ⟨_, (), by rw [hc]⟩
  · rw [hc]
    exact ask_returns hs (.putDbConfig db cfg) (fun _ _ hq => by cases hq) _

theorem saveConfig_returns (db : String) (cfg : DbCfg V) (orig : Option (DbCfg V)) :
    Proc.Returns reply (saveConfig db cfg orig) := by
  refine Proc.returns_bind reply (createOrPut_returns hs db cfg) fun _ => ?_
  cases orig with
  | none => exact Proc.returns_ret reply ()
  | some b => exact ask_returns hs (.putDbConfig db b) fun _ _ hq => by cases hq

theorem pushDb_returns (db : String) (cfg : DbCfg V) : Proc.Returns reply (pushDb db cfg Locals.start) := by
  refine Proc.returns_bind reply (saveConfig_returns hs db cfg none) fun _ h => ?_
  obtain ⟨state, hstate⟩ := hs.state h db
  rw [Proc.log_bind, log_ask, hstate]
  show ∃ h' a, Proc.log reply (if state = "Online" then createPrincipals db Locals.start else .ret ())
    _ = (h', .ok a)
  rw [createPrincipals_empty rfl rfl, ite_self]
  exact ⟨_, (), rfl⟩

theorem deleteDbs_returns (names dbs : List String) :
    Proc.Returns reply (deleteDbs names dbs) := by
  induction dbs with
  | nil => exact Proc.returns_ret reply ()
  | cons db rest ih =>
    refine Proc.returns_bind reply ?_ fun _ => ih
    split
    · exact Proc.returns_ret reply ()
    · exact ask_returns hs (.deleteDb db) fun _ _ hq => by cases hq

theorem deleteOtherDbs_returns (names : List String) :
    Proc.Returns reply (deleteOtherDbs names) := by
  have hget : Proc.Returns reply (ask .getDbs) :=
    ask_returns hs .getDbs fun _ _ hq => by cases hq
  refine Proc.returns_bind reply hget fun dbList => ?_
  refine Proc.returns_bind reply (deleteDbs_returns hs names dbList) fun _ => ?_
  exact Proc.returns_bind reply hget fun _ => Proc.returns_ret reply ()

theorem pushDbs_returns (items : List (String × DbCfg V)) :
    Proc.Returns reply (pushDbs Locals.start (strippedDbs items)) := by
  induction items with
  | nil => exact Proc.returns_ret reply []
  | cons item items ih =>
    obtain ⟨db, cfg⟩ := item
    refine Proc.returns_bind reply (pushDb_returns hs db (stripped cfg)) fun _ => ?_
    exact Proc.returns_bind reply ih fun _ => Proc.returns_ret reply _

theorem pushGateway_returns (items : List (String × DbCfg V)) :
    Proc.Returns reply (pushGateway (strippedDbs items)) := by
  refine Proc.returns_bind reply (deleteOtherDbs_returns hs _) fun _ => ?_
  refine Proc.returns_bind reply (pushDbs_returns hs items) fun _ => ?_
  exact Proc.returns_bind reply (ask_returns hs .getDbs fun _ _ hq => by cases hq) fun _ => Proc.returns_ret reply _

end Serves

/-! ## Every gateway -/

def Call.isPush : Call V → Bool
  | .createDb _ _ => true
  | .putDbConfig _ _ => true
  | .createRole _ _ _ => true
  | .registerUser _ _ _ _ _ => true
  | _ => false

/-- The requests that write. -/
def pushes (h : List (Event (sig V))) : List (Call V) := (h.map fun e => e.q).filter Call.isPush

/-- Of `n` gateways that answer alike, in a way that `A` allows, each gets what the
first one got, also when a gateway made the call raise. -/
def Uniform (A : Replies (sig V) → Prop) (n : Nat) (items : List (String × DbCfg V)) : Prop :=
  ∀ reply, A reply → ∀ first rest,
    (sendDbconfigAsRestCall (List.replicate n reply) items).1 = first :: rest →
      ∀ h ∈ rest, pushes h = pushes first

/-- A gateway that is sent the stripped databases leaves them for the next one. -/
theorem send_stripped {reply : Replies (sig V)} {items : List (String × DbCfg V)}
    {h : List (Event (sig V))}
    (hlog : (pushGateway (strippedDbs items)).log reply [] = (h, .ok (strippedDbs items))) (n : Nat) :
    sendDbconfigAsRestCall (List.replicate n reply) (strippedDbs items) =
      (List.replicate n h, .ok ()) := by
  induction n with
  | zero => rfl
  | succ n ih =>
    rw [List.replicate_succ, sendDbconfigAsRestCall, hlog]
    simp only [ih]
    rfl

theorem uniform_of_idle {n : Nat} {items : List (String × DbCfg V)}
    (hl : ∀ pre d post, items = pre ++ d :: post → (localsAt Locals.start pre d.2).Idle) :
    Uniform Serves n items := by
  intro reply hs first rest hres h hmem
  cases n with
  | zero => cases hres
  | succ n =>
    obtain ⟨h0, config, hlog⟩ := pushGateway_returns hs items []
    obtain rfl := pushGateway_result (Proc.canReturn_of_log reply (pushGateway_idle hl ▸ hlog))
    rw [List.replicate_succ, sendDbconfigAsRestCall, pushGateway_idle hl, hlog] at hres
    simp only [send_stripped hlog, List.cons.injEq] at hres
    obtain ⟨rfl, rfl⟩ := hres
    rw [List.eq_of_mem_replicate hmem]

theorem length_send (gws : List (Replies (sig V))) (items : List (String × DbCfg V)) :
    (sendDbconfigAsRestCall gws items).1.length = gws.length := by
  induction gws generalizing items with
  | nil => rfl
  | cons reply rest ih =>
    rw [sendDbconfigAsRestCall]
    split
    · rename_i h config hlog
      exact congrArg (· + 1) (ih config)
    · simp

theorem uniform_of_le_one {A : Replies (sig V) → Prop} {n : Nat} (hn : n ≤ 1)
    (items : List (String × DbCfg V)) : Uniform A n items := by
  intro reply _ first rest hres h hmem
  have hlen := congrArg List.length hres
  rw [length_send, List.length_replicate, List.length_cons] at hlen
  obtain rfl : rest = [] := List.eq_nil_of_length_eq_zero (by omega)
  cases hmem

/-! ## Something to send -/

/-- No key is missing from the roles and users that are sent. -/
def Complete (roles : Option (PyDict String (RoleCfg V)))
    (users : Option (PyDict String (UserCfg V))) : Prop :=
  ((itemsOf roles).all fun e => e.2.sendable) = true ∧
    ((itemsOf users).all fun e => e.2.sendable roles.isSome) = true

theorem registerUsers_canReturn {db : String} {rolesExist : Bool} {items : List (String × UserCfg V)}
    (h : (registerUsers db rolesExist items).CanReturn ()) :
    items.all fun e => e.2.sendable rolesExist := by
  induction items with
  | nil => rfl
  | cons item rest ih =>
    obtain ⟨user, cfg⟩ := item
    obtain ⟨_, hfirst, h⟩ := Proc.canReturn_bind.mp h
    simp only [List.all_cons, Bool.and_eq_true]
    exact ⟨registerUser_canReturn hfirst, ih h⟩

theorem createPrincipals_canReturn {db : String} {l : Locals V}
    (h : (createPrincipals db l).CanReturn ()) : Complete l.rolesCfg l.usersCfg := by
  obtain ⟨_, hroles, husers⟩ := Proc.canReturn_bind.mp h
  exact ⟨createRoles_canReturn hroles, registerUsers_canReturn husers⟩

/-- A round that returns has been through each database. Induction on those before it. -/
theorem pushDbs_at {reply : Replies (sig V)} (pre : List (String × DbCfg V)) (d : String × DbCfg V)
    (post : List (String × DbCfg V)) (l : Locals V) {h h' : List (Event (sig V))}
    {rest : List (String × DbCfg V)}
    (hlog : (pushDbs l (pre ++ d :: post)).log reply h = (h', .ok rest)) :
    ∃ cfg h₁ h₂, (pushDb d.1 cfg (localsAt l pre d.2)).log reply h₁ = (h₂, .ok ()) := by
  induction pre generalizing l h h' rest with
  | nil =>
    obtain ⟨h₁, u, hfirst, -⟩ := (Proc.log_bind_eq_ok reply).mp hlog
    exact ⟨_, h, h₁, hfirst⟩
  | cons e pre ih =>
    obtain ⟨h₁, u, -, hlog⟩ := (Proc.log_bind_eq_ok reply).mp hlog
    obtain ⟨h₂, config, hmore, -⟩ := (Proc.log_bind_eq_ok reply).mp hlog
    exact ih (prepare e.2 l).2 hmore

section Ok

variable (online : String → Bool)

theorem serves_okReply : Serves (V := V) (okReply online) where
  created _ _ _ := .inl rfl
  state _ _ := ⟨_, rfl⟩
  accepted _ q hq := by
    cases q with
    | createDb db cfg => exact absurd rfl (hq db cfg)
    | _ => exact ⟨_, rfl⟩

/-- Only a database whose roles and users have their keys lets the round return. -/
theorem complete_of_returns {items : List (String × DbCfg V)} {h : List (Event (sig V))}
    {rest : List (String × DbCfg V)}
    (hlog : (pushGateway items).log (okReply online) [] = (h, .ok rest))
    {pre : List (String × DbCfg V)} {d : String × DbCfg V} {post : List (String × DbCfg V)}
    (he : items = pre ++ d :: post) (hon : online d.1 = true) :
    Complete (localsAt Locals.start pre d.2).rolesCfg (localsAt Locals.start pre d.2).usersCfg := by
  obtain ⟨h₁, u, -, hlog⟩ := (Proc.log_bind_eq_ok _).mp hlog
  obtain ⟨h₂, config, hpush, -⟩ := (Proc.log_bind_eq_ok _).mp hlog
  rw [he] at hpush
  obtain ⟨cfg, h₃, h₄, hd⟩ := pushDbs_at pre d post _ hpush
  rw [pushDb_online online hon] at hd
  exact createPrincipals_canReturn (Proc.canReturn_of_log _ hd)

/-- The stripped databases are only created. -/
theorem pushDbs_stripped_calls (items : List (String × DbCfg V)) (h : List (Event (sig V))) :
    ∃ new, (pushDbs Locals.start (strippedDbs items)).log (okReply online) h =
        (h ++ new, .ok (strippedDbs items)) ∧
      ∀ e ∈ new, Call.isPush e.q = true → ∃ db cfg, e.q = Call.createDb db cfg := by
  induction items generalizing h with
  | nil => exact ⟨[], by simp [strippedDbs, pushDbs, Proc.log], by simp⟩
  | cons item items ih =>
    obtain ⟨db, cfg⟩ := item
    have hfirst : (pushDb db (stripped cfg) Locals.start).log (okReply online) h =
        (h ++ infoEvents online db (stripped cfg) none, .ok ()) := by
      cases hon : online db with
      | false => exact pushDb_offline online hon _ _ h
      | true =>
        rw [pushDb_online online hon, createPrincipals_empty rfl rfl]
        rfl
    obtain ⟨new, hmore, hcalls⟩ := ih (h ++ infoEvents online db (stripped cfg) none)
    refine ⟨infoEvents online db (stripped cfg) none ++ new, ?_, ?_⟩
    · refine (Proc.log_bind_eq_ok _).mpr ⟨_, (), hfirst, ?_⟩
      refine (Proc.log_bind_eq_ok _).mpr ⟨_, _, hmore, ?_⟩
      rw [List.append_assoc]
      rfl
    · intro e he hpush
      rcases List.mem_append.mp he with he | he
      · simp only [infoEvents, saveEvents, Option.toList_none, List.map_nil, List.cons_append,
          List.nil_append, List.mem_cons, List.not_mem_nil, or_false] at he
        rcases he with rfl | rfl
        · exact ⟨db, stripped cfg, rfl⟩
        · cases hpush
      · exact hcalls e he hpush

theorem pushGateway_stripped_calls (items : List (String × DbCfg V)) :
    ∃ h, (pushGateway (strippedDbs items)).log (okReply online) [] = (h, .ok (strippedDbs items)) ∧
      ∀ q ∈ pushes h, ∃ db cfg, q = Call.createDb db cfg := by
  obtain ⟨new, hlog, hcalls⟩ := pushDbs_stripped_calls online items
    [⟨.getDbs, .ok []⟩, ⟨.getDbs, .ok []⟩]
  refine ⟨_, (Proc.log_bind_eq_ok _).mpr ⟨_, (), rfl, (Proc.log_bind_eq_ok _).mpr ⟨_, _, hlog, rfl⟩⟩,
    ?_⟩
  intro q hq
  simp only [pushes, List.mem_filter, List.mem_map] at hq
  obtain ⟨⟨e, he, rfl⟩, hpush⟩ := hq
  simp only [List.cons_append, List.nil_append, List.mem_append, List.mem_cons, List.not_mem_nil,
    or_false] at he
  rcases he with rfl | rfl | he | rfl
  · cases hpush
  · cases hpush
  · exact hcalls e he hpush
  · cases hpush

/-- Two gateways that accept everything: a request to the first is not made again,
if the first round raises, or if it is no create. -/
theorem not_uniform {n : Nat} {c : PyDict String (DbCfg V)} (hn : 2 ≤ n)
    {e : Event (sig V)} (he : e ∈ history (okReply online) c) (hpush : Call.isPush e.q = true)
    (hother : ∀ h rest, (pushGateway c.items).log (okReply online) [] = (h, .ok rest) →
      ∀ db cfg, e.q ≠ Call.createDb db cfg) : ¬ Uniform Serves n c.items := by
  intro hu
  obtain ⟨m, rfl⟩ : ∃ m, n = m + 2 := ⟨n - 2, by omega⟩
  have hsame := hu (okReply online) (serves_okReply online)
  rw [history] at he
  rw [List.replicate_succ, sendDbconfigAsRestCall] at hsame
  cases hlog : (pushGateway c.items).log (okReply online) [] with
  | mk h1 o =>
    rw [hlog] at hsame he
    have hmem : e.q ∈ pushes h1 := List.mem_filter.mpr ⟨List.mem_map_of_mem he, hpush⟩
    cases o with
    | error x =>
      have hnone := hsame h1 _ rfl [] (by rw [List.replicate_succ]; exact List.mem_cons_self)
      rw [← hnone] at hmem
      cases hmem
    | ok config =>
      obtain rfl := pushGateway_result (Proc.canReturn_of_log _ hlog)
      obtain ⟨h2, hsecond, hcalls⟩ := pushGateway_stripped_calls online c.items
      simp only [send_stripped hsecond] at hsame
      have hcreates := hsame h1 _ rfl h2 (by rw [List.replicate_succ]; exact List.mem_cons_self)
      rw [← hcreates] at hmem
      obtain ⟨db, cfg, hq⟩ := hcalls e.q hmem
      exact hother h1 _ hlog db cfg hq

end Ok

/-- A database that has, and is left, nothing to send but its settings. -/
structure NothingToSend (pre : List (String × DbCfg V)) (cfg : DbCfg V) : Prop where
  oidc : cfg.oidc = none
  roles : itemsOf (cfg.roles.or (lastOf DbCfg.roles pre)) = []
  users : itemsOf (cfg.users.or (lastOf DbCfg.users pre)) = []

theorem idle_of_nothingToSend {items : List (String × DbCfg V)}
    (h : ∀ pre d post, items = pre ++ d :: post → NothingToSend pre d.2)
    (pre : List (String × DbCfg V)) (d : String × DbCfg V) (post : List (String × DbCfg V))
    (he : items = pre ++ d :: post) : (localsAt Locals.start pre d.2).Idle := by
  have hd := h pre d post he
  have hpre : lastOf oidcBody pre = none := by
    refine (lastOf_eq_none pre).mpr fun e hmem => ?_
    obtain ⟨a, b, hab⟩ := List.append_of_mem hmem
    have ho := (h a e (b ++ d :: post) (by rw [he, hab]; simp)).oidc
    simp [oidcBody, ho]
  rw [localsAt_start]
  refine ⟨?_, hd.roles, hd.users⟩
  simp [oidcBody, hd.oidc, hpre]

/-- Only `d` online: what it is sent is sent by `createPrincipals`, after its create. -/
theorem reach_of_split {c : PyDict String (DbCfg V)} {pre : List (String × DbCfg V)}
    {d : String × DbCfg V} {post : List (String × DbCfg V)} (he : c.items = pre ++ d :: post) :
    ∃ h cfg,
      (∀ e ∈ ((createPrincipals d.1 (localsAt Locals.start pre d.2)).log
        (okReply fun db => db == d.1) h).1, e ∈ history (okReply fun db => db == d.1) c) ∧
      (⟨.createDb d.1 cfg, .ok ()⟩ : Event (sig V)) ∈ history (okReply fun db => db == d.1) c := by
  have hd := c.nodup
  rw [he, List.map_append, List.map_cons] at hd
  have hoff : ∀ e ∈ pre, (e.1 == d.1) = false := by
    intro e hmem
    have hne : e.1 ≠ d.1 :=
      (List.nodup_append.mp hd).2.2 e.1 (List.mem_map_of_mem hmem) d.1 (by simp)
    simpa using hne
  obtain ⟨h', cfg, hsub⟩ := history_reach (fun db => db == d.1) c pre d post he hoff
  rw [pushDb_online _ (by simp)] at hsub
  refine ⟨_, cfg, hsub, hsub _ (Proc.mem_log _ ?_)⟩
  simp [infoEvents, saveEvents]

section Uniform

variable {n : Nat} {c : PyDict String (DbCfg V)} (hn : 2 ≤ n) (hu : Uniform Serves n c.items)
  {pre : List (String × DbCfg V)} {d : String × DbCfg V} {post : List (String × DbCfg V)}
  (he : c.items = pre ++ d :: post)

include hn hu he

/-- Everything offline: the second update of `d` would be the difference. -/
theorem oidc_of_uniform : d.2.oidc = none := by
  cases ho : d.2.oidc with
  | none => rfl
  | some v =>
    exfalso
    obtain ⟨h', cfg, hsub⟩ := history_reach (fun _ => false) c pre d post he fun _ _ => rfl
    rw [localsAt_start, pushDb_offline _ rfl] at hsub
    have hb : (oidcBody d.2).or (lastOf oidcBody pre) = some (ownSettings d.2) := by
      simp [oidcBody, ho]
    refine not_uniform (fun _ => false) hn (hsub ⟨.putDbConfig d.1 (ownSettings d.2), .ok ()⟩ ?_)
      rfl ?_ hu
    · simp [infoEvents, saveEvents, hb]
    · intro _ _ _ db cfg hq
      cases hq

theorem complete_of_uniform :
    Complete (localsAt Locals.start pre d.2).rolesCfg (localsAt Locals.start pre d.2).usersCfg := by
  by_contra hnot
  obtain ⟨_, cfg, -, hcreate⟩ := reach_of_split he
  refine not_uniform _ hn hcreate rfl ?_ hu
  intro h rest hlog
  exact absurd (complete_of_returns _ hlog he (by simp)) hnot

theorem nothingToSend_of_uniform : NothingToSend pre d.2 := by
  obtain ⟨_, _, hsub, -⟩ := reach_of_split he
  have hcomp := complete_of_uniform hn hu he
  rw [localsAt_start] at hsub hcomp
  refine ⟨oidc_of_uniform hn hu he, ?_, ?_⟩
  · by_contra hne
    obtain ⟨⟨name, role⟩, hmem⟩ := List.exists_mem_of_ne_nil _ hne
    have hsent : (name, role) ∈ sentRoles (d.2.roles.or (lastOf DbCfg.roles pre)) := by
      rw [sentRoles, List.takeWhile_eq_self_iff.mpr (List.all_eq_true.mp hcomp.1)]
      exact hmem
    obtain ⟨e, hev, ch, hq⟩ := createPrincipals_role (fun db => db == d.1) d.1 ⟨_, _, _⟩ _ hsent
    refine not_uniform _ hn (hsub e hev) (by rw [hq]; rfl) ?_ hu
    intro _ _ _ db cfg hq'
    rw [hq] at hq'
    cases hq'
  · by_contra hne
    obtain ⟨⟨name, user⟩, hmem⟩ := List.exists_mem_of_ne_nil _ hne
    have hsent : (name, user) ∈ sentUsers (d.2.roles.or (lastOf DbCfg.roles pre))
        (d.2.users.or (lastOf DbCfg.users pre)) := by
      rw [sentUsers, if_pos hcomp.1,
        List.takeWhile_eq_self_iff.mpr (List.all_eq_true.mp hcomp.2)]
      exact hmem
    obtain ⟨e, hev, pw, ch, ro, hq, -⟩ :=
      createPrincipals_user (fun db => db == d.1) d.1 ⟨_, _, _⟩ _ hsent
    refine not_uniform _ hn (hsub e hev) (by rw [hq]; rfl) ?_ hu
    intro _ _ _ db cfg hq'
    rw [hq] at hq'
    cases hq'

end Uniform

/-! ## Gateways that answer anything -/

theorem calls_notPush {q : Call V} (hq : Call.isPush q = false) :
    (ask q).Calls fun e => Call.isPush e.q = false :=
  calls_ask q fun _ => hq

theorem deleteDbs_notPush (names dbs : List String) :
    (deleteDbs (V := V) names dbs).Calls fun e => Call.isPush e.q = false := by
  induction dbs with
  | nil => trivial
  | cons db rest ih =>
    refine Proc.calls_bind ?_ fun _ _ => ih
    split
    · trivial
    · exact calls_notPush rfl

/-- With no database configured, databases are only deleted. -/
theorem pushGateway_nil_calls :
    (pushGateway (V := V) []).Calls fun e => Call.isPush e.q = false := by
  refine Proc.calls_bind ?_ fun _ _ => Proc.calls_bind trivial fun _ _ =>
    Proc.calls_bind (calls_notPush rfl) fun _ _ => trivial
  refine Proc.calls_bind (calls_notPush rfl) fun dbList _ => ?_
  refine Proc.calls_bind (deleteDbs_notPush [] dbList) fun _ _ => ?_
  exact Proc.calls_bind (calls_notPush rfl) fun _ _ => trivial

theorem send_nil (gws : List (Replies (sig V))) :
    ∀ h ∈ (sendDbconfigAsRestCall gws []).1, pushes h = [] := by
  induction gws with
  | nil => simp [sendDbconfigAsRestCall]
  | cons reply rest ih =>
    obtain ⟨new, hnew, hcalls⟩ := Proc.calls_log reply pushGateway_nil_calls []
    have hfirst : pushes new = [] := by
      refine List.filter_eq_nil_iff.mpr fun q hq => ?_
      obtain ⟨e, he, rfl⟩ := List.mem_map.mp hq
      simp [hcalls e he]
    rw [sendDbconfigAsRestCall]
    split
    · rename_i h config hlog
      rw [hlog] at hnew
      obtain rfl := pushGateway_result (Proc.canReturn_of_log reply hlog)
      rintro h' (_ | ⟨_, hmem⟩)
      · rw [show h = new from hnew, hfirst]
      · exact ih h' hmem
    · rename_i h x hlog
      rw [hlog] at hnew
      rintro h' (_ | ⟨_, hmem⟩)
      · rw [show h = new from hnew, hfirst]
      · obtain ⟨_, -, rfl⟩ := List.mem_map.mp hmem
        rfl

theorem uniform_nil (A : Replies (sig V) → Prop) (n : Nat) : Uniform A n [] := by
  intro reply _ first rest hres h hmem
  have hnone := send_nil (List.replicate n reply)
  rw [hres] at hnone
  rw [hnone h (List.mem_cons_of_mem _ hmem), hnone first List.mem_cons_self]

/-- No database there, and no connection once one is created. -/
def lostReply : Replies (sig V) := fun h q =>
  match q with
  | .createDb _ _ => .error .other
  | q => okReply (fun _ => true) h q

theorem items_nil_of_uniform {n : Nat} (hn : 2 ≤ n) {items : List (String × DbCfg V)}
    (hu : Uniform (fun _ => True) n items) : items = [] := by
  cases items with
  | nil => rfl
  | cons d rest =>
    obtain ⟨m, rfl⟩ : ∃ m, n = m + 2 := ⟨n - 2, by omega⟩
    have hsame := hu lostReply trivial _ _ rfl [] (by simp [List.replicate_succ])
    cases hsame

/-- One database with one user. -/
def oneUser : PyDict String (DbCfg String) where
  items := [("db1", { bucketOnly "b1" with
    users := some ⟨[("alice", ⟨some "pass", some "[\"ABC\"]", none⟩)], by decide⟩ })]
  nodup := by decide

end MobileTestkit.L4.DbConfig
