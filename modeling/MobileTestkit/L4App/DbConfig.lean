import MobileTestkit.Core.CallLog
import MobileTestkit.Core.PyDict

/-!
# Pushing a database configuration

Model of `send_dbconfig_as_restCall` (libraries/testkit/syncgateway.py): for
every sync gateway, delete the databases that are not configured, then create
or update each configured one, and give it its roles and users.

The configuration of a database is a dictionary; the keys the function looks at
are fields, an absent key is `none`, and `settings` are all the others. `V` are
the JSON values. The function deletes keys from the dictionaries it was given,
so the program returns the configuration it leaves behind, and the next gateway
starts from that. `roles_exist`, `users_exist` and `oidc_exist` are set together
with `roles_cfg`, `users_cfg` and `orig_sgw_db_config`, so each pair is one
`Option` (`Locals`). The credentials put on `sgw.admin`, and the ip that
`register_user` keeps for the `User` it returns, are left out: no request body
has them.
-/
namespace MobileTestkit.L4.DbConfig

open MobileTestkit.Core

inductive Exn where
  | httpError
  | keyError (key : String)
  | other
  deriving DecidableEq, Repr

/-- An entry of `roles`. -/
structure RoleCfg (V : Type) where
  adminChannels : Option V

/-- An entry of `users`. -/
structure UserCfg (V : Type) where
  password : Option V
  adminChannels : Option V
  adminRoles : Option V

structure DbCfg (V : Type) where
  server : Option V
  username : Option V
  password : Option V
  caCertPath : Option V
  x509KeyPath : Option V
  x509CertPath : Option V
  roles : Option (PyDict String (RoleCfg V))
  users : Option (PyDict String (UserCfg V))
  oidc : Option V
  settings : PyDict String V

/-- The `Admin` methods; `roles` of a `registerUser` is `none` when the argument
is not passed. -/
inductive Call (V : Type) where
  | getDbs
  | deleteDb (db : String)
  | createDb (db : String) (config : DbCfg V)
  | putDbConfig (db : String) (config : DbCfg V)
  | getDbInfo (db : String)
  | createRole (db name : String) (channels : V)
  | registerUser (db name : String) (password : Option V) (channels : V) (roles : Option V)

variable {V : Type}

/-- The database a call is about. -/
def Call.db? : Call V → Option String
  | .getDbs => none
  | .deleteDb db => some db
  | .createDb db _ => some db
  | .putDbConfig db _ => some db
  | .getDbInfo db => some db
  | .createRole db _ _ => some db
  | .registerUser db _ _ _ _ => some db

/-- What a call returns; of the database info only `state` is read. -/
@[reducible] def Returned : Call V → Type
  | .getDbs => List String
  | .getDbInfo _ => Option String
  | _ => Unit

@[reducible] def sig (V : Type) : Sig where
  Q := Call V
  A q := Except Exn (Returned q)
  V := Empty
  X := Exn

abbrev Prog (V α : Type) := Proc (sig V) α

/-- One request; what it raises is raised. -/
def ask (q : Call V) : Prog V (Returned q) :=
  .call q fun a => match a with
    | .ok v => .ret v
    | .error x => .raise x

/-- `cfg[key]` -/
def need {α : Type} (key : String) : Option α → Prog V α
  | some v => .ret v
  | none => .raise (.keyError key)

/-! ## The function -/

/-- The variables the loop over the databases shares. -/
structure Locals (V : Type) where
  rolesCfg : Option (PyDict String (RoleCfg V))
  usersCfg : Option (PyDict String (UserCfg V))
  origConfig : Option (DbCfg V)

def Locals.start : Locals V := ⟨none, none, none⟩

/-- mirrors libraries/testkit/syncgateway.py:1136-1147 -/
def deleteConnection (cfg : DbCfg V) : DbCfg V :=
  { cfg with server := none, username := none, password := none, caCertPath := none
             x509KeyPath := none, x509CertPath := none }

/-- What is left of the database's dictionary, and the variables.
mirrors libraries/testkit/syncgateway.py:1136-1160 -/
def prepare (cfg : DbCfg V) (l : Locals V) : DbCfg V × Locals V :=
  let cfg := deleteConnection cfg
  let l := { l with rolesCfg := cfg.roles.or l.rolesCfg, usersCfg := cfg.users.or l.usersCfg }
  let cfg := { cfg with roles := none, users := none }
  match cfg.oidc with
  | some _ => ({ cfg with oidc := none }, { l with origConfig := some cfg })
  | none => (cfg, l)

/-- `except HTTPError: p` -/
def onHttpError (p : Prog V Unit) : Exn → Prog V Unit
  | .httpError => p
  | x => .raise x

/-- `except KeyError: p` -/
def onKeyError (p : Prog V Unit) : Exn → Prog V Unit
  | .keyError _ => p
  | x => .raise x

/-- mirrors libraries/testkit/syncgateway.py:1161-1164 -/
def createOrPut (db : String) (cfg : DbCfg V) : Prog V Unit :=
  (ask (.createDb db cfg)).tryCatch (onHttpError (ask (.putDbConfig db cfg)))

/-- mirrors libraries/testkit/syncgateway.py:1161-1166 -/
def saveConfig (db : String) (cfg : DbCfg V) (origConfig : Option (DbCfg V)) : Prog V Unit :=
  (createOrPut db cfg).bind fun _ =>
  match origConfig with
  | some orig => ask (.putDbConfig db orig)
  | none => .ret ()

/-- mirrors libraries/testkit/syncgateway.py:1169-1171 -/
def createRoles (db : String) : List (String × RoleCfg V) → Prog V Unit
  | [] => .ret ()
  | (role, cfg) :: rest =>
    (need "admin_channels" cfg.adminChannels).bind fun channels =>
    (ask (.createRole db role channels)).bind fun _ =>
    createRoles db rest

/-- mirrors libraries/testkit/syncgateway.py:1175 -/
def registerWithRoles (db user : String) (cfg : UserCfg V) : Prog V Unit :=
  (need "password" cfg.password).bind fun password =>
  (need "admin_channels" cfg.adminChannels).bind fun channels =>
  (need "admin_roles" cfg.adminRoles).bind fun roles =>
  ask (.registerUser db user (some password) channels (some roles))

/-- The `try` covers the request as well as the reading of the keys.
mirrors libraries/testkit/syncgateway.py:1177-1182 -/
def registerPlain (db user : String) (cfg : UserCfg V) : Prog V Unit :=
  ((need "password" cfg.password).bind fun password =>
    (need "admin_channels" cfg.adminChannels).bind fun channels =>
    ask (.registerUser db user (some password) channels none)).tryCatch <| onKeyError <|
  (need "admin_channels" cfg.adminChannels).bind fun channels =>
  ask (.registerUser db user none channels none)

/-- mirrors libraries/testkit/syncgateway.py:1172-1182 -/
def registerUsers (db : String) (rolesExist : Bool) : List (String × UserCfg V) → Prog V Unit
  | [] => .ret ()
  | (user, cfg) :: rest =>
    (if rolesExist then registerWithRoles db user cfg else registerPlain db user cfg).bind fun _ =>
    registerUsers db rolesExist rest

/-- What the loop over a section goes through, if the section exists. -/
def itemsOf {α : Type} (cfg : Option (PyDict String α)) : List (String × α) :=
  cfg.elim [] PyDict.items

/-- mirrors libraries/testkit/syncgateway.py:1169-1182 -/
def createPrincipals (db : String) (l : Locals V) : Prog V Unit :=
  (createRoles db (itemsOf l.rolesCfg)).bind fun _ =>
  registerUsers db l.rolesCfg.isSome (itemsOf l.usersCfg)

/-- The requests for one database.
mirrors libraries/testkit/syncgateway.py:1161-1182 -/
def pushDb (db : String) (cfg : DbCfg V) (l : Locals V) : Prog V Unit :=
  (saveConfig db cfg l.origConfig).bind fun _ =>
  (ask (.getDbInfo db)).bind fun state =>
  (need "state" state).bind fun state =>
  if state = "Online" then createPrincipals db l else .ret ()

/-- The loop over the databases; returns what is left of them.
mirrors libraries/testkit/syncgateway.py:1134-1182 -/
def pushDbs (l : Locals V) : List (String × DbCfg V) → Prog V (List (String × DbCfg V))
  | [] => .ret []
  | (db, cfg) :: rest =>
    let p := prepare cfg l
    (pushDb db p.1 p.2).bind fun _ =>
    (pushDbs p.2 rest).bind fun rest => .ret ((db, p.1) :: rest)

/-- mirrors libraries/testkit/syncgateway.py:1130-1132 -/
def deleteDbs (names : List String) : List String → Prog V Unit
  | [] => .ret ()
  | db :: rest =>
    (if db ∈ names then .ret () else ask (.deleteDb db)).bind fun _ => deleteDbs names rest

/-- mirrors libraries/testkit/syncgateway.py:1129-1133 -/
def deleteOtherDbs (names : List String) : Prog V Unit :=
  (ask .getDbs).bind fun dbList =>
  (deleteDbs names dbList).bind fun _ =>
  (ask .getDbs).bind fun _ => .ret ()

/-- One round of the loop over the gateways.
mirrors libraries/testkit/syncgateway.py:1122-1187 -/
def pushGateway (config : List (String × DbCfg V)) : Prog V (List (String × DbCfg V)) :=
  (deleteOtherDbs (config.map Prod.fst)).bind fun _ =>
  (pushDbs Locals.start config).bind fun config =>
  (ask .getDbs).bind fun _ => .ret config

/-- The conversations with the gateways, each with its own way of answering, in
order. A gateway after one that raised is not asked anything.
mirrors libraries/testkit/syncgateway.py:1117-1187 -/
def sendDbconfigAsRestCall : List (Replies (sig V)) → List (String × DbCfg V) →
    List (List (Event (sig V))) × Except Exn Unit
  | [], _ => ([], .ok ())
  | reply :: rest, config =>
    match (pushGateway config).log reply [] with
    | (h, .ok config) =>
      let r := sendDbconfigAsRestCall rest config
      (h :: r.1, r.2)
    | (h, .error x) => (h :: rest.map fun _ => [], .error x)

end MobileTestkit.L4.DbConfig
