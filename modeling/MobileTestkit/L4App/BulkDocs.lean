import MobileTestkit.Core.PyJson
import MobileTestkit.L4App.DocsDeleted

/-!
# Posting documents in bulk

Model of `create_doc` and `create_docs` (keywords/document.py), of `load_from_data_dir`
(keywords/attachment.py) and of `MobileRestClient.add_bulk_docs`
(keywords/MobileRestClient.py), up to what is posted and what the answer means. The service
is the function `get`, its answers to a GET of its url.

An attachment's data are bytes, the Base64 of a file. The three branches of
`add_bulk_docs` serialise the documents by themselves; only the one for a session gives
`json.dumps` an encoder for bytes. Before that the type of the server is asked for, with
`auth[0]` and `auth[1]`, which an `HTTPBasicAuth` does not have. Calls of generators are
numbered; `verify_is_list` and `verify_is_callable` are the types of the arguments.

* `createDoc_allBytes_iff`: the bytes in a document are the data of its attachments.
* `bulkRequest_same_iff`: the three kinds of authentication post the same, exactly if no
  document has attachments and the basic one is a tuple.
* `bulkRequest_session`: a session posts attachments too.
-/
namespace MobileTestkit.L4.BulkDocs

open MobileTestkit.Core
open MobileTestkit.L4.DocsDeleted (ServerType Root)

inductive Exn where
  | typeError
  | unicodeDecodeError
  | httpError
  /-- What `get_server_type` makes of an answer it does not know. -/
  | serverType (x : DocsDeleted.Exn)
  | restError (message : String)
  deriving DecidableEq, Repr

/-! ## Attachments -/

structure Attachment where
  name : String
  data : List UInt8

def base64Alphabet : List Char :=
  "ABCDEFGHIJKLMNOPQRSTUVWXYZabcdefghijklmnopqrstuvwxyz0123456789+/".toList

/-- The character for six bits. -/
def base64Digit (n : Nat) : UInt8 := UInt8.ofNat (base64Alphabet.getD (n % 64) '=').toNat

/-- `base64.standard_b64encode`. -/
def standardB64encode : List UInt8 → List UInt8
  | [] => []
  | [a] => [base64Digit (a.toNat / 4), base64Digit (a.toNat % 4 * 16), 61, 61]
  | [a, b] => [base64Digit (a.toNat / 4), base64Digit (a.toNat % 4 * 16 + b.toNat / 16),
      base64Digit (b.toNat % 16 * 4), 61]
  | a :: b :: c :: rest =>
    base64Digit (a.toNat / 4) :: base64Digit (a.toNat % 4 * 16 + b.toNat / 16) ::
      base64Digit (b.toNat % 16 * 4 + c.toNat / 64) :: base64Digit c.toNat :: standardB64encode rest

/-- The attachments in the files with the names; `read` is the text of a file in
the data directory, by its name.
mirrors keywords/attachment.py:75-86 -/
def loadFromDataDir (read : String → String) (names : List String) : List Attachment :=
  names.map fun name => ⟨name, standardB64encode (read name).toUTF8.toList⟩

/-! ## Documents -/

abbrev Dict := PyDict String PyValue

/-- The arguments that `create_docs` hands on to `create_doc`; `propGenerator i` is what call
`i` of the generator returns. -/
structure DocArgs where
  content : Option JsonValue := none
  expiry : Option JsonValue := none
  channels : Option (List JsonValue) := none
  propGenerator : Option (Nat → JsonValue.Members) := none
  nonSgw : Bool := false

/-- `{att.name: {"data": att.data} for att in attachments}`. -/
def attachmentsValue (attachments : List Attachment) : PyValue :=
  .dict (PyDict.ofList (attachments.map fun att =>
    (att.name, PyValue.dict [("data", .bytes att.data)]))).items

def setSome (key : String) (value : Option PyValue) (doc : Dict) : Dict :=
  match value with
  | none => doc
  | some value => doc.set key value

/-- mirrors keywords/document.py:82-126 -/
def createDoc (args : DocArgs) (i : Nat) (docId : Option String)
    (attachments : Option (List Attachment)) : Dict :=
  let attachments := attachments.getD []
  let doc : Dict := setSome (if args.nonSgw then "id" else "_id") (docId.map .str) .empty
  let doc := setSome "_exp" (args.expiry.map .ofJson) doc
  let doc := setSome "content" (args.content.map .ofJson) doc
  let doc := doc.set "channels" (.ofJson (.arr (args.channels.getD [])))
  let doc := if attachments ≠ [] then doc.set "_attachments" (attachmentsValue attachments) else doc
  match args.propGenerator with
  | none => doc
  | some propGenerator => (propGenerator i).foldl (fun doc kv => doc.set kv.1 (.ofJson kv.2)) doc

/-- mirrors keywords/document.py:129-164 -/
def createDocs (args : DocArgs) (uuid : Nat → String) (docIdPrefix : Option String) (number : Int)
    (attachmentsGenerator : Option (Nat → List Attachment)) : List Dict :=
  (List.range number.toNat).map fun i =>
    let docId := match docIdPrefix with
      | none => uuid i
      | some docIdPrefix => docIdPrefix ++ "_" ++ toString i
    createDoc args i (some docId) (attachmentsGenerator.map fun generator => generator i)

/-! ## The request -/

/-- The argument `auth`: nothing, a tuple, or an `HTTPBasicAuth`. -/
inductive Auth where
  | none
  | tuple (first second : String)
  | httpBasicAuth (user password : String)
  deriving DecidableEq, Repr

inductive AuthType where
  | httpBasic | session | none
  deriving DecidableEq, Repr

def rbacFullAdminUser : String := "Administrator"

/-- mirrors keywords/MobileRestClient.py:69-82 -/
def getAuthType : Auth → AuthType × Auth
  | .none => (.none, .none)
  | .tuple first second =>
    if first = "SyncGatewaySession" then (.session, .tuple first second)
    else (.httpBasic,
      if first = rbacFullAdminUser then .httpBasicAuth first second else .tuple first second)
  | .httpBasicAuth user password => (.httpBasic, .httpBasicAuth user password)

/-- The service's answers to a GET of its url, by the credentials sent with it. -/
abbrev Service := Option (String × String) → Except Exn Root

/-- An `HTTPBasicAuth` has no `auth[0]`.
mirrors keywords/MobileRestClient.py:119-148 -/
def getServerType (get : Service) (auth : Auth) : Except Exn ServerType := do
  let root ← match auth with
    | .none => get none
    | .tuple first second => get (some (first, second))
    | .httpBasicAuth _ _ => .error .typeError
  (DocsDeleted.getServerType root).mapError .serverType

structure Request where
  url : String
  body : List Char
  cookie : Option String
  auth : Option Auth

/-- The encoder of `json.dumps` when no class is given. -/
def jsonEncoder (_ : List UInt8) : Except Exn String := .error .typeError

/-- mirrors keywords/MobileRestClient.py:85-90 -/
def myEncoder (obj : List UInt8) : Except Exn String :=
  if obj.all (· < 128) then .ok (String.ofList (obj.map fun b => Char.ofNat b.toNat))
  else .error .unicodeDecodeError

/-- What is posted as documents.
mirrors keywords/MobileRestClient.py:1546-1549 -/
def requestBody (serverType : ServerType) (docs : List Dict) : PyValue :=
  let docs : PyValue := .list (docs.map fun doc => .dict doc.items)
  match serverType with
  | .listener => .dict [("docs", docs), ("new_edits", .bool true)]
  | .syncgateway => .dict [("docs", docs)]

/-- mirrors keywords/MobileRestClient.py:1551-1553 -/
def keyspace (db : String) (scope collection : Option String) : Except Exn String :=
  match scope, collection with
  | none, _ => .ok db
  | some scope, some collection => .ok (db ++ "." ++ scope ++ "." ++ collection)
  | some _, none => .error .typeError

section Client
variable (floatRepr : PyFloat → List Char) (get : Service) (url db : String)

/-- The request that `add_bulk_docs` sends.
mirrors keywords/MobileRestClient.py:1542-1561 -/
def bulkRequest (docs : List Dict) (auth : Auth) (scope collection : Option String) :
    Except Exn Request := do
  let serverType ← getServerType get auth
  let keyspace ← keyspace db scope collection
  let endpoint := url ++ "/" ++ keyspace ++ "/_bulk_docs"
  let body := requestBody serverType docs
  match getAuthType auth with
  | (.session, auth) =>
    let data ← body.encode floatRepr myEncoder
    let cookie := match auth with
      | .tuple _ second => some second
      | _ => none
    return ⟨endpoint, data, cookie, none⟩
  | (.httpBasic, auth) =>
    let data ← body.encode floatRepr jsonEncoder
    return ⟨endpoint, data, none, some auth⟩
  | (.none, _) =>
    let data ← body.encode floatRepr jsonEncoder
    return ⟨endpoint, data, none, none⟩

/-- What is answered for a document. -/
structure DocResp where
  error : Option String
  deriving DecidableEq, Repr

/-- mirrors keywords/MobileRestClient.py:1537-1571 -/
def addBulkDocs (post : Request → Except Exn (List DocResp)) (docs : List Dict) (auth : Auth)
    (scope collection : Option String) : Except Exn (List DocResp) := do
  let request ← bulkRequest floatRepr get url db docs auth scope collection
  let resp ← post request
  if resp.any fun docResp => docResp.error.isSome then .error (.restError "Error while adding bulk docs!")
  else return resp

end Client

/-! ## The bytes in documents -/

section Bytes
variable {p : List UInt8 → Bool}

/-- The bytes in the values satisfy `p`, but for the values of `keys`. -/
def AllBut (p : List UInt8 → Bool) (keys : List String) (doc : Dict) : Prop :=
  ∀ k v, k ∉ keys → doc.get? k = some v → v.allBytes p = true

theorem allBut_set {keys : List String} {k : String} {v : PyValue} {doc : Dict} (h : AllBut p keys doc)
    (hv : k ∉ keys → v.allBytes p = true) : AllBut p keys (doc.set k v) := by
  intro k' v' hk' hget
  rw [PyDict.get?_set] at hget
  split at hget
  · rename_i heq
    obtain rfl := Option.some.inj hget
    exact hv (heq ▸ hk')
  · exact h k' v' hk' hget

theorem allBut_setSome {keys : List String} {k : String} {v : Option PyValue} {doc : Dict}
    (h : AllBut p keys doc) (hv : ∀ w, v = some w → w.allBytes p = true) :
    AllBut p keys (setSome k v doc) := by
  cases v with
  | none => exact h
  | some w => exact allBut_set h fun _ => hv w rfl

theorem allBytes_map_ofJson {o : Option JsonValue} {w : PyValue} (h : o.map .ofJson = some w) :
    w.allBytes p = true := by
  obtain ⟨v, -, rfl⟩ := Option.map_eq_some_iff.mp h
  exact PyValue.allBytes_ofJson p v

theorem allBytes_dict_iff {key : String} {doc : Dict} (h : AllBut p [key] doc) :
    (PyValue.dict doc.items).allBytes p = true ↔ ∀ v, doc.get? key = some v → v.allBytes p = true := by
  rw [PyValue.allBytes_dict]
  constructor
  · exact fun hall v hget => hall (key, v) ((PyDict.mem_items_iff doc key v).mpr hget)
  · rintro hkey ⟨k, v⟩ hkv
    have hget := (PyDict.mem_items_iff doc k v).mp hkv
    by_cases hk : k = key
    · exact hkey v (hk ▸ hget)
    · exact h k v (fun h => hk (List.mem_singleton.mp h)) hget

/-- The properties of a generator are JSON values; the last one of a key counts. -/
theorem props_spec {key : String} (props : JsonValue.Members) {doc : Dict} (h : AllBut p [key] doc) :
    AllBut p [key] (props.foldl (fun doc kv => doc.set kv.1 (.ofJson kv.2)) doc) ∧
      (key ∉ props.map Prod.fst →
        (props.foldl (fun doc kv => doc.set kv.1 (.ofJson kv.2)) doc).get? key = doc.get? key) ∧
      (key ∈ props.map Prod.fst → ∀ v,
        (props.foldl (fun doc kv => doc.set kv.1 (.ofJson kv.2)) doc).get? key = some v →
          v.allBytes p = true) := by
  induction props generalizing doc with
  | nil => exact ⟨h, fun _ => rfl, fun hmem => absurd hmem List.not_mem_nil⟩
  | cons kv props ih =>
    obtain ⟨hplain, hout, hin⟩ := ih (allBut_set (k := kv.1) h fun _ => PyValue.allBytes_ofJson p kv.2)
    refine ⟨hplain, fun hnot => ?_, fun hmem v hget => ?_⟩
    · rw [List.map_cons, List.mem_cons, not_or] at hnot
      rw [List.foldl_cons, hout hnot.2, PyDict.get?_set, if_neg hnot.1]
    · by_cases hrest : key ∈ props.map Prod.fst
      · exact hin hrest v hget
      · -- the first of the properties is the last one of the key
        have hkey : key = kv.1 := by
          rw [List.map_cons, List.mem_cons] at hmem
          exact hmem.resolve_right hrest
        rw [List.foldl_cons, hout hrest, PyDict.get?_set, if_pos hkey] at hget
        exact Option.some.inj hget ▸ PyValue.allBytes_ofJson p kv.2

/-- A document before its properties are put in. -/
theorem allBut_setChannels (args : DocArgs) (docId : Option String) :
    AllBut p [] ((setSome "content" (args.content.map .ofJson) (setSome "_exp" (args.expiry.map .ofJson)
      (setSome (if args.nonSgw then "id" else "_id") (docId.map .str) .empty))).set "channels"
        (.ofJson (.arr (args.channels.getD [])))) := by
  have hempty : AllBut p [] (PyDict.empty : Dict) := fun k v _ hget => nomatch hget
  have hid := allBut_setSome (k := if args.nonSgw then "id" else "_id") (v := docId.map .str) hempty (by
    intro w hw
    obtain ⟨id, -, rfl⟩ := Option.map_eq_some_iff.mp hw
    rfl)
  exact allBut_set (allBut_setSome (allBut_setSome hid fun _ => allBytes_map_ofJson) fun _ =>
    allBytes_map_ofJson) fun _ => PyValue.allBytes_ofJson p _

/-- The bytes in a document are the data of its attachments, unless a property generator has
put something else in their place. -/
theorem createDoc_allBytes_iff (args : DocArgs) (i : Nat) (docId : Option String)
    (attachments : Option (List Attachment)) :
    (PyValue.dict (createDoc args i docId attachments).items).allBytes p = true ↔
      (attachmentsValue (attachments.getD [])).allBytes p = true ∨
        ∃ f, args.propGenerator = some f ∧ "_attachments" ∈ (f i).map Prod.fst := by
  have hplain := allBut_setChannels (p := p) args docId
  rw [createDoc]
  generalize (setSome "content" _ _).set "channels" _ = doc at hplain
  have hdoc : AllBut p ["_attachments"] doc := fun k v _ => hplain k v List.not_mem_nil
  -- before the properties, the bytes are those of the attachments
  have hvalue : AllBut p ["_attachments"] (if attachments.getD [] ≠ [] then
        doc.set "_attachments" (attachmentsValue (attachments.getD [])) else doc) ∧
      ((∀ v, (if attachments.getD [] ≠ [] then
            doc.set "_attachments" (attachmentsValue (attachments.getD []))
          else doc).get? "_attachments" = some v →
        v.allBytes p = true) ↔ (attachmentsValue (attachments.getD [])).allBytes p = true) := by
    by_cases hatt : attachments.getD [] = []
    · rw [if_neg (not_not.mpr hatt), hatt]
      exact ⟨hdoc, fun _ => rfl, fun _ v => hplain _ v List.not_mem_nil⟩
    · rw [if_pos hatt]
      refine ⟨allBut_set hdoc fun hnot => absurd (List.mem_singleton_self _) hnot, ?_⟩
      simp only [PyDict.get?_set, ite_true, Option.some.injEq, forall_eq']
  obtain ⟨hbut, hvalue⟩ := hvalue
  cases hprop : args.propGenerator with
  | none => simp only [allBytes_dict_iff hbut, hvalue, reduceCtorEq, false_and, exists_const, or_false]
  | some f =>
    obtain ⟨hbut', hout, hin⟩ := props_spec (f i) hbut
    simp only [Option.some.injEq, exists_eq_left']
    rw [allBytes_dict_iff hbut']
    by_cases hmem : "_attachments" ∈ (f i).map Prod.fst
    · exact ⟨fun _ => .inr hmem, fun _ => hin hmem⟩
    · rw [hout hmem, hvalue]
      exact ⟨.inl, fun h => h.resolve_right hmem⟩

theorem requestBody_allBytes_iff (serverType : ServerType) (docs : List Dict) :
    (requestBody serverType docs).allBytes p = true ↔
      ∀ doc ∈ docs, (PyValue.dict doc.items).allBytes p = true := by
  have hdocs : (PyValue.list (docs.map fun doc => .dict doc.items)).allBytes p = true ↔
      ∀ doc ∈ docs, (PyValue.dict doc.items).allBytes p = true := by
    rw [PyValue.allBytes_list, List.forall_mem_map]
  rw [← hdocs]
  cases serverType with
  | listener =>
    rw [requestBody, PyValue.allBytes_dict]
    simp only [List.forall_mem_cons, List.not_mem_nil, false_implies, implies_true, and_true]
    exact and_iff_left rfl
  | syncgateway => rw [requestBody, PyValue.allBytes_dict, List.forall_mem_singleton]

theorem createDocs_allBytes_iff (args : DocArgs) (uuid : Nat → String) (docIdPrefix : Option String)
    (number : Int) (attachmentsGenerator : Option (Nat → List Attachment)) :
    (∀ doc ∈ createDocs args uuid docIdPrefix number attachmentsGenerator,
        (PyValue.dict doc.items).allBytes p = true) ↔
      ∀ i < number.toNat,
        (attachmentsValue
            ((attachmentsGenerator.map fun generator => generator i).getD [])).allBytes p = true ∨
          ∃ f, args.propGenerator = some f ∧ "_attachments" ∈ (f i).map Prod.fst := by
  simp only [createDocs, List.forall_mem_map, List.mem_range, createDoc_allBytes_iff]

end Bytes

theorem ofList_items_ne_nil {l : List (String × PyValue)} (h : l ≠ []) : (PyDict.ofList l).items ≠ [] := by
  have hfold : ∀ (l : List (String × PyValue)) (d : Dict), d.items ≠ [] →
      (l.foldl (fun d kv => d.set kv.1 kv.2) d).items ≠ [] := by
    intro l
    induction l with
    | nil => exact fun d hd => hd
    | cons kv l ih =>
      refine fun d hd => ih _ ?_
      obtain ⟨x, xs, hx⟩ := List.exists_cons_of_ne_nil hd
      simp only [PyDict.set, hx, PyDict.setItems]
      split <;> simp
  cases l with
  | nil => exact absurd rfl h
  | cons kv l => exact hfold l _ (by simp [PyDict.set, PyDict.empty, PyDict.setItems])

theorem attachmentsValue_noBytes_iff (attachments : List Attachment) :
    (attachmentsValue attachments).noBytes = true ↔ attachments = [] := by
  constructor
  · intro hall
    by_contra hne
    rw [attachmentsValue, PyValue.noBytes, PyValue.allBytes_dict] at hall
    obtain ⟨kv, hkv⟩ := List.exists_mem_of_ne_nil _ (ofList_items_ne_nil (l := attachments.map fun att =>
      (att.name, PyValue.dict [("data", .bytes att.data)])) (by simpa using hne))
    obtain ⟨att, -, rfl⟩ := List.mem_map.mp (PyDict.mem_of_mem_ofList hkv)
    have hdata := hall _ hkv
    rw [PyValue.allBytes_dict] at hdata
    exact Bool.false_ne_true (hdata _ List.mem_cons_self)
  · rintro rfl
    rfl

/-! ## Base64 is ASCII -/

def ascii (bs : List UInt8) : Bool := bs.all (· < 128)

theorem base64Digit_lt (n : Nat) : base64Digit n < 128 := by
  have hall : ∀ m < 64, UInt8.ofNat (base64Alphabet.getD m '=').toNat < 128 := by decide +kernel
  exact hall (n % 64) (Nat.mod_lt n (by decide))

theorem ascii_standardB64encode (bs : List UInt8) : ascii (standardB64encode bs) = true := by
  induction bs using standardB64encode.induct with
  | case1 => rfl
  | case2 a => simp [standardB64encode, ascii, base64Digit_lt]
  | case3 a b => simp [standardB64encode, ascii, base64Digit_lt]
  | case4 a b c rest ih =>
    rw [ascii] at ih
    simp [standardB64encode, ascii, base64Digit_lt, ih]

theorem ascii_attachmentsValue (read : String → String) (names : List String) :
    (attachmentsValue (loadFromDataDir read names)).allBytes ascii = true := by
  rw [attachmentsValue, PyValue.allBytes_dict]
  intro kv hkv
  obtain ⟨att, hatt, rfl⟩ := List.mem_map.mp (PyDict.mem_of_mem_ofList hkv)
  obtain ⟨name, -, rfl⟩ := List.mem_map.mp hatt
  rw [PyValue.allBytes_dict, List.forall_mem_singleton]
  exact ascii_standardB64encode _

theorem isOk_myEncoder (obj : List UInt8) : (myEncoder obj).isOk = ascii obj := by
  rw [myEncoder, ascii]
  cases obj.all (· < 128) <;> rfl

/-! ## The three kinds of authentication -/

/-- The encoder in the branch for an authentication. -/
def encoderOf (auth : Auth) : List UInt8 → Except Exn String :=
  if (getAuthType auth).1 = .session then myEncoder else jsonEncoder

section Posted
variable {floatRepr : PyFloat → List Char} {get : Service} {serverType : ServerType} {url db : String}
  {docs : List Dict} {scope collection : Option String} {ks : String} {auth : Auth}

theorem raised_iff {text : List Char} {endpoint' endpoint : String} (e : Exn) :
    (∃ r : Request, (Except.error e : Except Exn Request) = .ok r ∧ r.url = endpoint ∧ r.body = text) ↔
      endpoint = endpoint' ∧ (Except.error e : Except Exn (List Char)) = .ok text := by
  simp only [reduceCtorEq, false_and, exists_false, and_false]

theorem posted_iff {text' text : List Char} {endpoint' endpoint : String} (cookie : Option String)
    (auth : Option Auth) :
    (∃ r : Request, (Except.ok ⟨endpoint', text', cookie, auth⟩ : Except Exn Request) = .ok r ∧
        r.url = endpoint ∧ r.body = text) ↔
      endpoint = endpoint' ∧ (Except.ok text' : Except Exn (List Char)) = .ok text := by
  rw [Except.ok.injEq, eq_comm]
  constructor
  · rintro ⟨r, hr, rfl, rfl⟩
    cases hr
    exact ⟨rfl, rfl⟩
  · rintro ⟨rfl, rfl⟩
    exact ⟨_, rfl, rfl, rfl⟩

theorem bulkRequest_ok_iff (htype : getServerType get auth = .ok serverType)
    (hkeyspace : keyspace db scope collection = .ok ks) (endpoint : String) (text : List Char) :
    (∃ r, bulkRequest floatRepr get url db docs auth scope collection = .ok r ∧
        r.url = endpoint ∧ r.body = text) ↔
      endpoint = url ++ "/" ++ ks ++ "/_bulk_docs" ∧
        (requestBody serverType docs).encode floatRepr (encoderOf auth) = .ok text := by
  rw [bulkRequest, htype, hkeyspace, encoderOf]
  simp only [bind, Except.bind]
  obtain ⟨kind, sent⟩ := getAuthType auth
  cases kind with
  | session =>
    simp only [if_pos]
    cases PyValue.encode floatRepr myEncoder (requestBody serverType docs) with
    | error e => exact raised_iff e
    | ok data => exact posted_iff _ _
  | httpBasic =>
    simp only [reduceCtorEq, if_false]
    cases PyValue.encode floatRepr jsonEncoder (requestBody serverType docs) with
    | error e => exact raised_iff e
    | ok data => exact posted_iff _ _
  | none =>
    simp only [reduceCtorEq, if_false]
    cases PyValue.encode floatRepr jsonEncoder (requestBody serverType docs) with
    | error e => exact raised_iff e
    | ok data => exact posted_iff _ _

/-- The type of the server is asked for first. -/
theorem bulkRequest_httpBasicAuth (user password : String) :
    bulkRequest floatRepr get url db docs (.httpBasicAuth user password) scope collection =
      .error .typeError := rfl

theorem encode_jsonEncoder_ok_iff (floatRepr : PyFloat → List Char) (v : PyValue) :
    (∃ text, v.encode floatRepr jsonEncoder = .ok text) ↔ v.noBytes = true :=
  PyValue.encode_raising_ok_iff (fun _ => rfl) v

/-- Whatever the credentials, the service says of which type it is. -/
def Serves (get : Service) (serverType : ServerType) : Prop :=
  ∀ credentials, ∃ root, get credentials = .ok root ∧ DocsDeleted.getServerType root = .ok serverType

theorem Serves.type (hget : Serves get serverType)
    (hauth : ∀ user password, auth ≠ .httpBasicAuth user password) :
    getServerType get auth = .ok serverType := by
  cases auth with
  | none =>
    obtain ⟨root, hroot, htype⟩ := hget none
    rw [getServerType, hroot]
    exact congrArg (Except.mapError Exn.serverType) htype
  | tuple first second =>
    obtain ⟨root, hroot, htype⟩ := hget (some (first, second))
    rw [getServerType, hroot]
    exact congrArg (Except.mapError Exn.serverType) htype
  | httpBasicAuth user password => exact absurd rfl (hauth user password)

/-- Each of the authentications sends the same body to the same endpoint. -/
def PostsAlike (floatRepr : PyFloat → List Char) (get : Service) (url db : String) (docs : List Dict)
    (scope collection : Option String) (auths : List Auth) : Prop :=
  ∃ endpoint body, ∀ auth ∈ auths, ∃ r, bulkRequest floatRepr get url db docs auth scope collection = .ok r ∧
    r.url = endpoint ∧ r.body = body

theorem postsAlike_iff (hget : Serves get serverType) (hkeyspace : keyspace db scope collection = .ok ks)
    {auths : List Auth} (hnone : Auth.none ∈ auths) :
    PostsAlike floatRepr get url db docs scope collection auths ↔
      (∀ user password, .httpBasicAuth user password ∉ auths) ∧
        (requestBody serverType docs).noBytes = true := by
  constructor
  · rintro ⟨endpoint, body, h⟩
    refine ⟨fun user password hmem => ?_, ?_⟩
    · obtain ⟨r, hr, -⟩ := h _ hmem
      rw [bulkRequest_httpBasicAuth] at hr
      cases hr
    · have htype : getServerType get .none = .ok serverType := hget.type fun _ _ h => nomatch h
      exact (encode_jsonEncoder_ok_iff floatRepr _).mp
        ⟨body, ((bulkRequest_ok_iff htype hkeyspace endpoint body).mp (h .none hnone)).2⟩
  · rintro ⟨hauths, hno⟩
    obtain ⟨body, hbody⟩ := (encode_jsonEncoder_ok_iff floatRepr _).mpr hno
    refine ⟨url ++ "/" ++ ks ++ "/_bulk_docs", body, fun auth hauth => ?_⟩
    have htype : getServerType get auth = .ok serverType :=
      hget.type fun user password h => hauths user password (h ▸ hauth)
    exact (bulkRequest_ok_iff htype hkeyspace _ _).mpr ⟨rfl, (PyValue.encode_congr hno).trans hbody⟩

/-- No authentication, a basic one and a session post the documents of `create_docs` alike exactly
if the basic one is no `HTTPBasicAuth`, which the request for the type of the server cannot
index, and no document keeps attachments: the two branches without an encoder for bytes
raise on them. -/
theorem bulkRequest_same_iff (floatRepr : PyFloat → List Char) (get : Service) (serverType : ServerType)
    (hget : Serves get serverType) (url db : String) (scope collection : Option String)
    (hkeyspace : (keyspace db scope collection).isOk = true) (basic : Auth) (session : String)
    (args : DocArgs) (uuid : Nat → String) (docIdPrefix : Option String) (number : Int)
    (read : String → String) (names : Option (Nat → List String)) :
    PostsAlike floatRepr get url db
        (createDocs args uuid docIdPrefix number (names.map fun names i => loadFromDataDir read (names i)))
        scope collection [.none, basic, .tuple "SyncGatewaySession" session] ↔
      (∀ user password, basic ≠ .httpBasicAuth user password) ∧
        ∀ i < number.toNat, (∀ names', names = some names' → names' i = []) ∨
          ∃ f, args.propGenerator = some f ∧ "_attachments" ∈ (f i).map Prod.fst := by
  obtain ⟨ks, hks⟩ : ∃ ks, keyspace db scope collection = .ok ks := by
    cases h : keyspace db scope collection with
    | ok ks => exact ⟨ks, rfl⟩
    | error e => rw [h] at hkeyspace; cases hkeyspace
  rw [postsAlike_iff hget hks List.mem_cons_self, PyValue.noBytes, requestBody_allBytes_iff,
    createDocs_allBytes_iff]
  refine and_congr (forall₂_congr fun user password => not_congr ?_) (forall₂_congr fun i _ =>
    or_congr_left ?_)
  · simp only [List.mem_cons, reduceCtorEq, List.not_mem_nil, or_false, false_or]
    exact eq_comm
  · rw [← PyValue.noBytes, attachmentsValue_noBytes_iff]
    cases names with
    | none => simp only [Option.map_none, Option.getD_none, reduceCtorEq, false_implies, implies_true]
    | some names' =>
      simp only [Option.map_some, Option.getD_some, Option.some.injEq, forall_eq', loadFromDataDir,
        List.map_eq_nil_iff]

/-- The branch of a session encodes the documents with attachments, too. -/
theorem bulkRequest_session (hget : Serves get serverType)
    (hkeyspace : keyspace db scope collection = .ok ks) (session : String)
    (args : DocArgs) (uuid : Nat → String) (docIdPrefix : Option String) (number : Int)
    (read : String → String) (names : Option (Nat → List String)) :
    ∃ r, bulkRequest floatRepr get url db
        (createDocs args uuid docIdPrefix number (names.map fun names i => loadFromDataDir read (names i)))
        (.tuple "SyncGatewaySession" session) scope collection = .ok r := by
  generalize hdocs : createDocs args uuid docIdPrefix number
    (names.map fun names i => loadFromDataDir read (names i)) = docs
  have hascii : (requestBody serverType docs).allBytes (fun bs => (myEncoder bs).isOk) = true := by
    rw [funext isOk_myEncoder, requestBody_allBytes_iff, ← hdocs, createDocs_allBytes_iff]
    refine fun i _ => .inl ?_
    cases names with
    | none => rfl
    | some names => exact ascii_attachmentsValue read (names i)
  obtain ⟨text, htext⟩ : ∃ text, (requestBody serverType docs).encode floatRepr myEncoder = .ok text :=
    (PyValue.encode_ok_iff _).mpr hascii
  have htype : getServerType get (.tuple "SyncGatewaySession" session) = .ok serverType :=
    hget.type fun _ _ h => nomatch h
  obtain ⟨r, hr, -⟩ := (bulkRequest_ok_iff htype hkeyspace _ text).mpr ⟨rfl, htext⟩
  exact ⟨r, hr⟩

end Posted

/-- A gateway, and a LiteServ on Android. -/
def gatewayService : Service := fun _ => .ok ⟨some "Couchbase Sync Gateway", none⟩

def androidService : Service := fun _ => .ok ⟨none, some "Welcome"⟩

/-- A document with a file cannot be posted without authentication: `json.dumps` raises. -/
theorem attachment_raises :
    bulkRequest (fun _ => []) gatewayService "http://sg:4985" "db"
        (createDocs {} (fun _ => "") (some "att") 1
          (some fun _ => loadFromDataDir (fun _ => "hello") ["a.txt"]))
        .none none none = .error .typeError ∧
      ¬ PostsAlike (fun _ => []) gatewayService "http://sg:4985" "db"
        (createDocs {} (fun _ => "") (some "att") 1
          (some fun _ => loadFromDataDir (fun _ => "hello") ["a.txt"]))
        none none [.none, .tuple "user" "password", .tuple "SyncGatewaySession" "1234"] := by
  have hraise : bulkRequest (fun _ => []) gatewayService "http://sg:4985" "db"
      (createDocs {} (fun _ => "") (some "att") 1
        (some fun _ => loadFromDataDir (fun _ => "hello") ["a.txt"]))
      .none none none = .error .typeError := by rfl
  refine ⟨hraise, ?_⟩
  rintro ⟨endpoint, body, h⟩
  obtain ⟨r, hr, -⟩ := h .none List.mem_cons_self
  rw [hraise] at hr
  cases hr

/-- Without attachments, all of them post the document. -/
theorem plain_docs_alike : PostsAlike (fun _ => []) androidService "http://lite:4984" "db"
    (createDocs {} (fun _ => "") (some "doc") 2 none) (some "_default") (some "docs")
    [.none, .tuple "user" "password", .tuple "SyncGatewaySession" "1234"] :=
  (bulkRequest_same_iff (fun _ => []) androidService .listener (fun _ => ⟨⟨none, some "Welcome"⟩, rfl, rfl⟩)
    "http://lite:4984" "db" (some "_default") (some "docs") rfl (.tuple "user" "password") "1234" {}
    (fun _ => "") (some "doc") 2 (fun _ => "") none).mpr ⟨fun _ _ => nofun, fun _ _ => .inl fun _ => nofun⟩

end MobileTestkit.L4.BulkDocs
