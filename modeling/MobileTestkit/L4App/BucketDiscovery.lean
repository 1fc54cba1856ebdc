import MobileTestkit.L4App.ConvertJson

/-!
# Mode and buckets of a sync gateway config

Model of `Config` (libraries/testkit/config.py) and of the two copies of
`get_buckets_from_sync_gateway_config` (libraries/testkit/syncgateway.py,
libraries/provision/install_sync_gateway.py). Both put a JSON string in the place of
every sync function before they look at the rest, the second one in a temporary file that
`Config` then reads.

`Host` is what the code runs on: the jinja2 rendering of a text (with the three variables
of the source), the absolute path of a path, and which files can be written and removed.
`list(set(...))` is kept as the list it is made from; order and repetitions do not count.
What is only logged is left out.

* `maskSections_congr`: the masked text does not depend on the sections.
* `config_congr`, `getBuckets_congr`: neither do the mode and the buckets.
-/
namespace MobileTestkit.L4.BucketDiscovery

open MobileTestkit.Core MobileTestkit.Core.JsonDoc MobileTestkit.L4.ConvertJson

inductive Exn where
  | fileNotFound
  | permission
  | template (message : String)
  | jsonDecode
  | attribute
  | key (name : String)
  | type
  deriving DecidableEq, Repr

/-! ## Python's operations on parsed values -/

/-- `d[name]` -/
def getItem (name : String) : Doc → Except Exn Doc
  | .obj members =>
    match (PyDict.ofList members).get? name with
    | some v => .ok v
    | none => .error (.key name)
  | _ => .error .type

/-- `name in d`: a key of a dict, an item of a list, a part of a text. -/
def contains (name : String) : Doc → Except Exn Bool
  | .obj members => .ok (decide (name ∈ members.map Prod.fst))
  | .arr items => .ok (items.any fun d => match d with
      | .str s => s == name
      | _ => false)
  | .str s => .ok (PyStr.contains s name)
  | .atom _ => .error .type

/-- `d.keys()` and `d.items()`. -/
def items : Doc → Except Exn (List (String × Doc))
  | .obj members => .ok (PyDict.ofList members).items
  | _ => .error .attribute

/-- `len(d)` -/
def len : Doc → Except Exn Nat
  | .obj members => .ok (PyDict.ofList members).items.length
  | .arr items => .ok items.length
  | .str s => .ok s.length
  | .atom _ => .error .type

/-- `list(set(names))`: lists and dicts cannot be in a set. -/
def toSet (names : List Doc) : Except Exn (List Doc) :=
  if names.any fun d => match d with
      | .arr _ => true
      | .obj _ => true
      | _ => false
  then .error .type else .ok names

/-! ## Config -/

/-- mirrors libraries/testkit/config.py:94-99 (`discover_mode`) -/
def discoverMode (confObj : Doc) : Except Exn String := do
  let keys ← items confObj
  return if "cluster_config" ∈ keys.map Prod.fst then "di" else "cc"

/-- The buckets of one database. -/
def databaseBuckets (val : Doc) : Except Exn (List Doc) := do
  let names ← if (← contains "bucket" val) then do
      let bucket ← getItem "bucket" val
      if (← contains "channel_index" val) then do
        let index ← getItem "channel_index" val
        return [bucket, ← getItem "bucket" index]
      else return [bucket]
    else pure []
  if !(← contains "shadow" val) then return names
  else do
    let shadow ← getItem "shadow" val
    let bucket ← getItem "bucket" shadow
    if (← len bucket) > 0 then return names ++ [bucket] else return names

/-- mirrors libraries/testkit/config.py:101-126 (`discover_bucket_name_set`) -/
def discoverBucketNameSet (confObj : Doc) : Except Exn (List Doc) := do
  let keys ← items confObj
  let cbgt ← if "cluster_config" ∈ keys.map Prod.fst then do
      let cluster ← getItem "cluster_config" confObj
      return [← getItem "bucket" cluster]
    else pure []
  let dbs ← items (← getItem "databases" confObj)
  let names ← dbs.foldlM (fun names db => do return names ++ (← databaseBuckets db.2)) cbgt
  toSet names

/-- A text in which a string stands in place of every section: the pieces between
backticks at even places, with `placeholder` after each but the last piece of all. -/
def maskSections (placeholder data : String) : String :=
  if backtick ∈ data.toList then
    let conf := PyStr.split data backtick
    let splitLen := conf.length
    ((List.range ((splitLen + 1) / 2)).map (2 * ·)).foldl
      (fun tempConfig i =>
        if i = splitLen - 1 then tempConfig ++ conf.getD i ""
        else tempConfig ++ (conf.getD i "" ++ placeholder)) ""
  else data

structure Host where
  render : String → Except Exn String
  abspath : String → String
  abspath_abspath : ∀ path, abspath (abspath path) = abspath path
  writable : String → Bool
  removable : String → Bool

/-- The files, by absolute path. -/
abbrev Files := String → Option String

structure Config where
  mode : String
  bucketNameSet : List Doc

/-- `Config.__init__` on the text of its file.
mirrors libraries/testkit/config.py:17-84 -/
def configOf (host : Host) (data : String) (bucketList : List String) : Except Exn Config := do
  let data ← host.render (maskSections " \"syncfunction\" " data)
  match loads docBuilder (convertToValidJson data).toList with
  | none => .error .jsonDecode
  | some confObj =>
    let mode ← discoverMode confObj
    if bucketList ≠ [] then return ⟨mode, bucketList.map .str⟩
    else return ⟨mode, ← discoverBucketNameSet confObj⟩

def config (host : Host) (files : Files) (confPath : String) (bucketList : List String) :
    Except Exn Config :=
  match files (host.abspath confPath) with
  | none => .error .fileNotFound
  | some data => configOf host data bucketList

/-! ## The buckets of a config file -/

/-- `"/".join(path.split('/')[:-2]) + '/temp_conf.json'` -/
def tempConfigPath (path : String) : String :=
  let parts := PyStr.split path '/'
  PyStr.join "/" (parts.take (parts.length - 2)) ++ "/temp_conf.json"

def writeFile (host : Host) (files : Files) (path text : String) : Except Exn Files :=
  if host.writable (host.abspath path) then
    .ok fun p => if p = host.abspath path then some text else files p
  else .error .permission

/-- `if os.path.exists(path): os.remove(path)` -/
def removeFile (host : Host) (files : Files) (path : String) : Except Exn Files :=
  if path ≠ "" ∧ (files (host.abspath path)).isSome then
    if host.removable (host.abspath path) then
      .ok fun p => if p = host.abspath path then none else files p
    else .error .permission
  else .ok files

/-- The body of the two copies of `get_buckets_from_sync_gateway_config`. -/
def getBuckets (host : Host) (files : Files) (path : String) : Except Exn (List Doc × Files) := do
  match files (host.abspath path) with
  | none => .error .fileNotFound
  | some confData =>
    let (tempPath, configPathFull, files) ←
      if backtick ∈ confData.toList then do
        let tempPath := tempConfigPath path
        let files ← writeFile host files tempPath (maskSections " \"function\" " confData)
        pure (tempPath, host.abspath tempPath, files)
      else pure ("", host.abspath path, files)
    let conf ← config host files configPathFull []
    let files ← removeFile host files tempPath
    return (conf.bucketNameSet, files)

/-- mirrors libraries/testkit/syncgateway.py:998-1034 -/
def Syncgateway.getBucketsFromSyncGatewayConfig (host : Host) (files : Files)
    (syncGatewayConfigPath : String) : Except Exn (List Doc × Files) :=
  getBuckets host files syncGatewayConfigPath

/-- mirrors libraries/provision/install_sync_gateway.py:488-524, the same text -/
def InstallSyncGateway.getBucketsFromSyncGatewayConfig (host : Host) (files : Files)
    (syncGatewayConfigPath : String) : Except Exn (List Doc × Files) :=
  getBuckets host files syncGatewayConfigPath

/-! ## Texts that differ in their sections only -/

/-- As many sections, and the same text around them. -/
def SameOutside (t t' : Sectioned) : Prop :=
  t.head = t'.head ∧ t.sections.map Prod.snd = t'.sections.map Prod.snd

/-- The pieces of a text, the first one `first`. -/
def pieces (first : List Char) (sections : List (List Char × List Char)) : List (List Char) :=
  first :: sections.flatMap fun s => [s.1, s.2]

theorem splitList_pieces {first : List Char} {sections : List (List Char × List Char)}
    (hf : backtick ∉ first) (hs : ∀ s ∈ sections, backtick ∉ s.1 ∧ backtick ∉ s.2) :
    PyStr.splitList backtick (first ++ sections.flatMap sectionText) = pieces first sections := by
  induction sections generalizing first with
  | nil => simpa [pieces] using PyStr.splitList_of_not_mem hf
  | cons s ss ih =>
    obtain ⟨hb, ho⟩ := hs s List.mem_cons_self
    have hrest := ih ho fun x hx => hs x (List.mem_cons_of_mem _ hx)
    rw [List.flatMap_cons, sectionText, List.cons_append, List.cons_append,
      PyStr.splitList_append hf, List.append_assoc, List.cons_append, PyStr.splitList_append hb, hrest]
    rfl

theorem split_text (t : Sectioned) :
    PyStr.split t.text backtick = (pieces t.head t.sections).map String.ofList := by
  rw [PyStr.split, Sectioned.text, String.toList_ofList, Sectioned.chars,
    splitList_pieces t.head_clean t.sections_clean]

/-- The pieces at even places are those outside the sections. -/
theorem pieces_even {ss ss' : List (List Char × List Char)}
    (h : ss.map Prod.snd = ss'.map Prod.snd) (first : List Char) (k : Nat) :
    (pieces first ss)[2 * k]? = (pieces first ss')[2 * k]? := by
  induction ss generalizing ss' first k with
  | nil =>
    have hnil : ss' = [] := by simpa using h.symm
    rw [hnil]
  | cons s ss ih =>
    cases ss' with
    | nil => simp at h
    | cons s' ss' =>
      simp only [List.map_cons, List.cons.injEq] at h
      cases k with
      | zero => rfl
      | succ k =>
        have hrest := ih h.2 s.2 k
        have hstep : ∀ (x : List Char × List Char) (xs : List (List Char × List Char)),
            (pieces first (x :: xs))[2 * (k + 1)]? = (pieces x.2 xs)[2 * k]? := by
          intro x xs
          rw [Nat.mul_succ]
          rfl
        rw [hstep, hstep, hrest, h.1]

theorem length_pieces (first : List Char) (ss : List (List Char × List Char)) :
    (pieces first ss).length = 2 * ss.length + 1 := by
  induction ss generalizing first with
  | nil => rfl
  | cons s ss ih =>
    have hrest := ih s.2
    simp only [pieces, List.flatMap_cons, List.length_cons, List.length_append, List.length_nil]
      at hrest ⊢
    omega

theorem mem_text_iff (t : Sectioned) : backtick ∈ t.text.toList ↔ t.sections ≠ [] := by
  rw [Sectioned.text, String.toList_ofList, Sectioned.chars]
  cases hs : t.sections with
  | nil => simpa using t.head_clean
  | cons s ss => simp [sectionText]

theorem sections_nil_iff {t t' : Sectioned} (h : SameOutside t t') :
    t.sections = [] ↔ t'.sections = [] := by
  have hlen := congrArg List.length h.2
  rw [List.length_map, List.length_map] at hlen
  rw [← List.length_eq_zero_iff, ← List.length_eq_zero_iff, hlen]

/-- Without sections the texts are the same. -/
theorem text_eq_of_nil {t t' : Sectioned} (h : SameOutside t t') (hs : t.sections = []) :
    t.text = t'.text := by
  have hs' := (sections_nil_iff h).mp hs
  rw [Sectioned.text, Sectioned.text, Sectioned.chars, Sectioned.chars, hs, hs', h.1]

/-- The masked text does not depend on the sections. -/
theorem maskSections_congr {t t' : Sectioned} (h : SameOutside t t') (placeholder : String) :
    maskSections placeholder t.text = maskSections placeholder t'.text := by
  by_cases hs : t.sections = []
  · rw [text_eq_of_nil h hs]
  · have hs' : t'.sections ≠ [] := fun he => hs ((sections_nil_iff h).mpr he)
    have hlen : t.sections.length = t'.sections.length := by
      simpa using congrArg List.length h.2
    have heven : ∀ k, ((pieces t.head t.sections).map String.ofList).getD (2 * k) ""
        = ((pieces t'.head t'.sections).map String.ofList).getD (2 * k) "" := by
      intro k
      rw [List.getD_eq_getElem?_getD, List.getD_eq_getElem?_getD, List.getElem?_map,
        List.getElem?_map, h.1, pieces_even h.2]
    unfold maskSections
    rw [if_pos ((mem_text_iff t).mpr hs), if_pos ((mem_text_iff t').mpr hs'), split_text, split_text]
    simp only [List.length_map, length_pieces, hlen, List.foldl_map, heven]

/-! ## Sections have no influence -/

theorem configOf_congr {t t' : Sectioned} (h : SameOutside t t') (host : Host)
    (bucketList : List String) :
    configOf host t.text bucketList = configOf host t'.text bucketList := by
  unfold configOf
  rw [maskSections_congr h]

/-- The files with the text `text` at a path. -/
def withFile (host : Host) (files : Files) (path text : String) : Files :=
  fun p => if p = host.abspath path then some text else files p

theorem config_withFile (host : Host) (files : Files) (path text : String)
    (bucketList : List String) :
    config host (withFile host files path text) path bucketList = configOf host text bucketList := by
  simp [config, withFile]

theorem tempConfigPath_ne (path : String) : tempConfigPath path ≠ "" := by
  intro he
  have hlen := congrArg String.length he
  simp [tempConfigPath] at hlen

/-- With sections, the buckets come from the masked text in the temporary file. -/
theorem getBuckets_masked {host : Host} {files : Files} {path text : String}
    (hb : backtick ∈ text.toList) :
    (getBuckets host (withFile host files path text) path).map Prod.fst
      = if host.writable (host.abspath (tempConfigPath path)) then do
          let conf ← configOf host (maskSections " \"function\" " text) []
          if host.removable (host.abspath (tempConfigPath path)) then return conf.bucketNameSet
          else .error .permission
        else .error .permission := by
  have hread : withFile host files path text (host.abspath path) = some text := by simp [withFile]
  unfold getBuckets
  rw [hread]
  simp only [if_pos hb]
  generalize withFile host files path text = before
  cases hw : host.writable (host.abspath (tempConfigPath path)) with
  | false => simp [writeFile, hw, bind, Except.bind, Except.map]
  | true =>
    have hwrite : writeFile host before (tempConfigPath path) (maskSections " \"function\" " text)
        = .ok (withFile host before (tempConfigPath path) (maskSections " \"function\" " text)) := by
      rw [writeFile, if_pos hw]
      rfl
    have hconf : config host
        (withFile host before (tempConfigPath path) (maskSections " \"function\" " text))
        (host.abspath (tempConfigPath path)) []
        = configOf host (maskSections " \"function\" " text) [] := by
      simp [config, withFile, host.abspath_abspath]
    rw [hwrite]
    simp only [bind, Except.bind, pure, Except.pure, hconf]
    cases configOf host (maskSections " \"function\" " text) [] with
    | error x => rfl
    | ok conf =>
      have hexists : (withFile host before (tempConfigPath path)
          (maskSections " \"function\" " text) (host.abspath (tempConfigPath path))).isSome = true := by
        simp [withFile]
      cases hr : host.removable (host.abspath (tempConfigPath path)) with
      | false => simp [removeFile, tempConfigPath_ne path, hexists, hr, Except.map]
      | true => simp [removeFile, tempConfigPath_ne path, hexists, hr, Except.map]

theorem getBuckets_congr {t t' : Sectioned} (h : SameOutside t t') (host : Host) (files : Files)
    (path : String) :
    (getBuckets host (withFile host files path t.text) path).map Prod.fst
      = (getBuckets host (withFile host files path t'.text) path).map Prod.fst := by
  by_cases hs : t.sections = []
  · rw [text_eq_of_nil h hs]
  · have hs' : t'.sections ≠ [] := fun he => hs ((sections_nil_iff h).mpr he)
    rw [getBuckets_masked ((mem_text_iff t).mpr hs), getBuckets_masked ((mem_text_iff t').mpr hs'),
      maskSections_congr h]

/-- Two config texts that differ in their sections only have the same mode and the same
buckets, or the same exception, in `Config` and in both copies of
`get_buckets_from_sync_gateway_config`. -/
theorem sections_no_influence (host : Host) (files : Files) (path : String)
    (bucketList : List String) (t t' : Sectioned) (h : SameOutside t t') :
    config host (withFile host files path t.text) path bucketList
        = config host (withFile host files path t'.text) path bucketList ∧
      (Syncgateway.getBucketsFromSyncGatewayConfig host (withFile host files path t.text) path).map
          Prod.fst
        = (Syncgateway.getBucketsFromSyncGatewayConfig host (withFile host files path t'.text)
            path).map Prod.fst ∧
      (InstallSyncGateway.getBucketsFromSyncGatewayConfig host (withFile host files path t.text)
          path).map Prod.fst
        = (InstallSyncGateway.getBucketsFromSyncGatewayConfig host (withFile host files path t'.text)
            path).map Prod.fst := by
  refine ⟨?_, getBuckets_congr h host files path, getBuckets_congr h host files path⟩
  rw [config_withFile, config_withFile, configOf_congr h]

/-- A host on which every file can be written and templates hold no markers. -/
def plainHost : Host where
  render := .ok
  abspath path := path
  abspath_abspath _ := rfl
  writable _ := true
  removable _ := true

/-- One database with the bucket `b` and the sync function `body`. -/
def oneDatabase (body : List Char) (h : backtick ∉ body) : Sectioned where
  head := "\x7b\"databases\": \x7b\"db\": \x7b\"bucket\": \"b\", \"sync\": ".toList
  sections := [(body, "\x7d\x7d\x7d".toList)]
  head_clean := by decide
  sections_clean := fun s hs => by
    have htail : backtick ∉ "\x7d\x7d\x7d".toList := by decide
    rw [List.mem_singleton.mp hs]
    exact ⟨h, htail⟩

/-- A sync function with braces, quotes and template markers, and an empty one. -/
theorem oneDatabase_no_influence :
    config plainHost (withFile plainHost (fun _ => none) "r/c/sg.json"
          (oneDatabase "f(d)\x7b\x7b \"x\" \x7d\x7d".toList (by decide)).text) "r/c/sg.json" []
        = config plainHost (withFile plainHost (fun _ => none) "r/c/sg.json"
          (oneDatabase [] (by decide)).text) "r/c/sg.json" [] ∧
      (Syncgateway.getBucketsFromSyncGatewayConfig plainHost
          (withFile plainHost (fun _ => none) "r/c/sg.json"
            (oneDatabase "f(d)\x7b\x7b \"x\" \x7d\x7d".toList (by decide)).text) "r/c/sg.json").map Prod.fst
        = (Syncgateway.getBucketsFromSyncGatewayConfig plainHost
          (withFile plainHost (fun _ => none) "r/c/sg.json"
            (oneDatabase [] (by decide)).text) "r/c/sg.json").map Prod.fst ∧
      (InstallSyncGateway.getBucketsFromSyncGatewayConfig plainHost
          (withFile plainHost (fun _ => none) "r/c/sg.json"
            (oneDatabase "f(d)\x7b\x7b \"x\" \x7d\x7d".toList (by decide)).text) "r/c/sg.json").map Prod.fst
        = (InstallSyncGateway.getBucketsFromSyncGatewayConfig plainHost
          (withFile plainHost (fun _ => none) "r/c/sg.json"
            (oneDatabase [] (by decide)).text) "r/c/sg.json").map Prod.fst :=
  sections_no_influence plainHost (fun _ => none) "r/c/sg.json" [] _ _ ⟨rfl, rfl⟩

end MobileTestkit.L4.BucketDiscovery
