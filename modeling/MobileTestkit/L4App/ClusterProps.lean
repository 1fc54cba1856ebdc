import MobileTestkit.Core.Ini
import MobileTestkit.Core.JsonDump

/-!
# Changing the environment of a cluster at run time

`persist_cluster_config_environment_prop` sets one property in the two files of a cluster,
first in the JSON file and then in the inventory, an ini file that is written by
`CustomConfigParser.write`. Both files are kept as texts, and a call leaves behind what it
has written when it raises.

* `read_write`: the inventory that is written is read back, without the options
  called `__name__` that the writer passes over.
* `persistAll_inStep`: after any sequence of calls the two files agree on what was set, and
  everything else in them is what it was.
* `raises_unchanged_iff`: when a call that raises leaves both files alone.
-/
namespace MobileTestkit.L4.ClusterProps

open MobileTestkit.Core MobileTestkit.Core.Ini MobileTestkit.Core.JsonDoc
open MobileTestkit.Core.PyStr (Trimmed)

/-! ## The writer -/

def nameKey : Text := "__name__".toList

def sectionLine (name : Text) : Text := '[' :: name ++ [']']

/-- `"%s=%s\n" % (key, str(value).replace('\n', '\n\t'))`. -/
def writeOption (kv : Text × Text) : Text :=
  kv.1 ++ '=' :: PyStr.replaceList ['\n'] ['\n', '\t'] 0 kv.2 ++ ['\n']

/-- One section, with an empty line after it. -/
def writeSection (name : Text) (items : List (Text × Text)) : Text :=
  sectionLine name ++ ['\n'] ++ items.flatMap writeOption ++ ['\n']

/-- mirrors utilities/cluster_config_utils.py:20-38 -/
def write (c : Config) : Text :=
  (if c.defaults.items = [] then [] else writeSection DEFAULTSECT c.defaults.items) ++
    c.sections.items.flatMap fun s =>
      writeSection s.1 (s.2.items.filter fun kv => kv.1 ≠ nameKey)

/-- What the writer keeps. -/
def kept (c : Config) : Config :=
  ⟨c.defaults, ⟨c.sections.items.map fun s => (s.1, s.2.erase nameKey), by
    rw [List.map_map]
    exact c.sections.nodup⟩⟩

/-! ## Reading back what was written -/

/-- The text is made of lines that lead the reader from one state to another. -/
def Reads (text : Text) (st st' : ReadState) : Prop :=
  ∃ lines : List Text, text = lines.flatMap (· ++ ['\n']) ∧ (∀ l ∈ lines, '\n' ∉ l ∧ '\r' ∉ l) ∧
    lines.foldlM readLine st = .ok st'

theorem reads_append {a b : Text} {s t u : ReadState} (h : Reads a s t) (h' : Reads b t u) :
    Reads (a ++ b) s u := by
  obtain ⟨la, ha, hla, hra⟩ := h
  obtain ⟨lb, hb, hlb, hrb⟩ := h'
  refine ⟨la ++ lb, by rw [ha, hb, List.flatMap_append], ?_, ?_⟩
  · intro l hl
    rcases List.mem_append.mp hl with hl | hl
    · exact hla l hl
    · exact hlb l hl
  · rw [List.foldlM_append, hra]
    exact hrb

theorem reads_line {line : Text} {s t : ReadState} (hlf : '\n' ∉ line) (hcr : '\r' ∉ line)
    (h : readLine s line = .ok t) : Reads (line ++ ['\n']) s t := by
  refine ⟨[line], by simp, ?_, ?_⟩
  · intro l hl
    rw [List.mem_singleton.mp hl]
    exact ⟨hlf, hcr⟩
  · rw [List.foldlM_cons, h]
    rfl

theorem reads_nil (s : ReadState) : Reads [] s s := ⟨[], rfl, by simp, rfl⟩

/-- The lines of a value behind tabs. -/
theorem replace_joinLines {first : Text} {rest : List Text} (hf : '\n' ∉ first)
    (hr : ∀ l ∈ rest, '\n' ∉ l) :
    PyStr.replaceList ['\n'] ['\n', '\t'] 0 (joinLines first rest) ++ ['\n']
      = (first :: rest.map ('\t' :: ·)).flatMap (· ++ ['\n']) := by
  have hself : ∀ l : Text, '\n' ∉ l →
      (l.flatMap fun c => if c = '\n' then ['\n', '\t'] else [c]) = l := by
    intro l hl
    induction l with
    | nil => rfl
    | cons c cs ih =>
      have hc : c ≠ '\n' := fun he => hl (he ▸ List.mem_cons_self)
      rw [List.flatMap_cons, if_neg hc, ih fun hm => hl (List.mem_cons_of_mem _ hm)]
      rfl
  have hrest : ∀ ls : List Text, (∀ l ∈ ls, '\n' ∉ l) →
      ((ls.flatMap ('\n' :: ·)).flatMap fun c => if c = '\n' then ['\n', '\t'] else [c]) ++ ['\n']
        = '\n' :: (ls.map ('\t' :: ·)).flatMap (· ++ ['\n']) := by
    intro ls hls
    induction ls with
    | nil => rfl
    | cons l ls ih =>
      have ih := ih fun x hx => hls x (List.mem_cons_of_mem _ hx)
      rw [List.flatMap_cons, List.flatMap_append, List.append_assoc, ih, List.flatMap_cons,
        hself l (hls l List.mem_cons_self), if_pos rfl]
      simp
  rw [PyStr.replaceList_singleton, joinLines, List.flatMap_append, hself first hf, List.append_assoc,
    hrest rest hr]
  simp

theorem reads_option {st : ReadState} {name key value : Text} (hcur : st.cursect = some name)
    (hok : OptionOk key value) (hnew : key ∉ (st.config.optionsOf name).keys) :
    Reads (writeOption (key, value)) st (st.withValue name key value 0) := by
  obtain ⟨hk, first, rest, rfl, hlines, hh⟩ := hok
  have hlf : ∀ l ∈ rest, '\n' ∉ l := fun l hl => (hlines.moreLines l hl).1.noLf
  refine ⟨optionLines key first rest, ?_, ?_, readLines_option hcur hk hlines hh hnew⟩
  · have hjoin := replace_joinLines hlines.headLine.noLf hlf
    simp only [writeOption, List.append_assoc, List.cons_append]
    rw [hjoin, optionLines]
    simp
  · intro l hl
    rcases List.mem_cons.mp hl with rfl | hl
    · have h1 := hk.line.noLf
      have h2 := hk.line.noCr
      have h3 := hlines.headLine.noLf
      have h4 := hlines.headLine.noCr
      simp [h1, h2, h3, h4]
    · obtain ⟨x, hx, rfl⟩ := List.mem_map.mp hl
      have h1 := (hlines.moreLines x hx).1
      simp [h1.noLf, h1.noCr]

/-- Options that are not there yet, read one after the other. -/
theorem reads_options {items : List (Text × Text)} {st : ReadState} {base : Config} {name : Text}
    {o : Options} (hcur : st.cursect = some name) (hcfg : st.config = base.put name o)
    (hok : ∀ kv ∈ items, OptionOk kv.1 kv.2) (hnodup : ((o.items ++ items).map Prod.fst).Nodup) :
    ∃ st', Reads (items.flatMap writeOption) st st' ∧
      st'.config = base.put name ⟨o.items ++ items, hnodup⟩ ∧ st'.failed = st.failed := by
  induction items generalizing st o with
  | nil =>
    refine ⟨st, reads_nil st, ?_, rfl⟩
    rw [hcfg]
    exact congrArg _ (PyDict.ext_items (by simp))
  | cons kv items ih =>
    obtain ⟨k, v⟩ := kv
    have hopt : st.config.optionsOf name = o := by rw [hcfg, Config.optionsOf_put]
    have hk : k ∉ o.items.map Prod.fst := by
      intro hm
      rw [List.map_append, List.map_cons] at hnodup
      exact (List.nodup_append.mp hnodup).2.2 k hm k List.mem_cons_self rfl
    have hset : (o.set k v).items = o.items ++ [(k, v)] := PyDict.setItems_of_not_mem hk
    have hread := reads_option hcur (hok (k, v) List.mem_cons_self) (by rw [hopt]; exact hk)
    have hcfg' : (st.withValue name k v 0).config = base.put name (o.set k v) := by
      simp only [ReadState.withValue, hopt]
      rw [hcfg, Config.put_put]
    have hnodup' : (((o.set k v).items ++ items).map Prod.fst).Nodup := by
      rw [hset]
      simpa using hnodup
    obtain ⟨st', hrest, hend, hfail⟩ := ih rfl hcfg'
      (fun x hx => hok x (List.mem_cons_of_mem _ hx)) hnodup'
    refine ⟨st', ?_, ?_, hfail⟩
    · rw [List.flatMap_cons]
      exact reads_append hread hrest
    · rw [hend]
      exact congrArg _ (PyDict.ext_items (by simp [hset]))

/-- A section that is not there yet. -/
theorem reads_section {name : Text} {st : ReadState} {o : Options} (hne : name ≠ [])
    (hb : ']' ∉ name) (hlf : '\n' ∉ name) (hcr : '\r' ∉ name)
    (hnew : st.config.addSection name = st.config.put name PyDict.empty)
    (hkeys : name = DEFAULTSECT ∨ name ∉ st.config.sections.keys)
    (hok : ∀ kv ∈ o.items, OptionOk kv.1 kv.2) :
    ∃ st', Reads (writeSection name o.items) st st' ∧ st'.config = st.config.put name o ∧
      st'.failed = st.failed := by
  obtain ⟨opened, hopened⟩ : ∃ x, x = { st with
    config := st.config.put name PyDict.empty
    cursect := some name
    optname := none
    indentLevel := 0 } := ⟨_, rfl⟩
  have hheader := readLine_header hne hb hkeys
  rw [hnew, ← hopened] at hheader
  have hline : Reads (sectionLine name ++ ['\n']) st opened :=
    reads_line (by simp [sectionLine, hlf]) (by simp [sectionLine, hcr]) hheader
  have hcur : opened.cursect = some name := by rw [hopened]
  have hcfg : opened.config = st.config.put name PyDict.empty := by rw [hopened]
  obtain ⟨st', hread, hcfg', hfail⟩ := reads_options hcur hcfg hok o.nodup
  have hblank : Reads ([] ++ ['\n']) st' { st' with blanks := st'.blanks + 1 } :=
    reads_line (by simp) (by simp) (readLine_blank st')
  refine ⟨_, reads_append (reads_append hline hread) hblank, ?_, ?_⟩
  · exact hcfg'.trans (congrArg _ (PyDict.ext_items rfl))
  · exact hfail.trans (by rw [hopened])

/-- Sections that are not there yet, read one after the other. -/
theorem reads_sections {items : List (Text × Options)} {st : ReadState}
    (hnames : ∀ s ∈ items, SectionOk s.1) (hok : ∀ s ∈ items, ∀ kv ∈ s.2.items, OptionOk kv.1 kv.2)
    (hnodup : ((st.config.sections.items ++ items).map Prod.fst).Nodup) :
    ∃ st', Reads (items.flatMap fun s => writeSection s.1 s.2.items) st st' ∧
      st'.config.defaults = st.config.defaults ∧
      st'.config.sections.items = st.config.sections.items ++ items ∧ st'.failed = st.failed := by
  induction items generalizing st with
  | nil => exact ⟨st, reads_nil st, rfl, (List.append_nil _).symm, rfl⟩
  | cons s items ih =>
    obtain ⟨name, o⟩ := s
    have hs := hnames (name, o) List.mem_cons_self
    have hk : name ∉ st.config.sections.items.map Prod.fst := by
      intro hm
      rw [List.map_append, List.map_cons] at hnodup
      exact (List.nodup_append.mp hnodup).2.2 name hm name List.mem_cons_self rfl
    have hset : (st.config.sections.set name o).items = st.config.sections.items ++ [(name, o)] :=
      PyDict.setItems_of_not_mem hk
    have hadd : st.config.addSection name = st.config.put name PyDict.empty := if_neg hs.notDefault
    obtain ⟨st1, hread, hcfg, hfail⟩ := reads_section hs.ne_nil hs.noBracket hs.noLf hs.noCr hadd
      (.inr hk) (hok (name, o) List.mem_cons_self)
    have hput : st.config.put name o = ⟨st.config.defaults, st.config.sections.set name o⟩ :=
      if_neg hs.notDefault
    rw [hput] at hcfg
    have hnodup' : ((st1.config.sections.items ++ items).map Prod.fst).Nodup := by
      rw [hcfg, hset]
      simpa using hnodup
    obtain ⟨st', hrest, hdef, hsec, hfail'⟩ :=
      ih (fun x hx => hnames x (List.mem_cons_of_mem _ hx))
        (fun x hx => hok x (List.mem_cons_of_mem _ hx)) hnodup'
    refine ⟨st', ?_, ?_, ?_, hfail'.trans hfail⟩
    · rw [List.flatMap_cons]
      exact reads_append hread hrest
    · rw [hdef, hcfg]
    · rw [hsec, hcfg, hset, List.append_assoc]
      rfl

theorem config_ext {c c' : Config} (hd : c.defaults = c'.defaults)
    (hs : c.sections.items = c'.sections.items) : c = c' := by
  obtain ⟨d, s⟩ := c
  obtain ⟨d', s'⟩ := c'
  exact (congrArg (Config.mk · s) hd).trans (congrArg (Config.mk d') (PyDict.ext_items hs))

theorem write_eq (c : Config) :
    write c = (if c.defaults.items = [] then [] else writeSection DEFAULTSECT c.defaults.items) ++
      (kept c).sections.items.flatMap fun s => writeSection s.1 s.2.items := by
  rw [write, kept, List.flatMap_map]
  rfl

theorem reads_defaults {c : Config} (h : ∀ kv ∈ c.defaults.items, OptionOk kv.1 kv.2) :
    ∃ st, Reads (if c.defaults.items = [] then [] else writeSection DEFAULTSECT c.defaults.items)
      start st ∧ st.config = ⟨c.defaults, PyDict.empty⟩ ∧ st.failed = false := by
  split
  · rename_i he
    refine ⟨start, reads_nil start, ?_, rfl⟩
    exact congrArg (Config.mk · _) (PyDict.ext_items he.symm)
  · have hadd : start.config.addSection DEFAULTSECT = start.config.put DEFAULTSECT PyDict.empty := rfl
    exact reads_section (by decide) (by decide) (by decide) (by decide) hadd (.inl rfl) h

/-- The inventory that is written is read back, without the options called `__name__`. -/
theorem read_write {c : Config} (h : WellFormed c) : read (write c) = .ok (kept c) := by
  have hdefaults : ∀ kv ∈ c.defaults.items, OptionOk kv.1 kv.2 := fun kv hkv =>
    h.options DEFAULTSECT c.defaults (if_pos rfl) kv.1 kv.2 ((PyDict.mem_items_iff _ _ _).mp hkv)
  have hsections : ∀ s ∈ (kept c).sections.items, SectionOk s.1 ∧
      ∀ kv ∈ s.2.items, OptionOk kv.1 kv.2 := by
    intro s hs
    obtain ⟨⟨name, o⟩, hso, rfl⟩ := List.mem_map.mp hs
    have hname := h.names name (List.mem_map_of_mem hso)
    refine ⟨hname, fun kv hkv => ?_⟩
    have hget := (PyDict.mem_items_iff c.sections name o).mp hso
    have hopt : c.options? name = some o := (if_neg hname.notDefault).trans hget
    exact h.options name o hopt kv.1 kv.2 ((PyDict.mem_items_iff _ _ _).mp (List.mem_of_mem_filter hkv))
  obtain ⟨st, hread, hcfg, hfail⟩ := reads_defaults hdefaults
  have hnodup : ((st.config.sections.items ++ (kept c).sections.items).map Prod.fst).Nodup := by
    rw [hcfg]
    exact (kept c).sections.nodup
  obtain ⟨st', hread', hdef, hsec, hfail'⟩ := reads_sections (fun s hs => (hsections s hs).1)
    (fun s hs => (hsections s hs).2) hnodup
  obtain ⟨lines, htext, hlines, hrun⟩ := reads_append hread hread'
  rw [write_eq, htext, Ini.read, fileLines_lines hlines, hrun]
  have hdone : st'.failed = false := hfail'.trans hfail
  have hconfig : st'.config = kept c := by
    rw [hcfg] at hdef hsec
    exact config_ext hdef hsec
  simp only [bind, Except.bind, hdone, hconfig]
  rfl

/-! ## One call -/

/-- What is in a file: nothing, bytes that are no text, or a text. -/
inductive File where
  | missing
  | undecodable (bytes : List UInt8)
  | text (chars : Text)
  deriving DecidableEq

/-- The two files of a cluster, `<cluster_config>` and `<cluster_config>.json`. -/
structure Files where
  inventory : File
  json : File
  deriving DecidableEq

/-- A Python value: what `str` gives for it, and what `json.dump` sees. -/
structure Value where
  str : Text
  json : Tree

structure Call where
  propertyName : Text
  value : Value
  propertyNameCheck : Bool

inductive Exn where
  | provisioning (message : String)
  | fileNotFound
  | unicodeDecode
  | jsonDecode
  | keyError (key : Text)
  | typeError
  | dump
  | configparser (e : Ini.Error)
  | noSection (name : Text)
  deriving DecidableEq

def validPropNames : List String :=
  ["cbs_ssl_enabled", "xattrs_enabled", "sg_lb_enabled", "sync_gateway_version", "server_version",
    "no_conflicts_enabled", "sync_gateway_ssl", "sg_use_views", "number_replicas",
    "delta_sync_enabled", "x509_certs", "hide_product_version", "cbs_developer_preview",
    "disable_persistent_config", "server_tls_skip_verify", "disable_tls_server",
    "disable_admin_auth", "trace_logs"]

def validProps : List Text := validPropNames.map String.toList

def environment : Text := "environment".toList

/-- The names as a list of Python prints them. -/
def refusal : String :=
  "Make sure the property you are trying to change is one of: [" ++
    String.intercalate ", " (validPropNames.map fun p => "'" ++ p ++ "'") ++ "]"

section

variable (N : Numbers)

/-- `json.loads(f.read())`; line ends do not matter to it. -/
def readJson : File → Except Exn Tree
  | .missing => .error .fileNotFound
  | .undecodable _ => .error .unicodeDecode
  | .text t =>
    match loads (treeBuilder N) t with
    | none => .error .jsonDecode
    | some d => .ok d

/-- `cluster["environment"][property_name] = value` -/
def setProperty (cluster : Tree) (name : Text) (value : Tree) : Except Exn Tree :=
  match cluster with
  | .obj ms =>
    match PyDict.getItem environment ms with
    | none => .error (.keyError environment)
    | some (.obj es) =>
      .ok (.obj (PyDict.setItems environment (.obj (PyDict.setItems name value es)) ms))
    | some _ => .error .typeError
  | _ => .error .typeError

/-- `config.read`, which passes over a file that is not there. -/
def readInventory : File → Except Exn Config
  | .missing => .ok Config.empty
  | .undecodable _ => .error .unicodeDecode
  | .text t =>
    match Ini.read t with
    | .error e => .error (.configparser e)
    | .ok c => .ok c

/-- `RawConfigParser.set` -/
def setOption (c : Config) (name key value : Text) : Except Exn Config :=
  match c.sections.get? name with
  | none => .error (.noSection name)
  | some o => .ok { c with sections := c.sections.set name (o.set (lower key) value) }

/-- The second half of a call, on the inventory. -/
def persistInventory (call : Call) (fs : Files) : Files × Except Exn Unit :=
  match (readInventory fs.inventory).bind
      fun c => setOption c environment call.propertyName call.value.str with
  | .error e => (fs, .error e)
  | .ok c => ({ fs with inventory := .text (write c) }, .ok ())

/-- mirrors utilities/cluster_config_utils.py:50-86 -/
def persist (call : Call) (fs : Files) : Files × Except Exn Unit :=
  if call.propertyNameCheck && !validProps.contains call.propertyName then
    (fs, .error (.provisioning refusal))
  else
    match (readJson N fs.json).bind
        fun cluster => setProperty cluster call.propertyName call.value.json with
    | .error e => (fs, .error e)
    | .ok cluster =>
      let out := emit 0 cluster
      let written := { fs with json := .text out.text }
      -- a value that cannot be written raises in the middle of the file
      if out.done then persistInventory call written else (written, .error .dump)

/-- A sequence of calls that all return. -/
def persistAll : List Call → Files → Option Files
  | [], fs => some fs
  | call :: calls, fs =>
    match persist N call fs with
    | (fs', .ok _) => persistAll calls fs'
    | (_, .error _) => none

/-! ## What a call does -/

/-- The JSON file holds a dictionary, and its environment is one. -/
def HasEnvironment (f : File) (ms es : List (Text × Tree)) : Prop :=
  readJson N f = .ok (.obj ms) ∧ PyDict.getItem environment ms = some (.obj es)

/-- The document with the property set. -/
def assigned (ms es : List (Text × Tree)) (call : Call) : Tree :=
  .obj (PyDict.setItems environment (.obj (PyDict.setItems call.propertyName call.value.json es)) ms)

/-- The inventory can be parsed and has an environment. -/
def HasSection (f : File) (c : Config) (o : Options) : Prop :=
  readInventory f = .ok c ∧ c.sections.get? environment = some o

theorem setProperty_ok {d d' : Tree} {name : Text} {v : Tree} (h : setProperty d name v = .ok d') :
    ∃ ms es, d = .obj ms ∧ PyDict.getItem environment ms = some (.obj es) ∧
      d' = .obj (PyDict.setItems environment (.obj (PyDict.setItems name v es)) ms) := by
  unfold setProperty at h
  split at h
  · rename_i ms
    split at h
    · cases h
    · rename_i es hes
      cases h
      exact ⟨ms, es, rfl, hes, rfl⟩
    · cases h
  · cases h

theorem setProperty_obj {ms es : List (Text × Tree)} (h : PyDict.getItem environment ms = some (.obj es))
    (call : Call) : setProperty (.obj ms) call.propertyName call.value.json = .ok (assigned ms es call) := by
  rw [setProperty, h]
  rfl

theorem hasEnvironment_settled {f : File} {ms es : List (Text × Tree)} (h : HasEnvironment N f ms es) :
    (Tree.obj ms).Settled N ∧ (Tree.obj es).Settled N := by
  obtain ⟨hread, hget⟩ := h
  have hms : (Tree.obj ms).Settled N := by
    unfold readJson at hread
    split at hread
    · cases hread
    · cases hread
    · split at hread
      · cases hread
      · rename_i hl
        cases hread
        exact loads_settled N hl
  exact ⟨hms, settled_getItem N hms hget⟩

theorem hasEnvironment_unique {f : File} {ms es ms' es' : List (Text × Tree)}
    (h : HasEnvironment N f ms es) (h' : HasEnvironment N f ms' es') : ms = ms' ∧ es = es' := by
  cases h.1.symm.trans h'.1
  cases h.2.symm.trans h'.2
  exact ⟨rfl, rfl⟩

/-- The document can be written when the value can. -/
theorem complete_assigned {f : File} {ms es : List (Text × Tree)} (h : HasEnvironment N f ms es)
    (call : Call) : (assigned ms es call).complete = call.value.json.complete := by
  obtain ⟨hms, hes⟩ := hasEnvironment_settled N h
  rw [assigned, complete_setItems N hms, complete_setItems N hes]

/-- What is read back after the property was set. -/
theorem normal_assigned {f : File} {ms es : List (Text × Tree)} (h : HasEnvironment N f ms es)
    (call : Call) :
    (assigned ms es call).normal N = .obj (PyDict.setItems environment
      (.obj (PyDict.setItems call.propertyName (call.value.json.normal N) es)) ms) := by
  obtain ⟨hms, hes⟩ := hasEnvironment_settled N h
  rw [assigned, normal_setItems N hms, normal_setItems N hes]

def Refused (call : Call) : Prop := call.propertyNameCheck = true ∧ call.propertyName ∉ validProps

/-- The inventory with the property set. -/
def putOption (c : Config) (o : Options) (call : Call) : Config :=
  { c with sections := c.sections.set environment (o.set (lower call.propertyName) call.value.str) }

/-- The five ways a call can go. -/
inductive Outcome (call : Call) (fs : Files) : Files × Except Exn Unit → Prop
  | refused (e : Exn) : Refused call → Outcome call fs (fs, .error e)
  | noEnvironment (e : Exn) : ¬ Refused call → (∀ ms es, ¬ HasEnvironment N fs.json ms es) →
      Outcome call fs (fs, .error e)
  | broken (e : Exn) (ms es : List (Text × Tree)) : ¬ Refused call → HasEnvironment N fs.json ms es →
      call.value.json.complete = false →
      Outcome call fs ({ fs with json := .text (emit 0 (assigned ms es call)).text }, .error e)
  | noSection (e : Exn) (ms es : List (Text × Tree)) : ¬ Refused call →
      HasEnvironment N fs.json ms es → call.value.json.complete = true →
      (∀ c o, ¬ HasSection fs.inventory c o) →
      Outcome call fs ({ fs with json := .text (emit 0 (assigned ms es call)).text }, .error e)
  | done (ms es : List (Text × Tree)) (c : Config) (o : Options) : ¬ Refused call →
      HasEnvironment N fs.json ms es → call.value.json.complete = true →
      HasSection fs.inventory c o →
      Outcome call fs (⟨.text (write (putOption c o call)),
        .text (emit 0 (assigned ms es call)).text⟩, .ok ())

theorem persistInventory_cases (call : Call) (fs : Files) :
    (∃ c o, HasSection fs.inventory c o ∧ persistInventory call fs
        = ({ fs with inventory := .text (write (putOption c o call)) }, .ok ())) ∨
      (∀ c o, ¬ HasSection fs.inventory c o) ∧ ∃ e, persistInventory call fs = (fs, .error e) := by
  unfold persistInventory
  cases hr : readInventory fs.inventory with
  | error e =>
    refine .inr ⟨fun c o hs => ?_, e, rfl⟩
    cases hr.symm.trans hs.1
  | ok c =>
    simp only [Except.bind, setOption]
    cases hg : c.sections.get? environment with
    | none =>
      refine .inr ⟨fun c' o hs => ?_, _, rfl⟩
      cases hr.symm.trans hs.1
      cases hg.symm.trans hs.2
    | some o => exact .inl ⟨c, o, ⟨hr, hg⟩, rfl⟩

/-- What a call does. -/
theorem persist_outcome (call : Call) (fs : Files) : Outcome N call fs (persist N call fs) := by
  have hcond : (call.propertyNameCheck && !validProps.contains call.propertyName) = true ↔
      Refused call := by
    simp [Refused]
  unfold persist
  by_cases href : Refused call
  · rw [if_pos (hcond.mpr href)]
    exact .refused _ href
  rw [if_neg fun h => href (hcond.mp h)]
  cases hj : (readJson N fs.json).bind
      fun cluster => setProperty cluster call.propertyName call.value.json with
  | error e =>
    refine .noEnvironment e href fun ms es henv => ?_
    rw [henv.1, Except.bind, setProperty_obj henv.2] at hj
    cases hj
  | ok d =>
    obtain ⟨cluster, hread, hset⟩ := Loop.bind_eq_ok.mp hj
    obtain ⟨ms, es, rfl, hget, hd⟩ := setProperty_ok hset
    have henv : HasEnvironment N fs.json ms es := ⟨hread, hget⟩
    have hd' : d = assigned ms es call := hd
    subst hd'
    simp only [done_emit, complete_assigned N henv]
    cases hc : call.value.json.complete with
    | false => exact .broken _ ms es href henv hc
    | true =>
      rcases persistInventory_cases call { fs with json := .text (emit 0 (assigned ms es call)).text }
        with ⟨c, o, hs, hp⟩ | ⟨hno, e, hp⟩
      · rw [if_pos rfl, hp]
        exact .done ms es c o href henv hc hs
      · rw [if_pos rfl, hp]
        exact .noSection e ms es href henv hc hno

/-! ## Calls that raise -/

/-- What was read is not what is left behind. -/
theorem broken_ne {f : File} {ms es : List (Text × Tree)} {call : Call} (h : HasEnvironment N f ms es)
    (hc : call.value.json.complete = false) : .text (emit 0 (assigned ms es call)).text ≠ f := by
  intro he
  have hread := h.1
  rw [← he, readJson, loads_emit_broken N (by rw [complete_assigned N h, hc])] at hread
  cases hread

/-- When a call that raises leaves both files alone. -/
theorem raises_unchanged_iff (call : Call) (fs : Files) :
    (∀ e, (persist N call fs).2 = .error e → (persist N call fs).1 = fs) ↔
      Refused call ∨ (∀ ms es, ¬ HasEnvironment N fs.json ms es) ∨
      call.value.json.complete = true ∧ ((∃ c o, HasSection fs.inventory c o) ∨
        ∀ ms es, HasEnvironment N fs.json ms es →
          fs.json = .text (emit 0 (assigned ms es call)).text) := by
  have houtcome := persist_outcome N call fs
  revert houtcome
  generalize persist N call fs = r
  intro houtcome
  cases houtcome with
  | refused e href => simp [href]
  | noEnvironment e _ hno => simp [hno]
  | broken e ms es href henv hc =>
    have hne := broken_ne N henv hc
    constructor
    · intro h
      exact absurd (congrArg Files.json (h e rfl)) hne
    · rintro (h | h | h)
      · exact absurd h href
      · exact absurd henv (h ms es)
      · rw [hc] at h
        cases h.1
  | noSection e ms es href henv hc hno =>
    constructor
    · intro h
      refine .inr (.inr ⟨hc, .inr fun ms' es' henv' => ?_⟩)
      obtain ⟨rfl, rfl⟩ := hasEnvironment_unique N henv henv'
      exact (congrArg Files.json (h e rfl)).symm
    · rintro (h | h | ⟨-, ⟨c, o, h⟩ | h⟩) e' -
      · exact absurd h href
      · exact absurd henv (h ms es)
      · exact absurd h (hno c o)
      · simp only [← h ms es henv]
  | done ms es c o href henv hc hs =>
    constructor
    · intro _
      exact .inr (.inr ⟨hc, .inl ⟨c, o, hs⟩⟩)
    · intro _ e he
      cases he

end

/-- Numbers printed as they stand in the text. -/
def plainNumbers : Numbers := ⟨id, fun _ => rfl⟩

def trueValue : Value := ⟨"True".toList, .atom ⟨"true".toList, by decide⟩⟩

def enableXattrs : Call := ⟨"xattrs_enabled".toList, trueValue, true⟩

def noSectionFiles : Files :=
  ⟨.text "[hosts]\nn1=10.0.0.1\n".toList, .text "\x7b\"environment\": \x7b\x7d\x7d".toList⟩

/-- An inventory without an environment: the JSON file is written before this is found out. -/
theorem noSection_changes_json :
    ¬ ∀ e, (persist plainNumbers enableXattrs noSectionFiles).2 = .error e →
      (persist plainNumbers enableXattrs noSectionFiles).1 = noSectionFiles := by
  intro h
  have hsame := h (.noSection environment) rfl
  exact absurd hsame (by decide)

/-! ## Whole sequences -/

/-- A value as the inventory can hold it on one line. -/
structure OneLine (v : Value) : Prop where
  trimmed : Trimmed v.str
  noLf : '\n' ∉ v.str

theorem oneLine_of_noSpace {v : Value} (h : v.str.all (!PyStr.isspace ·) = true) : OneLine v := by
  have hall : ∀ c ∈ v.str, PyStr.isspace c = false := by simpa using List.all_eq_true.mp h
  refine ⟨⟨fun c hc => hall c (List.mem_of_mem_head? hc), fun c hc => hall c (List.mem_of_getLast? hc)⟩, ?_⟩
  intro hm
  have hlf := hall _ hm
  revert hlf
  decide

/-- No section has an option that the writer passes over. -/
def NoNameKey (c : Config) : Prop :=
  ∀ name o, c.sections.get? name = some o → o.get? nameKey = none

/-- Lower-case letters, digits and underscores. -/
def plainKeyChar (c : Char) : Bool :=
  (97 ≤ c.toNat && c.toNat ≤ 122) || (48 ≤ c.toNat && c.toNat ≤ 57) || c.toNat == 95

theorem toNat_plainKeyChar {c : Char} (h : plainKeyChar c = true) :
    48 ≤ c.toNat ∧ c.toNat ≤ 57 ∨ c.toNat = 95 ∨ 97 ≤ c.toNat ∧ c.toNat ≤ 122 := by
  simp only [plainKeyChar, Bool.or_eq_true, Bool.and_eq_true, beq_iff_eq, decide_eq_true_eq] at h
  omega

theorem keyOk_of_plain {key : Text} (hne : key ≠ []) (h : key.all plainKeyChar = true) : KeyOk key := by
  have hplain : ∀ c ∈ key, plainKeyChar c = true := List.all_eq_true.mp h
  have hother : ∀ d : Char, plainKeyChar d = false → d ∉ key := by
    intro d hd hm
    rw [hplain d hm] at hd
    cases hd
  have hspace : ∀ c ∈ key, PyStr.isspace c = false := by
    intro c hc
    have hn := toNat_plainKeyChar (hplain c hc)
    simp only [PyStr.isspace, PyStr.spaces, List.mem_cons, List.not_mem_nil, or_false,
      decide_eq_false_iff_not]
    omega
  refine ⟨hne, ⟨⟨?_, ?_⟩, hother _ (by decide), hother _ (by decide)⟩, ?_, ?_, ?_⟩
  · exact fun c hc => hspace c (List.mem_of_mem_head? hc)
  · exact fun c hc => hspace c (List.mem_of_getLast? hc)
  · have hself : ∀ c ∈ key, c.toLower = c := fun c hc => by
      have hn := toNat_plainKeyChar (hplain c hc)
      exact toLower_of_not_upper (by omega)
    exact (List.map_congr_left hself).trans (List.map_id _)
  · intro c hc
    have h1 : c ≠ '=' := fun he => hother '=' (by decide) (he ▸ hc)
    have h2 : c ≠ ':' := fun he => hother ':' (by decide) (he ▸ hc)
    simp [isDelimiter, h1, h2]
  · cases key with
    | nil => rfl
    | cons c cs =>
      have h1 : c ≠ '#' := fun he => hother '#' (by decide) (he ▸ List.mem_cons_self)
      have h2 : c ≠ ';' := fun he => hother ';' (by decide) (he ▸ List.mem_cons_self)
      simp [isComment, h1, h2]

theorem keyOk_validProps {key : Text} (h : key ∈ validProps) : KeyOk key := by
  have hall : validProps.all (fun k => !k.isEmpty && k.all plainKeyChar) = true := by decide
  have hk := List.all_eq_true.mp hall key h
  rw [Bool.and_eq_true] at hk
  refine keyOk_of_plain ?_ hk.2
  rintro rfl
  cases hk.1

theorem bracket_not_mem_validProps {key : Text} (h : key ∈ validProps) : '[' ∉ key := by
  have hall : validProps.all (fun k => !k.contains '[') = true := by decide
  simpa using List.all_eq_true.mp hall key h

/-- A valid property at a value of one line. -/
theorem optionOk_validProps {key : Text} (hk : key ∈ validProps) {v : Value} (hv : OneLine v)
    (hcr : '\r' ∉ v.str) : OptionOk key v.str := by
  have hkey := keyOk_validProps hk
  refine ⟨hkey, v.str, [], by simp [joinLines], ⟨⟨hv.trimmed, hv.noLf, hcr⟩, by simp, by simp⟩, ?_⟩
  refine sectionHeader_eq_none.mpr fun c rest he => ?_
  have hb := bracket_not_mem_validProps hk
  cases key with
  | nil => exact absurd rfl hkey.ne_nil
  | cons k ks =>
    rw [List.cons_append] at he
    rw [(List.cons.inj he).1] at hb
    exact absurd List.mem_cons_self hb

theorem kept_eq {c : Config} (h : NoNameKey c) : kept c = c := by
  refine config_ext rfl ?_
  have hsame : ∀ s ∈ c.sections.items, (s.1, s.2.erase nameKey) = s := by
    intro s hs
    have hget := (PyDict.mem_items_iff c.sections s.1 s.2).mp hs
    rw [PyDict.erase_of_get?_none (h s.1 s.2 hget)]
  exact (List.map_congr_left hsame).trans (List.map_id _)

section

variable (N : Numbers)

/-- The environment of the inventory after the calls. -/
def options (calls : List Call) (o : Options) : Options :=
  calls.foldl (fun o call => o.set call.propertyName call.value.str) o

/-- The environment of the JSON file after the calls. -/
def properties (calls : List Call) (es : List (Text × Tree)) : List (Text × Tree) :=
  calls.foldl (fun es call => PyDict.setItems call.propertyName (call.value.json.normal N) es) es

/-- Both files can be read, and the writer keeps every option. -/
structure Readable (fs : Files) (c : Config) (o : Options) (ms es : List (Text × Tree)) : Prop where
  hasSection : HasSection fs.inventory c o
  hasEnvironment : HasEnvironment N fs.json ms es
  noNameKey : NoNameKey c

theorem environment_ne_default : environment ≠ DEFAULTSECT := by decide

theorem readInventory_wellFormed {f : File} {c : Config} (h : readInventory f = .ok c) :
    WellFormed c := by
  unfold readInventory at h
  split at h
  · cases h
    exact good_start.wellFormed
  · cases h
  · split at h
    · cases h
    · rename_i hr
      cases h
      exact read_wellFormed hr

/-- A call of the sequence: a valid name, and a value that is read back from one line. -/
structure Good (call : Call) : Prop where
  valid : call.propertyName ∈ validProps
  oneLine : OneLine call.value
  noCr : '\r' ∉ call.value.str

theorem putOption_eq {call : Call} (h : Good call) (c : Config) (o : Options) :
    putOption c o call = c.put environment (o.set call.propertyName call.value.str) := by
  rw [putOption, (keyOk_validProps h.valid).lower, Config.put, if_neg environment_ne_default]

theorem get?_put_environment (c : Config) (o : Options) (name : Text) :
    (c.put environment o).sections.get? name
      = if name = environment then some o else c.sections.get? name := by
  rw [Config.put, if_neg environment_ne_default]
  exact PyDict.get?_set _ _ _ _

/-- One call that returns. -/
theorem readable_persist {call : Call} {fs fs' : Files} {c : Config} {o : Options}
    {ms es : List (Text × Tree)} (h : Readable N fs c o ms es) (hg : Good call)
    (hp : persist N call fs = (fs', .ok ())) :
    Readable N fs' (c.put environment (o.set call.propertyName call.value.str))
      (o.set call.propertyName call.value.str)
      (PyDict.setItems environment
        (.obj (PyDict.setItems call.propertyName (call.value.json.normal N) es)) ms)
      (PyDict.setItems call.propertyName (call.value.json.normal N) es) := by
  have hout := persist_outcome N call fs
  rw [hp] at hout
  cases hout with
  | done ms' es' c' o' _ henv hc hs =>
    obtain ⟨rfl, rfl⟩ := hasEnvironment_unique N h.hasEnvironment henv
    cases h.hasSection.1.symm.trans hs.1
    cases h.hasSection.2.symm.trans hs.2
    have hwf := readInventory_wellFormed hs.1
    have ho : c.options? environment = some o := (if_neg environment_ne_default).trans hs.2
    have hne : nameKey ≠ call.propertyName := by
      intro he
      exact absurd (he ▸ hg.valid) (by decide)
    have hwf' : WellFormed (c.put environment (o.set call.propertyName call.value.str)) := by
      refine hwf.put (fun _ => hwf.names _ ((PyDict.mem_keys _ _).mpr (by rw [hs.2]; rfl))) ?_
      intro k v hv
      rw [PyDict.get?_set] at hv
      split at hv
      · rename_i hk
        rw [hk, ← Option.some.inj hv]
        exact optionOk_validProps hg.valid hg.oneLine hg.noCr
      · exact hwf.options environment o ho k v hv
    have hname : NoNameKey (c.put environment (o.set call.propertyName call.value.str)) := by
      intro name p hp
      rw [get?_put_environment] at hp
      split at hp
      · rw [← Option.some.inj hp, PyDict.get?_set, if_neg hne]
        exact h.noNameKey environment o hs.2
      · exact h.noNameKey name p hp
    refine ⟨⟨?_, ?_⟩, ⟨?_, ?_⟩, hname⟩
    · rw [putOption_eq hg, readInventory, read_write hwf', kept_eq hname]
    · rw [get?_put_environment, if_pos rfl]
    · rw [readJson, loads_emit N (by rw [complete_assigned N henv, hc]), normal_assigned N henv]
    · rw [PyDict.getItem_setItems, if_pos rfl]

/-- Any number of calls that return. -/
theorem readable_persistAll {calls : List Call} {fs fs' : Files} {c : Config} {o : Options}
    {ms es : List (Text × Tree)} (h : Readable N fs c o ms es) (hg : ∀ call ∈ calls, Good call)
    (hp : persistAll N calls fs = some fs') :
    Readable N fs' (c.put environment (options calls o)) (options calls o)
      (PyDict.setItems environment (.obj (properties N calls es)) ms) (properties N calls es) := by
  induction calls generalizing fs c o ms es with
  | nil =>
    have hput : c.put environment o = c := by
      rw [Config.put, if_neg environment_ne_default, PyDict.set_get? h.hasSection.2]
    have hset : PyDict.setItems environment (.obj es) ms = ms :=
      PyDict.setItems_getItem h.hasEnvironment.2
    rw [options, properties, List.foldl_nil, List.foldl_nil, hput, hset, ← Option.some.inj hp]
    exact h
  | cons call calls ih =>
    rw [persistAll] at hp
    split at hp
    · rename_i fs1 _ hcall
      have h1 := readable_persist N h (hg call List.mem_cons_self) hcall
      have h2 := ih h1 (fun x hx => hg x (List.mem_cons_of_mem _ hx)) hp
      rw [Config.put_put, PyDict.setItems_setItems] at h2
      exact h2
    · cases hp

theorem items_options (calls : List Call) (o : Options) :
    (options calls o).items
      = PyDict.assignAll (calls.map fun call => (call.propertyName, call.value.str)) o.items := by
  induction calls generalizing o with
  | nil => rfl
  | cons call calls ih => exact ih (o.set call.propertyName call.value.str)

theorem properties_eq (calls : List Call) (es : List (Text × Tree)) :
    properties N calls es
      = PyDict.assignAll (calls.map fun call => (call.propertyName, call.value.json.normal N)) es := by
  rw [properties, PyDict.assignAll, List.foldl_map]

/-- The last call for a property. -/
theorem exists_last {calls : List Call} {call : Call} (h : call ∈ calls) :
    ∃ before last after, calls = before ++ last :: after ∧ last.propertyName = call.propertyName ∧
      ∀ x ∈ after, x.propertyName ≠ last.propertyName := by
  induction calls generalizing call with
  | nil => cases h
  | cons x calls ih =>
    by_cases hlater : ∃ y ∈ calls, y.propertyName = call.propertyName
    · obtain ⟨y, hy, hname⟩ := hlater
      obtain ⟨before, last, after, rfl, hlast, hafter⟩ := ih hy
      exact ⟨x :: before, last, after, rfl, hlast.trans hname, hafter⟩
    · have hx : call = x := by
        rcases List.mem_cons.mp h with he | hm
        · exact he
        · exact absurd ⟨call, hm, rfl⟩ hlater
      subst hx
      exact ⟨[], call, calls, rfl, rfl, fun y hy he => hlater ⟨y, hy, he⟩⟩

/-- What the two files say. -/
structure Contents where
  config : Config
  options : Options
  members : List (Text × Tree)
  properties : List (Text × Tree)

def Holds (fs : Files) (x : Contents) : Prop :=
  HasSection fs.inventory x.config x.options ∧ HasEnvironment N fs.json x.members x.properties

/-- The inventory has what `str` gives for the value in the JSON file. -/
def Agrees (pyStr : Tree → Text) (x : Contents) (k : Text) : Prop :=
  ∃ v, PyDict.getItem k x.properties = some v ∧ x.options.get? k = some (pyStr v)

/-- The contents `x'` after the calls, on files that held `x`. -/
structure InStep (pyStr : Tree → Text) (calls : List Call) (x x' : Contents) : Prop where
  agrees : ∀ call ∈ calls, Agrees pyStr x' call.propertyName
  keepsAgreement : ∀ k, Agrees pyStr x k → Agrees pyStr x' k
  last : ∀ before call after, calls = before ++ call :: after →
    (∀ y ∈ after, y.propertyName ≠ call.propertyName) →
    x'.options.get? call.propertyName = some call.value.str ∧
    PyDict.getItem call.propertyName x'.properties = some (call.value.json.normal N)
  defaults : x'.config.defaults = x.config.defaults
  sectionNames : x'.config.sections.keys = x.config.sections.keys
  otherSections : ∀ name, name ≠ environment →
    x'.config.sections.get? name = x.config.sections.get? name
  otherOptions : ∀ k, (∀ call ∈ calls, call.propertyName ≠ k) → x'.options.get? k = x.options.get? k
  memberNames : x'.members.map Prod.fst = x.members.map Prod.fst
  otherMembers : ∀ k, k ≠ environment → PyDict.getItem k x'.members = PyDict.getItem k x.members
  otherProperties : ∀ k, (∀ call ∈ calls, call.propertyName ≠ k) →
    PyDict.getItem k x'.properties = PyDict.getItem k x.properties

/-- The last call for a property decides what both files say. -/
theorem last_call (before : List Call) {after : List Call} {call : Call}
    (h : ∀ y ∈ after, y.propertyName ≠ call.propertyName) (o : Options) (es : List (Text × Tree)) :
    (options (before ++ call :: after) o).get? call.propertyName = some call.value.str ∧
      PyDict.getItem call.propertyName (properties N (before ++ call :: after) es)
        = some (call.value.json.normal N) := by
  have hpairs : ∀ {V : Type} (f : Call → V), ∀ kv ∈ after.map (fun y => (y.propertyName, f y)),
      kv.1 ≠ call.propertyName := by
    intro V f kv hkv
    obtain ⟨y, hy, rfl⟩ := List.mem_map.mp hkv
    exact h y hy
  constructor
  · have hlast := PyDict.getItem_assignAll_last
      (before.map fun y => (y.propertyName, y.value.str)) (hpairs fun y => y.value.str)
      call.value.str o.items
    have hitems := items_options (before ++ call :: after) o
    rw [List.map_append, List.map_cons] at hitems
    rw [← hitems] at hlast
    exact hlast
  · rw [properties_eq, List.map_append, List.map_cons]
    exact PyDict.getItem_assignAll_last _ (hpairs fun y => y.value.json.normal N) _ es

/-- A property that no call sets. -/
theorem other_property {calls : List Call} {k : Text} (h : ∀ call ∈ calls, call.propertyName ≠ k)
    (o : Options) (es : List (Text × Tree)) :
    (options calls o).get? k = o.get? k ∧
      PyDict.getItem k (properties N calls es) = PyDict.getItem k es := by
  have hpairs : ∀ {V : Type} (f : Call → V), ∀ kv ∈ calls.map (fun y => (y.propertyName, f y)),
      kv.1 ≠ k := by
    intro V f kv hkv
    obtain ⟨y, hy, rfl⟩ := List.mem_map.mp hkv
    exact h y hy
  constructor
  · have hother := PyDict.getItem_assignAll_other (hpairs fun y => y.value.str) o.items
    rw [← items_options] at hother
    exact hother
  · rw [properties_eq]
    exact PyDict.getItem_assignAll_other (hpairs fun y => y.value.json.normal N) es

/-- The property that a call sets. -/
theorem set_agrees {pyStr : Tree → Text} {calls : List Call} {call : Call} (h : call ∈ calls)
    (hstr : ∀ call ∈ calls, pyStr (call.value.json.normal N) = call.value.str) (o : Options)
    (es : List (Text × Tree)) :
    ∃ v, PyDict.getItem call.propertyName (properties N calls es) = some v ∧
      (options calls o).get? call.propertyName = some (pyStr v) := by
  obtain ⟨before, last, after, hcalls, hname, hafter⟩ := exists_last h
  obtain ⟨hini, hjson⟩ := last_call N before hafter o es
  have hmem : last ∈ calls := by
    rw [hcalls]
    exact List.mem_append_right _ List.mem_cons_self
  rw [← hcalls, hname] at hini hjson
  exact ⟨_, hjson, by rw [hini, hstr last hmem]⟩

/-- The contents with all properties set. -/
def Contents.after (calls : List Call) (x : Contents) : Contents where
  config := x.config.put environment (ClusterProps.options calls x.options)
  options := ClusterProps.options calls x.options
  members := PyDict.setItems environment (.obj (ClusterProps.properties N calls x.properties)) x.members
  properties := ClusterProps.properties N calls x.properties

theorem inStep_after {pyStr : Tree → Text} {calls : List Call} {x : Contents}
    (hsection : x.config.sections.get? environment = some x.options)
    (hmember : PyDict.getItem environment x.members = some (.obj x.properties))
    (hstr : ∀ call ∈ calls, pyStr (call.value.json.normal N) = call.value.str) :
    InStep N pyStr calls x (x.after N calls) where
  agrees := fun _ hc => set_agrees N hc hstr x.options x.properties
  keepsAgreement := by
    rintro k ⟨v, hv, hk⟩
    by_cases hcall : ∃ call ∈ calls, call.propertyName = k
    · obtain ⟨call, hc, rfl⟩ := hcall
      exact set_agrees N hc hstr x.options x.properties
    · obtain ⟨hini, hjson⟩ :=
        other_property N (fun call hc he => hcall ⟨call, hc, he⟩) x.options x.properties
      exact ⟨v, hjson.trans hv, hini.trans hk⟩
  last := by
    rintro before call after rfl hafter
    exact last_call N before hafter x.options x.properties
  defaults := by
    unfold Contents.after
    simp only [Config.put, if_neg environment_ne_default]
  sectionNames := by
    have hmem : environment ∈ x.config.sections.items.map Prod.fst :=
      (PyDict.mem_keys _ _).mpr (by rw [hsection]; rfl)
    have hkeys := PyDict.keys_setItems environment (options calls x.options) x.config.sections.items
    rw [if_pos hmem] at hkeys
    unfold Contents.after
    simp only [Config.put, if_neg environment_ne_default]
    exact hkeys
  otherSections := fun name hne => by
    unfold Contents.after
    rw [get?_put_environment, if_neg hne]
  otherOptions := fun _ hk => (other_property N hk x.options x.properties).1
  memberNames := by
    have hmem := PyDict.mem_keys_of_getItem hmember
    have hkeys := PyDict.keys_setItems environment (.obj (properties N calls x.properties)) x.members
    rwa [if_pos hmem] at hkeys
  otherMembers := fun k hne => by
    unfold Contents.after
    rw [PyDict.getItem_setItems, if_neg hne]
  otherProperties := fun _ hk => (other_property N hk x.options x.properties).2

/-- After any sequence of calls that return, the two files agree on what was set, every
property has its last value, and nothing else has changed. -/
theorem persistAll_inStep (pyStr : Tree → Text) {calls : List Call} {fs fs' : Files} {x : Contents}
    (hx : Holds N fs x) (hvalid : ∀ call ∈ calls, call.propertyName ∈ validProps ∧ OneLine call.value)
    (hname : NoNameKey x.config) (hcr : ∀ call ∈ calls, '\r' ∉ call.value.str)
    (hstr : ∀ call ∈ calls, pyStr (call.value.json.normal N) = call.value.str)
    (hrun : persistAll N calls fs = some fs') :
    ∃ x', Holds N fs' x' ∧ InStep N pyStr calls x x' := by
  have hgood : ∀ call ∈ calls, Good call := fun call hc =>
    ⟨(hvalid call hc).1, (hvalid call hc).2, hcr call hc⟩
  have hend := readable_persistAll N ⟨hx.1, hx.2, hname⟩ hgood hrun
  exact ⟨x.after N calls, ⟨hend.hasSection, hend.hasEnvironment⟩, inStep_after N hx.1.2 hx.2.2 hstr⟩

end

/-- `str` of a scalar of a JSON document. -/
def scalarStr : Tree → Text
  | .atom a =>
    if a.text = "true".toList then "True".toList
    else if a.text = "false".toList then "False".toList
    else if a.text = "null".toList then "None".toList
    else a.text
  | .str s => s
  | _ => []

def falseValue : Value := ⟨"False".toList, .atom ⟨"false".toList, by decide⟩⟩

def twoCalls : List Call :=
  [⟨"xattrs_enabled".toList, trueValue, true⟩, ⟨"cbs_ssl_enabled".toList, falseValue, true⟩,
    ⟨"xattrs_enabled".toList, falseValue, true⟩]

def hostFiles : Files :=
  ⟨.text "[couchbase_servers]\ncb1 ansible_host=10.0.0.1 ip:v=4\n\n[environment]\nxattrs_enabled=False\n".toList,
    .text "\x7b\"a\": [1], \"environment\": \x7b\"xattrs_enabled\": false\x7d\x7d".toList⟩

theorem hostFiles_inStep : ∃ x fs' x', persistAll plainNumbers twoCalls hostFiles = some fs' ∧
    Holds plainNumbers hostFiles x ∧ Holds plainNumbers fs' x' ∧
    InStep plainNumbers scalarStr twoCalls x x' := by
  obtain ⟨c, o, hsection, hname⟩ : ∃ c o, HasSection hostFiles.inventory c o ∧
      (c.sections.items.all fun s => (s.2.get? nameKey).isNone) = true := ⟨_, _, ⟨rfl, rfl⟩, rfl⟩
  obtain ⟨ms, es, henv⟩ : ∃ ms es, HasEnvironment plainNumbers hostFiles.json ms es :=
    ⟨_, _, rfl, rfl⟩
  obtain ⟨fs', hrun⟩ : ∃ fs', persistAll plainNumbers twoCalls hostFiles = some fs' := ⟨_, rfl⟩
  have hnoName : NoNameKey c := by
    intro name p hp
    have hmem := (PyDict.mem_items_iff c.sections name p).mpr hp
    exact Option.isNone_iff_eq_none.mp (List.all_eq_true.mp hname (name, p) hmem)
  have htrue : OneLine trueValue := oneLine_of_noSpace (by decide)
  have hfalse : OneLine falseValue := oneLine_of_noSpace (by decide)
  have hvalid : ∀ call ∈ twoCalls, call.propertyName ∈ validProps ∧ OneLine call.value := by
    simp only [twoCalls, List.forall_mem_cons, htrue, hfalse, and_true]
    exact ⟨by decide, by decide, by decide, by simp⟩
  have hcr : ∀ call ∈ twoCalls, '\r' ∉ call.value.str := by
    simp only [twoCalls, List.forall_mem_cons]
    exact ⟨by decide, by decide, by decide, by simp⟩
  have hstr : ∀ call ∈ twoCalls,
      scalarStr (call.value.json.normal plainNumbers) = call.value.str := by
    simp only [twoCalls, List.forall_mem_cons]
    exact ⟨rfl, rfl, rfl, by simp⟩
  have hx : Holds plainNumbers hostFiles ⟨c, o, ms, es⟩ := ⟨hsection, henv⟩
  obtain ⟨x', hx', hin⟩ := persistAll_inStep plainNumbers scalarStr hx hvalid hnoName hcr hstr hrun
  exact ⟨_, fs', x', hrun, hx, hx', hin⟩

def nameKeyFiles : Files :=
  ⟨.text "[hosts]\n__name__=cb1\n\n[environment]\nxattrs_enabled=False\n".toList,
    .text "\x7b\"environment\": \x7b\"xattrs_enabled\": false\x7d\x7d".toList⟩

/-- The value of an option in a file that can be read. -/
def optionAt (f : File) (name key : Text) : Option Text :=
  match readInventory f with
  | .error _ => none
  | .ok c => (c.sections.get? name).bind (·.get? key)

theorem optionAt_eq {f : File} {c : Config} (h : readInventory f = .ok c) (name key : Text) :
    optionAt f name key = (c.sections.get? name).bind (·.get? key) := by
  rw [optionAt, h]

/-- An option called `__name__` is lost by a call that sets another one. -/
theorem nameKey_not_inStep : ∃ x fs', Holds plainNumbers nameKeyFiles x ∧
    (∀ call ∈ [enableXattrs], call.propertyName ∈ validProps ∧ OneLine call.value) ∧
    persistAll plainNumbers [enableXattrs] nameKeyFiles = some fs' ∧
    ∀ x', Holds plainNumbers fs' x' → ¬ InStep plainNumbers scalarStr [enableXattrs] x x' := by
  obtain ⟨c, o, hsection⟩ : ∃ c o, HasSection nameKeyFiles.inventory c o := ⟨_, _, rfl, rfl⟩
  obtain ⟨ms, es, henv⟩ : ∃ ms es, HasEnvironment plainNumbers nameKeyFiles.json ms es :=
    ⟨_, _, rfl, rfl⟩
  have hlost : (persistAll plainNumbers [enableXattrs] nameKeyFiles).map
      (fun fs => optionAt fs.inventory "hosts".toList nameKey) = some none := rfl
  obtain ⟨fs', hrun, hlost⟩ := Option.map_eq_some_iff.mp hlost
  have hvalue : OneLine enableXattrs.value := oneLine_of_noSpace (by decide)
  refine ⟨⟨c, o, ms, es⟩, fs', ⟨hsection, henv⟩, ?_, hrun, ?_⟩
  · intro call hc
    rw [List.mem_singleton.mp hc]
    exact ⟨by decide, hvalue⟩
  · intro x' hx' hin
    have hbefore : optionAt nameKeyFiles.inventory "hosts".toList nameKey = some "cb1".toList := rfl
    have hsame := hin.otherSections "hosts".toList (by decide)
    rw [optionAt_eq hsection.1] at hbefore
    rw [optionAt_eq hx'.1.1, hsame, hbefore] at hlost
    cases hlost

end MobileTestkit.L4.ClusterProps
