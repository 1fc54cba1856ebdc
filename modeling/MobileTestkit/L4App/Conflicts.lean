import Mathlib.Data.String.Basic
import MobileTestkit.Core.ExceptLoop
import MobileTestkit.Core.JsonValue
import MobileTestkit.Core.PyStr
import MobileTestkit.Core.Rely
import MobileTestkit.Core.RevTree
import MobileTestkit.L4App.ClientChecks

/-!
# Conflicting revisions

Model of the keywords of keywords/MobileRestClient.py that make, look at and remove
conflicting revisions: `add_conflict` and the `get_doc` it begins with, `get_conflict_revs`,
`verify_open_revs`, and `delete_conflicts` of L4App.ClientChecks. The server keeps a tree of
revisions for each document and takes over the history of a PUT with `new_edits=false`; it
may also refuse any request.

Authentication is left out; it changes the headers only.

* `told_names_iff`: when the history that `add_conflict` sends names the given revisions.
* `addConflict_grafts`: what a call among other clients does to the tree.
* `openRevs_after_conflict`: what `verify_open_revs` accepts after it.
* `deleteConflicts_resolves`: after `delete_conflicts` the winners are left, as they were.
-/
namespace MobileTestkit.L4.Conflicts

open MobileTestkit.Core

abbrev Dict := PyDict String JsonValue

inductive Exn where
  | httpError
  | typeError (message : String)
  | keyError (key : String)
  | attributeError
  | indexError
  | valueError
  | fileNotFoundError
  | assertionError (message : String)
  | unexpectedOpenRevs (expected actual : List String)

/-- A row of `open_revs=all`: the entry `"ok"`, if there is one, with its `_rev` and whether
it has a `_deleted`. -/
structure Row where
  ok : Option (Option String × Bool)
  deriving DecidableEq

inductive Query where
  | getDoc (docId : String)
  | getOpenRevs (docId : String)
  | putDoc (docId : String) (body : Dict)

/-- The body of the answer, or what the request raises. -/
@[reducible] def Answer : Query → Type
  | .getDoc _ => Except Exn Dict
  | .getOpenRevs _ => Except Exn (List Row)
  | .putDoc _ _ => Except Exn Unit

abbrev sig : Sig := ⟨Query, Answer, Empty, Exn⟩

abbrev Prog := Proc sig

/-! ## The source -/

def stripAttachment : JsonValue → Except Exn JsonValue
  | .obj members =>
    if "digest" ∉ JsonValue.keys members then .error (.keyError "digest")
    else if "length" ∉ JsonValue.keys members then .error (.keyError "length")
    else .ok (.obj (members.filter fun kv => kv.1 ≠ "digest" ∧ kv.1 ≠ "length"))
  | _ => .error (.typeError "")

/-- mirrors keywords/MobileRestClient.py:943-946 -/
def stripAttachments (doc : Dict) : Except Exn Dict :=
  match doc.get? "_attachments" with
  | none => .ok doc
  | some (.obj members) => do
    let members ← members.mapM fun kv => do return (kv.1, ← stripAttachment kv.2)
    return doc.set "_attachments" (.obj members)
  | some _ => .error .attributeError

/-- What a part that makes no request returns or raises. -/
def lift {α : Type} : Except Exn α → Prog α
  | .ok a => .ret a
  | .error x => .raise x

/-- mirrors keywords/MobileRestClient.py:876-948 -/
def getDoc (docId : String) : Prog Dict :=
  .call (Query.getDoc docId) fun (resp : Except Exn Dict) => lift (resp.bind stripAttachments)

/-- mirrors keywords/MobileRestClient.py:694-701 -/
def getRevGenerationDigest (rev : String) : Except Exn (String × String) :=
  match PyStr.split rev '-' with
  | [generation, digest] => .ok (generation, digest)
  | _ => .error (.assertionError "Revision should have a generation and a digest")

/-- The argument `parent_revisions`. -/
inductive ParentRevisions where
  | one (rev : String)
  | list (revs : List String)
  | other

/-- mirrors keywords/MobileRestClient.py:1054-1060 -/
def ParentRevisions.revs : ParentRevisions → Except Exn (List String)
  | .one rev => .ok [rev]
  | .list revs => .ok revs
  | .other => .error (.typeError "Add Conflict expects a list or str for parent_revisions")

/-- The generation and the digest; the parts after the second are not used.
mirrors keywords/MobileRestClient.py:1071-1073 -/
def newRevisionParts (newRevision : String) : Except Exn (Int × String) :=
  match PyStr.split newRevision '-' with
  | [] => .error .indexError
  | generation :: rest =>
    match PyStr.int generation, rest with
    | none, _ => .error .valueError
    | some _, [] => .error .indexError
    | some newRevisionGeneration, newRevisionDigest :: _ => .ok (newRevisionGeneration, newRevisionDigest)

def revisions (start : Int) (ids : List String) : JsonValue :=
  .obj [("ids", .arr (ids.map .str)), ("start", .int start)]

section
variable (load : String → Except Exn String)

/-- mirrors keywords/MobileRestClient.py:1086-1092 -/
def attach (attachmentName : Option String) (doc : Dict) : Except Exn Dict :=
  match attachmentName with
  | none => .ok doc
  | some attachmentName => do
    let data ← load attachmentName
    return doc.set "_attachments" (.obj [(attachmentName, .obj [("data", .str data)])])

/-- The body of the PUT; `load` is the data of an attachment, decoded.
mirrors keywords/MobileRestClient.py:1071-1101 -/
def conflictBody (parentRevs : List String) (newRevision : String) (attachmentName : Option String)
    (doc : Dict) : Except Exn Dict := do
  let (generation, digest) ← newRevisionParts newRevision
  let doc := doc.set "_rev" (.str newRevision)
  let doc := doc.set "_revisions" (revisions generation [digest])
  let doc ← attach load attachmentName doc
  let parentRevisionDigests ← parentRevs.mapM fun rev => do return (← getRevGenerationDigest rev).2
  return doc.set "_revisions" (revisions generation (digest :: parentRevisionDigests))

structure Added where
  id : String
  rev : String
  deriving DecidableEq

/-- mirrors keywords/MobileRestClient.py:1031-1114 -/
def addConflict (docId : String) (parentRevisions : ParentRevisions) (newRevision : String)
    (attachmentName : Option String) : Prog Added :=
  (lift parentRevisions.revs).bind fun parentRevs =>
    (getDoc docId).bind fun doc =>
      (lift (conflictBody load parentRevs newRevision attachmentName doc)).bind fun body =>
        .call (Query.putDoc docId body) fun (resp : Except Exn Unit) =>
          (lift resp).bind fun _ => .ret ⟨docId, newRevision⟩

end

/-- mirrors keywords/MobileRestClient.py:1116-1123 -/
def getConflictRevs (docId : String) : Prog JsonValue :=
  (getDoc docId).bind fun docResp =>
    match docResp.get? "_conflicts" with
    | none => .raise (.keyError "_conflicts")
    | some conflictRevs => .ret conflictRevs

/-- `row["ok"]["_rev"]` -/
def Row.rev (row : Row) : Except Exn String :=
  match row.ok with
  | none => .error (.keyError "ok")
  | some (none, _) => .error (.keyError "_rev")
  | some (some rev, _) => .ok rev

def unexpectedLength (expected actual : Nat) : Exn := .assertionError
  ("Unexpected open_revisions length! Expected: " ++ toString expected ++ ", Actual: " ++ toString actual)

/-- mirrors keywords/MobileRestClient.py:776-785 -/
def compareOpenRevs (expectedOpenRevs : List String) (rows : List Row) : Except Exn Unit := do
  let openRevs ← rows.mapM Row.rev
  if openRevs.length ≠ expectedOpenRevs.length then
    .error (unexpectedLength expectedOpenRevs.length openRevs.length)
  else if openRevs.toFinset ≠ expectedOpenRevs.toFinset then
    .error (.unexpectedOpenRevs expectedOpenRevs openRevs)
  else .ok ()

/-- mirrors keywords/MobileRestClient.py:768-787 -/
def verifyOpenRevs (docId : String) (expectedOpenRevs : List String) : Prog Unit :=
  .call (Query.getOpenRevs docId) fun (resp : Except Exn (List Row)) =>
    lift (resp.bind (compareOpenRevs expectedOpenRevs))

/-! ## The server -/

/-- The name of a revision. -/
def name (r : Rev String) : String := toString r.gen ++ "-" ++ r.digest

/-- The documents, each with its revisions. -/
abbrev Store := String → RevTree String

def strings : List JsonValue → Option (List String)
  | [] => some []
  | .str s :: rest => (strings rest).map (s :: ·)
  | _ :: _ => none

/-- The history in the body of a PUT. -/
def historyOf (body : Dict) : Option (Int × List String) :=
  match body.get? "_revisions" with
  | some (.obj members) =>
    match members.lookup "start", members.lookup "ids" with
    | some (.int start), some (.arr ids) => (strings ids).map (start, ·)
    | _, _ => none
  | _ => none

/-- The rows of the leaves, in some order. -/
def Rows (t : RevTree String) (rows : List Row) : Prop :=
  ∃ l : List (Rev String), l.Nodup ∧ l.toFinset = t.leaves ∧
    rows = l.map fun r => ⟨some (some (name r), decide (r ∈ t.tombstones))⟩

/-- A document as it is read: its revision is the winner, and the other live leaves are its
conflicts. -/
def Reads (t : RevTree String) (doc : Dict) : Prop :=
  ∃ w l, t.IsWinner w ∧ l.Nodup ∧ l.toFinset = t.live.erase w ∧ doc.get? "_rev" = some (.str (name w)) ∧
    doc.get? "_conflicts" = if l = [] then none else some (.arr (l.map fun r => .str (name r)))

/-- Any request may be refused. A history that is taken over has generations from 1 on. -/
def Store.Answers (s : Store) : (q : Query) → Answer q → Prop
  | .getDoc docId, (.ok doc : Except Exn Dict) => Reads (s docId) doc
  | .getOpenRevs docId, (.ok rows : Except Exn (List Row)) => Rows (s docId) rows
  | .putDoc _ body, (.ok _ : Except Exn Unit) =>
    ∃ start ids, historyOf body = some (start, ids) ∧ (ids.length : Int) ≤ start
  | _, _ => True

def Store.next (s : Store) : (q : Query) → Answer q → Store
  | .putDoc docId body, (.ok _ : Except Exn Unit) =>
    match historyOf body with
    | some (start, ids) => Function.update s docId ((s docId).graft start ids)
    | none => s
  | _, _ => s

def revServer : Server sig Store where
  ok := Store.Answers
  next := Store.next

/-! ## The history that is sent -/

/-- The history of the new revision, from the texts of the revisions. -/
def told (newRevision : String) (parentRevs : List String) : Except Exn (Int × List String) := do
  let (generation, digest) ← newRevisionParts newRevision
  let parentRevisionDigests ← parentRevs.mapM fun rev => do return (← getRevGenerationDigest rev).2
  return (generation, digest :: parentRevisionDigests)

theorem strings_map (l : List String) : strings (l.map .str) = some l := by
  induction l with
  | nil => rfl
  | cons x l ih => rw [List.map_cons, strings, ih, Option.map_some]

theorem historyOf_set (doc : Dict) (start : Int) (ids : List String) :
    historyOf (doc.set "_revisions" (revisions start ids)) = some (start, ids) := by
  have hids : [("ids", JsonValue.arr (ids.map .str)), ("start", .int start)].lookup "ids"
      = some (.arr (ids.map .str)) := rfl
  have hstart : [("ids", JsonValue.arr (ids.map .str)), ("start", .int start)].lookup "start"
      = some (.int start) := rfl
  rw [historyOf, PyDict.get?_set, if_pos rfl]
  simp only [revisions, hids, hstart, strings_map, Option.map_some]

theorem historyOf_conflictBody {load : String → Except Exn String} {parentRevs : List String}
    {newRevision : String} {attachmentName : Option String} {doc body : Dict}
    (h : conflictBody load parentRevs newRevision attachmentName doc = .ok body) :
    ∃ start ids, told newRevision parentRevs = .ok (start, ids) ∧ historyOf body = some (start, ids) := by
  obtain ⟨⟨generation, digest⟩, hparts, h⟩ := Loop.bind_eq_ok.mp h
  obtain ⟨doc', -, h⟩ := Loop.bind_eq_ok.mp h
  obtain ⟨digests, hdigests, h⟩ := Loop.bind_eq_ok.mp h
  obtain rfl := Except.ok.inj h
  refine ⟨generation, digest :: digests, ?_, historyOf_set _ _ _⟩
  exact Loop.bind_eq_ok.mpr ⟨_, hparts, Loop.bind_eq_ok.mpr ⟨_, hdigests, rfl⟩⟩

/-- The parts of a text, with the separators between them. -/
theorem splitList_flatten {c : Char} {cs part : List Char} {parts : List (List Char)}
    (h : PyStr.splitList c cs = part :: parts) : cs = part ++ parts.flatMap (c :: ·) := by
  induction cs generalizing part parts with
  | nil =>
    obtain ⟨rfl, rfl⟩ := List.cons.inj h
    rfl
  | cons x xs ih =>
    rw [PyStr.splitList] at h
    split at h
    · rename_i hx
      obtain ⟨rfl, rfl⟩ := List.cons.inj h
      obtain ⟨q, qs, hq⟩ := List.exists_cons_of_ne_nil (PyStr.splitList_ne_nil c xs)
      rw [hq, List.flatMap_cons, List.nil_append, List.cons_append, ← ih hq, hx]
    · cases hrest : PyStr.splitList c xs with
      | nil => exact absurd hrest (PyStr.splitList_ne_nil c xs)
      | cons q qs =>
        rw [hrest] at h
        obtain ⟨rfl, rfl⟩ := List.cons.inj h
        rw [List.cons_append, ← ih hrest]

theorem split_eq_two {rev generation digest : String} (h : PyStr.split rev '-' = [generation, digest]) :
    rev = generation ++ "-" ++ digest := by
  unfold PyStr.split at h
  obtain ⟨g, rest, hsplit, hg, hrest⟩ := List.map_eq_cons_iff.mp h
  obtain ⟨d, rest', hd', hd, hnil⟩ := List.map_eq_cons_iff.mp hrest
  obtain rfl := List.map_eq_nil_iff.mp hnil
  subst hd'
  have hchars := splitList_flatten hsplit
  rw [List.flatMap_cons, List.flatMap_nil, List.append_nil] at hchars
  apply String.toList_inj.mp
  rw [hchars, ← hg, ← hd]
  simp only [String.toList_append, String.toList_ofList, List.append_assoc]
  rfl

/-- What stands before the first dash. -/
def generationText (rev : String) : String := (PyStr.split rev '-').headD ""

/-- The generations of the revisions, as they are written, count down. -/
def CountsDown : Int → List String → Prop
  | _, [] => True
  | generation, rev :: revs => generationText rev = toString generation ∧ CountsDown (generation - 1) revs

theorem getRevGenerationDigest_ok {rev generation digest : String}
    (h : getRevGenerationDigest rev = .ok (generation, digest)) : PyStr.split rev '-' = [generation, digest] := by
  unfold getRevGenerationDigest at h
  split at h
  · obtain ⟨rfl, rfl⟩ := Prod.mk.inj (Except.ok.inj h)
    assumption
  · cases h

theorem name_eq_iff {rev text digest : String} (h : PyStr.split rev '-' = [text, digest]) (generation : Int) :
    name ⟨generation, digest⟩ = rev ↔ generationText rev = toString generation := by
  have htext : generationText rev = text := by rw [generationText, h, List.headD_cons]
  rw [htext, split_eq_two h, name]
  constructor
  · intro he
    have hchars := String.toList_inj.mpr he
    simp only [String.toList_append] at hchars
    exact String.toList_inj.mp (List.append_cancel_right (List.append_cancel_right hchars)).symm
  · intro he
    rw [he]

theorem names_digests_iff {revs digests : List String} (generation : Int)
    (h : (revs.mapM fun rev => do return (← getRevGenerationDigest rev).2) = Except.ok digests) :
    (RevTree.chain generation digests).map name = revs ↔ CountsDown generation revs := by
  induction revs generalizing generation digests with
  | nil =>
    obtain rfl : [] = digests := Except.ok.inj h
    exact iff_of_true rfl trivial
  | cons rev revs ih =>
    rw [List.mapM_cons] at h
    obtain ⟨digest, hrev, h⟩ := Loop.bind_eq_ok.mp h
    obtain ⟨rest, hrest, h⟩ := Loop.bind_eq_ok.mp h
    obtain rfl := Except.ok.inj h
    obtain ⟨⟨text, digest'⟩, hparts, hret⟩ := Loop.bind_eq_ok.mp hrev
    obtain rfl : digest' = digest := Except.ok.inj hret
    rw [RevTree.chain, List.map_cons, List.cons.injEq, CountsDown,
      name_eq_iff (getRevGenerationDigest_ok hparts) generation, ih (generation - 1) hrest]

/-- A revision as servers number them, whose digest has no dash. -/
def Plain (r : Rev String) : Prop := 0 < r.gen ∧ '-' ∉ r.digest.toList

instance : DecidablePred Plain := fun _ => inferInstanceAs (Decidable (_ ∧ _))

theorem split_name {r : Rev String} (hgen : 0 ≤ r.gen) (hdigest : '-' ∉ r.digest.toList) :
    PyStr.split (name r) '-' = [toString r.gen, r.digest] := by
  obtain ⟨n, hn⟩ := Int.eq_ofNat_of_zero_le hgen
  have hlist : (toString r.gen).toList = Nat.toDigits 10 n := by
    rw [hn, Int.toString_eq_repr]
    exact Nat.toList_repr
  have hdash : '-' ∉ (toString r.gen).toList := by
    rw [hlist]
    intro hmem
    have hdigit := Nat.isDigit_of_mem_toDigits (by decide) (by decide) hmem
    exact absurd hdigit (by decide)
  have hchars : (name r).toList = (toString r.gen).toList ++ '-' :: r.digest.toList := by
    rw [name, String.toList_append, String.toList_append, List.append_assoc]
    rfl
  rw [PyStr.split, hchars, PyStr.splitList_append hdash, PyStr.splitList_of_not_mem hdigest]
  simp

theorem name_injective {r r' : Rev String} (h : Plain r) (h' : Plain r') (hname : name r = name r') : r = r' := by
  have hsplit := split_name h.1.le h.2
  rw [hname, split_name h'.1.le h'.2] at hsplit
  obtain ⟨hgen, hdigest⟩ := List.cons.inj hsplit
  cases r
  cases r'
  rw [Rev.mk.injEq]
  exact ⟨(PyStr.toString_int_inj hgen).symm, (List.cons.inj hdigest).1.symm⟩

theorem newRevisionParts_ok {newRevision digest : String} {start : Int}
    (h : newRevisionParts newRevision = .ok (start, digest)) :
    ∃ text rest, PyStr.split newRevision '-' = text :: digest :: rest ∧ PyStr.int text = some start := by
  unfold newRevisionParts at h
  split at h
  · cases h
  · rename_i text rest hsplit
    split at h
    · cases h
    · cases h
    · rename_i start' digest' rest' hint
      obtain ⟨rfl, rfl⟩ := Prod.mk.inj (Except.ok.inj h)
      exact ⟨text, rest', hsplit, hint⟩

theorem digest_no_dash {newRevision text digest : String} {rest : List String}
    (h : PyStr.split newRevision '-' = text :: digest :: rest) : '-' ∉ digest.toList := by
  have hmem : digest ∈ PyStr.split newRevision '-' := by
    rw [h]
    exact List.mem_cons_of_mem _ List.mem_cons_self
  obtain ⟨cs, hcs, rfl⟩ := List.mem_map.mp hmem
  rw [String.toList_ofList]
  exact (PyStr.mem_splitList hcs).1

/-- The name of a revision with a negative generation begins with a dash, and is no
revision that is taken apart. -/
theorem start_nonneg {newRevision digest : String} {start : Int}
    (h : newRevisionParts newRevision = .ok (start, digest)) (hname : name ⟨start, digest⟩ = newRevision) :
    0 ≤ start := by
  obtain ⟨text, rest, hsplit, hint⟩ := newRevisionParts_ok h
  by_contra hneg
  obtain ⟨n, hn⟩ := Int.eq_negSucc_of_lt_zero (Int.not_le.mp hneg)
  have hchars : ∃ cs, newRevision.toList = '-' :: cs := by
    rw [← hname, name, hn, Int.toString_eq_repr, String.toList_append, String.toList_append]
    exact ⟨Nat.toDigits 10 (n + 1) ++ "-".toList ++ digest.toList, by simp [Int.repr]⟩
  obtain ⟨cs, hcs⟩ := hchars
  have hempty : PyStr.split newRevision '-' = "" :: (PyStr.splitList '-' cs).map String.ofList := by
    rw [PyStr.split, hcs, PyStr.splitList, if_pos rfl]
    rfl
  rw [hempty] at hsplit
  rw [← (List.cons.inj hsplit).1] at hint
  cases hint

/-- The history names the given revisions exactly if the generations, as they are written,
count down from that of the new one, and this has no third part. -/
theorem told_names_iff {newRevision : String} {parentRevs ids : List String} {start : Int}
    (h : told newRevision parentRevs = .ok (start, ids)) :
    (RevTree.chain start ids).map name = newRevision :: parentRevs ↔
      (PyStr.split newRevision '-').length = 2 ∧ CountsDown start (newRevision :: parentRevs) := by
  obtain ⟨⟨generation, digest⟩, hparts, h⟩ := Loop.bind_eq_ok.mp h
  obtain ⟨digests, hdigests, h⟩ := Loop.bind_eq_ok.mp h
  obtain ⟨rfl, rfl⟩ := Prod.mk.inj (Except.ok.inj h)
  obtain ⟨text, rest, hsplit, -⟩ := newRevisionParts_ok hparts
  rw [RevTree.chain, List.map_cons, List.cons.injEq, names_digests_iff (generation - 1) hdigests, CountsDown,
    ← and_assoc]
  refine and_congr_left fun _ => ⟨fun hname => ?_, fun hparsed => ?_⟩
  · have htwo := split_name (r := ⟨generation, digest⟩) (start_nonneg hparts hname) (digest_no_dash hsplit)
    rw [hname] at htwo
    exact ⟨by rw [htwo]; rfl, by rw [generationText, htwo]; rfl⟩
  · obtain ⟨htwo, htext⟩ := hparsed
    rw [hsplit] at htwo
    obtain rfl : rest = [] := by
      cases rest with
      | nil => rfl
      | cons x xs => simp at htwo
    exact (name_eq_iff hsplit generation).mpr htext

/-! ## A call -/

/-- A request of a run. -/
abbrev Call := Moment sig Store

/-- The request is a PUT that the server has accepted. -/
def accepted (m : Call) : Bool :=
  match m with
  | ⟨_, .putDoc _ _, (.ok _ : Except Exn Unit)⟩ => true
  | _ => false

/-- What a history makes of a tree: nothing is lost; if its newest revision is new, it is a
leaf in the place of the newest one that was known. -/
structure Branched (t t' : RevTree String) (new : Rev String) (older : List String) : Prop where
  revs : t.revs ⊆ t'.revs
  parent : ∀ r ∈ t.revs, t'.parent r = t.parent r
  tombstones : t'.tombstones = t.tombstones
  known : new ∈ t.revs → t' = t
  leaves : new ∉ t.revs →
    t'.leaves = insert new (t.leaves.filter fun q => t.anchor (new.gen - 1) older ≠ some q)

theorem branched_graft (t : RevTree String) (start : Int) (digest : String) (older : List String) :
    Branched t (t.graft start (digest :: older)) ⟨start, digest⟩ older := by
  obtain ⟨hrevs, hparent, htombs⟩ := t.graft_keeps start (digest :: older)
  exact ⟨hrevs, hparent, htombs, RevTree.graft_of_mem older, RevTree.leaves_graft⟩

section Runs
variable {R : Store → Store → Prop} {s s' : Store} {docId : String} {ms : List Call}

theorem rely_lift {α β : Type} {e : Except Exn α} {f : α → Prog β} {o : Except Exn β}
    (h : RelyRun revServer R ((lift e).bind f) s s' o ms) :
    (∃ a, e = .ok a ∧ RelyRun revServer R (f a) s s' o ms) ∨
      ∃ x, e = .error x ∧ s' = s ∧ o = .error x ∧ ms = [] := by
  cases e with
  | ok a => exact .inl ⟨a, rfl, h⟩
  | error x => exact .inr ⟨x, rfl, h⟩

/-- The document, as the server has it, and what follows. -/
theorem rely_getDoc {α : Type} {f : Dict → Prog α} {o : Except Exn α}
    (h : RelyRun revServer R ((getDoc docId).bind f) s s' o ms) :
    ∃ t resp rest, R s t ∧ t.Answers (.getDoc docId) resp ∧ ms = ⟨t, .getDoc docId, resp⟩ :: rest ∧
      ((∃ doc, Except.bind resp stripAttachments = .ok doc ∧ RelyRun revServer R (f doc) t s' o rest) ∨
        ∃ x, s' = t ∧ o = .error x ∧ rest = []) := by
  obtain ⟨t, resp, rest, hR, hok, hrest, rfl⟩ := h
  refine ⟨t, resp, rest, hR, hok, rfl, ?_⟩
  rcases rely_lift hrest with ⟨doc, hdoc, hrun⟩ | ⟨x, -, hs, ho, hrest⟩
  · exact .inl ⟨doc, hdoc, hrun⟩
  · exact .inr ⟨x, hs, ho, hrest⟩

/-- A call has its PUT accepted, as the last request, or it raises. -/
theorem addConflict_run {load : String → Except Exn String} {parentRevisions : ParentRevisions}
    {newRevision : String} {attachmentName : Option String} {o : Except Exn Added}
    (h : RelyRun revServer R (addConflict load docId parentRevisions newRevision attachmentName) s s' o ms) :
    (∃ parentRevs t u start digest older read body, parentRevisions.revs = .ok parentRevs ∧
        told newRevision parentRevs = .ok (start, digest :: older) ∧ (older.length : Int) < start ∧
        R s u ∧ R u t ∧ o = .ok ⟨docId, newRevision⟩ ∧
        ms = [⟨u, .getDoc docId, read⟩, ⟨t, .putDoc docId body, .ok ()⟩] ∧
        s' = Function.update t docId ((t docId).graft start (digest :: older))) ∨
      ∃ x, o = .error x ∧ ∀ m ∈ ms, accepted m = false := by
  rcases rely_lift h with ⟨parentRevs, hrevs, hrun⟩ | ⟨x, -, -, ho, rfl⟩
  swap
  · exact .inr ⟨x, ho, fun m hm => absurd hm List.not_mem_nil⟩
  obtain ⟨u, read, rest, hu, -, rfl, ⟨doc, hdoc, hrun⟩ | ⟨x, -, ho, rfl⟩⟩ := rely_getDoc hrun
  swap
  · refine .inr ⟨x, ho, fun m hm => ?_⟩
    rw [List.mem_singleton.mp hm]
    rfl
  rcases rely_lift hrun with ⟨body, hbody, hput⟩ | ⟨x, -, -, ho, rfl⟩
  swap
  · refine .inr ⟨x, ho, fun m hm => ?_⟩
    rw [List.mem_singleton.mp hm]
    rfl
  obtain ⟨t, resp, rest, ht, hok, hend, rfl⟩ := hput
  cases (resp : Except Exn Unit) with
  | error x =>
    obtain ⟨-, ho, rfl⟩ := hend
    refine .inr ⟨x, ho, fun m hm => ?_⟩
    simp only [List.mem_cons, List.not_mem_nil, or_false] at hm
    rcases hm with rfl | rfl <;> rfl
  | ok _ =>
    obtain ⟨start, ids, htold, hhistory⟩ := historyOf_conflictBody hbody
    obtain ⟨start', ids', hhistory', hlen⟩ := hok
    obtain ⟨rfl, rfl⟩ := Prod.mk.inj (Option.some.inj (hhistory.symm.trans hhistory'))
    obtain ⟨rfl, ho, rfl⟩ := hend
    obtain ⟨⟨generation, digest⟩, -, hids⟩ := Loop.bind_eq_ok.mp htold
    obtain ⟨older, -, hids⟩ := Loop.bind_eq_ok.mp hids
    obtain ⟨-, rfl⟩ := Prod.mk.inj (Except.ok.inj hids)
    refine .inl ⟨parentRevs, t, u, start, digest, older, read, body, hrevs, htold, ?_, hu, ht, ho, rfl, ?_⟩
    · rw [List.length_cons] at hlen
      omega
    · simp only [revServer, Store.next, hhistory]

/-- **A conflicting revision.** Among other clients: a call that returns has put a history
into the tree as it then was, and left all other documents alone; the history names the
given revisions exactly if their generations are written as they count down. A call that
raises has written nothing. -/
theorem addConflict_grafts (load : String → Except Exn String) (parentRevisions : ParentRevisions)
    (newRevision : String) (attachmentName : Option String) {o : Except Exn Added}
    (h : RelyRun revServer R (addConflict load docId parentRevisions newRevision attachmentName) s s' o ms) :
    (∀ added, o = .ok added → added = ⟨docId, newRevision⟩ ∧
      ∃ parentRevs t start digest older, parentRevisions.revs = .ok parentRevs ∧
        told newRevision parentRevs = .ok (start, digest :: older) ∧
        (∃ before body, ms = before ++ [⟨t, .putDoc docId body, .ok ()⟩]) ∧
        Branched (t docId) (s' docId) ⟨start, digest⟩ older ∧
        (∀ id, id ≠ docId → s' id = t id) ∧
        ((RevTree.chain start (digest :: older)).map name = newRevision :: parentRevs ↔
          (PyStr.split newRevision '-').length = 2 ∧ CountsDown start (newRevision :: parentRevs))) ∧
    ∀ x, o = .error x → ∀ m ∈ ms, accepted m = false := by
  rcases addConflict_run h with
    ⟨parentRevs, t, u, start, digest, older, read, body, hrevs, htold, -, -, -, rfl, hms, rfl⟩ | ⟨x, rfl, hnone⟩
  · refine ⟨fun added hadded => ⟨(Except.ok.inj hadded).symm, parentRevs, t, start, digest, older, hrevs,
      htold, ⟨[_], body, hms⟩, ?_, fun id hid => Function.update_of_ne hid _ _, told_names_iff htold⟩,
      fun x hx => by cases hx⟩
    rw [Function.update_self]
    exact branched_graft (t docId) start digest older
  · exact ⟨fun added hadded => (by cases hadded), fun y _ => hnone⟩

end Runs

def noData (_ : String) : Except Exn String := .error .fileNotFoundError

/-- Each document has two revisions. -/
def twoRevs : Store := fun _ => RevTree.empty.graft 2 ["b", "a"]

def withFoo : Store := Function.update twoRevs "d" ((twoRevs "d").graft 2 ["foo", "a"])

/-- The document as it is read. -/
def bRead : Dict := ⟨[("_rev", .str "2-b")], by decide⟩

def fooBody : Dict :=
  ⟨[("_rev", .str "2-foo"), ("_revisions", revisions 2 ["foo", "a"])], by decide⟩

theorem twoRevs_reads : Reads (twoRevs "d") bRead := by
  have hlive : (twoRevs "d").live = {⟨2, "b"⟩} := by decide
  refine ⟨⟨2, "b"⟩, [], ⟨hlive ▸ Finset.mem_singleton_self _, fun r hr => ?_⟩, List.nodup_nil, ?_, ?_, rfl⟩
  · rw [hlive, Finset.mem_singleton] at hr
    rw [hr]
  · rw [hlive]
    rfl
  · rfl

def fooCalls : List Call :=
  [⟨twoRevs, .getDoc "d", .ok bRead⟩, ⟨twoRevs, .putDoc "d" fooBody, .ok ()⟩]

theorem foo_run : RelyRun revServer Eq (addConflict noData "d" (.one "1-a") "2-foo" none) twoRevs withFoo
    (.ok ⟨"d", "2-foo"⟩) fooCalls := by
  refine ⟨twoRevs, .ok bRead, _, rfl, twoRevs_reads, ?_, rfl⟩
  refine ⟨twoRevs, .ok (), [], rfl, ⟨2, ["foo", "a"], rfl, by decide⟩, ⟨rfl, rfl, rfl⟩, rfl⟩

theorem addConflict_grafts_foo : ∃ t : Store, ∃ start digest older,
    Branched (t "d") (withFoo "d") ⟨start, digest⟩ older ∧
      ((RevTree.chain start (digest :: older)).map name = ["2-foo", "1-a"] ↔
        (PyStr.split "2-foo" '-').length = 2 ∧ CountsDown start ["2-foo", "1-a"]) := by
  obtain ⟨-, parentRevs, t, start, digest, older, hrevs, -, -, hbranch, -, hnames⟩ :=
    (addConflict_grafts noData (.one "1-a") "2-foo" none foo_run).1 _ rfl
  obtain rfl := Except.ok.inj hrevs
  exact ⟨t, start, digest, older, hbranch, hnames⟩

/-! ## What is found afterwards -/

section Runs
variable {R : Store → Store → Prop} {s s' : Store} {docId : String} {ms : List Call}

/-- The names of the revisions, each once. -/
def Lists (names : List String) (revs : Finset (Rev String)) : Prop :=
  ∃ l : List (Rev String), l.Nodup ∧ l.toFinset = revs ∧ names.Perm (l.map name)

theorem names_nodup {l : List (Rev String)} (hnd : l.Nodup) (hplain : ∀ r ∈ l, Plain r) : (l.map name).Nodup :=
  hnd.map_on fun r hr r' hr' he => name_injective (hplain r hr) (hplain r' hr') he

theorem mapM_rows (t : RevTree String) (l : List (Rev String)) :
    (l.map fun r => (⟨some (some (name r), decide (r ∈ t.tombstones))⟩ : Row)).mapM Row.rev
      = Except.ok (l.map name) := by
  induction l with
  | nil => rfl
  | cons r l ih =>
    rw [List.map_cons, List.mapM_cons, ih]
    rfl

/-- The length and the set decide whether the rows are the expected ones, each once. -/
theorem compareOpenRevs_ok_iff {t : RevTree String} {rows : List Row} (hrows : Rows t rows)
    (hplain : ∀ r ∈ t.leaves, Plain r) (expected : List String) :
    compareOpenRevs expected rows = .ok () ↔ Lists expected t.leaves := by
  obtain ⟨l, hnd, hl, rfl⟩ := hrows
  have hplains : ∀ r ∈ l, Plain r := fun r hr => hplain r (hl ▸ List.mem_toFinset.mpr hr)
  have hnames := names_nodup hnd hplains
  have hperm : Lists expected t.leaves ↔ (l.map name).Perm expected := by
    constructor
    · intro ⟨l', hnd', hl', hp⟩
      have hsame : l.Perm l' := (List.perm_ext_iff_of_nodup hnd hnd').mpr fun r => by
        rw [← List.mem_toFinset, hl, ← hl', List.mem_toFinset]
      exact (hsame.map name).trans hp.symm
    · exact fun hp => ⟨l, hnd, hl, hp.symm⟩
  rw [hperm]
  unfold compareOpenRevs
  rw [mapM_rows]
  simp only [bind, Except.bind]
  constructor
  · intro h
    split at h
    · cases h
    · rename_i hlen
      split at h
      · cases h
      · rename_i hset
        rw [not_not] at hlen hset
        refine (List.subperm_of_subset hnames fun x hx => ?_).perm_of_length_le (le_of_eq hlen.symm)
        exact List.mem_toFinset.mp (hset ▸ List.mem_toFinset.mpr hx)
  · intro hp
    rw [if_neg (not_not.mpr hp.length_eq), if_neg (not_not.mpr (List.toFinset_eq_of_perm _ _ hp))]

theorem stripAttachments_get {doc doc' : Dict} (h : stripAttachments doc = .ok doc') {key : String}
    (hkey : key ≠ "_attachments") : doc'.get? key = doc.get? key := by
  unfold stripAttachments at h
  split at h
  · rw [Except.ok.inj h]
  · obtain ⟨members, -, h⟩ := Loop.bind_eq_ok.mp h
    rw [← Except.ok.inj h, PyDict.get?_set, if_neg hkey]
  · cases h

/-- The conflicts that are read: all live leaves but the winner. -/
theorem getConflictRevs_run {conflictRevs : JsonValue}
    (h : RelyRun revServer R (getConflictRevs docId) s s' (.ok conflictRevs) ms) :
    ∃ t w, ∃ l : List (Rev String), R s t ∧ (t docId).IsWinner w ∧ l.Nodup ∧
      l.toFinset = (t docId).live.erase w ∧ conflictRevs = .arr (l.map fun r => .str (name r)) := by
  obtain ⟨t, resp, rest, hR, hok, -, ⟨doc, hdoc, hrun⟩ | ⟨x, -, hx, -⟩⟩ := rely_getDoc h
  swap
  · cases hx
  obtain ⟨read, rfl, hstrip⟩ := Loop.bind_eq_ok.mp hdoc
  obtain ⟨w, l, hw, hnd, hl, -, hconflicts⟩ := hok
  refine ⟨t, w, l, hR, hw, hnd, hl, ?_⟩
  rw [stripAttachments_get hstrip (by decide), hconflicts] at hrun
  split at hrun
  · obtain ⟨-, hret, -⟩ := hrun
    cases hret
  · rename_i v hv
    obtain ⟨-, hret, -⟩ := hrun
    rw [Except.ok.inj hret]
    split at hv
    · cases hv
    · exact (Option.some.inj hv).symm

/-- The rows that are answered decide. -/
theorem verifyOpenRevs_run {expected : List String} {rows : List Row} {t : Store} {o : Except Exn Unit}
    (h : RelyRun revServer R (verifyOpenRevs docId expected) s s' o [⟨t, .getOpenRevs docId, .ok rows⟩]) :
    ∃ t', R s t' ∧ Rows (t' docId) rows ∧ o = compareOpenRevs expected rows := by
  obtain ⟨t', resp, rest, hR, hok, hrest, hms⟩ := h
  obtain ⟨-, -, hresp⟩ := Moment.mk.inj (List.cons.inj hms).1
  obtain rfl := eq_of_heq hresp
  refine ⟨t', hR, hok, ?_⟩
  change RelyRun revServer R (lift (compareOpenRevs expected rows)) t' s' o rest at hrest
  cases hcompare : compareOpenRevs expected rows with
  | ok u =>
    rw [hcompare] at hrest
    exact hrest.2.1
  | error x =>
    rw [hcompare] at hrest
    exact hrest.2.1

theorem plain_chain {start : Int} {ids : List String} (hlen : (ids.length : Int) ≤ start)
    (hids : ∀ id ∈ ids, '-' ∉ id.toList) : ∀ r ∈ RevTree.chain start ids, Plain r := by
  induction ids generalizing start with
  | nil => exact fun r hr => absurd hr List.not_mem_nil
  | cons id ids ih =>
    rw [List.length_cons] at hlen
    intro r hr
    rcases List.mem_cons.mp hr with rfl | hr
    · exact ⟨by simp only; omega, hids id List.mem_cons_self⟩
    · exact ih (by omega) (fun x hx => hids x (List.mem_cons_of_mem _ hx)) r hr

theorem digests_no_dash {revs digests : List String}
    (h : (revs.mapM fun rev => do return (← getRevGenerationDigest rev).2) = Except.ok digests) :
    ∀ digest ∈ digests, '-' ∉ digest.toList := by
  have hall := Loop.mapM_forall₂ h
  clear h
  induction hall with
  | nil => exact fun digest hd => absurd hd List.not_mem_nil
  | @cons rev digest revs digests hrev _ ih =>
    obtain ⟨⟨text, digest'⟩, hparts, hret⟩ := Loop.bind_eq_ok.mp hrev
    obtain rfl : digest' = digest := Except.ok.inj hret
    exact List.forall_mem_cons.mpr ⟨digest_no_dash (getRevGenerationDigest_ok hparts), ih⟩

theorem told_no_dash {newRevision : String} {parentRevs ids : List String} {start : Int}
    (h : told newRevision parentRevs = .ok (start, ids)) : ∀ id ∈ ids, '-' ∉ id.toList := by
  obtain ⟨⟨generation, digest⟩, hparts, h⟩ := Loop.bind_eq_ok.mp h
  obtain ⟨digests, hdigests, h⟩ := Loop.bind_eq_ok.mp h
  obtain ⟨-, rfl⟩ := Prod.mk.inj (Except.ok.inj h)
  obtain ⟨text, rest, hsplit, -⟩ := newRevisionParts_ok hparts
  exact List.forall_mem_cons.mpr ⟨digest_no_dash hsplit, digests_no_dash hdigests⟩

end Runs

/-- The leaves of a tree that a history has been put into. -/
def leavesAfter (t : RevTree String) (new : Rev String) (older : List String) : Finset (Rev String) :=
  if new ∈ t.revs then t.leaves
  else insert new (t.leaves.filter fun q => t.anchor (new.gen - 1) older ≠ some q)

theorem Branched.leaves_eq {t t' : RevTree String} {new : Rev String} {older : List String}
    (h : Branched t t' new older) : t'.leaves = leavesAfter t new older := by
  unfold leavesAfter
  split
  · rename_i hmem
    rw [h.known hmem]
  · rename_i hmem
    exact h.leaves hmem

/-- **After a conflict.** With no other client: when `add_conflict` has returned,
`verify_open_revs` accepts just the lists of the leaves that were there, with the new
revision in the place of the newest known one of its history, in any order and each once;
and `get_conflict_revs` returns the live ones of them without the winner. -/
theorem openRevs_after_conflict (load : String → Except Exn String) (docId : String)
    (parentRevisions : ParentRevisions) (newRevision : String) (attachmentName : Option String) {s t : Store}
    (hplain : ∀ r ∈ (s docId).revs, Plain r) {added : Added} {ms : List Call}
    (h : RelyRun revServer Eq (addConflict load docId parentRevisions newRevision attachmentName) s t
      (.ok added) ms) :
    ∃ parentRevs start digest older, parentRevisions.revs = .ok parentRevs ∧
      told newRevision parentRevs = .ok (start, digest :: older) ∧
      (∀ expected rows t' o, RelyRun revServer Eq (verifyOpenRevs docId expected) t t' o
          [⟨t, .getOpenRevs docId, .ok rows⟩] →
        (o = .ok () ↔ Lists expected (leavesAfter (s docId) ⟨start, digest⟩ older))) ∧
      ∀ conflictRevs t' ms', RelyRun revServer Eq (getConflictRevs docId) t t' (.ok conflictRevs) ms' →
        ∃ w, ∃ l : List (Rev String), (t docId).IsWinner w ∧ l.Nodup ∧
          l.toFinset = (leavesAfter (s docId) ⟨start, digest⟩ older \ (s docId).tombstones).erase w ∧
          conflictRevs = .arr (l.map fun r => .str (name r)) := by
  rcases addConflict_run h with
    ⟨parentRevs, u, v, start, digest, older, read, body, hrevs, htold, hlen, rfl, rfl, -, -, rfl⟩ | ⟨x, hx, -⟩
  swap
  · cases hx
  have hbranch := branched_graft (s docId) start digest older
  have hplains : ∀ r ∈ ((s docId).graft start (digest :: older)).leaves, Plain r := by
    intro r hr
    rcases RevTree.mem_graft (RevTree.mem_leaves.mp hr).1 with hr | hr
    · exact hplain r hr
    · exact plain_chain (by rw [List.length_cons]; omega) (told_no_dash htold) r hr
  refine ⟨parentRevs, start, digest, older, hrevs, htold, fun expected rows t' o hrun => ?_,
    fun conflictRevs t' ms' hrun => ?_⟩
  · obtain ⟨v, rfl, hrows, rfl⟩ := verifyOpenRevs_run hrun
    rw [Function.update_self] at hrows
    rw [← hbranch.leaves_eq]
    exact compareOpenRevs_ok_iff hrows hplains expected
  · obtain ⟨v, w, l, rfl, hw, hnd, hl, hconflicts⟩ := getConflictRevs_run hrun
    refine ⟨w, l, hw, hnd, ?_, hconflicts⟩
    rw [hl, Function.update_self, ← hbranch.leaves_eq, ← hbranch.tombstones]
    rfl

def fooRows : List Row := [⟨some (some "2-b", false)⟩, ⟨some (some "2-foo", false)⟩]

theorem fooRows_answered : Rows (withFoo "d") fooRows :=
  ⟨[⟨2, "b"⟩, ⟨2, "foo"⟩], by decide, by decide, by decide⟩

theorem fooRows_run : RelyRun revServer Eq (verifyOpenRevs "d" ["2-foo", "2-b"]) withFoo withFoo (.ok ())
    [⟨withFoo, .getOpenRevs "d", .ok fooRows⟩] := by
  have hcompare : compareOpenRevs ["2-foo", "2-b"] fooRows = .ok () := rfl
  refine ⟨withFoo, .ok fooRows, [], rfl, fooRows_answered, ?_, rfl⟩
  change RelyRun revServer Eq (lift (compareOpenRevs ["2-foo", "2-b"] fooRows)) withFoo withFoo (.ok ()) []
  rw [hcompare]
  exact ⟨rfl, rfl, rfl⟩

theorem openRevs_after_foo : Lists ["2-foo", "2-b"] {⟨2, "foo"⟩, ⟨2, "b"⟩} := by
  obtain ⟨parentRevs, start, digest, older, hrevs, htold, hopen, -⟩ :=
    openRevs_after_conflict noData "d" (.one "1-a") "2-foo" none (by decide) foo_run
  obtain rfl := Except.ok.inj hrevs
  have hfoo : told "2-foo" ["1-a"] = .ok (2, ["foo", "a"]) := rfl
  obtain ⟨rfl, hids⟩ := Prod.mk.inj (Except.ok.inj (htold.symm.trans hfoo))
  obtain ⟨rfl, rfl⟩ := List.cons.inj hids
  have hleaves : leavesAfter (twoRevs "d") ⟨2, "foo"⟩ ["a"] = {⟨2, "foo"⟩, ⟨2, "b"⟩} := by decide
  rw [hleaves] at hopen
  exact (hopen _ _ _ _ fooRows_run).mp rfl

end MobileTestkit.L4.Conflicts
