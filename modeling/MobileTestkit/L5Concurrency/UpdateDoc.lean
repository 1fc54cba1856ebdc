import Mathlib.Data.Fintype.EquivFin
import MobileTestkit.Core.Rely
import MobileTestkit.L4App.CblDatabase

/-!
# Updating a document against other writers

Model of `MobileRestClient.update_doc` (keywords/MobileRestClient.py) as a program that
reads a document and writes it back a number of times, and of the server it talks to: a
PUT is accepted exactly if its `_rev` is the current revision, and then installs a fresh
one (`server`). Other clients write between the calls in the same way (`Foreign`).

A revision keeps the body it was installed with and whether this program did it.

* `foreign_or_same`: either nobody wrote, or the current revision is one that was not there.
* `loop_chain`: the updates that are left are sent as a chain of revisions that ends with
  the first foreign write.
* `updateDoc_chain`: the same for the whole call, from the store that its GET read; without a
  foreign write it returns with the current revision.
-/
namespace MobileTestkit.L5.UpdateDoc

open MobileTestkit.Core
open MobileTestkit.L4.CblDatabase (addOne)

abbrev Dict := PyDict String JsonValue

/-! ## update_doc -/

inductive Exn where
  | httpError
  | keyError (key : String)
  | typeError
  | unboundLocalError

/-- The calls: the GET, `uuid4` and the PUT of a body. -/
inductive Query where
  | getDoc
  | uuid4
  | putDoc (doc : Dict)

/-- A PUT is answered with the new revision or with an error. -/
@[reducible] def Answer : Query → Type
  | .getDoc => Dict
  | .uuid4 => String
  | .putDoc _ => Except Unit String

abbrev sig : Sig := ⟨Query, Answer, Empty, Exn⟩

abbrev Prog := Proc sig

/-- The arguments. `updateAttachment` is empty if it is not given; `propertyUpdater` may
depend on how often it was called. -/
structure Args where
  numberUpdates : Int := 1
  attachmentName : Option String := none
  expiry : Option JsonValue := none
  channels : Option JsonValue := none
  propertyUpdater : Option (Nat → Dict → Dict) := none
  removeExpiry : Bool := false
  rev : Option JsonValue := none
  doc : Option Dict := none
  updateAttachment : JsonValue.Members := []

section Client
variable (load : String → Except Exn (String × JsonValue)) (args : Args)

/-- mirrors keywords/MobileRestClient.py:1410-1417 -/
def attach (doc : Dict) : Except Exn Dict := do
  let doc ← match args.attachmentName with
    | none => pure doc
    | some attachmentName =>
      if args.updateAttachment ≠ [] then pure doc
      else do
        let (name, data) ← load attachmentName
        pure (doc.set "_attachments" (.obj [(name, .obj [("data", data)])]))
  if args.updateAttachment = [] then return doc
  else return doc.set "_attachments" (.obj args.updateAttachment)

/-- mirrors keywords/MobileRestClient.py:1422-1424 -/
def setChannels (doc : Dict) : Except Exn Dict :=
  match args.channels with
  | none => .ok doc
  | some (.arr channels) => .ok (doc.set "channels" (.arr channels))
  | some _ => .error .typeError

/-- The body of update `i`.
mirrors keywords/MobileRestClient.py:1402-1428 -/
def prepare (i : Nat) (random : String) (currentUpdateNumber currentRev : JsonValue) (doc : Dict) :
    Except Exn Dict := do
  let doc := doc.set "random" (.str random)
  let doc := doc.set "updates" currentUpdateNumber
  let doc := doc.set "_rev" currentRev
  let doc ← attach load args doc
  let doc := match args.expiry with
    | none => doc
    | some expiry => doc.set "_exp" expiry
  let doc ← setChannels args doc
  match args.propertyUpdater with
  | none => return doc
  | some propertyUpdater => return propertyUpdater i doc

/-- The updates from number `i` on; `resp` is the revision in the last response.
mirrors keywords/MobileRestClient.py:1397-1451 -/
def loop : (left i : Nat) → (currentUpdateNumber currentRev : JsonValue) → Dict → Option String →
    Prog String
  | 0, _, _, _, _, none => .raise .unboundLocalError
  | 0, _, _, _, _, some resp => .ret resp
  | left + 1, i, currentUpdateNumber, currentRev, doc, _ =>
    .call Query.uuid4 fun (random : String) =>
      match prepare load args i random currentUpdateNumber currentRev doc with
      | .error x => .raise x
      | .ok doc =>
        .call (Query.putDoc doc) fun (resp : Except Unit String) =>
          match resp with
          | .error _ => .raise .httpError
          | .ok rev =>
            match addOne currentUpdateNumber with
            | none => .raise .typeError
            | some number => loop left (i + 1) number (.str rev) doc (some rev)

/-- `doc["updates"]`, set to 0 if it is absent or `None`.
mirrors keywords/MobileRestClient.py:1391-1396 -/
def initUpdates (doc : Dict) : Dict :=
  match doc.get? "updates" with
  | none => doc.set "updates" (.int 0)
  | some .null => doc.set "updates" (.int 0)
  | some _ => doc

/-- What follows the GET.
mirrors keywords/MobileRestClient.py:1386-1451 -/
def update (doc : Dict) : Prog String :=
  match args.rev.or (doc.get? "_rev") with
  | none => .raise (.keyError "_rev")
  | some currentRev =>
    let doc := initUpdates doc
    match (doc.get? "updates").bind addOne with
    | none => .raise .typeError
    | some number =>
      if args.removeExpiry then
        match doc.get? "_exp" with
        | none => .raise (.keyError "_exp")
        | some _ => loop load args args.numberUpdates.toNat 0 number currentRev (doc.erase "_exp") none
      else loop load args args.numberUpdates.toNat 0 number currentRev doc none

/-- mirrors keywords/MobileRestClient.py:1377-1451 -/
def updateDoc : Prog String :=
  match args.doc with
  | some doc => update load args doc
  | none => .call Query.getDoc fun (doc : Dict) => update load args doc

end Client

/-! ## The server -/

structure Revision where
  rev : String
  own : Bool
  body : Dict

/-- The revisions of the document, the newest first. -/
structure Store where
  current : Revision
  older : List Revision
  nodup : ((current :: older).map Revision.rev).Nodup

def Store.revs (s : Store) : List String := (s.current :: s.older).map Revision.rev

/-- A fresh revision becomes the current one. -/
def Store.install (s : Store) (r : Revision) : Store :=
  if h : r.rev ∈ s.revs then s else ⟨r, s.current :: s.older, List.nodup_cons.mpr ⟨h, s.nodup⟩⟩

/-- The document as a GET returns it. -/
def Store.read (s : Store) : Dict := s.current.body.set "_rev" (.str s.current.rev)

/-- The body is based on the current revision. -/
def Store.Accepts (s : Store) (body : Dict) : Prop := body.get? "_rev" = some (.str s.current.rev)

def server : Server sig Store where
  ok := fun s q a =>
    match q, a with
    | .getDoc, (doc : Dict) => doc = s.read
    | .uuid4, _ => True
    | .putDoc body, .ok rev => s.Accepts body ∧ rev ∉ s.revs
    | .putDoc body, .error _ => ¬ s.Accepts body
  next := fun s q a =>
    match q, a with
    | .putDoc body, .ok rev => s.install ⟨rev, true, body⟩
    | _, _ => s

/-- Any number of writes by others. -/
inductive Foreign : Store → Store → Prop
  | refl (s : Store) : Foreign s s
  | write {s t : Store} (rev : String) (body : Dict) : Foreign s t → t.Accepts body → rev ∉ t.revs →
    Foreign s (t.install ⟨rev, false, body⟩)

/-! ## Foreign writes -/

section Writes
variable {s t u : Store}

theorem install_of_fresh {r : Revision} (h : r.rev ∉ s.revs) :
    (s.install r).current = r ∧ (s.install r).older = s.current :: s.older := by
  rw [Store.install, dif_neg h]
  exact ⟨rfl, rfl⟩

theorem Foreign.trans (h : Foreign s t) (h' : Foreign t u) : Foreign s u := by
  induction h' with
  | refl => exact h
  | write rev body _ hbase hfresh ih => exact ih.write rev body hbase hfresh

theorem current_mem_revs (s : Store) : s.current.rev ∈ s.revs := List.mem_cons_self

theorem Foreign.revs (h : Foreign s t) : ∀ rev ∈ s.revs, rev ∈ t.revs := by
  induction h with
  | refl => exact fun rev hrev => hrev
  | @write t rev body _ _ hfresh ih =>
    obtain ⟨hcur, holder⟩ := install_of_fresh (r := ⟨rev, false, body⟩) hfresh
    intro r hr
    rw [Store.revs, hcur, holder]
    exact List.mem_cons_of_mem _ (ih r hr)

/-- Either nobody wrote, or the current revision is foreign and was not there. -/
theorem foreign_or_same (h : Foreign s t) :
    t = s ∨ t.current.own = false ∧ t.current.rev ∉ s.revs := by
  cases h with
  | refl => exact .inl rfl
  | @write t rev body h hbase hfresh =>
    refine .inr ?_
    rw [(install_of_fresh (r := ⟨rev, false, body⟩) hfresh).1]
    exact ⟨rfl, fun hmem => hfresh (h.revs _ hmem)⟩

/-- The bodies of the program's own revisions, the newest first. -/
def Store.ownBodies (s : Store) : List Dict :=
  ((s.current :: s.older).filter Revision.own).map Revision.body

theorem ownBodies_install {r : Revision} (h : r.rev ∉ s.revs) :
    (s.install r).ownBodies = if r.own then r.body :: s.ownBodies else s.ownBodies := by
  obtain ⟨hcur, holder⟩ := install_of_fresh h
  rw [Store.ownBodies, hcur, holder, List.filter_cons]
  cases r.own <;> rfl

theorem Foreign.ownBodies (h : Foreign s t) : t.ownBodies = s.ownBodies := by
  induction h with
  | refl => rfl
  | write rev body _ _ hfresh ih => rw [ownBodies_install hfresh, ih]; rfl

end Writes

/-! ## The chain of revisions -/

/-- A PUT of the run: the store it came to, the body and the answer. -/
structure Put where
  before : Store
  body : Dict
  resp : Except Unit String

def put? (m : Moment sig Store) : Option Put :=
  match m with
  | ⟨t, .putDoc body, (resp : Except Unit String)⟩ => some ⟨t, body, resp⟩
  | _ => none

def puts (calls : List (Moment sig Store)) : List Put := calls.filterMap put?

/-- A number and `i` more. A float is counted up one by one, each sum rounded. -/
def plus : JsonValue → Nat → JsonValue
  | .int n, i => .int (n + i)
  | .bool b, i => .int (b.toInt + i)
  | .float x, i => .float (PyFloat.succ^[i] x)
  | v, _ => v

theorem plus_plus (v : JsonValue) (i j : Nat) : plus (plus v i) j = plus v (i + j) := by
  cases v with
  | float x => simp only [plus, Nat.add_comm i j, Function.iterate_add_apply]
  | null => rfl
  | bool b => simp only [plus, Nat.cast_add, add_assoc]
  | int n => simp only [plus, Nat.cast_add, add_assoc]
  | str t => rfl
  | arr items => rfl
  | obj members => rfl

theorem addOne_isSome_plus {v : JsonValue} (h : (addOne v).isSome) :
    addOne v = some (plus v 1) ∧ (addOne (plus v 1)).isSome := by
  cases v with
  | float x => exact ⟨rfl, rfl⟩
  | bool b => exact ⟨rfl, rfl⟩
  | int n => exact ⟨rfl, rfl⟩
  | null => cases h
  | str t => cases h
  | arr items => cases h
  | obj members => cases h

/-- The PUTs of the updates that are left, from the store in which the last revision was
read or installed: each is based on that revision and counts on. Without a foreign write
before it, it is accepted; the first one after a foreign write is refused, and raises. -/
def Chain : (left : Nat) → (count : JsonValue) → Store → List Put → Store → Except Exn String → Prop
  | 0, _, s, ps, s', o => ps = [] ∧ s' = s ∧ o = .ok s.current.rev
  | left + 1, count, s, ps, s', o => ∃ p rest, ps = p :: rest ∧
    p.body.get? "_rev" = some (.str s.current.rev) ∧ p.body.get? "updates" = some count ∧
    ((p.before = s ∧ ∃ rev, p.resp = .ok rev ∧ rev ∉ s.revs ∧
        Chain left (plus count 1) (s.install ⟨rev, true, p.body⟩) rest s' o) ∨
      (Foreign s p.before ∧ p.before.current.own = false ∧ p.before.current.rev ∉ s.revs ∧
        p.resp = .error () ∧ rest = [] ∧ s' = p.before ∧ o = .error .httpError))

/-- A property updater that keeps `_rev` and `updates`. -/
def Keeps (propertyUpdater : Option (Nat → Dict → Dict)) : Prop :=
  ∀ f, propertyUpdater = some f → ∀ i doc,
    (f i doc).get? "_rev" = doc.get? "_rev" ∧ (f i doc).get? "updates" = doc.get? "updates"

section Run
variable {load : String → Except Exn (String × JsonValue)} {propertyUpdater : Option (Nat → Dict → Dict)}

/-- A number of updates, and all else as it is by default. -/
def plain (numberUpdates : Int) (propertyUpdater : Option (Nat → Dict → Dict)) : Args where
  numberUpdates := numberUpdates
  propertyUpdater := propertyUpdater

theorem prepare_plain (hkeeps : Keeps propertyUpdater) (n : Int) (i : Nat) (random : String)
    (number rev : JsonValue) (doc : Dict) :
    ∃ body, prepare load (plain n propertyUpdater) i random number rev doc = .ok body ∧
      body.get? "_rev" = some rev ∧ body.get? "updates" = some number := by
  have hbase : ∀ d : Dict, ((((d.set "random" (.str random)).set "updates" number).set "_rev" rev).get?
      "_rev" = some rev) ∧ ((((d.set "random" (.str random)).set "updates" number).set "_rev" rev).get?
      "updates" = some number) := by
    intro d
    simp
  cases hf : propertyUpdater with
  | none => exact ⟨_, rfl, hbase doc⟩
  | some f =>
    obtain ⟨hrev, hupdates⟩ := hkeeps f hf i
      (((doc.set "random" (.str random)).set "updates" number).set "_rev" rev)
    exact ⟨_, rfl, hrev.trans (hbase doc).1, hupdates.trans (hbase doc).2⟩

/-- The updates that are left, on a store whose current revision is the one they go on from. -/
theorem loop_chain (hkeeps : Keeps propertyUpdater) {n : Int} {left i : Nat} {count : JsonValue}
    (hcount : (addOne count).isSome) {s s' : Store} {doc : Dict} {resp : Option String}
    {o : Except Exn String} {calls : List (Moment sig Store)} (hresp : left = 0 → resp = some s.current.rev)
    (h : RelyRun server Foreign
      (loop load (plain n propertyUpdater) left i count (.str s.current.rev) doc resp) s s' o calls) :
    Chain left count s (puts calls) s' o := by
  induction left generalizing i count s doc resp calls with
  | zero =>
    rw [hresp rfl, loop] at h
    obtain ⟨rfl, rfl, rfl⟩ := h
    exact ⟨rfl, rfl, rfl⟩
  | succ left ih =>
    rw [loop] at h
    obtain ⟨t₁, random, rest, h₁, -, h, rfl⟩ := h
    obtain ⟨body, hprep, hrev, hupdates⟩ :
        ∃ body, prepare load (plain n propertyUpdater) i random count (.str s.current.rev) doc = .ok body ∧
          body.get? "_rev" = some (.str s.current.rev) ∧ body.get? "updates" = some count :=
      prepare_plain hkeeps n i random count (.str s.current.rev) doc
    simp only [hprep] at h
    obtain ⟨t, resp', rest, h₂, hok, h, rfl⟩ := h
    have hforeign : Foreign s t := h₁.trans h₂
    refine ⟨⟨t, body, resp'⟩, puts rest, rfl, hrev, hupdates, ?_⟩
    rcases foreign_or_same hforeign with rfl | ⟨hown, hnew⟩
    · -- nobody wrote: the revision is the current one
      cases (resp' : Except Unit String) with
      | error e => exact absurd hrev hok
      | ok rev =>
        have hfresh : rev ∉ t.revs := hok.2
        have hcur := (install_of_fresh (r := ⟨rev, true, body⟩) hfresh).1
        obtain ⟨hadd, hnumber⟩ := addOne_isSome_plus hcount
        have hrest : RelyRun server Foreign (loop load (plain n propertyUpdater) left (i + 1)
            (plus count 1) (.str (t.install ⟨rev, true, body⟩).current.rev) body (some rev))
            (t.install ⟨rev, true, body⟩) s' o rest := by
          rw [hcur]
          simp only [hadd] at h
          exact h
        exact .inl ⟨rfl, rev, rfl, hfresh, ih hnumber (fun _ => by rw [hcur]) hrest⟩
    · -- the revision is an old one
      have hrefused : ¬ t.Accepts body := by
        intro hacc
        obtain heq := JsonValue.str.inj (Option.some.inj (hacc.symm.trans hrev))
        exact hnew (heq ▸ current_mem_revs s)
      cases (resp' : Except Unit String) with
      | ok rev => exact absurd hok.1 hrefused
      | error e =>
        obtain ⟨rfl, rfl, rfl⟩ := h
        exact .inr ⟨hforeign, hown, hnew, rfl, rfl, rfl, rfl⟩

/-! ## What a chain says -/

section Chains
variable {left : Nat} {count : JsonValue} {s s' : Store} {ps : List Put} {o : Except Exn String}

/-- The i-th PUT carries the i-th count. -/
theorem chain_updates {k : Nat} (h : Chain left (plus count k) s ps s' o) {i : Nat} {p : Put}
    (hp : ps[i]? = some p) : p.body.get? "updates" = some (plus count (k + i)) := by
  induction left generalizing k s ps i with
  | zero =>
    obtain ⟨rfl, -, -⟩ := h
    simp at hp
  | succ left ih =>
    obtain ⟨q, rest, rfl, -, hupdates, hnext⟩ := h
    cases i with
    | zero =>
      obtain rfl := Option.some.inj hp
      exact hupdates
    | succ i =>
      rw [List.getElem?_cons_succ] at hp
      rcases hnext with ⟨-, rev, -, -, hchain⟩ | ⟨-, -, -, -, rfl, -, -⟩
      · rw [plus_plus] at hchain
        rw [ih hchain hp, Nat.add_assoc, Nat.add_comm 1 i]
      · simp at hp

/-- The first PUT is based on the revision the chain starts from. -/
theorem chain_first (h : Chain left count s ps s' o) {p : Put} (hp : ps[0]? = some p) :
    p.body.get? "_rev" = some (.str s.current.rev) := by
  cases left with
  | zero =>
    obtain ⟨rfl, -, -⟩ := h
    simp at hp
  | succ left =>
    obtain ⟨q, rest, rfl, hrev, -, -⟩ := h
    obtain rfl := Option.some.inj hp
    exact hrev

/-- Each PUT but the last is accepted, and the next one is based on its revision. -/
theorem chain_next (h : Chain left count s ps s' o) {i : Nat} {p q : Put} (hp : ps[i]? = some p)
    (hq : ps[i + 1]? = some q) : ∃ rev, p.resp = .ok rev ∧ q.body.get? "_rev" = some (.str rev) := by
  induction left generalizing count s ps i with
  | zero =>
    obtain ⟨rfl, -, -⟩ := h
    simp at hp
  | succ left ih =>
    obtain ⟨p', rest, rfl, -, -, ⟨-, rev, hresp, hfresh, hchain⟩ | ⟨-, -, -, -, rfl, -, -⟩⟩ := h
    · cases i with
      | zero =>
        obtain rfl := Option.some.inj hp
        refine ⟨rev, hresp, ?_⟩
        rw [List.getElem?_cons_succ] at hq
        have hfirst := chain_first hchain hq
        rwa [(install_of_fresh (r := ⟨rev, true, p'.body⟩) hfresh).1] at hfirst
      | succ i => exact ih hchain hp hq
    · simp at hq

/-- The bodies of the PUTs that were accepted. -/
def acceptedBodies (ps : List Put) : List Dict :=
  (ps.filter fun p => p.resp.isOk).map Put.body

/-- What the program has installed in the end. -/
theorem chain_own (h : Chain left count s ps s' o) :
    s'.ownBodies = (acceptedBodies ps).reverse ++ s.ownBodies := by
  induction left generalizing count s ps with
  | zero =>
    obtain ⟨rfl, rfl, -⟩ := h
    rfl
  | succ left ih =>
    obtain ⟨p, rest, rfl, -, -, ⟨-, rev, hresp, hfresh, hchain⟩ | ⟨hforeign, -, -, hresp, rfl, rfl, -⟩⟩ := h
    · rw [ih hchain, ownBodies_install hfresh]
      simp [acceptedBodies, hresp, Except.isOk, Except.toBool]
    · rw [hforeign.ownBodies]
      simp [acceptedBodies, hresp, Except.isOk, Except.toBool]

/-- Either all updates were made, and the result is the current revision, or the last PUT
came to a foreign revision, and the run has raised. -/
theorem chain_result (h : Chain left count s ps s' o) :
    (o = .ok s'.current.rev ∧ ps.length = left ∧ ∀ p ∈ ps, ∃ rev, p.resp = .ok rev) ∨
      (o = .error .httpError ∧ ∃ made p, ps = made ++ [p] ∧ made.length < left ∧
        (∀ q ∈ made, ∃ rev, q.resp = .ok rev) ∧ p.resp = .error () ∧ s' = p.before ∧
        s'.current.own = false ∧ s'.current.rev ∉ s.revs) := by
  induction left generalizing count s ps with
  | zero =>
    obtain ⟨rfl, rfl, rfl⟩ := h
    exact .inl ⟨rfl, rfl, by simp⟩
  | succ left ih =>
    obtain ⟨p, rest, rfl, -, -, ⟨-, rev, hresp, hfresh, hchain⟩ |
      ⟨-, hown, hnew, hresp, rfl, rfl, rfl⟩⟩ := h
    · have hp : ∃ rev, p.resp = .ok rev := ⟨rev, hresp⟩
      rcases ih hchain with ⟨ho, hlen, hall⟩ | ⟨ho, made, q, rfl, hlen, hall, hq, hs', hown, hnew⟩
      · exact .inl ⟨ho, by rw [List.length_cons, hlen], List.forall_mem_cons.mpr ⟨hp, hall⟩⟩
      · refine .inr ⟨ho, p :: made, q, rfl, by rw [List.length_cons]; omega,
          List.forall_mem_cons.mpr ⟨hp, hall⟩, hq, hs', hown, fun hmem => hnew ?_⟩
        rw [Store.revs, (install_of_fresh (r := ⟨rev, true, p.body⟩) hfresh).2]
        exact List.mem_cons_of_mem _ hmem
    · exact .inr ⟨rfl, [], p, rfl, by simp, by simp, hresp, rfl, hown, hnew⟩

end Chains

/-! ## The whole call -/

/-- The number of updates a document has had: 0 if it is absent or null. -/
def count (doc : Dict) : Option JsonValue :=
  match doc.get? "updates" with
  | none => some (.int 0)
  | some .null => some (.int 0)
  | some v => if (addOne v).isSome then some v else none

/-- What the PUTs of a call do that has read the store `t` with `count` updates. -/
structure Safe (n : Nat) (count : JsonValue) (t : Store) (ps : List Put) (s' : Store)
    (o : Except Exn String) : Prop where
  chain : Chain n (plus count 1) t ps s' o
  first : ∀ p : Put, ps[0]? = some p → p.body.get? "_rev" = some (.str t.current.rev)
  next : ∀ (i : Nat) (p q : Put), ps[i]? = some p → ps[i + 1]? = some q →
    ∃ rev, p.resp = .ok rev ∧ q.body.get? "_rev" = some (.str rev)
  updates : ∀ (i : Nat) (p : Put), ps[i]? = some p → p.body.get? "updates" = some (plus count (1 + i))
  installed : s'.ownBodies = (acceptedBodies ps).reverse ++ t.ownBodies
  result : (o = .ok s'.current.rev ∧ ps.length = n ∧ ∀ p ∈ ps, ∃ rev, p.resp = .ok rev) ∨
    (o = .error .httpError ∧ ∃ (made : List Put) (p : Put), ps = made ++ [p] ∧ made.length < n ∧
      (∀ q ∈ made, ∃ rev, q.resp = .ok rev) ∧ p.resp = .error () ∧ s' = p.before ∧
      s'.current.own = false ∧ s'.current.rev ∉ t.revs)

theorem safe_of_chain {n : Nat} {c : JsonValue} {t s' : Store} {ps : List Put} {o : Except Exn String}
    (h : Chain n (plus c 1) t ps s' o) : Safe n c t ps s' o where
  chain := h
  first := fun _ => chain_first h
  next := fun _ _ _ => chain_next h
  updates := fun _ _ => chain_updates h
  installed := chain_own h
  result := chain_result h

/-- What a call has done that has read the store `t`; if its document does not count its
updates with a number, the call has raised and sent nothing. -/
def FromRead (n : Nat) (t : Store) (ps : List Put) (s' : Store) (o : Except Exn String) : Prop :=
  match count t.read with
  | some c => Safe n c t ps s' o
  | none => ps = [] ∧ s' = t ∧ o = .error .typeError

theorem initUpdates_spec (doc : Dict) :
    ((initUpdates doc).get? "updates").bind addOne = (count doc).map (plus · 1) ∧
      ∀ c, count doc = some c → (addOne c).isSome := by
  rw [count, initUpdates]
  split
  · simp only [PyDict.get?_set, ite_true, Option.bind_some, Option.map_some, Option.some.injEq,
      forall_eq']
    exact ⟨rfl, rfl⟩
  · simp only [PyDict.get?_set, ite_true, Option.bind_some, Option.map_some, Option.some.injEq,
      forall_eq']
    exact ⟨rfl, rfl⟩
  · rename_i v hnull hget
    simp only [hget, Option.bind_some]
    by_cases hv : (addOne v).isSome
    · simp only [if_pos hv, Option.map_some, Option.some.injEq, forall_eq']
      exact ⟨(addOne_isSome_plus hv).1, hv⟩
    · simp only [if_neg hv, Option.map_none, reduceCtorEq, false_implies, implies_true, and_true]
      exact Option.not_isSome_iff_eq_none.mp hv

theorem exists_answer (s : Store) (q : Query) : ∃ a, server.ok s q a := by
  cases q with
  | getDoc => exact ⟨s.read, rfl⟩
  | uuid4 => exact ⟨"", trivial⟩
  | putDoc body =>
    by_cases h : s.Accepts body
    · obtain ⟨rev, hrev⟩ := Infinite.exists_notMem_finset s.revs.toFinset
      exact ⟨.ok rev, h, by simpa using hrev⟩
    · exact ⟨.error (), h⟩

/-- The updates of a document that was read. -/
theorem update_fromRead (hkeeps : Keeps propertyUpdater) {n : Nat} (hn : 1 ≤ n) {t s' : Store}
    {o : Except Exn String} {calls : List (Moment sig Store)}
    (h : RelyRun server Foreign (update load (plain n propertyUpdater) t.read) t s' o calls) :
    FromRead n t (puts calls) s' o := by
  have hrev : t.read.get? "_rev" = some (.str t.current.rev) := by simp [Store.read]
  obtain ⟨hupdates, hnumber⟩ := initUpdates_spec t.read
  simp only [update, plain, Option.none_or, hrev, hupdates] at h
  rw [FromRead]
  cases hcount : count t.read with
  | none =>
    simp only [hcount, Option.map_none] at h
    obtain ⟨rfl, rfl, rfl⟩ := h
    exact ⟨rfl, rfl, rfl⟩
  | some c =>
    simp only [hcount, Option.map_some, Bool.false_eq_true, if_false, Int.toNat_natCast] at h
    have hstart : (addOne (plus c 1)).isSome := (addOne_isSome_plus (hnumber c hcount)).2
    exact safe_of_chain (loop_chain hkeeps hstart (fun h0 => by omega) h)

/-- A run among writers that write as `R` says: it begins with a GET, and goes on from the
store that this one read. -/
theorem updateDoc_fromRead {R : Store → Store → Prop} (hR : ∀ s t, R s t → Foreign s t)
    (hkeeps : Keeps propertyUpdater) {n : Nat} (hn : 1 ≤ n) {s s' : Store} {o : Except Exn String}
    {calls : List (Moment sig Store)}
    (h : RelyRun server R (updateDoc load (plain n propertyUpdater)) s s' o calls) :
    ∃ t rest, calls = ⟨t, .getDoc, t.read⟩ :: rest ∧ R s t ∧ FromRead n t (puts calls) s' o := by
  obtain ⟨t, doc, rest, hst, hdoc, hrest, rfl⟩ := h
  obtain rfl : doc = t.read := hdoc
  have hfrom : FromRead n t (puts rest) s' o := update_fromRead hkeeps hn (rely_mono hR hrest)
  exact ⟨t, rest, rfl, hst, hfrom⟩

/-- The revisions that others have installed are some of `rs`. -/
def ForeignIn (rs : List Revision) (s : Store) : Prop :=
  ∀ r ∈ s.current :: s.older, r.own = false → r ∈ rs

theorem foreignIn_next {rs : List Revision} (t : Store) (q : Query) (a : Answer q)
    (hok : server.ok t q a) (h : ForeignIn rs t) : ForeignIn rs (server.next t q a) := by
  cases q with
  | getDoc => exact h
  | uuid4 => exact h
  | putDoc body =>
    cases (a : Except Unit String) with
    | error e => exact h
    | ok rev =>
      obtain ⟨hcur, holder⟩ := install_of_fresh (s := t) (r := ⟨rev, true, body⟩) hok.2
      have hnext : server.next t (.putDoc body) (.ok rev) = t.install ⟨rev, true, body⟩ := rfl
      rw [hnext]
      intro r hr hown
      rw [hcur, holder, List.mem_cons] at hr
      rcases hr with rfl | hr
      · cases hown
      · exact h r hr hown

/-- A run while nobody else writes makes all updates. -/
theorem updateDoc_alone (hkeeps : Keeps propertyUpdater) {n : Nat} (hn : 1 ≤ n) {s s' : Store}
    {o : Except Exn String} {calls : List (Moment sig Store)}
    (h : RelyRun server Eq (updateDoc load (plain n propertyUpdater)) s s' o calls) {c : JsonValue}
    (hc : count s.read = some c) : Safe n c s (puts calls) s' o ∧ o = .ok s'.current.rev ∧
      (puts calls).length = n ∧ ∀ p ∈ puts calls, ∃ rev, p.resp = .ok rev := by
  have heq : ∀ s t : Store, s = t → Foreign s t := fun s t hst => hst ▸ .refl s
  obtain ⟨t, rest, -, rfl, hfrom⟩ := updateDoc_fromRead heq hkeeps hn h
  rw [FromRead, hc] at hfrom
  have hsafe : Safe n c s (puts calls) s' o := hfrom
  refine ⟨hsafe, ?_⟩
  rcases hsafe.result with hall | ⟨-, made, p, -, -, -, -, -, hown, hnew⟩
  · exact hall
  · -- the foreign revision was there before
    have hin : ForeignIn (s.current :: s.older) s' := rely_inv (fun _ _ hst hs => hst ▸ hs)
      foreignIn_next h (fun r hr _ => hr)
    exact absurd (List.mem_map_of_mem (hin _ List.mem_cons_self hown)) hnew

end Run

def firstStore : Store where
  current := ⟨"1-a", false, .empty⟩
  older := []
  nodup := List.nodup_singleton _

/-- A property updater that adds a field. -/
def addContent (_ : Nat) (doc : Dict) : Dict := doc.set "content" (.int 7)

theorem keeps_addContent : Keeps (some addContent) := by
  intro f hf i doc
  obtain rfl := Option.some.inj hf
  simp [addContent]

end MobileTestkit.L5.UpdateDoc
