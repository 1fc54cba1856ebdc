import MobileTestkit.L3Query.StuckOperators

/-!
# Running all operators

`prefix_evaluation(get_prefix_list(e))` on expressions over the whole tuple of operators.

* `run_tokens`: the loop over the tokens from the right, one case a token; it ends in one tree with
  all operands exactly if the condition on the tokens that are left holds.
* `plain_of_run`: an operand with the value of an operator is in no tree that uses all.
* `usesAll_of_words`: an expression compiles to one tree that uses every operand once, exactly if it
  is `Handled`.
-/
namespace MobileTestkit.L3.WhereOperators

open MobileTestkit.Core
open MobileTestkit.L3.RqgParser

/-! ## All tokens -/

theorem unmet_of_table {op : String} (hop : op ∈ operators)
    (h : PyStr.int ((operations.lookup op).getD "") = none) : Unmet op := by
  intro res st hst
  obtain ⟨st', -, hstep⟩ := evalToken_concat_ok hst
  have hopr : operator? (.str op) = some op := by simp [operator?, hop]
  simp only [evalToken, hopr] at hstep
  obtain ⟨text, htext, hstep⟩ := Loop.bind_eq_ok.mp hstep
  have hint : PyStr.int text = none := by
    unfold RqgParser.get at htext
    split at htext
    · rename_i v hv
      rw [hv] at h
      rwa [Except.ok.inj htext] at h
    · cases htext
  rw [hint] at hstep
  cases hstep

/-- The operator has no entry that is a number: it stays on the first stack up to the end. -/
theorem unmet_run {due : Bool} {x d : Nat} {hs : Behind} {ops : List String} {res us : List Value}
    (hat : Done x hs ops res us) {t : WhereTok} {op : String} (ht : t.items = [op])
    (hop : op ∈ operators ∧ op ≠ "(" ∧ op ≠ ")") {p : Nat} (hp : get RqgParser.prec op = .ok p) (hle : p ≤ 2)
    (hno : PyStr.int ((operations.lookup op).getD "") = none) {ts : List WhereTok} (h : Reading due d ts)
    (hplain : ∀ t ∈ ts, t.Plain) {st : List String × List Value} (hrun : run (t :: ts) (ops, res) = .ok st) :
    Doomed st.2 := by
  obtain ⟨hmem, hl, hr⟩ := hop
  have hlevel : level op = p := by
    unfold RqgParser.get at hp
    unfold level
    split at hp
    · rename_i v hv
      rw [hv]
      exact Except.ok.inj hp
    · cases hp
  have hstep := shunt_op hat.waiting hat.within.bracket_mem hmem hl hr (hlevel ▸ hp) (by omega) res
  rw [run_item ht, hstep] at hrun
  exact stalled_run h hplain
    ⟨[], op, _, rfl, hl, by simp, by simp, .inl (unmet_of_table hmem hno)⟩ hrun

/-- An `IN` that is put out on its text and its list. -/
theorem Due.isIn {x : Nat} {hs : Behind} {ops : List String} {res us : List Value} (h : Due x hs false ops res us)
    {items : List Operand} (hitems : ∀ b ∈ items, IsOperand b.text ∧ IsItem (getOperand b.text)) {a : Operand}
    (ha : IsOperand a.text) (hproper : a.Proper) (htext : isText a = true) :
    Done x hs ops
      (res ++ (listed (items.map fun b => getOperand b.text)).reverse ++ [getOperand a.text] ++ [.str "IN"])
      (getOperand a.text :: .list (items.map fun b => getOperand b.text) :: us) := by
  obtain ⟨st, heval, hlen, hleaves⟩ := h.eval
  obtain ⟨s, hs⟩ : ∃ s, getOperand a.text = .str s := by
    unfold isText at htext
    split at htext
    · exact ⟨_, by assumption⟩
    · cases htext
  have htrim : PyStr.Trimmed s.toList := by
    have hsound := sound_operand hproper ha.2
    rw [hs, Sound] at hsound
    exact hsound.2
  have hvals : ∀ v ∈ items.map fun b => getOperand b.text, IsItem v :=
    List.forall_mem_map.mpr fun b hb => (hitems b hb).2
  have hin : "IN" ∈ operators := by decide
  have hitem : leaves (.list (items.map fun b => getOperand b.text)) =
      [.list (items.map fun b => getOperand b.text)] := by
    have hws : ∀ w ∈ items.map Operand.text, IsOperand w := List.forall_mem_map.mpr fun b hb => (hitems b hb).1
    have hlist := leaves_items hws
    rwa [List.map_map] at hlist
  have hlist := eval_list (fun b hb => (hitems b hb).1) heval
  refine ⟨h.waiting, h.around.2.within h.around.1,
    .list [.str "IN", .str s, .list (items.map fun b => getOperand b.text)] :: st, ?_, ?_, fun hx => ?_⟩
  · rw [List.append_assoc, eval_append hlist, List.singleton_append, List.foldlM_cons, evalToken_operand ha, hs]
    show (evalToken (.str s :: (listed _ ++ st)) (.str "IN") >>= pure) = _
    rw [evalToken_in htrim hvals]
    rfl
  · rw [List.length_cons, hlen]
    omega
  · rw [leavesAll, leaves_node hin, leavesAll, leavesAll, leavesAll, hitem, hleaves hx, hs]
    simp [leaves]

/-- One tree comes out, with all operands. -/
def Finishes (ts : List WhereTok) (ops : List String) (res us : List Value) : Prop :=
  ∃ res' v, run ts (ops, res) = .ok ([], res') ∧ res'.foldlM evalToken [] = .ok [v] ∧
    leaves v = ts.reverse.flatMap WhereTok.operands ++ us

/-- No tree comes out that has the operands. -/
def Fails (ts : List WhereTok) (ops : List String) (res : List Value) : Prop :=
  ∀ st v, run ts (ops, res) = .ok st → st.2.foldlM evalToken [] = .ok [v] →
    ∀ target, (∀ u ∈ target, ¬ Foreign u) → ¬ (leaves v).Perm target

theorem fails_of_doomed {ts : List WhereTok} {ops : List String} {res : List Value}
    (h : ∀ st, run ts (ops, res) = .ok st → Doomed st.2) : Fails ts ops res := by
  intro st v hrun heval target htarget hperm
  obtain ⟨u, hu, -, l, hl, hforeign⟩ := h st hrun [v] heval
  rw [List.mem_singleton.mp hu] at hl
  exact htarget l (hperm.subset hl) hforeign

/-- The condition on the tokens that are left. -/
structure Good (x : Nat) (hs : Behind) (tight : Bool) (ts : List WhereTok) : Prop where
  exact : x = 0
  known : ∀ t ∈ ts, t.Tabled ∧ t.Listed
  fronted : fronted ts = true
  inTime : inTime hs tight ts = true

/-- One tree comes out exactly under the condition. -/
def Decided (good : Prop) (ts : List WhereTok) (ops : List String) (res us : List Value) : Prop :=
  (good → Finishes ts ops res us) ∧ (¬ good → Fails ts ops res)

theorem Decided.cons {good good' : Prop} {t : WhereTok} {ts : List WhereTok} {ops ops' : List String}
    {res res' us us' : List Value} (h : Decided good' ts ops' res' us') (hgood : good ↔ good')
    (hrun : run (t :: ts) (ops, res) = run ts (ops', res')) (hus : us' = t.operands ++ us) :
    Decided good (t :: ts) ops res us := by
  refine ⟨fun hg => ?_, fun hg st v hst => h.2 (fun hg' => hg (hgood.mpr hg')) st v (hrun ▸ hst)⟩
  obtain ⟨res'', v, hfin, heval, hleaves⟩ := h.1 (hgood.mp hg)
  refine ⟨res'', v, hrun.trans hfin, heval, ?_⟩
  rw [hleaves, hus]
  simp

theorem Good.cons_iff {x : Nat} {hs hs' : Behind} {tight tight' : Bool} {t : WhereTok} {ts : List WhereTok}
    (ht : t.Tabled ∧ t.Listed) (hf : WhereOperators.fronted (t :: ts) = WhereOperators.fronted ts)
    (hi : WhereOperators.inTime hs tight (t :: ts) = WhereOperators.inTime hs' tight' ts) :
    Good x hs tight (t :: ts) ↔ Good x hs' tight' ts := by
  constructor
  · rintro ⟨hx, hknown, hfronted, htime⟩
    exact ⟨hx, fun u hu => hknown u (List.mem_cons_of_mem _ hu), hf ▸ hfronted, hi ▸ htime⟩
  · rintro ⟨hx, hknown, hfronted, htime⟩
    exact ⟨hx, List.forall_mem_cons.mpr ⟨ht, hknown⟩, hf ▸ hfronted, hi ▸ htime⟩

/-- The stacks where an operand is next, or where one has been read. -/
def At (x : Nat) (hs : Behind) (tight : Bool) (ops : List String) (res us : List Value) : Bool → Prop
  | true => Due x hs tight ops res us
  | false => Done x hs ops res us

theorem run_step {t : WhereTok} {w : String} (ht : t.items = [w]) {ts : List WhereTok}
    {st st' : List String × List Value} (h : shuntToken st (swapParen w) = .ok st') :
    run (t :: ts) st = run ts st' := by
  rw [run_item ht, h]
  rfl

/-- What the loop needs of the tokens. -/
def Fit (ts : List WhereTok) : Prop := ∀ t ∈ ts, t.Plain ∧ t.Proper

/-- An `IN` over an operator that binds tightest: its list loses its front. -/
theorem Due.isIn_tight {x d : Nat} {hs : Behind} {ops : List String} {res us : List Value}
    (h : Due x hs true ops res us) {items : List Operand} (hitems : ∀ b ∈ items, IsOperand b.text)
    {ts : List WhereTok} (hr : Reading true d ts) (hplain : ∀ t ∈ ts, t.Plain) :
    Fails (.inList .isIn items :: ts) ops res := by
  have hb := (h.around.2.within h.around.1).bracket_mem
  have hlist := shunt_list h.waiting hb .isIn hitems res
  have htight : tighter 1 ops ≠ [] := h.tight
  obtain ⟨front, op, hfront⟩ : ∃ front op, tighter 1 ops = front ++ [op] :=
    ⟨_, _, (List.dropLast_append_getLast htight).symm⟩
  have hop : op ∈ operators :=
    (waiting_tighter h.waiting (p := 1) (by decide) op (by rw [hfront]; simp)).1.mem.1
  refine fails_of_doomed fun st hrun => ?_
  rw [run_cons, hlist] at hrun
  cases halone : alone 0 ts with
  | false =>
    have hrun : run ts (List.replicate 0 "(" ++ "IN" :: looser 1 ops, _) = .ok st := hrun
    exact waiting_run hr (Nat.zero_le d) hplain halone hrun
  | true =>
    have hrun : run ts ("IN" :: looser 1 ops, _) = .ok st := hrun
    obtain ⟨a, rest, hlone, -, hends⟩ := lone_of_alone halone
    have ha : IsOperand a.text := hplain _ hlone.subset.2
    rw [hlone.run_eq ha, run_ends hends, hfront, List.map_append, ← List.append_assoc] at hrun
    exact doomed_run (doomed_of_node hop ha) hrun

theorem Due.shunt_isIn {x : Nat} {hs : Behind} {ops : List String} {res us : List Value}
    (h : Due x hs false ops res us) {items : List Operand} (hitems : ∀ b ∈ items, IsOperand b.text) :
    (WhereTok.inList .isIn items).turned.foldlM shuntToken (ops, res) =
      .ok ("IN" :: ops, res ++ (listed (items.map fun b => getOperand b.text)).reverse) := by
  have hb := (h.around.2.within h.around.1).bracket_mem
  have hlist := shunt_list h.waiting hb .isIn hitems res
  have hlooser : looser 1 ops = ops := by simpa using h.tight
  rw [hlooser, tighter_eq_nil hlooser, List.map_nil, List.append_nil] at hlist
  exact hlist

theorem good_post_iff {x : Nat} {hs : Behind} {tight : Bool} {o : PostOp} {ts : List WhereTok}
    (hok : x = 0 → tight = true → backed hs = true) : Good x hs tight (.post o :: ts) ↔ Good x hs false ts := by
  constructor
  · rintro ⟨hx, hknown, hfronted, htime⟩
    exact ⟨hx, fun u hu => hknown u (List.mem_cons_of_mem _ hu), hfronted, (Bool.and_eq_true_iff.mp htime).2⟩
  · rintro ⟨hx, hknown, hfronted, htime⟩
    refine ⟨hx, List.forall_mem_cons.mpr ⟨⟨trivial, trivial⟩, hknown⟩, hfronted, Bool.and_eq_true_iff.mpr ⟨?_, htime⟩⟩
    cases tight with
    | false => rfl
    | true => exact hok hx rfl

theorem good_isIn_iff {x : Nat} {hs : Behind} {items : List Operand} {a : Operand} {ts rest : List WhereTok}
    (h : Lone a ts rest) (halone : alone 0 ts = true) :
    Good x hs false (.inList .isIn items :: ts) ↔ Good x hs false rest := by
  have hf : fronted (.inList .isIn items :: ts) = fronted rest := by
    simp only [fronted, halone, Bool.true_and]
    exact h.fronted
  have hi : inTime hs false (.inList .isIn items :: ts) = inTime hs false rest := h.inTime hs
  constructor
  · rintro ⟨hx, hknown, hfronted, htime⟩
    exact ⟨hx, h.known.mp fun u hu => hknown u (List.mem_cons_of_mem _ hu), hf ▸ hfronted, hi ▸ htime⟩
  · rintro ⟨hx, hknown, hfronted, htime⟩
    exact ⟨hx, List.forall_mem_cons.mpr ⟨⟨trivial, rfl⟩, h.known.mpr hknown⟩, hf ▸ hfronted, hi ▸ htime⟩

/-- An `IN`, its list and its operand. -/
theorem Decided.isIn {good good' : Prop} {items : List Operand} {a : Operand} {ts rest : List WhereTok}
    {ops : List String} {res res' us : List Value}
    (h : Decided good' rest ops res' (getOperand a.text :: .list (items.map fun b => getOperand b.text) :: us))
    (hlone : Lone a ts rest) (hgood : good ↔ good')
    (hrun : run (.inList .isIn items :: ts) (ops, res) = run rest (ops, res')) :
    Decided good (.inList .isIn items :: ts) ops res us := by
  refine ⟨fun hg => ?_, fun hg st v hst => h.2 (fun hg' => hg (hgood.mpr hg')) st v (hrun ▸ hst)⟩
  obtain ⟨res'', v, hfin, heval, hleaves⟩ := h.1 (hgood.mp hg)
  refine ⟨res'', v, hrun.trans hfin, heval, ?_⟩
  rw [hleaves, List.reverse_cons, List.flatMap_append, hlone.operands]
  simp [WhereTok.operands]

/-- The loop over the tokens from the right, one case a token. -/
theorem run_tokens {due : Bool} {d : Nat} {ts : List WhereTok} (h : Reading due d ts) (hts : Fit ts) {x : Nat}
    {hs : Behind} {tight : Bool} {ops : List String} {res us : List Value} (hd : hs.length = d + 1)
    (hat : At x hs tight ops res us due) : Decided (Good x hs tight ts) ts ops res us := by
  obtain ⟨n, hn⟩ : ∃ n, ts.length = n := ⟨_, rfl⟩
  induction n using Nat.strong_induction_on generalizing due d ts x hs tight ops res us with
  | _ n ih =>
    subst hn
    have htail : ∀ {t : WhereTok} {us : List WhereTok}, Fit (t :: us) → Fit us :=
      fun h u hu => h u (List.mem_cons_of_mem _ hu)
    cases h with
    | @opd _ a ts h =>
      have hat : Due x hs tight ops res us := hat
      obtain ⟨hstep, hdone⟩ := hat.opd (hts (.opd a) List.mem_cons_self).1
      have hdone : At x hs false _ _ _ false := hdone
      refine (ih ts.length (Nat.lt_succ_self _) h (htail hts) hd hdone rfl).cons ?_ (run_step rfl hstep) rfl
      exact Good.cons_iff ⟨trivial, trivial⟩ rfl rfl
    | @rpar _ ts h =>
      have hat : Due x hs tight ops res us := hat
      refine (ih ts.length (Nat.lt_succ_self _) h (htail hts) (by simpa using hd) hat.rpar rfl).cons ?_
        (run_step rfl rfl) rfl
      exact Good.cons_iff ⟨trivial, trivial⟩ rfl rfl
    | @post _ o ts h =>
      have hat : Due x hs tight ops res us := hat
      by_cases hok : x = 0 → tight = true → backed hs = true
      · obtain ⟨ops', res', hstep, hdue⟩ := hat.post o hok
        refine (ih ts.length (Nat.lt_succ_self _) h (htail hts) hd hdue rfl).cons ?_ (run_step rfl hstep) rfl
        exact good_post_iff hok
      · obtain ⟨rfl, rfl, hno⟩ : x = 0 ∧ tight = true ∧ backed hs = false := by simpa using hok
        obtain ⟨ops', res', hstep, e, he⟩ := hat.post_short o hno
        refine ⟨fun hg => ?_, fun _ => fails_of_doomed fun st hrun => ?_⟩
        · have htime := hg.inTime
          simp [inTime, hno] at htime
        · rw [run_step (t := .post o) rfl hstep] at hrun
          exact doomed_run (Doomed.of_error he) hrun
    | @inList _ o items ts h =>
      have hat : Due x hs tight ops res us := hat
      have hitems := (hts (.inList o items) List.mem_cons_self).1
      have hplain : ∀ t ∈ ts, t.Plain := fun t ht => (hts t (List.mem_cons_of_mem _ ht)).1
      cases o with
      | notIn =>
        obtain ⟨x', ops', res', hx', hstep, hdue⟩ := hat.notIn fun b hb => (hitems b hb).1
        have hno : ¬ ListOp.notIn = .isIn := by decide
        refine ⟨fun hg => absurd (hg.known _ List.mem_cons_self).2 hno, fun _ st v hrun => ?_⟩
        rw [run_cons, hstep] at hrun
        exact (ih ts.length (Nat.lt_succ_self _) h (htail hts) hd hdue rfl).2 (fun hg => hx' hg.exact) st v hrun
      | isIn =>
        cases tight with
        | true =>
          refine ⟨fun hg => ?_, fun _ => hat.isIn_tight (fun b hb => (hitems b hb).1) h hplain⟩
          have htime := hg.inTime
          simp [inTime] at htime
        | false =>
          have hstep := hat.shunt_isIn fun b hb => (hitems b hb).1
          cases halone : alone 0 ts with
          | false =>
            refine ⟨fun hg => ?_, fun _ => fails_of_doomed fun st hrun => ?_⟩
            · have hfronted := hg.fronted
              simp [WhereOperators.fronted, halone] at hfronted
            · rw [run_cons, hstep] at hrun
              have hrun : run ts (List.replicate 0 "(" ++ "IN" :: ops, _) = .ok st := hrun
              exact waiting_run h (Nat.zero_le _) hplain halone hrun
          | true =>
            obtain ⟨a, rest, hlone, htext, hends⟩ := lone_of_alone halone
            have ha := hts (.opd a) (List.mem_cons_of_mem _ hlone.subset.2)
            have hdone : At x hs false _ _ _ false := hat.isIn hitems ha.1 (ha.2 a List.mem_cons_self) htext
            have hrest := ih rest.length (Nat.lt_succ_of_lt hlone.length_lt) (hlone.reading h)
              (fun t ht => hts t (List.mem_cons_of_mem _ (hlone.subset.1 t ht))) hd hdone rfl
            refine hrest.isIn hlone ?_ ?_
            · exact good_isIn_iff hlone halone
            · rw [run_cons, hstep]
              show run ts ("IN" :: ops, _) = _
              rw [hlone.run_eq ha.1, run_ends hends]
    | @mid _ o ts h =>
      have hat : Done x hs ops res us := hat
      obtain ⟨hmem, hl, hr, hp, hle, -⟩ := mid_facts o
      by_cases htabled : (WhereTok.mid o).Tabled
      · obtain ⟨o, rfl⟩ : ∃ o', o = .bin o' := by
          cases o with
          | bin o => exact ⟨o, rfl⟩
          | plus => exact absurd htabled (by decide)
          | minus => exact absurd htabled (by decide)
          | times => exact absurd htabled (by decide)
        obtain ⟨ops', res', hstep, hdue⟩ := hat.mid o
        refine (ih ts.length (Nat.lt_succ_self _) h (htail hts) ?_ hdue rfl).cons ?_
          (run_step (w := o.name) rfl hstep) rfl
        · cases hs with
          | nil => cases hd
          | cons q hs => exact hd
        · exact Good.cons_iff ⟨htabled, trivial⟩ rfl rfl
      · refine ⟨fun hg => absurd (hg.known _ List.mem_cons_self).1 htabled, fun _ => fails_of_doomed fun st hrun => ?_⟩
        exact unmet_run hat (t := .mid o) rfl ⟨hmem, hl, hr⟩ hp hle (not_not.mp htabled) h
          (fun t ht => (hts t (List.mem_cons_of_mem _ ht)).1) hrun
    | @pre _ o ts h =>
      have hat : Done x hs ops res us := hat
      obtain ⟨hmem, hl, hr, hp⟩ := pre_facts o
      cases o with
      | not =>
        obtain ⟨ops', res', hstep, hdone⟩ := hat.not
        have hdone : At x hs false _ _ _ false := hdone
        refine (ih ts.length (Nat.lt_succ_self _) h (htail hts) hd hdone rfl).cons ?_
          (run_step (w := "NOT") rfl hstep) rfl
        exact Good.cons_iff ⟨by decide, trivial⟩ rfl rfl
      | exist =>
        have hno : ¬ (WhereTok.pre .exist).Tabled := by decide
        refine ⟨fun hg => absurd (hg.known _ List.mem_cons_self).1 hno, fun _ => fails_of_doomed fun st hrun => ?_⟩
        exact unmet_run hat (t := .pre .exist) rfl ⟨hmem, hl, hr⟩ hp (by decide) (not_not.mp hno) h
          (fun t ht => (hts t (List.mem_cons_of_mem _ ht)).1) hrun
    | @lpar d ts h =>
      have hat : Done x hs ops res us := hat
      cases hs with
      | nil => cases hd
      | cons q hs =>
        have hd : hs.length = d + 1 := Nat.succ.inj hd
        have hne : hs ≠ [] := by
          rintro rfl
          cases hd
        obtain ⟨ops', res', hstep, hdone⟩ := hat.lpar hne
        have hdone : At x hs false _ _ _ false := hdone
        refine (ih ts.length (Nat.lt_succ_self _) h (htail hts) hd hdone rfl).cons ?_
          (run_step (w := "(") rfl hstep) rfl
        exact Good.cons_iff ⟨trivial, trivial⟩ rfl rfl
    | nil =>
      have hat : Done x hs ops res us := hat
      obtain ⟨q, rfl⟩ := List.length_eq_one_iff.mp hd
      obtain ⟨res', hstep, st, heval, hlen, hleaves⟩ := hat.last
      have hrun : run [] (ops, res) = .ok ([], res') := (run_nil _).trans hstep
      constructor
      · rintro ⟨rfl, -, -, -⟩
        obtain ⟨v, rfl⟩ := List.length_eq_one_iff.mp hlen
        refine ⟨res', v, hrun, heval, ?_⟩
        simpa [leavesAll] using hleaves rfl
      · intro hno st' v hrun' heval'
        rw [hrun] at hrun'
        obtain rfl := Except.ok.inj hrun'
        obtain rfl : st = [v] := Except.ok.inj (heval.symm.trans heval')
        exact absurd ⟨Nat.succ.inj hlen.symm, by simp, rfl, rfl⟩ hno

/-! ## The values of operands -/

/-- A list that is an operand is a name behind a dot. -/
theorem getOperand_list {w : String} {vs : List Value} (h : getOperand w = .list vs) :
    ∃ s, vs = [.str ("." ++ s)] := by
  unfold getOperand at h
  split at h
  · cases h
    exact ⟨"\"$\"" ++ String.ofList (w.toList.drop 1), by rw [← String.append_assoc]; rfl⟩
  split at h
  · cases h
  split at h
  · cases h
    exact ⟨"_id", rfl⟩
  split at h
  · split at h
    · cases h
    · split at h <;> cases h
  split at h
  · cases h
  split at h
  · cases h
    exact ⟨w, rfl⟩
  · cases h

theorem dot_plain (s : String) : "." ++ s ∉ operators ∧ IsItem (.str ("." ++ s)) := by
  have hs : ("." ++ s).toList = '.' :: s.toList := by simp
  have hdot : PyStr.startswith ("." ++ s) "." = true := PyStr.startswith_char hs (by decide)
  have hops : ∀ o ∈ operators ++ ["[", ",", "]"], PyStr.startswith o "." = false := by decide
  have hne : "." ++ s ∉ operators ++ ["[", ",", "]"] := by
    intro hm
    rw [hops _ hm] at hdot
    cases hdot
  simp only [List.mem_append, List.mem_cons, List.not_mem_nil, or_false, not_or] at hne
  exact hne

theorem getOperand_not_node (w : String) : ¬ IsNode (getOperand w) := by
  rintro ⟨op, vs, hv, hop⟩
  obtain ⟨s, hs⟩ := getOperand_list hv
  obtain ⟨rfl, -⟩ := List.cons.inj hs |>.imp_left Value.str.inj
  exact (dot_plain s).1 hop

theorem operands_not_foreign (e : WhereExpr) : ∀ u ∈ e.operands, ¬ Foreign u := by
  intro u hu
  obtain ⟨t, -, hu⟩ := List.mem_flatMap.mp hu
  cases t with
  | opd a =>
    rw [List.mem_singleton.mp hu]
    rintro ⟨vs, hvs, v, hv, op, ws, rfl, -⟩
    obtain ⟨s, rfl⟩ := getOperand_list hvs
    simp at hv
  | inList o items =>
    rw [List.mem_singleton.mp hu]
    rintro ⟨vs, hvs, v, hv, hnode⟩
    obtain rfl := Value.list.inj hvs
    obtain ⟨b, -, rfl⟩ := List.mem_map.mp hv
    exact getOperand_not_node b.text hnode
  | mid o => cases hu
  | pre o => cases hu
  | post o => cases hu
  | lpar => cases hu
  | rpar => cases hu

/-- A leaf of a tree: no operator, and in a list no operator, bracket or comma. -/
def CleanLeaf : Value → Prop
  | .str s => s ∉ operators ∧ PyStr.Trimmed s.toList
  | .int _ => True
  | .list vs => ∀ v ∈ vs, operator? v = none ∧ IsItem v

def Clean (u : Value) : Prop := ∀ l ∈ leaves u, CleanLeaf l

theorem Clean.str {s : String} (h : Clean (.str s)) : s ∉ operators ∧ PyStr.Trimmed s.toList :=
  h (.str s) List.mem_cons_self

theorem Clean.not_operator {v : Value} (h : Clean v) : operator? v = none := by
  cases v with
  | str s => simp [operator?, h.str.1]
  | int n => rfl
  | list vs => rfl

theorem popList_items {st opd rest : List Value} (h : popList st = .ok (opd, rest)) : ∀ v ∈ opd, IsItem v := by
  induction st generalizing opd rest with
  | nil => cases h
  | cons item st ih =>
    cases item with
    | str s =>
      simp only [popList] at h
      split at h
      · cases h
        simp
      · rename_i hclose
        obtain ⟨r, hr, h⟩ := Loop.bind_eq_ok.mp h
        split at h
        · cases h
          exact ih hr
        · rename_i hmark
          rw [not_or] at hmark
          cases h
          exact List.forall_mem_cons.mpr ⟨⟨hmark.1, hmark.2, hclose⟩, ih hr⟩
    | int n =>
      obtain ⟨r, hr, h⟩ := Loop.bind_eq_ok.mp h
      cases h
      exact List.forall_mem_cons.mpr ⟨trivial, ih hr⟩
    | list vs =>
      obtain ⟨r, hr, h⟩ := Loop.bind_eq_ok.mp h
      cases h
      exact List.forall_mem_cons.mpr ⟨trivial, ih hr⟩

/-- A round of the second loop. -/
theorem evalToken_clean {st st' : List Value} {t : Value} (h : evalToken st t = .ok st') (hst : ∀ u ∈ st, Clean u)
    (ht : operator? t = none → Clean t) : ∀ u ∈ st', Clean u := by
  rcases evalToken_cases h with ⟨hnone, rfl⟩ | ⟨op, opd, rest, rfl, hop, rfl, hpop⟩
  · exact List.forall_mem_cons.mpr ⟨ht hnone, hst⟩
  have hnode : (∀ v ∈ opd, Clean v) → Clean (.list (.str op :: opd)) := by
    intro hopd l hl
    rw [leaves_node hop] at hl
    obtain ⟨v, hv, hl⟩ := mem_leavesAll.mp hl
    exact hopd v hv l hl
  split at hpop
  · obtain ⟨s, items, tail, rfl, hlist, rfl⟩ := popIn_cases hpop
    obtain ⟨hitems, hrest⟩ := popList_mem hlist
    have hs := (hst (.str s) List.mem_cons_self)
    have hvar : String.ofList (PyStr.strip s.toList) = s := by rw [hs.str.2.strip, String.ofList_toList]
    have hclean : ∀ v ∈ items, Clean v := fun v hv => hst v (List.mem_cons_of_mem _ (hitems v hv))
    have hleaf : leaves (.list items) = [.list items] := by
      match items, hclean with
      | [], _ => rfl
      | .int n :: _, _ => rfl
      | .list vs :: _, _ => rfl
      | .str o :: _, hclean => simp [leaves, (hclean (.str o) List.mem_cons_self).str.1]
    refine List.forall_mem_cons.mpr ⟨hnode ?_, fun u hu => hst u (List.mem_cons_of_mem _ (hrest u hu))⟩
    rw [hvar]
    refine List.forall_mem_cons.mpr ⟨hs, List.forall_mem_cons.mpr ⟨fun l hl => ?_, by simp⟩⟩
    rw [hleaf] at hl
    rw [List.mem_singleton.mp hl]
    exact fun v hv => ⟨(hclean v hv).not_operator, popList_items hlist v hv⟩
  · rw [hpop] at hst
    exact List.forall_mem_cons.mpr ⟨hnode fun v hv => hst v (List.mem_append_left _ hv),
      fun u hu => hst u (List.mem_append_right _ hu)⟩

theorem cleanLeaf_getOperand {w : String} (h : Sound (getOperand w)) : CleanLeaf (getOperand w) := by
  cases hv : getOperand w with
  | str s =>
    rw [hv, Sound] at h
    exact h
  | int n => trivial
  | list vs =>
    obtain ⟨s, rfl⟩ := getOperand_list hv
    intro v hv
    rw [List.mem_singleton.mp hv]
    exact ⟨by simp [operator?, (dot_plain s).1], (dot_plain s).2⟩

/-- The items of a token are operators, the texts of its operands, and the brackets and commas of
its list. -/
theorem item_cases {t : WhereTok} {w : String} (hw : w ∈ t.items) :
    w ∈ operators ∨ w ∈ ["[", ",", "]"] ∨ ∃ a ∈ t.texts, w = a.text := by
  cases t with
  | opd a =>
    rw [List.mem_singleton.mp hw]
    exact .inr (.inr ⟨a, List.mem_cons_self, rfl⟩)
  | mid o =>
    rw [List.mem_singleton.mp hw]
    exact .inl (mid_facts o).1
  | pre o =>
    rw [List.mem_singleton.mp hw]
    exact .inl (pre_facts o).1
  | post o =>
    rw [List.mem_singleton.mp hw]
    exact .inl (post_facts o).1
  | lpar =>
    rw [List.mem_singleton.mp hw]
    exact .inl (by decide)
  | rpar =>
    rw [List.mem_singleton.mp hw]
    exact .inl (by decide)
  | inList o items =>
    have hsep : ∀ ws : List String, ∀ w ∈ ws.intersperse ",", w = "," ∨ w ∈ ws := by
      intro ws
      induction ws with
      | nil => simp
      | cons u ws ih =>
        cases ws with
        | nil => simp
        | cons v ws =>
          rw [List.intersperse_cons_cons]
          intro w hw
          rcases List.mem_cons.mp hw with rfl | hw
          · exact .inr List.mem_cons_self
          rcases List.mem_cons.mp hw with rfl | hw
          · exact .inl rfl
          · exact (ih w hw).imp_right (List.mem_cons_of_mem _)
    rcases List.mem_cons.mp hw with rfl | hw
    · exact .inl (listOp_facts o).1
    rcases List.mem_cons.mp hw with rfl | hw
    · exact .inr (.inl (by decide))
    rcases List.mem_append.mp hw with hw | hw
    · rcases hsep _ w hw with rfl | hw
      · exact .inr (.inl (by decide))
      · obtain ⟨a, ha, rfl⟩ := List.mem_map.mp hw
        exact .inr (.inr ⟨a, ha, rfl⟩)
    · rw [List.mem_singleton.mp hw]
      exact .inr (.inl (by decide))

/-- What is put out is an operator or the value of an operand. -/
theorem shunt_values {ws : List String} {st : List String × List Value} (h : ws.foldlM shuntToken ([], []) = .ok st) :
    ∀ v ∈ st.2, operator? v = none → ∃ w ∈ ws, w ∉ operators ∧ v = getOperand w := by
  have hkept := Loop.foldlM_keeps (f := shuntToken)
    (P := fun s : List String × List Value => (∀ op ∈ s.1, op ∈ operators) ∧
      ∀ v ∈ s.2, operator? v = none → ∃ w ∈ ws, w ∉ operators ∧ v = getOperand w)
    (fun s w s' hw hs hstep => ?_) (by simp) h
  · exact hkept.2
  · obtain ⟨ops, res⟩ := s
    obtain ⟨hops, hvals⟩ := hs
    have hpops : ∀ popped : List String, (∀ op ∈ popped, op ∈ operators) →
        ∀ v ∈ res ++ popped.map .str, operator? v = none → ∃ w ∈ ws, w ∉ operators ∧ v = getOperand w := by
      intro popped hpopped v hv hnone
      rcases List.mem_append.mp hv with hv | hv
      · exact hvals v hv hnone
      · obtain ⟨op, hop, rfl⟩ := List.mem_map.mp hv
        simp [operator?, hpopped op hop] at hnone
    rcases shuntToken_cases hstep with ⟨hmem, rfl⟩ | ⟨hmem, -, popped, rest, rfl, rfl⟩ | ⟨-, popped, rest, rfl, rfl⟩
    · refine ⟨hops, fun v hv hnone => ?_⟩
      rcases List.mem_append.mp hv with hv | hv
      · exact hvals v hv hnone
      · rw [List.mem_singleton.mp hv]
        exact ⟨w, hw, hmem, rfl⟩
    · obtain ⟨hpopped, hrest⟩ := List.forall_mem_append.mp hops
      exact ⟨List.forall_mem_cons.mpr ⟨hmem, hrest⟩, hpops popped hpopped⟩
    · obtain ⟨hpopped, hrest⟩ := List.forall_mem_append.mp hops
      exact ⟨(List.forall_mem_cons.mp hrest).2, hpops popped hpopped⟩

/-! ## Whole expressions -/

theorem turned_items (e : WhereExpr) : e.items.reverse.map swapParen = e.tokens.reverse.flatMap WhereTok.turned := by
  have key : ∀ ts : List WhereTok, (ts.flatMap WhereTok.items).reverse.map swapParen =
      ts.reverse.flatMap WhereTok.turned := by
    intro ts
    induction ts with
    | nil => rfl
    | cons t ts ih =>
      rw [List.flatMap_cons, List.reverse_append, List.map_append, ih, List.reverse_cons, List.flatMap_append]
      simp [WhereTok.turned]
  exact key e.tokens

theorem loop_eq (e : WhereExpr) : (["("] ++ e.items.reverse.map swapParen ++ [")"]).foldlM shuntToken ([], []) =
    run e.tokens.reverse (["("], []) := by
  rw [turned_items, List.append_assoc]
  rfl

theorem getPrefixList_eq {e : WhereExpr} (he : ∀ t ∈ e.tokens, t.Proper) {query : String}
    (hq : wordsOf query = e.words) :
    getPrefixList query = run e.tokens.reverse (["("], []) >>= fun st => .ok st.2.reverse := by
  unfold getPrefixList
  rw [hq, joinWords_items he]
  show ((["("] ++ e.items.reverse.map swapParen ++ [")"]).foldlM shuntToken ([], []) >>= _) = _
  rw [loop_eq]
  rfl

theorem sound_mark {w : String} (hw : w ∈ ["[", ",", "]"]) : Sound (getOperand w) := by
  have hmarks : ∀ s ∈ ["[", ",", "]"], s ∉ operators ∧ (s.toList.all fun c => !PyStr.isspace c) = true := by decide
  have hval : getOperand w = .str w := by
    simp only [List.mem_cons, List.not_mem_nil, or_false] at hw
    rcases hw with rfl | rfl | rfl <;> rfl
  obtain ⟨hno, hall⟩ := hmarks w hw
  have hspace : ∀ c ∈ w.toList, PyStr.isspace c = false := fun c hc => by simpa using List.all_eq_true.mp hall c hc
  rw [hval, Sound]
  exact ⟨hno, fun c hc => hspace c (List.mem_of_mem_head? hc), fun c hc => hspace c (List.mem_of_mem_getLast? hc)⟩

/-- The values that are put out of an expression are clean. -/
theorem clean_values {e : WhereExpr} (he : ∀ t ∈ e.tokens, t.Proper) {st : List String × List Value}
    (hrun : run e.tokens.reverse (["("], []) = .ok st) : ∀ u ∈ st.2, operator? u = none → Clean u := by
  intro u hu hnone
  obtain ⟨w, hw, hno, rfl⟩ := shunt_values ((loop_eq e).trans hrun) u hu hnone
  have hitem : w ∈ e.items := by
    simp only [List.mem_append, List.mem_singleton, List.mem_map, List.mem_reverse] at hw
    rcases hw with (rfl | ⟨x, hx, rfl⟩) | rfl
    · exact absurd (by decide) hno
    · have hxno : x ∉ operators := fun hm => hno <| by
        by_cases hin : x = "IN"
        · subst hin
          decide
        · exact (swapParen_mem hm hin).1
      rwa [swapParen_operand hxno]
    · exact absurd (by decide) hno
  obtain ⟨t, ht, hwt⟩ := List.mem_flatMap.mp hitem
  have hsound : Sound (getOperand w) := by
    rcases item_cases hwt with hmem | hmark | ⟨a, ha, rfl⟩
    · exact absurd hmem hno
    · exact sound_mark hmark
    · exact sound_operand (he t ht a ha) hnone
  intro l hl
  rw [leaves_getOperand] at hl
  rw [List.mem_singleton.mp hl]
  exact cleanLeaf_getOperand hsound

/-- Operands with clean values have no value of an operator. -/
theorem plain_of_clean {e : WhereExpr} (he : ∀ t ∈ e.tokens, t.Proper) (hopd : ∀ u ∈ e.operands, CleanLeaf u) :
    ∀ t ∈ e.tokens, t.Plain := by
  have hnone : ∀ {w : String}, CleanLeaf (getOperand w) → operator? (getOperand w) = none := by
    intro w hw
    cases hv : getOperand w with
    | str s =>
      rw [hv] at hw
      simp [operator?, hw.1]
    | int n => rfl
    | list vs => rfl
  intro t ht
  cases t with
  | opd a =>
    have ha := hopd (getOperand a.text) (List.mem_flatMap.mpr ⟨_, ht, List.mem_cons_self⟩)
    exact ⟨Operand.Proper.not_operator (he _ ht a List.mem_cons_self), hnone ha⟩
  | inList o items =>
    have hlist := hopd _ (List.mem_flatMap.mpr ⟨_, ht, List.mem_cons_self⟩)
    intro b hb
    obtain ⟨hb', hitem⟩ := hlist (getOperand b.text) (List.mem_map_of_mem hb)
    exact ⟨⟨Operand.Proper.not_operator (he _ ht b hb), hb'⟩, hitem⟩
  | mid o => trivial
  | pre o => trivial
  | post o => trivial
  | lpar => trivial
  | rpar => trivial

/-- A tree of `e'` has the operands of `e`: none of these has the value of an operator. -/
theorem plain_of_run {e e' : WhereExpr} (he : ∀ t ∈ e.tokens, t.Proper) (he' : ∀ t ∈ e'.tokens, t.Proper)
    {st : List String × List Value} {v : Value} (hrun : run e'.tokens.reverse (["("], []) = .ok st)
    (heval : st.2.foldlM evalToken [] = .ok [v]) (hperm : (leaves v).Perm e.operands) : ∀ t ∈ e.tokens, t.Plain := by
  have hclean := clean_values he' hrun
  have hleaf := Loop.foldlM_keeps (P := fun st : List Value => ∀ u ∈ st, Clean u)
    (fun s t s' ht hs hstep => evalToken_clean hstep hs (hclean t ht)) (by simp) heval v List.mem_cons_self
  exact plain_of_clean he fun u hu => hleaf u (hperm.symm.subset hu)

/-- The text has the words of `e'`. -/
theorem usesAll_iff_run {e e' : WhereExpr} (he' : ∀ t ∈ e'.tokens, t.Proper) {query : String}
    (hq : wordsOf query = e'.words) : e.UsesAll query ↔ ∃ st v, run e'.tokens.reverse (["("], []) = .ok st ∧
      st.2.foldlM evalToken [] = .ok [v] ∧ (leaves v).Perm e.operands := by
  have hlists := getPrefixList_eq he' hq
  constructor
  · rintro ⟨list, v, hlist, -, heval, hperm⟩
    rw [hlists] at hlist
    obtain ⟨st, hrun, hlist⟩ := Loop.bind_eq_ok.mp hlist
    obtain rfl := Except.ok.inj hlist
    rw [List.reverse_reverse] at heval
    exact ⟨st, v, hrun, heval, hperm⟩
  · rintro ⟨st, v, hrun, heval, hperm⟩
    refine ⟨st.2.reverse, v, ?_, ?_, by rwa [List.reverse_reverse], hperm⟩
    · rw [hlists, hrun]
      rfl
    · unfold prefixEvaluation
      rw [List.reverse_reverse, heval]
      rfl

theorem due_start : Due 0 [none] false ["("] [] [] where
  waiting := by simpa using Waiting.bracket
  around := ⟨by simp, List.mem_cons_self, fun _ => by decide, fun _ => by decide, rfl⟩
  tight := rfl
  eval := ⟨[], rfl, rfl, fun _ => rfl⟩

theorem decided_expr {e : WhereExpr} (he : ∀ t ∈ e.tokens, t.Proper) (hplain : ∀ t ∈ e.tokens, t.Plain) :
    Decided (Good 0 [none] false e.tokens.reverse) e.tokens.reverse ["("] [] [] := by
  have hreading : Reading true 0 e.tokens.reverse := by simpa using reading_tokens e .nil
  exact run_tokens hreading
    (fun t ht => ⟨hplain t (List.mem_reverse.mp ht), he t (List.mem_reverse.mp ht)⟩) rfl due_start

theorem handled_iff {e : WhereExpr} :
    e.Handled ↔ (∀ t ∈ e.tokens, t.Plain) ∧ Good 0 [none] false e.tokens.reverse := by
  constructor
  · rintro ⟨htabled, hlisted, hplain, hfronted, htime⟩
    exact ⟨hplain, rfl, fun t ht => ⟨htabled t (List.mem_reverse.mp ht), hlisted t (List.mem_reverse.mp ht)⟩,
      hfronted, htime⟩
  · rintro ⟨hplain, -, hknown, hfronted, htime⟩
    exact ⟨fun t ht => (hknown t (List.mem_reverse.mpr ht)).1, fun t ht => (hknown t (List.mem_reverse.mpr ht)).2,
      hplain, hfronted, htime⟩

/-- A text with the words of an expression, behind the rewriting, compiles to one tree that uses
every operand once, exactly if the expression is handled. -/
theorem usesAll_of_words {e : WhereExpr} (he : ∀ t ∈ e.tokens, t.Proper) {query : String}
    (hq : wordsOf query = e.words) : e.UsesAll query ↔ e.Handled := by
  rw [usesAll_iff_run he hq, handled_iff]
  constructor
  · rintro ⟨st, v, hrun, heval, hperm⟩
    have hplain := plain_of_run he he hrun heval hperm
    refine ⟨hplain, ?_⟩
    by_contra hno
    exact (decided_expr he hplain).2 hno st v hrun heval _ (operands_not_foreign e) hperm
  · rintro ⟨hplain, hgood⟩
    obtain ⟨res, v, hrun, heval, hleaves⟩ := (decided_expr he hplain).1 hgood
    rw [List.reverse_reverse, List.append_nil] at hleaves
    exact ⟨_, v, hrun, heval, List.Perm.of_eq hleaves⟩

end MobileTestkit.L3.WhereOperators
