import MobileTestkit.L3Query.WherePart

/-!
# Operators in a compiled tree

In what a text compiles to, an operator's name stands in front of a node only:
`prefix_evaluation` takes an operand that looks like an operator for one.

* `compileWhere_sound`: no operand of the tree is the name of an operator.
-/
namespace MobileTestkit.L3.RqgParser

open MobileTestkit.Core

mutual
/-- No operator but in front of a list, and no white space that `strip` takes. -/
def Sound : Value → Prop
  | .str s => s ∉ operators ∧ PyStr.Trimmed s.toList
  | .int _ => True
  | .list [] => True
  | .list (_ :: vs) => SoundAll vs

def SoundAll : List Value → Prop
  | [] => True
  | v :: vs => Sound v ∧ SoundAll vs
end

theorem soundAll_iff {vs : List Value} : SoundAll vs ↔ ∀ v ∈ vs, Sound v := by
  induction vs with
  | nil => simp [SoundAll]
  | cons v vs ih => simp [SoundAll, ih]

theorem Sound.not_operator {v : Value} (h : Sound v) : operator? v = none := by
  cases v with
  | str s =>
    have hs : s ∉ operators := by
      rw [Sound] at h
      exact h.1
    simp [operator?, hs]
  | int n => rfl
  | list vs => rfl

/-! ## The second stack -/

theorem popList_mem {st opd rest : List Value} (h : popList st = .ok (opd, rest)) :
    (∀ v ∈ opd, v ∈ st) ∧ ∀ v ∈ rest, v ∈ st := by
  induction st generalizing opd rest with
  | nil => cases h
  | cons item st ih =>
    have hkeep : ∀ {r : List Value × List Value}, popList st = .ok r →
        (∀ v ∈ item :: r.1, v ∈ item :: st) ∧ (∀ v ∈ r.1, v ∈ item :: st) ∧
          ∀ v ∈ r.2, v ∈ item :: st := by
      intro r hr
      obtain ⟨hopd, hrest⟩ := ih hr
      refine ⟨fun v hv => ?_, fun v hv => List.mem_cons_of_mem _ (hopd v hv),
        fun v hv => List.mem_cons_of_mem _ (hrest v hv)⟩
      rcases List.mem_cons.mp hv with rfl | hv
      · exact List.mem_cons_self
      · exact List.mem_cons_of_mem _ (hopd v hv)
    cases item with
    | str s =>
      simp only [popList] at h
      split at h
      · cases h
        exact ⟨by simp, fun v hv => List.mem_cons_of_mem _ hv⟩
      · obtain ⟨r, hr, h⟩ := Loop.bind_eq_ok.mp h
        obtain ⟨hall, hopd, hrest⟩ := hkeep hr
        split at h
        · cases h
          exact ⟨hopd, hrest⟩
        · cases h
          exact ⟨hall, hrest⟩
    | int n =>
      obtain ⟨r, hr, h⟩ := Loop.bind_eq_ok.mp h
      obtain ⟨hall, -, hrest⟩ := hkeep hr
      cases h
      exact ⟨hall, hrest⟩
    | list vs =>
      obtain ⟨r, hr, h⟩ := Loop.bind_eq_ok.mp h
      obtain ⟨hall, -, hrest⟩ := hkeep hr
      cases h
      exact ⟨hall, hrest⟩

theorem popIn_sound {st opd rest : List Value} (h : popIn st = .ok (opd, rest)) (hst : ∀ v ∈ st, Sound v) :
    (∀ v ∈ opd, Sound v) ∧ ∀ v ∈ rest, Sound v := by
  obtain ⟨s, items, tail, rfl, hlist, rfl⟩ := popIn_cases h
  obtain ⟨hopd, hrest⟩ := popList_mem hlist
  obtain ⟨hs, htail⟩ := List.forall_mem_cons.mp hst
  have hvar : String.ofList (PyStr.strip s.toList) = s := by
    rw [Sound] at hs
    rw [hs.2.strip, String.ofList_toList]
  have hitems : Sound (.list items) := by
    cases items with
    | nil => simp [Sound]
    | cons item items =>
      rw [Sound]
      exact soundAll_iff.mpr fun v hv => htail v (hopd v (List.mem_cons_of_mem _ hv))
  rw [hvar]
  exact ⟨by simp [hs, hitems], fun v hv => htail v (hrest v hv)⟩

/-- A round of the second loop. -/
theorem evalToken_sound {st st' : List Value} {t : Value} (h : evalToken st t = .ok st')
    (hst : ∀ v ∈ st, Sound v) (ht : operator? t = none → Sound t) : ∀ v ∈ st', Sound v := by
  rcases evalToken_cases h with ⟨hnone, rfl⟩ | ⟨op, opd, rest, rfl, -, rfl, hpop⟩
  · exact List.forall_mem_cons.mpr ⟨ht hnone, hst⟩
  have hparts : (∀ v ∈ opd, Sound v) ∧ ∀ v ∈ rest, Sound v := by
    split at hpop
    · exact popIn_sound hpop hst
    · rw [hpop] at hst
      exact List.forall_mem_append.mp hst
  refine List.forall_mem_cons.mpr ⟨?_, hparts.2⟩
  rw [Sound]
  exact soundAll_iff.mpr hparts.1

/-! ## The first stack -/

/-- What is put out is an operator or the value of an operand. -/
theorem shunt_sound {items : List String} {st : List String × List Value}
    (h : items.foldlM shuntToken ([], []) = .ok st) (hin : "IN" ∉ items)
    (hopd : ∀ w ∈ items, w ∉ operators → operator? (getOperand w) = none → Sound (getOperand w)) :
    ∀ v ∈ st.2, operator? v = none → Sound v := by
  have hstart : Stacked ([] : List String) ∧ ∀ v ∈ ([] : List Value), operator? v = none → Sound v := by
    simp [Stacked]
  have hkept := Loop.foldlM_keeps (f := shuntToken)
    (P := fun st : List String × List Value => Stacked st.1 ∧ ∀ v ∈ st.2, operator? v = none → Sound v)
    (fun s t s' ht hs hstep => ?_) hstart h
  · exact hkept.2
  · obtain ⟨hops, hvals⟩ := hs
    obtain ⟨hops', hcase⟩ := shuntToken_putsOut hstep hops fun he => hin (he ▸ ht)
    refine ⟨hops', fun v hv hnone => ?_⟩
    rcases hcase with ⟨hmem, hres⟩ | ⟨hmem, popped, hpop, hres⟩
    · rw [hres] at hv
      rcases List.mem_append.mp hv with hv | hv
      · exact hvals v hv hnone
      · rw [List.mem_singleton.mp hv] at hnone ⊢
        exact hopd t ht hmem hnone
    · rw [hres] at hv
      rcases List.mem_append.mp hv with hv | hv
      · exact hvals v hv hnone
      · obtain ⟨s, hs, rfl⟩ := List.mem_map.mp hv
        simp [operator?, (hpop s hs).1] at hnone

/-- No operand of what a text compiles to is the name of an operator. -/
theorem compileWhere_sound {query : String} {v : Value} (h : compileWhere query = .ok v)
    (hin : "IN" ∉ joinWords (wordsOf query))
    (hopd : ∀ w ∈ joinWords (wordsOf query), w ∉ operators → operator? (getOperand w) = none →
      Sound (getOperand w)) : Sound v := by
  obtain ⟨st, stack, hloop, hstack⟩ := compileWhere_runs.mp h
  generalize joinWords (wordsOf query) = items at hin hopd hloop
  have hlist := shunt_sound hloop
    (fun hm => by
      rcases mem_turned hin hm with h' | h'
      · exact h'.2 rfl
      · exact hin h'.1)
    (fun w hw hnop => by
      rcases mem_turned hin hw with h' | h'
      · exact absurd h'.1 hnop
      · exact hopd w h'.1 hnop)
  have hall := Loop.foldlM_keeps (P := fun st : List Value => ∀ v ∈ st, Sound v)
    (fun s t s' ht hs hstep => evalToken_sound hstep hs (hlist t ht)) (by simp) hstack
  exact hall _ List.mem_cons_self

end MobileTestkit.L3.RqgParser
