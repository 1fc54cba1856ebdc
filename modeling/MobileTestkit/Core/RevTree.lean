import Mathlib.Data.Finset.Max
import Mathlib.Data.Fintype.EquivFin
import Mathlib.Data.Int.Order.Basic
import Mathlib.Data.Prod.Lex
import Mathlib.Logic.Function.Basic

/-!
# Revision trees

The revisions of one document: each has a generation and a digest, and but for the oldest
ones a parent, which is one generation older. A revision without children is a leaf, and a
leaf that is no tombstone is live.

* `leaves_graft`: a history that ends in a new revision makes it a leaf in the place of the
  newest revision of the history that the tree has, if that is a leaf.
* `live_bury`: a tombstone on a live leaf takes just this leaf away.
* `exists_winner`: a document with a live leaf has a winner.
-/
namespace MobileTestkit.Core

structure Rev (D : Type) where
  gen : Int
  digest : D
  deriving DecidableEq

structure RevTree (D : Type) where
  revs : Finset (Rev D)
  parent : Rev D → Option (Rev D)
  tombstones : Finset (Rev D)
  parent_mem : ∀ r ∈ revs, ∀ p, parent r = some p → p ∈ revs ∧ r.gen = p.gen + 1

namespace RevTree

variable {D : Type} [DecidableEq D]

def empty : RevTree D where
  revs := ∅
  parent _ := none
  tombstones := ∅
  parent_mem _ h := absurd h (Finset.notMem_empty _)

/-- A revision with a parent in the tree, or without one. -/
def insert (t : RevTree D) (r : Rev D) (p : Option (Rev D))
    (hp : ∀ q, p = some q → q ∈ t.revs ∧ r.gen = q.gen + 1) : RevTree D where
  revs := Insert.insert r t.revs
  parent := Function.update t.parent r p
  tombstones := t.tombstones
  parent_mem := by
    intro s hs q hq
    by_cases hsr : s = r
    · subst hsr
      rw [Function.update_self] at hq
      exact ⟨Finset.mem_insert_of_mem (hp q hq).1, (hp q hq).2⟩
    · rw [Function.update_of_ne hsr] at hq
      have hold := t.parent_mem s ((Finset.mem_insert.mp hs).resolve_left hsr) q hq
      exact ⟨Finset.mem_insert_of_mem hold.1, hold.2⟩

/-- The revisions of a history, the newest first: each is one generation older. -/
def chain (gen : Int) : List D → List (Rev D)
  | [] => []
  | d :: ds => ⟨gen, d⟩ :: chain (gen - 1) ds

/-- A tree that has the first revision of a history. -/
abbrev Grafted (gen : Int) (ds : List D) : Type :=
  { t : RevTree D // ∀ d, ds.head? = some d → (⟨gen, d⟩ : Rev D) ∈ t.revs }

/-- Takes over the revisions of a history, down to the first that is already there. -/
def graftAux (t : RevTree D) (gen : Int) : (ds : List D) → Grafted gen ds
  | [] => ⟨t, fun d h => by cases h⟩
  | d :: ds =>
    if h : (⟨gen, d⟩ : Rev D) ∈ t.revs then ⟨t, fun d' hd => by
      obtain rfl := Option.some.inj hd
      exact h⟩
    else
      let older := graftAux t (gen - 1) ds
      ⟨older.1.insert ⟨gen, d⟩ (ds.head?.map (⟨gen - 1, ·⟩)) (by
          intro q hq
          obtain ⟨d', hd', rfl⟩ := Option.map_eq_some_iff.mp hq
          exact ⟨older.2 d' hd', by simp⟩),
        fun d' hd => by
          obtain rfl := Option.some.inj hd
          exact Finset.mem_insert_self _ _⟩

def graft (t : RevTree D) (gen : Int) (ds : List D) : RevTree D := (t.graftAux gen ds).1

/-- The newest revision of the history that the tree has. -/
def anchor (t : RevTree D) (gen : Int) (ds : List D) : Option (Rev D) :=
  (chain gen ds).find? (· ∈ t.revs)

/-- No revision of the tree has it as its parent. -/
def IsLeaf (t : RevTree D) (r : Rev D) : Prop := r ∈ t.revs ∧ ∀ s ∈ t.revs, t.parent s ≠ some r

instance (t : RevTree D) (r : Rev D) : Decidable (t.IsLeaf r) := inferInstanceAs (Decidable (_ ∧ _))

def leaves (t : RevTree D) : Finset (Rev D) := t.revs.filter t.IsLeaf

def live (t : RevTree D) : Finset (Rev D) := t.leaves \ t.tombstones

theorem mem_leaves {t : RevTree D} {r : Rev D} : r ∈ t.leaves ↔ t.IsLeaf r := by
  unfold leaves
  rw [Finset.mem_filter]
  exact ⟨fun h => h.2, fun h => ⟨h.1, h⟩⟩

theorem mem_live {t : RevTree D} {r : Rev D} : r ∈ t.live ↔ t.IsLeaf r ∧ r ∉ t.tombstones := by
  rw [live, Finset.mem_sdiff, mem_leaves]

/-! ## Grafting -/

theorem graft_of_mem {t : RevTree D} {gen : Int} {d : D} (ds : List D) (h : (⟨gen, d⟩ : Rev D) ∈ t.revs) :
    t.graft gen (d :: ds) = t := by
  unfold graft graftAux
  rw [dif_pos h]

/-- What the tree becomes by a revision that is not there. -/
structure Grown (t older : RevTree D) (r : Rev D) (p : Option (Rev D)) (t' : RevTree D) : Prop where
  revs : t'.revs = Insert.insert r older.revs
  parent : t'.parent = Function.update older.parent r p
  tombstones : t'.tombstones = older.tombstones
  isNew : r ∉ t.revs

theorem graft_of_not_mem {t : RevTree D} {gen : Int} {d : D} (ds : List D)
    (h : (⟨gen, d⟩ : Rev D) ∉ t.revs) :
    Grown t (t.graft (gen - 1) ds) ⟨gen, d⟩ (ds.head?.map (⟨gen - 1, ·⟩)) (t.graft gen (d :: ds)) := by
  have hgraft : t.graft gen (d :: ds)
      = (t.graft (gen - 1) ds).insert ⟨gen, d⟩ (ds.head?.map (⟨gen - 1, ·⟩)) (by
          intro q hq
          obtain ⟨d', hd', rfl⟩ := Option.map_eq_some_iff.mp hq
          exact ⟨(t.graftAux (gen - 1) ds).2 d' hd', by simp⟩) := by
    unfold graft
    rw [graftAux, dif_neg h]
  rw [hgraft]
  exact ⟨rfl, rfl, rfl, h⟩

omit [DecidableEq D] in
theorem mem_chain_gen {gen : Int} {ds : List D} {r : Rev D} (h : r ∈ chain gen ds) : r.gen ≤ gen := by
  induction ds generalizing gen with
  | nil => exact absurd h List.not_mem_nil
  | cons d ds ih =>
    rcases List.mem_cons.mp h with rfl | h
    · exact le_refl _
    · have := ih h
      omega

theorem mem_graft {t : RevTree D} {gen : Int} {ds : List D} {r : Rev D} (h : r ∈ (t.graft gen ds).revs) :
    r ∈ t.revs ∨ r ∈ chain gen ds := by
  induction ds generalizing gen with
  | nil => exact .inl h
  | cons d ds ih =>
    by_cases hmem : (⟨gen, d⟩ : Rev D) ∈ t.revs
    · rw [graft_of_mem ds hmem] at h
      exact .inl h
    · rw [(graft_of_not_mem ds hmem).revs] at h
      rcases Finset.mem_insert.mp h with rfl | h
      · exact .inr List.mem_cons_self
      · exact (ih h).imp_right (List.mem_cons_of_mem _)

/-- Nothing is lost, and no revision is moved or buried. -/
theorem graft_keeps (t : RevTree D) (gen : Int) (ds : List D) :
    t.revs ⊆ (t.graft gen ds).revs ∧ (∀ r ∈ t.revs, (t.graft gen ds).parent r = t.parent r) ∧
      (t.graft gen ds).tombstones = t.tombstones := by
  induction ds generalizing gen with
  | nil => exact ⟨Finset.Subset.refl _, fun _ _ => rfl, rfl⟩
  | cons d ds ih =>
    by_cases hmem : (⟨gen, d⟩ : Rev D) ∈ t.revs
    · rw [graft_of_mem ds hmem]
      exact ⟨Finset.Subset.refl _, fun _ _ => rfl, rfl⟩
    · obtain ⟨hsub, hparent, htombs⟩ := ih (gen - 1)
      have hgrown := graft_of_not_mem ds hmem
      refine ⟨?_, fun r hr => ?_, hgrown.tombstones.trans htombs⟩
      · rw [hgrown.revs]
        exact hsub.trans (Finset.subset_insert _ _)
      · rw [hgrown.parent, Function.update_of_ne (ne_of_mem_of_not_mem hr hmem), hparent r hr]

/-- The leaves after a new revision with a parent in the tree. -/
theorem leaves_grown {t older t' : RevTree D} {r : Rev D} {p : Option (Rev D)} (h : Grown t older r p t')
    (hr : r ∉ older.revs) :
    t'.leaves = Insert.insert r (older.leaves.filter fun q => p ≠ some q) := by
  ext q
  rw [mem_leaves, Finset.mem_insert, Finset.mem_filter, mem_leaves]
  unfold IsLeaf
  rw [h.revs, h.parent]
  constructor
  · intro ⟨hq, hchild⟩
    by_cases hqr : q = r
    · exact .inl hqr
    · refine .inr ⟨⟨(Finset.mem_insert.mp hq).resolve_left hqr, fun s hs hps => ?_⟩, fun hp => ?_⟩
      · have hsr : s ≠ r := fun he => hr (he ▸ hs)
        exact hchild s (Finset.mem_insert_of_mem hs) (by rw [Function.update_of_ne hsr, hps])
      · exact hchild r (Finset.mem_insert_self _ _) (by rw [Function.update_self, hp])
  · intro hcases
    rcases hcases with rfl | ⟨⟨hq, hchild⟩, hp⟩
    · refine ⟨Finset.mem_insert_self _ _, fun s hs hps => ?_⟩
      by_cases hsq : s = q
      · rw [hsq, Function.update_self] at hps
        obtain ⟨-, hgen⟩ := t'.parent_mem q (by rw [h.revs]; exact Finset.mem_insert_self _ _) q
          (by rw [h.parent, Function.update_self, hps])
        omega
      · rw [Function.update_of_ne hsq] at hps
        exact hr (older.parent_mem s ((Finset.mem_insert.mp hs).resolve_left hsq) q hps).1
    · refine ⟨Finset.mem_insert_of_mem hq, fun s hs hps => ?_⟩
      by_cases hsr : s = r
      · rw [hsr, Function.update_self] at hps
        exact hp hps
      · rw [Function.update_of_ne hsr] at hps
        exact hchild s ((Finset.mem_insert.mp hs).resolve_left hsr) hps

theorem not_mem_graft_older {t : RevTree D} {gen : Int} {d : D} {ds : List D}
    (h : (⟨gen, d⟩ : Rev D) ∉ t.revs) : (⟨gen, d⟩ : Rev D) ∉ (t.graft (gen - 1) ds).revs := by
  intro hmem
  rcases mem_graft hmem with hmem | hmem
  · exact h hmem
  · have := mem_chain_gen hmem
    simp only at this
    omega

/-- A new revision is a leaf in the place of the newest known one of its history. -/
theorem leaves_graft {t : RevTree D} {gen : Int} {d : D} {ds : List D} (h : (⟨gen, d⟩ : Rev D) ∉ t.revs) :
    (t.graft gen (d :: ds)).leaves
      = Insert.insert ⟨gen, d⟩ (t.leaves.filter fun q => t.anchor (gen - 1) ds ≠ some q) := by
  induction ds generalizing gen d with
  | nil => exact leaves_grown (graft_of_not_mem [] h) h
  | cons d' ds ih =>
    rw [leaves_grown (graft_of_not_mem (d' :: ds) h) (not_mem_graft_older h)]
    by_cases hmem : (⟨gen - 1, d'⟩ : Rev D) ∈ t.revs
    · have hanchor : t.anchor (gen - 1) (d' :: ds) = some ⟨gen - 1, d'⟩ := by
        unfold anchor
        rw [chain, List.find?_cons_of_pos (by simpa using hmem)]
      rw [graft_of_mem ds hmem, hanchor]
      rfl
    · have hanchor : t.anchor (gen - 1) (d' :: ds) = t.anchor (gen - 1 - 1) ds := by
        unfold anchor
        rw [chain, List.find?_cons_of_neg (by simpa using hmem)]
      have hleaf : (⟨gen - 1, d'⟩ : Rev D) ∉ t.leaves := fun hl => hmem (mem_leaves.mp hl).1
      rw [ih hmem, hanchor]
      ext q
      rw [Finset.mem_insert, Finset.mem_insert, Finset.mem_filter, Finset.mem_filter, Finset.mem_insert,
        Finset.mem_filter]
      refine or_congr_right ⟨fun h => ?_, fun h => ⟨.inr h, fun he => ?_⟩⟩
      · exact h.1.resolve_left fun he => h.2 (congrArg some he.symm)
      · rw [← Option.some.inj he] at h
        exact hleaf h.1

/-! ## Burying -/

/-- A tombstone on a leaf of the tree; it is a leaf itself. -/
structure Buried (t : RevTree D) (r : Rev D) (t' : RevTree D) : Prop where
  isLeaf : r ∈ t.live
  grave : ∃ x, x ∉ t.revs ∧ x ∉ t.tombstones ∧ x.gen = r.gen + 1 ∧ t'.revs = Insert.insert x t.revs ∧
    t'.parent = Function.update t.parent x (some r) ∧ t'.tombstones = Insert.insert x t.tombstones

theorem live_bury {t t' : RevTree D} {r : Rev D} (h : Buried t r t') : t'.live = t.live.erase r := by
  obtain ⟨x, hx, -, hgen, hrevs, hparent, htombs⟩ := h.grave
  have hr := mem_live.mp h.isLeaf
  ext q
  rw [Finset.mem_erase, mem_live, mem_live]
  unfold IsLeaf
  rw [hrevs, hparent, htombs]
  constructor
  · intro ⟨⟨hq, hchild⟩, htomb⟩
    rw [Finset.mem_insert, not_or] at htomb
    refine ⟨fun hqr => hchild x (Finset.mem_insert_self _ _) (by rw [Function.update_self, hqr]),
      ⟨(Finset.mem_insert.mp hq).resolve_left htomb.1, fun s hs hps => ?_⟩, htomb.2⟩
    have hsx : s ≠ x := fun he => hx (he ▸ hs)
    exact hchild s (Finset.mem_insert_of_mem hs) (by rw [Function.update_of_ne hsx, hps])
  · intro ⟨hqr, ⟨hq, hchild⟩, htomb⟩
    have hqx : q ≠ x := fun he => hx (he ▸ hq)
    refine ⟨⟨Finset.mem_insert_of_mem hq, fun s hs hps => ?_⟩, ?_⟩
    · by_cases hsx : s = x
      · rw [hsx, Function.update_self] at hps
        exact hqr (Option.some.inj hps).symm
      · rw [Function.update_of_ne hsx] at hps
        exact hchild s ((Finset.mem_insert.mp hs).resolve_left hsx) hps
    · rw [Finset.mem_insert, not_or]
      exact ⟨hqx, htomb⟩

/-- There is room for a tombstone on every live leaf. -/
theorem exists_bury [Infinite D] {t : RevTree D} {r : Rev D} (h : r ∈ t.live) : ∃ t', Buried t r t' := by
  obtain ⟨d, hd⟩ := Infinite.exists_notMem_finset ((t.revs ∪ t.tombstones).image Rev.digest)
  have hfresh : ∀ q ∈ t.revs ∪ t.tombstones, q ≠ ⟨r.gen + 1, d⟩ := fun q hq he =>
    hd (Finset.mem_image.mpr ⟨q, hq, by rw [he]⟩)
  have hrevs : (⟨r.gen + 1, d⟩ : Rev D) ∉ t.revs := fun hm => hfresh _ (Finset.mem_union_left _ hm) rfl
  have htombs : (⟨r.gen + 1, d⟩ : Rev D) ∉ t.tombstones := fun hm => hfresh _ (Finset.mem_union_right _ hm) rfl
  have hparent : ∀ q, some r = some q → q ∈ t.revs ∧ r.gen + 1 = q.gen + 1 := fun q hq =>
    Option.some.inj hq ▸ ⟨(mem_live.mp h).1.1, rfl⟩
  exact ⟨{ t.insert ⟨r.gen + 1, d⟩ (some r) hparent with tombstones := Insert.insert ⟨r.gen + 1, d⟩ t.tombstones },
    h, ⟨r.gen + 1, d⟩, hrevs, htombs, rfl, rfl, rfl, rfl⟩

/-! ## The winner -/

section Winner

/-- Revisions are ranked by their generation, and by the digest within one. -/
def rank (r : Rev D) : Int ×ₗ D := toLex (r.gen, r.digest)

variable [LinearOrder D]

/-- The live leaf that a reader of the document gets. -/
def IsWinner (t : RevTree D) (w : Rev D) : Prop := w ∈ t.live ∧ ∀ r ∈ t.live, rank r ≤ rank w

theorem exists_winner {t : RevTree D} (h : t.live.Nonempty) : ∃ w, t.IsWinner w :=
  Finset.exists_max_image t.live rank h

end Winner

end RevTree
end MobileTestkit.Core
