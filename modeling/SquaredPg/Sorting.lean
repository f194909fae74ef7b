import Mathlib.Data.List.Sort

namespace SquaredPg

open Std

variable {α β : Type}

theorem transCmp_on (cmp : β → β → Ordering) [TransCmp cmp] (g : α → β) :
    TransCmp fun a b ↦ cmp (g a) (g b) where
  eq_swap {a b} := OrientedCmp.eq_swap (a := g a) (b := g b)
  isLE_trans {a b c} := TransCmp.isLE_trans (a := g a) (b := g b) (c := g c)

variable (cmp : α → α → Ordering)

def sortBy (l : List α) : List α := l.insertionSort fun a b ↦ cmp a b ≠ .gt

theorem sortBy_perm (l : List α) : (sortBy cmp l).Perm l := List.perm_insertionSort _ _

variable [TransCmp cmp]

instance total_of_cmp : Std.Total fun a b ↦ cmp a b ≠ .gt where
  total a b := by
    cases hcmp : cmp a b with
    | lt => exact .inl (by decide)
    | eq => exact .inl (by decide)
    | gt =>
      right
      rw [OrientedCmp.gt_iff_lt.mp hcmp]
      decide

instance isTrans_of_cmp : IsTrans α fun a b ↦ cmp a b ≠ .gt where
  trans _ _ _ hab hbc := Ordering.isLE_iff_ne_gt.mp
    (TransCmp.isLE_trans (Ordering.isLE_iff_ne_gt.mpr hab) (Ordering.isLE_iff_ne_gt.mpr hbc))

theorem sortBy_sorted (l : List α) : (sortBy cmp l).Pairwise fun a b ↦ cmp a b ≠ .gt :=
  List.pairwise_insertionSort _ _

theorem sortBy_eq_of_perm {l l' : List α} (h : l.Perm l')
    (hinj : ∀ a ∈ l, ∀ b ∈ l, cmp a b = .eq → a = b) : sortBy cmp l = sortBy cmp l' := by
  have hperm : (sortBy cmp l).Perm (sortBy cmp l') :=
    (sortBy_perm cmp l).trans (h.trans (sortBy_perm cmp l').symm)
  refine hperm.eq_of_pairwise ?_ (sortBy_sorted cmp l) (sortBy_sorted cmp l')
  intro a b ha hb hab hba
  have ha' : a ∈ l := (sortBy_perm cmp l).mem_iff.mp ha
  have hb' : b ∈ l := h.mem_iff.mpr ((sortBy_perm cmp l').mem_iff.mp hb)
  refine hinj a ha' b hb' ?_
  cases hcmp : cmp a b with
  | lt => exact absurd (OrientedCmp.gt_iff_lt.mpr hcmp) hba
  | eq => rfl
  | gt => exact absurd hcmp hab

end SquaredPg
