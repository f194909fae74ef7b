import Mathlib.Data.List.Pairwise

/-- Finitely many steps, with the labels that they leave. -/
inductive Runs {S L : Type} (step : S → L → S → Prop) : S → List L → S → Prop
  | nil (s : S) : Runs step s [] s
  | cons {s t u : S} {l : L} {ls : List L} : step s l t → Runs step t ls u → Runs step s (l :: ls) u

namespace Runs

variable {S L : Type} {step : S → L → S → Prop} {s t : S} {ls : List L} {I Q : S → Prop}

theorem invariant (hstep : ∀ s l t, I s → step s l t → I t) (h : Runs step s ls t) (hs : I s) :
    I t := by
  induction h with
  | nil s => exact hs
  | cons hfirst _ ih => exact ih (hstep _ _ _ hs hfirst)

theorem each {P : L → Prop} (hstep : ∀ s l t, I s → step s l t → I t ∧ P l) (h : Runs step s ls t)
    (hs : I s) : ∀ l ∈ ls, P l := by
  induction h with
  | nil s => simp
  | cons hfirst _ ih =>
    obtain ⟨ht, hl⟩ := hstep _ _ _ hs hfirst
    exact List.forall_mem_cons.mpr ⟨hl, ih ht⟩

/-- A step as `A` brings about what lasts, and with it come steps as `B` only. -/
theorem latched {A B : L → Prop} (hlast : ∀ s l t, Q s → step s l t → Q t ∧ B l)
    (hset : ∀ s l t, step s l t → A l → Q t) (h : Runs step s ls t) :
    ls.Pairwise fun l l' ↦ A l → B l' := by
  induction h with
  | nil s => exact .nil
  | cons hfirst hrest ih =>
    refine List.pairwise_cons.mpr ⟨fun l' hl' hA ↦ ?_, ih⟩
    exact each hlast hrest (hset _ _ _ hfirst hA) l' hl'

end Runs
