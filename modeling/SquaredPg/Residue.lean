import SquaredPg.CommittedTree

namespace SquaredPg

open Ascii Program

/-- What lies under the steps comes out the same: the executable bits that no write sets, and all
that no step is about. -/
structure SameResidue (f g : Layout Bytes FileData) (steps : List PlanStep) : Prop where
  bits : ∀ step ∈ steps, step.isDirectory = false →
    (writesAt steps step.location).any PlanStep.executable = true ∨
      (f.fileAt step.location).any FileData.executable =
        (g.fileAt step.location).any FileData.executable
  rest : ∀ x, (∀ step ∈ steps, ¬ x <+: step.location) → f x = g x

variable {f g f' g' : Layout Bytes FileData} {steps writes : List PlanStep} {x : Location}

theorem layoutOver_untouched (h : ∀ step ∈ steps, ¬ x <+: step.location) :
    layoutOver f steps x = f x := by
  have hwrites : writesAt steps x = [] := by
    refine List.eq_nil_iff_forall_not_mem.mpr fun step hstep ↦ ?_
    obtain ⟨hmem, -, rfl⟩ := mem_writesAt.mp hstep
    exact h step hmem List.prefix_rfl
  have hway : ¬ ∃ step ∈ steps, x <+: step.location := fun ⟨step, hstep, hx⟩ ↦ h step hstep hx
  simp only [layoutOver, hwrites, hway, or_false, Layout.fileAt]
  rcases f x with _ | _ | data <;> simp [fileOver, Entry.data]

theorem fileOver_eq_iff {old old' : Option FileData} (hne : writes ≠ []) :
    fileOver old writes = fileOver old' writes ↔ writes.any PlanStep.executable = true ∨
      old.any FileData.executable = old'.any FileData.executable := by
  obtain ⟨before, last, rfl⟩ := (List.eq_nil_or_concat' writes).resolve_left hne
  simp only [fileOver_concat, PlanStep.fileData, executable_fileOver, Option.some.injEq,
    FileData.mk.injEq, true_and, List.any_append, List.any_cons, List.any_nil, Bool.or_false]
  cases last.executable <;> cases before.any PlanStep.executable <;> simp

theorem tree_eq_iff (hf : f [] = some .dir) (hg : g [] = some .dir)
    (hbuilt : steps.foldlM stepLayout f = some f') (hbuilt' : steps.foldlM stepLayout g = some g') :
    f' = g' ↔ SameResidue f g steps := by
  have hover := layout_of_steps hf hbuilt
  have hover' := layout_of_steps hg hbuilt'
  constructor
  · intro hsame
    have hlayouts : layoutOver f steps = layoutOver g steps := by rw [← hover, ← hover', hsame]
    refine ⟨fun step hstep hfile ↦ ?_, fun x hx ↦ ?_⟩
    · have hfiles := congrArg (Layout.fileAt · step.location) hlayouts
      simp only [fileAt_layoutOver] at hfiles
      exact (fileOver_eq_iff (List.ne_nil_of_mem
        (mem_writesAt.mpr ⟨hstep, hfile, rfl⟩))).mp hfiles
    · rw [← layoutOver_untouched (f := f) hx, hlayouts, layoutOver_untouched hx]
  · intro h
    funext x
    by_cases hway : ∀ step ∈ steps, ¬ x <+: step.location
    · rw [hover, hover', layoutOver_untouched hway, layoutOver_untouched hway, h.rest x hway]
    obtain ⟨step, hstep, hx⟩ : ∃ step ∈ steps, x <+: step.location := by simpa using hway
    by_cases hwrites : writesAt steps x = []
    · -- a directory on the way to a step
      have hdir : step.isDirectory = true ∨ x ≠ step.location := by
        by_contra hno
        rw [not_or, Bool.not_eq_true, not_not] at hno
        have hmem := mem_writesAt.mpr ⟨hstep, hno.1, hno.2.symm⟩
        simp [hwrites] at hmem
      rw [(dir_of_steps hbuilt).2 step hstep x hx hdir, (dir_of_steps hbuilt').2 step hstep x hx hdir]
    · obtain ⟨write, hwrite⟩ := List.exists_mem_of_ne_nil _ hwrites
      obtain ⟨hmem, hfile, rfl⟩ := mem_writesAt.mp hwrite
      have hsame := (fileOver_eq_iff hwrites).mpr (h.bits write hmem hfile)
      obtain ⟨before, last, hlast⟩ := (List.eq_nil_or_concat' _).resolve_left hwrites
      have hdata : fileOver (f.fileAt write.location) (writesAt steps write.location) =
          some (last.fileData (fileOver (f.fileAt write.location) before)) := by
        rw [hlast, fileOver_concat]
      rw [hover, hover', layoutOver_file.mpr hdata, layoutOver_file.mpr (hsame ▸ hdata)]

namespace TransactionService

open FilesystemService FileSystem

variable {cwd : Location} {target : HostPath} {fs : FileSystem}

theorem residue_of_clear (hwf : WellFormed target)
    (h : Clear cwd target.parts.dropLast (stagingName target) fs) :
    residue cwd target fs = Layout.bare := by
  have hloc : locate [] (target.parts.dropLast ++ [stagingName target]) =
      stagingLocation target.parts.dropLast (stagingName target) :=
    locate_staging (plain_stagingName target)
  funext y
  by_cases hy : y = []
  · rw [hy, residue_nil]
    rfl
  have hoff : stagingLocation target.parts.dropLast (stagingName target) ++ y ∉
      (target.parts.dropLast ++ [stagingName target]).inits.map (locate []) := by
    intro hmem
    obtain ⟨ds, hds, heq⟩ := List.mem_map.mp hmem
    have hsame : stagingLocation target.parts.dropLast (stagingName target) ++ y =
        stagingLocation target.parts.dropLast (stagingName target) := by
      rcases List.prefix_concat_iff.mp ((List.mem_inits _ _).mp hds) with rfl | hds
      · rw [← heq, hloc]
      · rw [← heq]
        exact h.way ds hds (heq ▸ List.prefix_append _ y)
    exact hy (by simpa using hsame)
  unfold residue Layout.bare
  dsimp only
  rw [if_neg hy, if_neg hoff, stagingPathFor_eq hwf]
  split_ifs with hseen
  · rfl
  · have hnone := h.seen.resolve_right hseen
    exact FileTree.none_below (by simp [hnone]) (List.prefix_append _ y) (by simpa using hy)

end TransactionService

end SquaredPg
