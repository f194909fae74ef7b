import SquaredPg.Workspace

namespace SquaredPg

open Fallible

variable {steps : List PlanStep} {step write : PlanStep} {f g : Layout Bytes FileData} {x : Location}

/-- Nothing is put where a file is written but another file, and nothing below it. -/
def Apart (steps : List PlanStep) : Prop :=
  ∀ write ∈ steps, write.isDirectory = false → write.location ≠ [] ∧
    ∀ step ∈ steps, write.location <+: step.location →
      step.isDirectory = false ∧ write.location = step.location

instance : DecidablePred Apart := fun steps ↦ by unfold Apart; infer_instance

theorem Apart.before {steps' : List PlanStep} (h : Apart (steps ++ steps')) : Apart steps := by
  intro write hwrite hfile
  obtain ⟨hne, happart⟩ := h write (List.mem_append_left _ hwrite) hfile
  exact ⟨hne, fun step hstep ↦ happart step (List.mem_append_left _ hstep)⟩

theorem file_of_write (h : steps.foldlM stepLayout .bare = some f) (hwrite : write ∈ steps)
    (hfile : write.isDirectory = false) : ∃ data, f write.location = some (.file data) := by
  have hmem := mem_writesAt.mpr ⟨hwrite, hfile, rfl⟩
  have hlast := List.getLast?_eq_getLast_of_ne_nil (List.ne_nil_of_mem hmem)
  obtain ⟨data, hdata, -⟩ := content_fileOver none hlast
  exact ⟨data, (file_of_steps h).mpr hdata⟩

theorem apart_of_steps (h : steps.foldlM stepLayout .bare = some f) : Apart steps := by
  obtain ⟨hstay, hways⟩ := dir_of_steps h
  intro write hwrite hfile
  obtain ⟨data, hdata⟩ := file_of_write h hwrite hfile
  constructor
  · intro hnil
    rw [hnil, hstay [] rfl] at hdata
    cases hdata
  · intro step hstep hprefix
    by_contra hno
    have hdir : step.isDirectory = true ∨ write.location ≠ step.location := by
      rw [← Bool.not_eq_false, ← not_and_or]
      exact hno
    rw [hways step hstep _ hprefix hdir] at hdata
    cases hdata

theorem stepLayout_of_apart (h : steps.foldlM stepLayout .bare = some f)
    (happart : Apart (steps ++ [step])) : ∃ g, stepLayout f step = some g := by
  have hfiles : ∀ x data, f x = some (.file data) → x <+: step.location →
      step.isDirectory = false ∧ x = step.location := by
    intro x data hx hprefix
    have hwrites := (file_of_steps h).mp hx
    have hne : writesAt steps x ≠ [] := by
      intro hnil
      rw [hnil] at hwrites
      cases hwrites
    obtain ⟨write, hwrite⟩ := List.exists_mem_of_ne_nil _ hne
    obtain ⟨hmem, hfile, rfl⟩ := mem_writesAt.mp hwrite
    exact (happart write (List.mem_append_left _ hmem) hfile).2 step (by simp) hprefix
  unfold stepLayout
  split_ifs with hdir
  · refine ⟨_, Layout.makeDirs_eq_some.mpr ⟨fun x hx data hdata ↦ ?_, rfl⟩⟩
    rw [hdir] at hfiles
    exact Bool.noConfusion (hfiles x data hdata hx).1
  · rw [Bool.not_eq_true] at hdir
    obtain ⟨hnil, hlast⟩ := happart step (by simp) hdir
    refine ⟨_, Layout.write_eq_some.mpr ⟨fun hthere ↦ ?_, fun x hx data hdata ↦ ?_, rfl⟩⟩
    · rcases (dir_of_steps_iff h).mp hthere with hroot | ⟨other, hother, hprefix, hno⟩
      · exact hnil hroot
      · obtain ⟨hfile, heq⟩ := hlast other (List.mem_append_left _ hother) hprefix
        rcases hno with hother | hne
        · rw [hfile] at hother
          cases hother
        · exact hne heq
    · have hlong := hx.length_le
      obtain ⟨-, rfl⟩ := hfiles x data hdata (hx.trans (List.dropLast_prefix _))
      have hpos := List.length_pos_of_ne_nil hnil
      rw [List.length_dropLast] at hlong
      omega

/-- Steps build a workspace from nothing exactly when they are apart. -/
theorem exists_layout_iff : (∃ f, steps.foldlM stepLayout .bare = some f) ↔ Apart steps := by
  constructor
  · rintro ⟨f, hf⟩
    exact apart_of_steps hf
  · intro happart
    induction steps using List.reverseRecOn with
    | nil => exact ⟨_, rfl⟩
    | append_singleton steps step ih =>
      obtain ⟨f, hf⟩ := ih happart.before
      obtain ⟨g, hg⟩ := stepLayout_of_apart hf happart
      refine ⟨g, ?_⟩
      rw [List.foldlM_append, hf]
      exact (Option.bind_some f _).trans (by simp [hg])

end SquaredPg
