import SquaredPg.Fallible
import SquaredPg.Filesystem
import SquaredPg.Plan

namespace SquaredPg

open Fallible

def PlanStep.location (step : PlanStep) : Location := splitPath step.path

def PlanStep.fileData (step : PlanStep) (old : Option FileData) : FileData :=
  ⟨step.content, step.executable || old.any FileData.executable⟩

def stepLayout (f : Layout Bytes FileData) (step : PlanStep) : Option (Layout Bytes FileData) :=
  if step.isDirectory then f.makeDirs step.location else f.write step.location step.fileData

def writesAt (steps : List PlanStep) (x : Location) : List PlanStep :=
  steps.filter fun step ↦ step.isDirectory = false ∧ step.location = x

def fileOver (old : Option FileData) (writes : List PlanStep) : Option FileData :=
  writes.foldl (fun old step ↦ some (step.fileData old)) old

def layoutOver (f : Layout Bytes FileData) (steps : List PlanStep) : Layout Bytes FileData :=
  fun x ↦
    match fileOver (f.fileAt x) (writesAt steps x) with
    | some data => some (.file data)
    | none => if f x = some .dir ∨ ∃ step ∈ steps, x <+: step.location then some .dir else none

variable {f g : Layout Bytes FileData} {steps writes : List PlanStep} {step : PlanStep} {x : Location}

theorem writesAt_append (steps steps' : List PlanStep) :
    writesAt (steps ++ steps') x = writesAt steps x ++ writesAt steps' x := List.filter_append ..

theorem writesAt_singleton : writesAt [step] x =
    if step.isDirectory = false ∧ step.location = x then [step] else [] := by
  unfold writesAt
  split_ifs with h <;> simp [h]

theorem fileOver_concat (old : Option FileData) :
    fileOver old (writes ++ [step]) = some (step.fileData (fileOver old writes)) := by
  simp [fileOver]

theorem content_fileOver (old : Option FileData) (h : writes.getLast? = some step) :
    ∃ data, fileOver old writes = some data ∧ data.content = step.content := by
  obtain ⟨before, rfl⟩ := List.getLast?_eq_some_iff.mp h
  exact ⟨_, fileOver_concat old, rfl⟩

theorem executable_fileOver (old : Option FileData) (writes : List PlanStep) :
    (fileOver old writes).any FileData.executable =
      (writes.any PlanStep.executable || old.any FileData.executable) := by
  induction writes generalizing old with
  | nil => rfl
  | cons step writes ih =>
    have hhead : fileOver old (step :: writes) = fileOver (some (step.fileData old)) writes := rfl
    rw [hhead, ih, List.any_cons]
    simp only [PlanStep.fileData, Option.any_some]
    cases step.executable <;> cases writes.any PlanStep.executable <;> rfl

theorem fileAt_layoutOver :
    (layoutOver f steps).fileAt x = fileOver (f.fileAt x) (writesAt steps x) := by
  rw [Layout.fileAt, layoutOver]
  cases fileOver (f.fileAt x) (writesAt steps x) with
  | some data => rfl
  | none =>
    dsimp only
    split_ifs <;> rfl

theorem layoutOver_file {data : FileData} : layoutOver f steps x = some (.file data) ↔
    fileOver (f.fileAt x) (writesAt steps x) = some data := by
  rw [← Layout.fileAt_eq_some, fileAt_layoutOver]

theorem stepLayout_layoutOver (hroot : f [] = some .dir)
    (h : stepLayout (layoutOver f steps) step = some g) : g = layoutOver f (steps ++ [step]) := by
  have hway : ∀ x, (f x = some .dir ∨ ∃ s ∈ steps ++ [step], x <+: s.location) ↔
      (f x = some .dir ∨ ∃ s ∈ steps, x <+: s.location) ∨ x <+: step.location := by
    intro x
    simp only [List.mem_append, List.mem_singleton, or_and_right, exists_or, exists_eq_left, or_assoc]
  unfold stepLayout at h
  split_ifs at h with hdir
  · obtain ⟨hfree, rfl⟩ := Layout.makeDirs_eq_some.mp h
    funext x
    have hwrites : writesAt (steps ++ [step]) x = writesAt steps x := by
      simp [writesAt_append, writesAt_singleton, hdir]
    simp only [layoutOver, hwrites, hway]
    cases hx : fileOver (f.fileAt x) (writesAt steps x) with
    | some data => exact if_neg fun hp ↦ hfree x hp data (layoutOver_file.mpr hx)
    | none => by_cases hp : x <+: step.location <;> simp [hp]
  · obtain ⟨hnodir, hfree, rfl⟩ := Layout.write_eq_some.mp h
    have hne : step.location ≠ [] := by
      intro hnil
      rw [hnil] at hnodir hfree
      cases hx : fileOver (f.fileAt []) (writesAt steps []) with
      | some data => exact hfree [] (by simp) data (layoutOver_file.mpr hx)
      | none => exact hnodir (by simp [layoutOver, hx, hroot])
    funext x
    by_cases hx : x = step.location
    · subst hx
      have hwrites : writesAt (steps ++ [step]) step.location =
          writesAt steps step.location ++ [step] := by
        simp [writesAt_append, writesAt_singleton, hdir]
      rw [if_pos rfl, fileAt_layoutOver, layoutOver, hwrites, fileOver_concat]
    · have hwrites : writesAt (steps ++ [step]) x = writesAt steps x := by
        simp [writesAt_append, writesAt_singleton, Ne.symm hx]
      have hshort : x <+: step.location.dropLast ↔ x <+: step.location := by
        by_cases hnil : x = []
        · simp [hnil]
        · rw [prefix_dropLast hnil]
          exact and_iff_left hx
      simp only [if_neg hx, hshort, layoutOver, hwrites, hway]
      cases hfx : fileOver (f.fileAt x) (writesAt steps x) with
      | some data => exact if_neg fun hp ↦ hfree x (hshort.mpr hp) data (layoutOver_file.mpr hfx)
      | none => by_cases hp : x <+: step.location <;> simp [hp]

theorem stepLayout_dir (h : stepLayout f step = some g) (hx : f x = some .dir) :
    g x = some .dir := by
  unfold stepLayout at h
  split_ifs at h
  · obtain ⟨-, rfl⟩ := Layout.makeDirs_eq_some.mp h
    simp [hx]
  · obtain ⟨hnodir, -, rfl⟩ := Layout.write_eq_some.mp h
    have hne : x ≠ step.location := fun heq ↦ hnodir (heq ▸ hx)
    simp [hne, hx]

theorem stepLayout_way (h : stepLayout f step = some g) (hx : x <+: step.location)
    (hdir : step.isDirectory = true ∨ x ≠ step.location) :
    g x = some .dir := by
  unfold stepLayout at h
  split_ifs at h with hd
  · obtain ⟨-, rfl⟩ := Layout.makeDirs_eq_some.mp h
    simp [hx]
  · obtain ⟨-, -, rfl⟩ := Layout.write_eq_some.mp h
    have hproper := hdir.resolve_left hd
    have hdrop : x <+: step.location.dropLast := by
      by_cases hnil : x = []
      · simp [hnil]
      · exact (prefix_dropLast hnil).mpr ⟨hx, hproper⟩
    simp [hproper, hdrop]

theorem dir_of_steps (h : steps.foldlM stepLayout f = some g) :
    (∀ x, f x = some .dir → g x = some .dir) ∧ ∀ step ∈ steps, ∀ x, x <+: step.location →
      step.isDirectory = true ∨ x ≠ step.location → g x = some .dir := by
  refine foldlM_some_induction (fun done g ↦ (∀ x, f x = some .dir → g x = some .dir) ∧
    ∀ step ∈ done, ∀ x, x <+: step.location → step.isDirectory = true ∨ x ≠ step.location →
      g x = some .dir) ?_ (by simp) h
  rintro done step g g' ⟨hstay, hways⟩ hstep
  refine ⟨fun x hx ↦ stepLayout_dir hstep (hstay x hx), fun s hs x hx hdir ↦ ?_⟩
  rcases List.mem_append.mp hs with hs | hs
  · exact stepLayout_dir hstep (hways s hs x hx hdir)
  · obtain rfl := List.mem_singleton.mp hs
    exact stepLayout_way hstep hx hdir

/-- What steps build is there by locations. -/
theorem layout_of_steps (hroot : f [] = some .dir) (h : steps.foldlM stepLayout f = some g) :
    g = layoutOver f steps := by
  refine foldlM_some_induction (fun done g ↦ g = layoutOver f done) ?_ ?_ h
  · rintro done step g g' rfl hstep
    exact stepLayout_layoutOver hroot hstep
  · funext x
    unfold layoutOver Layout.fileAt
    rcases f x with _ | _ | data <;> simp [fileOver, writesAt, Entry.data]

theorem fileAt_bare (x : Location) : (Layout.bare : Layout Bytes FileData).fileAt x = none := by
  unfold Layout.fileAt Layout.bare
  split_ifs <;> rfl

theorem mem_writesAt : step ∈ writesAt steps x ↔
    step ∈ steps ∧ step.isDirectory = false ∧ step.location = x := by
  simp [writesAt, List.mem_filter]

theorem file_of_steps {data : FileData} (h : steps.foldlM stepLayout .bare = some f) :
    f x = some (.file data) ↔ fileOver none (writesAt steps x) = some data := by
  rw [layout_of_steps rfl h, layoutOver_file, fileAt_bare]

theorem dir_of_steps_iff (h : steps.foldlM stepLayout .bare = some f) :
    f x = some .dir ↔ x = [] ∨ ∃ step ∈ steps, x <+: step.location ∧
      (step.isDirectory = true ∨ x ≠ step.location) := by
  obtain ⟨hstay, hways⟩ := dir_of_steps h
  constructor
  · intro hdir
    have hover := hdir
    rw [layout_of_steps rfl h, layoutOver] at hover
    split at hover
    · cases hover
    split_ifs at hover with hway
    rcases hway with hroot | ⟨step, hstep, hx⟩
    · unfold Layout.bare at hroot
      split_ifs at hroot with hnil
      exact .inl hnil
    · refine .inr ⟨step, hstep, hx, ?_⟩
      by_contra hno
      rw [not_or, Bool.not_eq_true, not_not] at hno
      have hmem := mem_writesAt.mpr ⟨hstep, hno.1, hno.2.symm⟩
      obtain ⟨before, last, heq⟩ := (List.eq_nil_or_concat' _).resolve_left (List.ne_nil_of_mem hmem)
      have hfile := (file_of_steps h).mpr (heq ▸ fileOver_concat none)
      rw [hdir] at hfile
      cases hfile
  · rintro (rfl | ⟨step, hstep, hx, hproper⟩)
    · exact hstay [] rfl
    · exact hways step hstep x hx hproper

end SquaredPg
