import SquaredPg.Fallible
import SquaredPg.Plan

namespace SquaredPg

open Ascii Fallible

def payloadText (parameters : Value) (resource : ResolvedResource) (entry : Bytes) : Option Bytes :=
  (payloadName resource entry).bind fun relative ↦ (substitute relative parameters entry).toOption

def payloadTexts (set : ResolvedSet) (parameters : Value) : List Bytes :=
  set.contributions.flatMap fun contribution ↦
    contribution.resource.cartridge.entries.filterMap (payloadText parameters contribution.resource)

/-- The workspace paths that the payload of a set claims. -/
def claimedPaths (set : ResolvedSet) (config : Value) (engineVersion : Version) : List Bytes :=
  (payloadTexts set (set.parameters config engineVersion)).map normalizeRelative

/-- What a draft says about paths, when `paths` have been contributed so far. -/
structure Draft.Covers (workingDirectory : Bytes) (paths : List Bytes) (draft : Draft) : Prop where
  writes : (draft.steps.filter fun step ↦ step.action = .writeFile).map PlanStep.path = paths
  directories : (draft.steps.filter fun step ↦ step.action = .createDirectory).map PlanStep.path =
    draft.directories.reverse
  actions : ∀ step ∈ draft.steps, step.action = .writeFile ∨ step.action = .createDirectory
  nonempty : ∀ path ∈ paths, path ≠ []
  ancestors : ∀ directory, directory ∈ draft.directories ↔
    ∃ path ∈ paths, directory ∈ ancestorDirectories path
  ownership : ∀ step ∈ draft.steps, step.action = .writeFile → step.ownership = .generated →
    workingDirectory ≠ [] → liesUnder workingDirectory step.path = false

variable {workingDirectory path : Bytes} {paths : List Bytes} {draft draft' : Draft}

theorem claimDirectory_steps (phase : GenerationPhase) (draft : Draft) (directory : Bytes) :
    ∃ new, (claimDirectory phase draft directory).steps = draft.steps ++ new.map (directoryStep phase) ∧
      (claimDirectory phase draft directory).directories = new.reverse ++ draft.directories ∧
      ∀ d, d ∈ new ++ draft.directories ↔ d = directory ∨ d ∈ draft.directories := by
  by_cases h : directory ∈ draft.directories
  · refine ⟨[], by simp [claimDirectory, h], by simp [claimDirectory, h], fun d ↦ ?_⟩
    simp only [List.nil_append]
    exact ⟨.inr, fun hd ↦ hd.elim (· ▸ h) id⟩
  · exact ⟨[directory], by simp [claimDirectory, h], by simp [claimDirectory, h], by simp⟩

theorem claimDirectories_steps (draft : Draft) (path : Bytes) (phase : GenerationPhase) :
    ∃ new, (claimDirectories draft path phase).steps = draft.steps ++ new.map (directoryStep phase) ∧
      (claimDirectories draft path phase).directories = new.reverse ++ draft.directories ∧
      ∀ d, d ∈ new ++ draft.directories ↔ d ∈ ancestorDirectories path ∨ d ∈ draft.directories := by
  unfold claimDirectories
  induction ancestorDirectories path generalizing draft with
  | nil => exact ⟨[], by simp, by simp, by simp⟩
  | cons directory rest ih =>
    obtain ⟨new, hsteps, hdirs, hmem⟩ := claimDirectory_steps phase draft directory
    obtain ⟨new', hsteps', hdirs', hmem'⟩ := ih (claimDirectory phase draft directory)
    refine ⟨new ++ new', by simp [hsteps', hsteps], by simp [hdirs', hdirs], fun d ↦ ?_⟩
    have h₁ := hmem d
    have h₂ := hmem' d
    rw [hdirs] at h₂
    simp only [List.mem_append, List.mem_cons, List.mem_reverse] at h₁ h₂ ⊢
    rw [or_comm (a := d ∈ new), or_assoc, h₂, h₁, or_left_comm, or_assoc]

theorem mem_addPayload {diagnostics : List Diagnostic} {step s : PlanStep}
    (h : s ∈ (addPayload { draft with diagnostics } step).steps) :
    s ∈ draft.steps ∨ (∃ directory, s = directoryStep step.phase directory) ∨ s = step := by
  obtain ⟨new, hsteps, -⟩ := claimDirectories_steps { draft with diagnostics } step.path step.phase
  simp only [addPayload, hsteps, List.mem_append, List.mem_map, List.mem_singleton] at h
  rcases h with (hs | ⟨directory, -, rfl⟩) | rfl
  · exact .inl hs
  · exact .inr (.inl ⟨directory, rfl⟩)
  · exact .inr (.inr rfl)

theorem refuseIf_eq_ok {p : Prop} [Decidable p] {failure : Failure} {u : Unit} :
    refuseIf p failure = .ok u ↔ ¬ p := by
  unfold refuseIf
  split <;> simp_all

theorem contributePath_eq_ok {contribution : Contribution} {policy : Policy} {parameters : Value}
    {entry : Bytes} (h : contributePath contribution policy parameters workingDirectory draft entry
      path = .ok draft') :
    ∃ diagnostics ownership content, path ≠ [] ∧
      (ownership = .generated → workingDirectory ≠ [] → liesUnder workingDirectory path = false) ∧
      draft' = addPayload { draft with diagnostics }
        (payloadStep contribution policy ownership entry path content) := by
  simp only [contributePath, bind_eq_ok, refuseIf_eq_ok, pure, Except.pure, Except.ok.injEq] at h
  obtain ⟨-, hpath, -, -, payload, -, content, -, -, hinside, rfl⟩ := h
  refine ⟨_, _, content, hpath, fun hgen hne ↦ ?_, rfl⟩
  simpa [hgen, hne] using hinside

theorem Draft.Covers.start (diagnostics : List Diagnostic) :
    Draft.Covers workingDirectory [] { diagnostics } where
  writes := rfl
  directories := rfl
  actions := by simp
  nonempty := by simp
  ancestors := by simp
  ownership := by simp

theorem Draft.Covers.addPayload (h : draft.Covers workingDirectory paths)
    (diagnostics : List Diagnostic) (step : PlanStep) (haction : step.action = .writeFile)
    (hpath : step.path ≠ []) (howner : step.ownership = .generated → workingDirectory ≠ [] →
      liesUnder workingDirectory step.path = false) :
    (addPayload { draft with diagnostics } step).Covers workingDirectory (paths ++ [step.path]) := by
  obtain ⟨new, hsteps, hdirs, hmem⟩ :=
    claimDirectories_steps { draft with diagnostics } step.path step.phase
  have hnew : (new.map (directoryStep step.phase)).filter (fun s ↦ s.action = .writeFile) = [] := by
    simp [directoryStep]
  have hnew' : (new.map (directoryStep step.phase)).filter (fun s ↦ s.action = .createDirectory) =
      new.map (directoryStep step.phase) := by
    simp [directoryStep]
  constructor
  · simp only [SquaredPg.addPayload, hsteps, List.filter_append, hnew, List.append_nil,
      List.map_append, h.writes]
    simp [haction]
  · simp only [SquaredPg.addPayload, hsteps, hdirs, List.filter_append, hnew',
      List.map_append, h.directories, List.reverse_append, List.reverse_reverse]
    simp [haction, directoryStep, Function.comp_def]
  · intro s hs
    rcases mem_addPayload hs with hs | ⟨d, rfl⟩ | rfl
    · exact h.actions s hs
    · exact .inr rfl
    · exact .inl haction
  · intro p hp
    rcases List.mem_append.mp hp with hp | hp
    · exact h.nonempty p hp
    · rw [List.mem_singleton.mp hp]
      exact hpath
  · intro d
    have hd := hmem d
    have hold := h.ancestors d
    simp only [SquaredPg.addPayload, hdirs, List.mem_append, List.mem_reverse,
      List.mem_singleton] at hd ⊢
    rw [hd, hold]
    constructor
    · rintro (hd | ⟨p, hp, hd⟩)
      · exact ⟨_, .inr rfl, hd⟩
      · exact ⟨p, .inl hp, hd⟩
    · rintro ⟨p, hp | rfl, hd⟩
      · exact .inr ⟨p, hp, hd⟩
      · exact .inl hd
  · intro s hs hwrite hgen hne
    rcases mem_addPayload hs with hs | ⟨d, rfl⟩ | rfl
    · exact h.ownership s hs hwrite hgen hne
    · cases hwrite
    · exact howner hgen hne

theorem Draft.Covers.contributeEntry {contribution : Contribution} {policy : Policy}
    {parameters : Value} {entry : Bytes} (h : draft.Covers workingDirectory paths)
    (hok : contributeEntry contribution policy parameters workingDirectory draft entry =
      .ok draft') :
    draft'.Covers workingDirectory (paths ++
      (payloadText parameters contribution.resource entry).toList.map normalizeRelative) := by
  unfold SquaredPg.contributeEntry at hok
  unfold payloadText
  cases hname : payloadName contribution.resource entry with
  | none =>
    simp only [hname, Except.ok.injEq] at hok
    simpa [← hok] using h
  | some relative =>
    simp only [hname, bind_eq_ok, mapError_eq_ok] at hok
    obtain ⟨text, htext, hok⟩ := hok
    obtain ⟨diagnostics, ownership, content, hpath, howner, rfl⟩ := contributePath_eq_ok hok
    have hnext := h.addPayload diagnostics
      (payloadStep contribution policy ownership entry (normalizeRelative text) content)
      rfl hpath howner
    rwa [Option.bind_some, htext]

theorem Draft.Covers.contribute {contribution : Contribution} {parameters : Value}
    (h : draft.Covers workingDirectory paths)
    (hok : contribute parameters workingDirectory draft contribution = .ok draft') :
    draft'.Covers workingDirectory (paths ++ (contribution.resource.cartridge.entries.filterMap
      (payloadText parameters contribution.resource)).map normalizeRelative) := by
  unfold SquaredPg.contribute at hok
  dsimp only at hok
  split at hok
  · cases hok
  · refine foldlM_induction (fun done draft ↦ draft.Covers workingDirectory (paths ++
      (done.filterMap (payloadText parameters contribution.resource)).map normalizeRelative))
      ?_ (by simpa using h) hok
    intro done entry s s' hs hstep
    have hentry : [entry].filterMap (payloadText parameters contribution.resource) =
        (payloadText parameters contribution.resource entry).toList := by
      cases htext : payloadText parameters contribution.resource entry <;> simp [htext]
    rw [List.filterMap_append, hentry, List.map_append, ← List.append_assoc]
    exact hs.contributeEntry hstep

theorem mem_addWorkingDirectory {step : PlanStep} :
    step ∈ addWorkingDirectory workingDirectory draft ↔ step ∈ draft.steps ∨
      (workingDirectory ≠ [] ∧ workingDirectory ∉ draft.directories) ∧
        step = directoryStep .workspace workingDirectory := by
  unfold addWorkingDirectory
  split_ifs with h
  · simp [h, or_comm]
  · simp [h]

/-- What a plan says about paths: `paths` are the ones written, in the order of contribution. -/
structure GenerationPlan.Covers (plan : GenerationPlan) (paths : List Bytes) : Prop where
  writes : ((plan.steps.filter fun step ↦ step.action = .writeFile).map PlanStep.path).Perm paths
  actions : ∀ step ∈ plan.steps, step.action = .writeFile ∨ step.action = .createDirectory
  nonempty : ∀ path ∈ paths, path ≠ []
  directories : ∀ directory, (∃ step ∈ plan.steps, step.action = .createDirectory ∧
    step.path = directory) ↔ (∃ path ∈ paths, directory ∈ ancestorDirectories path) ∨
      (plan.workingDirectory ≠ [] ∧ directory = plan.workingDirectory)
  ownership : ∀ step ∈ plan.steps, step.action = .writeFile → step.ownership = .generated →
    plan.workingDirectory ≠ [] → liesUnder plan.workingDirectory step.path = false

theorem sortSteps_perm (steps : List PlanStep) : (sortSteps steps).Perm steps :=
  List.perm_insertionSort _ _

theorem Draft.Covers.directoryStep_iff (h : draft.Covers workingDirectory paths) (directory : Bytes) :
    (∃ step ∈ draft.steps, step.action = .createDirectory ∧ step.path = directory) ↔
      directory ∈ draft.directories := by
  rw [← List.mem_reverse, ← h.directories]
  simp [List.mem_map, List.mem_filter, and_assoc]

theorem Draft.Covers.working_directories (h : draft.Covers workingDirectory paths)
    (directory : Bytes) :
    (∃ step ∈ addWorkingDirectory workingDirectory draft, step.action = .createDirectory ∧
      step.path = directory) ↔ (∃ path ∈ paths, directory ∈ ancestorDirectories path) ∨
        (workingDirectory ≠ [] ∧ directory = workingDirectory) := by
  simp only [mem_addWorkingDirectory]
  rw [← h.ancestors directory, ← h.directoryStep_iff directory]
  constructor
  · rintro ⟨step, hs | ⟨hwd, rfl⟩, haction, hpath⟩
    · exact .inl ⟨step, hs, haction, hpath⟩
    · exact .inr ⟨hwd.1, hpath.symm⟩
  · rintro (⟨step, hs, haction, hpath⟩ | ⟨hwd, rfl⟩)
    · exact ⟨step, .inl hs, haction, hpath⟩
    · by_cases hin : directory ∈ draft.directories
      · obtain ⟨step, hs, haction, hpath⟩ := (h.directoryStep_iff _).mpr hin
        exact ⟨step, .inl hs, haction, hpath⟩
      · exact ⟨_, .inr ⟨⟨hwd, hin⟩, rfl⟩, rfl, rfl⟩

theorem covers_of_contributions {set : ResolvedSet} {config : Value} {engineVersion : Version}
    {diagnostics : List Diagnostic} (h : set.contributions.foldlM
      (contribute (set.parameters config engineVersion) workingDirectory) { diagnostics } = .ok draft) :
    draft.Covers workingDirectory (claimedPaths set config engineVersion) := by
  refine foldlM_induction (fun (done : List Contribution) (draft : Draft) ↦ draft.Covers
    workingDirectory ((done.flatMap fun contribution ↦
      contribution.resource.cartridge.entries.filterMap (payloadText
        (set.parameters config engineVersion) contribution.resource)).map normalizeRelative))
    ?_ (Draft.Covers.start diagnostics) h
  intro done contribution s s' hs hstep
  rw [List.flatMap_append, List.flatMap_singleton, List.map_append]
  exact hs.contribute hstep

theorem buildPlan_covers {set : ResolvedSet} {config : Value} {engineVersion : Version}
    {diagnostics : List Diagnostic} {plan : GenerationPlan}
    (h : buildPlan set config engineVersion diagnostics = .ok plan) :
    plan.workingDirectory = SquaredPg.workingDirectory set.projectTemplate ∧
      plan.Covers (claimedPaths set config engineVersion) := by
  simp only [buildPlan, bind_eq_ok, pure, Except.pure, Except.ok.injEq] at h
  obtain ⟨draft, hdraft, rfl⟩ := h
  have hcovers := covers_of_contributions hdraft
  refine ⟨rfl, ?_⟩
  have hperm := sortSteps_perm
    (addWorkingDirectory (SquaredPg.workingDirectory set.projectTemplate) draft)
  constructor
  · refine ((hperm.filter _).map _).trans ?_
    rw [← hcovers.writes]
    unfold addWorkingDirectory
    split_ifs
    · simp [directoryStep]
    · rfl
  · intro step hstep
    rcases mem_addWorkingDirectory.mp (hperm.mem_iff.mp hstep) with hs | ⟨-, rfl⟩
    · exact hcovers.actions step hs
    · exact .inr rfl
  · exact hcovers.nonempty
  · intro directory
    simp only [hperm.mem_iff]
    exact hcovers.working_directories directory
  · intro step hstep
    rcases mem_addWorkingDirectory.mp (hperm.mem_iff.mp hstep) with hs | ⟨-, rfl⟩
    · exact hcovers.ownership step hs
    · exact fun hwrite ↦ by cases hwrite

end SquaredPg
