import SquaredPg.PlanOrder

namespace SquaredPg

open Ascii Fallible Std

/-- No directory is announced twice, and every directory above a step is announced before it. -/
structure Announced (steps : List PlanStep) : Prop where
  once : ((steps.filter fun step ↦ step.action = .createDirectory).map PlanStep.path).Nodup
  before : ∀ earlier step later, steps = earlier ++ step :: later →
    ∀ d ∈ ancestorDirectories step.path,
      ∃ s ∈ earlier, s.action = .createDirectory ∧ s.path = d

theorem ancestorDirectories_trans {path d e : Bytes} (h : Normal path)
    (hd : d ∈ ancestorDirectories path) (he : e ∈ ancestorDirectories d) :
    e ∈ ancestorDirectories path := by
  obtain ⟨cs, -, hcs, rfl⟩ := h
  obtain ⟨ds, -, hp, hne, rfl⟩ := hcs.mem_ancestorDirectories.mp hd
  obtain ⟨es, hes, hp', hne', rfl⟩ := (hcs.shorten hp).mem_ancestorDirectories.mp he
  refine hcs.mem_ancestorDirectories.mpr ⟨es, hes, hp'.trans hp, ?_, rfl⟩
  rintro rfl
  exact hne' (hp'.eq_of_length (Nat.le_antisymm hp'.length_le hp.length_le))

theorem Normal.not_above {path : Bytes} (h : Normal path) : path ∉ ancestorDirectories path := by
  obtain ⟨cs, -, hcs, rfl⟩ := h
  intro hin
  obtain ⟨ds, -, hp, hne, heq⟩ := hcs.mem_ancestorDirectories.mp hin
  exact hne (((hcs.shorten hp).joinPath_inj hcs).mp heq.symm)

theorem compareLex_append (text : Bytes) {rest : Bytes} (h : rest ≠ []) :
    List.compareLex compare text (text ++ rest) = .lt := by
  induction text with
  | nil =>
    obtain ⟨c, rest, rfl⟩ := List.exists_cons_of_ne_nil h
    rfl
  | cons c text ih => simpa [List.compareLex_cons_cons, ReflCmp.compare_self] using ih

theorem compareLex_ancestor {path d : Bytes} (h : Normal path) (hd : d ∈ ancestorDirectories path) :
    List.compareLex compare d path = .lt := by
  obtain ⟨cs, -, hcs, rfl⟩ := h
  obtain ⟨ds, hds, ⟨es, rfl⟩, hne, rfl⟩ := hcs.mem_ancestorDirectories.mp hd
  have hes : es ≠ [] := by
    rintro rfl
    simp at hne
  rw [joinPath_append hds hes]
  exact compareLex_append _ (by simp)

/-- What the builder keeps to while it adds the payload of ever later phases. -/
structure Draft.Closed (draft : Draft) (bound : ℕ) : Prop where
  nodup : draft.directories.Nodup
  made : ∀ d ∈ draft.directories, ∃ s ∈ draft.steps, s.action = .createDirectory ∧ s.path = d
  phases : ∀ s ∈ draft.steps, 1 ≤ s.phase.ordinal ∧ s.phase.ordinal ≤ bound
  above : ∀ s ∈ draft.steps, ∀ d ∈ ancestorDirectories s.path,
    ∃ a ∈ draft.steps, a.action = .createDirectory ∧ a.path = d ∧
      a.phase.ordinal ≤ s.phase.ordinal

variable {draft : Draft} {bound : ℕ} {p : PlanStep × List Diagnostic}

theorem claimDirectories_nodup (path : Bytes) (phase : GenerationPhase)
    (h : draft.directories.Nodup) : (claimDirectories draft path phase).directories.Nodup := by
  unfold claimDirectories
  induction ancestorDirectories path generalizing draft with
  | nil => exact h
  | cons directory rest ih =>
    rw [List.foldl_cons]
    refine ih ?_
    unfold claimDirectory
    split_ifs with hin
    · exact h
    · exact List.nodup_cons.mpr ⟨hin, h⟩

theorem mem_addPlanned_directories {d : Bytes} :
    d ∈ (addPlanned draft p).directories ↔
      d ∈ ancestorDirectories p.1.path ∨ d ∈ draft.directories := by
  obtain ⟨new, -, hdirs, hmem⟩ := addPlanned_steps draft p
  rw [hdirs, ← hmem, List.mem_append, List.mem_append, List.mem_reverse]

theorem mem_addPlanned_steps (h : draft.directories.Nodup) {s : PlanStep} :
    s ∈ (addPlanned draft p).steps ↔ s ∈ draft.steps ∨
      (∃ d, (d ∈ ancestorDirectories p.1.path ∧ d ∉ draft.directories) ∧
        directoryStep p.1.phase d = s) ∨ s = p.1 := by
  obtain ⟨new, hsteps, hdirs, hmem⟩ := addPlanned_steps draft p
  have hnodup : (addPlanned draft p).directories.Nodup :=
    claimDirectories_nodup p.1.path p.1.phase h
  have hnew : ∀ d, d ∈ new ↔ d ∈ ancestorDirectories p.1.path ∧ d ∉ draft.directories := by
    intro d
    have hdisjoint := (List.nodup_append.mp (hdirs ▸ hnodup)).2.2 d
    have hd := hmem d
    rw [List.mem_append] at hd
    constructor
    · intro hin
      have hout : d ∉ draft.directories := fun hold ↦ hdisjoint (by simpa using hin) d hold rfl
      exact ⟨(hd.mp (.inl hin)).resolve_right hout, hout⟩
    · rintro ⟨habove, hout⟩
      exact (hd.mpr (.inl habove)).resolve_right hout
  rw [hsteps, List.mem_append, List.mem_append, List.mem_map, List.mem_singleton, or_assoc]
  simp only [hnew]

theorem Draft.Closed.addPlanned (h : draft.Closed bound) (hnormal : Normal p.1.path)
    (hphase : 1 ≤ p.1.phase.ordinal) (hbound : bound ≤ p.1.phase.ordinal) :
    (addPlanned draft p).Closed p.1.phase.ordinal := by
  have hold : ∀ s ∈ draft.steps, s ∈ (SquaredPg.addPlanned draft p).steps :=
    fun s hs ↦ (mem_addPlanned_steps h.nodup).mpr (.inl hs)
  -- every directory above the payload is there now, from this phase or an earlier one
  have habove : ∀ d ∈ ancestorDirectories p.1.path, ∃ a ∈ (SquaredPg.addPlanned draft p).steps,
      a.action = .createDirectory ∧ a.path = d ∧ a.phase.ordinal ≤ p.1.phase.ordinal := by
    intro d hd
    by_cases hin : d ∈ draft.directories
    · obtain ⟨a, ha, haction, hpath⟩ := h.made d hin
      exact ⟨a, hold a ha, haction, hpath, (h.phases a ha).2.trans hbound⟩
    · exact ⟨_, (mem_addPlanned_steps h.nodup).mpr (.inr (.inl ⟨d, ⟨hd, hin⟩, rfl⟩)), rfl, rfl,
        le_rfl⟩
  constructor
  · exact claimDirectories_nodup p.1.path p.1.phase h.nodup
  · intro d hd
    rcases mem_addPlanned_directories.mp hd with hd | hd
    · obtain ⟨a, ha, haction, hpath, -⟩ := habove d hd
      exact ⟨a, ha, haction, hpath⟩
    · obtain ⟨a, ha, haction, hpath⟩ := h.made d hd
      exact ⟨a, hold a ha, haction, hpath⟩
  · intro s hs
    rcases (mem_addPlanned_steps h.nodup).mp hs with hs | ⟨d, -, rfl⟩ | rfl
    · exact ⟨(h.phases s hs).1, (h.phases s hs).2.trans hbound⟩
    · exact ⟨hphase, le_rfl⟩
    · exact ⟨hphase, le_rfl⟩
  · intro s hs d hd
    rcases (mem_addPlanned_steps h.nodup).mp hs with hs | ⟨d', ⟨hd', -⟩, rfl⟩ | rfl
    · obtain ⟨a, ha, haction, hpath, hle⟩ := h.above s hs d hd
      exact ⟨a, hold a ha, haction, hpath, hle⟩
    · exact habove d (ancestorDirectories_trans hnormal hd' hd)
    · exact habove d hd

theorem Draft.Closed.start (diagnostics : List Diagnostic) : Draft.Closed { diagnostics } 0 where
  nodup := .nil
  made := by simp
  phases := by simp
  above := by simp

theorem Draft.Closed.foldl {planned : List (PlanStep × List Diagnostic)} (h : draft.Closed bound)
    (hnormal : ∀ p ∈ planned, Normal p.1.path ∧ 1 ≤ p.1.phase.ordinal)
    (hbound : ∀ p ∈ planned, bound ≤ p.1.phase.ordinal)
    (hphases : planned.Pairwise fun a b ↦ a.1.phase.ordinal ≤ b.1.phase.ordinal) :
    ∃ bound', (planned.foldl SquaredPg.addPlanned draft).Closed bound' := by
  induction planned generalizing draft bound with
  | nil => exact ⟨bound, h⟩
  | cons p planned ih =>
    obtain ⟨⟨hp, hphase⟩, hnormal⟩ := List.forall_mem_cons.mp hnormal
    obtain ⟨hfirst, hphases⟩ := List.pairwise_cons.mp hphases
    exact ih (h.addPlanned hp hphase (hbound p (by simp))) hnormal hfirst hphases

variable {set : ResolvedSet} {config : Value} {engineVersion : Version}
  {diagnostics : List Diagnostic} {plan : GenerationPlan} {parameters : Value}
  {workingDirectory : Bytes} {payload : Payload} {planned : List (PlanStep × List Diagnostic)}

theorem planned_normal (h : payload.planned parameters workingDirectory = some p) :
    Normal p.1.path := by
  obtain ⟨path, bytes, content, hpath, hne, -, -, hstep⟩ := planned_eq_some h
  obtain ⟨text, -, rfl⟩ := Option.map_eq_some_iff.mp hpath
  rw [hstep, payloadStep_path]
  exact normalizeRelative_names hne

theorem payloads_phase (h : payload ∈ set.payloads) : 1 ≤ payload.contribution.phase.ordinal := by
  obtain ⟨contribution, hcontribution, hpayload⟩ := List.mem_flatMap.mp h
  obtain ⟨entry, -, rfl⟩ := List.mem_map.mp hpayload
  have hall : ∀ c ∈ set.contributions, 1 ≤ c.phase.ordinal := by
    simp only [ResolvedSet.contributions, List.cons_append, List.forall_mem_cons,
      List.forall_mem_append, List.forall_mem_map]
    simp [GenerationPhase.ordinal]
  exact hall contribution hcontribution

theorem Planned.closed (h : Planned set config engineVersion planned)
    (diagnostics : List Diagnostic) :
    ∃ bound, (planned.foldl addPlanned { diagnostics }).Closed bound := by
  have hphases := h.phases
  rw [List.pairwise_map] at hphases
  refine (Draft.Closed.start diagnostics).foldl ?_ (fun p _ ↦ Nat.zero_le _) hphases
  refine forall_of_forall₂ h.each fun payload hin p hp ↦ ⟨planned_normal hp, ?_⟩
  rw [planned_phase hp]
  exact payloads_phase hin

theorem before_of_sorted {steps earlier later : List PlanStep} {step above : PlanStep}
    (hsorted : steps.Pairwise fun a b ↦ stepBefore b a = false)
    (hsplit : steps = earlier ++ step :: later) (hin : above ∈ steps)
    (h : stepBefore above step = true) : above ∈ earlier := by
  subst hsplit
  rcases List.mem_append.mp hin with hin | hin
  · exact hin
  · exfalso
    rcases List.mem_cons.mp hin with rfl | hin
    · have hself : stepCmp above above = .eq := ReflCmp.compare_self
      rw [stepBefore_iff, hself] at h
      cases h
    · have hrest := (List.pairwise_cons.mp (List.pairwise_append.mp hsorted).2.1).1 above hin
      rw [h] at hrest
      cases hrest

theorem stepBefore_of_above {step above : PlanStep} (hnormal : Normal step.path)
    (haction : above.action = .createDirectory) (hpath : above.path ∈ ancestorDirectories step.path)
    (hle : above.phase.ordinal ≤ step.phase.ordinal) : stepBefore above step = true := by
  rcases hle.lt_or_eq with hlt | heq
  · exact stepBefore_of_phase hlt
  · rw [stepBefore_iff, stepCmp, heq, Nat.compare_eq_eq.mpr rfl, Ordering.eq_then]
    have hrank : above.rank = 0 := by simp [PlanStep.rank, PlanStep.isDirectory, haction]
    have hpaths := compareLex_ancestor hnormal hpath
    rcases Nat.eq_zero_or_pos step.rank with hzero | hpos
    · rw [hrank, hzero, Nat.compare_eq_eq.mpr rfl, Ordering.eq_then, hpaths]
    · rw [hrank, Nat.compare_eq_lt.mpr hpos, Ordering.lt_then]

theorem Planned.covers (h : Planned set config engineVersion planned)
    (diagnostics : List Diagnostic) :
    (planned.foldl addPlanned { diagnostics }).Covers
      (SquaredPg.workingDirectory set.projectTemplate) (claimedPaths set config engineVersion) :=
  covers_of_contributions (contributions_eq_ok.mpr ⟨planned, h, rfl⟩)

theorem announced_once (h : buildPlan set config engineVersion diagnostics = .ok plan) :
    ((plan.steps.filter fun step ↦ step.action = .createDirectory).map PlanStep.path).Nodup := by
  obtain ⟨planned, hplanned, hsteps⟩ := buildPlan_planned h
  obtain ⟨bound, hclosed⟩ := hplanned.closed diagnostics
  have hdirs := (hplanned.covers diagnostics).directories
  have hnodup := hdirs ▸ List.nodup_reverse.mpr hclosed.nodup
  have hperm := ((sortSteps_perm (gathered set diagnostics planned)).filter
    fun step ↦ step.action = .createDirectory).map PlanStep.path
  rw [hsteps, hperm.nodup_iff, gathered, addWorkingDirectory]
  split_ifs with hwd
  · have hnew := List.nodup_cons.mpr ⟨mt List.mem_reverse.mp hwd.2, hdirs ▸ hnodup⟩
    simpa [directoryStep, hdirs] using hnew
  · exact hnodup

/-- The working directory needs no other directory, or a payload announces it. -/
def WorkingDirectoryAnnounced (set : ResolvedSet) (config : Value) (engineVersion : Version) : Prop :=
  SquaredPg.workingDirectory set.projectTemplate = [] ∨
    ancestorDirectories (SquaredPg.workingDirectory set.projectTemplate) = [] ∨
    ∃ path ∈ claimedPaths set config engineVersion,
      SquaredPg.workingDirectory set.projectTemplate ∈ ancestorDirectories path

theorem announced_of_workingDirectory
    (h : buildPlan set config engineVersion diagnostics = .ok plan)
    (hwd : WorkingDirectoryAnnounced set config engineVersion) : Announced plan.steps := by
  obtain ⟨planned, hplanned, hsteps⟩ := buildPlan_planned h
  obtain ⟨bound, hclosed⟩ := hplanned.closed diagnostics
  have hcovers := hplanned.covers diagnostics
  have hmem : ∀ step, step ∈ plan.steps ↔ step ∈ gathered set diagnostics planned := by
    intro step
    rw [hsteps, (sortSteps_perm _).mem_iff]
  refine ⟨announced_once h, fun earlier step later hsplit d hd ↦ ?_⟩
  have hstep : step ∈ plan.steps := by simp [hsplit]
  obtain ⟨above, habove, haction, hpath, hle⟩ : ∃ a ∈ plan.steps, a.action = .createDirectory ∧
      a.path = d ∧ a.phase.ordinal ≤ step.phase.ordinal := by
    rcases mem_addWorkingDirectory.mp ((hmem step).mp hstep) with hs | ⟨⟨hne, hnot⟩, rfl⟩
    · obtain ⟨a, ha, hrest⟩ := hclosed.above step hs d hd
      exact ⟨a, (hmem a).mpr (mem_addWorkingDirectory.mpr (.inl ha)), hrest⟩
    · rcases hwd with hnil | hnone | hsome
      · exact absurd hnil hne
      · rw [directoryStep, hnone] at hd
        cases hd
      · exact absurd ((hcovers.ancestors _).mpr hsome) hnot
  subst hpath
  refine ⟨above, before_of_sorted (hsteps ▸ sortSteps_sorted _) hsplit habove ?_, haction, rfl⟩
  exact stepBefore_of_above (normal_of_buildPlan h step hstep) haction hd hle

theorem workingDirectory_of_announced
    (h : buildPlan set config engineVersion diagnostics = .ok plan)
    (hannounced : Announced plan.steps) : WorkingDirectoryAnnounced set config engineVersion := by
  obtain ⟨planned, hplanned, hsteps⟩ := buildPlan_planned h
  obtain ⟨bound, hclosed⟩ := hplanned.closed diagnostics
  have hcovers := hplanned.covers diagnostics
  by_contra hno
  simp only [WorkingDirectoryAnnounced, not_or] at hno
  obtain ⟨hne, habove, hnone⟩ := hno
  -- its step is of the first phase, so that nothing comes before it
  have hin : directoryStep .workspace (SquaredPg.workingDirectory set.projectTemplate) ∈
      plan.steps := by
    rw [hsteps, (sortSteps_perm _).mem_iff]
    exact mem_addWorkingDirectory.mpr (.inr ⟨⟨hne, mt (hcovers.ancestors _).mp hnone⟩, rfl⟩)
  obtain ⟨earlier, later, hsplit⟩ := List.append_of_mem hin
  obtain ⟨d, hd⟩ := List.exists_mem_of_ne_nil _ habove
  obtain ⟨s, hs, -, hpath⟩ := hannounced.before earlier _ later hsplit d hd
  have hsorted := hsplit ▸ hsteps ▸ sortSteps_sorted (gathered set diagnostics planned)
  have hbefore := (List.pairwise_append.mp hsorted).2.2 s hs _ List.mem_cons_self
  have hgathered : s ∈ gathered set diagnostics planned := by
    rw [← (sortSteps_perm _).mem_iff, ← hsteps, hsplit]
    exact List.mem_append_left _ hs
  rcases mem_addWorkingDirectory.mp hgathered with hs' | ⟨-, rfl⟩
  · have hphase : (directoryStep .workspace (SquaredPg.workingDirectory
        set.projectTemplate)).phase.ordinal < s.phase.ordinal := (hclosed.phases s hs').1
    rw [stepBefore_of_phase hphase] at hbefore
    cases hbefore
  · rw [← hpath] at hd
    exact (normal_of_buildPlan h _ hin).not_above hd

/-- A plan announces its directories exactly where the working directory needs none above it, or
lies on the way to a payload. -/
theorem announced_iff (h : buildPlan set config engineVersion diagnostics = .ok plan) :
    Announced plan.steps ↔ WorkingDirectoryAnnounced set config engineVersion :=
  ⟨workingDirectory_of_announced h, announced_of_workingDirectory h⟩

theorem sharing_announced_iff : ∃ plan, buildPlan sharingSet .null {} [] = .ok plan ∧
    (Announced plan.steps ↔ WorkingDirectoryAnnounced sharingSet .null {}) := by
  obtain ⟨plan, hplan⟩ := exists_ok (x := buildPlan sharingSet .null {} []) (by decide +kernel)
  exact ⟨plan, hplan, announced_iff hplan⟩

def nestedDirectorySet : ResolvedSet :=
  { projectTemplate := sampleTemplate "\x7b\"working_directory\":\"apps/main\"\x7d" ["a"] }

/-- The plan makes the directory `apps/main` and does not mention `apps`. -/
theorem nested_directory_unannounced : ∃ plan, buildPlan nestedDirectorySet .null {} [] = .ok plan ∧
    ¬ Announced plan.steps := by
  obtain ⟨plan, hplan⟩ := exists_ok (x := buildPlan nestedDirectorySet .null {} [])
    (by decide +kernel)
  refine ⟨plan, hplan, fun hannounced ↦ ?_⟩
  rcases workingDirectory_of_announced hplan hannounced with hnil | hnone | hsome
  · exact absurd hnil (by decide +kernel)
  · exact absurd hnone (by decide +kernel)
  · exact absurd hsome (by decide +kernel)

end SquaredPg
