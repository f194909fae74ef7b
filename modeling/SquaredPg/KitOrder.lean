import SquaredPg.PlanDirectories

namespace SquaredPg

open Ascii Fallible Std

instance : Std.Irrefl fun a b ↦ stepCmp a b = .lt where
  irrefl a h := by
    have hself : stepCmp a a = .eq := ReflCmp.compare_self
    rw [hself] at h
    cases h

instance : Std.Antisymm fun a b ↦ stepCmp a b = .lt where
  antisymm a b hab hba := by
    rw [← OrientedCmp.gt_iff_lt, hba] at hab
    cases hab

def FirstClaim (planned : List (PlanStep × List Diagnostic)) (step : PlanStep) : Prop :=
  ∃ p ∈ planned, step.path ∈ ancestorDirectories p.1.path ∧
    step = directoryStep p.1.phase step.path ∧
    ∀ q ∈ planned, step.path ∈ ancestorDirectories q.1.path →
      p.1.phase.ordinal ≤ q.1.phase.ordinal

variable {draft : Draft} {bound : ℕ} {planned : List (PlanStep × List Diagnostic)}
  {p : PlanStep × List Diagnostic} {step : PlanStep}

structure Draft.Lists (draft : Draft) (planned : List (PlanStep × List Diagnostic)) : Prop where
  nodup : draft.directories.Nodup
  directories : ∀ d, d ∈ draft.directories ↔ ∃ p ∈ planned, d ∈ ancestorDirectories p.1.path
  steps : ∀ step, step ∈ draft.steps ↔ step ∈ planned.map Prod.fst ∨ FirstClaim planned step

theorem firstClaim_append (hphases : ∀ q ∈ planned, q.1.phase.ordinal ≤ p.1.phase.ordinal) :
    FirstClaim (planned ++ [p]) step ↔ FirstClaim planned step ∨
      ((∀ q ∈ planned, step.path ∉ ancestorDirectories q.1.path) ∧
        step.path ∈ ancestorDirectories p.1.path ∧ step = directoryStep p.1.phase step.path) := by
  constructor
  · rintro ⟨first, hfirst, habove, hstep, hleast⟩
    by_cases hold : ∃ q ∈ planned, step.path ∈ ancestorDirectories q.1.path
    · left
      rcases List.mem_append.mp hfirst with hfirst | hfirst
      · exact ⟨first, hfirst, habove, hstep,
          fun q hq ↦ hleast q (List.mem_append_left _ hq)⟩
      · -- the new payload is in the phase of an old one, which stands for it
        obtain rfl := List.mem_singleton.mp hfirst
        obtain ⟨q, hq, hqabove⟩ := hold
        have hphase : first.1.phase = q.1.phase := ordinal_inj.mp <| Nat.le_antisymm
          (hleast q (List.mem_append_left _ hq) hqabove) (hphases q hq)
        exact ⟨q, hq, hqabove, hphase ▸ hstep,
          fun r hr hrabove ↦ hphase ▸ hleast r (List.mem_append_left _ hr) hrabove⟩
    · right
      have hnone : ∀ q ∈ planned, step.path ∉ ancestorDirectories q.1.path :=
        fun q hq hqabove ↦ hold ⟨q, hq, hqabove⟩
      rcases List.mem_append.mp hfirst with hfirst | hfirst
      · exact absurd habove (hnone first hfirst)
      · obtain rfl := List.mem_singleton.mp hfirst
        exact ⟨hnone, habove, hstep⟩
  · rintro (⟨first, hfirst, habove, hstep, hleast⟩ | ⟨hnone, habove, hstep⟩)
    · refine ⟨first, List.mem_append_left _ hfirst, habove, hstep, fun q hq hqabove ↦ ?_⟩
      rcases List.mem_append.mp hq with hq | hq
      · exact hleast q hq hqabove
      · rw [List.mem_singleton.mp hq]
        exact hphases first hfirst
    · refine ⟨p, by simp, habove, hstep, fun q hq hqabove ↦ ?_⟩
      rcases List.mem_append.mp hq with hq | hq
      · exact absurd hqabove (hnone q hq)
      · rw [List.mem_singleton.mp hq]

theorem Draft.Lists.addPlanned (h : draft.Lists planned)
    (hphases : ∀ q ∈ planned, q.1.phase.ordinal ≤ p.1.phase.ordinal) :
    (addPlanned draft p).Lists (planned ++ [p]) := by
  refine ⟨claimDirectories_nodup p.1.path p.1.phase h.nodup, fun d ↦ ?_, fun step ↦ ?_⟩
  · rw [mem_addPlanned_directories, h.directories]
    simp only [List.mem_append, List.mem_singleton, or_and_right, exists_or, exists_eq_left]
    exact or_comm
  · have hmade : (∃ d, (d ∈ ancestorDirectories p.1.path ∧ d ∉ draft.directories) ∧
        directoryStep p.1.phase d = step) ↔
          (∀ q ∈ planned, step.path ∉ ancestorDirectories q.1.path) ∧
            step.path ∈ ancestorDirectories p.1.path ∧
              step = directoryStep p.1.phase step.path := by
      constructor
      · rintro ⟨d, ⟨habove, hout⟩, rfl⟩
        exact ⟨fun q hq hqabove ↦ hout ((h.directories d).mpr ⟨q, hq, hqabove⟩), habove, rfl⟩
      · rintro ⟨hnone, habove, hstep⟩
        refine ⟨step.path, ⟨habove, fun hold ↦ ?_⟩, hstep.symm⟩
        obtain ⟨q, hq, hqabove⟩ := (h.directories _).mp hold
        exact hnone q hq hqabove
    rw [mem_addPlanned_steps h.nodup, firstClaim_append hphases, ← hmade, h.steps, List.map_append,
      List.mem_append, List.map_singleton, List.mem_singleton]
    simp only [or_assoc, or_left_comm, or_comm]

theorem Draft.Lists.start (diagnostics : List Diagnostic) : Draft.Lists { diagnostics } [] where
  nodup := .nil
  directories := by simp
  steps := by simp [FirstClaim]

theorem Draft.Lists.foldl (diagnostics : List Diagnostic)
    (hphases : planned.Pairwise fun a b ↦ a.1.phase.ordinal ≤ b.1.phase.ordinal) :
    (planned.foldl SquaredPg.addPlanned { diagnostics }).Lists planned := by
  induction planned using List.reverseRecOn with
  | nil => exact .start diagnostics
  | append_singleton planned p ih =>
    obtain ⟨hphases, -, hlast⟩ := List.pairwise_append.mp hphases
    rw [List.foldl_append]
    exact (ih hphases).addPlanned fun q hq ↦ hlast q hq p (by simp)

/-- The configuration supplies the parameter that would otherwise list the kits. -/
def SuppliesKitList (config : Value) : Prop :=
  ∃ supplied, config.find (ascii "parameters") = some supplied ∧
    supplied.binds (ascii "kit_list") = true

def NoOverrides (set : ResolvedSet) : Prop :=
  ∀ contribution ∈ set.contributions, (contributionPolicy contribution.resource).overrides = []

theorem isObject_of_binds {parameters : Value} {name : Bytes} (h : parameters.binds name = true) :
    parameters.isObject = true := by
  cases parameters <;> first | rfl | cases h

theorem binds_putIfAbsent {parameters : Value} {name : Bytes} (key value : Bytes)
    (h : parameters.binds name = true) : (putIfAbsent key value parameters).binds name = true := by
  unfold putIfAbsent
  split_ifs with hkey
  · exact h
  · cases parameters with
    | object members =>
      have hne : name ≠ key := fun heq ↦ hkey (heq ▸ h)
      rw [Value.binds, Value.find_set_object, if_neg hne]
      exact h
    | _ => cases h

theorem putIfAbsent_of_binds {parameters : Value} {key : Bytes} (value : Bytes)
    (h : parameters.binds key = true) : putIfAbsent key value parameters = parameters := if_pos h

theorem effectiveParameters_kits {config : Value} (h : SuppliesKitList config)
    (projectTemplate : ResolvedResource) (workingDirectory : Bytes) (engineVersion : Version)
    (kitIds kitIds' : List Bytes) :
    effectiveParameters projectTemplate config workingDirectory engineVersion kitIds =
      effectiveParameters projectTemplate config workingDirectory engineVersion kitIds' := by
  obtain ⟨supplied, hfind, hbinds⟩ := h
  unfold effectiveParameters
  simp only [hfind, isObject_of_binds hbinds, ↓reduceIte]
  have hput := fun value ↦ putIfAbsent_of_binds value <|
    binds_putIfAbsent (ascii "framework_version") (config.stringOr (ascii "framework") (ascii "0.0.0"))
    <| binds_putIfAbsent (ascii "template_version") projectTemplate.version
    <| binds_putIfAbsent (ascii "template_id") projectTemplate.id.str
    <| binds_putIfAbsent (ascii "generator_version") engineVersion.toString
    <| binds_putIfAbsent (ascii "working_directory") workingDirectory
    <| binds_putIfAbsent (ascii "namespace") (config.stringOr (ascii "name") [])
    <| binds_putIfAbsent (ascii "project_name") (config.stringOr (ascii "name") []) hbinds
  simp only [hput]

variable {set : ResolvedSet} {config : Value} {engineVersion : Version} {payload : Payload}
  {diagnostics : List Diagnostic} {plan : GenerationPlan} {kits : List ResolvedResource}

theorem Planned.mem_iff (h : Planned set config engineVersion planned) :
    p ∈ planned ↔ ∃ payload ∈ set.payloads,
      payload.planned (set.parameters config engineVersion)
        (workingDirectory set.projectTemplate) = some p := by
  constructor
  · intro hp
    have hall : ∀ p ∈ planned, ∃ payload ∈ set.payloads,
        payload.planned (set.parameters config engineVersion)
          (workingDirectory set.projectTemplate) = some p :=
      forall_of_forall₂ h.each fun payload hin p hp ↦ ⟨payload, hin, hp⟩
    exact hall p hp
  · rintro ⟨payload, hin, hp⟩
    obtain ⟨q, hq, hpayload⟩ := exists_of_forall₂ h.each hin
    rw [hp] at hpayload
    exact Option.some.inj hpayload ▸ hq

theorem Planned.mem_gathered (h : Planned set config engineVersion planned) :
    step ∈ gathered set diagnostics planned ↔
      (step ∈ planned.map Prod.fst ∨ FirstClaim planned step) ∨
        (workingDirectory set.projectTemplate ≠ [] ∧ ¬ ∃ p ∈ planned,
          workingDirectory set.projectTemplate ∈ ancestorDirectories p.1.path) ∧
        step = directoryStep .workspace (workingDirectory set.projectTemplate) := by
  have hphases := h.phases
  rw [List.pairwise_map] at hphases
  have hlists := Draft.Lists.foldl diagnostics hphases
  rw [gathered, mem_addWorkingDirectory, hlists.steps, hlists.directories]

def Payload.Apart (parameters : Value) (a b : Payload) : Prop :=
  ∀ path, a.path parameters = some path → b.path parameters ≠ some path

theorem Payload.Apart.symm {parameters : Value} {a b : Payload} (h : a.Apart parameters b) :
    b.Apart parameters a := fun path hb ha ↦ h path ha hb

theorem NoOverrides.of_payload (h : NoOverrides set) (hin : payload ∈ set.payloads) :
    payload.overrides = [] := by
  obtain ⟨contribution, hcontribution, hpayload⟩ := List.mem_flatMap.mp hin
  obtain ⟨entry, -, rfl⟩ := List.mem_map.mp hpayload
  exact h contribution hcontribution

theorem NoOverrides.givesWay_iff (h : NoOverrides set) (parameters : Value) :
    set.payloads.Pairwise (GivesWay parameters) ↔
      set.payloads.Pairwise (Payload.Apart parameters) := by
  refine List.Pairwise.iff_of_mem fun {a b} ha hb ↦ forall_congr' fun path ↦ ?_
  rw [h.of_payload hb]
  simp only [List.not_mem_nil, ne_eq]

theorem NoOverrides.paths_nodup (hno : NoOverrides set)
    (h : Planned set config engineVersion planned) :
    ((planned.map Prod.fst).map PlanStep.path).Nodup := by
  rw [List.Nodup, List.pairwise_map, List.pairwise_map]
  refine pairwise_of_forall₂ h.each ((hno.givesWay_iff _).mp h.givesWay) ?_
  intro a b p q hapart hp hq heq
  exact hapart _ (planned_path hp) (heq ▸ planned_path hq)

theorem stepCmp_eq {a b : PlanStep} (h : stepCmp a b = .eq) : a.rank = b.rank ∧ a.path = b.path := by
  simp only [stepCmp, Ordering.then_eq_eq] at h
  exact ⟨LawfulEqOrd.eq_of_compare h.2.1, LawfulEqCmp.eq_of_compare h.2.2⟩

def Distinct (a b : PlanStep) : Prop := a.rank = b.rank → a.path ≠ b.path

theorem Distinct.symm {a b : PlanStep} (h : Distinct a b) : Distinct b a :=
  fun hrank hpath ↦ h hrank.symm hpath.symm

theorem distinct_of_filters {steps : List PlanStep}
    (hactions : ∀ s ∈ steps, s.action = .writeFile ∨ s.action = .createDirectory)
    (hwrites : ((writeSteps steps).map PlanStep.path).Nodup)
    (hdirs : ((steps.filter fun s ↦ s.action = .createDirectory).map PlanStep.path).Nodup) :
    steps.Pairwise Distinct := by
  have hsplit := List.filter_append_perm (fun s ↦ s.action = .writeFile) steps
  rw [← hsplit.pairwise_iff Distinct.symm]
  rw [List.Nodup, List.pairwise_map] at hwrites hdirs
  have hrest : (steps.filter fun s ↦ !decide (s.action = .writeFile)) =
      steps.filter fun s ↦ s.action = .createDirectory := by
    refine List.filter_congr fun s hs ↦ ?_
    rcases hactions s hs with h | h <;> simp [h]
  rw [hrest]
  have himp : ∀ {a b : PlanStep}, a.path ≠ b.path → Distinct a b := fun hne _ ↦ hne
  refine List.pairwise_append.mpr ⟨hwrites.imp himp, hdirs.imp himp, ?_⟩
  intro a ha b hb hrank
  simp only [List.mem_filter, decide_eq_true_eq] at ha hb
  simp [PlanStep.rank, PlanStep.isDirectory, ha.2, hb.2] at hrank

theorem NoOverrides.strict (hno : NoOverrides set)
    (h : buildPlan set config engineVersion diagnostics = .ok plan) :
    plan.steps.Pairwise fun a b ↦ stepCmp a b = .lt := by
  obtain ⟨planned, hplanned, hsteps⟩ := buildPlan_planned h
  have hwrites : ((writeSteps plan.steps).map PlanStep.path).Nodup := by
    have hperm := (sortSteps_perm (gathered set diagnostics planned)).filter
      fun step ↦ step.action = .writeFile
    rw [writeSteps, hsteps, (hperm.map _).nodup_iff, ← writeSteps, writeSteps_gathered,
      hplanned.writes]
    exact hno.paths_nodup hplanned
  have hdistinct := distinct_of_filters (buildPlan_covers h).2.actions hwrites (announced_once h)
  have hsorted := hsteps ▸ sortSteps_sorted (gathered set diagnostics planned)
  refine (hsorted.and hdistinct).imp fun {a b} hab ↦ ?_
  obtain ⟨hle, hne⟩ := hab
  rw [not_stepBefore_iff] at hle
  cases hcmp : stepCmp a b with
  | lt => rfl
  | eq => exact absurd (stepCmp_eq hcmp).2 (hne (stepCmp_eq hcmp).1)
  | gt =>
    rw [hcmp] at hle
    cases hle

theorem payloads_perm (h : kits.Perm set.kits) :
    ({ set with kits } : ResolvedSet).payloads.Perm set.payloads := by
  refine List.Perm.flatMap_right _ ?_
  exact ((h.map _).append_right _).cons _

theorem contributions_mem (h : kits.Perm set.kits) {contribution : Contribution} :
    contribution ∈ ({ set with kits } : ResolvedSet).contributions ↔
      contribution ∈ set.contributions :=
  (((h.map _).append_right _).cons _).mem_iff

theorem parameters_kits (h : SuppliesKitList config) :
    ({ set with kits } : ResolvedSet).parameters config engineVersion =
      set.parameters config engineVersion := effectiveParameters_kits h ..

theorem Planned.reorder (hperm : kits.Perm set.kits) (hno : NoOverrides set)
    (hlist : SuppliesKitList config) (h : Planned set config engineVersion planned) :
    ∃ planned', Planned { set with kits } config engineVersion planned' := by
  have hno' : NoOverrides { set with kits } := fun contribution hin ↦
    hno contribution ((contributions_mem hperm).mp hin)
  have hpayloads := payloads_perm hperm
  obtain ⟨planned', heach⟩ : ∃ planned', List.Forall₂ (fun payload p ↦
      payload.planned (set.parameters config engineVersion)
        (workingDirectory set.projectTemplate) = some p)
          ({ set with kits } : ResolvedSet).payloads planned' := by
    refine exists_forall₂ fun payload hin ↦ ?_
    obtain ⟨p, -, hp⟩ := exists_of_forall₂ h.each (hpayloads.mem_iff.mp hin)
    exact ⟨p, hp⟩
  refine ⟨planned', fun contribution hin ↦ h.known _ ((contributions_mem hperm).mp hin), ?_, ?_⟩
  · rwa [parameters_kits hlist]
  · rw [parameters_kits hlist, hno'.givesWay_iff, hpayloads.pairwise_iff Payload.Apart.symm]
    exact (hno.givesWay_iff _).mp h.givesWay

theorem Planned.steps_eq {planned' : List (PlanStep × List Diagnostic)}
    (hperm : kits.Perm set.kits) (hlist : SuppliesKitList config)
    (h : Planned set config engineVersion planned)
    (h' : Planned { set with kits } config engineVersion planned') (diagnostics' : List Diagnostic) :
    step ∈ gathered { set with kits } diagnostics' planned' ↔
      step ∈ gathered set diagnostics planned := by
  have hmem : ∀ p, p ∈ planned' ↔ p ∈ planned := by
    intro p
    rw [h.mem_iff, h'.mem_iff, parameters_kits hlist]
    simp only [(payloads_perm hperm).mem_iff]
  rw [h.mem_gathered, h'.mem_gathered]
  simp only [FirstClaim, List.mem_map, hmem]

/-- Where nothing is overridden and the kits are no parameter, their order does not show. -/
theorem kit_order_irrelevant (hperm : kits.Perm set.kits) (hno : NoOverrides set)
    (hlist : SuppliesKitList config) :
    ((∃ plan, buildPlan { set with kits } config engineVersion diagnostics = .ok plan) ↔
        ∃ plan, buildPlan set config engineVersion diagnostics = .ok plan) ∧
      ∀ plan plan', buildPlan set config engineVersion diagnostics = .ok plan →
        buildPlan { set with kits } config engineVersion diagnostics = .ok plan' →
          plan'.steps = plan.steps := by
  have hno' : NoOverrides { set with kits } := fun contribution hin ↦
    hno contribution ((contributions_mem hperm).mp hin)
  constructor
  · simp only [exists_plan_iff]
    constructor
    · rintro ⟨planned', h'⟩
      have hback : ∃ planned, Planned { ({ set with kits } : ResolvedSet) with kits := set.kits }
          config engineVersion planned := h'.reorder hperm.symm hno' hlist
      exact hback
    · rintro ⟨planned, h⟩
      exact h.reorder hperm hno hlist
  · intro plan plan' h h'
    obtain ⟨planned, hplanned, hsteps⟩ := buildPlan_planned h
    obtain ⟨planned', hplanned', hsteps'⟩ := buildPlan_planned h'
    refine List.Pairwise.eq_of_mem_iff (hno'.strict h') (hno.strict h) fun step ↦ ?_
    rw [hsteps, hsteps', (sortSteps_perm _).mem_iff, (sortSteps_perm _).mem_iff]
    exact Planned.steps_eq hperm hlist hplanned hplanned' diagnostics

def pairOfKits : ResolvedSet :=
  { projectTemplate := sampleTemplate "\x7b\x7d" ["a"]
    kits := [sampleKit "\x7b\x7d" ["b/c"], sampleKit "\x7b\x7d" ["b/a"]] }

def listedKits : Value :=
  .object [(ascii "parameters", .object [(ascii "kit_list", .string (ascii "both"))])]

theorem pair_of_kits_swapped : ∃ plan plan', buildPlan pairOfKits listedKits {} [] = .ok plan ∧
    buildPlan { pairOfKits with kits := pairOfKits.kits.reverse } listedKits {} [] = .ok plan' ∧
      plan'.steps = plan.steps := by
  have hno : NoOverrides pairOfKits := by
    unfold NoOverrides
    decide +kernel
  have hlist : SuppliesKitList listedKits := ⟨_, rfl, by decide⟩
  obtain ⟨plan, hplan⟩ := exists_ok (x := buildPlan pairOfKits listedKits {} []) (by decide +kernel)
  obtain ⟨hiff, heq⟩ := kit_order_irrelevant (List.reverse_perm pairOfKits.kits) hno hlist
  obtain ⟨plan', hplan'⟩ := hiff.mpr ⟨plan, hplan⟩
  exact ⟨plan, plan', hplan, hplan', heq plan plan' hplan hplan'⟩

end SquaredPg
