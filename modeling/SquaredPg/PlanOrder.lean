import SquaredPg.PlanSteps
import SquaredPg.Provenance

namespace SquaredPg

open Ascii Fallible Std

def PlanStep.rank (step : PlanStep) : ℕ := if step.isDirectory then 0 else 1

def stepCmp (a b : PlanStep) : Ordering :=
  (compare a.phase.ordinal b.phase.ordinal).then <| (compare a.rank b.rank).then <|
    List.compareLex compare a.path b.path

instance : TransCmp stepCmp := by
  have := transCmp_on (List.compareLex (compare : UInt8 → UInt8 → Ordering)) PlanStep.path
  exact inferInstanceAs (TransCmp (compareLex (compareOn fun step ↦ step.phase.ordinal)
    (compareLex (compareOn PlanStep.rank) fun a b ↦ List.compareLex compare a.path b.path)))

theorem ordinal_inj {p q : GenerationPhase} : p.ordinal = q.ordinal ↔ p = q := by
  cases p <;> cases q <;> decide

theorem stepBefore_iff {a b : PlanStep} : stepBefore a b = true ↔ stepCmp a b = .lt := by
  unfold stepBefore stepCmp
  by_cases hphase : a.phase = b.phase
  · cases ha : a.isDirectory <;> cases hb : b.isDirectory <;>
      simp [hphase, ha, hb, PlanStep.rank, Nat.compare_eq_ite_lt]
  · have hne : a.phase.ordinal ≠ b.phase.ordinal := fun h ↦ hphase (ordinal_inj.mp h)
    rw [if_pos hphase, decide_eq_true_eq, Nat.compare_eq_ite_lt]
    split_ifs with hlt hgt
    · simpa using hlt
    · simpa using hlt
    · omega

theorem not_stepBefore_iff {a b : PlanStep} : stepBefore b a = false ↔ (stepCmp a b).isLE = true := by
  rw [← Bool.not_eq_true, stepBefore_iff, ← OrientedCmp.gt_iff_lt, Ordering.isLE_iff_ne_gt]

instance : Std.Total fun a b : PlanStep ↦ stepBefore b a = false where
  total a b := by
    simp only [not_stepBefore_iff]
    cases hcmp : stepCmp a b with
    | lt => exact .inl rfl
    | eq => exact .inl rfl
    | gt =>
      rw [OrientedCmp.gt_iff_lt.mp hcmp]
      exact .inr rfl

instance : IsTrans PlanStep fun a b ↦ stepBefore b a = false where
  trans a b c hab hbc := by
    rw [not_stepBefore_iff] at hab hbc ⊢
    exact TransCmp.isLE_trans hab hbc

theorem sortSteps_sorted (steps : List PlanStep) :
    (sortSteps steps).Pairwise fun a b ↦ stepBefore b a = false := List.pairwise_insertionSort _ _

theorem stepBefore_of_phase {a b : PlanStep} (h : a.phase.ordinal < b.phase.ordinal) :
    stepBefore a b = true := by
  rw [stepBefore_iff, stepCmp, Nat.compare_eq_lt.mpr h, Ordering.lt_then]

def writesOn (path : Bytes) (steps : List PlanStep) : List PlanStep :=
  steps.filter fun step ↦ step.action = .writeFile ∧ step.path = path

variable {steps : List PlanStep} {path : Bytes}

theorem writesOn_eq (path : Bytes) (steps : List PlanStep) :
    writesOn path steps = (writeSteps steps).filter fun step ↦ step.path = path := by
  simp only [writesOn, writeSteps, List.filter_filter, Bool.decide_and, Bool.and_comm]

theorem writesOn_append (path : Bytes) (steps steps' : List PlanStep) :
    writesOn path (steps ++ steps') = writesOn path steps ++ writesOn path steps' :=
  List.filter_append ..

theorem mem_writesOn {step : PlanStep} :
    step ∈ writesOn path steps ↔ step ∈ steps ∧ step.action = .writeFile ∧ step.path = path := by
  simp [writesOn]

theorem writesOn_sortSteps
    (h : (writesOn path steps).Pairwise fun a b ↦ a.phase.ordinal ≤ b.phase.ordinal) :
    writesOn path (sortSteps steps) = writesOn path steps := by
  have hsorted : (writesOn path steps).Pairwise fun a b ↦ stepBefore b a = false := by
    refine h.imp_of_mem fun {a b} ha hb hle ↦ ?_
    obtain ⟨-, haction, hpath⟩ := mem_writesOn.mp ha
    obtain ⟨-, haction', hpath'⟩ := mem_writesOn.mp hb
    rw [not_stepBefore_iff, stepCmp]
    rcases hle.lt_or_eq with hlt | heq
    · rw [Nat.compare_eq_lt.mpr hlt]
      rfl
    · simp [heq, PlanStep.rank, PlanStep.isDirectory, haction, haction', hpath, hpath',
        ReflCmp.compare_self]
  have hsub := (List.sublist_insertionSort hsorted List.filter_sublist).filter
    fun step ↦ step.action = .writeFile ∧ step.path = path
  rw [writesOn, List.filter_filter] at hsub
  simp only [Bool.and_self] at hsub
  exact (hsub.eq_of_length ((sortSteps_perm steps).filter _).length_eq.symm).symm

variable {set : ResolvedSet} {config : Value} {engineVersion : Version}
  {diagnostics : List Diagnostic} {plan : GenerationPlan} {parameters : Value}
  {workingDirectory : Bytes} {payload : Payload}
  {planned : List (PlanStep × List Diagnostic)} {p : PlanStep × List Diagnostic}

theorem planned_phase (h : payload.planned parameters workingDirectory = some p) :
    p.1.phase = payload.contribution.phase := by
  obtain ⟨path, bytes, content, -, -, -, -, hstep⟩ := planned_eq_some h
  rw [hstep]
  rfl

theorem contributions_phases (set : ResolvedSet) :
    set.contributions.Pairwise fun a b ↦ a.phase.ordinal ≤ b.phase.ordinal := by
  have hconst : ∀ (resources : List ResolvedResource) (phase : GenerationPhase),
      (resources.map fun resource ↦ (⟨resource, phase⟩ : Contribution)).Pairwise
        fun a b ↦ a.phase.ordinal ≤ b.phase.ordinal := by
    intro resources phase
    rw [List.pairwise_map]
    exact List.pairwise_of_forall fun _ _ ↦ le_rfl
  refine List.pairwise_append.mpr ⟨?_, hconst _ _, ?_⟩
  · refine List.pairwise_cons.mpr ⟨?_, hconst _ _⟩
    simp [GenerationPhase.ordinal]
  · simp [GenerationPhase.ordinal]

theorem payloads_phases (set : ResolvedSet) :
    set.payloads.Pairwise fun a b ↦
      a.contribution.phase.ordinal ≤ b.contribution.phase.ordinal := by
  refine List.pairwise_flatMap.mpr ⟨fun contribution _ ↦ ?_, ?_⟩
  · rw [Contribution.payloads, List.pairwise_map]
    exact List.pairwise_of_forall fun _ _ ↦ le_rfl
  · refine (contributions_phases set).imp fun {a b} hle x hx y hy ↦ ?_
    obtain ⟨_, -, rfl⟩ := List.mem_map.mp hx
    obtain ⟨_, -, rfl⟩ := List.mem_map.mp hy
    exact hle

theorem pairwise_of_forall₂ {α β : Type} {R : α → β → Prop} {S : α → α → Prop} {T : β → β → Prop}
    {as : List α} {bs : List β} (h : List.Forall₂ R as bs) (hS : as.Pairwise S)
    (hT : ∀ a a' b b', S a a' → R a b → R a' b' → T b b') : bs.Pairwise T := by
  induction h with
  | nil => exact .nil
  | cons hab hrest ih =>
    obtain ⟨hfirst, hS⟩ := List.pairwise_cons.mp hS
    refine .cons (forall_of_forall₂ hrest fun a' ha' b' hb' ↦ ?_) (ih hS)
    exact hT _ _ _ _ (hfirst a' ha') hab hb'

namespace Planned

theorem phases (h : Planned set config engineVersion planned) :
    (planned.map Prod.fst).Pairwise fun a b ↦ a.phase.ordinal ≤ b.phase.ordinal := by
  rw [List.pairwise_map]
  refine pairwise_of_forall₂ h.each (payloads_phases set) fun a a' b b' hle hb hb' ↦ ?_
  rwa [planned_phase hb, planned_phase hb']

theorem writesOn_plan (h : Planned set config engineVersion planned)
    (diagnostics : List Diagnostic) (path : Bytes) :
    writesOn path (sortSteps (gathered set diagnostics planned)) =
      writesOn path (planned.map Prod.fst) := by
  have hgathered : writesOn path (gathered set diagnostics planned) =
      writesOn path (planned.map Prod.fst) := by
    rw [writesOn_eq, writeSteps_gathered, ← writesOn_eq]
  rw [writesOn_sortSteps, hgathered]
  rw [hgathered]
  exact h.phases.sublist List.filter_sublist

theorem last_claimant (h : Planned set config engineVersion planned) {before after : List Payload}
    {last : Payload} (hsplit : set.payloads = before ++ last :: after)
    (hlast : last.path (set.parameters config engineVersion) = some path)
    (hafter : ∀ later ∈ after, later.path (set.parameters config engineVersion) ≠ some path) :
    ∃ step, Materializes (set.parameters config engineVersion) last step ∧
      (writesOn path (planned.map Prod.fst)).getLast? = some step := by
  have hdrop := List.forall₂_drop before.length h.each
  rw [hsplit, List.drop_left] at hdrop
  obtain ⟨p, ps, hp, hps, hsuffix⟩ := List.forall₂_cons_left_iff.mp hdrop
  have hmaterial := planned_materializes (h.known_payload (by simp [hsplit])) hp
  have hpath : p.1.path = path := Option.some.inj ((planned_path hp).symm.trans hlast)
  have hlater : writesOn path (ps.map Prod.fst) = [] := by
    refine List.filter_eq_nil_iff.mpr fun step hstep ↦ ?_
    obtain ⟨q, hq, rfl⟩ := List.mem_map.mp hstep
    have hne : ∀ q ∈ ps, q.1.path ≠ path := forall_of_forall₂ hps fun later hin q hq heq ↦
      hafter later hin (heq ▸ planned_path hq)
    simp [hne q hq]
  have hsteps : writesOn path (planned.map Prod.fst) =
      writesOn path ((planned.take before.length).map Prod.fst) ++ [p.1] := by
    have hsplit' : planned = planned.take before.length ++ ([p] ++ ps) := by
      rw [List.singleton_append, ← hsuffix, List.take_append_drop]
    have hwrites : writesOn path [p.1] = [p.1] := by
      simp [writesOn, hmaterial.action, hpath]
    have hall := congrArg (fun ps ↦ writesOn path (ps.map Prod.fst)) hsplit'
    simpa only [List.map_append, List.map_cons, List.map_nil, writesOn_append, hwrites, hlater,
      List.append_nil] using hall
  exact ⟨p.1, hmaterial, by rw [hsteps, List.getLast?_concat]⟩

end Planned

theorem writesAt_eq_writesOn (h : buildPlan set config engineVersion diagnostics = .ok plan)
    (hin : ∃ step ∈ plan.steps, step.path = path) :
    writesAt plan.steps (splitPath path) = writesOn path plan.steps := by
  have hinside := TransactionService.inside_of_buildPlan h
  have hactions := (buildPlan_covers h).2.actions
  obtain ⟨step, hstep, rfl⟩ := hin
  refine List.filter_congr fun other hother ↦ ?_
  have haction : other.isDirectory = false ↔ other.action = .writeFile := by
    rcases hactions other hother with hw | hd
    · simp [PlanStep.isDirectory, hw]
    · simp [PlanStep.isDirectory, hd]
  have hpath : other.location = splitPath step.path ↔ other.path = step.path := by
    refine ⟨fun heq ↦ ?_, congrArg splitPath⟩
    rw [← (hinside other hother).joined, ← (hinside step hstep).joined]
    exact congrArg joinPath heq
  simp only [haction, hpath]

/-- Every claimant of a path but the first overrides it, and the last one's step is the last that
writes it: applied in their order, the steps leave the last claimant's content. -/
theorem last_claimant_wins (h : buildPlan set config engineVersion diagnostics = .ok plan) :
    set.payloads.Pairwise (GivesWay (set.parameters config engineVersion)) ∧
      ∀ before last after path, set.payloads = before ++ last :: after →
        last.path (set.parameters config engineVersion) = some path →
        (∀ later ∈ after, later.path (set.parameters config engineVersion) ≠ some path) →
          ∃ step, Materializes (set.parameters config engineVersion) last step ∧
            (writesOn path plan.steps).getLast? = some step ∧
            ∀ f g, f [] = some .dir → plan.steps.foldlM stepLayout f = some g →
              (g.fileAt (splitPath path)).map FileData.content = some step.content := by
  obtain ⟨planned, hplanned, hsteps⟩ := buildPlan_planned h
  refine ⟨hplanned.givesWay, fun before last after path hsplit hlast hafter ↦ ?_⟩
  obtain ⟨step, hmaterial, hwrites⟩ := hplanned.last_claimant hsplit hlast hafter
  rw [← hplanned.writesOn_plan diagnostics, ← hsteps] at hwrites
  refine ⟨step, hmaterial, hwrites, fun f g hroot hlayout ↦ ?_⟩
  obtain ⟨hmem, -, hpath⟩ := mem_writesOn.mp (List.mem_of_getLast? hwrites)
  rw [← writesAt_eq_writesOn h ⟨step, hmem, hpath⟩] at hwrites
  obtain ⟨data, hdata, hcontent⟩ := content_fileOver (f.fileAt (splitPath path)) hwrites
  rw [layout_of_steps hroot hlayout, fileAt_layoutOver, hdata, Option.map_some, hcontent]

theorem overriding_kit_wins : ∃ plan step,
    buildPlan TransactionService.overridingSet .null {} [] = .ok plan ∧
    (writesOn (ascii "a") plan.steps).getLast? = some step ∧ step.origin = previewedKit ∧
      ∀ f g, f [] = some .dir → plan.steps.foldlM stepLayout f = some g →
        (g.fileAt [ascii "a"]).map FileData.content = some step.content := by
  obtain ⟨plan, hplan⟩ := exists_ok (x := buildPlan TransactionService.overridingSet .null {} [])
    (by decide +kernel)
  obtain ⟨-, hlast⟩ := last_claimant_wins hplan
  obtain ⟨step, hmaterial, hwrites, happly⟩ := hlast
    [⟨⟨TransactionService.overridingSet.projectTemplate, .templateInstantiate⟩, ascii "a"⟩]
    ⟨⟨sampleKit "\x7b\"overrides\":[\"a\"]\x7d" ["a"], .kitApply⟩, ascii "a"⟩ [] (ascii "a") rfl
    (by decide +kernel) (by simp)
  exact ⟨plan, step, hplan, hwrites, hmaterial.origin, happly⟩

end SquaredPg
