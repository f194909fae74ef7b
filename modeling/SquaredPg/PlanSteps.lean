import SquaredPg.Lists
import SquaredPg.PlanProperties

namespace SquaredPg

open Ascii Fallible

def Ships (resource : ResolvedResource) (entry : Bytes) : Prop :=
  ¬ metaDir <+: entry ∧ resource.treePrefix <+: entry ∧ entry ≠ resource.treePrefix ∧
    entry.getLast? ≠ some slash

instance (resource : ResolvedResource) : DecidablePred (Ships resource) := fun entry ↦ by
  unfold Ships
  infer_instance

structure Payload where
  contribution : Contribution
  entry : Bytes

def Contribution.payloads (contribution : Contribution) : List Payload :=
  (contribution.resource.cartridge.entries.filter fun entry ↦ Ships contribution.resource entry).map
    fun entry ↦ ⟨contribution, entry⟩

/-- The payload of a set in the order of contribution: by resource, and in cartridge order. -/
def ResolvedSet.payloads (set : ResolvedSet) : List Payload :=
  set.contributions.flatMap Contribution.payloads

def KnownProcessor (resource : ResolvedResource) : Prop :=
  (contributionPolicy resource).processor = ascii "copy" ∨
    (contributionPolicy resource).processor = ascii "substitute"

instance : DecidablePred KnownProcessor := fun resource ↦ by
  unfold KnownProcessor
  infer_instance

namespace Payload

def resource (payload : Payload) : ResolvedResource := payload.contribution.resource

def relative (payload : Payload) : Bytes :=
  payload.entry.drop payload.resource.treePrefix.length

def overrides (payload : Payload) : List Bytes := (contributionPolicy payload.resource).overrides

/-- The workspace path, where the name's parameters are all bound. -/
def path (parameters : Value) (payload : Payload) : Option Bytes :=
  (substitute payload.relative parameters payload.entry).toOption.map normalizeRelative

/-- The step of a payload and the remarks on it, unless one of its own checks fails. -/
def planned (parameters : Value) (workingDirectory : Bytes) (payload : Payload) :
    Option (PlanStep × List Diagnostic) := do
  let policy := contributionPolicy payload.resource
  let path ← payload.path parameters
  let bytes ← (payload.resource.cartridge.read payload.entry).toOption
  let content ← (payloadContent payload.resource policy parameters payload.entry bytes).toOption
  let classified := classifyPath payload.resource.ownership path
  if path = [] ∨
      (classified.1 = .generated ∧ workingDirectory ≠ [] ∧ liesUnder workingDirectory path) then none
  else
    some (payloadStep payload.contribution policy classified.1 payload.entry path content,
      copyDiagnostics payload.resource policy path bytes ++ classified.2)

end Payload

def addPlanned (draft : Draft) (planned : PlanStep × List Diagnostic) : Draft :=
  addPayload { draft with diagnostics := draft.diagnostics ++ planned.2 } planned.1

def addIfFree (parameters : Value) (workingDirectory : Bytes) (draft : Draft) (payload : Payload) :
    Option Draft := do
  let planned ← payload.planned parameters workingDirectory
  if planned.1.path ∈ draft.claimed.map Prod.fst ∧ planned.1.path ∉ payload.overrides then none
  else some (addPlanned draft planned)

variable {parameters : Value} {workingDirectory : Bytes} {draft draft' : Draft} {entry : Bytes}
  {contribution : Contribution} {payload : Payload}

theorem payloadName_eq (resource : ResolvedResource) (entry : Bytes) :
    payloadName resource entry =
      if Ships resource entry then some (entry.drop resource.treePrefix.length) else none := by
  have hroot : (resource.treePrefix ≠ [] ∧ !resource.treePrefix.isPrefixOf entry) ↔
      ¬ resource.treePrefix <+: entry := by
    rw [← List.isPrefixOf_iff_prefix]
    by_cases hnil : resource.treePrefix = []
    · simp [hnil]
    · simp [hnil, Bool.eq_false_iff]
  unfold payloadName Ships
  simp only [hroot, List.isPrefixOf_iff_prefix]
  by_cases hmeta : metaDir <+: entry
  · simp [hmeta]
  by_cases hp : resource.treePrefix <+: entry
  · obtain ⟨rest, rfl⟩ := hp
    by_cases hrest : rest = []
    · simp [hrest]
    · simp [hmeta, hrest]
  · simp [hmeta, hp]

theorem mem_claimed_iff {path : Bytes} :
    path ∈ draft.claimed.map Prod.fst ↔ draft.claimed.lookup path ≠ none := by
  rw [Ne, List.lookup_eq_none_iff]
  simp

theorem refuseIf_toOption {p : Prop} [Decidable p] {failure : Failure} :
    (refuseIf p failure).toOption = if p then none else some () := by
  unfold refuseIf
  split_ifs <;> rfl

theorem checkCollision_toOption (resource : ResolvedResource) (policy : Policy) (path : Bytes) :
    (checkCollision resource policy draft path).toOption =
      if path ∈ draft.claimed.map Prod.fst ∧ path ∉ policy.overrides then none else some () := by
  unfold checkCollision
  simp only [mem_claimed_iff]
  cases hfirst : draft.claimed.lookup path with
  | none => simp [Except.toOption]
  | some first => simp [refuseIf_toOption]

@[simp] theorem payloadStep_path (policy : Policy) (ownership : OwnershipClass)
    (entry path content : Bytes) :
    (payloadStep contribution policy ownership entry path content).path = path := rfl

theorem contributeEntry_toOption :
    (contributeEntry contribution (contributionPolicy contribution.resource) parameters
        workingDirectory draft entry).toOption =
      if Ships contribution.resource entry then
        addIfFree parameters workingDirectory draft ⟨contribution, entry⟩
      else some draft := by
  unfold contributeEntry
  rw [payloadName_eq]
  split_ifs with hships
  · simp only [contributePath, toOption_bind, toOption_mapError, refuseIf_toOption,
      checkCollision_toOption, addIfFree, Payload.planned, Payload.path, Payload.relative,
      Payload.resource, Payload.overrides]
    cases (substitute (entry.drop contribution.resource.treePrefix.length) parameters entry).toOption
    · rfl
    · rename_i text
      by_cases hpath : normalizeRelative text = []
      · simp [hpath]
      · cases (contribution.resource.cartridge.read entry).toOption
        · simp
        · rename_i bytes
          cases hcontent : (payloadContent contribution.resource
            (contributionPolicy contribution.resource) parameters entry bytes).toOption
          · simp [hcontent]
          · by_cases hgen : (classifyPath contribution.resource.ownership
                (normalizeRelative text)).1 = .generated ∧ workingDirectory ≠ [] ∧
                  liesUnder workingDirectory (normalizeRelative text) = true
            · simp [hcontent, hpath, hgen]
            · simp only [hcontent, hpath, hgen, Option.bind_eq_bind, Option.bind_some, ↓reduceIte,
                Option.map_some, or_self, payloadStep_path]
              by_cases htaken : normalizeRelative text ∈ draft.claimed.map Prod.fst ∧
                  normalizeRelative text ∉ (contributionPolicy contribution.resource).overrides
              · rw [if_pos htaken]
                exact (if_pos htaken).symm
              · simp only [if_neg htaken, Option.bind_some, addPlanned, Except.toOption, pure,
                  Except.pure, List.append_assoc]
                exact (if_neg htaken).symm
  · rfl

theorem contribute_toOption :
    (contribute parameters workingDirectory draft contribution).toOption =
      if KnownProcessor contribution.resource then
        contribution.payloads.foldlM (addIfFree parameters workingDirectory) draft
      else none := by
  have hentries : ∀ (entries : List Bytes) (draft : Draft),
      entries.foldlM (fun draft entry ↦
          if Ships contribution.resource entry then
            addIfFree parameters workingDirectory draft ⟨contribution, entry⟩
          else some draft) draft =
        ((entries.filter fun entry ↦ Ships contribution.resource entry).map
          fun entry ↦ (⟨contribution, entry⟩ : Payload)).foldlM
            (addIfFree parameters workingDirectory) draft := by
    intro entries
    induction entries with
    | nil => exact fun draft ↦ rfl
    | cons entry entries ih =>
      intro draft
      by_cases hships : Ships contribution.resource entry
      · simp [hships, ih]
      · simp [hships, ih]
  unfold contribute
  dsimp only
  by_cases hknown : KnownProcessor contribution.resource
  · rw [if_pos hknown, if_neg fun hno ↦ hknown.elim hno.1 hno.2, toOption_foldlM]
    simp only [contributeEntry_toOption]
    exact hentries _ draft
  · rw [if_neg hknown, if_pos (not_or.mp hknown)]
    rfl

theorem contributions_toOption (contributions : List Contribution) (draft : Draft) :
    (contributions.foldlM (contribute parameters workingDirectory) draft).toOption =
      if ∀ contribution ∈ contributions, KnownProcessor contribution.resource then
        (contributions.flatMap Contribution.payloads).foldlM
          (addIfFree parameters workingDirectory) draft
      else none := by
  induction contributions generalizing draft with
  | nil => rfl
  | cons contribution contributions ih =>
    rw [List.foldlM_cons, toOption_bind, contribute_toOption]
    simp only [ih]
    by_cases hknown : KnownProcessor contribution.resource
    · by_cases hrest : ∀ contribution ∈ contributions, KnownProcessor contribution.resource
      · have hall : ∀ c ∈ contribution :: contributions, KnownProcessor c.resource :=
          List.forall_mem_cons.mpr ⟨hknown, hrest⟩
        rw [if_pos hknown, if_pos hall, List.flatMap_cons, List.foldlM_append]
        simp only [if_pos hrest]
        rfl
      · have hall : ¬ ∀ c ∈ contribution :: contributions, KnownProcessor c.resource :=
          fun h ↦ hrest (List.forall_mem_cons.mp h).2
        rw [if_pos hknown, if_neg hall]
        simp only [if_neg hrest, Option.bind_fun_none]
    · have hall : ¬ ∀ c ∈ contribution :: contributions, KnownProcessor c.resource :=
        fun h ↦ hknown (List.forall_mem_cons.mp h).1
      rw [if_neg hknown, if_neg hall]
      rfl

/-- Of two entries with one path the later one may take the place of the earlier. -/
def GivesWay (parameters : Value) (earlier later : Payload) : Prop :=
  ∀ path, earlier.path parameters = some path → later.path parameters = some path →
    path ∈ later.overrides

theorem planned_eq_some {planned : PlanStep × List Diagnostic}
    (h : payload.planned parameters workingDirectory = some planned) :
    ∃ path bytes content, payload.path parameters = some path ∧ path ≠ [] ∧
      payload.resource.cartridge.read payload.entry = .ok bytes ∧
      payloadContent payload.resource (contributionPolicy payload.resource) parameters
        payload.entry bytes = .ok content ∧
      planned.1 = payloadStep payload.contribution (contributionPolicy payload.resource)
        (classifyPath payload.resource.ownership path).1 payload.entry path content := by
  simp only [Payload.planned, Option.bind_eq_bind, Option.bind_eq_some_iff, toOption_eq_some] at h
  obtain ⟨path, hpath, bytes, hbytes, content, hcontent, hplanned⟩ := h
  split_ifs at hplanned with hno
  obtain rfl := Option.some.inj hplanned
  exact ⟨path, bytes, content, hpath, (not_or.mp hno).1, hbytes, hcontent, rfl⟩

theorem planned_path {planned : PlanStep × List Diagnostic}
    (h : payload.planned parameters workingDirectory = some planned) :
    payload.path parameters = some planned.1.path := by
  obtain ⟨path, bytes, content, hpath, -, -, -, hstep⟩ := planned_eq_some h
  rw [hpath, hstep, payloadStep_path]

theorem claimDirectories_claimed (draft : Draft) (path : Bytes) (phase : GenerationPhase) :
    (claimDirectories draft path phase).claimed = draft.claimed := by
  unfold claimDirectories
  induction ancestorDirectories path generalizing draft with
  | nil => rfl
  | cons directory rest ih =>
    rw [List.foldl_cons, ih]
    unfold claimDirectory
    split_ifs <;> rfl

theorem addPlanned_claimed (planned : PlanStep × List Diagnostic) :
    (addPlanned draft planned).claimed.map Prod.fst =
      planned.1.path :: draft.claimed.map Prod.fst := by
  simp [addPlanned, addPayload, claimDirectories_claimed]

theorem payloads_foldlM (payloads : List Payload) (start : Draft) :
    payloads.foldlM (addIfFree parameters workingDirectory) start = some draft ↔
      ∃ planned, List.Forall₂ (fun payload p ↦
          payload.planned parameters workingDirectory = some p) payloads planned ∧
        payloads.Pairwise (GivesWay parameters) ∧
        (∀ payload ∈ payloads, ∀ path ∈ start.claimed.map Prod.fst,
          payload.path parameters = some path → path ∈ payload.overrides) ∧
        draft = planned.foldl addPlanned start := by
  induction payloads generalizing start with
  | nil => simp [eq_comm]
  | cons payload payloads ih =>
    rw [List.foldlM_cons]
    cases hplanned : payload.planned parameters workingDirectory with
    | none => simp [addIfFree, hplanned, List.forall₂_cons_left_iff]
    | some planned =>
      have hpath := planned_path hplanned
      simp only [addIfFree, hplanned, Option.bind_eq_bind, Option.bind_some]
      split_ifs with htaken
      · refine iff_of_false nofun ?_
        rintro ⟨ps, -, -, hstart, -⟩
        exact htaken.2 (hstart payload (by simp) _ htaken.1 hpath)
      · have hgives : (∀ later ∈ payloads, ∀ path ∈ (addPlanned start planned).claimed.map Prod.fst,
            later.path parameters = some path → path ∈ later.overrides) ↔
            (∀ later ∈ payloads, GivesWay parameters payload later) ∧
              ∀ later ∈ payloads, ∀ path ∈ start.claimed.map Prod.fst,
                later.path parameters = some path → path ∈ later.overrides := by
          simp only [addPlanned_claimed, List.forall_mem_cons, GivesWay, hpath, Option.some.injEq,
            forall_eq']
          exact forall₂_and
        rw [Option.bind_some, ih, hgives]
        constructor
        · rintro ⟨ps, hps, hpairs, ⟨hfirst, hstart⟩, rfl⟩
          refine ⟨planned :: ps, .cons hplanned hps, .cons hfirst hpairs, ?_, rfl⟩
          refine List.forall_mem_cons.mpr ⟨fun path hin heq ↦ ?_, hstart⟩
          obtain rfl : planned.1.path = path := Option.some.inj (hpath.symm.trans heq)
          exact not_not.mp fun hno ↦ htaken ⟨hin, hno⟩
        · rintro ⟨all, hall, hpairs, hstart, rfl⟩
          obtain ⟨p, ps, hp, hps, rfl⟩ := List.forall₂_cons_left_iff.mp hall
          obtain rfl : planned = p := Option.some.inj (hplanned.symm.trans hp)
          obtain ⟨hfirst, hpairs⟩ := List.pairwise_cons.mp hpairs
          exact ⟨ps, hps, hpairs, ⟨hfirst, (List.forall_mem_cons.mp hstart).2⟩, rfl⟩

variable {set : ResolvedSet} {config : Value} {engineVersion : Version}
  {diagnostics : List Diagnostic} {plan : GenerationPlan}
  {planned : List (PlanStep × List Diagnostic)}

/-- What the builder has planned for the payload of a set, when it accepts the set. -/
structure Planned (set : ResolvedSet) (config : Value) (engineVersion : Version)
    (planned : List (PlanStep × List Diagnostic)) : Prop where
  known : ∀ contribution ∈ set.contributions, KnownProcessor contribution.resource
  each : List.Forall₂ (fun payload p ↦
    payload.planned (set.parameters config engineVersion)
      (SquaredPg.workingDirectory set.projectTemplate) = some p) set.payloads planned
  givesWay : set.payloads.Pairwise (GivesWay (set.parameters config engineVersion))

theorem contributions_eq_ok :
    set.contributions.foldlM (contribute (set.parameters config engineVersion)
        (SquaredPg.workingDirectory set.projectTemplate)) { diagnostics } = .ok draft ↔
      ∃ planned, Planned set config engineVersion planned ∧
        draft = planned.foldl addPlanned { diagnostics } := by
  rw [← toOption_eq_some, contributions_toOption]
  split_ifs with hknown
  · rw [payloads_foldlM]
    constructor
    · rintro ⟨planned, heach, hgives, -, hdraft⟩
      exact ⟨planned, ⟨hknown, heach, hgives⟩, hdraft⟩
    · rintro ⟨planned, h, hdraft⟩
      exact ⟨planned, h.each, h.givesWay, by simp, hdraft⟩
  · exact iff_of_false nofun fun ⟨_, h, _⟩ ↦ hknown h.known

def gathered (set : ResolvedSet) (diagnostics : List Diagnostic)
    (planned : List (PlanStep × List Diagnostic)) : List PlanStep :=
  addWorkingDirectory (SquaredPg.workingDirectory set.projectTemplate)
    (planned.foldl addPlanned { diagnostics })

theorem buildPlan_planned (h : buildPlan set config engineVersion diagnostics = .ok plan) :
    ∃ planned, Planned set config engineVersion planned ∧
      plan.steps = sortSteps (gathered set diagnostics planned) := by
  simp only [buildPlan, bind_eq_ok, pure, Except.pure, Except.ok.injEq] at h
  obtain ⟨draft, hdraft, rfl⟩ := h
  obtain ⟨planned, hplanned, rfl⟩ := contributions_eq_ok.mp hdraft
  exact ⟨planned, hplanned, rfl⟩

theorem exists_plan_iff : (∃ plan, buildPlan set config engineVersion diagnostics = .ok plan) ↔
    ∃ planned, Planned set config engineVersion planned := by
  constructor
  · rintro ⟨plan, h⟩
    obtain ⟨planned, hplanned, -⟩ := buildPlan_planned h
    exact ⟨planned, hplanned⟩
  · rintro ⟨planned, hplanned⟩
    have hdraft : set.contributions.foldlM (contribute (set.parameters config engineVersion)
        (SquaredPg.workingDirectory set.projectTemplate)) { diagnostics } =
          .ok (planned.foldl addPlanned { diagnostics }) :=
      contributions_eq_ok.mpr ⟨planned, hplanned, rfl⟩
    simp only [buildPlan, hdraft]
    exact ⟨_, rfl⟩

def writeSteps (steps : List PlanStep) : List PlanStep :=
  steps.filter fun step ↦ step.action = .writeFile

theorem writeSteps_append (steps steps' : List PlanStep) :
    writeSteps (steps ++ steps') = writeSteps steps ++ writeSteps steps' := List.filter_append ..

@[simp] theorem writeSteps_directories (phase : GenerationPhase) (directories : List Bytes) :
    writeSteps (directories.map (directoryStep phase)) = [] := by
  simp [writeSteps, directoryStep]

theorem addPlanned_steps (draft : Draft) (planned : PlanStep × List Diagnostic) :
    ∃ new, (addPlanned draft planned).steps =
        draft.steps ++ new.map (directoryStep planned.1.phase) ++ [planned.1] ∧
      (addPlanned draft planned).directories = new.reverse ++ draft.directories ∧
      ∀ d, d ∈ new ++ draft.directories ↔
        d ∈ ancestorDirectories planned.1.path ∨ d ∈ draft.directories := by
  obtain ⟨new, hsteps, hdirs, hmem⟩ := claimDirectories_steps
    { draft with diagnostics := draft.diagnostics ++ planned.2 } planned.1.path planned.1.phase
  exact ⟨new, by simp [addPlanned, addPayload, hsteps], by simp [addPlanned, addPayload, hdirs], hmem⟩

theorem writeSteps_foldl (planned : List (PlanStep × List Diagnostic)) (draft : Draft) :
    writeSteps (planned.foldl addPlanned draft).steps =
      writeSteps draft.steps ++ writeSteps (planned.map Prod.fst) := by
  induction planned generalizing draft with
  | nil => simp [writeSteps]
  | cons p planned ih =>
    obtain ⟨new, hsteps, -⟩ := addPlanned_steps draft p
    rw [List.foldl_cons, ih, hsteps, List.map_cons]
    simp only [writeSteps_append, writeSteps_directories, List.append_nil]
    rw [List.append_assoc, ← writeSteps_append, List.singleton_append]

theorem writeSteps_gathered (planned : List (PlanStep × List Diagnostic)) :
    writeSteps (gathered set diagnostics planned) = writeSteps (planned.map Prod.fst) := by
  have hfold := writeSteps_foldl planned { diagnostics }
  unfold gathered addWorkingDirectory
  split_ifs
  · simpa [writeSteps, directoryStep] using hfold
  · simpa [writeSteps] using hfold

/-- The step is the one that the payload entry calls for. -/
structure Materializes (parameters : Value) (payload : Payload) (step : PlanStep) : Prop where
  action : step.action = .writeFile
  path : ∃ text, substitute payload.relative parameters payload.entry = .ok text ∧
    step.path = normalizeRelative text
  origin : step.origin = payload.resource.id
  version : step.originVersion = payload.resource.version
  content : ∃ bytes, payload.resource.cartridge.read payload.entry = .ok bytes ∧
    if (contributionPolicy payload.resource).processor = ascii "copy" ∨ looksTextual bytes = false then
      step.content = bytes
    else substitute bytes parameters payload.entry = .ok step.content

theorem planned_materializes {planned : PlanStep × List Diagnostic}
    (hknown : KnownProcessor payload.resource)
    (h : payload.planned parameters workingDirectory = some planned) :
    Materializes parameters payload planned.1 := by
  obtain ⟨path, bytes, content, hpath, -, hbytes, hcontent, hstep⟩ := planned_eq_some h
  rw [hstep]
  obtain ⟨text, htext, rfl⟩ := Option.map_eq_some_iff.mp hpath
  refine ⟨rfl, ⟨text, toOption_eq_some.mp htext, rfl⟩, rfl, rfl, bytes, hbytes, ?_⟩
  have hcopy : ascii "copy" ≠ ascii "substitute" := by decide
  unfold payloadContent at hcontent
  by_cases hsubst : (contributionPolicy payload.resource).processor = ascii "substitute" ∧
      looksTextual bytes = true
  · rw [if_pos hsubst, mapError_eq_ok] at hcontent
    rw [if_neg]
    · exact hcontent
    · rw [hsubst.1, hsubst.2]
      exact fun h ↦ h.elim hcopy.symm nofun
  · rw [if_neg hsubst] at hcontent
    rw [if_pos]
    · exact (Except.ok.inj hcontent).symm
    · refine hknown.imp id fun hprocessor ↦ ?_
      simpa [hprocessor] using hsubst

namespace Planned

theorem known_payload (h : Planned set config engineVersion planned) (hin : payload ∈ set.payloads) :
    KnownProcessor payload.resource := by
  obtain ⟨contribution, hcontribution, hpayload⟩ := List.mem_flatMap.mp hin
  obtain ⟨entry, -, rfl⟩ := List.mem_map.mp hpayload
  exact h.known contribution hcontribution

theorem materializes (h : Planned set config engineVersion planned) :
    List.Forall₂ (Materializes (set.parameters config engineVersion)) set.payloads
      (planned.map Prod.fst) := by
  rw [List.forall₂_map_right_iff]
  have hknown := (List.forall₂_and_left _ _).mpr ⟨fun payload hin ↦ h.known_payload hin, h.each⟩
  exact hknown.imp fun payload p hp ↦ planned_materializes hp.1 hp.2

theorem writes (h : Planned set config engineVersion planned) :
    writeSteps (planned.map Prod.fst) = planned.map Prod.fst := by
  refine List.filter_eq_self.mpr fun step hstep ↦ ?_
  exact decide_eq_true (forall_of_forall₂ h.materializes (fun _ _ _ hm ↦ hm.action) step hstep)

end Planned

/-- The write steps of a plan are the payload entries of the set, each once and each as it is. -/
theorem plan_complete (h : buildPlan set config engineVersion diagnostics = .ok plan) :
    ∃ steps, (plan.steps.filter fun step ↦ step.action = .writeFile).Perm steps ∧
      List.Forall₂ (Materializes (set.parameters config engineVersion)) set.payloads steps := by
  obtain ⟨planned, hplanned, hsteps⟩ := buildPlan_planned h
  refine ⟨planned.map Prod.fst, ?_, hplanned.materializes⟩
  rw [hsteps, ← hplanned.writes, ← writeSteps_gathered planned]
  exact (sortSteps_perm (gathered set diagnostics planned)).filter _

theorem sharing_plan_complete : ∃ plan, buildPlan sharingSet .null {} [] = .ok plan ∧
    ∃ steps, (plan.steps.filter fun step ↦ step.action = .writeFile).Perm steps ∧
      List.Forall₂ (Materializes (sharingSet.parameters .null {})) sharingSet.payloads steps := by
  obtain ⟨plan, hplan⟩ := exists_ok (x := buildPlan sharingSet .null {} []) (by decide +kernel)
  exact ⟨plan, hplan, plan_complete hplan⟩

end SquaredPg
