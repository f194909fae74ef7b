import SquaredPg.PlanPaths

namespace SquaredPg

open Ascii Fallible

variable {set : ResolvedSet} {config : Value} {engineVersion : Version}
  {diagnostics : List Diagnostic} {plan : GenerationPlan} {path : Bytes}

/-- The path is one that `normalize_relative` returns. -/
def Normal (path : Bytes) : Prop := ∃ cs, cs ≠ [] ∧ Names cs ∧ path = joinPath cs

theorem Normal.ancestor {path d : Bytes} (h : Normal path) (hd : d ∈ ancestorDirectories path) :
    Normal d := by
  obtain ⟨cs, -, hcs, rfl⟩ := h
  obtain ⟨ds, hds, hp, -, rfl⟩ := hcs.mem_ancestorDirectories.mp hd
  exact ⟨ds, hds, hcs.shorten hp, rfl⟩

theorem names_of_claimed (h : buildPlan set config engineVersion diagnostics = .ok plan)
    (hpath : path ∈ claimedPaths set config engineVersion) : Normal path := by
  have hne := (buildPlan_covers h).2.nonempty path hpath
  obtain ⟨text, -, rfl⟩ := List.mem_map.mp hpath
  exact normalizeRelative_names hne

theorem names_workingDirectory {resource : ResolvedResource} (h : workingDirectory resource ≠ []) :
    Normal (workingDirectory resource) := by
  have hdefault : Normal (ascii "sq_app") := @normalizeRelative_names (ascii "sq_app") (by decide)
  unfold workingDirectory at h ⊢
  split at h
  · split_ifs at h ⊢
    · exact normalizeRelative_names h
    · exact hdefault
  · exact hdefault

theorem mem_writes (h : plan.Covers (claimedPaths set config engineVersion)) :
    (∃ step ∈ plan.steps, step.action = .writeFile ∧ step.path = path) ↔
      path ∈ claimedPaths set config engineVersion := by
  rw [← h.writes.mem_iff]
  simp [List.mem_map, List.mem_filter, and_assoc]

theorem normal_of_buildPlan (h : buildPlan set config engineVersion diagnostics = .ok plan) :
    ∀ step ∈ plan.steps, Normal step.path := by
  obtain ⟨hwd, hcovers⟩ := buildPlan_covers h
  intro step hstep
  rcases hcovers.actions step hstep with hwrite | hdir
  · exact names_of_claimed h ((mem_writes hcovers).mp ⟨step, hstep, hwrite, rfl⟩)
  · rcases (hcovers.directories step.path).mp ⟨step, hstep, hdir, rfl⟩ with ⟨q, hq, hd⟩ | ⟨hne, heq⟩
    · exact (names_of_claimed h hq).ancestor hd
    · rw [heq, hwd]
      exact names_workingDirectory (hwd ▸ hne)

/-- No file of the plan is one of its directories, or stands where a path needs a directory. -/
structure GenerationPlan.ClashFree (plan : GenerationPlan) : Prop where
  directories : ∀ step ∈ plan.steps, step.action = .writeFile →
    ∀ other ∈ plan.steps, other.action = .createDirectory → liesUnder step.path other.path = false
  files : ∀ step ∈ plan.steps, step.action = .writeFile →
    ∀ other ∈ plan.steps, other.action = .writeFile → ¬ (step.path ++ [slash]) <+: other.path

/-- No claimed path lies below another, and none is the working directory or an ancestor of it. -/
structure ClaimsApart (paths : List Bytes) (workingDirectory : Bytes) : Prop where
  below : ∀ p ∈ paths, ∀ q ∈ paths, ¬ (p ++ [slash]) <+: q
  above : workingDirectory ≠ [] → ∀ p ∈ paths, liesUnder p workingDirectory = false

theorem liesUnder_iff {directory : Bytes} :
    liesUnder directory path = true ↔ path = directory ∨ (directory ++ [slash]) <+: path := by
  simp [liesUnder]

theorem below_of_ancestor {p d q : Bytes} {ps qs : List Bytes} (hps : ps ≠ []) (hp : Names ps)
    (hq : Names qs) (hpj : p = joinPath ps) (hqj : q = joinPath qs)
    (hd : d ∈ ancestorDirectories q) (h : liesUnder p d = true) : (p ++ [slash]) <+: q := by
  subst hpj hqj
  obtain ⟨ds, -, hds, hproper, rfl⟩ := hq.mem_ancestorDirectories.mp hd
  have hpd := (hp.startsWith_iff (hq.shorten hds) hps).mp (liesUnder_iff.mp h)
  rcases (hp.startsWith_iff hq hps).mpr (hpd.trans hds) with heq | hbelow
  · have hqp := (hq.joinPath_inj hp).mp heq
    subst hqp
    exact absurd (hds.eq_of_length (Nat.le_antisymm hds.length_le hpd.length_le)) hproper
  · exact hbelow

/-- A plan is free of clashes exactly when the payload it was built from claims paths apart. -/
theorem clashFree_iff (h : buildPlan set config engineVersion diagnostics = .ok plan) :
    plan.ClashFree ↔ ClaimsApart (claimedPaths set config engineVersion)
      (workingDirectory set.projectTemplate) := by
  obtain ⟨hwd, hcovers⟩ := buildPlan_covers h
  constructor
  · intro hfree
    constructor
    · intro p hp q hq
      obtain ⟨step, hstep, haction, rfl⟩ := (mem_writes hcovers).mpr hp
      obtain ⟨other, hother, haction', rfl⟩ := (mem_writes hcovers).mpr hq
      exact hfree.files step hstep haction other hother haction'
    · intro hne p hp
      obtain ⟨step, hstep, haction, rfl⟩ := (mem_writes hcovers).mpr hp
      obtain ⟨other, hother, haction', hpath⟩ :=
        (hcovers.directories plan.workingDirectory).mpr (.inr ⟨hwd ▸ hne, rfl⟩)
      rw [← hwd, ← hpath]
      exact hfree.directories step hstep haction other hother haction'
  · intro hapart
    constructor
    · intro step hstep haction other hother haction'
      have hp := (mem_writes hcovers).mp ⟨step, hstep, haction, rfl⟩
      rcases (hcovers.directories other.path).mp ⟨other, hother, haction', rfl⟩ with
        ⟨q, hq, hd⟩ | ⟨hne, heq⟩
      · obtain ⟨ps, hps, hpn, hpj⟩ := names_of_claimed h hp
        obtain ⟨qs, -, hqn, hqj⟩ := names_of_claimed h hq
        by_contra hlies
        rw [Bool.not_eq_false] at hlies
        exact hapart.below _ hp q hq (below_of_ancestor hps hpn hqn hpj hqj hd hlies)
      · rw [heq, hwd]
        exact hapart.above (hwd ▸ hne) _ hp
    · intro step hstep haction other hother haction'
      exact hapart.below _ ((mem_writes hcovers).mp ⟨step, hstep, haction, rfl⟩) _
        ((mem_writes hcovers).mp ⟨other, hother, haction', rfl⟩)

def sampleResource (id : ResourceId) (kind : ResourceKind) (text : String) (names : List String) :
    ResolvedResource :=
  { record := { id, kind, version := {}, location := [] }
    cartridge :=
      { manifest := { tree := ascii ".", consumer := fun _ ↦ some (ascii text) }
        entries := names.map ascii
        read := fun _ ↦ .ok [] } }

def sampleTemplate (text : String) (names : List String) : ResolvedResource :=
  sampleResource ⟨ascii "template.sample", .inr (by decide)⟩ .projectTemplate text names

def sampleKit (text : String) (names : List String) : ResolvedResource :=
  sampleResource previewedKit .kit text names

def sharingSet : ResolvedSet :=
  { projectTemplate := sampleTemplate "\x7b\x7d" ["a/b"]
    kits := [sampleKit "\x7b\x7d" ["a/c"]] }

def clashingSet : ResolvedSet :=
  { projectTemplate := sampleTemplate "\x7b\x7d" ["a"]
    kits := [sampleKit "\x7b\x7d" ["a/b"]] }

theorem sharing_clashFree_iff : ∃ plan, buildPlan sharingSet .null {} [] = .ok plan ∧
    (plan.ClashFree ↔ ClaimsApart (claimedPaths sharingSet .null {})
      (workingDirectory sharingSet.projectTemplate)) := by
  obtain ⟨plan, hplan⟩ := exists_ok (x := buildPlan sharingSet .null {} []) (by decide +kernel)
  exact ⟨plan, hplan, clashFree_iff hplan⟩

theorem clashing_plan : ∃ plan, buildPlan clashingSet .null {} [] = .ok plan ∧
    ¬ plan.ClashFree := by
  obtain ⟨plan, hplan⟩ := exists_ok (x := buildPlan clashingSet .null {} []) (by decide +kernel)
  refine ⟨plan, hplan, fun hfree ↦ ?_⟩
  have hcovers := (buildPlan_covers hplan).2
  have ha : ascii "a" ∈ claimedPaths clashingSet .null {} := by decide +kernel
  have hb : ascii "a/b" ∈ claimedPaths clashingSet .null {} := by decide +kernel
  obtain ⟨step, hstep, haction, hpath⟩ := (mem_writes hcovers).mpr ha
  obtain ⟨other, hother, haction', hpath'⟩ := (mem_writes hcovers).mpr hb
  refine hfree.files step hstep haction other hother haction' ?_
  rw [hpath, hpath']
  decide

/-- The working directory is designated, planned, and holds no file the generator may overwrite. -/
structure GenerationPlan.DesignatesWorkingDirectory (plan : GenerationPlan) : Prop where
  nonempty : plan.workingDirectory ≠ []
  normalised : normalizeRelative plan.workingDirectory = plan.workingDirectory
  planned : ∃ step ∈ plan.steps, step.action = .createDirectory ∧
    step.path = plan.workingDirectory
  owned : ∀ step ∈ plan.steps, step.action = .writeFile →
    liesUnder plan.workingDirectory step.path = true → step.ownership ≠ .generated

/-- The text names a path inside the workspace, in a form that stays what it is. -/
def NamesInside (text : Bytes) : Prop :=
  ¬ Refused text ∧ kept text ≠ [] ∧ StartsWithDrive (fun _ ↦ true) (kept text) = false

theorem namesInside_iff {text : Bytes} : NamesInside text ↔ normalizeRelative text ≠ [] ∧
    normalizeRelative (normalizeRelative text) = normalizeRelative text := by
  rw [normalizeRelative_fixpoint, Ne, normalizeRelative_eq_nil, not_or, HidesDrive, not_and,
    Bool.not_eq_true, NamesInside, and_assoc]
  constructor
  · rintro ⟨hr, hk, hd⟩
    exact ⟨hr, hk, fun _ ↦ hd⟩
  · rintro ⟨hr, hk, hd⟩
    exact ⟨hr, hk, hd hr⟩

def declaredWorkingDirectory (resource : ResolvedResource) : Option Bytes :=
  (manifestExtension resource.cartridge.manifest "working_directory").asString

theorem workingDirectory_normalised_iff {resource : ResolvedResource} :
    (workingDirectory resource ≠ [] ∧
      normalizeRelative (workingDirectory resource) = workingDirectory resource) ↔
      ∀ text, declaredWorkingDirectory resource = some text → text ≠ [] → NamesInside text := by
  have hdefault : ascii "sq_app" ≠ [] ∧ normalizeRelative (ascii "sq_app") = ascii "sq_app" := by
    decide
  unfold workingDirectory declaredWorkingDirectory
  split
  · rename_i text htext
    split_ifs with hne
    · rw [← namesInside_iff]
      constructor
      · intro h other hother _
        exact Option.some.inj (htext.symm.trans hother) ▸ h
      · exact fun h ↦ h text htext hne
    · refine iff_of_true hdefault fun other hother hone ↦ ?_
      exact absurd (Option.some.inj (htext.symm.trans hother) ▸ hone) hne
  · rename_i htext
    exact iff_of_true hdefault fun text h ↦ by simp [htext] at h

/-- A plan designates a working directory exactly when the manifest declares none, declares an
empty one, or names a path inside the workspace. -/
theorem designatesWorkingDirectory_iff
    (h : buildPlan set config engineVersion diagnostics = .ok plan) :
    plan.DesignatesWorkingDirectory ↔ ∀ text,
      declaredWorkingDirectory set.projectTemplate = some text → text ≠ [] → NamesInside text := by
  obtain ⟨hwd, hcovers⟩ := buildPlan_covers h
  rw [← workingDirectory_normalised_iff, ← hwd]
  constructor
  · exact fun hd ↦ ⟨hd.nonempty, hd.normalised⟩
  · rintro ⟨hne, hnorm⟩
    refine ⟨hne, hnorm, (hcovers.directories _).mpr (.inr ⟨hne, rfl⟩), ?_⟩
    intro step hstep haction hlies hgen
    exact absurd hlies (by simp [hcovers.ownership step hstep haction hgen hne])

theorem sharing_designates_iff : ∃ plan, buildPlan sharingSet .null {} [] = .ok plan ∧
    (plan.DesignatesWorkingDirectory ↔ ∀ text,
      declaredWorkingDirectory sharingSet.projectTemplate = some text → text ≠ [] →
        NamesInside text) := by
  obtain ⟨plan, hplan⟩ := exists_ok (x := buildPlan sharingSet .null {} []) (by decide +kernel)
  exact ⟨plan, hplan, designatesWorkingDirectory_iff hplan⟩

def dotSet : ResolvedSet :=
  { projectTemplate := sampleTemplate "\x7b\"working_directory\":\".\"\x7d" ["a"] }

theorem undesignated_plan : ∃ plan, buildPlan dotSet .null {} [] = .ok plan ∧
    ¬ plan.DesignatesWorkingDirectory := by
  obtain ⟨plan, hplan⟩ := exists_ok (x := buildPlan dotSet .null {} []) (by decide +kernel)
  refine ⟨plan, hplan, fun h ↦ h.nonempty ?_⟩
  have hnil : workingDirectory dotSet.projectTemplate = [] := by decide +kernel
  exact (buildPlan_covers hplan).1.trans hnil

theorem hidesDrive_letter (h : HidesDrive isLetter path) : HidesDrive (fun _ ↦ true) path := by
  refine ⟨h.1, ?_⟩
  have hdrive := h.2
  unfold StartsWithDrive at hdrive ⊢
  split at hdrive
  · simp only [Bool.and_eq_true] at hdrive
    simpa using hdrive.2
  · cases hdrive

theorem StartsWithDrive.shorten {cs ds : List Bytes} {drive : UInt8 → Bool} (hne : ds ≠ [])
    (hp : ds <+: cs) : StartsWithDrive drive ds = StartsWithDrive drive cs := by
  obtain ⟨es, rfl⟩ := hp
  obtain ⟨d, ds, rfl⟩ := List.exists_cons_of_ne_nil hne
  rcases d with _ | ⟨a, _ | ⟨b, d⟩⟩ <;> rfl

theorem confined_of_ancestor {cs : List Bytes} {d : Bytes} (h : Names cs) (hne : cs ≠ [])
    (hc : Confined (joinPath cs)) (hd : d ∈ ancestorDirectories (joinPath cs)) : Confined d := by
  obtain ⟨ds, hds, hp, -, rfl⟩ := h.mem_ancestorDirectories.mp hd
  rw [(h.shorten hp).confined_iff hds, StartsWithDrive.shorten hds hp]
  exact (h.confined_iff hne).mp hc

theorem not_hidesDrive_of_nil {text : Bytes} {drive : UInt8 → Bool}
    (h : normalizeRelative text = []) : ¬ HidesDrive drive text := by
  intro hd
  rcases normalizeRelative_eq_nil.mp h with hr | hk
  · exact hd.1 hr
  · simp [HidesDrive, hk, StartsWithDrive] at hd

/-- What `normalize_relative` promises about a text. -/
def ConfinedOrRefused (text : Bytes) : Prop :=
  normalizeRelative text = [] ∨ (Confined (normalizeRelative text) ∧
    normalizeRelative (normalizeRelative text) = normalizeRelative text)

theorem confinedOrRefused_iff (text : Bytes) :
    ConfinedOrRefused text ↔ ¬ HidesDrive (fun _ ↦ true) text := by
  by_cases hnil : normalizeRelative text = []
  · exact iff_of_true (.inl hnil) (not_hidesDrive_of_nil hnil)
  · unfold ConfinedOrRefused
    rw [normalizeRelative_confined hnil, normalizeRelative_fixpoint]
    constructor
    · rintro (h | h)
      · exact absurd h hnil
      · exact h.2
    · exact fun h ↦ .inr ⟨mt hidesDrive_letter h, h⟩

/-- The texts that decide where a plan writes: the payload's, and the declared working directory. -/
def pathTexts (set : ResolvedSet) (config : Value) (engineVersion : Version) : List Bytes :=
  payloadTexts set (set.parameters config engineVersion) ++
    (declaredWorkingDirectory set.projectTemplate).toList

theorem confined_workingDirectory {resource : ResolvedResource}
    (h : workingDirectory resource ≠ []) :
    Confined (workingDirectory resource) ↔ ∀ text ∈ declaredWorkingDirectory resource,
      ¬ HidesDrive isLetter text := by
  have hdefault : Confined (ascii "sq_app") :=
    (@normalizeRelative_confined (ascii "sq_app") (by decide)).mpr
      fun hd ↦ absurd hd.2 (by decide)
  unfold workingDirectory at h ⊢
  unfold declaredWorkingDirectory
  split at h
  · rename_i text htext
    simp only [htext, Option.mem_def, Option.some.injEq, forall_eq']
    split_ifs at h ⊢ with hne
    · exact normalizeRelative_confined h
    · refine iff_of_true hdefault fun hd ↦ ?_
      exact hd.1 (.inl (by simpa using hne))
  · rename_i htext
    exact iff_of_true hdefault (by simp [htext])

theorem declared_of_workingDirectory_nil {resource : ResolvedResource} {text : Bytes}
    (h : workingDirectory resource = []) (htext : declaredWorkingDirectory resource = some text) :
    normalizeRelative text = [] := by
  unfold declaredWorkingDirectory at htext
  unfold workingDirectory at h
  simp only [htext] at h
  split_ifs at h
  · exact h
  · exact absurd h (by decide)

theorem confined_of_texts (h : buildPlan set config engineVersion diagnostics = .ok plan)
    (htexts : ∀ text ∈ pathTexts set config engineVersion, ¬ HidesDrive isLetter text) :
    ∀ step ∈ plan.steps, Confined step.path := by
  obtain ⟨hwd, hcovers⟩ := buildPlan_covers h
  have hclaimed : ∀ path ∈ claimedPaths set config engineVersion, Confined path := by
    intro path hpath
    have hne := hcovers.nonempty path hpath
    obtain ⟨text, htext, rfl⟩ := List.mem_map.mp hpath
    exact (normalizeRelative_confined hne).mpr (htexts text (List.mem_append_left _ htext))
  intro step hstep
  rcases hcovers.actions step hstep with hwrite | hdir
  · exact hclaimed _ ((mem_writes hcovers).mp ⟨step, hstep, hwrite, rfl⟩)
  · rcases (hcovers.directories step.path).mp ⟨step, hstep, hdir, rfl⟩ with ⟨q, hq, hd⟩ | ⟨hne, heq⟩
    · obtain ⟨qs, hqs, hqn, rfl⟩ := names_of_claimed h hq
      exact confined_of_ancestor hqn hqs (hclaimed _ hq) hd
    · rw [heq, hwd]
      exact (confined_workingDirectory (hwd ▸ hne)).mpr fun text htext ↦
        htexts text (List.mem_append_right _ (by simpa using htext))

theorem texts_of_confined (h : buildPlan set config engineVersion diagnostics = .ok plan)
    (hsteps : ∀ step ∈ plan.steps, Confined step.path) :
    ∀ text ∈ pathTexts set config engineVersion, ¬ HidesDrive isLetter text := by
  obtain ⟨hwd, hcovers⟩ := buildPlan_covers h
  intro text htext
  rcases List.mem_append.mp htext with htext | htext
  · have hpath : normalizeRelative text ∈ claimedPaths set config engineVersion :=
      List.mem_map_of_mem htext
    obtain ⟨step, hstep, -, heq⟩ := (mem_writes hcovers).mpr hpath
    exact (normalizeRelative_confined (hcovers.nonempty _ hpath)).mp (heq ▸ hsteps step hstep)
  · have hdeclared : declaredWorkingDirectory set.projectTemplate = some text := by
      simpa using htext
    by_cases hnil : workingDirectory set.projectTemplate = []
    · exact not_hidesDrive_of_nil (declared_of_workingDirectory_nil hnil hdeclared)
    · obtain ⟨step, hstep, -, heq⟩ :=
        (hcovers.directories plan.workingDirectory).mpr (.inr ⟨hwd ▸ hnil, rfl⟩)
      exact (confined_workingDirectory hnil).mp (hwd ▸ heq ▸ hsteps step hstep) text hdeclared

/-- A text is confined or refused unless it hides a drive, and so is every path of a plan. -/
theorem confinement_iff (text : Bytes) :
    (ConfinedOrRefused text ↔ ¬ HidesDrive (fun _ ↦ true) text) ∧
    (normalizeRelative (normalizeRelative text) = normalizeRelative text ↔
      ¬ HidesDrive (fun _ ↦ true) text) ∧
    ∀ set config engineVersion diagnostics plan,
      buildPlan set config engineVersion diagnostics = .ok plan →
        ((∀ step ∈ plan.steps, Confined step.path) ↔
          ∀ text ∈ pathTexts set config engineVersion, ¬ HidesDrive isLetter text) :=
  ⟨confinedOrRefused_iff text, normalizeRelative_fixpoint,
    fun _ _ _ _ _ h ↦ ⟨texts_of_confined h, confined_of_texts h⟩⟩

theorem sharing_confined_iff : ∃ plan, buildPlan sharingSet .null {} [] = .ok plan ∧
    ((∀ step ∈ plan.steps, Confined step.path) ↔
      ∀ text ∈ pathTexts sharingSet .null {}, ¬ HidesDrive isLetter text) := by
  obtain ⟨plan, hplan⟩ := exists_ok (x := buildPlan sharingSet .null {} []) (by decide +kernel)
  exact ⟨plan, hplan, (confinement_iff (ascii "a/b")).2.2 _ _ _ _ _ hplan⟩

/-- Dropping the dot in front brings out a drive prefix, which a second pass refuses. -/
theorem dot_hides_drive : ¬ ConfinedOrRefused (ascii "./C:foo") := by
  rintro (h | ⟨-, h⟩)
  · exact absurd h (by decide)
  · exact absurd h (by decide)

end SquaredPg
