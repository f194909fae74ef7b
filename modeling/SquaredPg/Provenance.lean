import SquaredPg.Commit
import SquaredPg.Lists

namespace SquaredPg

open Ascii Fallible Program

namespace TransactionService

open FilesystemService FileSystem MetadataService

def recordedRows (record : Value) : List Value :=
  ((record.find (ascii "provenance")).bind Value.asArray).getD []

def rowText (key : String) (row : Value) : Bytes := row.stringOr (ascii key) []

/-- The hash, the origin and the ownership of a row are those of what is at its path. -/
def RowExact (steps : List PlanStep) (f : Layout Bytes FileData) (row : Value) : Prop :=
  ∃ step data, (writesAt steps (splitPath (rowText "path" row))).getLast? = some step ∧
    f (splitPath (rowText "path" row)) = some (.file data) ∧ data.content = step.content ∧
    rowText "sha256" row = toHex (sha256 data.content) ∧
    rowText "origin" row = step.origin.str ∧ rowText "ownership" row = step.ownership.toString

/-- The record has one row for each path that is written, and every row is exact. -/
structure ProvenanceExact (steps : List PlanStep) (record : Value) (f : Layout Bytes FileData) :
    Prop where
  once : ((recordedRows record).map (rowText "path")).Nodup
  written : ∀ path, path ∈ (recordedRows record).map (rowText "path") ↔ path ∈ writtenPaths steps
  exact : ∀ row ∈ recordedRows record, RowExact steps f row

def committedRecord (plan : GenerationPlan) (engineVersion : Version) (fast : Bool) : Value :=
  completeRecord (buildRecord plan engineVersion) plan.steps (stepHashes plan.steps) fast

variable {set : ResolvedSet} {config : Value} {engineVersion : Version}
  {diagnostics : List Diagnostic} {plan : GenerationPlan} {steps : List PlanStep} {step : PlanStep}
  {cwd : Location} {fs fs' : FileSystem} {fast : Bool}

theorem recordedRows_committed (plan : GenerationPlan) (engineVersion : Version) (fast : Bool) :
    recordedRows (committedRecord plan engineVersion fast) =
      provenance plan.steps (stepHashes plan.steps) := by
  have hfind : (committedRecord plan engineVersion fast).find (ascii "provenance") =
      some (.array (provenance plan.steps (stepHashes plan.steps))) := by
    refine (Value.find_set_object _ _ _ _).trans ?_
    rw [if_neg (by decide)]
    refine (Value.find_set_object _ _ _ _).trans ?_
    exact if_pos rfl
  rw [recordedRows, hfind]
  rfl

theorem rowText_row (hashes : List (Bytes × Bytes)) (step : PlanStep) :
    rowText "path" (provenanceRow hashes step) = step.path ∧
      rowText "ownership" (provenanceRow hashes step) = step.ownership.toString ∧
      rowText "origin" (provenanceRow hashes step) = step.origin.str ∧
      rowText "sha256" (provenanceRow hashes step) = (hashes.lookup step.path).getD [] :=
  ⟨rfl, rfl, rfl, rfl⟩

theorem paths_of_rows (hashes : List (Bytes × Bytes)) :
    (provenance steps hashes).map (rowText "path") = writtenPaths steps := by
  simp [provenance, writtenPaths, Function.comp_def, rowText_row]

theorem keys_stepHashes : (stepHashes steps).map Prod.fst = writtenPaths steps := by
  simp [stepHashes, writtenPaths, Function.comp_def]

theorem lookup_stepHashes (hdistinct : (writtenPaths steps).Nodup) (hstep : step ∈ steps)
    (hfile : step.isDirectory = false) :
    (stepHashes steps).lookup step.path = some (toHex (sha256 step.content)) := by
  refine lookup_of_nodup (keys_stepHashes ▸ hdistinct) ?_
  exact List.mem_map.mpr ⟨step, List.mem_filter.mpr ⟨hstep, by simpa using hfile⟩, rfl⟩

theorem inside_of_normal {path : Bytes} (h : Normal path) : Inside path := by
  obtain ⟨cs, hne, hnames, rfl⟩ := h
  exact .of_names hne fun c hc ↦ (hnames c hc).1

theorem inside_of_buildPlan (h : buildPlan set config engineVersion diagnostics = .ok plan) :
    ∀ step ∈ plan.steps, Inside step.path :=
  fun step hstep ↦ inside_of_normal (normal_of_buildPlan h step hstep)

theorem writtenPaths_perm (h : buildPlan set config engineVersion diagnostics = .ok plan) :
    (writtenPaths plan.steps).Perm (claimedPaths set config engineVersion) := by
  obtain ⟨-, hcovers⟩ := buildPlan_covers h
  refine List.Perm.trans (.of_eq ?_) hcovers.writes
  unfold writtenPaths
  congr 1
  refine List.filter_congr fun step hstep ↦ ?_
  rcases hcovers.actions step hstep with haction | haction <;> simp [PlanStep.isDirectory, haction]

theorem lastWrite_of_steps {f g : Layout Bytes FileData} {record : Bytes} {x : Location}
    (hroot : f [] = some .dir)
    (hlayout : (steps ++ [recordStep record]).foldlM stepLayout f = some g)
    (hx : x ≠ splitPath kMetadataFile) (hlast : (writesAt steps x).getLast? = some step) :
    ∃ data, g x = some (.file data) ∧ data.content = step.content := by
  obtain ⟨data, hover, hcontent⟩ := content_fileOver (f.fileAt x) hlast
  refine ⟨data, ?_, hcontent⟩
  rw [layout_of_steps hroot hlayout, layoutOver_file, writesAt_recorded, if_neg hx,
    List.append_nil, hover]

theorem record_of_steps {f g : Layout Bytes FileData} {record : Bytes} (hroot : f [] = some .dir)
    (hlayout : (steps ++ [recordStep record]).foldlM stepLayout f = some g) :
    ∃ data, g (splitPath kMetadataFile) = some (.file data) ∧ data.content = record := by
  have hlast : (writesAt (steps ++ [recordStep record]) (splitPath kMetadataFile)).getLast? =
      some (recordStep record) := by
    rw [writesAt_recorded, if_pos rfl, List.getLast?_concat]
  obtain ⟨data, hover, hcontent⟩ := content_fileOver (f.fileAt (splitPath kMetadataFile)) hlast
  refine ⟨data, ?_, hcontent⟩
  rw [layout_of_steps hroot hlayout, layoutOver_file, hover]

theorem exact_of_distinct {f g : Layout Bytes FileData} {record : Bytes}
    (hsteps : ∀ step ∈ plan.steps, Inside step.path)
    (hrecord : kMetadataFile ∉ writtenPaths plan.steps) (hroot : f [] = some .dir)
    (hlayout : (plan.steps ++ [recordStep record]).foldlM stepLayout f = some g)
    (hdistinct : (writtenPaths plan.steps).Nodup) :
    ProvenanceExact plan.steps (committedRecord plan engineVersion fast) g := by
  constructor
  · rwa [recordedRows_committed, paths_of_rows]
  · rw [recordedRows_committed, paths_of_rows]
    exact fun _ ↦ Iff.rfl
  · rw [recordedRows_committed]
    intro row hrow
    obtain ⟨step, hstep, rfl⟩ := List.mem_map.mp hrow
    obtain ⟨hmem, hfile⟩ := List.mem_filter.mp hstep
    rw [decide_eq_true_eq] at hfile
    obtain ⟨hpath, hownership, horigin, hhash⟩ := rowText_row (stepHashes plan.steps) step
    have hwrites := writesAt_eq_singleton hsteps hdistinct (mem_writesAt.mpr ⟨hmem, hfile, rfl⟩)
    have hlast : (writesAt plan.steps step.location).getLast? = some step := by rw [hwrites]; rfl
    have hother : step.location ≠ splitPath kMetadataFile := by
      intro heq
      have hnil := writesAt_eq_nil hsteps inside_kMetadataFile.joined hrecord
      rw [← heq, hwrites] at hnil
      cases hnil
    obtain ⟨data, hdata, hcontent⟩ := lastWrite_of_steps hroot hlayout hother hlast
    refine ⟨step, data, ?_, ?_, hcontent, ?_, horigin, hownership⟩
    · rwa [hpath]
    · rwa [hpath]
    · rw [hhash, lookup_stepHashes hdistinct hmem hfile, hcontent]
      rfl

theorem distinct_of_exact {f : Layout Bytes FileData}
    (h : ProvenanceExact plan.steps (committedRecord plan engineVersion fast) f) :
    (writtenPaths plan.steps).Nodup := by
  have honce := h.once
  rwa [recordedRows_committed, paths_of_rows] at honce

/-- The record that lies in a committed workspace is exact unless two payload entries claim one
path. -/
theorem provenanceExact_iff {outcome : Outcome} (hcwd : ∀ c ∈ cwd, Plain c)
    (hplan : buildPlan set config engineVersion diagnostics = .ok plan)
    (hrecord : kMetadataFile ∉ writtenPaths plan.steps)
    (hrun : (apply cwd plan (buildRecord plan engineVersion) fast).run (perform cwd) fs =
      (.ok outcome, fs')) :
    (∃ data, fs'.node.below (targetLocation (targetOf cwd plan)) (splitPath kMetadataFile) =
        some (.file data) ∧
      data.content = jsonWrite (committedRecord plan engineVersion fast) true) ∧
    (ProvenanceExact plan.steps (committedRecord plan engineVersion fast)
        (fs'.node.below (targetLocation (targetOf cwd plan))) ↔
      (claimedPaths set config engineVersion).Nodup) := by
  have hsteps := inside_of_buildPlan hplan
  obtain ⟨f, hroot, hlayout, -⟩ :=
    (run_committed hcwd hsteps hrun).layout (targetOf_wellFormed hcwd plan) fun _ _ ↦ trivial
  refine ⟨record_of_steps hroot hlayout, ?_⟩
  rw [← (writtenPaths_perm hplan).nodup_iff]
  exact ⟨fun h ↦ distinct_of_exact h, exact_of_distinct hsteps hrecord hroot hlayout⟩

def sampleOutput : Value := .object [(ascii "output", .string (ascii "/b"))]

def generates (set : ResolvedSet) (config : Value) (cwd : Location) (fs : FileSystem) : Bool :=
  (buildPlan set config {} []).toOption.any fun plan ↦
    ((apply cwd plan (buildRecord plan {}) true).run (perform cwd) fs).1.toOption.isSome

theorem exists_run (h : generates set config cwd fs = true) :
    ∃ plan outcome fs', buildPlan set config {} [] = .ok plan ∧
      (apply cwd plan (buildRecord plan {}) true).run (perform cwd) fs = (.ok outcome, fs') := by
  unfold generates at h
  cases hplan : buildPlan set config {} [] with
  | error e =>
    rw [hplan] at h
    cases h
  | ok plan =>
    rw [hplan] at h
    obtain ⟨outcome, houtcome⟩ := exists_ok h
    exact ⟨plan, outcome, _, rfl, Prod.ext houtcome rfl⟩

theorem unrecorded_of_claimed (hplan : buildPlan set config engineVersion diagnostics = .ok plan)
    (h : kMetadataFile ∉ claimedPaths set config engineVersion) :
    kMetadataFile ∉ writtenPaths plan.steps :=
  fun hin ↦ h ((writtenPaths_perm hplan).mem_iff.mp hin)

theorem sharing_provenanceExact_iff : ∃ plan outcome fs',
    buildPlan sharingSet sampleOutput {} [] = .ok plan ∧
    (apply [] plan (buildRecord plan {}) true).run (perform []) .bare = (.ok outcome, fs') ∧
    (∃ data, fs'.node.below (targetLocation (targetOf [] plan)) (splitPath kMetadataFile) =
        some (.file data) ∧ data.content = jsonWrite (committedRecord plan {} true) true) ∧
    (ProvenanceExact plan.steps (committedRecord plan {} true)
        (fs'.node.below (targetLocation (targetOf [] plan))) ↔
      (claimedPaths sharingSet sampleOutput {}).Nodup) := by
  have hgenerates : generates sharingSet sampleOutput [] .bare = true := by decide +kernel
  obtain ⟨plan, outcome, fs', hplan, hrun⟩ := exists_run hgenerates
  have hrecord := unrecorded_of_claimed hplan (by decide +kernel)
  exact ⟨plan, outcome, fs', hplan, hrun, provenanceExact_iff (by simp) hplan hrecord hrun⟩

def overridingSet : ResolvedSet :=
  { projectTemplate := sampleTemplate "\x7b\x7d" ["a"]
    kits := [sampleKit "\x7b\"overrides\":[\"a\"]\x7d" ["a"]] }

/-- The record has two rows for the file that is overridden. -/
theorem overridden_path_recorded_twice : ∃ plan outcome fs',
    buildPlan overridingSet sampleOutput {} [] = .ok plan ∧
    (apply [] plan (buildRecord plan {}) true).run (perform []) .bare = (.ok outcome, fs') ∧
    kMetadataFile ∉ writtenPaths plan.steps ∧
    ¬ ProvenanceExact plan.steps (committedRecord plan {} true)
        (fs'.node.below (targetLocation (targetOf [] plan))) := by
  have hgenerates : generates overridingSet sampleOutput [] .bare = true := by decide +kernel
  obtain ⟨plan, outcome, fs', hplan, hrun⟩ := exists_run hgenerates
  refine ⟨plan, outcome, fs', hplan, hrun, unrecorded_of_claimed hplan (by decide +kernel), fun h ↦ ?_⟩
  have hclaimed : ¬ (claimedPaths overridingSet sampleOutput {}).Nodup := by decide +kernel
  exact hclaimed ((writtenPaths_perm hplan).nodup_iff.mp (distinct_of_exact h))

end TransactionService

end SquaredPg
