import SquaredPg.GenerateVerify
import SquaredPg.VerifyCounts

namespace SquaredPg

open Ascii Fallible Program

theorem hexDigit_inj {m n : ℕ} (hm : m < 16) (hn : n < 16) (h : hexDigit m = hexDigit n) :
    m = n := by
  have hall : ∀ m < 16, ∀ n < 16, hexDigit m = hexDigit n → m = n := by decide
  exact hall m hm n hn h

theorem flatMap_hex_inj {a b : Bytes}
    (h : a.flatMap (fun c ↦ [hexDigit (c.toNat / 16), hexDigit (c.toNat % 16)]) =
      b.flatMap fun c ↦ [hexDigit (c.toNat / 16), hexDigit (c.toNat % 16)]) : a = b := by
  induction a generalizing b with
  | nil =>
    cases b with
    | nil => rfl
    | cons d b => simp at h
  | cons c a ih =>
    cases b with
    | nil => simp at h
    | cons d b =>
      simp only [List.flatMap_cons, List.cons_append, List.nil_append, List.cons.injEq] at h
      obtain ⟨hhigh, hlow, hrest⟩ := h
      have hc := c.toNat_lt
      have hd := d.toNat_lt
      have hhigh := hexDigit_inj (by omega) (by omega) hhigh
      have hlow := hexDigit_inj (by omega) (by omega) hlow
      have hsame : c.toNat = d.toNat := by omega
      rw [UInt8.toNat_inj.mp hsame, ih hrest]

theorem toHex_inj {a b : Digest} (h : toHex a = toHex b) : a = b := Subtype.ext (flatMap_hex_inj h)

namespace Engine

open FilesystemService FileSystem MetadataService TransactionService

def Gone (g : Layout Bytes FileData) (step : PlanStep) : Prop := g step.location = none

def Altered (g : Layout Bytes FileData) (step : PlanStep) : Prop :=
  ∃ content ∈ (g.fileAt step.location).map FileData.content, content ≠ step.content

instance (g : Layout Bytes FileData) : DecidablePred (Gone g) :=
  fun step ↦ inferInstanceAs (Decidable (g step.location = none))

instance (g : Layout Bytes FileData) : DecidablePred (Altered g) :=
  fun step ↦ decidable_of_iff ((((g.fileAt step.location).map FileData.content).any
    fun content ↦ content ≠ step.content) = true) (by simp [Altered, Option.any_eq_true])

def stepEntry (step : PlanStep) (kind detail : String) : Value :=
  .object
    [(ascii "path", .string step.path),
      (ascii "finding", .string (ascii kind)),
      (ascii "ownership", .string step.ownership.toString),
      (ascii "origin", .string step.origin.str),
      (ascii "detail", .string (ascii detail))]

def stepFinding (g : Layout Bytes FileData) (step : PlanStep) : Option Value :=
  if Gone g step then
    some (stepEntry step "missing" (if step.ownership = .generated
      then "generator-managed file is absent" else "file recorded at generation is absent"))
  else if Altered g step ∧ step.ownership = .generated then
    some (stepEntry step "modified"
      "generator-managed file differs from its recorded hash; a future generation would overwrite these edits")
  else none

/-- The report that compares the files with what the plan wrote. -/
def contentReport (root : HostPath) (files : List PlanStep) (g : Layout Bytes FileData) : Value :=
  .object
    [(ascii "workspace", .string root.string),
      (ascii "recorded", count files.length),
      (ascii "missing", count (files.countP (Gone g))),
      (ascii "modified", count (files.countP fun step ↦ Altered g step ∧ step.ownership = .generated)),
      (ascii "edited", count (files.countP fun step ↦ Altered g step ∧ step.ownership ≠ .generated)),
      (ascii "unhashed", count 0),
      (ascii "conflicts", count (files.filterMap (stepFinding g)).length),
      (ascii "findings", .array (files.filterMap (stepFinding g)))]

def writtenFiles (steps : List PlanStep) : List PlanStep :=
  steps.filter fun step ↦ step.isDirectory = false

variable {cwd d : Location} {fs : FileSystem} {params : Value} {plan : GenerationPlan}
  {steps : List PlanStep} {step : PlanStep} {g : Layout Bytes FileData} {set : ResolvedSet}
  {config : Value} {engineVersion : Version} {diagnostics : List Diagnostic} {fast : Bool}

theorem mem_writtenFiles : step ∈ writtenFiles steps ↔ step ∈ steps ∧ step.isDirectory = false := by
  simp [writtenFiles]

theorem rowClass_row (hashes : List (Bytes × Bytes)) (step : PlanStep) :
    rowClass (provenanceRow hashes step) = step.ownership := by
  change OwnershipClass.fromString step.ownership.toString = _
  cases step.ownership <;> decide

def stepState (g : Layout Bytes FileData) (step : PlanStep) : RowState :=
  if Gone g step then .missing
  else if ¬ Altered g step then .clean
  else if step.ownership = .generated then .modified
  else .edited

/-- Another content has taken the place of the file, and has the digest of it. -/
def Forged (g : Layout Bytes FileData) (step : PlanStep) : Prop :=
  ∃ data, g step.location = some (.file data) ∧ data.content ≠ step.content ∧
    sha256 data.content = sha256 step.content

theorem stateIn_row (hroot : resolve cwd fs (verifyRoot params) = some d)
    (hsteps : ∀ step ∈ steps, Inside step.path) (hdistinct : (writtenPaths steps).Nodup)
    (hstep : step ∈ writtenFiles steps) (hplace : fs.node.below d step.location ≠ some .dir)
    (hforged : ¬ Forged (fs.node.below d) step) :
    stateIn cwd fs (verifyRoot params) (provenanceRow (stepHashes steps) step) =
      stepState (fs.node.below d) step := by
  obtain ⟨hmem, hfile⟩ := mem_writtenFiles.mp hstep
  have hin := hsteps step hmem
  have hpath : rowPath (provenanceRow (stepHashes steps) step) = step.path := rfl
  have hne : step.path ≠ [] := by
    intro hnil
    have hnonempty := hin.nonempty
    rw [hnil] at hnonempty
    exact hnonempty rfl
  have hhash : recordedHash (provenanceRow (stepHashes steps) step) =
      toHex (sha256 step.content) := by
    change ((stepHashes steps).lookup step.path).getD [] = _
    rw [lookup_stepHashes hdistinct hmem hfile]
    rfl
  have hplaced : fs.node.below d step.location = fs.node (d ++ splitPath step.path) := rfl
  rw [stateIn, hpath, if_neg hne, read_below hroot hin, ← hplaced]
  cases hnode : fs.node.below d step.location with
  | none => exact (if_pos hnode).symm
  | some e =>
    cases e with
    | dir => exact absurd hnode hplace
    | file data =>
      have hthere : ¬ Gone (fs.node.below d) step := by simp [Gone, hnode]
      have haltered : Altered (fs.node.below d) step ↔ data.content ≠ step.content := by
        simp [Altered, Layout.fileAt, hnode, Entry.data]
      have hsame : toHex (sha256 data.content) = toHex (sha256 step.content) ↔
          ¬ Altered (fs.node.below d) step := by
        rw [haltered, not_not]
        constructor
        · intro h
          by_contra hne
          exact hforged ⟨data, hnode, hne, toHex_inj h⟩
        · intro h
          rw [h]
      change stateOf (some data.content) _ = _
      rw [stateOf_content hhash, rowClass_row, stepState, if_neg hthere]
      by_cases hsafe : Altered (fs.node.below d) step
      · rw [if_neg fun h ↦ hsame.mp h hsafe, if_neg (not_not.mpr hsafe)]
      · rw [if_pos (hsame.mpr hsafe), if_pos hsafe]

theorem rowFinding_row (hashes : List (Bytes × Bytes)) :
    rowFinding (provenanceRow hashes step) (stepState g step) = stepFinding g step := by
  have hentry : ∀ kind detail, finding (provenanceRow hashes step) kind detail =
      stepEntry step kind detail := fun _ _ ↦ rfl
  unfold stepState stepFinding
  by_cases hgone : Gone g step
  · rw [if_pos hgone, if_pos hgone]
    change some (finding _ _ _) = _
    rw [hentry, rowClass_row]
  · by_cases haltered : Altered g step
    · by_cases hclass : step.ownership = .generated
      · rw [if_neg hgone, if_neg (not_not.mpr haltered), if_pos hclass, if_neg hgone,
          if_pos ⟨haltered, hclass⟩]
        exact congrArg some (hentry _ _)
      · rw [if_neg hgone, if_neg (not_not.mpr haltered), if_neg hclass, if_neg hgone,
          if_neg fun h ↦ hclass h.2]
        rfl
    · rw [if_neg hgone, if_pos haltered, if_neg hgone, if_neg fun h ↦ haltered h.1]
      rfl

theorem count_states {files : List PlanStep} {state : RowState} {P : PlanStep → Prop}
    [DecidablePred P] (h : ∀ step, stepState g step = state ↔ P step) :
    (files.map (stepState g)).count state = files.countP P := by
  rw [List.count, List.countP_map]
  refine List.countP_congr fun step _ ↦ ?_
  simp [h step]

theorem stepState_cases (g : Layout Bytes FileData) (step : PlanStep) :
    (stepState g step = .missing ↔ Gone g step) ∧
    (stepState g step = .modified ↔ Altered g step ∧ step.ownership = .generated) ∧
    (stepState g step = .edited ↔ Altered g step ∧ step.ownership ≠ .generated) ∧
    stepState g step ≠ .unhashed ∧ stepState g step ≠ .skipped := by
  have hboth : Gone g step → ¬ Altered g step := by
    intro hgone
    simp [Altered, Layout.fileAt, show g step.location = none from hgone]
  unfold stepState
  by_cases hgone : Gone g step
  · simp [hgone, hboth hgone]
  · by_cases haltered : Altered g step
    · by_cases hclass : step.ownership = .generated <;> simp [hgone, haltered, hclass]
    · simp [hgone, haltered]

/-- A directory stands in the place of a file. -/
def Obstructed (files : List PlanStep) (g : Layout Bytes FileData) : Prop :=
  ∃ step ∈ files, g step.location = some .dir

theorem displaced_row (hroot : resolve cwd fs (verifyRoot params) = some d)
    (hin : Inside step.path) (hashes : List (Bytes × Bytes)) :
    Displaced cwd fs (verifyRoot params) (provenanceRow hashes step) ↔
      fs.node.below d step.location = some .dir := by
  have hne : step.path ≠ [] := by
    intro hnil
    have hnonempty := hin.nonempty
    rw [hnil] at hnonempty
    exact hnonempty rfl
  have hpath : rowPath (provenanceRow hashes step) = step.path := rfl
  have hplaced : fs.node.below d step.location = fs.node (d ++ splitPath step.path) := rfl
  unfold Displaced
  rw [hpath, read_below hroot hin, ← hplaced]
  cases fs.node.below d step.location with
  | none => simp
  | some e => cases e <;> simp [hne]

theorem table_committedRecord (plan : GenerationPlan) (engineVersion : Version) (fast : Bool) :
    ((committedRecord plan engineVersion fast).find (ascii "provenance")).bind Value.asArray =
      some ((writtenFiles plan.steps).map (provenanceRow (stepHashes plan.steps))) := rfl

section Recorded

variable {data : FileData} (hplan : buildPlan set config engineVersion diagnostics = .ok plan)
  (hdistinct : (claimedPaths set config engineVersion).Nodup)
  (htexts : ∀ text ∈ quotedTexts set config engineVersion, Utf8.valid text = true)
  (hroot : resolve cwd fs (verifyRoot params) = some d)
  (hdata : fs.node.below d (splitPath kMetadataFile) = some (.file data))
  (hcontent : data.content = jsonWrite (committedRecord plan engineVersion fast) true)

include hroot hdata in
theorem read_recorded :
    FileSystem.read cwd fs (recordOf (verifyRoot params)) = .content data.content := by
  refine (read_below hroot inside_kMetadataFile).trans ?_
  rw [show fs.node (d ++ splitPath kMetadataFile) = some (.file data) from hdata]

include hplan htexts hcontent in
theorem parse_recorded : jsonParse data.content = .ok (committedRecord plan engineVersion fast) := by
  have hvalid : (committedRecord plan engineVersion fast).texts.all Utf8.valid = true :=
    (committed_texts hplan).mpr htexts
  rcases jsonParse_jsonWrite (committed_numberFree plan engineVersion fast) true with
    ⟨-, hok⟩ | ⟨hinvalid, -⟩
  · rw [hcontent, hok]
  · rw [hvalid] at hinvalid
    cases hinvalid

include hplan htexts hroot hdata hcontent

theorem workspaceVerify_obstructed (h : Obstructed (writtenFiles plan.steps) (fs.node.below d)) :
    (workspaceVerify params).runUntilThrow (performReading cwd) fs = (none, fs) := by
  obtain ⟨step, hstep, hdir⟩ := h
  have hin := inside_of_buildPlan hplan step (mem_writtenFiles.mp hstep).1
  exact run_displaced (read_recorded hroot hdata) (parse_recorded hplan htexts hcontent)
    (table_committedRecord plan engineVersion fast) (List.mem_map_of_mem hstep)
    ((displaced_row hroot hin _).mpr hdir)

include hdistinct

theorem workspaceVerify_contents
    (hplaces : ¬ Obstructed (writtenFiles plan.steps) (fs.node.below d))
    (hforged : ∀ step ∈ writtenFiles plan.steps, ¬ Forged (fs.node.below d) step) :
    ∃ report, (workspaceVerify params).runUntilThrow (performReading cwd) fs =
        (some (.ok report), fs) ∧ report.succeeded = true ∧
      report.data = contentReport (verifyRoot params) (writtenFiles plan.steps) (fs.node.below d) := by
  have hsteps := inside_of_buildPlan hplan
  have hpaths := (writtenPaths_perm hplan).nodup_iff.mpr hdistinct
  have hstates : ∀ step ∈ writtenFiles plan.steps,
      stateIn cwd fs (verifyRoot params) (provenanceRow (stepHashes plan.steps) step) =
        stepState (fs.node.below d) step := fun step hstep ↦
    stateIn_row hroot hsteps hpaths hstep (fun hdir ↦ hplaces ⟨step, hstep, hdir⟩)
      (hforged step hstep)
  have hplaced : ∀ row ∈ (writtenFiles plan.steps).map (provenanceRow (stepHashes plan.steps)),
      ¬ Displaced cwd fs (verifyRoot params) row := by
    intro row hrow hdisplaced
    obtain ⟨step, hstep, rfl⟩ := List.mem_map.mp hrow
    have hin := hsteps step (mem_writtenFiles.mp hstep).1
    exact hplaces ⟨step, hstep, (displaced_row hroot hin _).mp hdisplaced⟩
  have hmapped : ((writtenFiles plan.steps).map (provenanceRow (stepHashes plan.steps))).map
      (stateIn cwd fs (verifyRoot params)) =
        (writtenFiles plan.steps).map (stepState (fs.node.below d)) := by
    rw [List.map_map]
    exact List.map_congr_left hstates
  have hfound : ((writtenFiles plan.steps).map (provenanceRow (stepHashes plan.steps))).filterMap
      (fun row ↦ rowFinding row (stateIn cwd fs (verifyRoot params) row)) =
        (writtenFiles plan.steps).filterMap (stepFinding (fs.node.below d)) := by
    rw [List.filterMap_map]
    refine List.filterMap_congr fun step hstep ↦ ?_
    rw [Function.comp_apply, hstates step hstep, rowFinding_row]
  obtain ⟨audit, haudit, htallies, hfindings⟩ := auditRows_counts hplaced tallies_start
  rw [List.nil_append, hmapped] at htallies
  rw [hfound] at hfindings
  have hcases := stepState_cases (fs.node.below d)
  have hnone : ∀ state, (∀ step, stepState (fs.node.below d) step ≠ state) →
      ((writtenFiles plan.steps).map (stepState (fs.node.below d))).count state = 0 := by
    intro state hstate
    rw [List.count_eq_zero]
    intro hmem
    obtain ⟨step, -, heq⟩ := List.mem_map.mp hmem
    exact hstate step heq
  have hall : ((writtenFiles plan.steps).map (stepState (fs.node.below d))).countP (· ≠ .skipped) =
      (writtenFiles plan.steps).length := by
    rw [List.countP_eq_length.mpr, List.length_map]
    intro state hstate
    obtain ⟨step, -, rfl⟩ := List.mem_map.mp hstate
    exact decide_eq_true (hcases step).2.2.2.2
  refine ⟨verifyReport (verifyRoot params) audit, ?_, ?_, ?_⟩
  · rw [workspaceVerify_rows (read_recorded hroot hdata) (parse_recorded hplan htexts hcontent)
      (table_committedRecord plan engineVersion fast), runUntilThrow_bind, haudit]
    rfl
  · rw [verifyReport, OperationResult.foldl_addDiagnostic]
    rfl
  · rw [verifyReport_data, summary, htallies.checked, htallies.missing, htallies.modified,
      htallies.edited, htallies.unhashed, hfindings, hall, hnone .unhashed fun step ↦
      (hcases step).2.2.2.1, count_states fun step ↦ (hcases step).1,
      count_states fun step ↦ (hcases step).2.1, count_states fun step ↦ (hcases step).2.2.1]
    rfl

/-- Verification of a workspace that has the record of its plan, whatever has become of the rest of
it. A directory in the place of a file makes the call throw; where there is none, the report is about
what the files hold, unless another content with the same digest has taken the place of one. -/
theorem verify_by_content :
    (Obstructed (writtenFiles plan.steps) (fs.node.below d) →
      (workspaceVerify params).runUntilThrow (performReading cwd) fs = (none, fs)) ∧
    (¬ Obstructed (writtenFiles plan.steps) (fs.node.below d) →
      (∀ step ∈ writtenFiles plan.steps, ¬ Forged (fs.node.below d) step) →
      ∃ report, (workspaceVerify params).runUntilThrow (performReading cwd) fs =
          (some (.ok report), fs) ∧ report.succeeded = true ∧
        report.data =
          contentReport (verifyRoot params) (writtenFiles plan.steps) (fs.node.below d)) :=
  ⟨workspaceVerify_obstructed hplan htexts hroot hdata hcontent,
    workspaceVerify_contents hplan hdistinct htexts hroot hdata hcontent⟩

end Recorded

/-- The generated workspace with another file in the place of one of its own. -/
def tampered (fs : FileSystem) : FileSystem :=
  fs.put [ascii "b", ascii "a", ascii "b"] (.file ⟨ascii "changed", false⟩)

theorem record_of_tampered {outcome : Outcome}
    (hplan : buildPlan sharingSet sampleOutput {} [] = .ok plan)
    (hclaimed : (claimedPaths sharingSet sampleOutput {}).Nodup)
    (hrun : (apply [] plan (buildRecord plan {}) true).run (perform []) .bare = (.ok outcome, fs)) :
    ∃ data : FileData, (tampered fs).node.below (targetLocation (targetOf [] plan))
        (splitPath kMetadataFile) = some (.file data) ∧
      data.content = jsonWrite (committedRecord plan {} true) true := by
  have hdistinct := (writtenPaths_perm hplan).nodup_iff.mpr hclaimed
  have htarget : targetLocation (targetOf [] plan) = [ascii "b"] := by
    rw [targetOf, (buildPlan_names hplan).workspace]
    decide
  obtain ⟨f, hstart, hlayout⟩ := (generated_of_run (by simp) hplan hdistinct hrun).built
  obtain ⟨data, hdata, hcontent⟩ := record_of_steps hstart hlayout
  refine ⟨data, ?_, hcontent⟩
  rw [← hdata, htarget]
  exact FileTree.node_put_other (by decide)

theorem sharing_verify_by_content : ∃ plan outcome fs,
    buildPlan sharingSet sampleOutput {} [] = .ok plan ∧
    (apply [] plan (buildRecord plan {}) true).run (perform []) .bare = (.ok outcome, fs) ∧
    (Obstructed (writtenFiles plan.steps)
        ((tampered fs).node.below (targetLocation (targetOf [] plan))) →
      (workspaceVerify sampleWorkspace).runUntilThrow (performReading []) (tampered fs) =
        (none, tampered fs)) ∧
    (¬ Obstructed (writtenFiles plan.steps)
        ((tampered fs).node.below (targetLocation (targetOf [] plan))) →
      (∀ step ∈ writtenFiles plan.steps,
        ¬ Forged ((tampered fs).node.below (targetLocation (targetOf [] plan))) step) →
      ∃ report, (workspaceVerify sampleWorkspace).runUntilThrow (performReading []) (tampered fs) =
          (some (.ok report), tampered fs) ∧ report.succeeded = true ∧
        report.data = contentReport (verifyRoot sampleWorkspace) (writtenFiles plan.steps)
          ((tampered fs).node.below (targetLocation (targetOf [] plan)))) := by
  have hgenerates : generates sharingSet sampleOutput [] .bare = true := by decide +kernel
  obtain ⟨plan, outcome, fs, hplan, hrun⟩ := exists_run hgenerates
  have hclaimed : (claimedPaths sharingSet sampleOutput {}).Nodup := by decide +kernel
  obtain ⟨data, hdata, hcontent⟩ := record_of_tampered hplan hclaimed hrun
  exact ⟨plan, outcome, fs, hplan, hrun, verify_by_content hplan hclaimed (by decide +kernel)
    (resolve_sampleWorkspace _ hplan) hdata hcontent⟩

end Engine

end SquaredPg
