import SquaredPg.JsonRoundTrip
import SquaredPg.RecordText
import SquaredPg.Verify

namespace SquaredPg

open Ascii Fallible Program

namespace Engine

open FilesystemService FileSystem MetadataService TransactionService

structure CleanReport (rows : ℕ) (report : Value) : Prop where
  recorded : report.find (ascii "recorded") = some (count rows)
  clean : ∀ key ∈ ["missing", "modified", "edited", "unhashed", "conflicts"],
    report.find (ascii key) = some (count 0)

/-- Verification reads the record that was written, and finds every row of it clean. -/
structure VerifiesClean (cwd : Location) (fs : FileSystem) (params record : Value) : Prop where
  reads : ∃ text, (readFile (recordOf (verifyRoot params))).run (perform cwd) fs = (.ok text, fs) ∧
    jsonParse text = .ok record
  reports : ∃ result, (workspaceVerify params).run (perform cwd) fs = (.ok result, fs) ∧
    CleanReport (recordedRows record).length result.data

/-- What is shipped at the path of the record has the hash of the record written over it, which
quotes that hash. -/
def ShipsOwnRecord (plan : GenerationPlan) (engineVersion : Version) (fast : Bool) : Prop :=
  ∀ step ∈ plan.steps, step.isDirectory = false → step.path = kMetadataFile →
    toHex (sha256 (jsonWrite (committedRecord plan engineVersion fast) true)) =
      toHex (sha256 step.content)

instance (plan : GenerationPlan) (engineVersion : Version) (fast : Bool) :
    Decidable (ShipsOwnRecord plan engineVersion fast) := by
  unfold ShipsOwnRecord
  infer_instance

variable {set : ResolvedSet} {config params row : Value} {engineVersion : Version}
  {diagnostics : List Diagnostic} {plan : GenerationPlan} {steps : List PlanStep} {step : PlanStep}
  {cwd cwd' : Location} {fs fs' : FileSystem} {fast : Bool} {root : HostPath} {audit : Audit}
  {f g : Layout Bytes FileData} {record : Bytes}

theorem stateOf_content {bytes : Bytes} {digest : Digest} (h : recordedHash row = toHex digest) :
    stateOf (some bytes) row =
      if toHex (sha256 bytes) = toHex digest then .clean
      else if rowClass row = .generated then .modified
      else .edited := by
  have hne : toHex digest ≠ [] := by
    intro hnil
    have hlength := toHex_length digest
    rw [hnil] at hlength
    cases hlength
  rw [stateOf, h, if_neg hne]

theorem rowState_row (hsteps : ∀ step ∈ steps, Inside step.path)
    (hdistinct : (writtenPaths steps).Nodup) (hstep : step ∈ steps)
    (hfile : step.isDirectory = false) {data : FileData}
    (hdata : f step.location = some (.file data)) :
    rowState f (provenanceRow (stepHashes steps) step) =
      if toHex (sha256 data.content) = toHex (sha256 step.content) then .clean
      else if rowClass (provenanceRow (stepHashes steps) step) = .generated then .modified
      else .edited := by
  have hpath : rowPath (provenanceRow (stepHashes steps) step) = step.path := rfl
  have hne : step.path ≠ [] := by
    intro hnil
    have hin := (hsteps step hstep).nonempty
    rw [hnil] at hin
    exact hin rfl
  have hhash : recordedHash (provenanceRow (stepHashes steps) step) =
      toHex (sha256 step.content) := by
    change ((stepHashes steps).lookup step.path).getD [] = _
    rw [lookup_stepHashes hdistinct hstep hfile]
    rfl
  have hread : f.fileAt (splitPath step.path) = some data := Layout.fileAt_eq_some.mpr hdata
  rw [rowState, hpath, if_neg hne, hread]
  exact stateOf_content hhash

theorem location_ne (hin : Inside step.path) (h : step.path ≠ kMetadataFile) :
    step.location ≠ splitPath kMetadataFile := by
  intro heq
  apply h
  rw [← hin.joined, ← inside_kMetadataFile.joined]
  exact congrArg joinPath heq

theorem rowState_other (hsteps : ∀ step ∈ steps, Inside step.path)
    (hdistinct : (writtenPaths steps).Nodup) (hroot : f [] = some .dir)
    (hlayout : (steps ++ [recordStep record]).foldlM stepLayout f = some g) (hstep : step ∈ steps)
    (hfile : step.isDirectory = false) (hpath : step.path ≠ kMetadataFile) :
    rowState g (provenanceRow (stepHashes steps) step) = .clean := by
  have hwrites := writesAt_eq_singleton hsteps hdistinct (mem_writesAt.mpr ⟨hstep, hfile, rfl⟩)
  have hlast : (writesAt steps step.location).getLast? = some step := by rw [hwrites]; rfl
  obtain ⟨data, hdata, hcontent⟩ := lastWrite_of_steps hroot hlayout
    (location_ne (hsteps step hstep) hpath) hlast
  rw [rowState_row hsteps hdistinct hstep hfile hdata, hcontent, if_pos rfl]

theorem rowState_record (hsteps : ∀ step ∈ steps, Inside step.path)
    (hdistinct : (writtenPaths steps).Nodup) (hroot : f [] = some .dir)
    (hlayout : (steps ++ [recordStep record]).foldlM stepLayout f = some g) (hstep : step ∈ steps)
    (hfile : step.isDirectory = false) (hpath : step.path = kMetadataFile) :
    (rowState g (provenanceRow (stepHashes steps) step) = .clean ↔
      toHex (sha256 record) = toHex (sha256 step.content)) ∧
    (rowState g (provenanceRow (stepHashes steps) step) ≠ .clean →
      rowState g (provenanceRow (stepHashes steps) step) = .modified ∨
        rowState g (provenanceRow (stepHashes steps) step) = .edited) := by
  obtain ⟨data, hdata, rfl⟩ := record_of_steps hroot hlayout
  have hloc : g step.location = some (.file data) := by
    rw [PlanStep.location, hpath]
    exact hdata
  rw [rowState_row hsteps hdistinct hstep hfile hloc]
  split_ifs with hhash hclass
  · simp [hhash]
  · simp [hhash]
  · simp [hhash]

theorem mem_rows : row ∈ provenance steps (stepHashes steps) ↔
    ∃ step ∈ steps, step.isDirectory = false ∧ row = provenanceRow (stepHashes steps) step := by
  simp only [provenance, List.mem_map, List.mem_filter, decide_eq_true_eq]
  constructor
  · rintro ⟨step, ⟨hstep, hfile⟩, rfl⟩
    exact ⟨step, hstep, hfile, rfl⟩
  · rintro ⟨step, hstep, hfile, rfl⟩
    exact ⟨step, ⟨hstep, hfile⟩, rfl⟩

theorem cleanReport_summary {n : ℕ} : CleanReport n (summary root audit) ↔
    count audit.checked = count n ∧ count audit.missing = count 0 ∧
      count audit.modified = count 0 ∧ count audit.edited = count 0 ∧
      count audit.unhashed = count 0 ∧ count audit.findings.length = count 0 := by
  have hfind : ∀ key, (summary root audit).find key =
      [(ascii "workspace", .string root.string), (ascii "recorded", count audit.checked),
        (ascii "missing", count audit.missing), (ascii "modified", count audit.modified),
        (ascii "edited", count audit.edited), (ascii "unhashed", count audit.unhashed),
        (ascii "conflicts", count audit.findings.length),
        (ascii "findings", .array audit.findings)].lookup key := fun key ↦ rfl
  constructor
  · rintro ⟨hrecorded, hclean⟩
    have hkey := fun key hkey ↦ (hfind (ascii key)).symm.trans (hclean key hkey)
    exact ⟨Option.some.inj ((hfind _).symm.trans hrecorded),
      Option.some.inj (hkey "missing" (by simp)), Option.some.inj (hkey "modified" (by simp)),
      Option.some.inj (hkey "edited" (by simp)), Option.some.inj (hkey "unhashed" (by simp)),
      Option.some.inj (hkey "conflicts" (by simp))⟩
  · rintro ⟨hchecked, hmissing, hmodified, hedited, hunhashed, hfindings⟩
    refine ⟨(hfind _).trans (congrArg some hchecked), ?_⟩
    simp only [List.mem_cons, List.not_mem_nil, or_false, forall_eq_or_imp, forall_eq]
    exact ⟨(hfind _).trans (congrArg some hmissing), (hfind _).trans (congrArg some hmodified),
      (hfind _).trans (congrArg some hedited), (hfind _).trans (congrArg some hunhashed),
      (hfind _).trans (congrArg some hfindings)⟩

theorem cleanReport_of_clean (root : HostPath) {states : List RowState} (h : audit.Tallies states)
    (hclean : ∀ state ∈ states, state = .clean) : CleanReport states.length (summary root audit) := by
  have hnone : ∀ state, state ≠ .clean → states.count state = 0 :=
    fun state hne ↦ List.count_eq_zero.mpr fun hmem ↦ hne (hclean state hmem)
  have hall : states.countP (· ≠ .skipped) = states.length :=
    List.countP_eq_length.mpr fun state hstate ↦ by simp [hclean state hstate]
  rw [cleanReport_summary, h.checked, h.missing, h.modified, h.edited, h.unhashed, h.findings, hall,
    hnone .missing (by decide), hnone .modified (by decide), hnone .edited (by decide),
    hnone .unhashed (by decide)]
  exact ⟨rfl, rfl, rfl, rfl, rfl, rfl⟩

theorem count_state_le_one {rows : List Value} (state : RowState)
    (hdistinct : (rows.map rowPath).Nodup)
    (h : ∀ row ∈ rows, rowState g row = state → rowPath row = kMetadataFile) :
    (rows.map (rowState g)).count state ≤ 1 := by
  calc (rows.map (rowState g)).count state
      = rows.countP fun row ↦ rowState g row == state := by
        rw [List.count, List.countP_map]
        rfl
    _ ≤ rows.countP fun row ↦ rowPath row == kMetadataFile := by
        refine List.countP_mono_left fun row hrow hstate ↦ ?_
        rw [beq_iff_eq] at hstate ⊢
        exact h row hrow hstate
    _ = (rows.map rowPath).count kMetadataFile := by
        rw [List.count, List.countP_map]
        rfl
    _ ≤ 1 := List.nodup_iff_count_le_one.mp hdistinct kMetadataFile

theorem clean_of_report {rows : List Value} {n : ℕ} (h : audit.Tallies (rows.map (rowState g)))
    (hreport : CleanReport n (summary root audit)) (hdistinct : (rows.map rowPath).Nodup)
    (hother : ∀ row ∈ rows, rowPath row ≠ kMetadataFile → rowState g row = .clean) {row : Value}
    (hrow : row ∈ rows) : rowState g row ≠ .modified ∧ rowState g row ≠ .edited := by
  obtain ⟨-, -, hmodified, hedited, -, -⟩ := cleanReport_summary.mp hreport
  have hnone : ∀ state, state ≠ .clean →
      count ((rows.map (rowState g)).count state) = count 0 → rowState g row ≠ state := by
    intro state hstate hcount heq
    have hle := count_state_le_one (g := g) state hdistinct fun r hr hs ↦ by
      by_contra hpath
      exact hstate (hs.symm.trans (hother r hr hpath))
    have hpos : 0 < (rows.map (rowState g)).count state :=
      List.count_pos_iff.mpr (List.mem_map.mpr ⟨row, hrow, heq⟩)
    have hone : (rows.map (rowState g)).count state = 1 := by omega
    rw [hone] at hcount
    exact absurd (Value.integer.inj hcount) (by decide)
  rw [h.modified] at hmodified
  rw [h.edited] at hedited
  exact ⟨hnone .modified (by decide) hmodified, hnone .edited (by decide) hedited⟩

/-- What verification comes to in a workspace with the record of a plan: where the texts that the
record quotes are UTF-8, it reads the record and goes through its rows. -/
theorem verify_committed {d : Location} {data : FileData}
    (hsteps : ∀ step ∈ plan.steps, Inside step.path)
    (hroot : resolve cwd fs (verifyRoot params) = some d)
    (hdata : fs.node.below d (splitPath kMetadataFile) = some (.file data))
    (hcontent : data.content = jsonWrite (committedRecord plan engineVersion fast) true) :
    ((committedRecord plan engineVersion fast).texts.all Utf8.valid = true ∧
      jsonParse data.content = .ok (committedRecord plan engineVersion fast) ∧
      ∃ audit : Audit, (workspaceVerify params).run (perform cwd) fs =
          (.ok (verifyReport (verifyRoot params) audit), fs) ∧
        audit.Tallies ((provenance plan.steps (stepHashes plan.steps)).map
          (rowState (fs.node.below d)))) ∨
    ((committedRecord plan engineVersion fast).texts.all Utf8.valid = false ∧
      ∃ e, (workspaceVerify params).run (perform cwd) fs = (.error e, fs)) := by
  have hrows : ∀ row ∈ provenance plan.steps (stepHashes plan.steps),
      rowPath row = [] ∨ Inside (rowPath row) := by
    intro row hrow
    obtain ⟨step, hstep, -, rfl⟩ := mem_rows.mp hrow
    exact .inr (hsteps step hstep)
  rcases jsonParse_jsonWrite (committed_numberFree plan engineVersion fast) true with
    ⟨hvalid, hok⟩ | ⟨hinvalid, e, herror⟩
  · rw [← hcontent] at hok
    exact .inl ⟨hvalid, hok, run_workspaceVerify hroot hdata hok rfl hrows⟩
  · rw [← hcontent] at herror
    exact .inr ⟨hinvalid, e, run_workspaceVerify_malformed hroot hdata herror⟩

/-- A directory that was built by the steps of a plan and by the writing of its record. -/
structure Generated (plan : GenerationPlan) (engineVersion : Version) (fast : Bool)
    (g : Layout Bytes FileData) : Prop where
  inside : ∀ step ∈ plan.steps, Inside step.path
  distinct : (writtenPaths plan.steps).Nodup
  built : ∃ f, f [] = some .dir ∧ (plan.steps ++ [recordStep (jsonWrite (committedRecord plan
    engineVersion fast) true)]).foldlM stepLayout f = some g

theorem Generated.rows (h : Generated plan engineVersion fast g)
    (hrow : row ∈ provenance plan.steps (stepHashes plan.steps)) :
    (rowPath row ≠ kMetadataFile → rowState g row = .clean) ∧
      (ShipsOwnRecord plan engineVersion fast → rowState g row = .clean) := by
  obtain ⟨f, hstart, hlayout⟩ := h.built
  obtain ⟨step, hstep, hfile, rfl⟩ := mem_rows.mp hrow
  have hother : step.path ≠ kMetadataFile → _ :=
    rowState_other h.inside h.distinct hstart hlayout hstep hfile
  refine ⟨hother, fun hships ↦ ?_⟩
  by_cases hpath : step.path = kMetadataFile
  · exact (rowState_record h.inside h.distinct hstart hlayout hstep hfile hpath).1.mpr
      (hships step hstep hfile hpath)
  · exact hother hpath

theorem Generated.of_clean {d : Location} (h : Generated plan engineVersion fast (fs.node.below d))
    (hroot : resolve cwd fs (verifyRoot params) = some d)
    (hclean : VerifiesClean cwd fs params (committedRecord plan engineVersion fast)) :
    (committedRecord plan engineVersion fast).texts.all Utf8.valid = true ∧
      ShipsOwnRecord plan engineVersion fast := by
  obtain ⟨f, hstart, hlayout⟩ := h.built
  obtain ⟨data, hdata, hcontent⟩ := record_of_steps hstart hlayout
  obtain ⟨result, hresult, hreport⟩ := hclean.reports
  rcases verify_committed h.inside hroot hdata hcontent with
    ⟨hvalid, -, audit, haudit, htallies⟩ | ⟨-, e, herror⟩
  · rw [haudit] at hresult
    obtain rfl := Except.ok.inj (Prod.mk.inj hresult).1
    rw [verifyReport_data] at hreport
    refine ⟨hvalid, fun step hstep hfile hpath ↦ ?_⟩
    have hpaths : ((provenance plan.steps (stepHashes plan.steps)).map rowPath).Nodup :=
      paths_of_rows (stepHashes plan.steps) ▸ h.distinct
    obtain ⟨hmodified, hedited⟩ := clean_of_report htallies hreport hpaths
      (fun row hrow ↦ (h.rows hrow).1) (mem_rows.mpr ⟨step, hstep, hfile, rfl⟩)
    obtain ⟨hiff, hstates⟩ :=
      rowState_record h.inside h.distinct hstart hlayout hstep hfile hpath
    exact hiff.mp (by_contra fun hne ↦ (hstates hne).elim hmodified hedited)
  · rw [herror] at hresult
    cases hresult

theorem Generated.verifiesClean {d : Location}
    (h : Generated plan engineVersion fast (fs.node.below d))
    (hroot : resolve cwd fs (verifyRoot params) = some d)
    (hvalid : (committedRecord plan engineVersion fast).texts.all Utf8.valid = true)
    (hships : ShipsOwnRecord plan engineVersion fast) :
    VerifiesClean cwd fs params (committedRecord plan engineVersion fast) := by
  obtain ⟨f, hstart, hlayout⟩ := h.built
  obtain ⟨data, hdata, hcontent⟩ := record_of_steps hstart hlayout
  rcases verify_committed h.inside hroot hdata hcontent with
    ⟨-, hok, audit, haudit, htallies⟩ | ⟨hinvalid, -⟩
  · refine ⟨⟨_, run_readRecord hroot hdata, hok⟩, _, haudit, ?_⟩
    have hclean : ∀ state ∈ (provenance plan.steps (stepHashes plan.steps)).map
        (rowState (fs.node.below d)), state = .clean := by
      intro state hstate
      obtain ⟨row, hrow, rfl⟩ := List.mem_map.mp hstate
      exact (h.rows hrow).2 hships
    have hreport := cleanReport_of_clean (verifyRoot params) htallies hclean
    rwa [List.length_map, ← recordedRows_committed, ← verifyReport_data] at hreport
  · rw [hvalid] at hinvalid
    cases hinvalid

theorem generated_of_run {outcome : Outcome} (hcwd : ∀ c ∈ cwd, Plain c)
    (hplan : buildPlan set config engineVersion diagnostics = .ok plan)
    (hdistinct : (writtenPaths plan.steps).Nodup)
    (hrun : (apply cwd plan (buildRecord plan engineVersion) fast).run (perform cwd) fs =
      (.ok outcome, fs')) :
    Generated plan engineVersion fast (fs'.node.below (targetLocation (targetOf cwd plan))) := by
  have hsteps := inside_of_buildPlan hplan
  obtain ⟨f, hstart, hlayout, -⟩ :=
    (run_committed hcwd hsteps hrun).layout (targetOf_wellFormed hcwd plan) fun _ _ ↦ trivial
  exact ⟨hsteps, hdistinct, f, hstart, hlayout⟩

/-- A workspace that was generated, with no path written twice, verifies as clean unless a text in
its record is no UTF-8 or something is shipped at the path of the record. -/
theorem verifiesClean_iff {outcome : Outcome} (hcwd : ∀ c ∈ cwd, Plain c)
    (hplan : buildPlan set config engineVersion diagnostics = .ok plan)
    (hdistinct : (writtenPaths plan.steps).Nodup)
    (hrun : (apply cwd plan (buildRecord plan engineVersion) fast).run (perform cwd) fs =
      (.ok outcome, fs'))
    (hroot : resolve cwd' fs' (verifyRoot params) = some (targetLocation (targetOf cwd plan))) :
    VerifiesClean cwd' fs' params (committedRecord plan engineVersion fast) ↔
      (∀ text ∈ quotedTexts set config engineVersion, Utf8.valid text = true) ∧
        (kMetadataFile ∈ claimedPaths set config engineVersion →
          ShipsOwnRecord plan engineVersion fast) := by
  have hgenerated := generated_of_run hcwd hplan hdistinct hrun
  rw [← committed_texts hplan]
  constructor
  · intro hclean
    obtain ⟨hvalid, hships⟩ := hgenerated.of_clean hroot hclean
    exact ⟨hvalid, fun _ ↦ hships⟩
  · rintro ⟨hvalid, hships⟩
    refine hgenerated.verifiesClean hroot hvalid fun step hstep hfile hpath ↦ ?_
    have hclaimed : kMetadataFile ∈ claimedPaths set config engineVersion := by
      rw [← (writtenPaths_perm hplan).mem_iff, ← hpath]
      exact List.mem_map.mpr ⟨step, List.mem_filter.mpr ⟨hstep, by simpa using hfile⟩, rfl⟩
    exact hships hclaimed step hstep hfile hpath

def sampleWorkspace : Value := .object [(ascii "workspace", .string (ascii "/b"))]

theorem resolve_sampleWorkspace (fs : FileSystem)
    (hplan : buildPlan set sampleOutput engineVersion diagnostics = .ok plan) :
    resolve [] fs (verifyRoot sampleWorkspace) = some (targetLocation (targetOf [] plan)) := by
  have htarget : targetLocation (targetOf [] plan) = [ascii "b"] := by
    rw [targetOf, (buildPlan_names hplan).workspace]
    decide
  have hroot : verifyRoot sampleWorkspace = ⟨true, [ascii "b"]⟩ := by decide
  rw [htarget, hroot, resolve, walk_eq_some]
  refine ⟨by decide, fun ds hds hne ↦ ?_⟩
  rcases List.prefix_cons_iff.mp hds with rfl | ⟨es, rfl, hes⟩
  · exact fs.root
  · rw [List.prefix_nil.mp hes] at hne
    exact absurd rfl hne

theorem sharing_verifiesClean_iff : ∃ plan outcome fs',
    buildPlan sharingSet sampleOutput {} [] = .ok plan ∧
    (apply [] plan (buildRecord plan {}) true).run (perform []) .bare = (.ok outcome, fs') ∧
    (VerifiesClean [] fs' sampleWorkspace (committedRecord plan {} true) ↔
      (∀ text ∈ quotedTexts sharingSet sampleOutput {}, Utf8.valid text = true) ∧
        (kMetadataFile ∈ claimedPaths sharingSet sampleOutput {} →
          ShipsOwnRecord plan {} true)) := by
  have hgenerates : generates sharingSet sampleOutput [] .bare = true := by decide +kernel
  obtain ⟨plan, outcome, fs', hplan, hrun⟩ := exists_run hgenerates
  have hclaimed : (claimedPaths sharingSet sampleOutput {}).Nodup := by decide +kernel
  have hdistinct := (writtenPaths_perm hplan).nodup_iff.mpr hclaimed
  exact ⟨plan, outcome, fs', hplan, hrun,
    verifiesClean_iff (by simp) hplan hdistinct hrun (resolve_sampleWorkspace fs' hplan)⟩

def recordShippingSet : ResolvedSet :=
  { projectTemplate := sampleTemplate "\x7b\x7d" [".squared/metadata.json"] }

/-- The row of the shipped file does not fit the record that was written over it. -/
theorem shipped_record_not_clean : ∃ plan outcome fs',
    buildPlan recordShippingSet sampleOutput {} [] = .ok plan ∧ (writtenPaths plan.steps).Nodup ∧
    (apply [] plan (buildRecord plan {}) true).run (perform []) .bare = (.ok outcome, fs') ∧
    resolve [] fs' (verifyRoot sampleWorkspace) = some (targetLocation (targetOf [] plan)) ∧
    ¬ VerifiesClean [] fs' sampleWorkspace (committedRecord plan {} true) := by
  have hgenerates : generates recordShippingSet sampleOutput [] .bare = true := by decide +kernel
  obtain ⟨plan, outcome, fs', hplan, hrun⟩ := exists_run hgenerates
  have hclaimed : (claimedPaths recordShippingSet sampleOutput {}).Nodup := by decide +kernel
  have hdistinct := (writtenPaths_perm hplan).nodup_iff.mpr hclaimed
  have hroot := resolve_sampleWorkspace fs' hplan
  refine ⟨plan, outcome, fs', hplan, hdistinct, hrun, hroot, fun hclean ↦ ?_⟩
  have hships : ∀ plan ∈ (buildPlan recordShippingSet sampleOutput {} []).toOption,
      ¬ ShipsOwnRecord plan {} true := by decide +kernel
  rw [hplan] at hships
  exact hships plan rfl ((generated_of_run (by simp) hplan hdistinct hrun).of_clean hroot hclean).2

end Engine

end SquaredPg
