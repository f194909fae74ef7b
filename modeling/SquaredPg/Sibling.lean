import SquaredPg.Atomicity

namespace SquaredPg

open Ascii Fallible Program

namespace TransactionService

open FilesystemService FileSystem MetadataService

variable {cwd : Location} {plan : GenerationPlan} {metadataRecord : Value} {fast : Bool}
  {fs fs' : FileSystem} {target path : HostPath} {output : Bytes} {ps ds : List Bytes}
  {c tmp : Bytes} {l x : Location}

/-- Two locations in one directory, and the first is not the second or in it. -/
structure SiblingOf (staging target : Location) : Prop where
  child : ∃ name, staging = target.dropLast ++ [name]
  below : target ≠ []
  outside : ¬ target <+: staging

theorem siblingOf_iff (hwf : WellFormed target) :
    SiblingOf (locate [] (stagingPathFor target).parts) (targetLocation target) ↔
      Plain target.filename := by
  have htmp := plain_stagingName target
  rw [stagingPathFor_eq hwf, locate_staging htmp]
  constructor
  · rintro ⟨-, hne, hout⟩
    by_contra hplain
    rcases List.eq_nil_or_concat' target.parts with hnil | ⟨ps, name, hparts⟩
    · exact hne (by simp [targetLocation, hnil, locate])
    · have hname : target.filename = name := by simp [HostPath.filename, hparts]
      have hdrop : target.parts.dropLast = ps := by rw [hparts, List.dropLast_concat]
      rw [stagingLocation, hdrop, targetLocation, hparts, locate_concat] at hout
      rw [hname, Plain] at hplain
      unfold advance at hout
      split_ifs at hout with hdot hdotdot
      · exact hout (List.prefix_append _ _)
      · exact hout ((List.dropLast_prefix _).trans (List.prefix_append _ _))
      · exact hplain ⟨fun h ↦ hdot (.inl h), fun h ↦ hdot (.inr h), hdotdot⟩
  · intro hplain
    have hbeside := beside_of_plain hplain
    rw [hbeside.targetLocation]
    refine ⟨⟨stagingName target, by simp [stagingLocation]⟩, by simp, fun hp ↦ ?_⟩
    exact apart_of_ne stagingName_ne.symm hp

/-- The staging directory of an output location is a sibling of its target; and a transaction that
ends in an error does not bring about a target that was not there. -/
structure StagesBeside (cwd : Location) (output : Bytes) : Prop where
  sibling : SiblingOf (locate [] (stagingPathFor (targetPath cwd output)).parts)
    (targetLocation (targetPath cwd output))
  absent : ∀ plan metadataRecord fast fs e fs', plan.workspace = output →
    (∀ step ∈ plan.steps, Inside step.path) → existsAt cwd fs (targetPath cwd output) = false →
    Exec (Behaves cwd fun _ ↦ False) (apply cwd plan metadataRecord fast) fs (.error e) fs' →
    existsAt cwd fs' (targetPath cwd output) = false

theorem unseen_of_missing (hroot : target.absolute = true)
    (h : (∃ ds, ds <+: target.parts ∧ ds ≠ target.parts ∧ fs.node (locate [] ds) ≠ some .dir) ∨
      fs.node (targetLocation target) = none) : existsAt cwd fs target = false := by
  by_contra hseen
  rw [Bool.not_eq_false, existsAt, Option.any_eq_true] at hseen
  obtain ⟨y, hy, hsome⟩ := hseen
  rw [resolve, start_absolute hroot] at hy
  obtain ⟨rfl, hdirs⟩ := walk_eq_some.mp hy
  rcases h with ⟨ds, hds, hne, hnodir⟩ | hnone
  · exact hnodir (hdirs ds hds hne)
  · rw [targetLocation] at hnone
    simp [hnone] at hsome

theorem stagesBeside_of_direct (hcwd : ∀ c ∈ cwd, Plain c)
    (hname : Plain (targetPath cwd output).filename)
    (hdirect : Direct (targetPath cwd output).parts.dropLast) : StagesBeside cwd output where
  sibling := (siblingOf_iff (targetPath_wellFormed hcwd output)).mpr hname
  absent := by
    rintro plan metadataRecord fast fs e fs' rfl hsteps hfree hexec
    have hbeside := beside_of_plain hname
    have hwf := targetPath_wellFormed hcwd plan.workspace
    have hreached := hexec.sound (apply_wp hcwd hsteps)
    have hnone : fs.node (targetLocation (targetPath cwd plan.workspace)) = none := by
      by_contra hthere
      have hseen : existsAt cwd fs (targetPath cwd plan.workspace) = true :=
        hbeside.seen hwf (fun ds hds ↦ .inl (hdirect ds hds)) hthere
      rw [hfree] at hseen
      cases hseen
    have hnone' : fs'.node (targetLocation (targetPath cwd plan.workspace)) = none := by
      have happart := staging_apart hbeside []
      rw [List.append_nil] at happart
      rcases hreached _ happart with hsame | ⟨-, -, ds, hds, heq⟩
      · exact hsame.trans hnone
      · have hle := (heq ▸ hdirect ds hds).length_le
        rw [hbeside.targetLocation] at hle
        simp only [List.length_append, List.length_singleton] at hle
        exact absurd hle (by omega)
    exact unseen_of_missing hwf.absolute (.inr hnone')

def sabotage (cwd : Location) : (op : FsOp) → FileSystem → FsAnswer op × FileSystem
  | .exists _, fs => (false, fs)
  | .openTruncated _, fs => (false, fs)
  | .removeAll _, fs => (some ebusy, fs)
  | op, fs => perform cwd op fs

theorem sabotage_behaves (cwd : Location) (op : FsOp) (fs : FileSystem) :
    Behaves cwd (fun _ ↦ False) op fs (some (sabotage cwd op fs).1) (sabotage cwd op fs).2 := by
  cases op
  case «exists» path => exact .inr ⟨⟨rfl, by simp [sabotage]⟩, False.elim⟩
  case openTruncated path => exact .inr ⟨⟨by simp [sabotage], .inl rfl⟩, False.elim⟩
  case removeAll path => exact .inr ⟨⟨by simp [sabotage], .inl rfl⟩, False.elim⟩
  all_goals exact .inl ⟨rfl, rfl⟩

theorem run_createDirectories (hroot : path.absolute = true)
    (hfiles : ∀ ds, ds <+: path.parts → ∀ data, fs.node (locate [] ds) ≠ some (.file data)) :
    (createDirectories path).run (sabotage cwd) fs = (.ok (), (makeDirs fs [] path.parts).2) := by
  have hok : (makeDirs fs [] path.parts).1 = true := makeDirs_ok fs.root hfiles
  have hperform : sabotage cwd (.createDirectories path) fs =
      (none, (makeDirs fs [] path.parts).2) := by
    simp only [sabotage, perform_createDirectories cwd fs hroot, hok, if_true]
  unfold FilesystemService.createDirectories
  rw [ask_bind, run, hperform]
  rfl

theorem run_refuseNested (target : HostPath) (ancestors : List HostPath) :
    (refuseNested target ancestors).run (sabotage cwd) fs = (.ok (), fs) := by
  induction ancestors with
  | nil => rfl
  | cons ancestor rest ih => exact ih

theorem run_writeFile {content : Bytes} {executable : Bool} (hroot : path.absolute = true)
    (hfiles : ∀ ds, ds <+: path.parts.dropLast → ∀ data, fs.node (locate [] ds) ≠ some (.file data)) :
    (writeFile path content executable).run (sabotage cwd) fs =
      (.error (filesystemError "filesystem.permission" (ascii "could not open file for writing") path),
        (makeDirs fs [] path.parts.dropLast).2) := by
  have hhas : path.hasParentPath = true := by
    simp [HostPath.hasParentPath, HostPath.isEmpty, HostPath.parentPath, hroot]
  have hparent : (createParent path).run (sabotage cwd) fs =
      (.ok (), (makeDirs fs [] path.parts.dropLast).2) := by
    rw [createParent, if_pos hhas]
    exact run_createDirectories hroot hfiles
  rw [writeFile, run_bind, hparent]
  rfl

theorem recordOf_stagingAt (htmp : Plain tmp) : recordOf (stagingAt ps tmp) =
    ⟨true, ps ++ [tmp] ++ [ascii ".squared"] ++ [ascii "metadata.json"]⟩ := by
  have hsplit : splitPath kMetadataFile = [ascii ".squared"] ++ [ascii "metadata.json"] := by decide
  rw [recordOf, append_staging htmp inside_kMetadataFile, hsplit, ← List.append_assoc]

theorem run_build (htmp : Plain tmp) (hsteps : plan.steps = [])
    (hfiles : ∀ ds, ds <+: ps ++ [tmp] ++ [ascii ".squared"] →
      ∀ data, fs.node (locate [] ds) ≠ some (.file data)) :
    ∃ e, (build (stagingAt ps tmp) target plan metadataRecord fast).run (sabotage cwd) fs =
      (.error e, (makeDirs fs [] (ps ++ [tmp] ++ [ascii ".squared"])).2) := by
  have hparts : recordOf (stagingAt ps tmp) =
      ⟨true, ps ++ [tmp] ++ [ascii ".squared"] ++ [ascii "metadata.json"]⟩ := recordOf_stagingAt htmp
  have hdrop : (recordOf (stagingAt ps tmp)).parts.dropLast = ps ++ [tmp] ++ [ascii ".squared"] := by
    rw [hparts, List.dropLast_concat]
  have hwrite : ∀ text, ∃ e, (writeFile (recordOf (stagingAt ps tmp)) text false).run (sabotage cwd)
      fs = (.error e, (makeDirs fs [] (ps ++ [tmp] ++ [ascii ".squared"])).2) := by
    intro text
    rw [← hdrop]
    exact ⟨_, run_writeFile (hparts ▸ rfl) (hdrop ▸ hfiles)⟩
  obtain ⟨e, hwrite⟩ := hwrite (jsonWrite (completeRecord metadataRecord [] [] fast) true)
  refine ⟨e, ?_⟩
  rw [build, hsteps, List.foldlM_nil, run_bind]
  dsimp only [Program.pure_eq, run]
  rw [run_bind, writeRecord, run_bind, hwrite]

theorem run_sabotage (hcwd : ∀ c ∈ cwd, Plain c) (hsteps : plan.steps = [])
    (hfiles : ∀ ds, ds <+: (targetOf cwd plan).parts.dropLast ++ [stagingName (targetOf cwd plan)] ++
      [ascii ".squared"] → ∀ data, fs.node (locate [] ds) ≠ some (.file data)) :
    ∃ e fs', (apply cwd plan metadataRecord fast).run (sabotage cwd) fs = (.error e, fs') ∧
      Made fs' [] (targetOf cwd plan).parts.dropLast ∧
      ∀ x, fs.node x ≠ none → fs'.node x ≠ none := by
  have hwf := targetOf_wellFormed hcwd plan
  have htmp := plain_stagingName (targetOf cwd plan)
  generalize hps : (targetOf cwd plan).parts.dropLast = ps at hfiles ⊢
  generalize htn : stagingName (targetOf cwd plan) = tmp at hfiles htmp
  have hstaging : stagingPathFor (targetOf cwd plan) = stagingAt ps tmp := by
    rw [stagingPathFor_eq hwf, hps, htn]
  have hwayfiles : ∀ ds, ds <+: ps ++ [tmp] → ∀ data, fs.node (locate [] ds) ≠ some (.file data) :=
    fun ds hds ↦ hfiles ds (hds.trans (List.prefix_append _ _))
  obtain ⟨hgrown, hmade⟩ := makeDirs_made hwayfiles
  have hcreate : (createDirectories (stagingAt ps tmp)).run (sabotage cwd) fs =
      (.ok (), (makeDirs fs [] (ps ++ [tmp])).2) := run_createDirectories rfl hwayfiles
  generalize (makeDirs fs [] (ps ++ [tmp])).2 = base at hgrown hmade hcreate
  have hbasefiles : ∀ ds, ds <+: ps ++ [tmp] ++ [ascii ".squared"] →
      ∀ data, base.node (locate [] ds) ≠ some (.file data) :=
    fun ds hds data ↦ hgrown.no_file (hfiles ds hds data)
  obtain ⟨hgrown', -⟩ := makeDirs_made hbasefiles
  obtain ⟨e, hbuild⟩ : ∃ e, (build (stagingAt ps tmp) (targetOf cwd plan) plan metadataRecord
      fast).run (sabotage cwd) base =
        (.error e, (makeDirs base [] (ps ++ [tmp] ++ [ascii ".squared"])).2) :=
    run_build htmp hsteps hbasefiles
  refine ⟨e, _, ?_, fun ds hds ↦ hgrown'.dir (hmade ds (hds.trans (List.prefix_append _ _))),
    fun x hx ↦ hgrown'.kept (hgrown.kept hx)⟩
  have hexisting : (refuseExisting (targetOf cwd plan)).run (sabotage cwd) fs = (.ok (), fs) := rfl
  have hclear : (clearStaging (stagingAt ps tmp)).run (sabotage cwd) fs = (.ok (), fs) := rfl
  unfold apply
  dsimp only
  rw [hstaging, run_bind, hexisting]
  dsimp only
  rw [run_bind, run_refuseNested]
  dsimp only
  rw [run_bind, hclear]
  dsimp only
  rw [run_bind, hcreate]
  dsimp only
  rw [run_bind, run_handle, hbuild]
  rfl

theorem plain_locate (hl : ∀ c ∈ l, Plain c) (ps : List Bytes) : ∀ c ∈ locate l ps, Plain c := by
  induction ps generalizing l with
  | nil => exact hl
  | cons d ps ih =>
    refine ih fun c hc ↦ ?_
    unfold advance at hc
    split_ifs at hc with hdot hdotdot
    · exact hl c hc
    · exact hl c (List.dropLast_subset _ hc)
    · rcases List.mem_append.mp hc with hc | hc
      · exact hl c hc
      · obtain rfl := List.mem_singleton.mp hc
        exact ⟨fun h ↦ hdot (.inl h), fun h ↦ hdot (.inr h), hdotdot⟩

theorem exists_occupied {d : Location} (hd : ∀ c ∈ d, Plain c) (name : Bytes) :
    ∃ fs : FileSystem, ∀ x, fs.node x = if x = d ++ [name] then some (.file ⟨[], false⟩)
      else if x <+: d then some .dir else none := by
  obtain ⟨hgrown, hmade⟩ := makeDirs_made fun ds (_ : ds <+: d) ↦ FileTree.bare_no_file (locate [] ds)
  have hnode : ∀ x, (makeDirs FileTree.bare [] d).2.node x = if x <+: d then some .dir else none := by
    intro x
    split_ifs with hx
    · have hdir := hmade x hx
      rwa [locate_plain fun c hc ↦ hd c (hx.subset hc)] at hdir
    · rcases hgrown x with hsame | ⟨-, -, ds, hds, heq⟩
      · rw [hsame]
        exact if_neg fun hnil ↦ hx (by simp [hnil])
      · rw [locate_plain fun c hc ↦ hd c (hds.subset hc)] at heq
        exact absurd (by simpa [heq] using hds) hx
  have hlong : ¬ d ++ [name] <+: d := fun hp ↦ absurd hp.length_le (by simp)
  have hfits : (makeDirs FileTree.bare [] d).2.Fits (d ++ [name]) (.file ⟨[], false⟩) := by
    refine ⟨by simp, ?_, .inr ?_⟩
    · rw [List.dropLast_concat, FileTree.isDir_iff, hnode, if_pos List.prefix_rfl]
    · rw [← Bool.not_eq_true, FileTree.isDir_iff, hnode, if_neg hlong]
      simp
  refine ⟨(makeDirs FileTree.bare [] d).2.put (d ++ [name]) (.file ⟨[], false⟩), fun x ↦ ?_⟩
  rw [FileTree.node_put hfits, Layout.put, hnode]

/-- A transaction that is given up keeps the directories it made, so no file system may be such
that the target is seen only then. -/
theorem unseen_of_stagesBeside (hcwd : ∀ c ∈ cwd, Plain c) (h : StagesBeside cwd output)
    (hname : Plain (targetPath cwd output).filename)
    (hfiles : ∀ ds, ds <+: (targetPath cwd output).parts.dropLast ++
      [stagingName (targetPath cwd output)] ++ [ascii ".squared"] →
      ∀ data, fs.node (locate [] ds) ≠ some (.file data))
    (hfree : existsAt cwd fs (targetPath cwd output) = false) :
    ∃ fs', Made fs' [] (targetPath cwd output).parts.dropLast ∧
      (∀ x, fs.node x ≠ none → fs'.node x ≠ none) ∧
      fs'.node (targetLocation (targetPath cwd output)) = none := by
  have hbeside := beside_of_plain hname
  have hwf := targetPath_wellFormed hcwd output
  obtain ⟨e, fs', hrun, hmade, hstay⟩ : ∃ e fs',
      (apply cwd { samplePlan "" [] with workspace := output } .null true).run (sabotage cwd) fs =
        (.error e, fs') ∧ Made fs' [] (targetPath cwd output).parts.dropLast ∧
      ∀ x, fs.node x ≠ none → fs'.node x ≠ none := run_sabotage hcwd rfl hfiles
  have hexec := exec_run (sabotage_behaves cwd)
    (apply cwd { samplePlan "" [] with workspace := output } .null true) fs
  rw [hrun] at hexec
  have hunseen := h.absent _ _ _ _ _ _ rfl (by simp [samplePlan]) hfree hexec
  refine ⟨fs', hmade, hstay, ?_⟩
  by_contra hthere
  have hseen : existsAt cwd fs' (targetPath cwd output) = true :=
    hbeside.seen hwf (fun ds hds ↦ .inr (hmade ds hds)) hthere
  rw [hunseen] at hseen
  cases hseen

theorem off_target_of_stagesBeside (hcwd : ∀ c ∈ cwd, Plain c) (h : StagesBeside cwd output)
    (hname : Plain (targetPath cwd output).filename) (hds : ds <+: (targetPath cwd output).parts.dropLast) :
    ¬ targetLocation (targetPath cwd output) <+: locate [] ds := by
  intro hbelow
  have hbeside := beside_of_plain hname
  have hnone : (FileTree.bare : FileSystem).node (targetLocation (targetPath cwd output)) = none := by
    rw [hbeside.targetLocation]
    exact if_neg (by simp)
  obtain ⟨fs', hmade, -, hgone⟩ := unseen_of_stagesBeside hcwd h hname (fun _ _ ↦ FileTree.bare_no_file _)
    (unseen_of_missing (targetPath_wellFormed hcwd output).absolute (.inr hnone))
  have hdir := hmade ds hds
  by_cases heq : targetLocation (targetPath cwd output) = locate [] ds
  · rw [heq, hdir] at hgone
    cases hgone
  · rw [FileTree.dir_above (by simp [hdir]) hbelow heq] at hgone
    cases hgone

theorem record_way_off_target (hbeside : Beside target)
    (hoff : ∀ es, es <+: target.parts.dropLast → locate [] es ≠ targetLocation target)
    (hds : ds <+: target.parts.dropLast ++ [stagingName target] ++ [ascii ".squared"]) :
    locate [] ds ≠ targetLocation target := by
  have htmp := plain_stagingName target
  have hstaging : ∀ y, stagingLocation target.parts.dropLast (stagingName target) ++ y ≠
      targetLocation target := by
    intro y heq
    have happart := staging_apart hbeside []
    rw [List.append_nil, ← heq] at happart
    exact happart (List.prefix_append _ y)
  rcases List.prefix_concat_iff.mp hds with rfl | hds
  · have hplain : ∀ c ∈ [ascii ".squared"], Plain c := by decide
    rw [locate_below htmp hplain]
    exact hstaging _
  · rcases List.prefix_concat_iff.mp hds with rfl | hds
    · rw [locate_staging htmp, ← List.append_nil (stagingLocation _ _)]
      exact hstaging []
    · exact hoff ds hds

theorem direct_of_stagesBeside (hcwd : ∀ c ∈ cwd, Plain c) (h : StagesBeside cwd output)
    (hname : Plain (targetPath cwd output).filename) :
    Direct (targetPath cwd output).parts.dropLast := by
  intro ds hds
  by_contra hdetour
  have hbeside := beside_of_plain hname
  obtain ⟨fs, hfs⟩ := exists_occupied
    (plain_locate (l := []) (by simp) (targetPath cwd output).parts.dropLast)
    (targetPath cwd output).filename
  rw [← hbeside.targetLocation] at hfs
  have hoff : ∀ es, es <+: (targetPath cwd output).parts.dropLast →
      locate [] es ≠ targetLocation (targetPath cwd output) :=
    fun es hes heq ↦ off_target_of_stagesBeside hcwd h hname hes (heq ▸ List.prefix_rfl)
  have hnofile : ∀ es, es <+: (targetPath cwd output).parts.dropLast ++
      [stagingName (targetPath cwd output)] ++ [ascii ".squared"] →
      ∀ data, fs.node (locate [] es) ≠ some (.file data) := by
    intro es hes data
    rw [hfs, if_neg (record_way_off_target hbeside hoff hes)]
    split_ifs <;> simp
  have hmissing : fs.node (locate [] ds) ≠ some .dir := by
    rw [hfs, if_neg (hoff ds hds), if_neg hdetour]
    simp
  have hproper : ds ≠ (targetPath cwd output).parts := by
    rintro rfl
    have hle := hds.length_le
    rw [hbeside.parts] at hle
    simp only [List.dropLast_concat, List.length_append, List.length_singleton] at hle
    omega
  obtain ⟨fs', -, hstay, hgone⟩ := unseen_of_stagesBeside hcwd h hname hnofile
    (unseen_of_missing (targetPath_wellFormed hcwd output).absolute
      (.inl ⟨ds, hds.trans (List.dropLast_prefix _), hproper, hmissing⟩))
  refine hstay _ ?_ hgone
  rw [hfs, if_pos rfl]
  simp

/-- The staging directory is a sibling, and errors bring no target about, exactly where the target
is spelled as a name behind a direct path. -/
theorem stagesBeside_iff (hcwd : ∀ c ∈ cwd, Plain c) (output : Bytes) :
    StagesBeside cwd output ↔ Plain (targetPath cwd output).filename ∧
      Direct (targetPath cwd output).parts.dropLast := by
  constructor
  · intro h
    have hname := (siblingOf_iff (targetPath_wellFormed hcwd output)).mp h.sibling
    exact ⟨hname, direct_of_stagesBeside hcwd h hname⟩
  · exact fun ⟨hname, hdirect⟩ ↦ stagesBeside_of_direct hcwd hname hdirect

theorem working_stagesBeside_iff : StagesBeside [ascii "w"] (ascii "b") ↔
    Plain (targetPath [ascii "w"] (ascii "b")).filename ∧
      Direct (targetPath [ascii "w"] (ascii "b")).parts.dropLast :=
  stagesBeside_iff (by decide) (ascii "b")

/-- Behind a trailing separator the staging directory lies in the target. -/
theorem trailing_separator_stages_inside : ¬ StagesBeside [ascii "w"] (ascii "b/") :=
  fun h ↦ h.sibling.outside (by decide)

end TransactionService

end SquaredPg
