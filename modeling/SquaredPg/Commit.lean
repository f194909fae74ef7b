import SquaredPg.PlanProperties
import SquaredPg.Staging

namespace SquaredPg

open Ascii Fallible Program

namespace TransactionService

open FilesystemService FileSystem MetadataService

def targetLocation (target : HostPath) : Location := locate [] target.parts

variable {cwd : Location} {target : HostPath} {trusted : FsOp → Prop} {steps : List PlanStep}
  {fs fs' : FileSystem} {plan : GenerationPlan} {metadataRecord : Value} {fast : Bool}

/-- The staging directory and the target lie side by side. -/
structure Beside (target : HostPath) : Prop where
  parts : target.parts = target.parts.dropLast ++ [target.filename]
  plain : Plain target.filename

theorem Beside.targetLocation (h : Beside target) :
    targetLocation target = locate [] target.parts.dropLast ++ [target.filename] := by
  rw [TransactionService.targetLocation, h.parts, locate_concat, advance_plain h.plain,
    List.dropLast_concat]

theorem apart_of_ne {α : Type} {d : List α} {a b : α} (h : a ≠ b) : ¬ d ++ [a] <+: d ++ [b] := by
  intro hp
  have heq := hp.eq_of_length (by simp)
  exact h (by simpa using heq)

theorem named_of_moved {dst : Location} (hwf : WellFormed target)
    (hstaged : fs.node (stagingLocation target.parts.dropLast (stagingName target)) = some .dir)
    (hdst : resolveEntry cwd fs { target with parts := target.stem } = some dst)
    (hmove : stagingLocation target.parts.dropLast (stagingName target) = dst ∨
      fs.Movable (stagingLocation target.parts.dropLast (stagingName target)) dst) :
    target.filename ≠ [] := by
  intro hname
  rw [HostPath.stem_of_unnamed hname, hwf.absolute] at hdst
  rcases List.eq_nil_or_concat' target.parts.dropLast with hnil | ⟨qs, q, hdrop⟩
  · rw [hnil] at hdst
    unfold resolveEntry HostPath.filename at hdst
    split_ifs at hdst with hplain
    exact absurd rfl hplain.1
  · rw [hdrop] at hdst hmove hstaged
    obtain ⟨hq, -, rfl⟩ := resolveEntry_eq rfl rfl hdst
    have hbelow : stagingLocation (qs ++ [q]) (stagingName target) =
        (locate [] qs ++ [q]) ++ [stagingName target] := by
      rw [stagingLocation, locate_concat, advance_plain hq]
    rw [hbelow] at hmove hstaged
    rcases hmove with heq | hmovable
    · exact absurd heq (by simp)
    · have hnone := FileTree.emptyBelow_iff.mp hmovable.2.2.2.2.2 _
        (List.prefix_append _ [stagingName target]) (by simp)
      rw [hstaged] at hnone
      cases hnone

theorem Renamed.beside (hwf : WellFormed target)
    (hmade : Made fs [] (target.parts.dropLast ++ [stagingName target]))
    (h : Renamed cwd fs (stagingAt target.parts.dropLast (stagingName target)) target fs') :
    Beside target ∧
      fs.Movable (stagingLocation target.parts.dropLast (stagingName target))
        (targetLocation target) ∧
      replaceable fs (stagingLocation target.parts.dropLast (stagingName target))
        (targetLocation target) = true ∧
      fs' = fs.move (stagingLocation target.parts.dropLast (stagingName target))
        (targetLocation target) := by
  have htmp := plain_stagingName target
  obtain ⟨src, dst, hsrc, hdst, hmove⟩ := h
  have hstem : (stagingAt target.parts.dropLast (stagingName target)).stem =
      target.parts.dropLast ++ [stagingName target] :=
    if_neg fun h ↦ htmp.1 (by simpa using h)
  have hsrc' : src = stagingLocation target.parts.dropLast (stagingName target) := by
    rw [hstem, resolveEntry_of_made rfl rfl htmp (hmade.shorten (List.prefix_append _ _))] at hsrc
    exact (Option.some.inj hsrc).symm
  subst hsrc'
  have hname : target.filename ≠ [] := named_of_moved hwf
    (locate_staging htmp ▸ hmade _ List.prefix_rfl) hdst (hmove.imp And.left And.left)
  have hparts := HostPath.parts_of_named hname
  rw [HostPath.stem_of_named hname] at hdst
  obtain ⟨hplain, -, hloc⟩ := resolveEntry_eq hwf.absolute hparts hdst
  have hbeside : Beside target := ⟨hparts, hplain⟩
  rw [hbeside.targetLocation, ← hloc]
  rcases hmove with ⟨heq, -⟩ | ⟨hmovable, hover, rfl⟩
  · rw [hloc, stagingLocation] at heq
    exact absurd (List.append_cancel_left heq) (by simpa using stagingName_ne)
  · exact ⟨hbeside, hmovable, hover, rfl⟩

/-- What a transaction that went through leaves: the staged tree at the target, and nothing at the
staging directory. -/
theorem Committed.nodes (hwf : WellFormed target) (h : Committed cwd trusted target steps fs fs') :
    Beside target ∧ ∃ base staged,
      Prepared cwd trusted target.parts.dropLast (stagingName target) fs base ∧
      Staged trusted target.parts.dropLast (stagingName target) base steps staged ∧
      fs'.node.below (targetLocation target) =
        staged.node.below (stagingLocation target.parts.dropLast (stagingName target)) ∧
      ∀ x, ¬ targetLocation target <+: x → fs'.node x =
        if stagingLocation target.parts.dropLast (stagingName target) <+: x then none
        else staged.node x := by
  obtain ⟨base, hbase, staged, hstaged, hmoved⟩ := h
  obtain ⟨hbeside, hmovable, -, rfl⟩ := Renamed.beside hwf hstaged.made hmoved
  refine ⟨hbeside, base, staged, hbase, hstaged, funext fun y ↦ ?_, fun x hx ↦ ?_⟩
  · simp [Layout.below, FileTree.node_move hmovable]
  · rw [FileTree.node_move hmovable, if_neg hx]

theorem Landed.layout {base : FileSystem} (hwf : WellFormed target)
    (hclose : ∀ p w, trusted (.close p w))
    (h : Landed cwd trusted target.parts.dropLast (stagingName target) base steps target fs') :
    steps.foldlM stepLayout
        (base.node.below (stagingLocation target.parts.dropLast (stagingName target))) =
      some (fs'.node.below (targetLocation target)) := by
  obtain ⟨staged, hstaged, hmoved⟩ := h
  obtain ⟨-, hmovable, -, rfl⟩ := Renamed.beside hwf hstaged.made hmoved
  have hbelow : (staged.move (stagingLocation target.parts.dropLast (stagingName target))
      (targetLocation target)).node.below (targetLocation target) =
      staged.node.below (stagingLocation target.parts.dropLast (stagingName target)) := by
    funext y
    simp [Layout.below, FileTree.node_move hmovable]
  rw [hbelow]
  exact hstaged.layout hclose

theorem Committed.layout (hwf : WellFormed target) (hclose : ∀ p w, trusted (.close p w))
    (h : Committed cwd trusted target steps fs fs') :
    ∃ f, f [] = some .dir ∧
      steps.foldlM stepLayout f = some (fs'.node.below (targetLocation target)) ∧
      (trusted (.exists (stagingAt target.parts.dropLast (stagingName target))) →
        Clear cwd target.parts.dropLast (stagingName target) fs → f = Layout.bare) := by
  obtain ⟨base, hbase, hlanded⟩ := h
  refine ⟨_, ?_, hlanded.layout hwf hclose, hbase.empty⟩
  rw [Layout.below, List.append_nil]
  exact locate_staging (plain_stagingName target) ▸ hbase.made _ List.prefix_rfl

/-- Outside the target nothing differs but directories that its path goes through, which are new,
and a leftover staging directory, which is gone. -/
def KeepsOutside (target : HostPath) (fs fs' : FileSystem) : Prop :=
  ∀ x, ¬ targetLocation target <+: x → fs'.node x = fs.node x ∨
    (fs.node x = none ∧ fs'.node x = some .dir ∧
      ∃ ds, ds <+: target.parts.dropLast ∧ x = locate [] ds) ∨
    (stagingLocation target.parts.dropLast (stagingName target) <+: x ∧ fs'.node x = none)

theorem Committed.keepsOutside (hwf : WellFormed target)
    (h : Committed cwd trusted target steps fs fs') : KeepsOutside target fs fs' := by
  intro x hx
  obtain ⟨-, base, staged, hbase, hstaged, -, hother⟩ := h.nodes hwf
  rw [hother x hx]
  split_ifs with hp
  · exact .inr (.inr ⟨hp, rfl⟩)
  · rw [hstaged.outside x hp]
    exact (hbase.reached x hp).imp_right .inl

theorem sound_run {α : Type} {p : FsProgram α} {ok : α → FileSystem → Prop}
    {err : EngineError → FileSystem → Prop} {stop : FileSystem → Prop} {a : α}
    (hrun : p.run (perform cwd) fs = (.ok a, fs'))
    (hp : p.wp (Behaves cwd fun _ ↦ True) ok err stop fs) : ok a fs' := by
  have hexec := exec_perform cwd (fun _ ↦ True) p fs
  rw [hrun] at hexec
  exact hexec.sound hp

theorem run_committed {outcome : Outcome} (hcwd : ∀ c ∈ cwd, Plain c)
    (hsteps : ∀ step ∈ plan.steps, Inside step.path)
    (hrun : (apply cwd plan metadataRecord fast).run (perform cwd) fs = (.ok outcome, fs')) :
    Committed cwd (fun _ ↦ True) (targetOf cwd plan) (stagedSteps metadataRecord plan.steps fast)
      fs fs' := by
  have hcommitted := sound_run hrun (apply_wp hcwd hsteps)
  exact hcommitted

def writtenPaths (steps : List PlanStep) : List Bytes :=
  (steps.filter fun step ↦ step.isDirectory = false).map PlanStep.path

/-- The tree is what the steps and the record say, and nothing else. -/
structure HoldsExactly (steps : List PlanStep) (record : Bytes) (f : Layout Bytes FileData) :
    Prop where
  directories : ∀ x, f x = some .dir ↔ x = [] ∨ x = [ascii ".squared"] ∨
    ∃ step ∈ steps, x <+: step.location ∧ (step.isDirectory = true ∨ x ≠ step.location)
  files : ∀ x data, f x = some (.file data) ↔
    (x = splitPath kMetadataFile ∧ data = ⟨record, false⟩) ∨
      ∃ step ∈ steps, step.isDirectory = false ∧ x = step.location ∧
        data = ⟨step.content, step.executable⟩

theorem writesAt_eq_singleton {step : PlanStep} {x : Location}
    (hsteps : ∀ step ∈ steps, Inside step.path) (hdistinct : (writtenPaths steps).Nodup)
    (hstep : step ∈ writesAt steps x) : writesAt steps x = [step] := by
  have hpaths : (writesAt steps x).map PlanStep.path =
      List.replicate (writesAt steps x).length (joinPath x) := by
    rw [List.map_eq_replicate_iff]
    intro s hs
    obtain ⟨hmem, -, rfl⟩ := mem_writesAt.mp hs
    exact (hsteps s hmem).joined.symm
  have hsub : (writesAt steps x).Sublist (steps.filter fun step ↦ step.isDirectory = false) := by
    unfold writesAt
    refine List.monotone_filter_right steps fun s hs ↦ ?_
    simp only [decide_eq_true_eq] at hs ⊢
    exact hs.1
  have hnodup := hdistinct.sublist (hsub.map PlanStep.path)
  rw [hpaths, List.nodup_replicate] at hnodup
  obtain ⟨a, ha⟩ : ∃ a, writesAt steps x = [a] := by
    rw [← List.length_eq_one_iff]
    have := List.length_pos_of_mem hstep
    omega
  rw [ha] at hstep ⊢
  rw [List.mem_singleton.mp hstep]

theorem writesAt_eq_nil {path : Bytes} (hsteps : ∀ step ∈ steps, Inside step.path)
    (hpath : joinPath (splitPath path) = path) (h : path ∉ writtenPaths steps) :
    writesAt steps (splitPath path) = [] := by
  refine List.eq_nil_iff_forall_not_mem.mpr fun step hstep ↦ h ?_
  obtain ⟨hmem, hfile, hloc⟩ := mem_writesAt.mp hstep
  have heq : step.path = path := by
    rw [← (hsteps step hmem).joined, ← hpath]
    exact congrArg joinPath hloc
  exact List.mem_map.mpr ⟨step, List.mem_filter.mpr ⟨hmem, by simpa using hfile⟩, heq⟩

theorem fileOver_writesAt {x : Location} {data : FileData}
    (hsteps : ∀ step ∈ steps, Inside step.path) (hdistinct : (writtenPaths steps).Nodup) :
    fileOver none (writesAt steps x) = some data ↔ ∃ step ∈ steps, step.isDirectory = false ∧
      x = step.location ∧ data = ⟨step.content, step.executable⟩ := by
  constructor
  · intro hover
    obtain ⟨before, last, heq⟩ : ∃ before last, writesAt steps x = before ++ [last] := by
      refine (List.eq_nil_or_concat' _).resolve_left fun hnil ↦ ?_
      rw [hnil] at hover
      cases hover
    have hlast : last ∈ writesAt steps x := by simp [heq]
    obtain ⟨hmem, hf, hloc⟩ := mem_writesAt.mp hlast
    rw [writesAt_eq_singleton hsteps hdistinct hlast] at hover
    refine ⟨last, hmem, hf, hloc.symm, ?_⟩
    simpa [fileOver, PlanStep.fileData, eq_comm] using hover
  · rintro ⟨step, hmem, hf, hloc, rfl⟩
    rw [writesAt_eq_singleton hsteps hdistinct (mem_writesAt.mpr ⟨hmem, hf, hloc.symm⟩)]
    simp [fileOver, PlanStep.fileData]

theorem writesAt_recorded {record : Bytes} {x : Location} :
    writesAt (steps ++ [recordStep record]) x =
      writesAt steps x ++ if x = splitPath kMetadataFile then [recordStep record] else [] := by
  rw [writesAt_append, writesAt_singleton]
  congr 1
  simp [recordStep, PlanStep.isDirectory, PlanStep.location, eq_comm]

theorem location_recordStep (record : Bytes) :
    (recordStep record).location = [ascii ".squared", ascii "metadata.json"] := by
  change splitPath kMetadataFile = _
  decide

theorem proper_prefix_pair {α : Type} {x : List α} {a b : α} :
    x <+: [a, b] ∧ x ≠ [a, b] ↔ x = [] ∨ x = [a] := by
  rw [List.prefix_cons_iff]
  simp only [List.prefix_cons_iff, List.prefix_nil]
  constructor
  · rintro ⟨rfl | ⟨t, rfl, rfl | ⟨t', rfl, rfl⟩⟩, hne⟩
    · exact .inl rfl
    · exact .inr rfl
    · exact absurd rfl hne
  · rintro (rfl | rfl) <;> simp

theorem holdsExactly_of_steps {record : Bytes} {f : Layout Bytes FileData}
    (hsteps : ∀ step ∈ steps, Inside step.path) (hdistinct : (writtenPaths steps).Nodup)
    (hrecord : kMetadataFile ∉ writtenPaths steps)
    (h : (steps ++ [recordStep record]).foldlM stepLayout .bare = some f) :
    HoldsExactly steps record f := by
  constructor
  · intro x
    have hpair := proper_prefix_pair (x := x) (a := ascii ".squared") (b := ascii "metadata.json")
    have hfile : (recordStep record).isDirectory = false := rfl
    rw [dir_of_steps_iff h]
    simp only [List.mem_append, List.mem_singleton, or_and_right, exists_or, exists_eq_left,
      location_recordStep, hfile, Bool.false_eq_true, false_or, hpair]
    constructor
    · rintro (hnil | hway | hnil | hdir)
      exacts [.inl hnil, .inr (.inr hway), .inl hnil, .inr (.inl hdir)]
    · rintro (hnil | hdir | hway)
      exacts [.inl hnil, .inr (.inr (.inr hdir)), .inr (.inl hway)]
  · intro x data
    rw [file_of_steps h, writesAt_recorded, ← fileOver_writesAt hsteps hdistinct]
    by_cases hx : x = splitPath kMetadataFile
    · rw [hx, writesAt_eq_nil hsteps inside_kMetadataFile.joined hrecord, if_pos rfl]
      simp [fileOver, recordStep, PlanStep.fileData, eq_comm]
    · rw [if_neg hx, List.append_nil]
      simp [hx]

theorem confined_of_normal {path : Bytes} (h : path ≠ [] ∧ normalizeRelative path = path ∧
    StartsWithDrive isLetter (kept path) = false) : Confined path := by
  obtain ⟨hne, hnormal, hdrive⟩ := h
  rw [← hnormal] at hne ⊢
  exact (normalizeRelative_confined hne).mpr fun hd ↦ by simp [hd.2] at hdrive

theorem exists_ok_run {α : Type} (cwd : Location) (fs : FileSystem) (p : FsProgram α)
    (h : (p.run (perform cwd) fs).1.toOption.isSome = true) :
    ∃ a, p.run (perform cwd) fs = (.ok a, (p.run (perform cwd) fs).2) := by
  obtain ⟨a, ha⟩ := exists_ok h
  exact ⟨a, Prod.ext ha rfl⟩

def samplePlan (output : String) (steps : List PlanStep) : GenerationPlan where
  projectName := ascii "sample"
  workspace := ascii output
  workingDirectory := ascii "sq_app"
  templateRef := ⟨.empty, []⟩
  templateVersion := []
  kits := []
  kitVersions := []
  packages := []
  packageVersions := []
  assets := []
  platforms := []
  frameworkVersion := []
  steps
  diagnostics := []

def sampleSteps : List PlanStep :=
  [directoryStep .workspace (ascii "sq_app"),
    { path := ascii "bin/run", content := ascii "go", executable := true }]

theorem sample_confined : ∀ step ∈ (samplePlan "/b" sampleSteps).steps, Confined step.path := by
  have hnormal : ∀ step ∈ sampleSteps, step.path ≠ [] ∧ normalizeRelative step.path = step.path ∧
      StartsWithDrive isLetter (kept step.path) = false := by decide
  exact fun step hstep ↦ confined_of_normal (hnormal step hstep)

/-- What a run in which nothing fails leaves is the plan's workspace, at the target alone. -/
theorem apply_faithful {outcome : Outcome} (hcwd : ∀ c ∈ cwd, Plain c)
    (hconfined : ∀ step ∈ plan.steps, Confined step.path)
    (hdistinct : (writtenPaths plan.steps).Nodup)
    (hrecord : kMetadataFile ∉ writtenPaths plan.steps)
    (hclear : Clear cwd (targetOf cwd plan).parts.dropLast (stagingName (targetOf cwd plan)) fs)
    (hrun : (apply cwd plan metadataRecord fast).run (perform cwd) fs = (.ok outcome, fs')) :
    HoldsExactly plan.steps (recordText metadataRecord plan.steps fast)
        (fs'.node.below (targetLocation (targetOf cwd plan))) ∧
      KeepsOutside (targetOf cwd plan) fs fs' := by
  have hsteps : ∀ step ∈ plan.steps, Inside step.path := fun s hs ↦ (hconfined s hs).inside
  have hwf := targetOf_wellFormed hcwd plan
  have hcommitted := run_committed hcwd hsteps hrun
  obtain ⟨f, -, hlayout, hempty⟩ := hcommitted.layout hwf fun _ _ ↦ trivial
  rw [hempty trivial hclear] at hlayout
  exact ⟨holdsExactly_of_steps hsteps hdistinct hrecord hlayout, hcommitted.keepsOutside hwf⟩

theorem sample_faithful : ∃ outcome fs',
    (apply [] (samplePlan "/b" sampleSteps) (.object []) false).run (perform []) .bare =
      (.ok outcome, fs') ∧
    HoldsExactly sampleSteps (recordText (.object []) sampleSteps false)
        (fs'.node.below (targetLocation (targetOf [] (samplePlan "/b" sampleSteps)))) ∧
      KeepsOutside (targetOf [] (samplePlan "/b" sampleSteps)) .bare fs' := by
  obtain ⟨outcome, hrun⟩ := exists_ok_run [] .bare
    (apply [] (samplePlan "/b" sampleSteps) (.object []) false) (by decide +kernel)
  exact ⟨outcome, _, hrun, apply_faithful (by simp) sample_confined (by decide) (by decide)
    (clear_of_direct (plain_stagingName _) (direct_of_plain (by decide))) hrun⟩

def leftover : FileSystem :=
  (FileTree.bare.put [ascii ".b.squared-tmp"] .dir).put [ascii ".b.squared-tmp", ascii "a"]
    (.file ⟨ascii "old", false⟩)

/-- What was left over is gone after a run. -/
theorem leftover_removed : ∃ outcome fs',
    (apply [] (samplePlan "/b" []) (.object []) true).run (perform []) leftover =
      (.ok outcome, fs') ∧
    existsAt [] leftover (targetOf [] (samplePlan "/b" [])) = false ∧
    ∃ x, ¬ targetLocation (targetOf [] (samplePlan "/b" [])) <+: x ∧
      leftover.node x ≠ none ∧ fs'.node x = none := by
  obtain ⟨outcome, hrun⟩ := exists_ok_run [] leftover
    (apply [] (samplePlan "/b" []) (.object []) true) (by decide +kernel)
  exact ⟨outcome, _, hrun, by decide, [ascii ".b.squared-tmp", ascii "a"], by decide, by decide,
    by decide +kernel⟩

end TransactionService

end SquaredPg
