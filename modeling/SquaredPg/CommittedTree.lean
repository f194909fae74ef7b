import SquaredPg.Commit

namespace SquaredPg

open Ascii Program

namespace TransactionService

open FilesystemService FileSystem MetadataService

/-- What `apply` does before the first step. -/
def prepare (target : HostPath) : FsProgram Unit := do
  refuseExisting target
  refuseNested target target.properAncestors
  clearStaging (stagingPathFor target)
  createDirectories (stagingPathFor target)

/-- What `apply` does from the first step on. -/
def land (staging target : HostPath) (plan : GenerationPlan) (metadataRecord : Value) (fast : Bool) :
    FsProgram Outcome := do
  let outcome ← (build staging target plan metadataRecord fast).handle (abortWith staging)
  if target.hasParentPath then syncUnless fast target.parentPath else pure ()
  pure outcome

/-- What lies in the staging directory when the first step is about to be taken: nothing, unless
something left over there was not seen. -/
def stagingBase (cwd : Location) (target : HostPath) (fs : FileSystem) : Layout Bytes FileData :=
  ((prepare target).run (perform cwd) fs).2.node.below
    (stagingLocation target.parts.dropLast (stagingName target))

/-- The directories that the spelled path of the target leads through there, and what was left
over unless it was seen. -/
def residue (cwd : Location) (target : HostPath) (fs : FileSystem) : Layout Bytes FileData := fun y ↦
  let l := stagingLocation target.parts.dropLast (stagingName target) ++ y
  if l ∈ ((target.parts.dropLast ++ [stagingName target]).inits.map (locate [])) then some .dir
  else if existsAt cwd fs (stagingPathFor target) then none
  else fs.node l

variable {cwd : Location} {target : HostPath} {steps : List PlanStep} {fs fs' : FileSystem}
  {plan : GenerationPlan} {metadataRecord : Value} {fast : Bool} {trusted : FsOp → Prop}
  {outcome : Outcome}

theorem clearStaging_residue (hwf : WellFormed target)
    (hprobe : trusted (.exists (stagingPathFor target))) :
    (clearStaging (stagingPathFor target)).wp (Behaves cwd trusted)
      (fun _ fs' ↦ ∀ y,
        fs'.node (stagingLocation target.parts.dropLast (stagingName target) ++ y) =
          if existsAt cwd fs (stagingPathFor target) then none
          else fs.node (stagingLocation target.parts.dropLast (stagingName target) ++ y))
      (fun _ _ ↦ True) (fun _ ↦ True) fs := by
  have hloc : locate [] (target.parts.dropLast ++ [stagingName target]) =
      stagingLocation target.parts.dropLast (stagingName target) :=
    locate_staging (plain_stagingName target)
  rw [stagingPathFor_eq hwf] at hprobe ⊢
  rw [clearStaging, wp_bind]
  refine exists_wp trivial fun b _ htrue ↦ ?_
  have hb := htrue hprobe
  cases b with
  | false => exact fun y ↦ by rw [← hb]; rfl
  | true =>
    refine removeAll_wp rfl (fun _ _ ↦ ⟨trivial, fun _ ↦ trivial⟩) ?_
    rintro fs' (⟨hres, -⟩ | ⟨hne, rfl⟩) y
    · simp [existsAt, hres] at hb
    · rw [← hb, if_pos rfl, FileTree.node_prune hne]
      exact if_pos (hloc ▸ List.prefix_append _ y)

theorem prepare_residue (hwf : WellFormed target)
    (hprobe : trusted (.exists (stagingPathFor target))) :
    (prepare target).wp (Behaves cwd trusted)
      (fun _ base ↦ Made base [] (target.parts.dropLast ++ [stagingName target]) ∧
        base.node.below (stagingLocation target.parts.dropLast (stagingName target)) =
          residue cwd target fs)
      (fun _ _ ↦ True) (fun _ ↦ True) fs := by
  unfold prepare
  rw [wp_bind]
  refine refuseExisting_wp ⟨trivial, fun _ ↦ trivial⟩ fun _ ↦ ?_
  rw [wp_bind]
  refine refuseNested_wp ⟨trivial, fun _ ↦ trivial⟩ ?_ _
  rw [wp_bind]
  refine wp_mono (clearStaging_residue hwf hprobe) ?_ (fun _ _ _ ↦ trivial) fun _ _ ↦ trivial
  intro _ cleared hcleared
  have hparts : (stagingPathFor target).parts = target.parts.dropLast ++ [stagingName target] := by
    rw [stagingPathFor_eq hwf]
  have hroot : (stagingPathFor target).absolute = true := by
    rw [stagingPathFor_eq hwf]
  refine createDirectories_wp hroot (fun _ _ ↦ ⟨trivial, fun _ ↦ trivial⟩) fun base hgrown hmade ↦ ?_
  rw [hparts] at hgrown hmade
  refine ⟨hmade, funext fun y ↦ ?_⟩
  unfold Layout.below residue
  dsimp only
  split_ifs with hway hseen
  · obtain ⟨ds, hds, heq⟩ := List.mem_map.mp hway
    rw [← heq]
    exact hmade ds ((List.mem_inits _ _).mp hds)
  all_goals
    rcases hgrown (stagingLocation target.parts.dropLast (stagingName target) ++ y) with
      hsame | ⟨-, -, ds, hds, heq⟩
    · rw [hsame, hcleared y]
      simp [hseen]
    · exact absurd (List.mem_map.mpr ⟨ds, (List.mem_inits _ _).mpr hds, heq.symm⟩) hway

theorem residue_nil (target : HostPath) : residue cwd target fs [] = some .dir := by
  unfold residue
  rw [if_pos]
  rw [List.append_nil, ← locate_staging (plain_stagingName target)]
  exact List.mem_map.mpr ⟨_, (List.mem_inits _ _).mpr List.prefix_rfl, rfl⟩

theorem apply_eq : apply cwd plan metadataRecord fast = prepare (targetOf cwd plan) >>= fun _ ↦
    land (stagingPathFor (targetOf cwd plan)) (targetOf cwd plan) plan metadataRecord fast := by
  simp only [apply, prepare, land, Program.bind_assoc]

/-- A transaction that goes through makes of what it finds what its steps say, when the probe for
the staging directory and the flush of closing streams do not fail. -/
theorem apply_residue (hcwd : ∀ c ∈ cwd, Plain c) (hsteps : ∀ step ∈ plan.steps, Inside step.path)
    (hprobe : trusted (.exists (stagingPathFor (targetOf cwd plan))))
    (hclose : ∀ p w, trusted (.close p w)) :
    (apply cwd plan metadataRecord fast).wp (Behaves cwd trusted)
      (fun _ fs' ↦ (stagedSteps metadataRecord plan.steps fast).foldlM stepLayout
          (residue cwd (targetOf cwd plan) fs) =
        some (fs'.node.below (targetLocation (targetOf cwd plan))))
      (fun _ _ ↦ True) (fun _ ↦ True) fs := by
  have hwf := targetOf_wellFormed hcwd plan
  rw [apply_eq, wp_bind]
  refine wp_mono (prepare_residue hwf hprobe) ?_ (fun _ _ _ ↦ trivial) fun _ _ ↦ trivial
  rintro _ base ⟨hmade, hbase⟩
  rw [stagingPathFor_eq hwf, land]
  refine wp_mono (land_wp (plain_stagingName _) hsteps hmade) (fun _ fs' hlanded ↦ ?_)
    (fun _ _ _ ↦ trivial) fun _ _ ↦ trivial
  rw [← hbase]
  exact hlanded.layout hwf hclose

theorem committed_tree (hcwd : ∀ c ∈ cwd, Plain c) (hsteps : ∀ step ∈ plan.steps, Inside step.path)
    (hrun : (apply cwd plan metadataRecord fast).run (perform cwd) fs = (.ok outcome, fs')) :
    fs'.node.below (targetLocation (targetOf cwd plan)) =
      layoutOver (stagingBase cwd (targetOf cwd plan) fs)
        (stagedSteps metadataRecord plan.steps fast) := by
  have hlayout := sound_run hrun (apply_residue hcwd hsteps trivial fun _ _ ↦ trivial)
  rw [apply_eq] at hrun
  obtain ⟨_, base, hprepare, -⟩ := run_bind_ok.mp hrun
  have hresidue := sound_run hprepare
    (prepare_residue (targetOf_wellFormed hcwd plan) trivial)
  have hbase : stagingBase cwd (targetOf cwd plan) fs = residue cwd (targetOf cwd plan) fs := by
    rw [stagingBase, hprepare]
    exact hresidue.2
  rw [hbase]
  exact layout_of_steps (residue_nil _) hlayout

end TransactionService

end SquaredPg
