import SquaredPg.Commit

namespace SquaredPg

open Ascii Fallible Program

namespace TransactionService

open FilesystemService FileSystem MetadataService

variable {cwd : Location} {plan : GenerationPlan} {metadataRecord : Value} {fast : Bool}
  {fs fs' : FileSystem} {out : Program.Outcome EngineError Outcome} {target : HostPath}
  {x : Location}

theorem beside_of_plain (h : Plain target.filename) : Beside target :=
  ⟨HostPath.parts_of_named h.1, h⟩

theorem Beside.seen (h : Beside target) (hwf : WellFormed target)
    (hway : ∀ ds, ds <+: target.parts.dropLast →
      locate [] ds <+: locate [] target.parts.dropLast ∨ fs.node (locate [] ds) = some .dir)
    (hthere : fs.node (TransactionService.targetLocation target) ≠ none) :
    existsAt cwd fs target = true := by
  have hparts : target = ⟨true, target.parts.dropLast ++ [target.filename]⟩ := by
    rw [← h.parts, ← hwf.absolute]
  rw [h.targetLocation] at hthere
  rw [hparts]
  exact existsAt_of_way h.plain hway hthere

theorem staging_apart (h : Beside target) (y : Location) :
    ¬ stagingLocation target.parts.dropLast (stagingName target) <+: targetLocation target ++ y := by
  intro hp
  have hshort : (stagingLocation target.parts.dropLast (stagingName target)).length =
      (targetLocation target).length := by
    simp [stagingLocation, h.targetLocation]
  have hshort := List.prefix_of_prefix_length_le hp (List.prefix_append _ y) hshort.le
  rw [stagingLocation, h.targetLocation] at hshort
  exact apart_of_ne stagingName_ne hshort

def Complete (metadataRecord : Value) (steps : List PlanStep) (fast : Bool)
    (f : Layout Bytes FileData) : Prop :=
  (stagedSteps metadataRecord steps fast).foldlM stepLayout .bare = some f

/-- Outside the staging directory nothing differs but directories above the target, which are
new. -/
def OnlyAncestors (target : HostPath) (fs fs' : FileSystem) : Prop :=
  ∀ x, ¬ stagingLocation target.parts.dropLast (stagingName target) <+: x →
    fs'.node x = fs.node x ∨
      (fs.node x = none ∧ fs'.node x = some .dir ∧ x <+: locate [] target.parts.dropLast)

/-- The target is as it was before or complete; it is as it was after an error, when all that is
new is above it; and nothing changes when it was there. -/
structure AllOrNothing (target : HostPath) (complete : Layout Bytes FileData → Prop)
    (fs : FileSystem) (out : Program.Outcome EngineError Outcome) (fs' : FileSystem) : Prop where
  settled : fs'.node.below (targetLocation target) = fs.node.below (targetLocation target) ∨
    complete (fs'.node.below (targetLocation target))
  failed : ∀ e, out = .error e →
    fs'.node.below (targetLocation target) = fs.node.below (targetLocation target) ∧
      OnlyAncestors target fs fs'
  existing : fs.node (targetLocation target) ≠ none → fs'.node = fs.node

/-- The operations whose failure goes unseen: the two probes, which take an error for absence, and
the flush of a stream that is closed by its destructor. -/
def Unseen (target : HostPath) (op : FsOp) : Prop :=
  op = .exists target ∨ op = .exists (stagingPathFor target) ∨ ∃ path content, op = .close path content

/-- Every directory on the way to the target is above it, or is there and not in the staging
directory. -/
def WayClear (target : HostPath) (fs : FileSystem) : Prop :=
  ∀ ds, ds <+: target.parts.dropLast → locate [] ds <+: locate [] target.parts.dropLast ∨
    (fs.node (locate [] ds) = some .dir ∧
      (stagingLocation target.parts.dropLast (stagingName target) <+: locate [] ds →
        locate [] ds = stagingLocation target.parts.dropLast (stagingName target)))

theorem Reached.onlyAncestors (hway : WayClear target fs)
    (h : Reached target.parts.dropLast (stagingName target) fs fs') :
    OnlyAncestors target fs fs' := by
  intro x hx
  refine (h x hx).imp_right ?_
  rintro ⟨hnone, hdir, ds, hds, rfl⟩
  refine ⟨hnone, hdir, (hway ds hds).resolve_right fun hthere ↦ ?_⟩
  rw [hthere.1] at hnone
  cases hnone

theorem OnlyAncestors.untouched (hbeside : Beside target) (h : OnlyAncestors target fs fs') :
    fs'.node.below (targetLocation target) = fs.node.below (targetLocation target) := by
  funext y
  refine (h _ (staging_apart hbeside y)).resolve_right ?_
  rintro ⟨-, -, hp⟩
  have hle := hp.length_le
  rw [hbeside.targetLocation] at hle
  simp only [List.length_append, List.length_singleton] at hle
  omega

/-- However the operations fail whose failure is seen, and whenever the process stops, the target
is all there or untouched. -/
theorem apply_allOrNothing (hcwd : ∀ c ∈ cwd, Plain c)
    (hconfined : ∀ step ∈ plan.steps, Confined step.path)
    (hname : Plain (targetOf cwd plan).filename) (hway : WayClear (targetOf cwd plan) fs)
    (hexec : Exec (Behaves cwd (Unseen (targetOf cwd plan))) (apply cwd plan metadataRecord fast)
      fs out fs') :
    AllOrNothing (targetOf cwd plan) (Complete metadataRecord plan.steps fast) fs out fs' := by
  have hwf := targetOf_wellFormed hcwd plan
  have hbeside := beside_of_plain hname
  by_cases hthere : fs.node (targetLocation (targetOf cwd plan)) = none
  · have hmeets := hexec.sound (apply_wp hcwd fun s hs ↦ (hconfined s hs).inside)
    have hcomplete : Committed cwd (Unseen (targetOf cwd plan)) (targetOf cwd plan)
        (stagedSteps metadataRecord plan.steps fast) fs fs' →
        Complete metadataRecord plan.steps fast
          (fs'.node.below (targetLocation (targetOf cwd plan))) := by
      intro h
      obtain ⟨f, -, hlayout, hempty⟩ := h.layout hwf fun p w ↦ .inr (.inr ⟨p, w, rfl⟩)
      have hprobe : Unseen (targetOf cwd plan) (.exists (stagingAt
          (targetOf cwd plan).parts.dropLast (stagingName (targetOf cwd plan)))) :=
        .inr (.inl (by rw [stagingPathFor_eq hwf]))
      rwa [hempty hprobe (clear_of_way (plain_stagingName _) hway)] at hlayout
    refine ⟨?_, ?_, fun h ↦ absurd hthere h⟩
    · cases out with
      | ok outcome => exact .inr (hcomplete hmeets)
      | error e => exact .inl ((Reached.onlyAncestors hway hmeets).untouched hbeside)
      | stopped =>
        rcases hmeets with hreached | hcommitted
        · exact .inl ((Reached.onlyAncestors hway hreached).untouched hbeside)
        · exact .inr (hcomplete hcommitted)
    · rintro e rfl
      have honly := Reached.onlyAncestors hway hmeets
      exact ⟨honly.untouched hbeside, honly⟩
  · have hseen : existsAt cwd fs (targetOf cwd plan) = true :=
      hbeside.seen hwf (fun ds hds ↦ (hway ds hds).imp_right And.left) hthere
    have hsame : fs' = fs := by
      have hmeets := hexec.sound (apply_existing (.inl rfl) hseen)
      cases out with
      | ok outcome => exact hmeets.elim
      | error e => exact hmeets
      | stopped => exact hmeets
    subst hsame
    exact ⟨.inl rfl, fun e _ ↦ ⟨rfl, fun x _ ↦ .inl rfl⟩, fun _ ↦ rfl⟩

/-- Every operation takes place but for the opening of files, which fails. -/
def withoutFiles (cwd : Location) : (op : FsOp) → FileSystem → FsAnswer op × FileSystem
  | .openTruncated _, fs => (false, fs)
  | op, fs => perform cwd op fs

theorem withoutFiles_behaves (cwd : Location) (target : HostPath) (op : FsOp) (fs : FileSystem) :
    Behaves cwd (Unseen target) op fs (some (withoutFiles cwd op fs).1) (withoutFiles cwd op fs).2 := by
  cases op
  case openTruncated path =>
    refine .inr ⟨⟨by simp [withoutFiles], .inl rfl⟩, ?_⟩
    rintro (h | h | ⟨p, w, h⟩) <;> cases h
  all_goals exact .inl ⟨rfl, rfl⟩

theorem exec_withoutFiles {α : Type} (cwd : Location) (target : HostPath) (p : FsProgram α)
    (fs : FileSystem) (h : (p.run (withoutFiles cwd) fs).1.toOption.isSome = false) :
    ∃ e, Exec (Behaves cwd (Unseen target)) p fs (.error e) (p.run (withoutFiles cwd) fs).2 := by
  have hexec := exec_run (withoutFiles_behaves cwd target) p fs
  cases hresult : (p.run (withoutFiles cwd) fs).1 with
  | ok a =>
    rw [hresult] at h
    cases h
  | error e =>
    rw [hresult] at hexec
    exact ⟨e, hexec⟩

theorem sample_allOrNothing : ∃ out fs',
    Exec (Behaves [] (Unseen (targetOf [] (samplePlan "/b" sampleSteps))))
      (apply [] (samplePlan "/b" sampleSteps) (.object []) true) .bare out fs' ∧
    AllOrNothing (targetOf [] (samplePlan "/b" sampleSteps))
      (Complete (.object []) sampleSteps true) .bare out fs' := by
  have hexec := exec_run (withoutFiles_behaves [] (targetOf [] (samplePlan "/b" sampleSteps)))
    (apply [] (samplePlan "/b" sampleSteps) (.object []) true) .bare
  refine ⟨_, _, hexec, apply_allOrNothing (by simp) sample_confined (by decide) ?_ hexec⟩
  exact fun ds hds ↦ .inl (direct_of_plain (by decide) ds hds)

def workDisk : FileSystem := FileTree.bare.put [ascii "w"] .dir

/-- A detour through the target makes it, and it stays when the transaction is given up. -/
theorem detour_leaves_target : ∃ e fs',
    Exec (Behaves [ascii "w"] (Unseen (targetOf [ascii "w"] (samplePlan "b/../b" []))))
      (apply [ascii "w"] (samplePlan "b/../b" []) (.object []) true) workDisk (.error e) fs' ∧
    ¬ AllOrNothing (targetOf [ascii "w"] (samplePlan "b/../b" []))
      (Complete (.object []) [] true) workDisk (.error e) fs' := by
  obtain ⟨e, hexec⟩ := exec_withoutFiles [ascii "w"] (targetOf [ascii "w"] (samplePlan "b/../b" []))
    (apply [ascii "w"] (samplePlan "b/../b" []) (.object []) true) workDisk (by decide +kernel)
  refine ⟨e, _, hexec, fun h ↦ ?_⟩
  have hdiffer : ((apply [ascii "w"] (samplePlan "b/../b" []) (.object []) true).run
      (withoutFiles [ascii "w"]) workDisk).2.node
        (targetLocation (targetOf [ascii "w"] (samplePlan "b/../b" [])) ++ []) ≠
      workDisk.node (targetLocation (targetOf [ascii "w"] (samplePlan "b/../b" [])) ++ []) := by
    decide +kernel
  exact hdiffer (congrFun (h.failed e rfl).1 [])

end TransactionService

end SquaredPg
