import SquaredPg.Provenance

namespace SquaredPg

open Ascii Program

namespace FileSystem

variable {cwd : Location} {trusted : FsOp → Prop} {fs fs' : FileSystem} {path : HostPath}
  {l : Location} {content w : Bytes} {x : Bool}

theorem resolveEntry_walk (h : resolveEntry cwd fs path = some l) :
    Plain path.filename ∧ Made fs (start cwd path) path.parts.dropLast ∧
      l = locate (start cwd path) path.parts.dropLast ++ [path.filename] := by
  unfold resolveEntry at h
  split_ifs at h with hplain
  rw [resolve, HostPath.parts_of_named hplain.1] at h
  obtain ⟨hmade, rfl⟩ := made_of_walk h
  exact ⟨hplain, hmade, advance_plain hplain⟩

theorem resolveEntry_of_walk (hplain : Plain path.filename)
    (hmade : Made fs (start cwd path) path.parts.dropLast) :
    resolveEntry cwd fs path =
      some (locate (start cwd path) path.parts.dropLast ++ [path.filename]) := by
  have hparts := HostPath.parts_of_named hplain.1
  have hwalk : walk fs (start cwd path) path.parts =
      some (locate (start cwd path) path.parts.dropLast ++ [path.filename]) := by
    rw [hparts, List.dropLast_concat, walk_eq_some, locate_concat, advance_plain hplain]
    refine ⟨rfl, fun ds hds hne ↦ hmade ds ?_⟩
    exact (List.prefix_concat_iff.mp hds).resolve_left hne
  rw [resolveEntry, if_pos hplain, resolve, hwalk]

theorem resolveEntry_put (h : resolveEntry cwd fs path = some l) (hl : fs.node l ≠ some .dir)
    (data : FileData) :
    resolveEntry cwd (fs.put l (.file data)) path = some l ∧
      (fs.put l (.file data)).node l = some (.file data) := by
  obtain ⟨hplain, hmade, hloc⟩ := resolveEntry_walk h
  have hfits : fs.Fits l (.file data) := by
    refine ⟨by rw [hloc]; simp, ?_, .inr ?_⟩
    · rw [hloc, List.dropLast_concat]
      exact FileTree.isDir_iff.mpr (hmade _ List.prefix_rfl)
    · rw [← Bool.not_eq_true, FileTree.isDir_iff]
      exact hl
  refine ⟨?_, ?_⟩
  · rw [resolveEntry_of_walk hplain, ← hloc]
    intro ds hds
    have hne : locate (start cwd path) ds ≠ l := fun heq ↦ hl (heq ▸ hmade ds hds)
    rw [FileTree.node_put_other hne]
    exact hmade ds hds
  · rw [FileTree.node_put hfits, Layout.put_self]

def Holds (cwd : Location) (fs : FileSystem) (path : HostPath) (w : Bytes) : Prop :=
  ∃ l x, resolveEntry cwd fs path = some l ∧ fs.node l = some (.file ⟨w, x⟩)

theorem Holds.read (h : Holds cwd fs path w) : read cwd fs path = .content w := by
  obtain ⟨l, x, hl, hnode⟩ := h
  have hplain := (resolveEntry_walk hl).1
  rw [resolveEntry, if_pos hplain] at hl
  have hlast : path.parts.getLast? ≠ some [] := by
    rw [HostPath.parts_of_named hplain.1, List.getLast?_concat]
    simpa using hplain.1
  simp only [FileSystem.read, hl, Option.bind_some, hnode, if_neg hlast]

theorem Holds.editFile (h : Holds cwd fs path w) (edit : FileData → FileData) :
    ∃ l x, editFile cwd fs path edit = some (fs.put l (.file (edit ⟨w, x⟩))) ∧
      resolveEntry cwd fs path = some l ∧ fs.node l = some (.file ⟨w, x⟩) := by
  obtain ⟨l, x, hl, hnode⟩ := h
  refine ⟨l, x, ?_, hl, hnode⟩
  rw [FileSystem.editFile, hl, Option.bind_some, hnode]

theorem Holds.put (hl : resolveEntry cwd fs path = some l) (hnode : fs.node l = some (.file ⟨w, x⟩))
    (data : FileData) : Holds cwd (fs.put l (.file data)) path data.content := by
  obtain ⟨hl', hnode'⟩ := resolveEntry_put hl (by simp [hnode]) data
  exact ⟨l, data.executable, hl', hnode'⟩

theorem Holds.of_open (h : Behaves cwd trusted (.openTruncated path) fs (some true) fs') :
    Holds cwd fs' path [] := by
  rcases h with ⟨hr, rfl⟩ | ⟨⟨hr, -⟩, -⟩
  · simp only [perform, openTruncated] at hr ⊢
    cases hl : resolveEntry cwd fs path with
    | none => simp [hl] at hr
    | some l =>
      cases hnode : fs.node l with
      | none =>
        obtain ⟨hl', hnode'⟩ := resolveEntry_put hl (by simp [hnode]) ⟨[], false⟩
        simp only [hnode]
        exact ⟨l, false, hl', hnode'⟩
      | some e =>
        cases e with
        | dir => simp [hl, hnode] at hr
        | file data =>
          simp only [hnode]
          exact Holds.put hl hnode { data with content := [] }
  · exact absurd rfl hr

theorem Holds.writeContent (h : Holds cwd fs path w) (content : Bytes) :
    Holds cwd (writeContent cwd fs path content).2 path content := by
  obtain ⟨l, x, hedit, hl, hnode⟩ := h.editFile fun data ↦ { data with content }
  rw [FileSystem.writeContent, hedit]
  exact Holds.put hl hnode ⟨content, x⟩

theorem Holds.flushed (h : Holds cwd fs path w) (hflush : Flushed cwd fs path content fs') :
    ∃ w', Holds cwd fs' path w' := by
  rcases hflush with rfl | ⟨l, data, n, hl, hnode, rfl⟩
  · exact ⟨w, h⟩
  · exact ⟨_, Holds.put hl hnode { data with content := content.take n }⟩

theorem Holds.of_write {r : Option Bool} (h : Holds cwd fs path w)
    (hwrite : Behaves cwd trusted (.write path content) fs r fs') :
    ∃ w', Holds cwd fs' path w' := by
  rcases hwrite with ⟨-, rfl⟩ | ⟨hflush, -⟩
  · exact ⟨content, h.writeContent content⟩
  · exact h.flushed hflush

theorem Holds.of_close {good : Bool} (h : Holds cwd fs path w) (htrust : trusted (.close path content))
    (hclose : Behaves cwd trusted (.close path content) fs (some good) fs') :
    Holds cwd fs' path content := by
  rcases hclose with ⟨-, rfl⟩ | ⟨-, hstop⟩
  · exact h.writeContent content
  · cases hstop htrust

theorem Holds.of_addExecutable (h : Holds cwd fs path w)
    (hmode : Behaves cwd trusted (.addExecutable path) fs (some none) fs') :
    Holds cwd fs' path w := by
  rcases hmode with ⟨-, rfl⟩ | ⟨⟨hr, -⟩, -⟩
  · obtain ⟨l, x, hedit, hl, hnode⟩ := h.editFile fun data ↦ { data with executable := true }
    simp only [perform, addExecutable, hedit]
    exact Holds.put hl hnode ⟨w, true⟩
  · exact absurd rfl hr

end FileSystem

namespace TransactionService

open FilesystemService FileSystem MetadataService

variable {cwd : Location} {trusted : FsOp → Prop} {fs : FileSystem} {path : HostPath}
  {content : Bytes} {plan : GenerationPlan} {metadataRecord : Value} {fast : Bool}

/-- The flush of a stream that its destructor closes. -/
def ClosesStream (op : FsOp) : Prop := ∃ path content, op = .close path content

theorem writeStream_holds (htrust : trusted (.close path content)) (fs : FileSystem) :
    (writeStream path content).wp (Behaves cwd trusted) (fun _ fs' ↦ Holds cwd fs' path content)
      (fun _ _ ↦ True) (fun _ ↦ True) fs := by
  refine wp_call trivial (fun _ _ ↦ trivial) fun opened fs₁ h₁ ↦ ?_
  cases opened with
  | false => trivial
  | true =>
    refine wp_call trivial (fun _ _ ↦ trivial) fun good fs₂ h₂ ↦ ?_
    refine wp_call trivial (fun _ _ ↦ trivial) fun _ fs₃ h₃ ↦ ?_
    obtain ⟨w, hw⟩ := (Holds.of_open h₁).of_write h₂
    cases good with
    | false => trivial
    | true => exact hw.of_close htrust h₃

theorem writeFile_holds (htrust : trusted (.close path content)) (executable : Bool)
    (fs : FileSystem) :
    (writeFile path content executable).wp (Behaves cwd trusted)
      (fun _ fs' ↦ Holds cwd fs' path content) (fun _ _ ↦ True) (fun _ ↦ True) fs := by
  have hparent : ∀ (p : FsProgram Unit) (next : FsProgram Unit) fs,
      (∀ fs', next.wp (Behaves cwd trusted) (fun _ fs' ↦ Holds cwd fs' path content)
        (fun _ _ ↦ True) (fun _ ↦ True) fs') →
      (p >>= fun _ ↦ next).wp (Behaves cwd trusted) (fun _ fs' ↦ Holds cwd fs' path content)
        (fun _ _ ↦ True) (fun _ ↦ True) fs := by
    intro p next fs hnext
    rw [wp_bind]
    exact wp_always (fun _ fs' ↦ hnext fs') (fun _ _ ↦ trivial) (fun _ ↦ trivial) p fs
  refine hparent _ _ fs fun fs₁ ↦ ?_
  rw [wp_bind]
  refine wp_mono (writeStream_holds htrust fs₁) ?_ (fun _ _ h ↦ h) (fun _ h ↦ h)
  intro _ fs₂ hheld
  cases executable with
  | false => exact hheld
  | true =>
    refine wp_call trivial (fun _ _ ↦ trivial) fun r fs₃ h₃ ↦ ?_
    cases r with
    | none => exact hheld.of_addExecutable h₃
    | some ec => trivial

theorem content_of_last {steps before after : List PlanStep} {step : PlanStep}
    {f g : Layout Bytes FileData} (hroot : f [] = some .dir) (h : steps.foldlM stepLayout f = some g)
    (hsteps : steps = before ++ step :: after) (hfile : step.isDirectory = false)
    (hlast : writesAt after step.location = []) :
    ∃ data, g step.location = some (.file data) ∧ data.content = step.content := by
  have hwrites : (writesAt steps step.location).getLast? = some step := by
    rw [hsteps, ← List.singleton_append, writesAt_append, writesAt_append, hlast, List.append_nil,
      writesAt_singleton, if_pos ⟨hfile, rfl⟩, List.getLast?_concat]
  obtain ⟨data, hdata, hcontent⟩ := content_fileOver (f.fileAt step.location) hwrites
  rw [layout_of_steps hroot h]
  exact ⟨data, layoutOver_file.mpr hdata, hcontent⟩

theorem content_of_written {steps before after : List PlanStep} {step : PlanStep}
    {f g : Layout Bytes FileData} (hsteps : ∀ step ∈ steps, Inside step.path)
    (hroot : f [] = some .dir)
    (h : (stagedSteps metadataRecord steps fast).foldlM stepLayout f = some g)
    (hsplit : steps = before ++ step :: after) (hfile : step.isDirectory = false)
    (hlater : step.path ∉ writtenPaths after) (hrecord : step.path ≠ kMetadataFile) :
    ∃ data, g step.location = some (.file data) ∧ data.content = step.content := by
  have hstep : step ∈ steps := by simp [hsplit]
  have hjoined := (hsteps step hstep).joined
  have hstaged : stagedSteps metadataRecord steps fast =
      before ++ step :: (after ++ [recordStep (recordText metadataRecord steps fast)]) := by
    rw [stagedSteps, hsplit]
    simp
  apply content_of_last hroot h hstaged hfile
  rw [writesAt_append, writesAt_singleton, if_neg, List.append_nil]
  · exact writesAt_eq_nil (fun s hs ↦ hsteps s (by simp [hsplit, hs])) hjoined hlater
  · intro ⟨_, hloc⟩
    apply hrecord
    rw [← hjoined, ← inside_kMetadataFile.joined]
    exact congrArg joinPath hloc.symm

theorem lookup_stepHashes_first {before after : List PlanStep} {step : PlanStep}
    (hfile : step.isDirectory = false) (hfirst : step.path ∉ writtenPaths before) :
    (stepHashes (before ++ step :: after)).lookup step.path =
      some (toHex (sha256 step.content)) := by
  have hbefore : (stepHashes before).lookup step.path = none := by
    rw [List.lookup_eq_none_iff]
    intro p hp
    rw [bne_iff_ne]
    intro heq
    apply hfirst
    rw [← keys_stepHashes, heq]
    exact List.mem_map_of_mem hp
  have hstep : stepHashes (step :: after) =
      (step.path, toHex (sha256 step.content)) :: stepHashes after := by
    rw [stepHashes, List.filter_cons_of_pos (by simpa using hfile)]
    rfl
  rw [stepHashes_append, List.lookup_append, hbefore, hstep, Option.none_or,
    List.lookup_cons_self]

/-- In every run in which the streams flush what they hold when they are closed, a file that is
reported written is whole, and so is the record of a workspace that is committed and every file
that a step is the last to write. -/
theorem written_whole (cwd : Location) :
    (∀ fs path content executable fs',
      Exec (Behaves cwd ClosesStream) (writeFile path content executable) fs (.ok ()) fs' →
        FileSystem.read cwd fs' path = .content content) ∧
    ∀ plan metadataRecord fast fs outcome fs',
      (∀ c ∈ cwd, Plain c) → (∀ step ∈ plan.steps, Inside step.path) →
      Exec (Behaves cwd ClosesStream) (apply cwd plan metadataRecord fast) fs (.ok outcome) fs' →
        (∃ data, fs'.node.below (targetLocation (targetOf cwd plan)) (splitPath kMetadataFile) =
            some (.file data) ∧ data.content = recordText metadataRecord plan.steps fast) ∧
        ∀ before step after, plan.steps = before ++ step :: after → step.isDirectory = false →
          step.path ∉ writtenPaths after → step.path ≠ kMetadataFile →
          (∃ data, fs'.node.below (targetLocation (targetOf cwd plan)) step.location =
            some (.file data) ∧ data.content = step.content) ∧
          (step.path ∉ writtenPaths before → (stepHashes plan.steps).lookup step.path =
            some (toHex (sha256 step.content))) := by
  refine ⟨?_, ?_⟩
  · intro fs path content executable fs' hexec
    have hheld := hexec.sound (writeFile_holds ⟨path, content, rfl⟩ executable fs)
    exact Holds.read hheld
  · intro plan metadataRecord fast fs outcome fs' hcwd hsteps hexec
    have hcommitted := hexec.sound (apply_wp hcwd hsteps)
    obtain ⟨f, hroot, hlayout, -⟩ := Committed.layout (targetOf_wellFormed hcwd plan)
      (fun p w ↦ ⟨p, w, rfl⟩) hcommitted
    refine ⟨?_, ?_⟩
    · have hfile : (recordStep (recordText metadataRecord plan.steps fast)).isDirectory = false := rfl
      exact content_of_last hroot hlayout rfl hfile rfl
    · intro before step after hplan hfile hlater hrecord
      refine ⟨content_of_written hsteps hroot hlayout hplan hfile hlater hrecord, fun hfirst ↦ ?_⟩
      rw [hplan]
      exact lookup_stepHashes_first hfile hfirst

theorem written_whole_sample :
    (∃ fs', Exec (Behaves [] ClosesStream) (writeFile ⟨true, [ascii "f"]⟩ (ascii "go") false) .bare
      (.ok ()) fs' ∧ FileSystem.read [] fs' ⟨true, [ascii "f"]⟩ = .content (ascii "go")) ∧
    ∃ outcome fs', (apply [] (samplePlan "/b" sampleSteps) (.object []) false).run (perform [])
        .bare = (.ok outcome, fs') ∧
      ∃ data, fs'.node.below (targetLocation (targetOf [] (samplePlan "/b" sampleSteps)))
        (splitPath (ascii "bin/run")) = some (.file data) ∧ data.content = ascii "go" := by
  refine ⟨?_, ?_⟩
  · obtain ⟨a, hrun⟩ := exists_ok_run [] .bare
      (writeFile ⟨true, [ascii "f"]⟩ (ascii "go") false) (by decide +kernel)
    have hexec := exec_perform [] ClosesStream
      (writeFile ⟨true, [ascii "f"]⟩ (ascii "go") false) .bare
    rw [congrArg Prod.fst hrun] at hexec
    exact ⟨_, hexec, (written_whole []).1 _ _ _ _ _ hexec⟩
  · obtain ⟨outcome, hrun⟩ := exists_ok_run [] .bare
      (apply [] (samplePlan "/b" sampleSteps) (.object []) false) (by decide +kernel)
    have hexec := exec_perform [] ClosesStream
      (apply [] (samplePlan "/b" sampleSteps) (.object []) false) .bare
    rw [congrArg Prod.fst hrun] at hexec
    refine ⟨outcome, _, hrun, ?_⟩
    exact (((written_whole []).2 _ _ _ _ _ _ (by simp) (fun step hstep ↦
      (sample_confined step hstep).inside) hexec).2 [directoryStep .workspace (ascii "sq_app")] _ []
      rfl rfl (by decide) (by decide)).1

def withoutFlush (cwd : Location) : (op : FsOp) → FileSystem → FsAnswer op × FileSystem
  | .write _ _, fs => (true, fs)
  | .close _ _, fs => (false, fs)
  | op, fs => perform cwd op fs

theorem withoutFlush_behaves (cwd : Location) (op : FsOp) (fs : FileSystem) :
    Behaves cwd (fun _ ↦ False) op fs (some (withoutFlush cwd op fs).1) (withoutFlush cwd op fs).2 := by
  cases op
  case write path content => exact .inr ⟨.inl rfl, False.elim⟩
  case close path content => exact .inr ⟨.inl rfl, False.elim⟩
  all_goals exact .inl ⟨rfl, rfl⟩

theorem written_short : ¬∀ cwd fs path content executable fs',
    Exec (Behaves cwd fun _ ↦ False) (writeFile path content executable) fs (.ok ()) fs' →
      FileSystem.read cwd fs' path = .content content := by
  intro h
  have hexec := exec_run (withoutFlush_behaves [])
    (writeFile ⟨true, [ascii "f"]⟩ (ascii "go") false) .bare
  have hrun : ((writeFile ⟨true, [ascii "f"]⟩ (ascii "go") false).run (withoutFlush []) .bare).1 =
      .ok () := rfl
  rw [hrun] at hexec
  have hread := h _ _ _ _ _ _ hexec
  revert hread
  decide +kernel

end TransactionService

end SquaredPg
