import SquaredPg.Nested
import SquaredPg.Sibling
import SquaredPg.StepsApart
import SquaredPg.Yields

namespace SquaredPg

open Ascii Fallible Program

namespace FilesystemService

open FileSystem

variable {cwd : Location} {fs : FileSystem} {path : HostPath} {ps : List Bytes} {c content : Bytes}
  {executable : Bool}

theorem createDirectories_yields (hroot : path.absolute = true)
    (hfiles : ∀ ds, ds <+: path.parts → ∀ data, fs.node (locate [] ds) ≠ some (.file data)) :
    (createDirectories path).Yields (perform cwd)
      (fun _ fs' ↦ Grown fs [] path.parts fs' ∧ Made fs' [] path.parts) fs := by
  have hok : (makeDirs fs [] path.parts).1 = true := makeDirs_ok fs.root hfiles
  have hperform : perform cwd (.createDirectories path) fs =
      (none, (makeDirs fs [] path.parts).2) := by
    rw [perform_createDirectories cwd fs hroot, hok, if_pos rfl]
  refine ⟨(), _, ?_, makeDirs_made hfiles⟩
  unfold createDirectories
  rw [ask_bind, run, hperform]
  rfl

theorem writeStream_yields (hroot : path.absolute = true) (hparts : path.parts = ps ++ [c])
    (hplain : Plain c) (hmade : Made fs [] ps) (hnodir : fs.node (locate [] ps ++ [c]) ≠ some .dir) :
    (writeStream path content).Yields (perform cwd) (fun _ fs' ↦ Made fs' [] ps ∧
      ∃ data, fs'.node (locate [] ps ++ [c]) = some (.file data)) fs := by
  have hput : ∀ {fs : FileSystem} (data), Made fs [] ps →
      fs.node (locate [] ps ++ [c]) ≠ some .dir →
      Made (fs.put (locate [] ps ++ [c]) (.file data)) [] ps ∧
        (fs.put (locate [] ps ++ [c]) (.file data)).node (locate [] ps ++ [c]) =
          some (.file data) :=
    fun _ hmade hnodir ↦
      ⟨Made.of_sameBut hmade hnodir (sameBut_put _ _ _), node_put_file hmade hnodir⟩
  -- A write, and the flush of closing, change the file that was opened.
  have hwrite : ∀ {fs : FileSystem} {data}, Made fs [] ps →
      fs.node (locate [] ps ++ [c]) = some (.file data) →
      ∃ fs' data', writeContent cwd fs path content = (true, fs') ∧ Made fs' [] ps ∧
        fs'.node (locate [] ps ++ [c]) = some (.file data') := by
    intro fs data hmade hnode
    have hnodir : fs.node (locate [] ps ++ [c]) ≠ some .dir := by
      simp [hnode]
    obtain ⟨hmade', hnode'⟩ := hput { data with content } hmade hnodir
    refine ⟨_, _, ?_, hmade', hnode'⟩
    rw [writeContent, editFile_eq _ hroot hparts hplain hmade hnode]
  obtain ⟨opened, data, hopen, hmade₁, hnode₁⟩ : ∃ fs' data,
      openTruncated cwd fs path = (true, fs') ∧ Made fs' [] ps ∧
        fs'.node (locate [] ps ++ [c]) = some (.file data) := by
    rw [openTruncated, resolveEntry_of_made hroot hparts hplain hmade]
    dsimp only
    rcases hnode : fs.node (locate [] ps ++ [c]) with _ | _ | data
    · obtain ⟨hmade', hnode'⟩ := hput ⟨[], false⟩ hmade hnodir
      exact ⟨_, _, rfl, hmade', hnode'⟩
    · exact absurd hnode hnodir
    · obtain ⟨hmade', hnode'⟩ := hput { data with content := [] } hmade hnodir
      exact ⟨_, _, rfl, hmade', hnode'⟩
  obtain ⟨written, data, hwritten, hmade₂, hnode₂⟩ := hwrite hmade₁ hnode₁
  obtain ⟨closed, data, hclosed, hmade₃, hnode₃⟩ := hwrite hmade₂ hnode₂
  refine ⟨(), closed, ?_, hmade₃, data, hnode₃⟩
  unfold writeStream
  have hopen : perform cwd (.openTruncated path) fs = (true, opened) := hopen
  have hwritten : perform cwd (.write path content) opened = (true, written) := hwritten
  have hclosed : perform cwd (.close path content) written = (true, closed) := hclosed
  rw [ask_bind, run, hopen]
  dsimp only
  rw [if_pos rfl, ask_bind, run, hwritten]
  dsimp only
  rw [ask_bind, run, hclosed]
  rfl

theorem setExecutable_yields (hroot : path.absolute = true) (hparts : path.parts = ps ++ [c])
    (hplain : Plain c) (hmade : Made fs [] ps) {data : FileData}
    (hnode : fs.node (locate [] ps ++ [c]) = some (.file data)) :
    (setExecutable path).Yields (perform cwd) (fun _ _ ↦ True) fs := by
  have hperform : perform cwd (.addExecutable path) fs = (none, fs.put (locate [] ps ++ [c])
      (.file { data with executable := true })) := by
    rw [perform, addExecutable, editFile_eq _ hroot hparts hplain hmade hnode]
  refine ⟨(), fs.put (locate [] ps ++ [c]) (.file { data with executable := true }), ?_, trivial⟩
  unfold setExecutable
  rw [ask_bind, run, hperform]
  rfl

theorem writeFile_yields (hroot : path.absolute = true) (hparts : path.parts = ps ++ [c])
    (hplain : Plain c)
    (hfiles : ∀ ds, ds <+: ps → ∀ data, fs.node (locate [] ds) ≠ some (.file data))
    (hnodir : fs.node (locate [] ps ++ [c]) ≠ some .dir)
    (hapart : ∀ ds, ds <+: ps → locate [] ds ≠ locate [] ps ++ [c]) :
    (writeFile path content executable).Yields (perform cwd) (fun _ _ ↦ True) fs := by
  have hhas : path.hasParentPath = true := by
    simp [HostPath.hasParentPath, HostPath.isEmpty, HostPath.parentPath, hroot]
  have hparent : path.parentPath.parts = ps := by
    rw [HostPath.parentPath, hparts, List.dropLast_concat]
  have hdirs : (createDirectories path.parentPath).Yields (perform cwd) (fun _ fs' ↦
      Grown fs [] path.parentPath.parts fs' ∧ Made fs' [] path.parentPath.parts) fs :=
    createDirectories_yields hroot (by rwa [hparent])
  rw [hparent] at hdirs
  unfold writeFile createParent
  rw [if_pos hhas]
  refine yields_bind (hdirs.mono fun _ fs₁ h ↦ ?_)
  obtain ⟨hgrown, hmade⟩ := h
  have hnodir₁ : fs₁.node (locate [] ps ++ [c]) ≠ some .dir := by
    rcases hgrown (locate [] ps ++ [c]) with hsame | ⟨-, -, ds, hds, heq⟩
    · rwa [hsame]
    · exact absurd heq.symm (hapart ds hds)
  refine yields_bind ((writeStream_yields hroot hparts hplain hmade hnodir₁).mono fun _ fs₂ h ↦ ?_)
  obtain ⟨hmade₂, data, hnode⟩ := h
  split_ifs
  · exact setExecutable_yields hroot hparts hplain hmade₂ hnode
  · exact yields_done trivial

end FilesystemService

namespace TransactionService

open FilesystemService FileSystem MetadataService

variable {cwd : Location} {plan : GenerationPlan} {metadataRecord : Value} {fast : Bool}
  {fs fs' base : FileSystem} {target : HostPath} {ps : List Bytes} {tmp path content : Bytes}
  {step : PlanStep} {done : List PlanStep} {executable : Bool} {f : Layout Bytes FileData}

theorem behaves_perform (cwd : Location) (trusted : FsOp → Prop) (op : FsOp) (fs : FileSystem) :
    Behaves cwd trusted op fs (some (perform cwd op fs).1) (perform cwd op fs).2 := .inl ⟨rfl, rfl⟩

theorem no_file_below (htmp : Plain tmp) {cs : List Bytes} (hcs : ∀ c ∈ cs, Plain c)
    (hmade : Made fs [] (ps ++ [tmp]))
    (hfiles : ∀ x, x <+: cs → ∀ data,
      fs.node.below (stagingLocation ps tmp) x ≠ some (.file data)) :
    ∀ ds, ds <+: ps ++ [tmp] ++ cs → ∀ data, fs.node (locate [] ds) ≠ some (.file data) := by
  intro ds hds data
  rcases List.prefix_or_prefix_of_prefix hds (List.prefix_append (ps ++ [tmp]) cs) with hp | ⟨es, rfl⟩
  · rw [hmade ds hp]
    simp
  · have hes := (List.prefix_append_right_inj _).mp hds
    rw [locate_below htmp fun c hc ↦ hcs c (hes.subset hc)]
    exact hfiles es hes data

theorem createDirectories_below_yields (htmp : Plain tmp) (hpath : Inside path)
    (hmade : Made fs [] (ps ++ [tmp])) {g : Layout Bytes FileData}
    (hlayout : (fs.node.below (stagingLocation ps tmp)).makeDirs (splitPath path) = some g) :
    (createDirectories ((stagingAt ps tmp).append (.ofBytes path))).Yields (perform cwd)
      (fun _ _ ↦ True) fs := by
  rw [append_staging htmp hpath]
  refine (createDirectories_yields rfl ?_).mono fun _ _ _ ↦ trivial
  exact no_file_below htmp hpath.names hmade (Layout.makeDirs_eq_some.mp hlayout).1

theorem writeFile_below_yields (htmp : Plain tmp) (hpath : Inside path)
    (hmade : Made fs [] (ps ++ [tmp])) {g : Layout Bytes FileData}
    {edit : Option FileData → FileData}
    (hlayout : (fs.node.below (stagingLocation ps tmp)).write (splitPath path) edit = some g) :
    (writeFile ((stagingAt ps tmp).append (.ofBytes path)) content executable).Yields (perform cwd)
      (fun _ _ ↦ True) fs := by
  obtain ⟨cs, c, hcs⟩ := (List.eq_nil_or_concat' _).resolve_left hpath.nonempty
  have hplain : ∀ d ∈ cs, Plain d := fun d hd ↦ hpath.names d (by simp [hcs, hd])
  have hlast : Plain c := hpath.names c (by simp [hcs])
  have hloc : locate [] (ps ++ [tmp] ++ cs) ++ [c] = stagingLocation ps tmp ++ cs ++ [c] := by
    rw [locate_below htmp hplain]
  obtain ⟨hnodir, hfiles, -⟩ := Layout.write_eq_some.mp hlayout
  rw [hcs, List.dropLast_concat] at hfiles
  rw [append_staging htmp hpath, hcs, ← List.append_assoc]
  refine writeFile_yields rfl rfl hlast
    (no_file_below htmp hplain hmade hfiles) ?_ ?_
  · rw [hloc, List.append_assoc]
    rw [hcs] at hnodir
    exact hnodir
  · intro ds hds heq
    rw [hloc] at heq
    rcases List.prefix_or_prefix_of_prefix hds (List.prefix_append (ps ++ [tmp]) cs) with
      hp | ⟨es, rfl⟩
    · -- What lies on the way to the staging directory is there, and what is written is not.
      have hdir := hmade ds hp
      rw [heq, List.append_assoc] at hdir
      rw [hcs] at hnodir
      exact hnodir hdir
    · have hes := (List.prefix_append_right_inj _).mp hds
      rw [locate_below htmp fun d hd ↦ hplain d (hes.subset hd), List.append_assoc] at heq
      have hlong := hes.length_le
      rw [List.append_cancel_left heq, List.length_append, List.length_singleton] at hlong
      omega

theorem syncUnless_yields (fast : Bool) (path : HostPath) (fs : FileSystem) :
    (syncUnless fast path).Yields (perform cwd) (fun _ _ ↦ True) fs := by
  unfold syncUnless
  split_ifs
  · exact yields_done trivial
  · exact ⟨(), fs, rfl, trivial⟩

theorem applyStep_yields (htmp : Plain tmp) (hpath : Inside step.path) {outcome : Outcome}
    {trusted : FsOp → Prop} (h : Staged trusted ps tmp base done fs)
    (hlayout : stepLayout (fs.node.below (stagingLocation ps tmp)) step = some f) :
    (applyStep (stagingAt ps tmp) fast outcome step).Yields (perform cwd)
      (fun outcome' fs' ↦ Staged trusted ps tmp base (done ++ [step]) fs' ∧
        outcome'.hashes = outcome.hashes ++ stepHashes [step]) fs := by
  suffices hreturns : (applyStep (stagingAt ps tmp) fast outcome step).Yields (perform cwd)
      (fun _ _ ↦ True) fs from
    (hreturns.also (applyStep_wp htmp hpath h) (behaves_perform cwd trusted)).mono fun _ _ h ↦ h.2
  unfold applyStep
  unfold stepLayout at hlayout
  split_ifs at hlayout ⊢ with hdir
  · exact yields_bind ((createDirectories_below_yields htmp hpath h.made hlayout).mono
      fun _ _ _ ↦ yields_done trivial)
  · refine yields_bind ((writeFile_below_yields htmp hpath h.made hlayout).mono fun _ fs' _ ↦ ?_)
    exact yields_bind ((syncUnless_yields fast _ fs').mono fun _ _ _ ↦ yields_done trivial)

theorem foldlM_next {α σ : Type} {f : σ → α → Option σ} {before : List α} (after : List α) {a : α}
    {s t : σ} (h : (before ++ a :: after).foldlM f s = some t) :
    ∃ s₁ s₂, before.foldlM f s = some s₁ ∧ f s₁ a = some s₂ := by
  rw [List.foldlM_append] at h
  obtain ⟨s₁, hbefore, h⟩ := Option.bind_eq_some_iff.mp h
  rw [List.foldlM_cons] at h
  obtain ⟨s₂, hnext, -⟩ := Option.bind_eq_some_iff.mp h
  exact ⟨s₁, s₂, hbefore, hnext⟩

theorem steps_yield (htmp : Plain tmp) (hsteps : ∀ step ∈ plan.steps, Inside step.path)
    (hmade : Made base [] (ps ++ [tmp]))
    (hlayout : plan.steps.foldlM stepLayout (base.node.below (stagingLocation ps tmp)) = some f) :
    (plan.steps.foldlM (applyStep (stagingAt ps tmp) fast) {}).Yields (perform cwd)
      (fun outcome fs' ↦ Staged (fun _ ↦ True) ps tmp base plan.steps fs' ∧
        outcome.hashes = stepHashes plan.steps) base := by
  refine yields_foldlM (I := fun done (outcome : Outcome) fs ↦
    Staged (fun _ ↦ True) ps tmp base done fs ∧ outcome.hashes = stepHashes done) ?_
      ⟨.start hmade, rfl⟩
  rintro before step after outcome fs hitems ⟨hstaged, hhashes⟩
  obtain ⟨g, g', hbefore, hnext⟩ := foldlM_next _ (hitems ▸ hlayout)
  have hsame := (hstaged.layout fun _ _ ↦ trivial).symm.trans hbefore
  rw [← Option.some.inj hsame] at hnext
  have hin : Inside step.path := hsteps step (by rw [← hitems]; simp)
  refine (applyStep_yields htmp hin hstaged hnext).mono ?_
  rintro outcome' fs' ⟨hstaged', hhashes'⟩
  exact ⟨hstaged', by rw [hhashes', hhashes, stepHashes_append]⟩

theorem writeRecord_yields (htmp : Plain tmp) {record : Value} {trusted : FsOp → Prop}
    (h : Staged trusted ps tmp base done fs)
    (hlayout : stepLayout (fs.node.below (stagingLocation ps tmp))
      (recordStep (jsonWrite record true)) = some f) :
    (writeRecord (stagingAt ps tmp) fast record).Yields (perform cwd)
      (fun _ fs' ↦ Staged trusted ps tmp base (done ++ [recordStep (jsonWrite record true)]) fs') fs := by
  suffices hreturns : (writeRecord (stagingAt ps tmp) fast record).Yields (perform cwd)
      (fun _ _ ↦ True) fs from
    (hreturns.also (writeRecord_wp htmp h) (behaves_perform cwd trusted)).mono fun _ _ h ↦ h.2
  exact yields_bind ((writeFile_below_yields htmp inside_kMetadataFile h.made hlayout).mono
    fun _ fs' _ ↦ syncUnless_yields fast _ fs')

/-- A new workspace can be put at the target: the path ends in a name, nothing is there, no file is
on the way to it, and the walk up from it comes by no workspace. -/
structure Vacant (fs : FileSystem) (target : HostPath) : Prop where
  named : Plain target.filename
  absent : fs.node (targetLocation target) = none
  way : ∀ x, x <+: targetLocation target → ∀ data, fs.node x ≠ some (.file data)
  unenclosed : ∀ d, Visits target fs d → ¬ Workspace fs d

theorem rename_yields (htmp : Plain tmp) {name : Bytes} (hname : Plain name) (hne : tmp ≠ name)
    (hmade : Made fs [] (ps ++ [tmp])) (hfree : fs.node (locate [] ps ++ [name]) = none) :
    (rename (stagingAt ps tmp) ⟨true, ps ++ [name]⟩).Yields (perform cwd) (fun _ _ ↦ True) fs := by
  have hparent := hmade.shorten (List.prefix_append ps [tmp])
  have hstem : ∀ c, Plain c → HostPath.stem ⟨true, ps ++ [c]⟩ = ps ++ [c] := by
    intro c hc
    refine if_neg ?_
    rw [List.getLast?_concat, Option.some.injEq]
    exact hc.1
  have hsource : resolveEntry cwd fs ⟨true, ps ++ [tmp]⟩ = some (locate [] ps ++ [tmp]) :=
    resolveEntry_of_made rfl rfl htmp hparent
  have hdestination : resolveEntry cwd fs ⟨true, ps ++ [name]⟩ = some (locate [] ps ++ [name]) :=
    resolveEntry_of_made rfl rfl hname hparent
  have hthere : fs.node (locate [] ps ++ [tmp]) = some .dir := by
    have hdir := hmade _ List.prefix_rfl
    rwa [locate_concat, advance_plain htmp] at hdir
  have hapart : locate [] ps ++ [tmp] ≠ locate [] ps ++ [name] := by simpa using hne
  have hmovable : fs.Movable (locate [] ps ++ [tmp]) (locate [] ps ++ [name]) := by
    refine ⟨by simp, by simp, by simp [hthere], apart_of_ne hne, ?_,
      FileTree.emptyBelow_of_none hfree⟩
    rw [List.dropLast_concat]
    exact FileTree.isDir_iff.mpr (hparent _ List.prefix_rfl)
  have hreplaceable : replaceable fs (locate [] ps ++ [tmp]) (locate [] ps ++ [name]) = true := by
    rw [replaceable, hfree]
  have hperform : perform cwd (.rename (stagingAt ps tmp) ⟨true, ps ++ [name]⟩) fs =
      (none, fs.move (locate [] ps ++ [tmp]) (locate [] ps ++ [name])) := by
    rw [perform, FileSystem.rename]
    dsimp only
    rw [hstem tmp htmp, hstem name hname, hsource, hdestination]
    dsimp only
    rw [if_neg hapart, if_pos ⟨hmovable, hreplaceable⟩]
  refine ⟨(), fs.move (locate [] ps ++ [tmp]) (locate [] ps ++ [name]), ?_, trivial⟩
  unfold FilesystemService.rename
  rw [ask_bind, run, hperform]
  rfl

theorem build_yields (htmp : Plain tmp) {name : Bytes} (hname : Plain name) (hne : tmp ≠ name)
    (hsteps : ∀ step ∈ plan.steps, Inside step.path) (hmade : Made base [] (ps ++ [tmp]))
    (hfree : base.node (locate [] ps ++ [name]) = none)
    (hlayout : (stagedSteps metadataRecord plan.steps fast).foldlM stepLayout
      (base.node.below (stagingLocation ps tmp)) = some f) :
    (build (stagingAt ps tmp) ⟨true, ps ++ [name]⟩ plan metadataRecord fast).Yields (perform cwd)
      (fun _ _ ↦ True) base := by
  obtain ⟨g, g', hbefore, hrecord⟩ := foldlM_next [] hlayout
  unfold build
  refine yields_bind ((steps_yield htmp hsteps hmade hbefore).mono ?_)
  rintro outcome fs₁ ⟨hstaged, hhashes⟩
  have hsame := (hstaged.layout fun _ _ ↦ trivial).symm.trans hbefore
  rw [← Option.some.inj hsame] at hrecord
  refine yields_bind ?_
  rw [hhashes]
  refine (writeRecord_yields htmp hstaged hrecord).mono fun _ fs₂ hstaged₂ ↦ ?_
  have hfree₂ : fs₂.node (locate [] ps ++ [name]) = none := by
    rw [hstaged₂.outside _ (apart_of_ne hne), hfree]
  exact yields_bind ((rename_yields htmp hname hne hstaged₂.made hfree₂).mono
    fun _ _ _ ↦ yields_done trivial)

theorem refuseExisting_yields (h : existsAt cwd fs target = false) :
    (refuseExisting target).Yields (perform cwd) (fun _ fs' ↦ fs' = fs) fs := by
  have hprobe : (exists_ target).run (perform cwd) fs = (.ok (existsAt cwd fs target), fs) := rfl
  refine ⟨(), fs, ?_, rfl⟩
  rw [refuseExisting, run_bind, hprobe, h]
  rfl

theorem clearStaging_yields (htmp : Plain tmp) :
    (clearStaging (stagingAt ps tmp)).Yields (perform cwd)
      (fun _ fs' ↦ (existsAt cwd fs (stagingAt ps tmp) = false ∧ fs' = fs) ∨
        fs' = fs.prune (stagingLocation ps tmp)) fs := by
  have hprobe : (exists_ (stagingAt ps tmp)).run (perform cwd) fs =
      (.ok (existsAt cwd fs (stagingAt ps tmp)), fs) := rfl
  unfold clearStaging
  refine yields_bind ⟨_, fs, hprobe, ?_⟩
  dsimp only
  by_cases hseen : existsAt cwd fs (stagingAt ps tmp) = true
  · rw [if_pos hseen]
    rw [existsAt, Option.any_eq_true] at hseen
    obtain ⟨l, hl, -⟩ := hseen
    have hloc : l = stagingLocation ps tmp := by
      rw [resolve, start_absolute rfl] at hl
      rw [(walk_eq_some.mp hl).1, locate_staging htmp]
    subst hloc
    have hperform : perform cwd (.removeAll (stagingAt ps tmp)) fs =
        (none, fs.prune (stagingLocation ps tmp)) := by
      rw [perform, FileSystem.removeAll, hl]
      exact if_neg (by simp [stagingLocation])
    refine ⟨(), fs.prune (stagingLocation ps tmp), ?_, .inr rfl⟩
    unfold FilesystemService.removeAll
    rw [ask_bind, run, hperform]
    rfl
  · rw [if_neg hseen]
    exact yields_done (.inl ⟨by simpa using hseen, rfl⟩)

theorem prepare_yields {α : Type} {next : FsProgram α} {post : α → FileSystem → Prop}
    (htmp : Plain tmp)
    (hway : ∀ ds, ds <+: ps → locate [] ds <+: locate [] ps ∨ (fs.node (locate [] ds) = some .dir ∧
      (stagingLocation ps tmp <+: locate [] ds → locate [] ds = stagingLocation ps tmp)))
    (hfiles : ∀ x, x <+: locate [] ps → ∀ data, fs.node x ≠ some (.file data))
    (hnext : ∀ base, Prepared cwd (fun _ ↦ True) ps tmp fs base →
      next.Yields (perform cwd) post base) :
    (do clearStaging (stagingAt ps tmp); createDirectories (stagingAt ps tmp); next).Yields
      (perform cwd) post fs := by
  have hclear : Clear cwd ps tmp fs := clear_of_way htmp hway
  have hstaging : stagingLocation ps tmp ≠ [] := by simp [stagingLocation]
  have hpassed : ∀ ds, ds <+: ps → ∀ data, fs.node (locate [] ds) ≠ some (.file data) := by
    intro ds hds data hdata
    rcases hway ds hds with habove | ⟨hdir, -⟩
    · exact hfiles _ habove data hdata
    · rw [hdir] at hdata
      cases hdata
  have hreturns : (do clearStaging (stagingAt ps tmp)
                      createDirectories (stagingAt ps tmp)
                      done () : FsProgram Unit).Yields (perform cwd) (fun _ _ ↦ True) fs := by
    refine yields_bind ((clearStaging_yields htmp).mono fun _ fs₁ hcleared ↦ ?_)
    refine yields_bind ((createDirectories_yields rfl fun ds hds data ↦ ?_).mono
      fun _ _ _ ↦ yields_done trivial)
    rcases List.prefix_concat_iff.mp hds with rfl | hds
    · rw [locate_staging htmp]
      rcases hcleared with ⟨hunseen, rfl⟩ | rfl
      · rw [hclear.seen.resolve_right (by simp [hunseen])]
        simp
      · rw [FileTree.node_prune hstaging, if_pos List.prefix_rfl]
        simp
    · rcases hcleared with ⟨-, rfl⟩ | rfl
      · exact hpassed ds hds data
      · rw [FileTree.node_prune hstaging]
        split_ifs
        · simp
        · exact hpassed ds hds data
  have hprepares : (do clearStaging (stagingAt ps tmp)
                       createDirectories (stagingAt ps tmp)
                       done () : FsProgram Unit).wp (Behaves cwd fun _ ↦ True)
      (fun _ base ↦ Prepared cwd (fun _ ↦ True) ps tmp fs base) (fun _ _ ↦ True) (fun _ ↦ True) fs :=
    prepare_wp htmp (fun _ _ ↦ ⟨trivial, fun _ ↦ trivial⟩) fun base hbase ↦ hbase
  have hprepared := hreturns.also hprepares (behaves_perform cwd fun _ ↦ True)
  have hsplit : (do clearStaging (stagingAt ps tmp); createDirectories (stagingAt ps tmp); next) =
      (do clearStaging (stagingAt ps tmp)
          createDirectories (stagingAt ps tmp)
          done () : FsProgram Unit) >>= fun _ ↦ next := by
    simp only [Program.bind_assoc, done_bind]
  rw [hsplit]
  exact yields_bind (hprepared.mono fun _ base h ↦ hnext base h.2)

theorem locate_straight {l : Location} : ∀ {cs : List Bytes}, ascii ".." ∉ cs → l <+: locate l cs
  | [], _ => List.prefix_rfl
  | c :: cs, h => by
    rw [List.mem_cons, not_or] at h
    have hstep : l <+: advance l c := by
      unfold advance
      split_ifs with hstay hback
      · exact List.prefix_rfl
      · exact absurd hback.symm h.1
      · exact List.prefix_append _ _
    exact hstep.trans (locate_straight h.2)

theorem direct_of_straight {cs : List Bytes} (h : ascii ".." ∉ cs) : Direct cs := by
  rintro ds ⟨es, rfl⟩
  rw [locate_append]
  exact locate_straight fun hes ↦ h (List.mem_append_right _ hes)

theorem wayClear_of_straight (h : ascii ".." ∉ target.parts.dropLast) (fs : FileSystem) :
    WayClear target fs :=
  fun ds hds ↦ .inl (direct_of_straight h ds hds)

theorem WayClear.passes (h : WayClear target fs) : ∀ ds, ds <+: target.parts.dropLast →
    locate [] ds <+: locate [] target.parts.dropLast ∨ fs.node (locate [] ds) = some .dir :=
  fun ds hds ↦ (h ds hds).imp_right And.left

theorem apply_yields (hcwd : ∀ c ∈ cwd, Plain c) (hsteps : ∀ step ∈ plan.steps, Inside step.path)
    (hway : WayClear (targetOf cwd plan) fs) (hvacant : Vacant fs (targetOf cwd plan))
    (happart : Apart (stagedSteps metadataRecord plan.steps fast)) :
    (apply cwd plan metadataRecord fast).Yields (perform cwd) (fun _ _ ↦ True) fs := by
  have hwf := targetOf_wellFormed hcwd plan
  have hbeside := beside_of_plain hvacant.named
  have htmp := plain_stagingName (targetOf cwd plan)
  have hfree : existsAt cwd fs (targetOf cwd plan) = false :=
    unseen_of_missing hwf.absolute (.inr hvacant.absent)
  have hnested : (refuseNested (targetOf cwd plan) (targetOf cwd plan).properAncestors).Yields
      (perform cwd) (fun _ fs' ↦ fs' = fs) fs := by
    refine ⟨(), fs, ?_, rfl⟩
    have hnone : (targetOf cwd plan).properAncestors.find? (fun ancestor ↦
        existsAt cwd fs (recordOf ancestor)) = none := by
      rw [List.find?_eq_none]
      intro ancestor hmem hfound
      obtain ⟨d, hvisits, hspace⟩ := (found_iff cwd hwf).mp ⟨ancestor, hmem, hfound⟩
      exact hvacant.unenclosed d hvisits hspace
    rw [run_refuseNested_perform, hnone]
  have hlocation := hbeside.targetLocation
  have habsent := hvacant.absent
  have hpn := hbeside.parts
  have hname := hvacant.named
  have hne : stagingName (targetOf cwd plan) ≠ (targetOf cwd plan).filename := stagingName_ne
  have hfiles : ∀ x, x <+: locate [] (targetOf cwd plan).parts.dropLast → ∀ data,
      fs.node x ≠ some (.file data) :=
    fun x hx ↦ hvacant.way x (hlocation ▸ hx.trans (List.prefix_append _ _))
  unfold WayClear at hway
  unfold apply
  dsimp only
  rw [stagingPathFor_eq hwf]
  rw [hlocation] at habsent
  have htarget : targetOf cwd plan =
      ⟨true, (targetOf cwd plan).parts.dropLast ++ [(targetOf cwd plan).filename]⟩ := by
    rw [← hpn, ← hwf.absolute]
  generalize stagingName (targetOf cwd plan) = tmp at htmp hne hway
  refine yields_bind ((refuseExisting_yields hfree).mono ?_)
  rintro _ _ rfl
  refine yields_bind (hnested.mono ?_)
  rintro _ fs rfl
  generalize (targetOf cwd plan).parts.dropLast = ps at *
  generalize (targetOf cwd plan).filename = name at *
  refine prepare_yields htmp hway hfiles fun base hbase ↦ ?_
  have hempty := hbase.empty trivial (clear_of_way htmp hway)
  obtain ⟨f, hf⟩ := exists_layout_iff.mpr happart
  have hbasefree : base.node (locate [] ps ++ [name]) = none := by
    rcases hbase.reached (locate [] ps ++ [name]) (apart_of_ne hne) with
      hsame | ⟨hnone, -, ds, hds, heq⟩
    · rw [hsame, habsent]
    · -- No directory on the way is in the place of the target.
      rcases hway ds hds with habove | ⟨hdir, -⟩
      · have hlong := habove.length_le
        rw [← heq, List.length_append, List.length_singleton] at hlong
        omega
      · rw [← heq, hnone] at hdir
        cases hdir
  have hbuilt : (build (stagingAt ps tmp) ⟨true, ps ++ [name]⟩ plan metadataRecord fast).Yields
      (perform cwd) (fun _ _ ↦ True) base :=
    build_yields htmp hname hne hsteps hbase.made hbasefree (hempty ▸ hf)
  rw [htarget]
  refine yields_bind ((yields_handle hbuilt).mono fun outcome fs₁ _ ↦ ?_)
  split_ifs
  · exact yields_bind ((syncUnless_yields fast _ fs₁).mono fun _ _ _ ↦ yields_done trivial)
  · exact yields_done trivial

/-- A transaction that goes through found the place vacant, and its steps apart. -/
theorem vacant_of_run (hcwd : ∀ c ∈ cwd, Plain c) (hsteps : ∀ step ∈ plan.steps, Inside step.path)
    (hway : WayClear (targetOf cwd plan) fs) {outcome : Outcome}
    (hrun : (apply cwd plan metadataRecord fast).run (perform cwd) fs = (.ok outcome, fs')) :
    Vacant fs (targetOf cwd plan) ∧ Apart (stagedSteps metadataRecord plan.steps fast) := by
  have hwf := targetOf_wellFormed hcwd plan
  have hfree : existsAt cwd fs (targetOf cwd plan) = false := by
    by_contra hseen
    rw [Bool.not_eq_false] at hseen
    exact sound_run hrun (apply_existing trivial hseen)
  have hcommitted := run_committed hcwd hsteps hrun
  obtain ⟨hbeside, -⟩ := hcommitted.nodes hwf
  have habsent : fs.node (targetLocation (targetOf cwd plan)) = none := by
    by_contra hthere
    have hseen : existsAt cwd fs (targetOf cwd plan) = true := hbeside.seen hwf hway.passes hthere
    rw [hfree] at hseen
    cases hseen
  obtain ⟨f, hstart, hlayout, hempty⟩ := hcommitted.layout hwf fun _ _ ↦ trivial
  have hbare := hempty trivial (clear_of_way (plain_stagingName _) hway)
  refine ⟨⟨hbeside.plain, habsent, fun x hx data hdata ↦ ?_, fun d hvisits hspace ↦ ?_⟩, ?_⟩
  · -- The target is there afterwards, so a directory is in each place above it.
    have hproper : x ≠ targetLocation (targetOf cwd plan) := by
      rintro rfl
      rw [habsent] at hdata
      cases hdata
    have hthere : fs'.node (targetLocation (targetOf cwd plan)) ≠ none := by
      have hdir := (dir_of_steps hlayout).1 [] hstart
      rw [Layout.below, List.append_nil] at hdir
      simp [hdir]
    have hdir := FileTree.dir_above hthere hx hproper
    have houtside : ¬ targetLocation (targetOf cwd plan) <+: x :=
      fun hp ↦ hproper (List.IsPrefix.eq_of_length_le hx hp.length_le)
    rcases hcommitted.keepsOutside hwf x houtside with hsame | ⟨hnone, -⟩ | ⟨-, hnone⟩
    · rw [hsame, hdata] at hdir
      cases hdir
    · rw [hdata] at hnone
      cases hnone
    · rw [hdir] at hnone
      cases hnone
  · have hrefused : RefusesNested cwd plan metadataRecord fast fs :=
      (refusesNested_iff hcwd hfree).mpr ⟨d, hvisits, hspace⟩
    obtain ⟨e, fs'', herror, -⟩ := hrefused
    rw [hrun] at herror
    cases herror
  · rw [hbare] at hlayout
    exact apart_of_steps hlayout

theorem complete_of_committed (hcwd : ∀ c ∈ cwd, Plain c) (hway : WayClear (targetOf cwd plan) fs)
    {trusted : FsOp → Prop} (hclose : ∀ p w, trusted (.close p w))
    (hprobe : trusted (.exists (stagingPathFor (targetOf cwd plan))))
    (h : Committed cwd trusted (targetOf cwd plan) (stagedSteps metadataRecord plan.steps fast)
      fs fs') :
    Complete metadataRecord plan.steps fast
      (fs'.node.below (targetLocation (targetOf cwd plan))) := by
  have hwf := targetOf_wellFormed hcwd plan
  obtain ⟨f, -, hlayout, hempty⟩ := h.layout hwf hclose
  rw [stagingPathFor_eq hwf] at hprobe
  have hclear : Clear cwd (targetOf cwd plan).parts.dropLast (stagingName (targetOf cwd plan)) fs :=
    clear_of_way (plain_stagingName (targetOf cwd plan)) hway
  rwa [hempty hprobe hclear] at hlayout

/-- A transaction in which nothing fails goes through exactly when the place of the target is
vacant, and no step is in the way of another one or of the record. -/
theorem apply_succeeds_iff (hcwd : ∀ c ∈ cwd, Plain c)
    (hsteps : ∀ step ∈ plan.steps, Inside step.path) (hway : WayClear (targetOf cwd plan) fs) :
    (∃ outcome fs', (apply cwd plan metadataRecord fast).run (perform cwd) fs =
        (.ok outcome, fs')) ↔
      Vacant fs (targetOf cwd plan) ∧ Apart (stagedSteps metadataRecord plan.steps fast) := by
  constructor
  · rintro ⟨outcome, fs', hrun⟩
    exact vacant_of_run hcwd hsteps hway hrun
  · rintro ⟨hvacant, happart⟩
    obtain ⟨outcome, fs', hrun, -⟩ := apply_yields hcwd hsteps hway hvacant happart
    exact ⟨outcome, fs', hrun⟩

theorem sample_succeeds_iff :
    (∃ outcome fs', (apply [] (samplePlan "/b" sampleSteps) (.object []) false).run (perform [])
        workspaceDisk = (.ok outcome, fs')) ↔
      Vacant workspaceDisk (targetOf [] (samplePlan "/b" sampleSteps)) ∧
        Apart (stagedSteps (.object []) sampleSteps false) :=
  apply_succeeds_iff (by simp) (fun step hstep ↦ (sample_confined step hstep).inside)
    fun ds hds ↦ .inl (direct_of_plain (by decide) ds hds)

end TransactionService

end SquaredPg
