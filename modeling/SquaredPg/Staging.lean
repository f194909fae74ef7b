import SquaredPg.Transaction
import SquaredPg.Workspace

namespace SquaredPg

open Ascii Program

/-- A text that names an entry below a directory, by names only. -/
structure Inside (path : Bytes) : Prop where
  relative : HostPath.ofBytes path = ⟨false, splitPath path⟩
  names : ∀ c ∈ splitPath path, Plain c
  nonempty : splitPath path ≠ []
  joined : joinPath (splitPath path) = path

theorem Name.plain {c : Bytes} (h : Name c) : Plain c := ⟨h.ne_nil, h.ne_dot, h.ne_dotdot⟩

theorem joinPath_getLast {cs : List Bytes} (h : ∀ c ∈ cs, c ≠ [] ∧ slash ∉ c) :
    (joinPath cs).getLast? ≠ some slash := by
  rcases List.eq_nil_or_concat cs with rfl | ⟨ds, c, rfl⟩
  · simp [joinPath, joinWith]
  · obtain ⟨hne, hslash⟩ := h c (by simp)
    have hlast : ∀ as : Bytes, (as ++ c).getLast? ≠ some slash := by
      intro as hl
      rw [List.getLast?_append_of_ne_nil _ hne] at hl
      exact hslash (List.mem_of_getLast? hl)
    by_cases hds : ds = []
    · subst hds
      simpa [joinPath_singleton] using hlast []
    · rw [List.concat_eq_append, joinPath_append hds (by simp), joinPath_singleton,
        ← List.singleton_append, ← List.append_assoc]
      exact hlast _

theorem Inside.of_names {cs : List Bytes} (hne : cs ≠ []) (h : ∀ c ∈ cs, Name c) :
    Inside (joinPath cs) := by
  have hslash : ∀ c ∈ cs, c ≠ [] ∧ slash ∉ c := fun c hc ↦ ⟨(h c hc).ne_nil, (h c hc).no_slash⟩
  have hsplit := splitPath_joinPath hslash
  have hhead : (joinPath cs).head? ≠ some slash := by
    obtain ⟨c, cs, rfl⟩ := List.exists_cons_of_ne_nil hne
    rw [joinPath_head (hslash c (by simp)).1]
    exact fun hc ↦ (hslash c (by simp)).2 (List.mem_of_head? hc)
  refine ⟨?_, by simpa [hsplit] using fun c hc ↦ (h c hc).plain, by rwa [hsplit], by rw [hsplit]⟩
  simp [HostPath.ofBytes, hsplit, hhead, joinPath_getLast hslash]

theorem Confined.inside {path : Bytes} (h : Confined path) : Inside path := by
  rw [← joinPath_splitOn path]
  refine .of_names (List.splitOn_ne_nil _ _) fun c hc ↦ ?_
  obtain ⟨hne, hdot, hdotdot⟩ := h.components c hc
  refine ⟨hne, ?_, hdot, hdotdot⟩
  exact (mem_splitPath (List.mem_filter.mpr ⟨hc, by simpa using hne⟩)).2

namespace TransactionService

open FilesystemService FileSystem MetadataService

def stagingName (target : HostPath) : Bytes :=
  ascii "." ++ target.filename ++ ascii ".squared-tmp"

theorem plain_stagingName (target : HostPath) : Plain (stagingName target) := by
  have hlength : 13 ≤ (stagingName target).length := by
    simp only [stagingName, List.length_append]
    have h₁ : (ascii ".").length = 1 := by decide
    have h₂ : (ascii ".squared-tmp").length = 12 := by decide
    omega
  refine ⟨?_, ?_, ?_⟩ <;> intro heq <;> rw [heq] at hlength <;> exact absurd hlength (by decide)

theorem stagingName_ne {target : HostPath} : stagingName target ≠ target.filename := by
  intro heq
  have hlength := congrArg List.length heq
  simp only [stagingName, List.length_append] at hlength
  have h₁ : (ascii ".").length = 1 := by decide
  omega

/-- An absolute path whose elements are names but for the last. -/
structure WellFormed (path : HostPath) : Prop where
  absolute : path.absolute = true
  names : [] ∉ path.parts.dropLast

variable {cwd : Location} {plan : GenerationPlan} {target staging : HostPath}

theorem not_mem_dropLast {cs : List Bytes} (h : [] ∉ cs) : [] ∉ cs.dropLast :=
  fun hc ↦ h (List.dropLast_subset _ hc)

theorem not_mem_ofBytes (text : Bytes) : [] ∉ (HostPath.ofBytes text).parts.dropLast := by
  have hsplit : [] ∉ splitPath text := fun h ↦ (mem_splitPath h).1 rfl
  simp only [HostPath.ofBytes]
  split_ifs
  · simpa using hsplit
  · simpa using not_mem_dropLast hsplit

theorem targetPath_wellFormed (hcwd : ∀ c ∈ cwd, Plain c) (output : Bytes) :
    WellFormed (targetPath cwd output) := by
  have hnil : [] ∉ cwd := fun h ↦ (hcwd [] h).1 rfl
  have hstem : HostPath.stem ⟨true, cwd⟩ = cwd :=
    if_neg fun h ↦ hnil (List.mem_of_getLast? h)
  unfold targetPath HostPath.makeAbsolute HostPath.append
  rw [hstem]
  split_ifs with habs hparts hcwd'
  · exact ⟨habs, not_mem_ofBytes output⟩
  · exact ⟨rfl, by simp⟩
  · exact ⟨rfl, by simpa using hnil⟩
  · refine ⟨rfl, ?_⟩
    rw [List.dropLast_append_of_ne_nil hparts, List.mem_append]
    exact fun h ↦ h.elim hnil (not_mem_ofBytes output)

theorem targetOf_wellFormed (hcwd : ∀ c ∈ cwd, Plain c) (plan : GenerationPlan) :
    WellFormed (targetOf cwd plan) := targetPath_wellFormed hcwd plan.workspace

theorem stagingPathFor_eq (h : WellFormed target) :
    stagingPathFor target = ⟨true, target.parts.dropLast ++ [stagingName target]⟩ := by
  have hparent : target.hasParentPath = true := by
    simp [HostPath.hasParentPath, HostPath.isEmpty, HostPath.parentPath, h.absolute]
  have hstem : HostPath.stem ⟨true, target.parts.dropLast⟩ = target.parts.dropLast :=
    if_neg fun hlast ↦ h.names (List.mem_of_getLast? hlast)
  simp [stagingPathFor, hparent, HostPath.append, hstem, HostPath.parentPath, h.absolute,
    stagingName]

def Outside (l : Location) (fs fs' : FileSystem) : Prop := ∀ x, ¬ l <+: x → fs'.node x = fs.node x

theorem Outside.refl (l : Location) (fs : FileSystem) : Outside l fs fs := fun _ _ ↦ rfl

theorem Outside.trans {l : Location} {fs fs' fs'' : FileSystem} (h : Outside l fs fs')
    (h' : Outside l fs' fs'') : Outside l fs fs'' := fun x hx ↦ (h' x hx).trans (h x hx)

abbrev stagingAt (ps : List Bytes) (tmp : Bytes) : HostPath := ⟨true, ps ++ [tmp]⟩

def stagingLocation (ps : List Bytes) (tmp : Bytes) : Location := locate [] ps ++ [tmp]

section Steps

variable {ps cs ds : List Bytes} {tmp path content : Bytes} {trusted : FsOp → Prop}
  {base fs fs' : FileSystem} {step : PlanStep} {executable fast : Bool}

theorem locate_staging (htmp : Plain tmp) : locate [] (ps ++ [tmp]) = stagingLocation ps tmp :=
  locate_concat.trans (advance_plain htmp)

theorem locate_below (htmp : Plain tmp) (hcs : ∀ c ∈ cs, Plain c) :
    locate [] (ps ++ [tmp] ++ cs) = stagingLocation ps tmp ++ cs := by
  rw [locate_append, locate_staging htmp, locate_plain hcs]

theorem way_below (htmp : Plain tmp) (hcs : ∀ c ∈ cs, Plain c) (hmade : Made fs [] (ps ++ [tmp]))
    (hds : ds <+: ps ++ [tmp] ++ cs) (hnone : fs.node (locate [] ds) = none) :
    ∃ es, es <+: cs ∧ locate [] ds = stagingLocation ps tmp ++ es := by
  rcases List.prefix_or_prefix_of_prefix hds (List.prefix_append (ps ++ [tmp]) cs) with h | h
  · rw [hmade ds h] at hnone
    cases hnone
  · obtain ⟨es, rfl⟩ := h
    have hes := (List.prefix_append_right_inj _).mp hds
    exact ⟨es, hes, locate_below htmp fun c hc ↦ hcs c (hes.subset hc)⟩

theorem makeDirs_below (htmp : Plain tmp) (hcs : ∀ c ∈ cs, Plain c)
    (hmade : Made fs [] (ps ++ [tmp])) (hgrown : Grown fs [] (ps ++ [tmp] ++ cs) fs')
    (hmade' : Made fs' [] (ps ++ [tmp] ++ cs)) :
    (fs.node.below (stagingLocation ps tmp)).makeDirs cs =
      some (fs'.node.below (stagingLocation ps tmp)) := by
  have hdir : ∀ x, x <+: cs → fs'.node (stagingLocation ps tmp ++ x) = some .dir := by
    intro x hx
    rw [← locate_below htmp fun c hc ↦ hcs c (hx.subset hc)]
    exact hmade' _ ((List.prefix_append_right_inj _).mpr hx)
  refine Layout.makeDirs_eq_some.mpr ⟨fun x hx data hfile ↦ ?_, funext fun x ↦ ?_⟩
  · rcases hgrown (stagingLocation ps tmp ++ x) with hsame | ⟨hnone, -⟩
    · rw [hdir x hx] at hsame
      rw [Layout.below, ← hsame] at hfile
      cases hfile
    · rw [Layout.below, hnone] at hfile
      cases hfile
  · rw [Layout.below]
    split_ifs with hx
    · exact hdir x hx
    · rcases hgrown (stagingLocation ps tmp ++ x) with hsame | ⟨hnone, -, ds, hds, heq⟩
      · exact hsame
      · obtain ⟨es, hes, hloc⟩ := way_below htmp hcs hmade hds (heq ▸ hnone)
        exact absurd (List.append_cancel_left (heq.trans hloc) ▸ hes) hx

theorem write_below {c : Bytes} {data : FileData} {edit : Option FileData → FileData}
    (htmp : Plain tmp) (hcs : ∀ d ∈ cs, Plain d) (hmade : Made fs [] (ps ++ [tmp]))
    (hgrown : GrownAround fs (ps ++ [tmp] ++ cs) (stagingLocation ps tmp ++ cs ++ [c]) fs')
    (hmade' : Made fs' [] (ps ++ [tmp] ++ cs))
    (hnodir : fs.node (stagingLocation ps tmp ++ cs ++ [c]) ≠ some .dir)
    (hnode : fs'.node (stagingLocation ps tmp ++ cs ++ [c]) = some (.file data))
    (hedit : edit (fs.node.fileAt (stagingLocation ps tmp ++ cs ++ [c])) = data) :
    (fs.node.below (stagingLocation ps tmp)).write (cs ++ [c]) edit =
      some (fs'.node.below (stagingLocation ps tmp)) := by
  have hdir : ∀ x, x <+: cs → fs'.node (stagingLocation ps tmp ++ x) = some .dir := by
    intro x hx
    rw [← locate_below htmp fun d hd ↦ hcs d (hx.subset hd)]
    exact hmade' _ ((List.prefix_append_right_inj _).mpr hx)
  have hother : ∀ {x}, x ≠ cs ++ [c] →
      stagingLocation ps tmp ++ x ≠ stagingLocation ps tmp ++ cs ++ [c] := by
    intro x hx heq
    rw [List.append_assoc] at heq
    exact hx (List.append_cancel_left heq)
  have hlonger : ∀ {x}, x <+: cs → x ≠ cs ++ [c] := by
    rintro x hx rfl
    exact absurd hx.length_le (by simp)
  rw [List.append_assoc] at hnodir hnode hedit
  refine Layout.write_eq_some.mpr ⟨hnodir, fun x hx d hfile ↦ ?_, funext fun x ↦ ?_⟩
  · rw [List.dropLast_concat] at hx
    rcases hgrown _ (hother (hlonger hx)) with hsame | ⟨hnone, -⟩
    · rw [hdir x hx] at hsame
      rw [Layout.below, ← hsame] at hfile
      cases hfile
    · rw [Layout.below, hnone] at hfile
      cases hfile
  · rw [Layout.below, List.dropLast_concat]
    split_ifs with hx hx'
    · rw [hx, hnode, ← hedit]
      rfl
    · exact hdir x hx'
    · rcases hgrown _ (hother hx) with hsame | ⟨hnone, -, ds, hds, heq⟩
      · exact hsame
      · obtain ⟨es, hes, hloc⟩ := way_below htmp hcs hmade hds (heq ▸ hnone)
        exact absurd (List.append_cancel_left (heq.trans hloc) ▸ hes) hx'

theorem append_staging (htmp : Plain tmp) (hpath : Inside path) :
    (stagingAt ps tmp).append (.ofBytes path) = ⟨true, ps ++ [tmp] ++ splitPath path⟩ := by
  have hstem : (stagingAt ps tmp).stem = ps ++ [tmp] :=
    if_neg fun h ↦ htmp.1 (by simpa using h)
  have hrel := hpath.relative
  simp [HostPath.append, hrel, hpath.nonempty, hstem]

section Services

variable {ok : Unit → FileSystem → Prop} {err : EngineError → FileSystem → Prop}
  {stop : FileSystem → Prop}

theorem createDirectories_below (htmp : Plain tmp) (hpath : Inside path)
    (hmade : Made fs [] (ps ++ [tmp]))
    (hpart : ∀ fs', Outside (stagingLocation ps tmp) fs fs' → stop fs' ∧ ∀ e, err e fs')
    (hok : ∀ fs', Outside (stagingLocation ps tmp) fs fs' → Made fs' [] (ps ++ [tmp]) →
      (fs.node.below (stagingLocation ps tmp)).makeDirs (splitPath path) =
        some (fs'.node.below (stagingLocation ps tmp)) → ok () fs') :
    (createDirectories ((stagingAt ps tmp).append (.ofBytes path))).wp (Behaves cwd trusted)
      ok err stop fs := by
  rw [append_staging htmp hpath]
  have hout : ∀ fs', Grown fs [] (ps ++ [tmp] ++ splitPath path) fs' →
      Outside (stagingLocation ps tmp) fs fs' := by
    intro fs' hgrown x hx
    rcases hgrown x with hsame | ⟨hnone, -, ds, hds, rfl⟩
    · exact hsame
    · obtain ⟨es, -, heq⟩ := way_below htmp hpath.names hmade hds hnone
      exact absurd (heq ▸ List.prefix_append _ es) hx
  refine createDirectories_wp rfl (fun fs' hgrown ↦ hpart fs' (hout fs' hgrown)) ?_
  intro fs' hgrown hmade'
  exact hok fs' (hout fs' hgrown) (hmade'.shorten (List.prefix_append _ _))
    (makeDirs_below htmp hpath.names hmade hgrown hmade')

theorem writeFile_below (htmp : Plain tmp) (hpath : Inside path)
    (hmade : Made fs [] (ps ++ [tmp]))
    (hpart : ∀ fs', Outside (stagingLocation ps tmp) fs fs' → stop fs' ∧ ∀ e, err e fs')
    (hok : ∀ fs' written, Outside (stagingLocation ps tmp) fs fs' → Made fs' [] (ps ++ [tmp]) →
      ((∀ p w, trusted (.close p w)) → written = content) →
      (fs.node.below (stagingLocation ps tmp)).write (splitPath path)
          (fun old ↦ ⟨written, executable || old.any FileData.executable⟩) =
        some (fs'.node.below (stagingLocation ps tmp)) → ok () fs') :
    (writeFile ((stagingAt ps tmp).append (.ofBytes path)) content executable).wp
      (Behaves cwd trusted) ok err stop fs := by
  obtain ⟨cs, c, hcs⟩ := (List.eq_nil_or_concat' _).resolve_left hpath.nonempty
  have hplain : ∀ d ∈ cs, Plain d := fun d hd ↦ hpath.names d (by simp [hcs, hd])
  have hlast : Plain c := hpath.names c (by simp [hcs])
  have hloc : locate [] (ps ++ [tmp] ++ cs) ++ [c] = stagingLocation ps tmp ++ cs ++ [c] := by
    rw [locate_below htmp hplain]
  have hout : ∀ fs', GrownAround fs (ps ++ [tmp] ++ cs) (stagingLocation ps tmp ++ cs ++ [c]) fs' →
      Outside (stagingLocation ps tmp) fs fs' := by
    intro fs' hgrown x hx
    have hne : x ≠ stagingLocation ps tmp ++ cs ++ [c] := by
      rintro rfl
      exact hx (by rw [List.append_assoc]; exact List.prefix_append _ _)
    rcases hgrown x hne with hsame | ⟨hnone, -, ds, hds, rfl⟩
    · exact hsame
    · obtain ⟨es, -, heq⟩ := way_below htmp hplain hmade hds hnone
      exact absurd (heq ▸ List.prefix_append _ es) hx
  rw [append_staging htmp hpath, hcs, ← List.append_assoc]
  have hparts : HostPath.parts ⟨true, ps ++ [tmp] ++ cs ++ [c]⟩ = (ps ++ [tmp] ++ cs) ++ [c] := rfl
  refine writeFile_wp rfl hparts hlast (fun fs' hgrown ↦ ?_) ?_
  · rw [hloc] at hgrown
    exact hpart fs' (hout fs' hgrown)
  intro fs' written hgrown hmade' hnodir hnode hwhole
  rw [hloc] at hgrown hnodir hnode
  refine hok fs' written (hout fs' hgrown) (hmade'.shorten (List.prefix_append _ _))
    (fun htrust ↦ hwhole (htrust _ _)) ?_
  rw [hcs]
  exact write_below htmp hplain hmade hgrown hmade' hnodir hnode rfl

theorem syncUnless_wp {path : HostPath} (hstop : stop fs) (hok : ok () fs) :
    (syncUnless fast path).wp (Behaves cwd trusted) ok err stop fs := by
  unfold syncUnless
  split_ifs
  · exact hok
  · exact syncPath_wp hstop hok

end Services

def stepHashes (steps : List PlanStep) : List (Bytes × Bytes) :=
  (steps.filter fun step ↦ step.isDirectory = false).map fun step ↦
    (step.path, toHex (sha256 step.content))

theorem stepHashes_append (steps steps' : List PlanStep) :
    stepHashes (steps ++ steps') = stepHashes steps ++ stepHashes steps' := by
  simp [stepHashes]

def recordText (metadataRecord : Value) (steps : List PlanStep) (fast : Bool) : Bytes :=
  jsonWrite (completeRecord metadataRecord steps (stepHashes steps) fast) true

def recordStep (text : Bytes) : PlanStep := { path := kMetadataFile, content := text }

/-- All that is done below the staging directory. -/
def stagedSteps (metadataRecord : Value) (steps : List PlanStep) (fast : Bool) : List PlanStep :=
  steps ++ [recordStep (recordText metadataRecord steps fast)]

theorem inside_kMetadataFile : Inside kMetadataFile where
  relative := by decide
  names := by decide
  nonempty := by decide
  joined := by decide

/-- What holds when some of the steps are done. Only the flush of a closing stream is trusted for
the contents. -/
structure Staged (trusted : FsOp → Prop) (ps : List Bytes) (tmp : Bytes) (base : FileSystem)
    (done : List PlanStep) (fs : FileSystem) : Prop where
  outside : Outside (stagingLocation ps tmp) base fs
  made : Made fs [] (ps ++ [tmp])
  layout : (∀ p w, trusted (.close p w)) →
    done.foldlM stepLayout (base.node.below (stagingLocation ps tmp)) =
      some (fs.node.below (stagingLocation ps tmp))

theorem Staged.start (hmade : Made base [] (ps ++ [tmp])) : Staged trusted ps tmp base [] base where
  outside := .refl _ _
  made := hmade
  layout _ := rfl

variable {done : List PlanStep}

theorem Staged.next (h : Staged trusted ps tmp base done fs)
    (hout : Outside (stagingLocation ps tmp) fs fs') (hmade : Made fs' [] (ps ++ [tmp]))
    (hlayout : (∀ p w, trusted (.close p w)) →
      stepLayout (fs.node.below (stagingLocation ps tmp)) step =
        some (fs'.node.below (stagingLocation ps tmp))) :
    Staged trusted ps tmp base (done ++ [step]) fs' where
  outside := h.outside.trans hout
  made := hmade
  layout ht := by simp [List.foldlM_append, h.layout ht, hlayout ht]

theorem applyStep_wp {outcome : Outcome} (htmp : Plain tmp) (hpath : Inside step.path)
    (h : Staged trusted ps tmp base done fs) :
    (applyStep (stagingAt ps tmp) fast outcome step).wp (Behaves cwd trusted)
      (fun outcome' fs' ↦ Staged trusted ps tmp base (done ++ [step]) fs' ∧
        outcome'.hashes = outcome.hashes ++ stepHashes [step])
      (fun _ fs' ↦ Outside (stagingLocation ps tmp) base fs')
      (fun fs' ↦ Outside (stagingLocation ps tmp) base fs') fs := by
  unfold applyStep
  split_ifs with hdir
  · rw [wp_bind]
    refine createDirectories_below htmp hpath h.made
      (fun fs' hout ↦ ⟨h.outside.trans hout, fun _ ↦ h.outside.trans hout⟩) ?_
    intro fs' hout hmade hlayout
    refine ⟨h.next hout hmade fun _ ↦ ?_, by simp [stepHashes, hdir]⟩
    rw [stepLayout, if_pos hdir]
    exact hlayout
  · rw [wp_bind]
    refine writeFile_below htmp hpath h.made
      (fun fs' hout ↦ ⟨h.outside.trans hout, fun _ ↦ h.outside.trans hout⟩) ?_
    intro fs' written hout hmade hwhole hlayout
    rw [wp_bind]
    refine syncUnless_wp (h.outside.trans hout) ⟨h.next hout hmade fun ht ↦ ?_, ?_⟩
    · rw [stepLayout, if_neg hdir]
      rw [hwhole ht] at hlayout
      exact hlayout
    · simp [stepHashes, hdir]

theorem writeRecord_wp {record : Value} (htmp : Plain tmp)
    (h : Staged trusted ps tmp base done fs) :
    (writeRecord (stagingAt ps tmp) fast record).wp (Behaves cwd trusted)
      (fun _ fs' ↦ Staged trusted ps tmp base (done ++ [recordStep (jsonWrite record true)]) fs')
      (fun _ fs' ↦ Outside (stagingLocation ps tmp) base fs')
      (fun fs' ↦ Outside (stagingLocation ps tmp) base fs') fs := by
  unfold writeRecord recordOf
  rw [wp_bind]
  refine writeFile_below htmp inside_kMetadataFile h.made
    (fun fs' hout ↦ ⟨h.outside.trans hout, fun _ ↦ h.outside.trans hout⟩) ?_
  intro fs' written hout hmade hwhole hlayout
  refine syncUnless_wp (h.outside.trans hout) (h.next hout hmade fun ht ↦ ?_)
  rw [hwhole ht] at hlayout
  exact hlayout

/-- The workspace stands complete in the staging directory, and the rename takes place. -/
def Landed (cwd : Location) (trusted : FsOp → Prop) (ps : List Bytes) (tmp : Bytes)
    (base : FileSystem) (steps : List PlanStep) (target : HostPath) (fs' : FileSystem) : Prop :=
  ∃ fs, Staged trusted ps tmp base steps fs ∧ Renamed cwd fs (stagingAt ps tmp) target fs'

theorem steps_wp (htmp : Plain tmp) (hsteps : ∀ step ∈ plan.steps, Inside step.path)
    (hmade : Made base [] (ps ++ [tmp])) :
    (plan.steps.foldlM (applyStep (stagingAt ps tmp) fast) {}).wp (Behaves cwd trusted)
      (fun outcome fs' ↦ Staged trusted ps tmp base plan.steps fs' ∧
        outcome.hashes = stepHashes plan.steps)
      (fun _ fs' ↦ Outside (stagingLocation ps tmp) base fs')
      (fun fs' ↦ Outside (stagingLocation ps tmp) base fs') base := by
  refine wp_foldlM (I := fun done (outcome : Outcome) fs ↦
    Staged trusted ps tmp base done fs ∧ outcome.hashes = stepHashes done) (fun done step outcome fs hstep h ↦ ?_) ⟨.start hmade, rfl⟩
  refine wp_mono (applyStep_wp htmp (hsteps step hstep) h.1) ?_ (fun _ _ h ↦ h) fun _ h ↦ h
  rintro outcome' fs' ⟨hstaged, hhashes⟩
  exact ⟨hstaged, by rw [hhashes, h.2, stepHashes_append]⟩

theorem build_wp {metadataRecord : Value} (htmp : Plain tmp)
    (hsteps : ∀ step ∈ plan.steps, Inside step.path) (hmade : Made base [] (ps ++ [tmp])) :
    (build (stagingAt ps tmp) target plan metadataRecord fast).wp (Behaves cwd trusted)
      (fun _ fs' ↦ Landed cwd trusted ps tmp base (stagedSteps metadataRecord plan.steps fast)
        target fs')
      (fun _ fs' ↦ Outside (stagingLocation ps tmp) base fs')
      (fun fs' ↦ Outside (stagingLocation ps tmp) base fs' ∨
        Landed cwd trusted ps tmp base (stagedSteps metadataRecord plan.steps fast) target fs')
      base := by
  unfold build
  rw [wp_bind]
  refine wp_mono (steps_wp htmp hsteps hmade) ?_ (fun _ _ h ↦ h) fun _ h ↦ .inl h
  rintro outcome fs ⟨hstaged, hhashes⟩
  rw [wp_bind, hhashes]
  refine wp_mono (writeRecord_wp htmp hstaged) ?_ (fun _ _ h ↦ h) fun _ h ↦ .inl h
  intro _ fs₁ hstaged₁
  rw [wp_bind]
  refine rename_wp ⟨.inl hstaged₁.outside, fun _ ↦ hstaged₁.outside⟩ fun fs₂ hmoved ↦ ?_
  exact ⟨.inr ⟨fs₁, hstaged₁, hmoved⟩, fs₁, hstaged₁, hmoved⟩

/-- Outside the staging directory only directories are new, which its path goes through. -/
def Reached (ps : List Bytes) (tmp : Bytes) (fs fs' : FileSystem) : Prop :=
  ∀ x, ¬ stagingLocation ps tmp <+: x → fs'.node x = fs.node x ∨
    (fs.node x = none ∧ fs'.node x = some .dir ∧ ∃ ds, ds <+: ps ∧ x = locate [] ds)

theorem Outside.reached (h : Outside (stagingLocation ps tmp) fs fs') : Reached ps tmp fs fs' :=
  fun x hx ↦ .inl (h x hx)

theorem Reached.outside (h : Reached ps tmp base fs) (h' : Outside (stagingLocation ps tmp) fs fs') :
    Reached ps tmp base fs' := by
  intro x hx
  rw [h' x hx]
  exact h x hx

theorem Reached.grown (htmp : Plain tmp) (h : Outside (stagingLocation ps tmp) base fs)
    (h' : Grown fs [] (ps ++ [tmp]) fs') : Reached ps tmp base fs' := by
  intro x hx
  rw [← h x hx]
  rcases h' x with hsame | ⟨hnone, hdir, ds, hds, rfl⟩
  · exact .inl hsame
  · rcases List.prefix_concat_iff.mp hds with rfl | hds
    · exact absurd (locate_staging htmp ▸ List.prefix_rfl) hx
    · exact .inr ⟨hnone, hdir, ds, hds, rfl⟩

theorem prunedTo_outside (htmp : Plain tmp) (h : fs.PrunedTo (locate [] (ps ++ [tmp])) fs') :
    Outside (stagingLocation ps tmp) fs fs' := by
  intro x hx
  rcases h x with hsame | ⟨hp, -⟩
  · exact hsame
  · exact absurd (locate_staging htmp ▸ hp) hx

/-- Nothing gets in the way of an empty staging directory: what is left over at its location is
seen, and its path does not lead through it. -/
structure Clear (cwd : Location) (ps : List Bytes) (tmp : Bytes) (fs : FileSystem) : Prop where
  seen : fs.node (stagingLocation ps tmp) = none ∨ existsAt cwd fs (stagingAt ps tmp) = true
  way : ∀ ds, ds <+: ps → stagingLocation ps tmp <+: locate [] ds →
    locate [] ds = stagingLocation ps tmp

/-- The elements of a path lead along the directories above its end, and nowhere else. -/
def Direct (ps : List Bytes) : Prop := ∀ ds, ds <+: ps → locate [] ds <+: locate [] ps

theorem direct_of_plain (h : ∀ c ∈ ps, Plain c) : Direct ps := by
  intro ds hds
  rw [locate_plain h, locate_plain fun c hc ↦ h c (hds.subset hc)]
  simpa using hds

theorem existsAt_of_way {c : Bytes} (hc : Plain c)
    (hway : ∀ ds, ds <+: ps → locate [] ds <+: locate [] ps ∨ fs.node (locate [] ds) = some .dir)
    (h : fs.node (locate [] ps ++ [c]) ≠ none) : existsAt cwd fs ⟨true, ps ++ [c]⟩ = true := by
  have hdir := fs.closed _ _ h
  have hwalk : resolve cwd fs ⟨true, ps ++ [c]⟩ = some (locate [] ps ++ [c]) := by
    rw [resolve, start_absolute rfl, walk_eq_some, locate_concat, advance_plain hc]
    refine ⟨rfl, fun ds hds hne ↦ ?_⟩
    rcases hway ds ((List.prefix_concat_iff.mp hds).resolve_left hne) with hp | hd
    · by_cases heq : locate [] ds = locate [] ps
      · rw [heq, hdir]
      · exact FileTree.dir_above (by simp [hdir]) hp heq
    · exact hd
  rw [existsAt, hwalk, Option.any_some, Option.isSome_iff_ne_none]
  exact h

theorem clear_of_way (htmp : Plain tmp)
    (hway : ∀ ds, ds <+: ps → locate [] ds <+: locate [] ps ∨ (fs.node (locate [] ds) = some .dir ∧
      (stagingLocation ps tmp <+: locate [] ds → locate [] ds = stagingLocation ps tmp))) :
    Clear cwd ps tmp fs where
  seen := or_iff_not_imp_left.mpr
    (existsAt_of_way htmp fun ds hds ↦ (hway ds hds).imp_right And.left)
  way ds hds hp := by
    rcases hway ds hds with habove | ⟨-, hinside⟩
    · have hle := (hp.trans habove).length_le
      simp only [stagingLocation, List.length_append, List.length_singleton] at hle
      omega
    · exact hinside hp

theorem clear_of_direct (htmp : Plain tmp) (hps : Direct ps) : Clear cwd ps tmp fs :=
  clear_of_way htmp fun ds hds ↦ .inl (hps ds hds)

theorem clearStaging_wp (htmp : Plain tmp) :
    (clearStaging (stagingAt ps tmp)).wp (Behaves cwd trusted)
      (fun _ fs' ↦ Outside (stagingLocation ps tmp) fs fs' ∧
        (trusted (.exists (stagingAt ps tmp)) → Clear cwd ps tmp fs →
          ∀ y, fs'.node (stagingLocation ps tmp ++ y) = none))
      (fun _ fs' ↦ Outside (stagingLocation ps tmp) fs fs')
      (fun fs' ↦ Outside (stagingLocation ps tmp) fs fs') fs := by
  have hloc : locate [] (stagingAt ps tmp).parts = stagingLocation ps tmp := locate_staging htmp
  unfold clearStaging
  rw [wp_bind]
  refine exists_wp (.refl _ _) fun b hseen htrue ↦ ?_
  cases b with
  | false =>
    refine ⟨.refl _ _, fun ht hclear y ↦ ?_⟩
    have hnone := hclear.seen.resolve_right (by simp [← htrue ht])
    by_cases hy : y = []
    · simpa [hy] using hnone
    · exact FileTree.none_below (by simp [hnone]) (List.prefix_append _ y) (by simpa using hy)
  | true =>
    refine removeAll_wp rfl (fun fs' h ↦ ?_) ?_
    · exact ⟨prunedTo_outside htmp h, fun _ ↦ prunedTo_outside htmp h⟩
    · rintro fs' (⟨hres, -⟩ | ⟨hne, rfl⟩)
      · simp [existsAt, hres] at hseen
      · refine ⟨prunedTo_outside htmp (FileTree.prunedTo_prune hne), fun _ _ y ↦ ?_⟩
        rw [FileTree.node_prune hne, hloc, if_pos (List.prefix_append _ y)]

structure Prepared (cwd : Location) (trusted : FsOp → Prop) (ps : List Bytes) (tmp : Bytes)
    (fs base : FileSystem) : Prop where
  reached : Reached ps tmp fs base
  made : Made base [] (ps ++ [tmp])
  empty : trusted (.exists (stagingAt ps tmp)) → Clear cwd ps tmp fs →
    base.node.below (stagingLocation ps tmp) = Layout.bare

theorem prepare_wp (htmp : Plain tmp) {α : Type} {next : FsProgram α} {ok : α → FileSystem → Prop}
    {err : EngineError → FileSystem → Prop} {stop : FileSystem → Prop}
    (hpart : ∀ fs', Reached ps tmp fs fs' → stop fs' ∧ ∀ e, err e fs')
    (hok : ∀ base, Prepared cwd trusted ps tmp fs base →
      next.wp (Behaves cwd trusted) ok err stop base) :
    (do clearStaging (stagingAt ps tmp); createDirectories (stagingAt ps tmp); next : FsProgram α).wp
      (Behaves cwd trusted) ok err stop fs := by
  rw [wp_bind]
  refine wp_mono (clearStaging_wp htmp) ?_ (fun e fs' h ↦ (hpart fs' h.reached).2 e)
    fun fs' h ↦ (hpart fs' h.reached).1
  rintro _ fs₁ ⟨hout, hnone⟩
  rw [wp_bind]
  refine createDirectories_wp rfl (fun fs₂ hgrown ↦ hpart fs₂ (.grown htmp hout hgrown)) ?_
  intro fs₂ hgrown hmade
  refine hok fs₂ ⟨.grown htmp hout hgrown, hmade, fun ht hclear ↦ funext fun y ↦ ?_⟩
  have hroot : fs₂.node (stagingLocation ps tmp) = some .dir :=
    locate_staging htmp ▸ hmade _ List.prefix_rfl
  unfold Layout.below Layout.bare
  split_ifs with hy
  · simpa [hy] using hroot
  · rcases hgrown (stagingLocation ps tmp ++ y) with hsame | ⟨-, -, ds, hds, heq⟩
    · rw [hsame, hnone ht hclear y]
    · have hsame : stagingLocation ps tmp ++ y = stagingLocation ps tmp := by
        rcases List.prefix_concat_iff.mp hds with rfl | hds
        · exact heq.trans (locate_staging htmp)
        · exact heq.trans (hclear.way ds hds (heq ▸ List.prefix_append _ y))
      exact absurd (by simpa using hsame) hy

theorem refuseExisting_wp {ok : Unit → FileSystem → Prop} {err : EngineError → FileSystem → Prop}
    {stop : FileSystem → Prop} (hpart : stop fs ∧ ∀ e, err e fs)
    (hok : (trusted (.exists target) → existsAt cwd fs target = false) → ok () fs) :
    (refuseExisting target).wp (Behaves cwd trusted) ok err stop fs := by
  unfold refuseExisting
  rw [wp_bind]
  refine exists_wp hpart.1 fun b hseen htrue ↦ ?_
  cases b with
  | false => exact hok fun ht ↦ (htrue ht).symm
  | true => exact hpart.2 _

theorem refuseNested_wp {ok : Unit → FileSystem → Prop} {err : EngineError → FileSystem → Prop}
    {stop : FileSystem → Prop} (hpart : stop fs ∧ ∀ e, err e fs) (hok : ok () fs)
    (ancestors : List HostPath) :
    (refuseNested target ancestors).wp (Behaves cwd trusted) ok err stop fs := by
  induction ancestors with
  | nil => exact hok
  | cons ancestor rest ih =>
    rw [refuseNested, wp_bind]
    refine exists_wp hpart.1 fun b _ _ ↦ ?_
    cases b with
    | false => exact ih
    | true => exact hpart.2 _

theorem abortWith_wp {α : Type} {ok : α → FileSystem → Prop} (htmp : Plain tmp) (e : EngineError)
    (h : Reached ps tmp base fs) :
    (abortWith (stagingAt ps tmp) e : FsProgram α).wp (Behaves cwd trusted) ok
      (fun _ fs' ↦ Reached ps tmp base fs') (fun fs' ↦ Reached ps tmp base fs') fs := by
  unfold abortWith
  rw [wp_bind, wp_handle]
  have hpruned : ∀ fs', fs.PrunedTo (locate [] (ps ++ [tmp])) fs' → Reached ps tmp base fs' :=
    fun fs' hp ↦ h.outside (prunedTo_outside htmp hp)
  refine removeAll_wp rfl (fun fs' hp ↦ ⟨hpruned fs' hp, fun _ ↦ hpruned fs' hp⟩) ?_
  rintro fs' (⟨-, rfl⟩ | ⟨hne, rfl⟩)
  · exact h
  · exact hpruned _ (FileTree.prunedTo_prune hne)

def Committed (cwd : Location) (trusted : FsOp → Prop) (target : HostPath)
    (steps : List PlanStep) (fs fs' : FileSystem) : Prop :=
  ∃ base, Prepared cwd trusted target.parts.dropLast (stagingName target) fs base ∧
    Landed cwd trusted target.parts.dropLast (stagingName target) base steps target fs'

/-- From the staging directory on, a transaction fails or stops and leaves all but that directory
alone, or it goes through. -/
theorem land_wp {metadataRecord : Value} (htmp : Plain tmp)
    (hsteps : ∀ step ∈ plan.steps, Inside step.path) (hmade : Made base [] (ps ++ [tmp])) :
    (do
      let outcome ← (build (stagingAt ps tmp) target plan metadataRecord fast).handle
        (abortWith (stagingAt ps tmp))
      if target.hasParentPath then syncUnless fast target.parentPath else pure ()
      pure outcome : FsProgram Outcome).wp (Behaves cwd trusted)
      (fun _ fs' ↦ Landed cwd trusted ps tmp base (stagedSteps metadataRecord plan.steps fast)
        target fs')
      (fun _ fs' ↦ Reached ps tmp base fs')
      (fun fs' ↦ Reached ps tmp base fs' ∨
        Landed cwd trusted ps tmp base (stagedSteps metadataRecord plan.steps fast) target fs')
      base := by
  rw [wp_bind, wp_handle]
  refine wp_mono (build_wp htmp hsteps hmade) ?_ ?_ ?_
  · intro outcome fs' hlanded
    split_ifs
    · rw [wp_bind]
      exact syncUnless_wp (.inr hlanded) hlanded
    · exact hlanded
  · intro e fs' hout
    exact wp_mono (abortWith_wp htmp e hout.reached) (fun _ _ h ↦ h) (fun _ _ h ↦ h)
      fun _ h ↦ .inl h
  · exact fun fs' h ↦ h.imp_left Outside.reached

theorem Reached.trans (h : Reached ps tmp base fs) (h' : Reached ps tmp fs fs') :
    Reached ps tmp base fs' := by
  intro x hx
  rcases h' x hx with hsame | ⟨hnone, hnew⟩
  · rw [hsame]
    exact h x hx
  · rcases h x hx with hsame | ⟨-, hdir, -⟩
    · exact .inr ⟨hsame ▸ hnone, hnew⟩
    · rw [hnone] at hdir
      cases hdir

/-- A transaction that ends in an error, or stops, leaves all but the staging directory alone or
has gone through. -/
theorem apply_wp {metadataRecord : Value} (hcwd : ∀ c ∈ cwd, Plain c)
    (hsteps : ∀ step ∈ plan.steps, Inside step.path) :
    (apply cwd plan metadataRecord fast).wp (Behaves cwd trusted)
      (fun _ fs' ↦ Committed cwd trusted (targetOf cwd plan)
        (stagedSteps metadataRecord plan.steps fast) fs fs')
      (fun _ fs' ↦ Reached (targetOf cwd plan).parts.dropLast (stagingName (targetOf cwd plan)) fs fs')
      (fun fs' ↦ Reached (targetOf cwd plan).parts.dropLast (stagingName (targetOf cwd plan)) fs fs' ∨
        Committed cwd trusted (targetOf cwd plan) (stagedSteps metadataRecord plan.steps fast) fs fs')
      fs := by
  have htmp := plain_stagingName (targetOf cwd plan)
  unfold apply
  dsimp only
  rw [stagingPathFor_eq (targetOf_wellFormed hcwd plan), wp_bind]
  have hstart := (Outside.refl (stagingLocation (targetOf cwd plan).parts.dropLast
    (stagingName (targetOf cwd plan))) fs).reached
  refine refuseExisting_wp ⟨.inl hstart, fun _ ↦ hstart⟩ fun _ ↦ ?_
  rw [wp_bind]
  refine refuseNested_wp ⟨.inl hstart, fun _ ↦ hstart⟩ ?_ _
  refine prepare_wp htmp (fun fs' h ↦ ⟨.inl h, fun _ ↦ h⟩) fun base hbase ↦ ?_
  refine wp_mono (land_wp htmp hsteps hbase.made) (fun _ fs' h ↦ ⟨base, hbase, h⟩)
    (fun _ fs' h ↦ hbase.reached.trans h) fun fs' h ↦ ?_
  exact h.imp hbase.reached.trans fun hlanded ↦ ⟨base, hbase, hlanded⟩

theorem apply_existing {metadataRecord : Value} (htrust : trusted (.exists (targetOf cwd plan)))
    (hexists : existsAt cwd fs (targetOf cwd plan) = true) :
    (apply cwd plan metadataRecord fast).wp (Behaves cwd trusted)
      (fun _ _ ↦ False) (fun _ fs' ↦ fs' = fs) (fun fs' ↦ fs' = fs) fs := by
  unfold apply
  dsimp only
  rw [wp_bind]
  refine refuseExisting_wp ⟨rfl, fun _ ↦ rfl⟩ fun hfree ↦ ?_
  simp [hfree htrust] at hexists

end Steps

end TransactionService

end SquaredPg
