import SquaredPg.Commit

namespace SquaredPg

open Ascii Fallible Program

namespace TransactionService

open FilesystemService FileSystem MetadataService

variable {cwd : Location} {plan : GenerationPlan} {metadataRecord : Value} {fast : Bool}
  {fs fs' : FileSystem} {target path : HostPath} {cs : List Bytes} {d : Location}

/-- The directory has a workspace's record. -/
def Workspace (fs : FileSystem) (d : Location) : Prop :=
  fs.node (d ++ splitPath kMetadataFile) ≠ none

instance (fs : FileSystem) (d : Location) : Decidable (Workspace fs d) := by
  unfold Workspace
  infer_instance

theorem Workspace.dir_above {x : Location} (h : Workspace fs d) (hx : x <+: d) :
    fs.node x = some .dir := by
  refine FileTree.dir_above h (hx.trans (List.prefix_append _ _)) fun heq ↦ ?_
  have hle := (heq ▸ hx).length_le
  have hlong : (splitPath kMetadataFile).length = 2 := by decide
  simp only [List.length_append, hlong] at hle
  omega

/-- The walk up from the target comes by the directory. -/
def Visits (target : HostPath) (fs : FileSystem) (d : Location) : Prop :=
  ∃ cs, cs ≠ [] ∧ cs <+: target.parts.dropLast ∧ Made fs [] cs ∧ d = locate [] cs

/-- The directory is a proper ancestor of the location that the target denotes. -/
def Above (target : HostPath) (d : Location) : Prop :=
  d <+: targetLocation target ∧ d ≠ targetLocation target

theorem existsAt_recordOf (hnames : [] ∉ cs) :
    existsAt cwd fs (recordOf ⟨true, cs⟩) = true ↔ Made fs [] cs ∧ Workspace fs (locate [] cs) := by
  have hstem : HostPath.stem ⟨true, cs⟩ = cs := if_neg fun h ↦ hnames (List.mem_of_getLast? h)
  have hparts : recordOf ⟨true, cs⟩ = ⟨true, cs ++ splitPath kMetadataFile⟩ := by
    simp [recordOf, HostPath.append, inside_kMetadataFile.relative, inside_kMetadataFile.nonempty, hstem]
  have hlocate : ∀ es, es <+: splitPath kMetadataFile →
      locate [] (cs ++ es) = locate [] cs ++ es := by
    intro es hes
    rw [locate_append, locate_plain fun c hc ↦ inside_kMetadataFile.names c (hes.subset hc)]
  rw [hparts, existsAt, resolve, start_absolute rfl, Option.any_eq_true]
  constructor
  · rintro ⟨x, hx, hsome⟩
    obtain ⟨rfl, hdirs⟩ := walk_eq_some.mp hx
    rw [hlocate _ List.prefix_rfl, Option.isSome_iff_ne_none] at hsome
    refine ⟨fun ds hds ↦ hdirs ds (hds.trans (List.prefix_append _ _)) ?_, hsome⟩
    rintro rfl
    have hle := hds.length_le
    have hlong : (splitPath kMetadataFile).length = 2 := by decide
    simp only [List.length_append, hlong] at hle
    omega
  · rintro ⟨hmade, hrecord⟩
    refine ⟨locate [] cs ++ splitPath kMetadataFile, ?_, Option.isSome_iff_ne_none.mpr hrecord⟩
    refine walk_eq_some.mpr ⟨(hlocate _ List.prefix_rfl).symm, fun ds hds hne ↦ ?_⟩
    rcases List.prefix_or_prefix_of_prefix hds (List.prefix_append cs _) with hp | ⟨es, rfl⟩
    · exact hmade ds hp
    · have hes := (List.prefix_append_right_inj _).mp hds
      rw [hlocate es hes]
      refine FileTree.dir_above hrecord ((List.prefix_append_right_inj _).mpr hes) fun heq ↦ ?_
      exact hne (by rw [List.append_cancel_left heq])

theorem run_refuseNested_perform (target : HostPath) (ancestors : List HostPath) :
    (refuseNested target ancestors).run (perform cwd) fs =
      match ancestors.find? fun ancestor ↦ existsAt cwd fs (recordOf ancestor) with
      | some ancestor => (.error (workspaceNested target ancestor), fs)
      | none => (.ok (), fs) := by
  induction ancestors with
  | nil => rfl
  | cons ancestor rest ih =>
    have hprobe : (exists_ (recordOf ancestor)).run (perform cwd) fs =
        (.ok (existsAt cwd fs (recordOf ancestor)), fs) := rfl
    rw [refuseNested, run_bind, hprobe, List.find?_cons]
    cases existsAt cwd fs (recordOf ancestor) with
    | false => exact ih
    | true => rfl

theorem mem_properAncestors {ancestor : HostPath} : ancestor ∈ target.properAncestors ↔
    ∃ cs, cs ≠ [] ∧ cs <+: target.parts.dropLast ∧ ancestor = { target with parts := cs } := by
  simp only [HostPath.properAncestors, List.mem_map, List.mem_reverse, mem_inits_tail]
  constructor
  · rintro ⟨cs, ⟨hp, hne⟩, rfl⟩
    exact ⟨cs, hne, hp, rfl⟩
  · rintro ⟨cs, hne, hp, rfl⟩
    exact ⟨cs, ⟨hp, hne⟩, rfl⟩

theorem found_iff (cwd : Location) (hwf : WellFormed target) :
    (∃ ancestor ∈ target.properAncestors, existsAt cwd fs (recordOf ancestor) = true) ↔
      ∃ d, Visits target fs d ∧ Workspace fs d := by
  have hexists : ∀ cs, cs <+: target.parts.dropLast →
      (existsAt cwd fs (recordOf { target with parts := cs }) = true ↔
        Made fs [] cs ∧ Workspace fs (locate [] cs)) := by
    intro cs hcs
    have hroot := hwf.absolute
    rw [show ({ target with parts := cs } : HostPath) = ⟨true, cs⟩ by rw [← hroot]]
    exact existsAt_recordOf fun h ↦ hwf.names (hcs.subset h)
  constructor
  · rintro ⟨ancestor, hmem, hfound⟩
    obtain ⟨cs, hne, hcs, rfl⟩ := mem_properAncestors.mp hmem
    obtain ⟨hmade, hrecord⟩ := (hexists cs hcs).mp hfound
    exact ⟨_, ⟨cs, hne, hcs, hmade, rfl⟩, hrecord⟩
  · rintro ⟨d, ⟨cs, hne, hcs, hmade, rfl⟩, hrecord⟩
    exact ⟨_, mem_properAncestors.mpr ⟨cs, hne, hcs, rfl⟩, (hexists cs hcs).mpr ⟨hmade, hrecord⟩⟩

def nestedCode : Bytes := ascii "filesystem.workspace.nested"

def NotNested (e : EngineError) : Prop := e.code ≠ nestedCode

theorem removeAll_codes (path : HostPath) : (removeAll path).FailsWith NotNested := by
  intro r
  cases r with
  | none => trivial
  | some ec => exact (by decide : ascii "filesystem.remove" ≠ nestedCode)

theorem createDirectories_codes (path : HostPath) :
    (createDirectories path).FailsWith NotNested := by
  intro r
  cases r with
  | none => trivial
  | some ec =>
    intro b
    cases b with
    | true => trivial
    | false => exact (by decide : ascii "filesystem.directory.create" ≠ nestedCode)

theorem writeFile_codes (path : HostPath) (content : Bytes) (executable : Bool) :
    (writeFile path content executable).FailsWith NotNested := by
  refine failsWith_bind ?_ fun _ ↦ failsWith_bind ?_ fun _ ↦ ?_
  · unfold createParent
    split_ifs
    · exact createDirectories_codes _
    · trivial
  · intro opened
    cases opened with
    | false => exact (by decide : ascii "filesystem.permission" ≠ nestedCode)
    | true =>
      intro good _
      cases good with
      | true => trivial
      | false => exact (by decide : ascii "filesystem.space" ≠ nestedCode)
  · split_ifs
    · intro r
      cases r with
      | none => trivial
      | some ec => exact (by decide : ascii "filesystem.permission" ≠ nestedCode)
    · trivial

theorem syncUnless_codes (fast : Bool) (path : HostPath) :
    (syncUnless fast path).FailsWith NotNested := by
  unfold syncUnless
  split_ifs
  · trivial
  · exact fun _ ↦ trivial

theorem clearStaging_codes (path : HostPath) : (clearStaging path).FailsWith NotNested := by
  intro b
  cases b with
  | false => trivial
  | true => exact removeAll_codes path

theorem build_codes (staging target : HostPath) :
    (build staging target plan metadataRecord fast).FailsWith NotNested := by
  refine failsWith_bind (failsWith_foldlM (fun outcome step ↦ ?_) _ _) fun _ ↦
    failsWith_bind (failsWith_bind (writeFile_codes _ _ _) fun _ ↦ syncUnless_codes _ _) fun _ ↦
    failsWith_bind ?_ fun _ ↦ trivial
  · unfold applyStep
    split_ifs
    · exact failsWith_bind (createDirectories_codes _) fun _ ↦ trivial
    · exact failsWith_bind (writeFile_codes _ _ _) fun _ ↦
        failsWith_bind (syncUnless_codes _ _) fun _ ↦ trivial
  · intro r
    cases r with
    | none => trivial
    | some ec => exact (by decide : ascii "transaction.commit_failed" ≠ nestedCode)

theorem abortWith_codes {α : Type} {e : EngineError} (staging : HostPath) (h : NotNested e) :
    (abortWith staging e : FsProgram α).FailsWith NotNested :=
  failsWith_bind (failsWith_handle (removeAll_codes staging) fun _ _ ↦ trivial) fun _ ↦ h

theorem apply_checks (cwd : Location) (plan : GenerationPlan) (metadataRecord : Value) (fast : Bool) :
    ∃ rest : FsProgram Outcome, rest.FailsWith NotNested ∧
      apply cwd plan metadataRecord fast =
        (do refuseExisting (targetOf cwd plan)
            refuseNested (targetOf cwd plan) (targetOf cwd plan).properAncestors
            rest) := by
  refine ⟨_, ?_, rfl⟩
  refine failsWith_bind (clearStaging_codes _) fun _ ↦ failsWith_bind (createDirectories_codes _)
    fun _ ↦ failsWith_bind (failsWith_handle (build_codes _ _) fun e he ↦ abortWith_codes _ he)
    fun outcome ↦ ?_
  split_ifs
  · exact failsWith_bind (syncUnless_codes _ _) fun _ ↦ trivial
  · trivial

/-- A run in which nothing fails is refused for a workspace around the target. -/
def RefusesNested (cwd : Location) (plan : GenerationPlan) (metadataRecord : Value) (fast : Bool)
    (fs : FileSystem) : Prop :=
  ∃ e fs', (apply cwd plan metadataRecord fast).run (perform cwd) fs = (.error e, fs') ∧
    e.code = nestedCode

theorem refusesNested_iff (hcwd : ∀ c ∈ cwd, Plain c)
    (hfree : existsAt cwd fs (targetOf cwd plan) = false) :
    RefusesNested cwd plan metadataRecord fast fs ↔
      ∃ d, Visits (targetOf cwd plan) fs d ∧ Workspace fs d := by
  have hexisting : (refuseExisting (targetOf cwd plan)).run (perform cwd) fs = (.ok (), fs) := by
    have hprobe : (exists_ (targetOf cwd plan)).run (perform cwd) fs =
        (.ok (existsAt cwd fs (targetOf cwd plan)), fs) := rfl
    rw [refuseExisting, run_bind, hprobe, hfree]
    rfl
  obtain ⟨rest, hrest, happly⟩ := apply_checks cwd plan metadataRecord fast
  rw [← found_iff cwd (targetOf_wellFormed hcwd plan), RefusesNested, happly, run_bind,
    hexisting]
  dsimp only
  rw [run_bind, run_refuseNested_perform]
  cases hfind : (targetOf cwd plan).properAncestors.find? fun ancestor ↦
      existsAt cwd fs (recordOf ancestor) with
  | some ancestor =>
    refine iff_of_true ⟨_, _, rfl, rfl⟩ ⟨ancestor, List.mem_of_find?_eq_some hfind, ?_⟩
    simpa using List.find?_some hfind
  | none =>
    refine iff_of_false ?_ ?_
    · rintro ⟨e, fs', hrun, hcode⟩
      exact hrest.run hrun hcode
    · rintro ⟨ancestor, hmem, hfound⟩
      exact List.find?_eq_none.mp hfind ancestor hmem hfound

/-- The refusal says exactly whether the target lies in a workspace. -/
def NestedRefusalExact (cwd : Location) (plan : GenerationPlan) (metadataRecord : Value)
    (fast : Bool) (fs : FileSystem) : Prop :=
  RefusesNested cwd plan metadataRecord fast fs ↔
    ∃ d, Above (targetOf cwd plan) d ∧ Workspace fs d

/-- It does where the walk comes by an ancestor that is a workspace, and otherwise where the
directories that it comes by and that are no ancestors make up for the ancestors it misses. -/
theorem nestedRefusalExact_iff (hcwd : ∀ c ∈ cwd, Plain c)
    (hfree : existsAt cwd fs (targetOf cwd plan) = false) :
    NestedRefusalExact cwd plan metadataRecord fast fs ↔
      (∃ d, Visits (targetOf cwd plan) fs d ∧ Above (targetOf cwd plan) d ∧ Workspace fs d) ∨
      ((∃ d, Visits (targetOf cwd plan) fs d ∧ ¬ Above (targetOf cwd plan) d ∧ Workspace fs d) ↔
        ∃ d, Above (targetOf cwd plan) d ∧ ¬ Visits (targetOf cwd plan) fs d ∧ Workspace fs d) := by
  rw [NestedRefusalExact, refusesNested_iff hcwd hfree]
  by_cases hboth : ∃ d, Visits (targetOf cwd plan) fs d ∧ Above (targetOf cwd plan) d ∧ Workspace fs d
  · obtain ⟨d, hvisits, habove, hspace⟩ := hboth
    exact iff_of_true (iff_of_true ⟨d, hvisits, hspace⟩ ⟨d, habove, hspace⟩)
      (.inl ⟨d, hvisits, habove, hspace⟩)
  · have hvisited : (∃ d, Visits (targetOf cwd plan) fs d ∧ Workspace fs d) ↔
        ∃ d, Visits (targetOf cwd plan) fs d ∧ ¬ Above (targetOf cwd plan) d ∧ Workspace fs d := by
      refine exists_congr fun d ↦ and_congr_right fun hvisits ↦ (and_iff_right_of_imp ?_).symm
      exact fun hspace habove ↦ hboth ⟨d, hvisits, habove, hspace⟩
    have habove : (∃ d, Above (targetOf cwd plan) d ∧ Workspace fs d) ↔
        ∃ d, Above (targetOf cwd plan) d ∧ ¬ Visits (targetOf cwd plan) fs d ∧ Workspace fs d := by
      refine exists_congr fun d ↦ and_congr_right fun habove ↦ (and_iff_right_of_imp ?_).symm
      exact fun hspace hvisits ↦ hboth ⟨d, hvisits, habove, hspace⟩
    rw [hvisited, habove]
    exact (or_iff_right hboth).symm

theorem nestedRefusalExact_of_plain (hcwd : ∀ c ∈ cwd, Plain c)
    (hfree : existsAt cwd fs (targetOf cwd plan) = false)
    (hplain : ∀ c ∈ (targetOf cwd plan).parts, Plain c) (hroot : ¬ Workspace fs []) :
    NestedRefusalExact cwd plan metadataRecord fast fs := by
  have hloc : targetLocation (targetOf cwd plan) = (targetOf cwd plan).parts := by
    rw [targetLocation, locate_plain hplain, List.nil_append]
  have hway : ∀ cs, cs <+: (targetOf cwd plan).parts → locate [] cs = cs := by
    intro cs hcs
    rw [locate_plain fun c hc ↦ hplain c (hcs.subset hc), List.nil_append]
  rw [NestedRefusalExact, refusesNested_iff hcwd hfree]
  constructor
  · rintro ⟨d, ⟨cs, hne, hcs, -, rfl⟩, hspace⟩
    rw [hway cs (hcs.trans (List.dropLast_prefix _))] at hspace
    have hcs' := (prefix_dropLast hne).mp hcs
    exact ⟨cs, ⟨hloc ▸ hcs'.1, hloc ▸ hcs'.2⟩, hspace⟩
  · rintro ⟨d, ⟨hd, hproper⟩, hspace⟩
    have hne : d ≠ [] := by
      rintro rfl
      exact hroot hspace
    rw [hloc] at hd hproper
    refine ⟨d, ⟨d, hne, (prefix_dropLast hne).mpr ⟨hd, hproper⟩, ?_, (hway d hd).symm⟩, hspace⟩
    intro ds hds
    rw [hway ds (hds.trans hd)]
    refine FileTree.dir_above hspace (hds.trans (List.prefix_append _ _)) fun heq ↦ ?_
    have hle := (heq ▸ hds).length_le
    have hlong : (splitPath kMetadataFile).length = 2 := by decide
    simp only [List.length_append, hlong] at hle
    omega

def workspaceDisk : FileSystem :=
  ((FileTree.bare.put [ascii "a"] .dir).put [ascii "a", ascii ".squared"] .dir).put
    [ascii "a", ascii ".squared", ascii "metadata.json"] (.file ⟨[], false⟩)

theorem inside_nestedRefusalExact_iff :
    NestedRefusalExact [ascii "a"] (samplePlan "b" []) .null true workspaceDisk ↔
      (∃ d, Visits (targetOf [ascii "a"] (samplePlan "b" [])) workspaceDisk d ∧
        Above (targetOf [ascii "a"] (samplePlan "b" [])) d ∧ Workspace workspaceDisk d) ∨
      ((∃ d, Visits (targetOf [ascii "a"] (samplePlan "b" [])) workspaceDisk d ∧
          ¬ Above (targetOf [ascii "a"] (samplePlan "b" [])) d ∧ Workspace workspaceDisk d) ↔
        ∃ d, Above (targetOf [ascii "a"] (samplePlan "b" [])) d ∧
          ¬ Visits (targetOf [ascii "a"] (samplePlan "b" [])) workspaceDisk d ∧
          Workspace workspaceDisk d) :=
  nestedRefusalExact_iff (by decide) (by decide)

/-- A target beside the workspace that the current directory is, spelled from there, is refused. -/
theorem beside_refused : existsAt [ascii "a"] workspaceDisk
      (targetOf [ascii "a"] (samplePlan "../b" [])) = false ∧
    ¬ NestedRefusalExact [ascii "a"] (samplePlan "../b" []) .null true workspaceDisk := by
  have hfree : existsAt [ascii "a"] workspaceDisk
      (targetOf [ascii "a"] (samplePlan "../b" [])) = false := by decide
  refine ⟨hfree, fun h ↦ ?_⟩
  have hrefused : RefusesNested [ascii "a"] (samplePlan "../b" []) .null true workspaceDisk := by
    refine (refusesNested_iff (by decide) hfree).mpr ⟨[ascii "a"], ⟨[ascii "a"], by simp, ?_, ?_, ?_⟩, ?_⟩
    · decide
    · have hdirs : ∀ ds ∈ [ascii "a"].inits, workspaceDisk.node (locate [] ds) = some .dir := by
        decide
      exact fun ds hds ↦ hdirs ds ((List.mem_inits ds _).mpr hds)
    · decide
    · decide
  obtain ⟨d, ⟨hd, hproper⟩, hspace⟩ := h.mp hrefused
  have hloc : targetLocation (targetOf [ascii "a"] (samplePlan "../b" [])) = [ascii "b"] := by decide
  rw [hloc] at hd hproper
  have hroot : d = [] := by
    rcases List.prefix_cons_iff.mp hd with rfl | ⟨t, rfl, ht⟩
    · rfl
    · rw [List.prefix_nil.mp ht] at hproper
      exact absurd rfl hproper
  subst hroot
  exact absurd hspace (by decide)

end TransactionService

end SquaredPg
