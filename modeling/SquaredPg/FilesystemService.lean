import SquaredPg.Error
import SquaredPg.Filesystem

namespace SquaredPg

open Ascii Program

abbrev FsProgram (α : Type) := Program FsOp FsAnswer EngineError α

def filesystemError (code : String) (message : Bytes) (path : HostPath)
    (ec : Option SystemError := none) : EngineError :=
  { makeError .filesystem code message with
    path := path.string
    diagnostics :=
      match ec with
      | none => .null
      | some ec => .object [(ascii "system_error", .string ec.message),
          (ascii "errno", .integer ec.value)] }

namespace FilesystemService

/-- A call of the system, whose paths are texts without a NUL. -/
def ask (op : FsOp) : FsProgram (FsAnswer op) := request op

def createDirectories (path : HostPath) : FsProgram Unit := do
  match ← ask (.createDirectories path) with
  | none => pure ()
  | some ec =>
    if ← ask (.isDirectory path) then pure ()
    else fail (filesystemError "filesystem.directory.create"
      (ascii "could not create directory") path ec)

/-- The stream of `write_file`: its destructor flushes whatever the write came to. -/
def writeStream (path : HostPath) (content : Bytes) : FsProgram Unit := do
  if ← ask (.openTruncated path) then
    let good ← ask (.write path content)
    let _ ← ask (.close path content)
    if good then pure ()
    else fail (filesystemError "filesystem.space" (ascii "write failed before completion") path)
  else fail (filesystemError "filesystem.permission"
    (ascii "could not open file for writing") path)

def setExecutable (path : HostPath) : FsProgram Unit := do
  match ← ask (.addExecutable path) with
  | none => pure ()
  | some ec => fail (filesystemError "filesystem.permission"
      (ascii "could not set the executable bit") path ec)

def createParent (path : HostPath) : FsProgram Unit :=
  if path.hasParentPath then createDirectories path.parentPath else pure ()

def writeFile (path : HostPath) (content : Bytes) (executable : Bool) : FsProgram Unit := do
  createParent path
  writeStream path content
  if executable then setExecutable path else pure ()

def readFile (path : HostPath) : FsProgram Bytes := do
  match ← ask (.read path) with
  | .content bytes => pure bytes
  | .unopened => fail (filesystemError "filesystem.read" (ascii "could not open file for reading") path)
  | .broken => fail (filesystemError "filesystem.read" (ascii "read failed") path)

def removeAll (path : HostPath) : FsProgram Unit := do
  match ← ask (.removeAll path) with
  | none => pure ()
  | some ec => fail (filesystemError "filesystem.remove" (ascii "could not remove path") path ec)

def commitFailed (source destination : HostPath) (ec : SystemError) : EngineError :=
  let error := filesystemError "transaction.commit_failed"
    (ascii "could not move the staged workspace into place") destination ec
  { error with
    category := .transaction
    diagnostics := error.diagnostics.set (ascii "staged") (.string source.string) }

def rename (source destination : HostPath) : FsProgram Unit := do
  match ← ask (.rename source destination) with
  | none => pure ()
  | some ec => fail (commitFailed source destination ec)

def exists_ (path : HostPath) : FsProgram Bool := ask (.exists path)

def syncPath (path : HostPath) : FsProgram Unit := ask (.sync path)

def ReadsOnly (op : FsOp) : Prop := ∃ path, op = .read path

def Readless (op : FsOp) : Prop := ∀ path, op ≠ .read path

def Building : FsOp → Prop
  | .createDirectories _ | .isDirectory _ | .openTruncated _ | .write _ _ | .close _ _
  | .addExecutable _ | .sync _ => True
  | _ => False

theorem Building.readless : ∀ op, Building op → Readless op := by
  rintro op h path rfl
  exact h

theorem readFile_readsOnly (path : HostPath) : (readFile path).CallsOnly ReadsOnly := by
  refine ⟨⟨path, rfl⟩, fun result ↦ ?_⟩
  cases result <;> trivial

theorem createDirectories_building (path : HostPath) :
    (createDirectories path).CallsOnly Building := by
  refine ⟨trivial, fun r ↦ ?_⟩
  cases r with
  | none => trivial
  | some ec =>
    refine ⟨trivial, fun there ↦ ?_⟩
    cases there <;> trivial

theorem writeFile_building (path : HostPath) (content : Bytes) (executable : Bool) :
    (writeFile path content executable).CallsOnly Building := by
  refine callsOnly_bind ?_ fun _ ↦ callsOnly_bind ⟨trivial, fun opened ↦ ?_⟩ fun _ ↦ ?_
  · unfold createParent
    split_ifs
    · exact createDirectories_building _
    · trivial
  · cases opened with
    | false => trivial
    | true =>
      refine ⟨trivial, fun good ↦ ⟨trivial, fun _ ↦ ?_⟩⟩
      cases good <;> trivial
  · cases executable with
    | false => trivial
    | true =>
      refine ⟨trivial, fun r ↦ ?_⟩
      cases r <;> trivial

theorem removeAll_readless (path : HostPath) : (removeAll path).CallsOnly Readless := by
  refine ⟨fun _ ↦ nofun, fun r ↦ ?_⟩
  cases r <;> trivial

theorem rename_readless (source destination : HostPath) :
    (rename source destination).CallsOnly Readless := by
  refine ⟨fun _ ↦ nofun, fun r ↦ ?_⟩
  cases r <;> trivial

theorem exists_readless (path : HostPath) : (exists_ path).CallsOnly Readless :=
  ⟨fun _ ↦ nofun, fun _ ↦ trivial⟩

open FileSystem

@[simp] theorem ask_bind {α : Type} (op : FsOp) (next : FsAnswer op → FsProgram α) :
    ask op >>= next = call op next := rfl

section Rules

variable {cwd : Location} {trusted : FsOp → Prop} {err : EngineError → FileSystem → Prop}
  {stop : FileSystem → Prop} {fs : FileSystem} {path : HostPath}

theorem exists_wp {ok : Bool → FileSystem → Prop} (hstop : stop fs)
    (hok : ∀ b, (b = true → existsAt cwd fs path = true) →
      (trusted (.exists path) → b = existsAt cwd fs path) → ok b fs) :
    (exists_ path).wp (Behaves cwd trusted) ok err stop fs := by
  refine wp_call hstop ?_ ?_
  · rintro fs' (⟨hr, -⟩ | ⟨⟨rfl, -⟩, -⟩)
    · cases hr
    · exact hstop
  · rintro b fs' (⟨hr, rfl⟩ | ⟨⟨rfl, hr⟩, htrust⟩)
    · cases hr
      exact hok _ id fun _ ↦ rfl
    · exact hok b (fun hb ↦ absurd (congrArg some hb) hr) fun ht ↦ by cases htrust ht

theorem made_of_isDirectory (h : isDirectory cwd fs path = true) :
    Made fs (start cwd path) path.parts := by
  unfold isDirectory resolve at h
  cases hx : walk fs (start cwd path) path.parts with
  | none => simp [hx] at h
  | some x =>
    obtain ⟨rfl, hdirs⟩ := walk_eq_some.mp hx
    intro ds hds
    by_cases heq : ds = path.parts
    · simpa [heq, hx, FileTree.isDir_iff] using h
    · exact hdirs ds hds heq

theorem start_absolute (h : path.absolute = true) : start cwd path = [] := if_pos h

theorem makeDirs_grown (fs : FileSystem) {parts ds : List Bytes} (h : ds <+: parts) :
    Grown fs [] parts (makeDirs fs [] ds).2 :=
  (makeDirs_spec fs.root).1.lengthen h

theorem perform_createDirectories (cwd : Location) (fs : FileSystem) (hroot : path.absolute = true) :
    perform cwd (.createDirectories path) fs =
      (if (makeDirs fs [] path.parts).1 then none else some enotdir,
        (makeDirs fs [] path.parts).2) := by
  have hdir : fs.isDir [] = true := FileTree.isDir_iff.mpr fs.root
  simp only [perform, FileSystem.createDirectories, HostPath.isEmpty, hroot, start_absolute hroot,
    hdir]
  rcases makeDirs fs [] path.parts with ⟨_ | _, fs'⟩ <;> rfl

theorem probe_wp {ok : Unit → FileSystem → Prop} (hroot : path.absolute = true) (e : EngineError)
    (hfs : stop fs ∧ ∀ e, err e fs) (hok : Made fs [] path.parts → ok () fs) :
    (ask (.isDirectory path) >>= fun there ↦ if there then pure () else fail e).wp
      (Behaves cwd trusted) ok err stop fs := by
  refine wp_call hfs.1 ?_ ?_
  · rintro fs' (⟨hr, -⟩ | ⟨⟨rfl, -⟩, -⟩)
    · cases hr
    · exact hfs.1
  · rintro b fs' hb
    have hsame : fs' = fs := by
      rcases hb with ⟨-, h⟩ | ⟨⟨h, -⟩, -⟩
      · exact h
      · exact h
    subst hsame
    cases b with
    | false => exact hfs.2 _
    | true =>
      rcases hb with ⟨hr, -⟩ | ⟨⟨-, hr⟩, -⟩
      · have hmade : Made fs' (start cwd path) path.parts :=
          made_of_isDirectory (Option.some.inj hr).symm
        rw [start_absolute hroot] at hmade
        exact hok hmade
      · exact absurd rfl hr

theorem createDirectories_wp {ok : Unit → FileSystem → Prop} (hroot : path.absolute = true)
    (hgrown : ∀ fs', Grown fs [] path.parts fs' → stop fs' ∧ ∀ e, err e fs')
    (hok : ∀ fs', Grown fs [] path.parts fs' → Made fs' [] path.parts → ok () fs') :
    (createDirectories path).wp (Behaves cwd trusted) ok err stop fs := by
  have hfault : ∀ n, Grown fs [] path.parts (makeDirs fs (start cwd path) (path.parts.take n)).2 := by
    intro n
    rw [start_absolute hroot]
    exact makeDirs_grown fs (List.take_prefix n _)
  refine wp_call (hgrown fs (.refl fs _ _)).1 ?_ ?_
  · rintro fs' (⟨hr, -⟩ | ⟨⟨-, n, rfl⟩, -⟩)
    · cases hr
    · exact (hgrown _ (hfault n)).1
  · rintro r fs' (⟨hr, rfl⟩ | ⟨⟨hr, n, rfl⟩, -⟩)
    · rw [perform_createDirectories cwd fs hroot] at hr ⊢
      have hspec : Grown fs [] path.parts (makeDirs fs [] path.parts).2 ∧
          ((makeDirs fs [] path.parts).1 = true → Made (makeDirs fs [] path.parts).2 [] path.parts) :=
        makeDirs_spec fs.root
      obtain ⟨hg, hm⟩ := hspec
      cases hmk : makeDirs fs [] path.parts with
      | mk made fs' =>
        rw [hmk] at hr hg hm
        cases made with
        | true =>
          cases hr
          exact hok fs' hg (hm rfl)
        | false =>
          cases hr
          exact probe_wp hroot _ (hgrown fs' hg) (hok fs' hg)
    · cases r with
      | none => exact absurd rfl hr
      | some ec => exact probe_wp hroot _ (hgrown _ (hfault n)) (hok _ (hfault n))

def executableAt (f : Layout Bytes FileData) (l : Location) : Bool :=
  (f.fileAt l).any FileData.executable

variable {ps : List Bytes} {c : Bytes} {content : Bytes}

def SameBut (l : Location) (fs fs' : FileSystem) : Prop := ∀ x, x ≠ l → fs'.node x = fs.node x

theorem SameBut.refl (l : Location) (fs : FileSystem) : SameBut l fs fs := fun _ _ ↦ rfl

theorem SameBut.trans {l : Location} {fs fs' fs'' : FileSystem} (h : SameBut l fs fs')
    (h' : SameBut l fs' fs'') : SameBut l fs fs'' := fun x hx ↦ (h' x hx).trans (h x hx)

theorem sameBut_put (l : Location) (fs : FileSystem) (e : Entry FileData) :
    SameBut l fs (fs.put l e) := fun _ hx ↦ FileTree.node_put_other hx

theorem Touched.sameBut {fs' : FileSystem} (hroot : path.absolute = true)
    (hparts : path.parts = ps ++ [c]) (h : Touched cwd fs path fs') :
    SameBut (locate [] ps ++ [c]) fs fs' := by
  rcases h with rfl | ⟨l, data, hl, rfl⟩
  · exact .refl _ _
  · rw [(resolveEntry_eq hroot hparts hl).2.2]
    exact sameBut_put _ fs _

theorem Made.of_sameBut {l : Location} {fs' : FileSystem} (h : Made fs [] ps)
    (hl : fs.node l ≠ some .dir) (hsame : SameBut l fs fs') : Made fs' [] ps := by
  intro ds hds
  rw [hsame _ fun heq ↦ hl (heq ▸ h ds hds)]
  exact h ds hds

theorem fits_file {data : FileData} (hmade : Made fs [] ps)
    (hl : fs.node (locate [] ps ++ [c]) ≠ some .dir) :
    fs.Fits (locate [] ps ++ [c]) (.file data) := by
  refine ⟨by simp, ?_, .inr ?_⟩
  · rw [List.dropLast_concat]
    exact FileTree.isDir_iff.mpr (hmade ps List.prefix_rfl)
  · rw [← Bool.not_eq_true, FileTree.isDir_iff]
    exact hl

theorem node_put_file {data : FileData} (hmade : Made fs [] ps)
    (hl : fs.node (locate [] ps ++ [c]) ≠ some .dir) :
    (fs.put (locate [] ps ++ [c]) (.file data)).node (locate [] ps ++ [c]) = some (.file data) := by
  rw [FileTree.node_put (fits_file hmade hl), Layout.put_self]

theorem editFile_eq {data : FileData} (edit : FileData → FileData) (hroot : path.absolute = true)
    (hparts : path.parts = ps ++ [c]) (hplain : Plain c) (hmade : Made fs [] ps)
    (hnode : fs.node (locate [] ps ++ [c]) = some (.file data)) :
    editFile cwd fs path edit = some (fs.put (locate [] ps ++ [c]) (.file (edit data))) := by
  rw [editFile, resolveEntry_of_made hroot hparts hplain hmade, Option.bind_some, hnode]

theorem Flushed.spec {fs' : FileSystem} {w : Bytes} {x : Bool} (hroot : path.absolute = true)
    (hparts : path.parts = ps ++ [c]) (hmade : Made fs [] ps)
    (hnode : fs.node (locate [] ps ++ [c]) = some (.file ⟨w, x⟩))
    (h : Flushed cwd fs path content fs') :
    SameBut (locate [] ps ++ [c]) fs fs' ∧
      ∃ w', fs'.node (locate [] ps ++ [c]) = some (.file ⟨w', x⟩) := by
  rcases h with rfl | ⟨l, data, n, hl, hdata, rfl⟩
  · exact ⟨.refl _ _, w, hnode⟩
  · obtain ⟨-, -, rfl⟩ := resolveEntry_eq hroot hparts hl
    cases hnode.symm.trans hdata
    exact ⟨sameBut_put _ fs _, _, node_put_file hmade (by simp [hnode])⟩

theorem stream_behaves {op : FsOp} {fs' : FileSystem} {w : Bytes} {x : Bool} {r : Option (FsAnswer op)}
    (hop : op = .write path content ∨ op = .close path content) (hroot : path.absolute = true)
    (hparts : path.parts = ps ++ [c]) (hplain : Plain c) (hmade : Made fs [] ps)
    (hnode : fs.node (locate [] ps ++ [c]) = some (.file ⟨w, x⟩))
    (h : Behaves cwd trusted op fs r fs') :
    SameBut (locate [] ps ++ [c]) fs fs' ∧ ∃ w',
      fs'.node (locate [] ps ++ [c]) = some (.file ⟨w', x⟩) ∧
        (trusted op → r ≠ none → w' = content) := by
  have hwrite : writeContent cwd fs path content =
      (true, fs.put (locate [] ps ++ [c]) (.file ⟨content, x⟩)) := by
    rw [writeContent, editFile_eq _ hroot hparts hplain hmade hnode]
  have hput : (fs.put (locate [] ps ++ [c]) (.file ⟨content, x⟩)).node (locate [] ps ++ [c]) =
      some (.file ⟨content, x⟩) := node_put_file hmade (by simp [hnode])
  rcases hop with rfl | rfl
  all_goals
    rcases h with ⟨-, rfl⟩ | ⟨hflush, htrust⟩
    · simp only [perform, hwrite]
      exact ⟨sameBut_put _ fs _, content, hput, fun _ _ ↦ rfl⟩
    · obtain ⟨hsame, w', hw'⟩ := Flushed.spec hroot hparts hmade hnode hflush
      exact ⟨hsame, w', hw', fun ht hr ↦ absurd (htrust ht) hr⟩

theorem openTruncated_behaves {fs' : FileSystem} {r : Option Bool} (hroot : path.absolute = true)
    (hparts : path.parts = ps ++ [c]) (hplain : Plain c) (hmade : Made fs [] ps)
    (h : Behaves cwd trusted (.openTruncated path) fs r fs') :
    SameBut (locate [] ps ++ [c]) fs fs' ∧
      (r = some true → fs.node (locate [] ps ++ [c]) ≠ some .dir ∧
        fs'.node (locate [] ps ++ [c]) =
          some (.file ⟨[], executableAt fs.node (locate [] ps ++ [c])⟩)) := by
  rcases h with ⟨hr, rfl⟩ | ⟨⟨hr, htouched⟩, -⟩
  · simp only [perform, openTruncated, resolveEntry_of_made hroot hparts hplain hmade] at hr ⊢
    cases hnode : fs.node (locate [] ps ++ [c]) with
    | none =>
      refine ⟨sameBut_put _ fs _, fun _ ↦ ⟨by simp, ?_⟩⟩
      rw [node_put_file hmade (by simp [hnode]), executableAt, Layout.fileAt, hnode]
      rfl
    | some e =>
      cases e with
      | dir =>
        simp only [hnode] at hr
        exact ⟨.refl _ _, fun h ↦ by simp [hr] at h⟩
      | file data =>
        refine ⟨sameBut_put _ fs _, fun _ ↦ ⟨by simp, ?_⟩⟩
        rw [node_put_file hmade (by simp [hnode]), executableAt, Layout.fileAt, hnode]
        rfl
  · exact ⟨Touched.sameBut hroot hparts htouched, fun h ↦ absurd h hr⟩

theorem writeStream_wp {ok : Unit → FileSystem → Prop} (hroot : path.absolute = true)
    (hparts : path.parts = ps ++ [c]) (hplain : Plain c) (hmade : Made fs [] ps)
    (hpart : ∀ fs', SameBut (locate [] ps ++ [c]) fs fs' → stop fs' ∧ ∀ e, err e fs')
    (hok : ∀ fs' written, SameBut (locate [] ps ++ [c]) fs fs' →
      fs.node (locate [] ps ++ [c]) ≠ some .dir →
      fs'.node (locate [] ps ++ [c]) =
        some (.file ⟨written, executableAt fs.node (locate [] ps ++ [c])⟩) →
      (trusted (.close path content) → written = content) → ok () fs') :
    (writeStream path content).wp (Behaves cwd trusted) ok err stop fs := by
  refine wp_call (hpart fs (.refl _ _)).1 ?_ ?_
  · intro fs₁ h₁
    exact (hpart fs₁ (openTruncated_behaves hroot hparts hplain hmade h₁).1).1
  intro opened fs₁ h₁
  obtain ⟨hsame₁, hopen⟩ := openTruncated_behaves hroot hparts hplain hmade h₁
  cases opened with
  | false => exact (hpart fs₁ hsame₁).2 _
  | true =>
    obtain ⟨hnodir, hnode₁⟩ := hopen rfl
    have hmade₁ := Made.of_sameBut hmade hnodir hsame₁
    refine wp_call (hpart fs₁ hsame₁).1 ?_ ?_
    · intro fs₂ h₂
      have hsame₂ := (stream_behaves (.inl rfl) hroot hparts hplain hmade₁ hnode₁ h₂).1
      exact (hpart fs₂ (hsame₁.trans hsame₂)).1
    intro good fs₂ h₂
    obtain ⟨hsame₂, w₂, hnode₂, -⟩ :=
      stream_behaves (.inl rfl) hroot hparts hplain hmade₁ hnode₁ h₂
    have hmade₂ := Made.of_sameBut hmade₁ (by simp [hnode₁]) hsame₂
    refine wp_call (hpart fs₂ (hsame₁.trans hsame₂)).1 ?_ ?_
    · intro fs₃ h₃
      have hsame₃ := (stream_behaves (.inr rfl) hroot hparts hplain hmade₂ hnode₂ h₃).1
      exact (hpart fs₃ ((hsame₁.trans hsame₂).trans hsame₃)).1
    intro flushed fs₃ h₃
    obtain ⟨hsame₃, w₃, hnode₃, hwhole⟩ :=
      stream_behaves (.inr rfl) hroot hparts hplain hmade₂ hnode₂ h₃
    have hsame := (hsame₁.trans hsame₂).trans hsame₃
    cases good with
    | false => exact (hpart fs₃ hsame).2 _
    | true => exact hok fs₃ w₃ hsame hnodir hnode₃ fun ht ↦ hwhole ht (by simp)

theorem setExecutable_wp {ok : Unit → FileSystem → Prop} {data : FileData}
    (hroot : path.absolute = true) (hparts : path.parts = ps ++ [c]) (hplain : Plain c)
    (hmade : Made fs [] ps) (hnode : fs.node (locate [] ps ++ [c]) = some (.file data))
    (hpart : ∀ fs', SameBut (locate [] ps ++ [c]) fs fs' → stop fs' ∧ ∀ e, err e fs')
    (hok : ∀ fs', SameBut (locate [] ps ++ [c]) fs fs' →
      fs'.node (locate [] ps ++ [c]) = some (.file { data with executable := true }) → ok () fs') :
    (setExecutable path).wp (Behaves cwd trusted) ok err stop fs := by
  refine wp_call (hpart fs (.refl _ _)).1 ?_ ?_
  · rintro fs' (⟨hr, -⟩ | ⟨⟨-, htouched⟩, -⟩)
    · cases hr
    · exact (hpart fs' (Touched.sameBut hroot hparts htouched)).1
  rintro r fs' (⟨hr, rfl⟩ | ⟨⟨hr, htouched⟩, -⟩)
  · simp only [perform, FileSystem.addExecutable,
      editFile_eq _ hroot hparts hplain hmade hnode] at hr ⊢
    cases hr
    exact hok _ (sameBut_put _ fs _) (node_put_file hmade (by simp [hnode]))
  · cases r with
    | none => exact absurd rfl hr
    | some ec => exact (hpart fs' (Touched.sameBut hroot hparts htouched)).2 _

def GrownAround (fs : FileSystem) (ps : List Bytes) (l : Location) (fs' : FileSystem) : Prop :=
  ∀ x, x ≠ l → fs'.node x = fs.node x ∨
    (fs.node x = none ∧ fs'.node x = some .dir ∧ ∃ ds, ds <+: ps ∧ x = locate [] ds)

theorem GrownAround.of_grown {l : Location} {fs' fs'' : FileSystem} (h : Grown fs [] ps fs')
    (h' : SameBut l fs' fs'') : GrownAround fs ps l fs'' := by
  intro x hx
  rw [h' x hx]
  exact h x

theorem writeFile_wp {ok : Unit → FileSystem → Prop} {executable : Bool}
    (hroot : path.absolute = true) (hparts : path.parts = ps ++ [c]) (hplain : Plain c)
    (hpart : ∀ fs', GrownAround fs ps (locate [] ps ++ [c]) fs' → stop fs' ∧ ∀ e, err e fs')
    (hok : ∀ fs' written, GrownAround fs ps (locate [] ps ++ [c]) fs' → Made fs' [] ps →
      fs.node (locate [] ps ++ [c]) ≠ some .dir → fs'.node (locate [] ps ++ [c]) =
        some (.file ⟨written, executable || executableAt fs.node (locate [] ps ++ [c])⟩) →
      (trusted (.close path content) → written = content) → ok () fs') :
    (writeFile path content executable).wp (Behaves cwd trusted) ok err stop fs := by
  have hparent : path.parentPath.parts = ps := by simp [HostPath.parentPath, hparts]
  have hhas : path.hasParentPath = true := by
    simp [HostPath.hasParentPath, HostPath.isEmpty, HostPath.parentPath, hroot]
  rw [writeFile, createParent, if_pos hhas, wp_bind]
  refine createDirectories_wp hroot (fun fs₁ hgrown ↦ ?_) fun fs₁ hgrown hmade ↦ ?_
  · rw [hparent] at hgrown
    exact hpart fs₁ (.of_grown hgrown (.refl _ _))
  rw [hparent] at hgrown hmade
  rw [wp_bind]
  refine writeStream_wp hroot hparts hplain hmade
    (fun fs₂ hsame ↦ hpart fs₂ (.of_grown hgrown hsame)) ?_
  intro fs₂ written hsame hnodir hnode hwhole
  have hmade₂ := Made.of_sameBut hmade hnodir hsame
  have hnodir₀ := mt hgrown.dir hnodir
  have hexec : executableAt fs₁.node (locate [] ps ++ [c]) = executableAt fs.node (locate [] ps ++ [c]) := by
    rcases hgrown (locate [] ps ++ [c]) with heq | ⟨-, hdir, -⟩
    · rw [executableAt, Layout.fileAt, heq, executableAt, Layout.fileAt]
    · exact absurd hdir hnodir
  rw [hexec] at hnode
  cases executable with
  | false => exact hok fs₂ written (.of_grown hgrown hsame) hmade₂ hnodir₀ hnode hwhole
  | true =>
    refine setExecutable_wp hroot hparts hplain hmade₂ hnode
      (fun fs₃ hsame₃ ↦ hpart fs₃ (.of_grown hgrown (hsame.trans hsame₃))) ?_
    intro fs₃ hsame₃ hnode₃
    exact hok fs₃ written (.of_grown hgrown (hsame.trans hsame₃))
      (Made.of_sameBut hmade₂ (by simp [hnode]) hsame₃) hnodir₀ hnode₃ hwhole

theorem removeAll_wp {ok : Unit → FileSystem → Prop} (hroot : path.absolute = true)
    (hpart : ∀ fs', fs.PrunedTo (locate [] path.parts) fs' → stop fs' ∧ ∀ e, err e fs')
    (hok : ∀ fs', (resolve cwd fs path = none ∧ fs' = fs) ∨ (locate [] path.parts ≠ [] ∧
      fs' = fs.prune (locate [] path.parts)) → ok () fs') :
    (removeAll path).wp (Behaves cwd trusted) ok err stop fs := by
  have hsame := hpart fs (.refl fs _)
  have hlocation : ∀ l, resolve cwd fs path = some l → l = locate [] path.parts := by
    intro l hl
    rw [resolve, start_absolute hroot] at hl
    exact (walk_eq_some.mp hl).1
  have hfaulty : ∀ r fs', Faulty cwd (.removeAll path) fs r fs' →
      fs.PrunedTo (locate [] path.parts) fs' := by
    rintro r fs' ⟨-, rfl | ⟨l, hl, hpruned⟩⟩
    · exact .refl _ _
    · exact hlocation l hl ▸ hpruned
  refine wp_call hsame.1 ?_ ?_
  · rintro fs' (⟨hr, -⟩ | ⟨hfault, -⟩)
    · cases hr
    · exact (hpart fs' (hfaulty _ _ hfault)).1
  rintro r fs' (⟨hr, rfl⟩ | ⟨hfault, -⟩)
  · simp only [perform, FileSystem.removeAll] at hr ⊢
    cases hres : resolve cwd fs path with
    | none =>
      simp only [hres] at hr ⊢
      cases hr
      exact hok fs (.inl ⟨hres, rfl⟩)
    | some l =>
      simp only [hres] at hr ⊢
      obtain rfl := hlocation l hres
      split_ifs at hr ⊢ with hnil
      · cases hr
        exact hsame.2 _
      · cases hr
        exact hok _ (.inr ⟨hnil, rfl⟩)
  · cases r with
    | none => exact absurd rfl hfault.1
    | some ec => exact (hpart fs' (hfaulty _ _ hfault)).2 _

def Renamed (cwd : Location) (fs : FileSystem) (source destination : HostPath)
    (fs' : FileSystem) : Prop :=
  ∃ src dst, resolveEntry cwd fs { source with parts := source.stem } = some src ∧
    resolveEntry cwd fs { destination with parts := destination.stem } = some dst ∧
    ((src = dst ∧ fs' = fs) ∨
      (fs.Movable src dst ∧ replaceable fs src dst = true ∧ fs' = fs.move src dst))

theorem rename_cases (cwd : Location) (fs : FileSystem) (source destination : HostPath) :
    ((FileSystem.rename cwd fs source destination).1 = none ∧
      Renamed cwd fs source destination (FileSystem.rename cwd fs source destination).2) ∨
    ((FileSystem.rename cwd fs source destination).1 ≠ none ∧
      (FileSystem.rename cwd fs source destination).2 = fs) := by
  unfold FileSystem.rename
  split
  · rename_i src dst hsrc hdst
    split_ifs with heq hmove
    · exact .inl ⟨rfl, src, dst, hsrc, hdst, .inl ⟨heq, rfl⟩⟩
    · exact .inl ⟨rfl, src, dst, hsrc, hdst, .inr ⟨hmove.1, hmove.2, rfl⟩⟩
    · exact .inr ⟨by simp, rfl⟩
  · exact .inr ⟨by simp, rfl⟩

theorem rename_wp {ok : Unit → FileSystem → Prop} {source destination : HostPath}
    (hsame : stop fs ∧ ∀ e, err e fs)
    (hmoved : ∀ fs', Renamed cwd fs source destination fs' → stop fs' ∧ ok () fs') :
    (rename source destination).wp (Behaves cwd trusted) ok err stop fs := by
  refine wp_call hsame.1 ?_ ?_
  · rintro fs' (⟨hr, -⟩ | ⟨⟨-, rfl⟩ | ⟨-, rfl⟩, -⟩)
    · cases hr
    · exact hsame.1
    · rcases rename_cases cwd fs source destination with ⟨-, h⟩ | ⟨-, h⟩
      · exact (hmoved _ h).1
      · rw [h]
        exact hsame.1
  rintro r fs' (⟨hr, rfl⟩ | ⟨⟨hr, rfl⟩ | ⟨hr, -⟩, -⟩)
  · simp only [perform] at hr ⊢
    rcases rename_cases cwd fs source destination with ⟨hnone, h⟩ | ⟨hsome, h⟩
    · rw [hnone] at hr
      cases hr
      exact (hmoved _ h).2
    · rw [h]
      cases r with
      | none => exact absurd (Option.some.inj hr).symm hsome
      | some ec => exact hsame.2 _
  · cases r with
    | none => exact absurd rfl hr
    | some ec => exact hsame.2 _
  · cases hr

theorem syncPath_wp {ok : Unit → FileSystem → Prop} (hstop : stop fs) (hok : ok () fs) :
    (syncPath path).wp (Behaves cwd trusted) ok err stop fs := by
  have hsame : ∀ r fs', Behaves cwd trusted (.sync path) fs r fs' → fs' = fs := by
    rintro r fs' (⟨-, h⟩ | ⟨h, -⟩)
    · exact h
    · exact h
  refine wp_call hstop (fun fs' h ↦ ?_) fun _ fs' h ↦ ?_
  · exact hsame _ _ h ▸ hstop
  · exact hsame _ _ h ▸ hok

end Rules

end FilesystemService

end SquaredPg
