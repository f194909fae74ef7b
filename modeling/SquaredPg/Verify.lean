import SquaredPg.Operation
import SquaredPg.Staging

namespace SquaredPg

open Ascii Program

namespace Engine

open FilesystemService MetadataService TransactionService

/-- What `workspace.verify` counts and collects on its way through the rows. -/
structure Audit where
  checked : ℕ := 0
  missing : ℕ := 0
  modified : ℕ := 0
  edited : ℕ := 0
  unhashed : ℕ := 0
  findings : List Value := []
  diagnostics : List Diagnostic := []

def rowPath (row : Value) : Bytes := row.stringOr (ascii "path") []

def recordedHash (row : Value) : Bytes := row.stringOr (ascii "sha256") []

def declaredOwnership (row : Value) : Bytes := row.stringOr (ascii "ownership") (ascii "seeded")

def rowClass (row : Value) : OwnershipClass := .fromString (declaredOwnership row)

def provenanceAbsent (root : HostPath) : EngineError :=
  { makeError .validation "metadata.provenance.absent" (ascii
      "the record carries no provenance table; this workspace was generated before provenance was recorded, or the record is damaged") with
    resource := root.string }

/-- `add_finding`. -/
def finding (row : Value) (kind detail : String) : Value :=
  .object
    [(ascii "path", .string (rowPath row)),
      (ascii "finding", .string (ascii kind)),
      (ascii "ownership", .string (declaredOwnership row)),
      (ascii "origin", .string (row.stringOr (ascii "origin") [])),
      (ascii "detail", .string (ascii detail))]

def examine (row : Value) (content : Result Bytes) (audit : Audit) : Audit :=
  match content with
  | .error _ =>
    { audit with
      missing := audit.missing + 1
      findings := audit.findings ++ [finding row "missing" (if rowClass row = .generated
        then "generator-managed file is absent" else "file recorded at generation is absent")]
      diagnostics := audit.diagnostics ++
        [{ severity := if rowClass row = .generated then .warning else .info
           message := ascii "missing: " ++ rowPath row
           path := rowPath row }] }
  | .ok bytes =>
    if recordedHash row = [] then { audit with unhashed := audit.unhashed + 1 }
    else if toHex (sha256 bytes) = recordedHash row then audit
    else if rowClass row = .generated then
      { audit with
        modified := audit.modified + 1
        findings := audit.findings ++ [finding row "modified"
          "generator-managed file differs from its recorded hash; a future generation would overwrite these edits"]
        diagnostics := audit.diagnostics ++
          [{ severity := .warning
             message := ascii "modified: " ++ rowPath row
             path := rowPath row }] }
    else { audit with edited := audit.edited + 1 }

def below (root : HostPath) (path : Bytes) : HostPath := root.append (.ofBytes path)

def auditRow (root : HostPath) (audit : Audit) (row : Value) : FsProgram Audit :=
  if rowPath row = [] then pure audit
  else do
    let content ← attempt (readFile (below root (rowPath row)))
    pure (examine row content { audit with checked := audit.checked + 1 })

def summary (root : HostPath) (audit : Audit) : Value :=
  .object
    [(ascii "workspace", .string root.string),
      (ascii "recorded", count audit.checked),
      (ascii "missing", count audit.missing),
      (ascii "modified", count audit.modified),
      (ascii "edited", count audit.edited),
      (ascii "unhashed", count audit.unhashed),
      (ascii "conflicts", count audit.findings.length),
      (ascii "findings", .array audit.findings)]

def verifyReport (root : HostPath) (audit : Audit) : OperationResult :=
  audit.diagnostics.foldl .addDiagnostic (.ok (summary root audit))

theorem verifyReport_data (root : HostPath) (audit : Audit) :
    (verifyReport root audit).data = summary root audit := by
  rw [verifyReport, OperationResult.foldl_addDiagnostic]
  rfl

def verifyRoot (params : Value) : HostPath := .ofBytes (params.stringOr (ascii "workspace") [])

def verifyRecord (root : HostPath) (record : Value) : FsProgram OperationResult :=
  match (record.find (ascii "provenance")).bind Value.asArray with
  | none => fail (provenanceAbsent root)
  | some table => do
    let audit ← table.foldlM (auditRow root) {}
    pure (verifyReport root audit)

/-- The handler of `workspace.verify`. The `int` counters are natural numbers here. -/
def workspaceVerify (params : Value) : FsProgram OperationResult := do
  let text ← readFile (recordOf (verifyRoot params))
  match jsonParse text with
  | .error e => fail e
  | .ok record => verifyRecord (verifyRoot params) record

open FileSystem

variable {cwd l d : Location} {fs : FileSystem} {root : HostPath} {path : Bytes} {cs ds : List Bytes}
  {record row : Value} {audit : Audit} {table : List Value} {f : Layout Bytes FileData}

theorem walk_append (h : walk fs l cs = some d) (hds : ∀ c ∈ ds, Plain c) :
    (walk fs l (cs ++ ds)).bind fs.node = fs.node (d ++ ds) := by
  obtain ⟨rfl, hdirs⟩ := walk_eq_some.mp h
  have hlocate : ∀ es, es <+: ds → locate l (cs ++ es) = locate l cs ++ es := by
    intro es hes
    rw [locate_append, locate_plain fun c hc ↦ hds c (hes.subset hc)]
  by_cases hnone : fs.node (locate l cs ++ ds) = none
  · cases hwalk : walk fs l (cs ++ ds) with
    | none => rw [hnone, Option.bind_none]
    | some x =>
      obtain ⟨rfl, -⟩ := walk_eq_some.mp hwalk
      rw [hlocate ds List.prefix_rfl, Option.bind_some]
  · have hwalk : walk fs l (cs ++ ds) = some (locate l cs ++ ds) := by
      refine walk_eq_some.mpr ⟨(hlocate ds List.prefix_rfl).symm, fun es hes hne ↦ ?_⟩
      have hlong : ∀ gs, gs <+: ds → gs ≠ ds → fs.node (locate l (cs ++ gs)) = some .dir := by
        intro gs hgs hgne
        rw [hlocate gs hgs]
        exact FileTree.dir_above hnone ((List.prefix_append_right_inj _).mpr hgs)
          fun heq ↦ hgne (List.append_cancel_left heq)
      rcases List.prefix_or_prefix_of_prefix hes (List.prefix_append cs ds) with hp | ⟨gs, rfl⟩
      · by_cases heq : es = cs
        · subst heq
          have hnil := hlong [] (by simp) fun hnil ↦ hne (by rw [← hnil, List.append_nil])
          rwa [List.append_nil] at hnil
        · exact hdirs es hp heq
      · exact hlong gs ((List.prefix_append_right_inj _).mp hes) fun heq ↦ hne (by rw [heq])
    rw [hwalk, Option.bind_some]

theorem walk_stem (h : walk fs l root.parts = some d) : walk fs l root.stem = some d := by
  unfold HostPath.stem
  split_ifs with hlast
  · obtain ⟨ps, hps⟩ := List.getLast?_eq_some_iff.mp hlast
    rw [hps] at h ⊢
    obtain ⟨hmade, rfl⟩ := made_of_walk h
    rw [List.dropLast_concat, walk_of_made hmade]
    simp [advance]
  · exact h

theorem read_below (hroot : resolve cwd fs root = some d) (hpath : Inside path) :
    read cwd fs (below root path) =
      match fs.node (d ++ splitPath path) with
      | none => .unopened
      | some .dir => .broken
      | some (.file data) => .content data.content := by
  have hbelow : below root path = { root with parts := root.stem ++ splitPath path } := by
    simp [below, HostPath.append, hpath.relative, hpath.nonempty]
  have hwalk := walk_append (walk_stem hroot) hpath.names
  have hlast : (root.stem ++ splitPath path).getLast? ≠ some [] := by
    rw [List.getLast?_append_of_ne_nil _ hpath.nonempty]
    exact fun h ↦ (hpath.names [] (List.mem_of_getLast? h)).1 rfl
  rw [hbelow, FileSystem.read, resolve]
  change (match (walk fs (start cwd root) (root.stem ++ splitPath path)).bind fs.node with
    | none => ReadResult.unopened
    | some .dir => .broken
    | some (.file data) => if (root.stem ++ splitPath path).getLast? = some [] then .unopened
      else .content data.content) = _
  rw [hwalk]
  simp only [if_neg hlast]

theorem run_readFile (hroot : resolve cwd fs root = some d) (hpath : Inside path) :
    ∃ result, (readFile (below root path)).run (perform cwd) fs = (result, fs) ∧
      result.toOption = ((fs.node.below d).fileAt (splitPath path)).map FileData.content := by
  have hread := read_below hroot hpath
  have hrun : (readFile (below root path)).run (perform cwd) fs =
      match FileSystem.read cwd fs (below root path) with
      | .content bytes => (.ok bytes, fs)
      | .unopened => (.error (filesystemError "filesystem.read"
          (ascii "could not open file for reading") (below root path)), fs)
      | .broken => (.error (filesystemError "filesystem.read" (ascii "read failed")
          (below root path)), fs) := by
    unfold readFile ask
    rw [request_bind, run, perform]
    dsimp only
    cases FileSystem.read cwd fs (below root path) <;> rfl
  rw [hrun, hread, Layout.fileAt, Layout.below]
  rcases fs.node (d ++ splitPath path) with _ | _ | data
  · exact ⟨_, rfl, rfl⟩
  · exact ⟨_, rfl, rfl⟩
  · exact ⟨_, rfl, rfl⟩

theorem run_readRecord {data : FileData} (hroot : resolve cwd fs root = some d)
    (hdata : fs.node.below d (splitPath kMetadataFile) = some (.file data)) :
    (readFile (recordOf root)).run (perform cwd) fs = (.ok data.content, fs) := by
  obtain ⟨result, hresult, hcontent⟩ := run_readFile hroot inside_kMetadataFile
  rw [Layout.fileAt_eq_some.mpr hdata] at hcontent
  cases result with
  | error e => cases hcontent
  | ok bytes =>
    rw [← Option.some.inj hcontent]
    exact hresult

inductive RowState
  | skipped | missing | unhashed | clean | modified | edited
  deriving DecidableEq

def stateOf (content : Option Bytes) (row : Value) : RowState :=
  match content with
  | none => .missing
  | some bytes =>
    if recordedHash row = [] then .unhashed
    else if toHex (sha256 bytes) = recordedHash row then .clean
    else if rowClass row = .generated then .modified
    else .edited

def rowState (f : Layout Bytes FileData) (row : Value) : RowState :=
  if rowPath row = [] then .skipped
  else stateOf ((f.fileAt (splitPath (rowPath row))).map FileData.content) row

/-- The counters of an audit are those of the states of the rows. -/
structure Audit.Tallies (audit : Audit) (states : List RowState) : Prop where
  checked : audit.checked = states.countP (· ≠ .skipped)
  missing : audit.missing = states.count .missing
  modified : audit.modified = states.count .modified
  edited : audit.edited = states.count .edited
  unhashed : audit.unhashed = states.count .unhashed
  findings : audit.findings.length = states.count .missing + states.count .modified

theorem Audit.Tallies.skip {states : List RowState} (h : audit.Tallies states) :
    audit.Tallies (states ++ [.skipped]) := by
  constructor <;> simp [h.checked, h.missing, h.modified, h.edited, h.unhashed, h.findings,
    List.countP_append]

theorem Audit.Tallies.examine {states : List RowState} {content : Result Bytes}
    (h : audit.Tallies states) :
    (examine row content { audit with checked := audit.checked + 1 }).Tallies
      (states ++ [stateOf content.toOption row]) := by
  obtain ⟨hchecked, hmissing, hmodified, hedited, hunhashed, hfindings⟩ := h
  cases content with
  | error e =>
    constructor <;> simp [Engine.examine, stateOf, Except.toOption, List.countP_append, hchecked,
      hmissing, hmodified, hedited, hunhashed, hfindings, Nat.add_right_comm]
  | ok bytes =>
    simp only [Engine.examine, stateOf, Except.toOption]
    split_ifs <;> constructor <;> simp [List.countP_append, hchecked, hmissing, hmodified, hedited,
      hunhashed, hfindings, Nat.add_assoc]

theorem run_auditRow (hroot : resolve cwd fs root = some d)
    (hrow : rowPath row = [] ∨ Inside (rowPath row)) {states : List RowState}
    (h : audit.Tallies states) :
    ∃ audit' : Audit, (auditRow root audit row).run (perform cwd) fs = (.ok audit', fs) ∧
      audit'.Tallies (states ++ [rowState (fs.node.below d) row]) := by
  unfold auditRow rowState
  split_ifs with hempty
  · exact ⟨audit, rfl, h.skip⟩
  · obtain ⟨result, hresult, hcontent⟩ := run_readFile hroot (hrow.resolve_left hempty)
    refine ⟨examine row result { audit with checked := audit.checked + 1 }, ?_, ?_⟩
    · rw [run_bind, run_attempt, hresult]
      rfl
    · rw [← hcontent]
      exact h.examine

theorem run_auditRows (hroot : resolve cwd fs root = some d)
    (hrows : ∀ row ∈ table, rowPath row = [] ∨ Inside (rowPath row)) {states : List RowState}
    (h : audit.Tallies states) :
    ∃ audit' : Audit, (table.foldlM (auditRow root) audit).run (perform cwd) fs = (.ok audit', fs) ∧
      audit'.Tallies (states ++ table.map (rowState (fs.node.below d))) := by
  induction table generalizing audit states with
  | nil => exact ⟨audit, rfl, by simpa using h⟩
  | cons row table ih =>
    obtain ⟨audit', hrun, htallies⟩ := run_auditRow hroot (hrows row (by simp)) h
    obtain ⟨last, hlast, hall⟩ := ih (fun r hr ↦ hrows r (by simp [hr])) htallies
    refine ⟨last, ?_, by simpa using hall⟩
    rw [List.foldlM_cons, run_bind, hrun]
    exact hlast

theorem run_workspaceVerify {params : Value} {data : FileData}
    (hroot : resolve cwd fs (verifyRoot params) = some d)
    (hdata : fs.node.below d (splitPath kMetadataFile) = some (.file data))
    (hrecord : jsonParse data.content = .ok record)
    (htable : (record.find (ascii "provenance")).bind Value.asArray = some table)
    (hrows : ∀ row ∈ table, rowPath row = [] ∨ Inside (rowPath row)) :
    ∃ audit : Audit, (workspaceVerify params).run (perform cwd) fs =
        (.ok (verifyReport (verifyRoot params) audit), fs) ∧
      audit.Tallies (table.map (rowState (fs.node.below d))) := by
  have hstart : ({} : Audit).Tallies [] := by constructor <;> rfl
  obtain ⟨audit, haudit, htallies⟩ := run_auditRows hroot hrows hstart
  refine ⟨audit, ?_, htallies⟩
  rw [workspaceVerify, run_bind, run_readRecord hroot hdata]
  dsimp only
  rw [hrecord]
  dsimp only
  rw [verifyRecord, htable]
  dsimp only
  rw [run_bind, haudit]
  rfl

theorem run_workspaceVerify_malformed {params : Value} {data : FileData} {e : EngineError}
    (hroot : resolve cwd fs (verifyRoot params) = some d)
    (hdata : fs.node.below d (splitPath kMetadataFile) = some (.file data))
    (hrecord : jsonParse data.content = .error e) :
    (workspaceVerify params).run (perform cwd) fs = (.error e, fs) := by
  rw [workspaceVerify, run_bind, run_readRecord hroot hdata]
  dsimp only
  rw [hrecord]
  rfl

end Engine

end SquaredPg
