import SquaredPg.JsonRoundTrip
import SquaredPg.Stranded
import SquaredPg.Warnings

namespace SquaredPg

open Ascii Program

namespace Engine

open FilesystemService MetadataService TransactionService FileSystem

variable {cwd : Location} {fs : FileSystem} {root : HostPath} {row record : Value}
  {table : List Value} {audit : Audit} {states : List RowState} {text : Bytes}

def readOutcome (cwd : Location) (fs : FileSystem) (path : HostPath) : ReadOutcome :=
  match read cwd fs path with
  | .content bytes => .content bytes
  | .unopened => .unopened enoent
  | .broken => .directory

/-- What every operation does in a tree where nothing fails, a read with what the standard library
makes of it. -/
def performReading (cwd : Location) : (op : FsOp) → FileSystem → Option (FsAnswer op) × FileSystem
  | .read path, fs => (libraryReply (.read path) (readOutcome cwd fs path), fs)
  | op, fs => (some (perform cwd op fs).1, (perform cwd op fs).2)

def contentOf : ReadResult → Option Bytes
  | .content bytes => some bytes
  | .unopened => none
  | .broken => none

theorem read_broken {path : HostPath} (h : read cwd fs path = .broken) :
    (readFile path).runUntilThrow (performReading cwd) fs = (none, fs) := by
  unfold readFile ask
  simp only [request_bind, runUntilThrow, performReading, readOutcome, h, libraryReply]

theorem read_answered {path : HostPath} (h : read cwd fs path ≠ .broken) :
    ∃ result, (readFile path).runUntilThrow (performReading cwd) fs = (some result, fs) ∧
      result.toOption = contentOf (read cwd fs path) := by
  unfold readFile ask
  simp only [request_bind, runUntilThrow, performReading, readOutcome]
  cases hread : read cwd fs path with
  | content bytes => exact ⟨.ok bytes, rfl, rfl⟩
  | unopened => exact ⟨_, rfl, rfl⟩
  | broken => exact absurd hread h

variable (cwd fs root) in
def stateIn (row : Value) : RowState :=
  if rowPath row = [] then .skipped
  else stateOf (contentOf (read cwd fs (below root (rowPath row)))) row

variable (cwd fs root) in
/-- There is a directory where the file of a row was recorded. -/
def Displaced (row : Value) : Prop :=
  rowPath row ≠ [] ∧ read cwd fs (below root (rowPath row)) = .broken

def rowFinding (row : Value) : RowState → Option Value
  | .missing => some (finding row "missing" (if rowClass row = .generated
      then "generator-managed file is absent" else "file recorded at generation is absent"))
  | .modified => some (finding row "modified"
      "generator-managed file differs from its recorded hash; a future generation would overwrite these edits")
  | _ => none

theorem examine_findings (row : Value) (content : Result Bytes) (audit : Audit) :
    (examine row content audit).findings =
      audit.findings ++ (rowFinding row (stateOf content.toOption row)).toList := by
  cases content with
  | error e => rfl
  | ok bytes =>
    simp only [examine, stateOf, Except.toOption]
    split_ifs
    · exact (List.append_nil _).symm
    · exact (List.append_nil _).symm
    · rfl
    · exact (List.append_nil _).symm

theorem auditRow_displaced (h : Displaced cwd fs root row) :
    (auditRow root audit row).runUntilThrow (performReading cwd) fs = (none, fs) := by
  rw [auditRow, if_neg h.1, runUntilThrow_bind, runUntilThrow_attempt, read_broken h.2]
  rfl

theorem auditRow_counts (h : ¬Displaced cwd fs root row) (htallies : audit.Tallies states) :
    ∃ audit' : Audit, (auditRow root audit row).runUntilThrow (performReading cwd) fs =
        (some (.ok audit'), fs) ∧
      audit'.Tallies (states ++ [stateIn cwd fs root row]) ∧
      audit'.findings = audit.findings ++ (rowFinding row (stateIn cwd fs root row)).toList := by
  unfold auditRow stateIn
  by_cases hempty : rowPath row = []
  · rw [if_pos hempty, if_pos hempty]
    exact ⟨audit, rfl, htallies.skip, (List.append_nil _).symm⟩
  · rw [if_neg hempty, if_neg hempty]
    obtain ⟨result, hresult, hcontent⟩ := read_answered fun hbroken ↦ h ⟨hempty, hbroken⟩
    refine ⟨examine row result { audit with checked := audit.checked + 1 }, ?_, ?_, ?_⟩
    · rw [runUntilThrow_bind, runUntilThrow_attempt, hresult]
      rfl
    · rw [← hcontent]
      exact htallies.examine
    · rw [← hcontent]
      exact examine_findings row result _

theorem auditRows_counts (h : ∀ row ∈ table, ¬Displaced cwd fs root row)
    (htallies : audit.Tallies states) :
    ∃ audit' : Audit, (table.foldlM (auditRow root) audit).runUntilThrow (performReading cwd) fs =
        (some (.ok audit'), fs) ∧
      audit'.Tallies (states ++ table.map (stateIn cwd fs root)) ∧
      audit'.findings = audit.findings ++
        table.filterMap fun row ↦ rowFinding row (stateIn cwd fs root row) := by
  induction table generalizing audit states with
  | nil => exact ⟨audit, rfl, by simpa using htallies, (List.append_nil _).symm⟩
  | cons row table ih =>
    obtain ⟨audit', hrun, htallies', hfindings⟩ := auditRow_counts (h row (by simp)) htallies
    obtain ⟨last, hlast, hall, hfound⟩ := ih (fun r hr ↦ h r (by simp [hr])) htallies'
    refine ⟨last, ?_, by simpa using hall, ?_⟩
    · rw [List.foldlM_cons, runUntilThrow_bind, hrun]
      exact hlast
    · rw [hfound, hfindings, List.filterMap_cons, List.append_assoc]
      cases rowFinding row (stateIn cwd fs root row) <;> rfl

theorem auditRows_displaced (hrow : row ∈ table) (h : Displaced cwd fs root row)
    (htallies : audit.Tallies states) :
    (table.foldlM (auditRow root) audit).runUntilThrow (performReading cwd) fs = (none, fs) := by
  induction table generalizing audit states with
  | nil => cases hrow
  | cons first table ih =>
    rw [List.foldlM_cons, runUntilThrow_bind]
    by_cases hfirst : Displaced cwd fs root first
    · rw [auditRow_displaced hfirst]
    · have hmem : row ∈ table := by
        rcases List.mem_cons.mp hrow with rfl | hmem
        · exact absurd h hfirst
        · exact hmem
      obtain ⟨audit', hrun, htallies', -⟩ := auditRow_counts hfirst htallies
      rw [hrun]
      exact ih hmem htallies'

theorem tallies_start : ({} : Audit).Tallies [] := by
  constructor <;> rfl

theorem workspaceVerify_rows {params : Value}
    (hread : read cwd fs (recordOf (verifyRoot params)) = .content text)
    (hrecord : jsonParse text = .ok record)
    (htable : (record.find (ascii "provenance")).bind Value.asArray = some table) :
    (workspaceVerify params).runUntilThrow (performReading cwd) fs =
      (table.foldlM (auditRow (verifyRoot params)) {} >>= fun audit ↦
        pure (verifyReport (verifyRoot params) audit)).runUntilThrow (performReading cwd) fs := by
  have hanswered : read cwd fs (recordOf (verifyRoot params)) ≠ .broken := by simp [hread]
  obtain ⟨result, hresult, hcontent⟩ := read_answered hanswered
  rw [hread] at hcontent
  cases result with
  | error e => cases hcontent
  | ok bytes =>
    obtain rfl : bytes = text := Option.some.inj hcontent
    rw [workspaceVerify, runUntilThrow_bind, hresult]
    dsimp only
    rw [hrecord]
    dsimp only
    rw [verifyRecord, htable]

theorem states_partition (states : List RowState) :
    states.countP (· ≠ .skipped) = states.count .missing + states.count .unhashed +
      states.count .clean + states.count .modified + states.count .edited := by
  induction states with
  | nil => rfl
  | cons state states ih =>
    rw [List.countP_cons, ih]
    cases state <;> simp <;> omega

/-- The report counts every row that names a path in one class, and finds the missing and the
modified rows, in their order; the tree stays as it is. -/
def ReportsPartition (cwd : Location) (fs : FileSystem) (params : Value) (table : List Value) : Prop :=
  let states := table.map (stateIn cwd fs (verifyRoot params))
  let findings := table.filterMap fun row ↦ rowFinding row (stateIn cwd fs (verifyRoot params) row)
  ∃ report, (workspaceVerify params).runUntilThrow (performReading cwd) fs =
      (some (.ok report), fs) ∧
    report.data = .object
      [(ascii "workspace", .string (verifyRoot params).string),
        (ascii "recorded", count (states.countP (· ≠ .skipped))),
        (ascii "missing", count (states.count .missing)),
        (ascii "modified", count (states.count .modified)),
        (ascii "edited", count (states.count .edited)),
        (ascii "unhashed", count (states.count .unhashed)),
        (ascii "conflicts", count (states.count .missing + states.count .modified)),
        (ascii "findings", .array findings)] ∧
    states.countP (· ≠ .skipped) = states.count .missing + states.count .unhashed +
      states.count .clean + states.count .modified + states.count .edited ∧
    findings.length = states.count .missing + states.count .modified

theorem run_displaced {params : Value}
    (hread : read cwd fs (recordOf (verifyRoot params)) = .content text)
    (hrecord : jsonParse text = .ok record)
    (htable : (record.find (ascii "provenance")).bind Value.asArray = some table)
    (hrow : row ∈ table) (h : Displaced cwd fs (verifyRoot params) row) :
    (workspaceVerify params).runUntilThrow (performReading cwd) fs = (none, fs) := by
  rw [workspaceVerify_rows hread hrecord htable, runUntilThrow_bind,
    auditRows_displaced hrow h tallies_start]

/-- The counts are a partition of the record, exactly where no directory has taken the place of a
recorded file. -/
theorem reportsPartition_iff {params : Value}
    (hread : read cwd fs (recordOf (verifyRoot params)) = .content text)
    (hrecord : jsonParse text = .ok record)
    (htable : (record.find (ascii "provenance")).bind Value.asArray = some table) :
    ReportsPartition cwd fs params table ↔
      ∀ row ∈ table, ¬Displaced cwd fs (verifyRoot params) row := by
  refine ⟨?_, ?_⟩
  · intro ⟨report, hreport, _⟩ row hrow hdisplaced
    rw [run_displaced hread hrecord htable hrow hdisplaced] at hreport
    cases hreport
  · intro h
    obtain ⟨audit, haudit, htallies, hfindings⟩ := auditRows_counts h tallies_start
    rw [List.nil_append] at htallies
    rw [List.nil_append] at hfindings
    have hlength := htallies.findings
    refine ⟨verifyReport (verifyRoot params) audit, ?_, ?_, states_partition _, ?_⟩
    · rw [workspaceVerify_rows hread hrecord htable, runUntilThrow_bind, haudit]
      rfl
    · rw [verifyReport_data, summary, htallies.checked, htallies.missing, htallies.modified,
        htallies.edited, htallies.unhashed, hlength, hfindings]
    · rw [← hfindings]
      exact hlength

def rowOf (ownership : String) : Value :=
  .object [(ascii "path", .string (ascii "a")), (ascii "ownership", .string (ascii ownership)),
    (ascii "sha256", .string (ascii
      "e3b0c44298fc1c149afbf4c8996fb92427ae41e4649b934ca495991b7852b855"))]

def recordWith (rows : List Value) : Value := .object [(ascii "provenance", .array rows)]

def emptied (rows : List Value) : FileSystem :=
  ((FileTree.bare.put [ascii "w"] .dir).put [ascii "w", ascii ".squared"] .dir).put
    [ascii "w", ascii ".squared", ascii "metadata.json"]
    (.file ⟨jsonWrite (recordWith rows) true, false⟩)

theorem read_emptied (rows : List Value) :
    read [] (emptied rows) (recordOf (verifyRoot verifyParameters)) =
      .content (jsonWrite (recordWith rows) true) := rfl

theorem rowOf_numberFree (ownership : String) : (rowOf ownership).NumberFree := by
  apply Value.NumberFree.object
  intro m hm
  simp only [List.mem_cons, List.not_mem_nil, or_false] at hm
  rcases hm with rfl | rfl | rfl <;> exact .string _

theorem jsonParse_rowOf (ownership : String)
    (hvalid : (recordWith [rowOf ownership]).texts.all Utf8.valid = true) :
    jsonParse (jsonWrite (recordWith [rowOf ownership]) true) = .ok (recordWith [rowOf ownership]) := by
  have hfree : (recordWith [rowOf ownership]).NumberFree := by
    apply Value.NumberFree.object
    intro m hm
    obtain rfl := List.mem_singleton.mp hm
    exact .array (by simp [rowOf_numberFree])
  obtain ⟨-, hparse⟩ | ⟨hinvalid, -⟩ := jsonParse_jsonWrite hfree true
  · exact hparse
  · rw [hvalid] at hinvalid
    cases hinvalid

theorem reportsPartition_emptied :
    ReportsPartition [] (emptied [rowOf "generated"]) verifyParameters [rowOf "generated"] := by
  have hrecord := jsonParse_rowOf "generated" (by decide +kernel)
  refine (reportsPartition_iff (read_emptied _) hrecord rfl).mpr ?_
  intro row hrow ⟨_, hbroken⟩
  obtain rfl := List.mem_singleton.mp hrow
  cases hbroken

/-- A directory where a file was recorded: nothing is counted. -/
theorem reportsPartition_displaced : ∃ cwd fs params text record table,
    read cwd fs (recordOf (verifyRoot params)) = .content text ∧ jsonParse text = .ok record ∧
    (record.find (ascii "provenance")).bind Value.asArray = some table ∧
    ¬ReportsPartition cwd fs params table := by
  have hread : read [] ((emptied [rowOf "generated"]).put [ascii "w", ascii "a"] .dir)
      (recordOf (verifyRoot verifyParameters)) =
      .content (jsonWrite (recordWith [rowOf "generated"]) true) := rfl
  have hdisplaced : Displaced [] ((emptied [rowOf "generated"]).put [ascii "w", ascii "a"] .dir)
      (verifyRoot verifyParameters) (rowOf "generated") := ⟨by decide +kernel, rfl⟩
  have hrecord := jsonParse_rowOf "generated" (by decide +kernel)
  have hrun := run_displaced hread hrecord rfl List.mem_cons_self hdisplaced
  refine ⟨_, _, _, _, _, _, hread, hrecord, rfl, ?_⟩
  intro ⟨report, hreport, _⟩
  rw [hrun] at hreport
  cases hreport

variable (cwd fs root) in
def intact (row : Value) : Bool :=
  (contentOf (read cwd fs (below root (rowPath row)))).any fun bytes ↦
    toHex (sha256 bytes) = recordedHash row

def Managed (row : Value) : Prop := rowPath row ≠ [] ∧ rowClass row = .generated

instance : DecidablePred Managed := fun row ↦
  inferInstanceAs (Decidable (rowPath row ≠ [] ∧ rowClass row = .generated))

variable (cwd fs root) in
/-- The file of a row that the generator does not manage is gone. -/
def Vanished (row : Value) : Prop :=
  (rowPath row ≠ [] ∧ rowClass row ≠ .generated) ∧
    read cwd fs (below root (rowPath row)) = .unopened

instance : DecidablePred (Vanished cwd fs root) := fun row ↦
  inferInstanceAs (Decidable ((rowPath row ≠ [] ∧ rowClass row ≠ .generated) ∧
    read cwd fs (below root (rowPath row)) = .unopened))

/-- The conflicts are the managed files that are not as they were recorded. -/
def ConflictsExact (cwd : Location) (fs : FileSystem) (params : Value) (table : List Value) : Prop :=
  ∃ report findings, (workspaceVerify params).runUntilThrow (performReading cwd) fs =
      (some (.ok report), fs) ∧
    report.data.find (ascii "findings") = some (.array findings) ∧
    report.data.find (ascii "conflicts") = some (count findings.length) ∧
    (findings.length = 0 ↔ ∀ row ∈ table, Managed row → intact cwd fs (verifyRoot params) row) ∧
    findings.length =
      table.countP fun row ↦ Managed row ∧ ¬intact cwd fs (verifyRoot params) row

theorem rowFinding_isSome (hhash : recordedHash row ≠ []) (h : ¬Displaced cwd fs root row) :
    (rowFinding row (stateIn cwd fs root row)).isSome ↔
      (Managed row ∧ ¬intact cwd fs root row) ∨ Vanished cwd fs root row := by
  unfold stateIn Managed intact Vanished
  by_cases hpath : rowPath row = []
  · simp [hpath, rowFinding]
  · cases hread : read cwd fs (below root (rowPath row)) with
    | content bytes =>
      by_cases hclass : rowClass row = .generated <;>
        by_cases hsame : toHex (sha256 bytes) = recordedHash row <;>
          simp [hpath, hhash, hclass, hsame, contentOf, stateOf, rowFinding]
    | unopened =>
      by_cases hclass : rowClass row = .generated <;>
        simp [hpath, hclass, contentOf, stateOf, rowFinding]
    | broken => exact absurd ⟨hpath, hread⟩ h

theorem countP_add {α : Type} {p q r : α → Bool} {l : List α} (h : ∀ x ∈ l, p x ↔ q x ∨ r x)
    (hdisjoint : ∀ x ∈ l, q x → ¬r x) : l.countP p = l.countP q + l.countP r := by
  induction l with
  | nil => rfl
  | cons x l ih =>
    have hx := h x List.mem_cons_self
    have hxd := hdisjoint x List.mem_cons_self
    rw [List.countP_cons, List.countP_cons, List.countP_cons,
      ih (fun y hy ↦ h y (.tail x hy)) fun y hy ↦ hdisjoint y (.tail x hy)]
    cases hq : q x <;> cases hr : r x <;> simp_all <;> omega

theorem length_findings (hhash : ∀ row ∈ table, recordedHash row ≠ [])
    (h : ∀ row ∈ table, ¬Displaced cwd fs root row) :
    (table.filterMap fun row ↦ rowFinding row (stateIn cwd fs root row)).length =
      (table.countP fun row ↦ Managed row ∧ ¬intact cwd fs root row) +
        table.countP fun row ↦ Vanished cwd fs root row := by
  rw [List.length_filterMap_eq_countP]
  apply countP_add
  · intro row hrow
    simpa using rowFinding_isSome (hhash row hrow) (h row hrow)
  · intro row _ hmanaged hvanished
    simp only [decide_eq_true_eq] at hmanaged hvanished
    exact hvanished.1.2 hmanaged.1.2

theorem run_report {params : Value}
    (hread : read cwd fs (recordOf (verifyRoot params)) = .content text)
    (hrecord : jsonParse text = .ok record)
    (htable : (record.find (ascii "provenance")).bind Value.asArray = some table)
    (h : ∀ row ∈ table, ¬Displaced cwd fs (verifyRoot params) row) :
    ∃ report findings, (workspaceVerify params).runUntilThrow (performReading cwd) fs =
        (some (.ok report), fs) ∧
      report.data.find (ascii "findings") = some (.array findings) ∧
      report.data.find (ascii "conflicts") = some (count findings.length) ∧
      findings = table.filterMap fun row ↦ rowFinding row (stateIn cwd fs (verifyRoot params) row) := by
  obtain ⟨audit, haudit, -, hfindings⟩ := auditRows_counts h tallies_start
  refine ⟨verifyReport (verifyRoot params) audit, audit.findings, ?_, ?_, ?_, hfindings⟩
  · rw [workspaceVerify_rows hread hrecord htable, runUntilThrow_bind, haudit]
    rfl
  · rw [verifyReport_data]
    rfl
  · rw [verifyReport_data]
    rfl

theorem ConflictsExact.settled {params : Value}
    (hread : read cwd fs (recordOf (verifyRoot params)) = .content text)
    (hrecord : jsonParse text = .ok record)
    (htable : (record.find (ascii "provenance")).bind Value.asArray = some table)
    (hhash : ∀ row ∈ table, recordedHash row ≠ []) (h : ConflictsExact cwd fs params table) :
    ∀ row ∈ table, ¬Displaced cwd fs (verifyRoot params) row ∧
      ¬Vanished cwd fs (verifyRoot params) row := by
  obtain ⟨report, findings, hrun, hfindings, -, -, hlength⟩ := h
  have hplaced : ∀ row ∈ table, ¬Displaced cwd fs (verifyRoot params) row := by
    intro row hrow hdisplaced
    rw [run_displaced hread hrecord htable hrow hdisplaced] at hrun
    cases hrun
  obtain ⟨report', findings', hrun', hfindings', -, hfound⟩ :=
    run_report hread hrecord htable hplaced
  obtain rfl : report = report' := by
    rw [hrun] at hrun'
    cases hrun'
    rfl
  obtain rfl : findings = findings' := by
    rw [hfindings] at hfindings'
    cases hfindings'
    rfl
  rw [hfound, length_findings hhash hplaced, Nat.add_eq_left, List.countP_eq_zero] at hlength
  intro row hrow
  exact ⟨hplaced row hrow, by simpa using hlength row hrow⟩

/-- The conflicts are about managed files only, exactly where no other file that is recorded is
gone, and no directory has taken the place of one. -/
theorem conflictsExact_iff {params : Value}
    (hread : read cwd fs (recordOf (verifyRoot params)) = .content text)
    (hrecord : jsonParse text = .ok record)
    (htable : (record.find (ascii "provenance")).bind Value.asArray = some table)
    (hhash : ∀ row ∈ table, recordedHash row ≠ []) :
    ConflictsExact cwd fs params table ↔
      ∀ row ∈ table, ¬Displaced cwd fs (verifyRoot params) row ∧
        ¬Vanished cwd fs (verifyRoot params) row := by
  refine ⟨fun h ↦ h.settled hread hrecord htable hhash, fun h ↦ ?_⟩
  obtain ⟨report, findings, hrun, hfindings, hconflicts, hfound⟩ :=
    run_report hread hrecord htable fun row hrow ↦ (h row hrow).1
  have hvanished : (table.countP fun row ↦ Vanished cwd fs (verifyRoot params) row) = 0 := by
    rw [List.countP_eq_zero]
    intro row hrow
    simpa using (h row hrow).2
  have hlength : findings.length =
      table.countP fun row ↦ Managed row ∧ ¬intact cwd fs (verifyRoot params) row := by
    rw [hfound, length_findings hhash fun row hrow ↦ (h row hrow).1, hvanished, Nat.add_zero]
  refine ⟨report, findings, hrun, hfindings, hconflicts, ?_, hlength⟩
  rw [hlength, List.countP_eq_zero]
  simp

theorem conflictsExact_emptied :
    ConflictsExact [] (emptied [rowOf "generated"]) verifyParameters [rowOf "generated"] := by
  have hrow : rowClass (rowOf "generated") = .generated ∧ recordedHash (rowOf "generated") ≠ [] := by
    decide +kernel
  have hrecord := jsonParse_rowOf "generated" (by decide +kernel)
  refine (conflictsExact_iff (read_emptied _) hrecord rfl (by simpa using hrow.2)).mpr ?_
  intro row hmem
  obtain rfl := List.mem_singleton.mp hmem
  refine ⟨fun hdisplaced ↦ ?_, fun hvanished ↦ hvanished.1.2 hrow.1⟩
  cases hdisplaced.2

/-- A user deletes a file that was handed over, and it counts as a conflict. -/
theorem conflictsExact_vanished : ∃ cwd fs params text record table,
    read cwd fs (recordOf (verifyRoot params)) = .content text ∧ jsonParse text = .ok record ∧
    (record.find (ascii "provenance")).bind Value.asArray = some table ∧
    (∀ row ∈ table, recordedHash row ≠ []) ∧ ¬ConflictsExact cwd fs params table := by
  have hrow : Vanished [] (emptied [rowOf "seeded"]) (verifyRoot verifyParameters) (rowOf "seeded") ∧
      ∀ row ∈ [rowOf "seeded"], recordedHash row ≠ [] := by
    decide +kernel
  have hrecord := jsonParse_rowOf "seeded" (by decide +kernel)
  refine ⟨_, _, _, _, _, _, read_emptied _, hrecord, rfl, hrow.2, fun h ↦ ?_⟩
  exact (h.settled (read_emptied _) hrecord rfl hrow.2 _ List.mem_cons_self).2 hrow.1

end Engine

end SquaredPg
