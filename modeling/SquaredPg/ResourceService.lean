import SquaredPg.Fallible
import SquaredPg.Resolution
import Mathlib.Data.List.Infix

namespace SquaredPg

open Ascii Fallible

/-- What `build_index` reads of a cartridge it opened without looking at the payload. -/
structure Envelope where
  kind : Bytes
  id : Bytes
  version : Bytes
  title : Option Bytes := none
  description : Option Bytes := none
  manifest : Manifest

/-- A resource root: the candidates `collect` finds below it, `none` where it is no directory. -/
structure ResourceRoot where
  path : Bytes
  candidates : Option (List Bytes)

def missingRoot (root : ResourceRoot) : EngineError :=
  { makeError .resource "resource.root.missing"
      (ascii "resource root does not exist: " ++ root.path) with
    path := root.path }

def absentRoot (root : ResourceRoot) : Diagnostic :=
  { severity := .info
    message := ascii "resource root absent, skipped: " ++ root.path
    path := root.path }

def scanRoot (strictRoots : Bool) (found : List Bytes × List Diagnostic) (root : ResourceRoot) :
    Result (List Bytes × List Diagnostic) :=
  match root.candidates with
  | some candidates => .ok (found.1 ++ candidates, found.2)
  | none =>
    if strictRoots then .error (missingRoot root) else .ok (found.1, found.2 ++ [absentRoot root])

def unreadableResource (location message : Bytes) : Diagnostic :=
  { severity := .warning
    message := ascii "skipping unreadable resource: " ++ message
    path := location }

def unknownKind (envelope : Envelope) (location : Bytes) : Diagnostic :=
  { severity := .info
    message := ascii "cartridge kind '" ++ envelope.kind ++
      ascii "' is not a squared-pg resource kind, skipped"
    path := location }

def runnableCartridge (envelope : Envelope) (location : Bytes) : Diagnostic :=
  { severity := .info
    message := ascii "cartridge '" ++ envelope.id ++ ascii "' is not a generation resource"
    resource := envelope.id
    path := location }

def malformedIdentity (envelope : Envelope) (location : Bytes) : Diagnostic :=
  { severity := .warning
    message := ascii "identity '" ++ envelope.id ++ ascii "' violates the identifier grammar, skipped"
    resource := envelope.id
    path := location }

def malformedVersion (envelope : Envelope) (location : Bytes) : Diagnostic :=
  { severity := .warning
    message := ascii "version '" ++ envelope.version ++ ascii "' is not valid SemVer, skipped"
    resource := envelope.id
    path := location }

def declaredEngineRange (manifest : Manifest) : Option Bytes :=
  (manifestExtension manifest "requires.engine").asString

def recordFrom (envelope : Envelope) (location : Bytes) : Except Diagnostic ResourceRecord :=
  match ResourceKind.fromString envelope.kind with
  | none => .error (unknownKind envelope location)
  | some kind =>
    if kind = .cartridge then .error (runnableCartridge envelope location)
    else
      match ResourceId.parseAs envelope.id kind with
      | none => .error (malformedIdentity envelope location)
      | some id =>
        match Version.parse envelope.version with
        | none => .error (malformedVersion envelope location)
        | some version => .ok
            { id
              kind
              version
              location
              title := envelope.title.getD []
              description := envelope.description.getD []
              engineRange := (declaredEngineRange envelope.manifest).getD [] }

def foreignEngine (record : ResourceRecord) (engineVersion : Version) : Diagnostic :=
  { severity := .warning
    message := ascii "resource requires engine " ++ record.engineRange ++ ascii ", this engine is " ++
      engineVersion.toString
    resource := record.id.str
    path := record.location }

def reservedIdentity (record : ResourceRecord) : Diagnostic :=
  { severity := .warning
    message := ascii "identity uses the reserved squared_pg namespace"
    resource := record.id.str
    path := record.location }

def duplicateIdentity (conflict : ResourceConflict) : Diagnostic :=
  { severity := .warning
    message := ascii "duplicate identity " ++ idAtVersion conflict.id conflict.version ++
      ascii "; keeping " ++ conflict.kept ++ ascii ", ignoring " ++ conflict.discarded
    resource := conflict.id.str
    path := conflict.discarded }

def engineRemarks (record : ResourceRecord) (engineVersion : Version) : List Diagnostic :=
  match VersionRange.parse record.engineRange with
  | some range =>
    if record.engineRange ≠ [] ∧ range.satisfiedBy engineVersion = false then
      [foreignEngine record engineVersion]
    else []
  | none => []

def namespaceRemarks (record : ResourceRecord) : List Diagnostic :=
  if isReservedNamespace record.id ∧ ¬ ascii "resources/generator" <:+: record.location then
    [reservedIdentity record]
  else []

/-- One round of the second loop of `build_index`. -/
def indexCandidate (openEnvelope : Bytes → Except Bytes Envelope) (engineVersion : Version)
    (state : ResourceIndex × List Diagnostic) (location : Bytes) :
    ResourceIndex × List Diagnostic :=
  match openEnvelope location with
  | .error message => (state.1, state.2 ++ [unreadableResource location message])
  | .ok envelope =>
    match recordFrom envelope location with
    | .error remark => (state.1, state.2 ++ [remark])
    | .ok record =>
      let (conflict, index) := state.1.insert record
      (index, state.2 ++ engineRemarks record engineVersion ++ namespaceRemarks record ++
        (conflict.map duplicateIdentity).toList)

/-- `ResourceService::build_index`; the diagnostics are those it adds. -/
def buildIndex (roots : List ResourceRoot) (openEnvelope : Bytes → Except Bytes Envelope)
    (engineVersion : Version) (strictRoots : Bool) : Result (ResourceIndex × List Diagnostic) := do
  let (candidates, absent) ← roots.foldlM (scanRoot strictRoots) ([], [])
  pure (candidates.foldl (indexCandidate openEnvelope engineVersion) ({}, absent))

variable {roots : List ResourceRoot} {openEnvelope : Bytes → Except Bytes Envelope}
  {engineVersion : Version} {strictRoots : Bool} {location : Bytes}

def candidateRecord (openEnvelope : Bytes → Except Bytes Envelope) (location : Bytes) :
    Option ResourceRecord :=
  (openEnvelope location).toOption.bind fun envelope ↦ (recordFrom envelope location).toOption

theorem indexCandidate_index (state : ResourceIndex × List Diagnostic) :
    (indexCandidate openEnvelope engineVersion state location).1 =
      (candidateRecord openEnvelope location).toList.foldl
        (fun index record ↦ (index.insert record).2) state.1 := by
  unfold indexCandidate candidateRecord
  cases openEnvelope location with
  | error message => rfl
  | ok envelope =>
    cases hrecord : recordFrom envelope location with
    | error remark => simp [hrecord, Except.toOption]
    | ok record => simp [hrecord, Except.toOption]

theorem indexCandidates_index (candidates : List Bytes) (state : ResourceIndex × List Diagnostic) :
    (candidates.foldl (indexCandidate openEnvelope engineVersion) state).1 =
      (candidates.filterMap (candidateRecord openEnvelope)).foldl
        (fun index record ↦ (index.insert record).2) state.1 := by
  induction candidates generalizing state with
  | nil => rfl
  | cons location candidates ih =>
    rw [List.foldl_cons, ih, indexCandidate_index]
    cases hrecord : candidateRecord openEnvelope location with
    | none => simp [hrecord]
    | some record => simp [hrecord]

theorem scanRoots_candidates {found : List Bytes × List Diagnostic}
    (h : roots.foldlM (scanRoot strictRoots) ([], []) = .ok found) :
    found.1 = (roots.filterMap ResourceRoot.candidates).flatten := by
  refine foldlM_induction
    (fun done found ↦ found.1 = (done.filterMap ResourceRoot.candidates).flatten) ?_ rfl h
  intro done root s s' hs hstep
  unfold scanRoot at hstep
  split at hstep
  · rename_i candidates hcandidates
    rw [← Except.ok.inj hstep]
    simp [hs, List.filterMap_append, hcandidates]
  · rename_i hnone
    split_ifs at hstep
    rw [← Except.ok.inj hstep]
    simp [hs, List.filterMap_append, hnone]

theorem buildIndex_index {result : ResourceIndex × List Diagnostic}
    (h : buildIndex roots openEnvelope engineVersion strictRoots = .ok result) :
    result.1 = .ofRecords ((roots.filterMap ResourceRoot.candidates).flatten.filterMap
      (candidateRecord openEnvelope)) := by
  simp only [buildIndex, bind_eq_ok, pure, Except.pure, Except.ok.injEq] at h
  obtain ⟨found, hfound, rfl⟩ := h
  rw [indexCandidates_index, scanRoots_candidates hfound]
  rfl

end SquaredPg
