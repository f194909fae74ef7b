import SquaredPg.Index
import SquaredPg.Ownership

namespace SquaredPg

open Ascii

structure ResolvedResource where
  record : ResourceRecord
  cartridge : Cartridge
  treePrefix : Bytes := []
  ownership : OwnershipRules := {}
  integrationAreas : List Bytes := []

namespace ResolvedResource

def id (resource : ResolvedResource) : ResourceId := resource.record.id

def version (resource : ResolvedResource) : Bytes := resource.record.version.toString

end ResolvedResource

def idAtVersion (id : ResourceId) (version : Version) : Bytes :=
  id.str ++ at_ :: version.toString

def notFound (category : ErrorCategory) (code : String) (ref : ResourceRef) (index : ResourceIndex)
    (kind : ResourceKind) : EngineError :=
  { makeError category code (ascii "no resource matching '" ++ ref.toString ++ ascii "' is indexed") with
    resource := ref.id.str
    recoverable := true
    diagnostics := .object [(ascii "requested", .string ref.toString),
      (ascii "available", .strings ((index.ofKind kind).map fun r ↦ idAtVersion r.id r.version))] }

def unsatisfiable (category : ErrorCategory) (code : String) (ref : ResourceRef)
    (considered : List ResourceRecord) : EngineError :=
  { makeError category code
      (ascii "no version of " ++ ref.id.str ++ ascii " satisfies '" ++ ref.range ++ ascii "'") with
    resource := ref.id.str
    recoverable := true
    diagnostics := .object [(ascii "constraint", .string ref.range),
      (ascii "considered", .strings (considered.map fun r ↦ r.version.toString))] }

def ambiguous (id : ResourceId) (conflict : ResourceConflict) : EngineError :=
  { makeError .resource "resource.identity.duplicate"
      (ascii "two resources declare the identity " ++ idAtVersion id conflict.version ++
        ascii "; refusing to guess which was meant") with
    resource := id.str
    diagnostics := .object [(ascii "first", .string conflict.kept),
      (ascii "second", .string conflict.discarded),
      (ascii "hint", .string (ascii ("remove one, or point the resource roots at only one of them; " ++
        "`sqpg list` works and will show what is indexed")))] }

/-- One requirement `token@range` against what the engine provides. -/
def providesCapability (provided : List Capability) (requirement : Bytes) : Bool :=
  let (token, constraint) := cutAt at_ requirement
  match provided.find? fun capability ↦ capability.token = token with
  | none => false
  | some found =>
    match VersionRange.parse (constraint.getD []) with
    | none => false
    | some range => range.satisfiedBy found.version

def checkCapabilities (manifest : Manifest) (provided : List Capability) (id : ResourceId) :
    Result Unit :=
  let required := stringList (manifestExtension manifest "requires.capabilities")
  let unmet := required.filter fun requirement ↦ !providesCapability provided requirement
  if unmet = [] then .ok ()
  else .error
    { makeError .capability "capability.unsatisfied"
        (id.str ++ ascii " requires capabilities this engine does not provide") with
      resource := id.str
      recoverable := true
      diagnostics := .object [(ascii "unsatisfied", .strings unmet),
        (ascii "provided", .strings (provided.map fun c ↦ c.token ++ at_ :: c.version.toString))] }

/-- `select_and_open`; `openCartridge` is `ResourceService::open`. -/
def selectAndOpen (index : ResourceIndex) (openCartridge : ResourceRecord → Result Cartridge)
    (ref : ResourceRef) (kind : ResourceKind) (category : ErrorCategory) (codePrefix : String)
    (provided : List Capability) : Result ResolvedResource :=
  match VersionRange.parse ref.range with
  | none => .error
      { makeError category (codePrefix ++ ".version.invalid")
          (ascii "version constraint '" ++ ref.range ++ ascii "' is not a valid range") with
        resource := ref.id.str }
  | some range =>
    let candidates := index.versionsOf ref.id
    if candidates.isEmpty then
      .error (notFound category (codePrefix ++ ".not_found") ref index kind)
    else
      match index.conflictFor ref.id with
      | some conflict => .error (ambiguous ref.id conflict)
      | none =>
        match index.select ref.id range with
        | none =>
          .error (unsatisfiable category (codePrefix ++ ".version.unsatisfiable") ref candidates)
        | some record =>
          if record.kind ≠ kind then
            .error
              { makeError category (codePrefix ++ ".kind.mismatch")
                  (ref.id.str ++ ascii " is a " ++ record.kind.toString ++ ascii ", not a " ++
                    kind.toString) with
                resource := ref.id.str }
          else do
            let cartridge ← openCartridge record
            checkCapabilities cartridge.manifest provided record.id
            pure { record, cartridge }

variable {index : ResourceIndex} {id : ResourceId} {constraint : Bytes} {record : ResourceRecord}

theorem selectAndOpen_record {openCartridge : ResourceRecord → Result Cartridge} {ref : ResourceRef}
    {kind : ResourceKind} {category : ErrorCategory} {codePrefix : String}
    {provided : List Capability} {resolved : ResolvedResource}
    (h : selectAndOpen index openCartridge ref kind category codePrefix provided = .ok resolved) :
    ∃ range, VersionRange.parse ref.range = some range ∧
      index.select ref.id range = some resolved.record := by
  unfold selectAndOpen at h
  split at h
  · cases h
  · rename_i range hrange
    refine ⟨range, hrange, ?_⟩
    dsimp only at h
    split at h
    · cases h
    · split at h
      · cases h
      · split at h
        · cases h
        · rename_i record hselect
          split at h
          · cases h
          · cases hopen : openCartridge record with
            | error e => simp [hopen, bind, Except.bind] at h
            | ok cartridge =>
              cases hcheck : checkCapabilities cartridge.manifest provided record.id with
              | error e => simp [hopen, hcheck, bind, Except.bind] at h
              | ok u =>
                simp only [hopen, hcheck, bind, Except.bind, pure, Except.pure] at h
                rw [← Except.ok.inj h]
                exact hselect

def Chosen (index : ResourceIndex) (id : ResourceId) (constraint : Bytes)
    (record : ResourceRecord) : Prop :=
  (∃ range, VersionRange.parse constraint = some range ∧ index.select id range = some record) ∨
    ∃ openCartridge kind category codePrefix provided resolved,
      selectAndOpen index openCartridge ⟨id, constraint⟩ kind category codePrefix provided =
        .ok resolved ∧ resolved.record = record

theorem chosen_iff : Chosen index id constraint record ↔
    ∃ range, VersionRange.parse constraint = some range ∧ index.select id range = some record := by
  constructor
  · rintro (h | ⟨openCartridge, kind, category, codePrefix, provided, resolved, h, rfl⟩)
    · exact h
    · exact selectAndOpen_record h
  · exact .inl

theorem Chosen.select {range : VersionRange} (h : Chosen index id constraint record)
    (hrange : VersionRange.parse constraint = some range) : index.select id range = some record := by
  obtain ⟨range', hrange', hselect⟩ := chosen_iff.mp h
  obtain rfl : range = range' := Option.some.inj (hrange.symm.trans hrange')
  exact hselect

/-- A pre-release is chosen only where a clause names one of its triple; a release that is chosen
is the highest that satisfies the range, and a request that selects nothing had none to select. -/
structure PrereleasesOptIn (index : ResourceIndex) (id : ResourceId) (constraint : Bytes) : Prop where
  invited : ∀ record range, Chosen index id constraint record → record.version.isPrerelease = true →
    VersionRange.parse constraint = some range → ∃ clause ∈ range.clauses,
      clause.version.isPrerelease = true ∧ clause.version.major = record.version.major ∧
        clause.version.minor = record.version.minor ∧ clause.version.patch = record.version.patch
  highest : ∀ record range, Chosen index id constraint record → record.version.isPrerelease = false →
    VersionRange.parse constraint = some range →
      record ∈ index.records ∧ record.id = id ∧ range.satisfiedBy record.version = true ∧
        ∀ other ∈ index.records, other.id = id → other.version.isPrerelease = false →
          range.satisfiedBy other.version = true → other.version.cmp record.version ≠ .gt
  refused : ∀ range, VersionRange.parse constraint = some range → index.select id range = none →
    ∀ other ∈ index.records, other.id = id → range.satisfiedBy other.version = false

/-- Every pre-release of the identifier is outranked by a release of it. -/
def ReleaseOnTop (index : ResourceIndex) (id : ResourceId) : Prop :=
  ∀ record ∈ index.records, record.id = id → record.version.isPrerelease = true →
    ∃ other ∈ index.records, other.id = id ∧ other.version.isPrerelease = false ∧
      other.version.cmp record.version = .gt

theorem cmp_ne_eq_of_isPrerelease {a b : Version} (ha : a.isPrerelease = true)
    (hb : b.isPrerelease = false) : a.cmp b ≠ .eq := by
  intro heq
  have hsame := Version.cmp_eq_iff.mp heq
  simp only [Version.same, decide_eq_true_eq] at hsame
  simp only [Version.isPrerelease, hsame.2.2.2] at ha
  simp [Version.isPrerelease, ha] at hb

theorem invites_of_satisfiedBy {range : VersionRange} {version : Version}
    (hne : range.clauses ≠ []) (hpre : version.isPrerelease = true)
    (h : range.satisfiedBy version = true) : range.invites version = true := by
  unfold VersionRange.satisfiedBy at h
  rw [if_neg hne] at h
  by_contra hno
  rw [Bool.not_eq_true] at hno
  simp [hpre, hno] at h

/-- The rule holds unless a range without clauses meets an identifier with a pre-release on top. -/
theorem prereleasesOptIn_iff (index : ResourceIndex) (id : ResourceId) (constraint : Bytes) :
    PrereleasesOptIn index id constraint ↔
      ∀ range, VersionRange.parse constraint = some range → range.clauses = [] →
        ReleaseOnTop index id := by
  constructor
  · intro h range hrange hnil record hin hid hpre
    have hall : ∀ v, range.satisfiedBy v = true := fun v ↦ by simp [VersionRange.satisfiedBy, hnil]
    cases hselect : index.select id range with
    | none => exact absurd (h.refused range hrange hselect record hin hid) (by simp [hall])
    | some chosen =>
      have hchosen := chosen_iff.mpr ⟨range, hrange, hselect⟩
      obtain ⟨hcin, hcid, -, hmax⟩ := ResourceIndex.select_eq_some hselect
      have hrelease : chosen.version.isPrerelease = false := by
        by_contra hpre'
        obtain ⟨clause, hclause, -⟩ := h.invited chosen range hchosen (by simpa using hpre') hrange
        simp [hnil] at hclause
      refine ⟨chosen, hcin, hcid, hrelease, ?_⟩
      have hle := hmax record hin hid (hall _)
      have hne := cmp_ne_eq_of_isPrerelease hpre hrelease
      have hlt : record.version.cmp chosen.version = .lt := by
        cases hc : record.version.cmp chosen.version with
        | lt => rfl
        | eq => exact absurd hc hne
        | gt => exact absurd hc hle
      exact Std.OrientedCmp.gt_iff_lt.mpr hlt
  · intro h
    constructor
    · intro record range hchosen hpre hrange
      obtain ⟨hin, hid, hsat, hmax⟩ := ResourceIndex.select_eq_some (hchosen.select hrange)
      by_cases hnil : range.clauses = []
      · obtain ⟨other, hoin, hoid, -, hgt⟩ := h range hrange hnil record hin hid hpre
        exact absurd hgt (hmax other hoin hoid (by simp [VersionRange.satisfiedBy, hnil]))
      · have hinv := invites_of_satisfiedBy hnil hpre hsat
        simp only [VersionRange.invites, List.any_eq_true, decide_eq_true_eq] at hinv
        exact hinv
    · intro record range hchosen _ hrange
      obtain ⟨hin, hid, hsat, hmax⟩ := ResourceIndex.select_eq_some (hchosen.select hrange)
      exact ⟨hin, hid, hsat, fun other ho hoid _ hosat ↦ hmax other ho hoid hosat⟩
    · intro range hrange hnone other hin hid
      exact ResourceIndex.select_eq_none hnone hin hid

def previewedKit : ResourceId := ⟨ascii "kit.sample", .inr (by decide)⟩

def previewIndex : ResourceIndex :=
  let stable : Version := { major := 1, minor := 9 }
  let preview : Version :=
    { major := 2, prerelease := ascii "alpha.1", prerelease_valid := .inr (by decide) }
  ((({} : ResourceIndex).insert
      { id := previewedKit, kind := .kit, version := stable, location := ascii "/a" }).2.insert
    { id := previewedKit, kind := .kit, version := preview, location := ascii "/b" }).2

theorem any_version_selects_preview : ¬ PrereleasesOptIn previewIndex previewedKit (ascii "*") := by
  intro h
  have hselect : (previewIndex.select previewedKit { text := ascii "*" }).isSome = true := by decide
  obtain ⟨record, hrecord⟩ := Option.isSome_iff_exists.mp hselect
  have hpre : (previewIndex.select previewedKit { text := ascii "*" }).any
      (fun record ↦ record.version.isPrerelease) = true := by decide
  have hparse : VersionRange.parse (ascii "*") = some { text := ascii "*" } := by decide
  obtain ⟨clause, hclause, -⟩ := h.invited record _ (.inl ⟨_, hparse, hrecord⟩)
    (by simpa [hrecord] using hpre) hparse
  simp at hclause

end SquaredPg
