import SquaredPg.Fallible
import SquaredPg.Resolve
import Mathlib.Data.List.Pairwise

namespace SquaredPg

open Ascii Fallible Std

namespace ResourceIndex

/-- The index that `build_index` leaves behind after it inserted the records in this order. -/
def ofRecords (records : List ResourceRecord) : ResourceIndex :=
  records.foldl (fun index record ↦ (index.insert record).2) {}

end ResourceIndex

def Unambiguous (records : List ResourceRecord) (id : ResourceId) : Prop :=
  records.Pairwise fun a b ↦ ¬ (a.id = id ∧ b.id = id ∧ a.version.cmp b.version = .eq)

/-- None of the satisfying records of the identifier has a higher precedence. -/
structure Highest (records : List ResourceRecord) (id : ResourceId) (range : VersionRange)
    (record : ResourceRecord) : Prop where
  mem : record ∈ records
  id_eq : record.id = id
  satisfied : range.satisfiedBy record.version = true
  highest : ∀ other ∈ records, other.id = id → range.satisfiedBy other.version = true →
    other.version.cmp record.version ≠ .gt

/-- The record a request is to get. -/
def Due (records : List ResourceRecord) (ref : ResourceRef) (kind : ResourceKind)
    (record : ResourceRecord) : Prop :=
  ∃ range, VersionRange.parse ref.range = some range ∧ Unambiguous records ref.id ∧
    Highest records ref.id range record ∧ record.kind = kind

/-- What a caller learns from a resolution: the record it got, or the code of the error. -/
def outcome : Result ResolvedResource → Except Bytes ResourceRecord
  | .ok resolved => .ok resolved.record
  | .error error => .error error.code

variable {index : ResourceIndex} {records records' : List ResourceRecord} {id : ResourceId}
  {range : VersionRange} {record other : ResourceRecord}

def ofId (id : ResourceId) (records : List ResourceRecord) : List ResourceRecord :=
  records.filter fun record ↦ record.id = id

theorem mem_ofId : record ∈ ofId id records ↔ record ∈ records ∧ record.id = id := by
  simp [ofId]

theorem unambiguous_iff : Unambiguous records id ↔
    (ofId id records).Pairwise fun a b ↦ a.version.cmp b.version ≠ .eq := by
  rw [ofId, List.pairwise_filter, Unambiguous, List.Pairwise.iff fun a b ↦ ?_]
  simp only [decide_eq_true_eq, not_and]

theorem unambiguous_append : Unambiguous (records ++ [record]) id ↔ Unambiguous records id ∧
    (record.id = id → ∀ other ∈ records, other.id = id →
      other.version.cmp record.version ≠ .eq) := by
  simp only [Unambiguous, List.pairwise_append, List.pairwise_singleton, true_and,
    List.mem_singleton, forall_eq, not_and]
  exact and_congr_right fun _ ↦ ⟨fun h hid other hin hoid ↦ h other hin hoid hid,
    fun h other hin hoid hid ↦ h hid other hin hoid⟩

/-- An index holds the first record of each precedence, and a conflict for each further one. -/
structure ResourceIndex.Holds (index : ResourceIndex) (records : List ResourceRecord) : Prop where
  sound : ∀ record ∈ index.records, record ∈ records
  complete : ∀ record ∈ records, ∃ kept ∈ index.records, kept.id = record.id ∧
    kept.version.cmp record.version = .eq
  conflict : ∀ id, index.conflictFor id = none ↔ Unambiguous records id
  same : ∀ id, Unambiguous records id → ofId id index.records = ofId id records

theorem ResourceIndex.insert_of_clash {kept : ResourceRecord} (h : index.clash record = some kept) :
    (index.insert record).2.records = index.records ∧ (index.insert record).2.conflicts =
      index.conflicts ++ [⟨record.id, record.version, kept.location, record.location⟩] := by
  unfold ResourceIndex.insert
  split
  · rename_i kept' hclash
    obtain rfl : kept' = kept := Option.some.inj (hclash.symm.trans h)
    exact ⟨rfl, rfl⟩
  · rename_i hclash
    cases hclash.symm.trans h

theorem ResourceIndex.insert_of_new (h : index.clash record = none) :
    (index.insert record).2.records = index.records ++ [record] ∧
      (index.insert record).2.conflicts = index.conflicts := by
  unfold ResourceIndex.insert
  split
  · rename_i hclash
    cases hclash.symm.trans h
  · exact ⟨rfl, rfl⟩

theorem ResourceIndex.clash_eq_some {kept : ResourceRecord} (h : index.clash record = some kept) :
    kept ∈ index.records ∧ kept.id = record.id ∧ kept.version.cmp record.version = .eq := by
  have hsome := List.find?_some h
  simp only [decide_eq_true_eq] at hsome
  exact ⟨List.mem_of_find?_eq_some h, hsome.1, Version.cmp_eq_iff.mpr hsome.2⟩

theorem ResourceIndex.clash_eq_none (h : index.clash record = none) (hin : other ∈ index.records)
    (hid : other.id = record.id) : other.version.cmp record.version ≠ .eq := by
  have hnone := List.find?_eq_none.mp h other hin
  simp only [decide_eq_true_eq, not_and] at hnone
  exact fun heq ↦ hnone hid (Version.cmp_eq_iff.mp heq)

theorem ResourceIndex.conflictFor_eq_none :
    index.conflictFor id = none ↔ ∀ conflict ∈ index.conflicts, conflict.id ≠ id := by
  simp [ResourceIndex.conflictFor]

theorem ResourceIndex.Holds.insert_of_clash (h : index.Holds records) {kept : ResourceRecord}
    (hclash : index.clash record = some kept) :
    (index.insert record).2.Holds (records ++ [record]) := by
  obtain ⟨hrecords, hconflicts⟩ := ResourceIndex.insert_of_clash hclash
  obtain ⟨hkept, hid, heq⟩ := ResourceIndex.clash_eq_some hclash
  have hambiguous : ¬ Unambiguous (records ++ [record]) record.id := fun hun ↦
    (unambiguous_append.mp hun).2 rfl kept (h.sound kept hkept) hid heq
  constructor
  · intro other hother
    rw [hrecords] at hother
    exact List.mem_append_left _ (h.sound other hother)
  · intro other hother
    rw [hrecords]
    rcases List.mem_append.mp hother with hother | hother
    · exact h.complete other hother
    · rw [List.mem_singleton.mp hother]
      exact ⟨kept, hkept, hid, heq⟩
  · intro id
    rw [ResourceIndex.conflictFor_eq_none, hconflicts]
    simp only [List.forall_mem_append, List.forall_mem_singleton]
    rw [← ResourceIndex.conflictFor_eq_none, h.conflict id]
    by_cases hid : record.id = id
    · subst hid
      exact iff_of_false (fun hno ↦ hno.2 rfl) hambiguous
    · simp [unambiguous_append, hid]
  · intro id hun
    have hne : record.id ≠ id := fun heq ↦ hambiguous (heq ▸ hun)
    rw [hrecords, h.same id (unambiguous_append.mp hun).1]
    simp [ofId, hne]

theorem ResourceIndex.Holds.insert_of_new (h : index.Holds records)
    (hclash : index.clash record = none) : (index.insert record).2.Holds (records ++ [record]) := by
  obtain ⟨hrecords, hconflicts⟩ := ResourceIndex.insert_of_new hclash
  have hfirst : ∀ other ∈ records, other.id = record.id →
      other.version.cmp record.version ≠ .eq := by
    intro other hother hid heq
    obtain ⟨kept, hkept, hkid, hkeq⟩ := h.complete other hother
    exact ResourceIndex.clash_eq_none hclash hkept (hkid.trans hid) (TransCmp.eq_trans hkeq heq)
  constructor
  · intro other hother
    rw [hrecords] at hother
    exact (List.mem_append.mp hother).elim (fun hin ↦ List.mem_append_left _ (h.sound other hin))
      (List.mem_append_right _)
  · intro other hother
    rw [hrecords]
    rcases List.mem_append.mp hother with hother | hother
    · obtain ⟨kept, hkept, hid, heq⟩ := h.complete other hother
      exact ⟨kept, List.mem_append_left _ hkept, hid, heq⟩
    · exact ⟨other, List.mem_append_right _ hother, rfl, ReflCmp.compare_self⟩
  · intro id
    rw [ResourceIndex.conflictFor_eq_none, hconflicts, ← ResourceIndex.conflictFor_eq_none,
      h.conflict id, unambiguous_append]
    refine (and_iff_left ?_).symm
    rintro rfl
    exact hfirst
  · intro id hun
    have hsame := h.same id (unambiguous_append.mp hun).1
    rw [hrecords]
    simp only [ofId, List.filter_append] at hsame ⊢
    rw [hsame]

theorem ResourceIndex.Holds.insert (h : index.Holds records) (record : ResourceRecord) :
    (index.insert record).2.Holds (records ++ [record]) := by
  cases hclash : index.clash record with
  | some kept => exact h.insert_of_clash hclash
  | none => exact h.insert_of_new hclash

theorem ofRecords_holds (records : List ResourceRecord) :
    (ResourceIndex.ofRecords records).Holds records := by
  induction records using List.reverseRecOn with
  | nil =>
    constructor
    · exact fun record h ↦ h
    · simp
    · exact fun id ↦ iff_of_true rfl .nil
    · exact fun id _ ↦ rfl
  | append_singleton records record ih =>
    rw [ResourceIndex.ofRecords, List.foldl_append]
    exact ih.insert record

theorem Highest.unique (hun : Unambiguous records id) (h : Highest records id range record)
    (h' : Highest records id range other) : record = other := by
  by_contra hne
  have hsymm : Std.Symm fun a b : ResourceRecord ↦
      ¬ (a.id = id ∧ b.id = id ∧ a.version.cmp b.version = .eq) :=
    ⟨fun a b hab hba ↦ hab ⟨hba.2.1, hba.1, OrientedCmp.eq_symm hba.2.2⟩⟩
  refine List.Pairwise.forall hun h.mem h'.mem hne ⟨h.id_eq, h'.id_eq, ?_⟩
  have hle := h'.highest record h.mem h.id_eq h.satisfied
  have hge := h.highest other h'.mem h'.id_eq h'.satisfied
  cases hcmp : record.version.cmp other.version with
  | lt => exact absurd (OrientedCmp.gt_iff_lt.mpr hcmp) hge
  | eq => rfl
  | gt => exact absurd hcmp hle

namespace ResourceIndex.Holds

theorem versionsOf_isEmpty (h : index.Holds records) :
    (index.versionsOf id).isEmpty = true ↔ ofId id records = [] := by
  rw [List.isEmpty_iff, List.eq_nil_iff_forall_not_mem, List.eq_nil_iff_forall_not_mem]
  constructor
  · intro hnone record hrecord
    obtain ⟨hin, hid⟩ := mem_ofId.mp hrecord
    obtain ⟨kept, hkept, hkid, -⟩ := h.complete record hin
    exact hnone kept (mem_versionsOf.mpr ⟨hkept, hkid.trans hid⟩)
  · intro hnone record hrecord
    obtain ⟨hin, hid⟩ := mem_versionsOf.mp hrecord
    exact hnone record (mem_ofId.mpr ⟨h.sound record hin, hid⟩)

theorem mem_records (h : index.Holds records) (hun : Unambiguous records id) (hid : record.id = id) :
    record ∈ index.records ↔ record ∈ records := by
  have hsame := congrArg (record ∈ ·) (h.same id hun)
  simpa [mem_ofId, hid] using hsame

theorem select_eq_some_iff (h : index.Holds records) (hun : Unambiguous records id) :
    index.select id range = some record ↔ Highest records id range record := by
  have hsound : ∀ record, index.select id range = some record → Highest records id range record := by
    intro record hselect
    obtain ⟨hin, hid, hsat, hmax⟩ := select_eq_some hselect
    exact ⟨h.sound record hin, hid, hsat,
      fun other ho hoid hosat ↦ hmax other ((h.mem_records hun hoid).mpr ho) hoid hosat⟩
  refine ⟨hsound record, fun hbest ↦ ?_⟩
  cases hselect : index.select id range with
  | none =>
    have hin := (h.mem_records hun hbest.id_eq).mpr hbest.mem
    exact absurd hbest.satisfied (by simp [select_eq_none hselect hin hbest.id_eq])
  | some chosen => rw [(hsound chosen hselect).unique hun hbest]

end ResourceIndex.Holds

theorem unambiguous_perm (h : (ofId id records').Perm (ofId id records)) :
    Unambiguous records' id ↔ Unambiguous records id := by
  rw [unambiguous_iff, unambiguous_iff]
  exact h.pairwise_iff fun hne heq ↦ hne (OrientedCmp.eq_symm heq)

theorem highest_perm (h : (ofId id records').Perm (ofId id records)) :
    Highest records' id range record ↔ Highest records id range record := by
  have hmem : ∀ record, record.id = id → (record ∈ records' ↔ record ∈ records) := by
    intro record hid
    have hiff := h.mem_iff (a := record)
    simpa [mem_ofId, hid] using hiff
  constructor
  · intro hbest
    exact ⟨(hmem record hbest.id_eq).mp hbest.mem, hbest.id_eq, hbest.satisfied,
      fun other ho hid hsat ↦ hbest.highest other ((hmem other hid).mpr ho) hid hsat⟩
  · intro hbest
    exact ⟨(hmem record hbest.id_eq).mpr hbest.mem, hbest.id_eq, hbest.satisfied,
      fun other ho hid hsat ↦ hbest.highest other ((hmem other hid).mp ho) hid hsat⟩

variable {openCartridge : ResourceRecord → Result Cartridge} {ref : ResourceRef}
  {kind : ResourceKind} {category : ErrorCategory} {codePrefix : String} {provided : List Capability}

theorem conflictFor_perm {index' : ResourceIndex} (h : index.Holds records)
    (h' : index'.Holds records') (hperm : (ofId id records').Perm (ofId id records)) :
    index'.conflictFor id = none ↔ index.conflictFor id = none := by
  rw [h'.conflict, h.conflict, unambiguous_perm hperm]

theorem select_perm {index' : ResourceIndex} (h : index.Holds records) (h' : index'.Holds records')
    (hperm : (ofId id records').Perm (ofId id records)) (hun : Unambiguous records id) :
    index'.select id range = index.select id range := by
  refine Option.ext fun record ↦ ?_
  rw [h.select_eq_some_iff hun, h'.select_eq_some_iff ((unambiguous_perm hperm).mpr hun),
    highest_perm hperm]

theorem outcome_perm {index' : ResourceIndex} (h : index.Holds records) (h' : index'.Holds records')
    (hperm : (ofId ref.id records').Perm (ofId ref.id records)) :
    outcome (selectAndOpen index' openCartridge ref kind category codePrefix provided) =
      outcome (selectAndOpen index openCartridge ref kind category codePrefix provided) := by
  unfold selectAndOpen
  cases hrange : VersionRange.parse ref.range with
  | none => rfl
  | some range =>
    have hempty : (index'.versionsOf ref.id).isEmpty = (index.versionsOf ref.id).isEmpty := by
      rw [Bool.eq_iff_iff, h.versionsOf_isEmpty, h'.versionsOf_isEmpty]
      exact ⟨fun hnil ↦ (hnil ▸ hperm).nil_eq.symm, fun hnil ↦ (hnil ▸ hperm).eq_nil⟩
    by_cases hnil : (index.versionsOf ref.id).isEmpty = true
    · simp [hempty, hnil, outcome, notFound, makeError]
    · have hconflict := conflictFor_perm h h' hperm
      cases hfound : index.conflictFor ref.id with
      | some conflict =>
        obtain ⟨conflict', hfound'⟩ := Option.ne_none_iff_exists'.mp
          (mt hconflict.mp (by simp [hfound]))
        simp [hempty, hnil, hfound', outcome, ambiguous, makeError]
      | none =>
        have hselect : index'.select ref.id range = index.select ref.id range :=
          select_perm h h' hperm ((h.conflict _).mp hfound)
        simp only [hempty, hnil, hconflict.mpr hfound, hselect]
        cases index.select ref.id range with
        | none => rfl
        | some record => rfl

theorem selectAndOpen_eq_ok {resolved : ResolvedResource} :
    selectAndOpen index openCartridge ref kind category codePrefix provided = .ok resolved ↔
      ∃ range cartridge, VersionRange.parse ref.range = some range ∧
        index.conflictFor ref.id = none ∧ index.select ref.id range = some resolved.record ∧
        resolved.record.kind = kind ∧ openCartridge resolved.record = .ok cartridge ∧
        checkCapabilities cartridge.manifest provided resolved.record.id = .ok () ∧
        resolved = { record := resolved.record, cartridge } := by
  unfold selectAndOpen
  constructor
  · intro h
    split at h
    · cases h
    · rename_i range hrange
      dsimp only at h
      split_ifs at h
      split at h
      · cases h
      · rename_i hconflict
        split at h
        · cases h
        · rename_i record hselect
          split_ifs at h with hkind
          simp only [bind_eq_ok, pure, Except.pure, Except.ok.injEq] at h
          obtain ⟨cartridge, hopen, u, hcheck, rfl⟩ := h
          exact ⟨range, cartridge, hrange, hconflict, hselect, not_not.mp hkind, hopen, hcheck, rfl⟩
  · rintro ⟨range, cartridge, hrange, hconflict, hselect, hkind, hopen, hcheck, hresolved⟩
    have hcandidates : ¬ (index.versionsOf ref.id).isEmpty = true := by
      rw [List.isEmpty_iff]
      intro hnil
      simp [ResourceIndex.select, hnil] at hselect
    simp only [hrange, hcandidates, hconflict, hselect, hkind, hopen]
    rw [hresolved]
    simp [bind, Except.bind, hcheck, pure, Except.pure]

/-- Where the payload opens and its capabilities are met, a request gets the record that is due to
it and fails where none is due; neither the order of the records nor the records of another
identifier change what the caller learns. -/
theorem selectAndOpen_due (records : List ResourceRecord)
    (openCartridge : ResourceRecord → Result Cartridge) (ref : ResourceRef) (kind : ResourceKind)
    (category : ErrorCategory) (codePrefix : String) (provided : List Capability)
    (hopens : ∀ record ∈ records, ∃ cartridge, openCartridge record = .ok cartridge ∧
      checkCapabilities cartridge.manifest provided record.id = .ok ()) :
    (∀ record, (∃ resolved, selectAndOpen (.ofRecords records) openCartridge ref kind category
        codePrefix provided = .ok resolved ∧ resolved.record = record) ↔ Due records ref kind record) ∧
      ∀ records', (ofId ref.id records').Perm (ofId ref.id records) →
        outcome (selectAndOpen (.ofRecords records') openCartridge ref kind category codePrefix
          provided) =
        outcome (selectAndOpen (.ofRecords records) openCartridge ref kind category codePrefix
          provided) := by
  have hholds := ofRecords_holds records
  refine ⟨fun record ↦ ⟨?_, ?_⟩, fun records' hperm ↦
    outcome_perm hholds (ofRecords_holds records') hperm⟩
  · rintro ⟨resolved, hok, rfl⟩
    obtain ⟨range, cartridge, hrange, hconflict, hselect, hkind, -⟩ := selectAndOpen_eq_ok.mp hok
    have hun := (hholds.conflict ref.id).mp hconflict
    exact ⟨range, hrange, hun, (hholds.select_eq_some_iff hun).mp hselect, hkind⟩
  · rintro ⟨range, hrange, hun, hbest, hkind⟩
    obtain ⟨cartridge, hopen, hcheck⟩ := hopens record hbest.mem
    refine ⟨{ record, cartridge }, selectAndOpen_eq_ok.mpr ?_, rfl⟩
    exact ⟨range, cartridge, hrange, (hholds.conflict ref.id).mpr hun,
      (hholds.select_eq_some_iff hun).mpr hbest, hkind, hopen, hcheck, rfl⟩

def silentCartridge : Cartridge :=
  { manifest := { tree := ascii ".", consumer := fun _ ↦ none }
    entries := []
    read := fun entry ↦ .error entry }

def releasedKit (minor : UInt32) (location : String) : ResourceRecord :=
  { id := previewedKit, kind := .kit, version := { major := 1, minor }, location := ascii location }

theorem newer_kit_due : ∃ resolved, selectAndOpen (.ofRecords [releasedKit 2 "/a", releasedKit 9 "/b"])
    (fun _ ↦ .ok silentCartridge) ⟨previewedKit, ascii "^1.2"⟩ .kit .kit "kit" [] = .ok resolved ∧
      resolved.record = releasedKit 9 "/b" := by
  have hdue := (selectAndOpen_due [releasedKit 2 "/a", releasedKit 9 "/b"] (fun _ ↦ .ok silentCartridge)
    ⟨previewedKit, ascii "^1.2"⟩ .kit .kit "kit" [] fun record _ ↦ ⟨_, rfl, rfl⟩).1 (releasedKit 9 "/b")
  refine hdue.mpr ⟨⟨[⟨.caret, { major := 1, minor := 2 }⟩], ascii "^1.2"⟩, by decide, ?_, ?_, rfl⟩
  · exact List.pairwise_pair.mpr (by decide)
  · exact ⟨by decide, rfl, by decide, by decide⟩

end SquaredPg
