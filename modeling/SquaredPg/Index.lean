import SquaredPg.Identity
import SquaredPg.Version
import Mathlib.Data.List.Sort

namespace SquaredPg

open Std

structure ResourceRecord where
  id : ResourceId
  kind : ResourceKind
  version : Version
  location : Bytes
  title : Bytes := []
  description : Bytes := []
  engineRange : Bytes := []
  deriving DecidableEq

structure ResourceConflict where
  id : ResourceId
  version : Version
  kept : Bytes
  discarded : Bytes
  deriving DecidableEq

theorem distinct_nil : ([] : List ResourceRecord).Pairwise fun a b ↦
    ¬ (a.id = b.id ∧ a.version.same b.version = true) := .nil

/-- `ResourceIndex`: no two of its records have one identity and one version. -/
structure ResourceIndex where
  records : List ResourceRecord := []
  conflicts : List ResourceConflict := []
  distinct : records.Pairwise fun a b ↦ ¬ (a.id = b.id ∧ a.version.same b.version = true) := by
    exact distinct_nil

namespace ResourceIndex

def clash (index : ResourceIndex) (record : ResourceRecord) : Option ResourceRecord :=
  index.records.find? fun existing ↦
    existing.id = record.id ∧ existing.version.same record.version = true

theorem distinct_append {index : ResourceIndex} {record : ResourceRecord}
    (h : index.clash record = none) :
    (index.records ++ [record]).Pairwise
      fun a b ↦ ¬ (a.id = b.id ∧ a.version.same b.version = true) := by
  refine List.pairwise_append.mpr ⟨index.distinct, List.pairwise_singleton _ _, ?_⟩
  intro a ha b hb
  rw [List.mem_singleton.mp hb]
  simpa using List.find?_eq_none.mp h a ha

/-- `ResourceIndex::insert`: the first claim stands, a second one is remembered as a conflict. -/
def insert (index : ResourceIndex) (record : ResourceRecord) :
    Option ResourceConflict × ResourceIndex :=
  match h : index.clash record with
  | some kept =>
    let conflict := ⟨record.id, record.version, kept.location, record.location⟩
    (some conflict, { index with conflicts := index.conflicts ++ [conflict] })
  | none =>
    (none, { index with records := index.records ++ [record], distinct := distinct_append h })

def conflictFor (index : ResourceIndex) (id : ResourceId) : Option ResourceConflict :=
  index.conflicts.find? fun conflict ↦ conflict.id = id

/-- `ResourceIndex::versions_of`: highest precedence first. -/
def versionsOf (index : ResourceIndex) (id : ResourceId) : List ResourceRecord :=
  (index.records.filter fun record ↦ record.id = id).insertionSort
    fun a b ↦ b.version.cmp a.version ≠ .gt

def select (index : ResourceIndex) (id : ResourceId) (range : VersionRange) :
    Option ResourceRecord :=
  (index.versionsOf id).find? fun record ↦ range.satisfiedBy record.version

/-- `ResourceIndex::of_kind`: by identity, and by falling version within one. -/
def ofKind (index : ResourceIndex) (kind : ResourceKind) : List ResourceRecord :=
  (index.records.filter fun record ↦ record.kind = kind).insertionSort fun a b ↦
    if a.id = b.id then b.version.cmp a.version ≠ .gt
    else List.compareLex compare b.id.str a.id.str ≠ .lt

variable {index : ResourceIndex} {id : ResourceId} {range : VersionRange}
  {record other : ResourceRecord}

theorem mem_versionsOf : record ∈ index.versionsOf id ↔ record ∈ index.records ∧ record.id = id := by
  simp [versionsOf, List.mem_filter]

instance : Std.Total fun a b : ResourceRecord ↦ b.version.cmp a.version ≠ .gt where
  total a b := by
    by_cases h : b.version.cmp a.version = .gt
    · right
      rw [OrientedCmp.gt_iff_lt.mp h]
      decide
    · exact .inl h

instance : IsTrans ResourceRecord fun a b ↦ b.version.cmp a.version ≠ .gt where
  trans _ _ _ hab hbc := Ordering.isLE_iff_ne_gt.mp
    (TransCmp.isLE_trans (Ordering.isLE_iff_ne_gt.mpr hbc) (Ordering.isLE_iff_ne_gt.mpr hab))

theorem versionsOf_sorted :
    (index.versionsOf id).Pairwise fun a b ↦ b.version.cmp a.version ≠ .gt :=
  List.pairwise_insertionSort _ _

theorem select_eq_some (h : index.select id range = some record) :
    record ∈ index.records ∧ record.id = id ∧ range.satisfiedBy record.version = true ∧
      ∀ other ∈ index.records, other.id = id → range.satisfiedBy other.version = true →
        other.version.cmp record.version ≠ .gt := by
  obtain ⟨hsat, before, after, heq, hbefore⟩ := List.find?_eq_some_iff_append.mp h
  have hmem : record ∈ index.versionsOf id := by
    rw [heq]
    simp
  obtain ⟨hin, hid⟩ := mem_versionsOf.mp hmem
  refine ⟨hin, hid, hsat, fun other ho hoid hosat ↦ ?_⟩
  have hother : other ∈ before ++ record :: after := heq ▸ mem_versionsOf.mpr ⟨ho, hoid⟩
  have hsorted := heq ▸ @versionsOf_sorted index id
  rcases List.mem_append.mp hother with hb | hb
  · simp only [Bool.not_eq_eq_eq_not, Bool.not_true] at hbefore
    exact absurd hosat (by simp [hbefore other hb])
  · rcases List.mem_cons.mp hb with rfl | ha
    · simp [ReflCmp.compare_self]
    · exact (List.pairwise_cons.mp (List.pairwise_append.mp hsorted).2.1).1 other ha

theorem select_eq_none (h : index.select id range = none) (hin : record ∈ index.records)
    (hid : record.id = id) : range.satisfiedBy record.version = false := by
  simpa using List.find?_eq_none.mp h record (mem_versionsOf.mpr ⟨hin, hid⟩)

end ResourceIndex

end SquaredPg
