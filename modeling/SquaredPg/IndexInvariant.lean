import SquaredPg.Resolution
import Mathlib.Data.List.Nodup

namespace SquaredPg

open Std

def Grouped {α β : Type} (f : α → β) (l : List α) : Prop :=
  ∀ a b c, [a, b, c].Sublist l → f a = f c → f b = f a

namespace ResourceIndex

def Refused (inserted : List ResourceRecord) (record : ResourceRecord)
    (conflict : ResourceConflict) : Prop :=
  ∃ before after, inserted = before ++ record :: after ∧
    ((ofRecords before).insert record).1 = some conflict

/-- What an index is after a sequence of inserts. -/
structure Invariant (index : ResourceIndex) (inserted : List ResourceRecord) : Prop where
  distinct : index.records.Pairwise fun a b ↦ ¬ (a.id = b.id ∧ a.version.cmp b.version = .eq)
  total : index.records.length + index.conflicts.length = inserted.length
  kept : ∀ conflict ∈ index.conflicts, ∃ record ∈ index.records, record.id = conflict.id ∧
    record.version.cmp conflict.version = .eq ∧ record.location = conflict.kept
  discarded : ∀ conflict ∈ index.conflicts, ∃ record, Refused inserted record conflict ∧
    record.id = conflict.id ∧ record.version = conflict.version ∧
    record.location = conflict.discarded
  conflictFor : ∀ id, index.conflictFor id ≠ none ↔
    ∃ record conflict, Refused inserted record conflict ∧ record.id = id
  versionsOf : ∀ id, (∀ record, record ∈ index.versionsOf id ↔
      record ∈ index.records ∧ record.id = id) ∧
    (index.versionsOf id).Pairwise fun a b ↦ a.version.cmp b.version = .gt
  ofKind : ∀ kind, (∀ record, record ∈ index.ofKind kind ↔
      record ∈ index.records ∧ record.kind = kind) ∧
    (index.ofKind kind).Nodup ∧ Grouped ResourceRecord.id (index.ofKind kind)

variable {index : ResourceIndex} {inserted records : List ResourceRecord} {id : ResourceId}
  {record other : ResourceRecord} {conflict : ResourceConflict}

theorem ofRecords_concat : ofRecords (inserted ++ [record]) =
    ((ofRecords inserted).insert record).2 := by
  rw [ofRecords, List.foldl_append]
  rfl

theorem insert_fst_of_clash {kept : ResourceRecord} (h : index.clash record = some kept) :
    (index.insert record).1 =
      some ⟨record.id, record.version, kept.location, record.location⟩ := by
  unfold insert
  split
  · rename_i kept' hclash
    obtain rfl : kept' = kept := Option.some.inj (hclash.symm.trans h)
    rfl
  · rename_i hclash
    cases hclash.symm.trans h

theorem insert_fst_of_new (h : index.clash record = none) : (index.insert record).1 = none := by
  unfold insert
  split
  · rename_i hclash
    cases hclash.symm.trans h
  · rfl

theorem insert_conflicts : (index.insert record).2.conflicts =
    index.conflicts ++ (index.insert record).1.toList := by
  cases h : index.clash record with
  | some kept => rw [(insert_of_clash h).2, insert_fst_of_clash h, Option.toList_some]
  | none => rw [(insert_of_new h).2, insert_fst_of_new h, Option.toList_none, List.append_nil]

theorem refused_concat : Refused (inserted ++ [record]) other conflict ↔
    Refused inserted other conflict ∨
      other = record ∧ ((ofRecords inserted).insert record).1 = some conflict := by
  constructor
  · intro ⟨before, after, heq, hinsert⟩
    rcases List.eq_nil_or_concat after with rfl | ⟨after, last, rfl⟩
    · obtain ⟨rfl, hlast⟩ := List.append_inj' heq rfl
      obtain rfl : record = other := by simpa using hlast
      exact .inr ⟨rfl, hinsert⟩
    · rw [List.concat_eq_append, ← List.cons_append, ← List.append_assoc] at heq
      exact .inl ⟨before, after, (List.append_inj' heq rfl).1, hinsert⟩
  · intro h
    obtain ⟨before, after, rfl, hinsert⟩ | ⟨rfl, hinsert⟩ := h
    · exact ⟨before, after ++ [record], by simp, hinsert⟩
    · exact ⟨inserted, [], rfl, hinsert⟩

theorem not_refused_nil : ¬ Refused [] record conflict := by
  intro ⟨before, after, heq, _⟩
  simp at heq

theorem insert_total : (index.insert record).2.records.length +
    (index.insert record).2.conflicts.length =
      index.records.length + index.conflicts.length + 1 := by
  cases h : index.clash record with
  | some kept =>
    obtain ⟨hrecords, hconflicts⟩ := insert_of_clash h
    rw [hrecords, hconflicts, List.length_append, List.length_singleton, Nat.add_assoc]
  | none =>
    obtain ⟨hrecords, hconflicts⟩ := insert_of_new h
    rw [hrecords, hconflicts, List.length_append, List.length_singleton]
    omega

theorem mem_insert_records (h : other ∈ index.records) :
    other ∈ (index.insert record).2.records := by
  cases hclash : index.clash record with
  | some kept => rwa [(insert_of_clash hclash).1]
  | none =>
    rw [(insert_of_new hclash).1]
    exact List.mem_append_left _ h

theorem insert_eq_some (h : (index.insert record).1 = some conflict) :
    ∃ kept ∈ index.records, kept.id = record.id ∧ kept.version.cmp record.version = .eq ∧
      conflict = ⟨record.id, record.version, kept.location, record.location⟩ := by
  cases hclash : index.clash record with
  | some kept =>
    obtain ⟨hin, hid, heq⟩ := clash_eq_some hclash
    rw [insert_fst_of_clash hclash, Option.some_inj] at h
    exact ⟨kept, hin, hid, heq, h.symm⟩
  | none => cases (insert_fst_of_new hclash).symm.trans h

theorem ofRecords_total (inserted : List ResourceRecord) :
    (ofRecords inserted).records.length + (ofRecords inserted).conflicts.length =
      inserted.length := by
  induction inserted using List.reverseRecOn with
  | nil => rfl
  | append_singleton inserted record ih =>
    rw [ofRecords_concat, insert_total, ih, List.length_append, List.length_singleton]

theorem mem_conflicts_iff : conflict ∈ (ofRecords inserted).conflicts ↔
    ∃ record, Refused inserted record conflict := by
  induction inserted using List.reverseRecOn with
  | nil =>
    simp only [not_refused_nil, exists_false, iff_false]
    exact List.not_mem_nil
  | append_singleton inserted record ih =>
    rw [ofRecords_concat, insert_conflicts, List.mem_append, ih, Option.mem_toList]
    simp only [refused_concat, exists_or, exists_eq_left]

theorem Refused.eq (h : Refused inserted record conflict) :
    conflict.id = record.id ∧ conflict.version = record.version ∧
      conflict.discarded = record.location := by
  obtain ⟨before, after, rfl, hinsert⟩ := h
  obtain ⟨kept, _, _, _, rfl⟩ := insert_eq_some hinsert
  exact ⟨rfl, rfl, rfl⟩

theorem ofRecords_kept (h : conflict ∈ (ofRecords inserted).conflicts) :
    ∃ kept ∈ (ofRecords inserted).records, kept.id = conflict.id ∧
      kept.version.cmp conflict.version = .eq ∧ kept.location = conflict.kept := by
  induction inserted using List.reverseRecOn with
  | nil => cases h
  | append_singleton inserted record ih =>
    rw [ofRecords_concat] at h ⊢
    rw [insert_conflicts, List.mem_append, Option.mem_toList] at h
    rcases h with h | h
    · obtain ⟨kept, hin, hkept⟩ := ih h
      exact ⟨kept, mem_insert_records hin, hkept⟩
    · obtain ⟨kept, hin, hid, heq, rfl⟩ := insert_eq_some h
      exact ⟨kept, mem_insert_records hin, hid, heq, rfl⟩

theorem conflictFor_ne_none : (ofRecords inserted).conflictFor id ≠ none ↔
    ∃ record conflict, Refused inserted record conflict ∧ record.id = id := by
  rw [Ne, conflictFor_eq_none]
  push Not
  constructor
  · intro ⟨conflict, hin, hid⟩
    obtain ⟨record, hrefused⟩ := mem_conflicts_iff.mp hin
    exact ⟨record, conflict, hrefused, hrefused.eq.1 ▸ hid⟩
  · intro ⟨record, conflict, hrefused, hid⟩
    exact ⟨conflict, mem_conflicts_iff.mpr ⟨record, hrefused⟩, hrefused.eq.1.trans hid⟩

theorem distinct_cmp : index.records.Pairwise fun a b ↦
    ¬ (a.id = b.id ∧ a.version.cmp b.version = .eq) :=
  index.distinct.imp fun h ⟨hid, heq⟩ ↦ h ⟨hid, Version.cmp_eq_iff.mp heq⟩

theorem records_nodup : index.records.Nodup :=
  distinct_cmp.imp fun h heq ↦ h ⟨congrArg _ heq, heq ▸ ReflCmp.compare_self⟩

theorem versionsOf_strict :
    (index.versionsOf id).Pairwise fun a b ↦ a.version.cmp b.version = .gt := by
  have hne : (index.versionsOf id).Pairwise fun a b ↦ a.version.cmp b.version ≠ .eq := by
    have hfilter : (index.records.filter fun record ↦ record.id = id).Pairwise fun a b ↦
        a.version.cmp b.version ≠ .eq := by
      rw [List.pairwise_filter]
      refine distinct_cmp.imp fun h ha hb heq ↦ h ⟨?_, heq⟩
      simp only [decide_eq_true_eq] at ha hb
      exact ha.trans hb.symm
    exact (List.perm_insertionSort _ _).symm.pairwise hfilter fun h heq ↦
      h (OrientedCmp.eq_symm heq)
  refine (versionsOf_sorted.and hne).imp fun {a b} ⟨hle, hne⟩ ↦ ?_
  cases hcmp : a.version.cmp b.version with
  | lt => exact absurd (OrientedCmp.gt_iff_lt.mpr hcmp) hle
  | eq => exact absurd hcmp hne
  | gt => rfl

theorem mem_ofKind {kind : ResourceKind} :
    record ∈ index.ofKind kind ↔ record ∈ index.records ∧ record.kind = kind := by
  simp [ofKind, List.mem_filter]

theorem ofKind_nodup (kind : ResourceKind) : (index.ofKind kind).Nodup :=
  (List.perm_insertionSort _ _).nodup_iff.mpr (records_nodup.filter _)

def listingCmp (a b : ResourceRecord) : Ordering :=
  (List.compareLex compare a.id.str b.id.str).then (b.version.cmp a.version)

instance : TransCmp listingCmp := by
  have := transCmp_on (List.compareLex (compare : UInt8 → UInt8 → Ordering))
    fun record : ResourceRecord ↦ record.id.str
  have := transCmp_on (fun v w : Version ↦ w.cmp v) ResourceRecord.version
  exact inferInstanceAs (TransCmp (compareLex
    (fun a b : ResourceRecord ↦ List.compareLex compare a.id.str b.id.str)
    fun a b ↦ b.version.cmp a.version))

theorem id_eq_of_compare {a b : ResourceRecord}
    (h : List.compareLex compare a.id.str b.id.str = .eq) : a.id = b.id := by
  have hstr := LawfulEqCmp.eq_of_compare h
  cases ha : a.id
  cases hb : b.id
  simpa [ha, hb] using hstr

theorem listing_iff {a b : ResourceRecord} : (if a.id = b.id then b.version.cmp a.version ≠ .gt
    else List.compareLex compare b.id.str a.id.str ≠ .lt) ↔ listingCmp a b ≠ .gt := by
  unfold listingCmp
  by_cases hid : a.id = b.id
  · have hself : List.compareLex compare b.id.str b.id.str = .eq := ReflCmp.compare_self
    rw [if_pos hid, hid, hself, Ordering.eq_then]
  · rw [if_neg hid]
    cases hcmp : List.compareLex compare a.id.str b.id.str with
    | lt => simp [OrientedCmp.gt_iff_lt.mpr hcmp]
    | eq => exact absurd (id_eq_of_compare hcmp) hid
    | gt => simp [OrientedCmp.gt_iff_lt.mp hcmp]

theorem ofKind_sorted (kind : ResourceKind) :
    (index.ofKind kind).Pairwise fun a b ↦ listingCmp a b ≠ .gt := by
  rw [ofKind]
  simp only [listing_iff]
  exact List.pairwise_insertionSort _ _

theorem compare_id_of_listing {a b : ResourceRecord} (h : listingCmp a b ≠ .gt) :
    List.compareLex compare a.id.str b.id.str ≠ .gt := by
  intro hgt
  rw [listingCmp, hgt, Ordering.gt_then] at h
  exact h rfl

theorem ofKind_grouped (kind : ResourceKind) :
    Grouped ResourceRecord.id (index.ofKind kind) := by
  intro a b c hsub hac
  have hsorted := (ofKind_sorted kind).sublist hsub
  simp only [List.pairwise_cons, List.mem_cons, List.not_mem_nil, or_false, forall_eq_or_imp,
    forall_eq] at hsorted
  have hab := compare_id_of_listing hsorted.1.1
  have hba := compare_id_of_listing hsorted.2.1
  rw [← hac] at hba
  refine id_eq_of_compare ?_
  cases hcmp : List.compareLex compare b.id.str a.id.str with
  | lt => exact absurd (OrientedCmp.gt_iff_lt.mpr hcmp) hab
  | eq => rfl
  | gt => exact absurd hcmp hba

theorem ofRecords_invariant (inserted : List ResourceRecord) :
    (ofRecords inserted).Invariant inserted := by
  constructor
  · exact distinct_cmp
  · exact ofRecords_total inserted
  · exact fun conflict ↦ ofRecords_kept
  · intro conflict hin
    obtain ⟨record, hrefused⟩ := mem_conflicts_iff.mp hin
    obtain ⟨hid, hversion, hlocation⟩ := hrefused.eq
    exact ⟨record, hrefused, hid.symm, hversion.symm, hlocation.symm⟩
  · exact fun id ↦ conflictFor_ne_none
  · exact fun id ↦ ⟨fun record ↦ mem_versionsOf, versionsOf_strict⟩
  · exact fun kind ↦ ⟨fun record ↦ mem_ofKind, ofKind_nodup kind, ofKind_grouped kind⟩

end ResourceIndex

end SquaredPg
