import SquaredPg.Validation
import SquaredPg.PlanProperties
import Mathlib.Algebra.GroupWithZero.Nat
import Mathlib.Algebra.Order.BigOperators.Group.List
import Mathlib.Algebra.Order.Group.Nat

namespace SquaredPg

section Lists

variable {α : Type*} [BEq α] [LawfulBEq α] {ls : List (List α)} {a : α}

theorem countP_le_sum_count (ls : List (List α)) (a : α) :
    ls.countP (a ∈ ·) ≤ (ls.map (List.count a)).sum := by
  induction ls with
  | nil => exact le_rfl
  | cons l ls ih =>
    rw [List.countP_cons, List.map_cons, List.sum_cons]
    by_cases h : a ∈ l
    · have hcount := List.count_pos_iff.mpr h
      simp only [h, decide_true, if_true]
      omega
    · simp only [h, decide_false, Bool.false_eq_true, if_false]
      omega

theorem sum_count_eq_countP (h : ∀ l ∈ ls, l.count a ≤ 1) :
    (ls.map (List.count a)).sum = ls.countP (a ∈ ·) := by
  induction ls with
  | nil => rfl
  | cons l ls ih =>
    rw [List.countP_cons, List.map_cons, List.sum_cons, ih fun l hl ↦ h l (by simp [hl])]
    have hone := h l (by simp)
    by_cases hmem : a ∈ l
    · have hcount := List.count_pos_iff.mpr hmem
      simp only [hmem, decide_true, if_true]
      omega
    · rw [List.count_eq_zero.mpr hmem]
      simp [hmem]

theorem two_le_sum_count_iff :
    2 ≤ (ls.map (List.count a)).sum ↔ 2 ≤ ls.countP (a ∈ ·) ∨ ∃ l ∈ ls, 2 ≤ l.count a := by
  refine ⟨?_, ?_⟩
  · intro h
    by_cases hrepeat : ∃ l ∈ ls, 2 ≤ l.count a
    · exact .inr hrepeat
    · left
      rw [← sum_count_eq_countP]
      · exact h
      · intro l hl
        by_contra hl'
        exact hrepeat ⟨l, hl, by omega⟩
  · intro h
    rcases h with h | ⟨l, hl, h⟩
    · exact h.trans (countP_le_sum_count ls a)
    · exact h.trans (List.le_sum_of_mem (List.mem_map_of_mem hl))

end Lists

theorem mem_sortedSet {texts : List Bytes} {text : Bytes} : text ∈ sortedSet texts ↔ text ∈ texts := by
  rw [sortedSet, List.mem_insertionSort, List.mem_dedup]

theorem passes_iff {α β ε : Type} {offenders : List α} {error : α → ε} {next : Unit → Except ε β} :
    (∃ out, (refuseFirst offenders error >>= next) = .ok out) ↔
      offenders = [] ∧ ∃ out, next () = .ok out := by
  cases offenders with
  | nil => exact ⟨fun h ↦ ⟨rfl, h⟩, fun h ↦ h.2⟩
  | cons offender offenders =>
    refine ⟨?_, ?_⟩
    · intro ⟨out, h⟩
      cases h
    · intro ⟨h, _⟩
      cases h

namespace ResolvedSet

variable {set : ResolvedSet} {area : Bytes}

def positions (set : ResolvedSet) (area : Bytes) : ℕ :=
  set.kits.countP fun kit ↦ area ∈ kit.integrationAreas

structure Admissible (set : ResolvedSet) : Prop where
  declared : set.projectTemplate.integrationAreas ≠ [] →
    ∀ kit ∈ set.kits, ∀ area ∈ kit.integrationAreas, area ∈ set.projectTemplate.integrationAreas
  uncrowded : ∀ area, set.arity area ≠ ascii "multi" → set.positions area < 2
  compatible : ∀ kit ∈ set.kits,
    ∀ other ∈ stringList (manifestExtension kit.cartridge.manifest "conflicts_with"),
      other ∉ set.kitIds
  complete : ∀ required ∈ set.requiredKits, required ∈ set.kitIds

/-- No kit lists an area twice that is not open to many. -/
def ListsOnce (set : ResolvedSet) : Prop :=
  ∀ kit ∈ set.kits, ∀ area, set.arity area ≠ ascii "multi" → kit.integrationAreas.count area < 2

theorem contributors_length (set : ResolvedSet) (area : Bytes) :
    (set.contributors area).length =
      ((set.kits.map ResolvedResource.integrationAreas).map (List.count area)).sum := by
  rw [contributors, List.length_map, ← List.countP_eq_length_filter, kitAreas, List.countP_flatMap,
    List.map_map]
  congr 1
  apply List.map_congr_left
  intro kit _
  rw [Function.comp_apply, Function.comp_apply, List.countP_map, List.count]
  apply List.countP_congr
  intro listed _
  simp

theorem crowded_iff :
    2 ≤ (set.contributors area).length ↔
      2 ≤ set.positions area ∨ ∃ kit ∈ set.kits, 2 ≤ kit.integrationAreas.count area := by
  rw [contributors_length, two_le_sum_count_iff, List.countP_map, positions]
  simp only [List.mem_map, exists_exists_and_eq_and]
  rfl

theorem crowdedAreas_eq_nil :
    set.crowdedAreas = [] ↔
      (∀ area, set.arity area ≠ ascii "multi" → set.positions area < 2) ∧ set.ListsOnce := by
  have hnone : set.crowdedAreas = [] ↔
      ∀ area, set.arity area ≠ ascii "multi" → ¬2 ≤ (set.contributors area).length := by
    rw [crowdedAreas, List.filter_eq_nil_iff]
    refine ⟨?_, ?_⟩
    · intro h area harity hcrowded
      have hlisted : ∃ listed ∈ set.kitAreas, listed.2 = area := by
        have hpos : 0 < (set.contributors area).length := by omega
        rw [contributors, List.length_map] at hpos
        obtain ⟨listed, hlisted⟩ := List.exists_mem_of_length_pos hpos
        exact ⟨listed, List.mem_of_mem_filter hlisted, by simpa using List.of_mem_filter hlisted⟩
      obtain ⟨listed, hmem, rfl⟩ := hlisted
      have hsorted := mem_sortedSet.mpr (List.mem_map_of_mem (f := Prod.snd) hmem)
      exact h _ hsorted (decide_eq_true ⟨hcrowded, harity⟩)
    · intro h area _ hcrowded
      obtain ⟨hcount, harity⟩ := of_decide_eq_true hcrowded
      exact h area harity hcount
  rw [hnone]
  simp only [crowded_iff, not_or, not_exists, not_and, not_le]
  refine ⟨fun h ↦ ⟨fun area ha ↦ (h area ha).1, fun kit hkit area ha ↦ (h area ha).2 kit hkit⟩, ?_⟩
  exact fun h area ha ↦ ⟨h.1 area ha, fun kit hkit ↦ h.2 kit hkit area ha⟩

/-- `cross_validate` succeeds on what is admissible and lists no area twice in one kit. -/
theorem crossValidate_iff (set : ResolvedSet) (diagnostics : List Diagnostic) :
    (∃ out, crossValidate set diagnostics = .ok out) ↔ set.Admissible ∧ set.ListsOnce := by
  have hundeclared : (set.kitAreas.filter fun listed ↦ set.projectTemplate.integrationAreas ≠ [] ∧
      listed.2 ∉ set.projectTemplate.integrationAreas) = [] ↔
      (set.projectTemplate.integrationAreas ≠ [] → ∀ kit ∈ set.kits,
        ∀ area ∈ kit.integrationAreas, area ∈ set.projectTemplate.integrationAreas) := by
    simp only [kitAreas, List.filter_eq_nil_iff, List.mem_flatMap, List.mem_map,
      decide_eq_true_eq, not_and, not_not]
    refine ⟨fun h hne kit hkit area harea ↦ h (kit, area) ⟨kit, hkit, area, harea, rfl⟩ hne, ?_⟩
    intro h listed ⟨kit, hkit, area, harea, heq⟩ hne
    rw [← heq]
    exact h hne kit hkit area harea
  have hconflicts : set.declaredConflicts = [] ↔ ∀ kit ∈ set.kits,
      ∀ other ∈ stringList (manifestExtension kit.cartridge.manifest "conflicts_with"),
        other ∉ set.kitIds := by
    simp only [declaredConflicts, List.flatMap_eq_nil_iff, List.map_eq_nil_iff,
      List.filter_eq_nil_iff, decide_eq_true_eq]
  have hrequired : (set.requiredKits.filter fun required ↦ required ∉ set.kitIds) = [] ↔
      ∀ required ∈ set.requiredKits, required ∈ set.kitIds := by
    simp only [List.filter_eq_nil_iff, decide_eq_true_eq, not_not]
  rw [crossValidate]
  simp only [passes_iff, hundeclared, crowdedAreas_eq_nil, hconflicts, hrequired]
  refine ⟨?_, ?_⟩
  · intro ⟨hdeclared, ⟨huncrowded, honce⟩, hcompatible, hcomplete, _⟩
    exact ⟨⟨hdeclared, huncrowded, hcompatible, hcomplete⟩, honce⟩
  · intro ⟨h, honce⟩
    exact ⟨h.declared, ⟨h.uncrowded, honce⟩, h.compatible, h.complete, _, rfl⟩

/-- What a set has to satisfy, and no more, for `cross_validate` to let it pass. -/
def CheckedExactly (set : ResolvedSet) : Prop :=
  ∀ diagnostics, (∃ out, crossValidate set diagnostics = .ok out) ↔ set.Admissible

theorem checkedExactly_iff (set : ResolvedSet) :
    set.CheckedExactly ↔ (set.Admissible → set.ListsOnce) := by
  simp only [CheckedExactly, crossValidate_iff]
  refine ⟨fun h hadmissible ↦ ((h []).mpr hadmissible).2, ?_⟩
  exact fun h _ ↦ ⟨And.left, fun hadmissible ↦ ⟨hadmissible, h hadmissible⟩⟩

def repeatingSet : ResolvedSet :=
  { projectTemplate :=
      { sampleTemplate "\x7b\x7d" [] with integrationAreas := [ascii "app.setup"] }
    kits :=
      [{ sampleKit "\x7b\x7d" [] with integrationAreas := [ascii "app.setup", ascii "app.setup"] }] }

theorem checkedExactly_repeating : ¬∀ set : ResolvedSet, set.CheckedExactly := by
  intro h
  have hadmissible : repeatingSet.Admissible := by
    refine ⟨fun _ ↦ by decide, ?_, by decide +kernel, by decide +kernel⟩
    intro area _
    exact (List.countP_le_length).trans_lt (by decide)
  have hrefused : ¬repeatingSet.ListsOnce := by
    intro hlists
    have hcount := hlists _ (List.mem_singleton_self _) (ascii "app.setup") (by decide +kernel)
    revert hcount
    decide
  exact hrefused (((crossValidate_iff repeatingSet []).mp
    ((h repeatingSet []).mpr hadmissible)).2)

end ResolvedSet

end SquaredPg
