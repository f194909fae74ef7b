import SquaredPg.VersionOrder

namespace SquaredPg

open Ascii

namespace Version

variable {v w bound : Version} {text : Bytes}

def SameNumbers (v w : Version) : Prop :=
  v.major.toNat = w.major.toNat ∧ v.minor.toNat = w.minor.toNat ∧ v.patch.toNat = w.patch.toNat

def Before (v w : Version) : Prop :=
  v.major.toNat < w.major.toNat ∨ v.major.toNat = w.major.toNat ∧
    (v.minor.toNat < w.minor.toNat ∨ v.minor.toNat = w.minor.toNat ∧ v.patch.toNat < w.patch.toNat)

theorem cmp_eq_lt_iff : cmp v w = .lt ↔
    v.Before w ∨ v.SameNumbers w ∧ comparePrerelease v.prerelease w.prerelease = .lt := by
  have hmajor := compare_uint32_compares v.major w.major
  have hminor := compare_uint32_compares v.minor w.minor
  have hpatch := compare_uint32_compares v.patch w.patch
  simp only [cmp, Ordering.then_eq_lt, hmajor.eq_lt, hmajor.eq_eq, hminor.eq_lt, hminor.eq_eq,
    hpatch.eq_lt, hpatch.eq_eq, Before, SameNumbers]
  tauto

theorem cmp_release_lt (hw : w.prerelease = []) : cmp v w = .lt ↔
    v.Before w ∨ v.SameNumbers w ∧ v.isPrerelease = true := by
  have hlt : comparePrerelease v.prerelease [] = .lt ↔ v.isPrerelease = true := by
    by_cases hv : v.prerelease = [] <;> simp [comparePrerelease, isPrerelease, hv]
  rw [cmp_eq_lt_iff, hw, hlt]

def nextMajor (bound : Version) : Version := { major := bound.major + 1 }

def nextMinor (bound : Version) : Version := { major := bound.major, minor := bound.minor + 1 }

def nextPatch (bound : Version) : Version :=
  { major := bound.major, minor := bound.minor, patch := bound.patch + 1 }

def caretBoundary (bound : Version) : Version :=
  if 0 < bound.major then bound.nextMajor
  else if 0 < bound.minor then bound.nextMinor
  else bound.nextPatch

structure Roomy (bound : Version) : Prop where
  major : bound.major.toNat < 10 ^ 9
  minor : bound.minor.toNat < 10 ^ 9
  patch : bound.patch.toNat < 10 ^ 9

theorem roomy_of_parse (h : parse text = some v) : v.Roomy := by
  rw [parse_eq] at h
  obtain ⟨s, hvalid, ⟨hmajor, hminor, hpatch⟩, -, hspells⟩ := parseBare_sound h
  have hlt : ∀ {ds : Bytes}, NumericIdentifier ds → ds.length ≤ 9 → digitsValue ds < 10 ^ 9 := by
    intro ds hds hle
    exact (digitsValue_lt hds.digits).trans_le (Nat.pow_le_pow_right (by omega) hle)
  refine ⟨?_, ?_, ?_⟩
  · rw [hspells.major]
    exact hlt hvalid.major hmajor
  · rw [hspells.minor]
    exact hlt hvalid.minor hminor
  · rw [hspells.patch]
    exact hlt hvalid.patch hpatch

theorem toNat_succ {n : UInt32} (h : n.toNat < 10 ^ 9) : (n + 1).toNat = n.toNat + 1 := by
  have hone : (1 : UInt32).toNat = 1 := rfl
  rw [UInt32.toNat_add, hone]
  omega

theorem cmp_eq_lt_iff_before (hw : w.prerelease = [])
    (hv : v.isPrerelease = true → ¬v.SameNumbers w) : cmp v w = .lt ↔ v.Before w := by
  rw [cmp_release_lt hw]
  exact or_iff_left fun h ↦ hv h.2 h.1

theorem before_nextMajor (hroom : bound.Roomy) (h : ¬v.Before bound) :
    v.Before bound.nextMajor ↔ v.major = bound.major := by
  rw [← UInt32.toNat_inj]
  simp only [Before, nextMajor, toNat_succ hroom.major, UInt32.toNat_zero] at h ⊢
  omega

theorem before_nextMinor (hroom : bound.Roomy) (h : ¬v.Before bound) :
    v.Before bound.nextMinor ↔ v.major = bound.major ∧ v.minor = bound.minor := by
  rw [← UInt32.toNat_inj, ← UInt32.toNat_inj]
  simp only [Before, nextMinor, toNat_succ hroom.minor, UInt32.toNat_zero] at h ⊢
  omega

theorem before_nextPatch (hroom : bound.Roomy) (h : ¬v.Before bound) :
    v.Before bound.nextPatch ↔
      v.major = bound.major ∧ v.minor = bound.minor ∧ v.patch = bound.patch := by
  rw [← UInt32.toNat_inj, ← UInt32.toNat_inj, ← UInt32.toNat_inj]
  simp only [Before, nextPatch, toNat_succ hroom.patch] at h ⊢
  omega

theorem caretBoundary_release (bound : Version) : bound.caretBoundary.prerelease = [] := by
  unfold caretBoundary
  split_ifs <;> rfl

theorem before_nextMinor_self (hroom : bound.Roomy) : bound.Before bound.nextMinor := by
  simp [Before, nextMinor, toNat_succ hroom.minor]

theorem not_before_of_cmp (h : ¬cmp v w = .lt) : ¬v.Before w :=
  fun hbefore ↦ h (cmp_eq_lt_iff.mpr (.inl hbefore))

theorem eq_zero_of_not_pos {n : UInt32} (h : ¬0 < n) : n = 0 := by
  rwa [UInt32.not_lt, UInt32.le_zero_iff] at h

theorem before_caretBoundary_self (hroom : bound.Roomy) : bound.Before bound.caretBoundary := by
  unfold caretBoundary
  split_ifs
  · simp [Before, nextMajor, toNat_succ hroom.major]
  · exact before_nextMinor_self hroom
  · simp [Before, nextPatch, toNat_succ hroom.patch]

end Version

namespace VersionRange

variable {range : VersionRange} {clause : Clause} {v : Version} {text : Bytes}

def Clause.interval (clause : Clause) : List Clause :=
  match clause.op with
  | .caret => [⟨.gte, clause.version⟩, ⟨.lt, clause.version.caretBoundary⟩]
  | .tilde => [⟨.gte, clause.version⟩, ⟨.lt, clause.version.nextMinor⟩]
  | _ => [clause]

def writtenOut (range : VersionRange) : VersionRange :=
  { range with clauses := range.clauses.flatMap Clause.interval }

def Clause.Edge (clause : Clause) (v : Version) : Prop :=
  v.isPrerelease = true ∧
    (clause.op = .caret ∧ v.SameNumbers clause.version.caretBoundary ∨
      clause.op = .tilde ∧ v.SameNumbers clause.version.nextMinor)

theorem admits_caret (hroom : clause.version.Roomy) (hop : clause.op = .caret)
    (hedge : ¬Clause.Edge clause v) : Clause.admits clause v = true ↔
      v.cmp clause.version ≠ .lt ∧ v.cmp clause.version.caretBoundary = .lt := by
  have hrelease := clause.version.caretBoundary_release
  rw [Version.cmp_eq_lt_iff_before hrelease fun hv hsame ↦ hedge ⟨hv, .inl ⟨hop, hsame⟩⟩]
  simp only [Clause.admits, hop]
  by_cases hle : v.cmp clause.version = .lt
  · simp [hle]
  · have hbefore := Version.not_before_of_cmp hle
    rw [if_neg hle, Version.caretBoundary]
    split_ifs with hmajor hminor
    · rw [Version.before_nextMajor hroom hbefore]
      simp [hle]
    · have hzero := Version.eq_zero_of_not_pos hmajor
      rw [Version.before_nextMinor hroom hbefore, hzero]
      simp [hle]
    · have hzero := Version.eq_zero_of_not_pos hmajor
      have hzero' := Version.eq_zero_of_not_pos hminor
      rw [Version.before_nextPatch hroom hbefore, hzero, hzero']
      simp [hle]

theorem admits_tilde (hroom : clause.version.Roomy) (hop : clause.op = .tilde)
    (hedge : ¬Clause.Edge clause v) : Clause.admits clause v = true ↔
      v.cmp clause.version ≠ .lt ∧ v.cmp clause.version.nextMinor = .lt := by
  rw [Version.cmp_eq_lt_iff_before rfl fun hv hsame ↦ hedge ⟨hv, .inr ⟨hop, hsame⟩⟩]
  simp only [Clause.admits, hop]
  by_cases hle : v.cmp clause.version = .lt
  · simp [hle]
  · have hbefore := Version.not_before_of_cmp hle
    rw [if_neg hle, Version.before_nextMinor hroom hbefore]
    simp [hle]

theorem admits_interval (hroom : clause.version.Roomy) (hedge : ¬Clause.Edge clause v) :
    ((Clause.interval clause).all fun c ↦ Clause.admits c v) = Clause.admits clause v := by
  rw [Bool.eq_iff_iff]
  unfold Clause.interval
  split
  · rename_i hop
    rw [admits_caret hroom hop hedge]
    simp [Clause.admits]
  · rename_i hop
    rw [admits_tilde hroom hop hedge]
    simp [Clause.admits]
  · simp

theorem invites_writtenOut : range.writtenOut.invites v = range.invites v := by
  rw [invites, invites, writtenOut, List.any_flatMap]
  congr 1
  funext clause
  have hrelease := clause.version.caretBoundary_release
  unfold Clause.interval
  split
  · simp [Version.isPrerelease, hrelease]
  · simp [Version.isPrerelease, Version.nextMinor]
  · simp

theorem interval_ne_nil : Clause.interval clause ≠ [] := by
  unfold Clause.interval
  split <;> simp

theorem satisfiedBy_writtenOut (hroom : ∀ clause ∈ range.clauses, clause.version.Roomy)
    (hedge : range.invites v = true → ∀ clause ∈ range.clauses, ¬Clause.Edge clause v) :
    range.writtenOut.satisfiedBy v = range.satisfiedBy v := by
  have hnil : range.writtenOut.clauses = [] ↔ range.clauses = [] := by
    rw [writtenOut, List.flatMap_eq_nil_iff, List.eq_nil_iff_forall_not_mem]
    exact forall₂_congr fun clause _ ↦ iff_false_intro interval_ne_nil
  simp only [satisfiedBy, hnil, invites_writtenOut]
  by_cases hv : (v.isPrerelease && !range.invites v) = true
  · simp only [hv, if_true]
  · simp only [hv, Bool.false_eq_true, if_false]
    have hedges : ∀ clause ∈ range.clauses, ¬Clause.Edge clause v := by
      intro clause hclause hat
      refine hedge ?_ clause hclause hat
      simpa [hat.1] using hv
    have hall : (range.writtenOut.clauses.all fun c ↦ Clause.admits c v) =
        range.clauses.all fun c ↦ Clause.admits c v := by
      rw [writtenOut, List.all_flatMap, Bool.eq_iff_iff, List.all_eq_true, List.all_eq_true]
      refine forall₂_congr fun clause hclause ↦ ?_
      rw [admits_interval (hroom clause hclause) (hedges clause hclause)]
    rw [hall]

theorem parseClauses_versions {n : ℕ} {rest : Bytes} {clauses : List Clause}
    (h : parseClauses n rest = some clauses) (hclause : clause ∈ clauses) :
    ∃ token, Version.parse token = some clause.version := by
  induction n generalizing rest clauses with
  | zero => cases h
  | succ n ih =>
    simp only [parseClauses] at h
    split_ifs at h
    · obtain rfl := Option.some.inj h
      cases hclause
    · simp only [Option.bind_eq_bind, Option.bind_eq_some_iff, Option.pure_def,
        Option.some.injEq] at h
      obtain ⟨version, hversion, clauses, hrest, rfl⟩ := h
      rcases List.mem_cons.mp hclause with rfl | hclause
      · exact ⟨_, hversion⟩
      · exact ih hrest hclause

theorem roomy_of_parse (h : parse text = some range) (hclause : clause ∈ range.clauses) :
    clause.version.Roomy := by
  simp only [parse] at h
  split_ifs at h
  · obtain rfl := Option.some.inj h
    cases hclause
  · obtain ⟨clauses, hclauses, rfl⟩ := Option.map_eq_some_iff.mp h
    obtain ⟨token, htoken⟩ := parseClauses_versions hclauses hclause
    exact Version.roomy_of_parse htoken

theorem sameNumbers_of_invites (h : range.invites v = true) (hsingle : range.clauses = [clause]) :
    v.SameNumbers clause.version := by
  simp only [invites, hsingle, List.any_cons, List.any_nil, Bool.or_false,
    decide_eq_true_eq] at h
  exact ⟨by rw [h.2.1], by rw [h.2.2.1], by rw [h.2.2.2]⟩

theorem not_edge_of_single (hroom : clause.version.Roomy) (h : range.invites v = true)
    (hsingle : range.clauses = [clause]) : ¬Clause.Edge clause v := by
  have hsame := sameNumbers_of_invites h hsingle
  have hcaret := Version.before_caretBoundary_self hroom
  have hminor := Version.before_nextMinor_self hroom
  intro hedge
  simp only [Version.SameNumbers, Version.Before] at hsame hcaret hminor
  rcases hedge.2 with ⟨-, hat⟩ | ⟨-, hat⟩
  all_goals
    simp only [Version.SameNumbers] at hat
    omega

/-- A caret and a tilde mean the intervals of the grammar: to every release, and where they stand
alone to every version. -/
theorem writtenOut_means_same (h : parse text = some range) :
    (∀ v : Version, v.isPrerelease = false →
      range.writtenOut.satisfiedBy v = range.satisfiedBy v) ∧
    ∀ clause, range.clauses = [clause] →
      ∀ v, range.writtenOut.satisfiedBy v = range.satisfiedBy v := by
  have hroom : ∀ clause ∈ range.clauses, clause.version.Roomy := fun _ ↦ roomy_of_parse h
  refine ⟨fun v hv ↦ satisfiedBy_writtenOut hroom fun _ clause _ hedge ↦ ?_,
    fun clause hsingle v ↦ satisfiedBy_writtenOut hroom fun hinvites other hother ↦ ?_⟩
  · rw [hedge.1] at hv
    cases hv
  · obtain rfl : other = clause := by simpa [hsingle] using hother
    exact not_edge_of_single (hroom other hother) hinvites hsingle

theorem caret_means_interval : ∃ range clause, parse (ascii "^1.2-rc") = some range ∧
    range.clauses = [clause] ∧ clause.op = .caret ∧
      ∀ v, range.writtenOut.satisfiedBy v = range.satisfiedBy v := by
  have hparse : parse (ascii "^1.2-rc") = some
      ⟨[⟨.caret, ⟨1, 2, 0, ascii "rc", [], .inr (by decide), noSuffix_valid⟩⟩], ascii "^1.2-rc"⟩ := by
    decide +kernel
  exact ⟨_, _, hparse, rfl, rfl, (writtenOut_means_same hparse).2 _ rfl⟩

end VersionRange

end SquaredPg
