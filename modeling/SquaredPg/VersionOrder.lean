import SquaredPg.VersionGrammar
import Mathlib.Data.List.Lex
import Mathlib.Data.Prod.Lex
import Mathlib.Data.Sum.Order
import Mathlib.Order.WithBot

namespace SquaredPg

open Ascii

section Compares

variable {α β γ : Type} [LinearOrder β] [LinearOrder γ] {o o' : Ordering} {x y : β} {x' y' : γ}

theorem then_compares (h : o.Compares x y) (h' : x = y → o'.Compares x' y') :
    (o.then o').Compares (toLex (x, x')) (toLex (y, y')) := by
  cases o with
  | lt => exact Prod.Lex.toLex_lt_toLex.mpr (.inl h)
  | gt => exact Prod.Lex.toLex_lt_toLex.mpr (.inl h)
  | eq =>
    obtain rfl : x = y := h
    rw [Ordering.eq_then]
    have hmono : StrictMono fun z : γ ↦ toLex (x, z) :=
      fun z w hzw ↦ Prod.Lex.toLex_lt_toLex.mpr (.inr ⟨rfl, hzw⟩)
    exact hmono.compares.mpr (h' rfl)

theorem then_compares_cons {l l' : List β} (h : o.Compares x y) (h' : o'.Compares l l') :
    (o.then o').Compares (x :: l) (y :: l') := by
  cases o with
  | lt => exact List.cons_lt_cons_iff.mpr (.inl h)
  | gt => exact List.cons_lt_cons_iff.mpr (.inl h)
  | eq =>
    obtain rfl : x = y := h
    rw [Ordering.eq_then]
    have hmono : StrictMono (x :: · : List β → List β) := fun _ _ ↦ List.Lex.cons
    exact hmono.compares.mpr h'

theorem compareLex_compares {cmp : α → α → Ordering} {key : α → β} {l r : List α}
    (h : ∀ a ∈ l, ∀ b ∈ r, (cmp a b).Compares (key a) (key b)) :
    (List.compareLex cmp l r).Compares (l.map key) (r.map key) := by
  induction l generalizing r with
  | nil =>
    cases r with
    | nil => exact (rfl : ([] : List β) = [])
    | cons b r => exact List.nil_lt_cons (key b) (r.map key)
  | cons a l ih =>
    cases r with
    | nil => exact List.nil_lt_cons (key a) (l.map key)
    | cons b r =>
      rw [List.compareLex_cons_cons]
      have hrest := ih (r := r) fun a ha b hb ↦ h a (by simp [ha]) b (by simp [hb])
      exact then_compares_cons (h a (by simp) b (by simp)) hrest

end Compares

theorem compare_toNat_compares (c d : UInt8) : (compare c d).Compares c.toNat d.toNat := by
  rw [← compare_toNat]
  exact (compare_iff _ _).mp rfl

theorem compare_uint32_compares (m n : UInt32) : (compare m n).Compares m.toNat n.toNat := by
  have h : compare m n = compare m.toNat n.toNat := by
    simp only [compare, compareOfLessAndEq, UInt32.lt_iff_toNat_lt, UInt32.toNat_inj]
  rw [h]
  exact (compare_iff _ _).mp rfl

abbrev IdentifierKey := ℕ ⊕ₗ List ℕ

def identifierKey (part : Bytes) : IdentifierKey :=
  if allDigits part then toLex (.inl (digitsValue part)) else toLex (.inr (part.map UInt8.toNat))

def prereleaseKey (text : Bytes) : WithTop (List IdentifierKey) :=
  if text = [] then ⊤ else ((text.splitOn dot).map identifierKey : List IdentifierKey)

/-- Where SemVer 2.0.0 has a version: by its numbers first, and then by its pre-release. -/
def Version.precedence (v : Version) : ℕ ×ₗ ℕ ×ₗ ℕ ×ₗ WithTop (List IdentifierKey) :=
  toLex (v.major.toNat, toLex (v.minor.toNat, toLex (v.patch.toNat, prereleaseKey v.prerelease)))

theorem compareIdentifier_compares {l r : Bytes} (hl : PrereleaseIdentifier l)
    (hr : PrereleaseIdentifier r) :
    (compareIdentifier l r).Compares (identifierKey l) (identifierKey r) := by
  unfold compareIdentifier identifierKey
  cases hld : allDigits l <;> cases hrd : allDigits r
  · have hbytes : (List.compareLex compare l r).Compares (l.map UInt8.toNat) (r.map UInt8.toNat) :=
      compareLex_compares fun a _ b _ ↦ compare_toNat_compares a b
    exact Sum.Lex.inr_strictMono.compares.mpr hbytes
  · exact Sum.Lex.inl_lt_inr _ _
  · exact Sum.Lex.inl_lt_inr _ _
  · have hvalue := (compare_iff (digitsValue l) (digitsValue r)).mp rfl
    rw [compare_digitsValue (hl.numeric hld) (hr.numeric hrd)] at hvalue
    exact Sum.Lex.inl_strictMono.compares.mpr hvalue

theorem comparePrerelease_compares {l r : Bytes}
    (hl : l ≠ [] → ∀ id ∈ l.splitOn dot, PrereleaseIdentifier id)
    (hr : r ≠ [] → ∀ id ∈ r.splitOn dot, PrereleaseIdentifier id) :
    (comparePrerelease l r).Compares (prereleaseKey l) (prereleaseKey r) := by
  unfold comparePrerelease prereleaseKey
  by_cases hln : l = [] <;> by_cases hrn : r = []
  · simp [hln, hrn]
  · simp [hln, hrn]
  · simp [hln, hrn]
  · simp only [hln, hrn, and_self, if_false]
    have hids : (compareIdentifiers (l.splitOn dot) (r.splitOn dot)).Compares
        ((l.splitOn dot).map identifierKey) ((r.splitOn dot).map identifierKey) :=
      compareLex_compares fun a ha b hb ↦ compareIdentifier_compares (hl hln a ha) (hr hrn b hb)
    exact WithTop.coe_strictMono.compares.mpr hids

namespace Version

variable {a b c v : Version} {text : Bytes}

theorem prereleaseIdentifiers (h : parse text = some v) (hne : v.prerelease ≠ []) :
    ∀ id ∈ v.prerelease.splitOn dot, PrereleaseIdentifier id := by
  rw [parse_eq] at h
  obtain ⟨s, hvalid, -, -, hspells⟩ := parseBare_sound h
  have hids : ∀ id ∈ s.prerelease, BuildIdentifier id := fun id hid ↦ (hvalid.prerelease id hid).1
  have hnil : s.prerelease ≠ [] := by
    intro hnil
    exact hne (hspells.prerelease.trans ((joinWith_eq_nil hids).mpr hnil))
  rw [hspells.prerelease, splitOn_joinWith hnil hids]
  exact hvalid.prerelease

theorem cmp_compares {s t : Bytes} (ha : parse s = some a) (hb : parse t = some b) :
    (cmp a b).Compares a.precedence b.precedence := by
  apply then_compares (compare_uint32_compares a.major b.major)
  intro _
  apply then_compares (compare_uint32_compares a.minor b.minor)
  intro _
  apply then_compares (compare_uint32_compares a.patch b.patch)
  intro _
  exact comparePrerelease_compares (prereleaseIdentifiers ha) (prereleaseIdentifiers hb)

theorem same_iff : same a b = true ↔
    { a with build := b.build, build_valid := b.build_valid } = b := by
  obtain ⟨_, _, _, _, _, _, _⟩ := a
  obtain ⟨_, _, _, _, _, _, _⟩ := b
  simp [same]

/-- On the versions that are read, `operator<=>` is the order of SemVer 2.0.0: a total order up to
`operator==`, which leaves out the build metadata alone. -/
theorem precedence_order {r s t : Bytes} (ha : parse r = some a) (hb : parse s = some b)
    (hc : parse t = some c) :
    cmp a a = .eq ∧ (cmp a b ≠ .gt → cmp b a ≠ .gt → same a b = true) ∧
      (cmp a b ≠ .gt → cmp b c ≠ .gt → cmp a c ≠ .gt) ∧ (cmp a b ≠ .gt ∨ cmp b a ≠ .gt) ∧
      (cmp a b = .eq ↔ same a b = true) ∧
      (same a b = true ↔ { a with build := b.build, build_valid := b.build_valid } = b) ∧
      (cmp a b).Compares a.precedence b.precedence := by
  have hab := cmp_compares ha hb
  have hba := cmp_compares hb ha
  have hbc := cmp_compares hb hc
  have hac := cmp_compares ha hc
  refine ⟨(cmp_compares ha ha).eq_eq.mpr rfl, fun hle hge ↦ ?_, fun hle hle' ↦ ?_, ?_, cmp_eq_iff,
    same_iff, hab⟩
  · rw [← cmp_eq_iff, hab.eq_eq]
    exact le_antisymm (hab.ne_gt.mp hle) (hba.ne_gt.mp hge)
  · exact hac.ne_gt.mpr ((hab.ne_gt.mp hle).trans (hbc.ne_gt.mp hle'))
  · rw [hab.ne_gt, hba.ne_gt]
    exact le_total _ _

theorem candidate_order : ∃ a b c, parse (ascii "1.0.0-rc.2") = some a ∧
    parse (ascii "1.0.0-rc.10000000000") = some b ∧ parse (ascii "1.0.0+build") = some c ∧
      a.precedence < b.precedence ∧ cmp a c ≠ .gt := by
  have ha : parse (ascii "1.0.0-rc.2") =
      some ⟨1, 0, 0, ascii "rc.2", [], .inr (by decide), noSuffix_valid⟩ := by decide +kernel
  have hb : parse (ascii "1.0.0-rc.10000000000") =
      some ⟨1, 0, 0, ascii "rc.10000000000", [], .inr (by decide), noSuffix_valid⟩ := by
    decide +kernel
  have hc : parse (ascii "1.0.0+build") =
      some ⟨1, 0, 0, [], ascii "build", noSuffix_valid, .inr (by decide)⟩ := by decide +kernel
  obtain ⟨-, -, htrans, -, -, -, hcompares⟩ := precedence_order ha hb hc
  refine ⟨_, _, _, ha, hb, hc, hcompares.eq_lt.mp ?_, htrans ?_ ?_⟩ <;> decide +kernel

end Version

end SquaredPg
