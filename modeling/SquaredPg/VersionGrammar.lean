import SquaredPg.Version
import Mathlib.Tactic.Linarith
import Mathlib.Tactic.Positivity
import Mathlib.Tactic.Ring

namespace SquaredPg

open Ascii

structure NumericIdentifier (ds : Bytes) : Prop where
  nonempty : ds ≠ []
  digits : ∀ c ∈ ds, isDigit c = true
  no_leading_zero : 1 < ds.length → ds.head? ≠ some zero

structure BuildIdentifier (part : Bytes) : Prop where
  nonempty : part ≠ []
  chars : ∀ c ∈ part, isIdentifierChar c = true

structure PrereleaseIdentifier (part : Bytes) : Prop extends BuildIdentifier part where
  numeric : allDigits part = true → NumericIdentifier part

/-- How a version is spelled. Without identifiers, a suffix is left out. -/
structure Spelling where
  major : Bytes
  minor : Bytes
  patch : Bytes
  prerelease : List Bytes := []
  build : List Bytes := []

namespace Spelling

def suffix (sign : UInt8) (ids : List Bytes) : Bytes :=
  if ids = [] then [] else sign :: joinWith [dot] ids

def core (s : Spelling) : Bytes := s.major ++ dot :: s.minor ++ dot :: s.patch

def front (s : Spelling) : Bytes := s.core ++ suffix minus s.prerelease

def text (s : Spelling) : Bytes := s.front ++ suffix plus s.build

/-- A version as SemVer 2.0.0 spells it. -/
structure Valid (s : Spelling) : Prop where
  major : NumericIdentifier s.major
  minor : NumericIdentifier s.minor
  patch : NumericIdentifier s.patch
  prerelease : ∀ id ∈ s.prerelease, PrereleaseIdentifier id
  build : ∀ id ∈ s.build, BuildIdentifier id

/-- The numbers have nine digits at most. -/
def Short (s : Spelling) : Prop := s.major.length ≤ 9 ∧ s.minor.length ≤ 9 ∧ s.patch.length ≤ 9

end Spelling

/-- The version holds the values of the numbers, and the suffixes as they are spelled. -/
structure Version.Spells (v : Version) (s : Spelling) : Prop where
  major : v.major.toNat = digitsValue s.major
  minor : v.minor.toNat = digitsValue s.minor
  patch : v.patch.toNat = digitsValue s.patch
  prerelease : v.prerelease = joinWith [dot] s.prerelease
  build : v.build = joinWith [dot] s.build

def Version.bare (text : Bytes) : Bytes :=
  if (trim text).head? = some 118 ∨ (trim text).head? = some 86 then (trim text).tail else trim text

variable {sep : UInt8} {text a b ds : Bytes} {parts ids : List Bytes}

theorem cutAt_of_not_mem (h : sep ∉ text) : cutAt sep text = (text, none) := by
  induction text with
  | nil => rfl
  | cons c text ih =>
    have hc : c ≠ sep := fun heq ↦ h (by simp [heq])
    rw [cutAt, if_neg hc, ih fun hmem ↦ h (by simp [hmem])]

theorem cutAt_append (h : sep ∉ a) : cutAt sep (a ++ sep :: b) = (a, some b) := by
  induction a with
  | nil => exact if_pos rfl
  | cons c a ih =>
    have hc : c ≠ sep := fun heq ↦ h (by simp [heq])
    rw [List.cons_append, cutAt, if_neg hc, ih fun hmem ↦ h (by simp [hmem])]

theorem of_cutAt_none (h : cutAt sep text = (a, none)) : text = a := by
  by_cases hsep : sep ∈ text
  · obtain ⟨before, after, rfl, hbefore⟩ := List.eq_append_cons_of_mem hsep
    rw [cutAt_append hbefore] at h
    cases h
  · rw [cutAt_of_not_mem hsep] at h
    exact congrArg Prod.fst h

theorem of_cutAt_some (h : cutAt sep text = (a, some b)) : text = a ++ sep :: b := by
  by_cases hsep : sep ∈ text
  · obtain ⟨before, after, rfl, hbefore⟩ := List.eq_append_cons_of_mem hsep
    rw [cutAt_append hbefore] at h
    cases h
    rfl
  · rw [cutAt_of_not_mem hsep] at h
    cases h

theorem mem_joinWith {c : UInt8} (h : c ∈ joinWith [sep] parts) : c = sep ∨ ∃ part ∈ parts, c ∈ part := by
  induction parts with
  | nil => simp [joinWith] at h
  | cons part parts ih =>
    rcases parts with _ | ⟨next, parts⟩
    · exact .inr ⟨part, by simp, by simpa [joinWith] using h⟩
    · rw [joinWith, List.intercalate_cons_cons, ← joinWith] at h
      simp only [List.append_assoc, List.mem_append, List.mem_singleton] at h
      rcases h with h | h | h
      · exact .inr ⟨part, by simp, h⟩
      · exact .inl h
      · rcases ih h with h | ⟨p, hp, h⟩
        · exact .inl h
        · exact .inr ⟨p, by simp [hp], h⟩

theorem not_mem_of_mem_splitOn {part : Bytes} (h : part ∈ text.splitOn sep) : sep ∉ part := by
  induction text generalizing part with
  | nil =>
    obtain rfl : part = [] := by simpa using h
    simp
  | cons c text ih =>
    rw [List.splitOn_cons_eq_if_modifyHead] at h
    obtain ⟨first, others, heq⟩ := List.exists_cons_of_ne_nil (List.splitOn_ne_nil sep text)
    rw [heq] at ih h
    split_ifs at h with hc
    · rcases List.mem_cons.mp h with rfl | h
      · simp
      · exact ih h
    · rw [List.modifyHead_cons] at h
      rcases List.mem_cons.mp h with rfl | h
      · have hfirst : sep ∉ first := ih (by simp)
        have hne : sep ≠ c := fun hs ↦ hc (by simp [hs])
        simpa [hne] using hfirst
      · exact ih (by simp [h])

theorem splitOn_eq_iff (hparts : parts ≠ []) :
    text.splitOn sep = parts ↔ text = joinWith [sep] parts ∧ ∀ part ∈ parts, sep ∉ part := by
  constructor
  · rintro rfl
    exact ⟨(List.intercalate_splitOn sep).symm, fun _ ↦ not_mem_of_mem_splitOn⟩
  · rintro ⟨rfl, h⟩
    exact List.splitOn_intercalate sep h hparts

theorem digit_le {c : UInt8} (h : isDigit c = true) : c.toNat - 48 ≤ 9 := by
  have hc := isDigit_iff.mp h
  omega

theorem foldl_digits (ds : Bytes) (n : ℕ) :
    ds.foldl (fun n d ↦ n * 10 + (d.toNat - 48)) n = n * 10 ^ ds.length + digitsValue ds := by
  induction ds generalizing n with
  | nil => simp [digitsValue]
  | cons d ds ih =>
    rw [digitsValue, List.foldl_cons, List.foldl_cons, ih, ih, List.length_cons, pow_succ]
    ring

theorem digitsValue_cons (d : UInt8) (ds : Bytes) :
    digitsValue (d :: ds) = (d.toNat - 48) * 10 ^ ds.length + digitsValue ds := by
  rw [digitsValue, List.foldl_cons, foldl_digits, Nat.zero_mul, Nat.zero_add]

theorem digitsValue_lt (h : ∀ c ∈ ds, isDigit c = true) : digitsValue ds < 10 ^ ds.length := by
  induction ds with
  | nil => simp [digitsValue]
  | cons d ds ih =>
    have hd := digit_le (h d (by simp))
    have hrest := ih fun c hc ↦ h c (by simp [hc])
    rw [digitsValue_cons, List.length_cons, pow_succ]
    have hmul : (d.toNat - 48) * 10 ^ ds.length ≤ 9 * 10 ^ ds.length := Nat.mul_le_mul_right _ hd
    omega

theorem toNat_digit {c : UInt8} (h : isDigit c = true) : (c.toUInt32 - 48).toNat = c.toNat - 48 := by
  have hc := isDigit_iff.mp h
  have hle : (48 : UInt32) ≤ c.toUInt32 := by
    rw [UInt32.le_iff_toNat_le, UInt8.toNat_toUInt32]
    exact hc.1
  rw [UInt32.toNat_sub_of_le _ _ hle, UInt8.toNat_toUInt32]
  rfl

theorem foldlM_digits {value : UInt32} (h : ∀ c ∈ ds, isDigit c = true)
    (hfits : (value.toNat + 1) * 10 ^ ds.length ≤ 2 ^ 32) :
    ∃ n, ds.foldlM (fun value c ↦ if isDigit c then some (value * 10 + (c.toUInt32 - 48)) else none)
        value = some n ∧ n.toNat = value.toNat * 10 ^ ds.length + digitsValue ds := by
  induction ds generalizing value with
  | nil => exact ⟨value, rfl, by simp [digitsValue]⟩
  | cons d ds ih =>
    have hd := h d (by simp)
    have hlt := digit_le hd
    rw [List.length_cons, pow_succ, Nat.mul_comm _ 10, ← Nat.mul_assoc] at hfits
    have hbound : (value.toNat + 1) * 10 ≤ 2 ^ 32 :=
      (Nat.le_mul_of_pos_right _ (by positivity)).trans hfits
    have hvalue : (value * 10 + (d.toUInt32 - 48)).toNat = value.toNat * 10 + (d.toNat - 48) := by
      have hten : (10 : UInt32).toNat = 10 := by decide
      rw [UInt32.toNat_add, UInt32.toNat_mul, toNat_digit hd, hten]
      omega
    have hnext : ((value * 10 + (d.toUInt32 - 48)).toNat + 1) * 10 ^ ds.length ≤ 2 ^ 32 := by
      rw [hvalue]
      exact (Nat.mul_le_mul_right _ (by omega)).trans hfits
    obtain ⟨n, hrun, hn⟩ := ih (fun c hc ↦ h c (by simp [hc])) hnext
    refine ⟨n, ?_, ?_⟩
    · rw [List.foldlM_cons, if_pos hd]
      exact hrun
    · rw [hn, hvalue, digitsValue_cons, List.length_cons, pow_succ]
      ring

theorem foldlM_not_digits {value : UInt32} {c : UInt8} (hc : c ∈ ds) (h : isDigit c = false) :
    ds.foldlM (fun value c ↦ if isDigit c then some (value * 10 + (c.toUInt32 - 48)) else none)
      value = none := by
  induction ds generalizing value with
  | nil => cases hc
  | cons d ds ih =>
    rw [List.foldlM_cons]
    split_ifs with hd
    · rcases List.mem_cons.mp hc with rfl | hc
      · rw [h] at hd
        cases hd
      · exact ih hc
    · rfl

theorem parseNumeric_eq_some {n : UInt32} : parseNumeric ds = some n ↔
    NumericIdentifier ds ∧ ds.length ≤ 9 ∧ n.toNat = digitsValue ds := by
  unfold parseNumeric
  split_ifs with hlength hzero
  · simp only [false_iff, not_and]
    intro hds hle
    rcases hlength with hnil | hlong
    · exact absurd hnil hds.nonempty
    · omega
  · simp only [false_iff, not_and]
    exact fun hds ↦ absurd hzero.2 (hds.no_leading_zero hzero.1)
  · rw [not_or] at hlength
    by_cases hdigits : ∀ c ∈ ds, isDigit c = true
    · have hfits : ((0 : UInt32).toNat + 1) * 10 ^ ds.length ≤ 2 ^ 32 := by
        have hpow : 10 ^ ds.length ≤ 10 ^ 9 := Nat.pow_le_pow_right (by omega) (by omega)
        simp only [UInt32.reduceToNat, Nat.zero_add, Nat.one_mul]
        omega
      obtain ⟨m, hrun, hm⟩ := foldlM_digits hdigits hfits
      have hvalue : m.toNat = digitsValue ds := by simpa using hm
      rw [hrun, Option.some.injEq]
      constructor
      · rintro rfl
        exact ⟨⟨hlength.1, hdigits, fun hlt heq ↦ hzero ⟨hlt, heq⟩⟩, by omega, hvalue⟩
      · rintro ⟨-, -, hn⟩
        exact UInt32.toNat_inj.mp (hvalue.trans hn.symm)
    · obtain ⟨c, hc, hnot⟩ : ∃ c ∈ ds, isDigit c = false := by simpa using hdigits
      rw [foldlM_not_digits hc hnot]
      simp only [reduceCtorEq, false_iff, not_and]
      exact fun hds ↦ absurd hds.digits hdigits

theorem le_digitsValue (h : NumericIdentifier ds) (hlong : 1 < ds.length) :
    10 ^ (ds.length - 1) ≤ digitsValue ds := by
  obtain ⟨d, rest, rfl⟩ := List.exists_cons_of_ne_nil h.nonempty
  have hd : 1 ≤ d.toNat - 48 := by
    have hdigit := isDigit_iff.mp (h.digits d (by simp))
    have hzero : d ≠ zero := fun heq ↦ h.no_leading_zero hlong (by simp [heq])
    rw [ne_eq, ← UInt8.toNat_inj] at hzero
    have h48 : zero.toNat = 48 := rfl
    omega
  rw [digitsValue_cons, List.length_cons, Nat.add_sub_cancel]
  exact (Nat.le_mul_of_pos_left _ hd).trans (Nat.le_add_right _ _)

theorem digitsValue_lt_of_length (ha : NumericIdentifier a) (hb : NumericIdentifier b)
    (hlen : a.length < b.length) : digitsValue a < digitsValue b := by
  have hpos := List.length_pos_iff.mpr ha.nonempty
  have hpow : 10 ^ a.length ≤ 10 ^ (b.length - 1) := Nat.pow_le_pow_right (by omega) (by omega)
  have hlt := digitsValue_lt ha.digits
  have hle := le_digitsValue hb (by omega)
  omega

theorem compare_toNat (c d : UInt8) : compare c.toNat d.toNat = compare c d := by
  simp only [compare, compareOfLessAndEq, UInt8.lt_iff_toNat_lt, UInt8.toNat_inj]

theorem compare_digitsValue_of_length (ha : ∀ c ∈ a, isDigit c = true)
    (hb : ∀ c ∈ b, isDigit c = true) (hlen : a.length = b.length) :
    compare (digitsValue a) (digitsValue b) = List.compareLex compare a b := by
  induction a generalizing b with
  | nil =>
    obtain rfl : b = [] := List.length_eq_zero_iff.mp hlen.symm
    rfl
  | cons c a ih =>
    obtain ⟨d, b, rfl⟩ := List.exists_cons_of_length_eq_add_one hlen.symm
    have hlen' : a.length = b.length := by simpa using hlen
    have hc := isDigit_iff.mp (ha c (by simp))
    have hd := isDigit_iff.mp (hb d (by simp))
    have hrest := ih (fun x hx ↦ ha x (by simp [hx])) (fun x hx ↦ hb x (by simp [hx])) hlen'
    have hca := digitsValue_lt fun x hx ↦ ha x (List.mem_cons_of_mem c hx)
    have hdb := digitsValue_lt fun x hx ↦ hb x (List.mem_cons_of_mem d hx)
    rw [List.compareLex_cons_cons, ← hrest, digitsValue_cons, digitsValue_cons, hlen']
    rw [hlen'] at hca
    rcases lt_trichotomy c.toNat d.toNat with hlt | heq | hgt
    · have hmul : (c.toNat - 48 + 1) * 10 ^ b.length ≤ (d.toNat - 48) * 10 ^ b.length :=
        Nat.mul_le_mul_right _ (by omega)
      rw [← compare_toNat, compare_lt_iff_lt.mpr hlt, Ordering.lt_then, compare_lt_iff_lt]
      rw [Nat.succ_mul] at hmul
      omega
    · rw [← compare_toNat, heq, compare_eq_iff_eq.mpr rfl, Ordering.eq_then]
      simp only [Nat.compare_eq_ite_lt, Nat.add_lt_add_iff_left]
    · have hmul : (d.toNat - 48 + 1) * 10 ^ b.length ≤ (c.toNat - 48) * 10 ^ b.length :=
        Nat.mul_le_mul_right _ (by omega)
      rw [← compare_toNat, compare_gt_iff_gt.mpr hgt, Ordering.gt_then, compare_gt_iff_gt]
      rw [Nat.succ_mul] at hmul
      omega

theorem compare_digitsValue (ha : NumericIdentifier a) (hb : NumericIdentifier b) :
    compare (digitsValue a) (digitsValue b) =
      (compare a.length b.length).then (List.compareLex compare a b) := by
  rcases lt_trichotomy a.length b.length with hlt | heq | hgt
  · rw [compare_lt_iff_lt.mpr hlt, Ordering.lt_then, compare_lt_iff_lt]
    exact digitsValue_lt_of_length ha hb hlt
  · rw [compare_eq_iff_eq.mpr heq, Ordering.eq_then]
    exact compare_digitsValue_of_length ha.digits hb.digits heq
  · rw [compare_gt_iff_gt.mpr hgt, Ordering.gt_then, compare_gt_iff_gt]
    exact digitsValue_lt_of_length hb ha hgt

theorem NumericIdentifier.decimal (n : ℕ) : NumericIdentifier (decimal n) where
  nonempty := decimal_ne_nil n
  digits _ := decimal_digits
  no_leading_zero hlong := by
    rcases Nat.eq_zero_or_pos n with rfl | hn
    · exact absurd hlong (by decide)
    · exact head_decimal hn

theorem decimal_digitsValue (h : NumericIdentifier ds) : decimal (digitsValue ds) = ds := by
  have hcompare := compare_digitsValue (NumericIdentifier.decimal (digitsValue ds)) h
  rw [digitsValue_decimal, compare_eq_iff_eq.mpr rfl, eq_comm, Ordering.then_eq_eq] at hcompare
  exact Std.LawfulEqCmp.eq_of_compare hcompare.2

theorem dot_not_mem {part : Bytes} (h : ∀ c ∈ part, isIdentifierChar c = true) : dot ∉ part :=
  fun hdot ↦ absurd (h dot hdot) (by decide)

theorem identifierChar_of_digit {c : UInt8} (h : isDigit c = true) : isIdentifierChar c = true := by
  simp [isIdentifierChar, h]

theorem NumericIdentifier.chars (h : NumericIdentifier ds) : ∀ c ∈ ds, isIdentifierChar c = true :=
  fun c hc ↦ identifierChar_of_digit (h.digits c hc)

theorem NumericIdentifier.not_mem {c : UInt8} (h : NumericIdentifier ds) (hc : isDigit c = false) :
    c ∉ ds := by
  intro hmem
  rw [h.digits c hmem] at hc
  cases hc

theorem joinWith_eq_nil (h : ∀ id ∈ ids, BuildIdentifier id) : joinWith [dot] ids = [] ↔ ids = [] := by
  constructor
  · intro hnil
    rcases ids with _ | ⟨id, _ | ⟨next, ids⟩⟩
    · rfl
    · exact absurd (by simpa [joinWith] using hnil) (h id (by simp)).nonempty
    · simp [joinWith, List.intercalate_cons_cons] at hnil
  · rintro rfl
    rfl

theorem splitOn_joinWith (hids : ids ≠ []) (h : ∀ id ∈ ids, BuildIdentifier id) :
    (joinWith [dot] ids).splitOn dot = ids :=
  (splitOn_eq_iff hids).mpr ⟨rfl, fun id hid ↦ dot_not_mem (h id hid).chars⟩

theorem validDotSeparated_iff : validDotSeparated text = true ↔
    text.splitOn dot ≠ [] ∧ ∀ id ∈ text.splitOn dot, BuildIdentifier id := by
  simp only [validDotSeparated, decide_eq_true_eq, List.all_eq_true, Bool.decide_and,
    Bool.and_eq_true]
  constructor
  · intro ⟨_, hparts⟩
    exact ⟨List.splitOn_ne_nil dot text, fun id hid ↦ ⟨(hparts id hid).1, (hparts id hid).2⟩⟩
  · intro ⟨_, hparts⟩
    refine ⟨?_, fun id hid ↦ ⟨(hparts id hid).nonempty, (hparts id hid).chars⟩⟩
    rintro rfl
    exact (hparts [] (by simp)).nonempty rfl

theorem validDotSeparated_joinWith (hids : ids ≠ []) (h : ∀ id ∈ ids, BuildIdentifier id) :
    validDotSeparated (joinWith [dot] ids) = true := by
  rw [validDotSeparated_iff, splitOn_joinWith hids h]
  exact ⟨hids, h⟩

theorem hasLeadingZero_eq_false {part : Bytes} (h : BuildIdentifier part) :
    hasLeadingZero part = false ↔ PrereleaseIdentifier part := by
  have hzero : hasLeadingZero part = true ↔
      allDigits part = true ∧ 1 < part.length ∧ part.head? = some zero := by
    simp [hasLeadingZero]
  rw [← Bool.not_eq_true, hzero]
  constructor
  · intro hnot
    refine ⟨h, fun hdigits ↦ ⟨h.nonempty, ?_, fun hlong hhead ↦ hnot ⟨hdigits, hlong, hhead⟩⟩⟩
    simpa [allDigits, h.nonempty] using hdigits
  · exact fun hpart ⟨hdigits, hlong, hhead⟩ ↦ (hpart.numeric hdigits).no_leading_zero hlong hhead

namespace Version

variable {v : Version} {prerelease build : Bytes} {s : Spelling}

theorem parseCore_eq_some {hp : prerelease = [] ∨ validDotSeparated prerelease = true}
    {hb : build = [] ∨ validDotSeparated build = true} :
    parseCore text prerelease build hp hb = some v ↔ ∃ first second third,
      text = first ++ dot :: second ++ dot :: third ∧
      (NumericIdentifier first ∧ first.length ≤ 9 ∧ v.major.toNat = digitsValue first) ∧
      (NumericIdentifier second ∧ second.length ≤ 9 ∧ v.minor.toNat = digitsValue second) ∧
      (NumericIdentifier third ∧ third.length ≤ 9 ∧ v.patch.toNat = digitsValue third) ∧
      v.prerelease = prerelease ∧ v.build = build := by
  have hdigit : isDigit dot = false := by decide
  have hjoin : ∀ first second third : Bytes,
      joinWith [dot] [first, second, third] = first ++ dot :: second ++ dot :: third := by
    intro first second third
    simp [joinWith, List.intercalate_cons_cons]
  unfold parseCore
  constructor
  · intro h
    split at h
    · rename_i first second third hsplit
      obtain ⟨htext, -⟩ := (splitOn_eq_iff (by simp)).mp hsplit
      simp only [Option.bind_eq_bind, Option.bind_eq_some_iff, Option.pure_def, Option.some.injEq] at h
      obtain ⟨major, hmajor, minor, hminor, patch, hpatch, rfl⟩ := h
      exact ⟨first, second, third, htext.trans (hjoin _ _ _), parseNumeric_eq_some.mp hmajor,
        parseNumeric_eq_some.mp hminor, parseNumeric_eq_some.mp hpatch, rfl, rfl⟩
    · cases h
  · rintro ⟨first, second, third, rfl, hmajor, hminor, hpatch, rfl, rfl⟩
    have hsplit : (first ++ dot :: second ++ dot :: third).splitOn dot = [first, second, third] := by
      rw [← hjoin, splitOn_eq_iff (by simp)]
      refine ⟨rfl, ?_⟩
      simp only [List.mem_cons, List.not_mem_nil, or_false, forall_eq_or_imp, forall_eq]
      exact ⟨hmajor.1.not_mem hdigit, hminor.1.not_mem hdigit, hpatch.1.not_mem hdigit⟩
    rw [hsplit]
    simp only [parseNumeric_eq_some.mpr hmajor, parseNumeric_eq_some.mpr hminor,
      parseNumeric_eq_some.mpr hpatch, Option.bind_eq_bind, Option.bind_some, Option.pure_def]

theorem exists_number (h : NumericIdentifier ds) (hshort : ds.length ≤ 9) :
    ∃ n : UInt32, n.toNat = digitsValue ds := by
  have hlt := digitsValue_lt h.digits
  have hpow : 10 ^ ds.length ≤ 10 ^ 9 := Nat.pow_le_pow_right (by omega) hshort
  exact ⟨UInt32.ofNat (digitsValue ds), UInt32.toNat_ofNat_of_lt' (by simp only [UInt32.size]; omega)⟩

theorem core_chars (h : s.Valid) {c : UInt8} (hc : c ∈ s.core) : c = dot ∨ isDigit c = true := by
  simp only [Spelling.core, List.append_assoc, List.cons_append, List.mem_append,
    List.mem_cons] at hc
  rcases hc with hc | hc | hc | hc | hc
  · exact .inr (h.major.digits c hc)
  · exact .inl hc
  · exact .inr (h.minor.digits c hc)
  · exact .inl hc
  · exact .inr (h.patch.digits c hc)

theorem minus_not_mem_core (h : s.Valid) : minus ∉ s.core := by
  intro hmem
  rcases core_chars h hmem with heq | hdigit
  · exact absurd heq (by decide)
  · exact absurd hdigit (by decide)

theorem front_chars (h : s.Valid) {c : UInt8} (hc : c ∈ s.front) :
    c = dot ∨ isIdentifierChar c = true := by
  rw [Spelling.front, Spelling.suffix, List.mem_append] at hc
  rcases hc with hc | hc
  · exact (core_chars h hc).imp_right identifierChar_of_digit
  · split_ifs at hc
    · cases hc
    · rcases List.mem_cons.mp hc with rfl | hc
      · exact .inr (by decide)
      · rcases mem_joinWith hc with rfl | ⟨id, hid, hc⟩
        · exact .inl rfl
        · exact .inr ((h.prerelease id hid).chars c hc)

theorem plus_not_mem_front (h : s.Valid) : plus ∉ s.front := by
  intro hmem
  rcases front_chars h hmem with heq | hchar
  · exact absurd heq (by decide)
  · exact absurd hchar (by decide)

structure Opens (v : Version) (s : Spelling) : Prop where
  major : v.major.toNat = digitsValue s.major
  minor : v.minor.toNat = digitsValue s.minor
  patch : v.patch.toNat = digitsValue s.patch
  prerelease : v.prerelease = joinWith [dot] s.prerelease

theorem exists_parsePrerelease (h : s.Valid) (hshort : s.Short)
    (hb : build = [] ∨ validDotSeparated build = true) :
    ∃ v, parsePrerelease s.front build hb = some v ∧ v.Opens s ∧ v.build = build := by
  obtain ⟨major, hmajor⟩ := exists_number h.major hshort.1
  obtain ⟨minor, hminor⟩ := exists_number h.minor hshort.2.1
  obtain ⟨patch, hpatch⟩ := exists_number h.patch hshort.2.2
  have hcore : ∀ prerelease hp, parseCore s.core prerelease build hp hb =
      some ⟨major, minor, patch, prerelease, build, hp, hb⟩ := by
    intro prerelease hp
    exact parseCore_eq_some.mpr ⟨s.major, s.minor, s.patch, rfl, ⟨h.major, hshort.1, hmajor⟩,
      ⟨h.minor, hshort.2.1, hminor⟩, ⟨h.patch, hshort.2.2, hpatch⟩, rfl, rfl⟩
  by_cases hids : s.prerelease = []
  · refine ⟨⟨major, minor, patch, [], build, noSuffix_valid, hb⟩, ?_, ⟨hmajor, hminor, hpatch, ?_⟩, rfl⟩
    · rw [parsePrerelease, Spelling.front, Spelling.suffix, if_pos hids, List.append_nil,
        cutAt_of_not_mem (minus_not_mem_core h)]
      exact hcore [] noSuffix_valid
    · rw [hids]
      rfl
  · have hbuild : ∀ id ∈ s.prerelease, BuildIdentifier id := fun id hid ↦ (h.prerelease id hid).1
    have hvalid := validDotSeparated_joinWith hids hbuild
    have hzeros : ((joinWith [dot] s.prerelease).splitOn dot).any hasLeadingZero = false := by
      rw [splitOn_joinWith hids hbuild, List.any_eq_false]
      intro id hid
      rw [Bool.not_eq_true]
      exact (hasLeadingZero_eq_false (hbuild id hid)).mpr (h.prerelease id hid)
    refine ⟨⟨major, minor, patch, _, build, .inr hvalid, hb⟩, ?_, ⟨hmajor, hminor, hpatch, rfl⟩, rfl⟩
    rw [parsePrerelease, Spelling.front, Spelling.suffix, if_neg hids,
      cutAt_append (minus_not_mem_core h)]
    dsimp only
    rw [dif_pos hvalid, hzeros]
    exact hcore _ (.inr hvalid)

theorem parsePrerelease_sound {hb : build = [] ∨ validDotSeparated build = true}
    (h : parsePrerelease text build hb = some v) :
    ∃ s : Spelling, s.build = [] ∧ s.Valid ∧ s.Short ∧ s.front = text ∧ v.Opens s ∧
      v.build = build := by
  have hnone : ∀ id ∈ ([] : List Bytes), BuildIdentifier id := by simp
  unfold parsePrerelease at h
  split at h
  · rename_i core hcut
    obtain ⟨first, second, third, rfl, hmajor, hminor, hpatch, hprerelease, hbuild⟩ :=
      parseCore_eq_some.mp h
    refine ⟨⟨first, second, third, [], []⟩, rfl, ⟨hmajor.1, hminor.1, hpatch.1, by simp, hnone⟩,
      ⟨hmajor.2.1, hminor.2.1, hpatch.2.1⟩, ?_,
      ⟨hmajor.2.2, hminor.2.2, hpatch.2.2, hprerelease⟩, hbuild⟩
    rw [of_cutAt_none hcut, Spelling.front, Spelling.suffix, if_pos rfl, List.append_nil]
    rfl
  · rename_i core prerelease hcut
    split_ifs at h with hvalid hzeros
    obtain ⟨first, second, third, rfl, hmajor, hminor, hpatch, hprerelease, hbuild⟩ :=
      parseCore_eq_some.mp h
    obtain ⟨hne, hids⟩ := validDotSeparated_iff.mp hvalid
    have hjoin : joinWith [dot] (prerelease.splitOn dot) = prerelease :=
      List.intercalate_splitOn dot
    refine ⟨⟨first, second, third, prerelease.splitOn dot, []⟩, rfl,
      ⟨hmajor.1, hminor.1, hpatch.1, fun id hid ↦ ?_, hnone⟩,
      ⟨hmajor.2.1, hminor.2.1, hpatch.2.1⟩, ?_,
      ⟨hmajor.2.2, hminor.2.2, hpatch.2.2, hprerelease.trans hjoin.symm⟩, hbuild⟩
    · rw [Bool.not_eq_true, List.any_eq_false] at hzeros
      exact (hasLeadingZero_eq_false (hids id hid)).mp (by simpa using hzeros id hid)
    · rw [of_cutAt_some hcut, Spelling.front, Spelling.suffix, if_neg hne, hjoin]
      rfl

theorem suffix_valid (h : validDotSeparated build = true) :
    build = [] ∨ validDotSeparated build = true := .inr h

def parseBare (text : Bytes) : Option Version :=
  (cutAt plus text).2.elim (parsePrerelease (cutAt plus text).1 [] noSuffix_valid) fun build ↦
    if hb : validDotSeparated build = true then
      parsePrerelease (cutAt plus text).1 build (suffix_valid hb)
    else none

theorem parse_eq (text : Bytes) : parse text = parseBare (bare text) := by
  unfold parse bare parseBare
  by_cases hnil : trim text = []
  · rw [hnil]
    rfl
  · refine (if_neg hnil).trans ?_
    generalize (if (trim text).head? = some 118 ∨ (trim text).head? = some 86 then
      (trim text).tail else trim text) = rest
    dsimp only
    rcases cutAt plus rest with ⟨front, _ | build⟩ <;> rfl

theorem exists_parseBare (h : s.Valid) (hshort : s.Short) :
    ∃ v, parseBare s.text = some v ∧ v.Spells s := by
  by_cases hids : s.build = []
  · obtain ⟨v, hparse, hopens, hbuild⟩ := exists_parsePrerelease h hshort noSuffix_valid
    refine ⟨v, ?_, hopens.major, hopens.minor, hopens.patch, hopens.prerelease, ?_⟩
    · rw [parseBare, Spelling.text, Spelling.suffix, if_pos hids, List.append_nil,
        cutAt_of_not_mem (plus_not_mem_front h)]
      exact hparse
    · rw [hbuild, hids]
      rfl
  · have hvalid := validDotSeparated_joinWith hids h.build
    obtain ⟨v, hparse, hopens, hbuild⟩ := exists_parsePrerelease h hshort (.inr hvalid)
    refine ⟨v, ?_, hopens.major, hopens.minor, hopens.patch, hopens.prerelease, hbuild⟩
    rw [parseBare, Spelling.text, Spelling.suffix, if_neg hids, cutAt_append (plus_not_mem_front h),
      Option.elim_some, dif_pos hvalid]
    exact hparse

theorem parseBare_sound (h : parseBare text = some v) :
    ∃ s : Spelling, s.Valid ∧ s.Short ∧ s.text = text ∧ v.Spells s := by
  unfold parseBare at h
  rcases hcut : cutAt plus text with ⟨rest, _ | build⟩
  · rw [hcut] at h
    obtain ⟨s, hs, hvalid, hshort, hfront, hopens, hbuild⟩ := parsePrerelease_sound h
    refine ⟨s, hvalid, hshort, ?_, hopens.major, hopens.minor, hopens.patch, hopens.prerelease, ?_⟩
    · rw [of_cutAt_none hcut, Spelling.text, Spelling.suffix, if_pos hs, List.append_nil, hfront]
    · rw [hbuild, hs]
      rfl
  · simp only [hcut, Option.elim_some] at h
    split_ifs at h with hb
    obtain ⟨s, hs, hvalid, hshort, hfront, hopens, hbuild⟩ := parsePrerelease_sound h
    obtain ⟨hne, hids⟩ := validDotSeparated_iff.mp hb
    have hjoin : joinWith [dot] (build.splitOn dot) = build := List.intercalate_splitOn dot
    refine ⟨{ s with build := build.splitOn dot },
      ⟨hvalid.major, hvalid.minor, hvalid.patch, hvalid.prerelease, hids⟩, hshort, ?_,
      hopens.major, hopens.minor, hopens.patch, hopens.prerelease, hbuild.trans hjoin.symm⟩
    rw [of_cutAt_some hcut, ← hfront, Spelling.text, Spelling.suffix, if_neg hne, hjoin]
    rfl

/-- `Version::parse` accepts exactly the versions of SemVer 2.0.0 with numbers of nine digits at
most, behind blanks and one `v`, and hands back what is spelled. -/
theorem parse_grammar (text : Bytes) :
    ((parse text).isSome = true ↔ ∃ s : Spelling, s.Valid ∧ s.Short ∧ s.text = bare text) ∧
      ∀ s : Spelling, s.Valid → s.Short → s.text = bare text →
        ∃ v, parse text = some v ∧ v.Spells s := by
  have hcomplete : ∀ s : Spelling, s.Valid → s.Short → s.text = bare text →
      ∃ v, parse text = some v ∧ v.Spells s := by
    intro s hvalid hshort htext
    rw [parse_eq, ← htext]
    exact exists_parseBare hvalid hshort
  refine ⟨⟨fun h ↦ ?_, fun ⟨s, hvalid, hshort, htext⟩ ↦ ?_⟩, hcomplete⟩
  · obtain ⟨v, hv⟩ := Option.isSome_iff_exists.mp h
    rw [parse_eq] at hv
    obtain ⟨s, hvalid, hshort, htext, -⟩ := parseBare_sound hv
    exact ⟨s, hvalid, hshort, htext⟩
  · obtain ⟨v, hv, -⟩ := hcomplete s hvalid hshort htext
    rw [hv]
    rfl

theorem text_chars (h : s.Valid) {c : UInt8} (hc : c ∈ s.text) :
    c = dot ∨ c = plus ∨ isIdentifierChar c = true := by
  rw [Spelling.text, Spelling.suffix, List.mem_append] at hc
  rcases hc with hc | hc
  · exact (front_chars h hc).imp_right .inr
  · split_ifs at hc
    · cases hc
    · rcases List.mem_cons.mp hc with hc | hc
      · exact .inr (.inl hc)
      · rcases mem_joinWith hc with hc | ⟨id, hid, hc⟩
        · exact .inl hc
        · exact .inr (.inr ((h.build id hid).chars c hc))

theorem trim_eq_self (h : ∀ c ∈ text, isBlank c = false) : trim text = text := by
  have hleft : text.dropWhile isBlank = text := by
    rw [List.dropWhile_eq_self_iff]
    intro hlen hblank
    rw [h _ (List.getElem_mem hlen)] at hblank
    cases hblank
  rw [trim, hleft, List.rdropWhile_eq_self_iff]
  intro hne hblank
  rw [h _ (List.getLast_mem hne)] at hblank
  cases hblank

theorem trim_text (h : s.Valid) : trim s.text = s.text := by
  apply trim_eq_self
  intro c hc
  have hblank : isBlank c = true → ¬(c = dot ∨ c = plus ∨ isIdentifierChar c = true) := by
    intro hc
    obtain rfl | rfl : c = 32 ∨ c = 9 := by simpa [isBlank] using hc
    all_goals decide
  rw [← Bool.not_eq_true]
  exact fun hb ↦ hblank hb (text_chars h hc)

theorem bare_text (h : s.Valid) : bare s.text = s.text := by
  obtain ⟨d, rest, hmajor⟩ := List.exists_cons_of_ne_nil h.major.nonempty
  have hdigit : isDigit d = true := h.major.digits d (by simp [hmajor])
  have hhead : s.text.head? = some d := by
    simp [Spelling.text, Spelling.front, Spelling.core, hmajor]
  rw [bare, trim_text h, if_neg]
  rw [hhead]
  rintro (heq | heq)
  all_goals
    obtain rfl := Option.some.inj heq
    exact absurd hdigit (by decide)

theorem toString_of_spells (h : s.Valid) (hv : v.Spells s) : toString v = s.text := by
  have hsuffix : ∀ sign (ids : List Bytes), (∀ id ∈ ids, BuildIdentifier id) →
      (if joinWith [dot] ids = [] then [] else sign :: joinWith [dot] ids) =
        Spelling.suffix sign ids := by
    intro sign ids hids
    simp only [Spelling.suffix, joinWith_eq_nil hids]
  rw [toString, hv.major, hv.minor, hv.patch, hv.prerelease, hv.build,
    decimal_digitsValue h.major, decimal_digitsValue h.minor, decimal_digitsValue h.patch,
    hsuffix minus s.prerelease fun id hid ↦ (h.prerelease id hid).1, hsuffix plus s.build h.build]
  rfl

theorem toString_of_parse {text : Bytes} (h : parse text = some v) : toString v = bare text := by
  obtain ⟨s, hvalid, -, htext, hspells⟩ := parseBare_sound ((parse_eq text).symm.trans h)
  exact (toString_of_spells hvalid hspells).trans htext

theorem parse_toString {text : Bytes} (h : parse text = some v) : parse (toString v) = some v := by
  have hbare := (parse_eq text).symm.trans h
  obtain ⟨s, hvalid, -, htext, hspells⟩ := parseBare_sound hbare
  rw [toString_of_spells hvalid hspells, parse_eq, bare_text hvalid, htext]
  exact hbare

/-- What `to_string` writes is read back as the same version, and it is the text that was read. -/
theorem parse_round_trip {text : Bytes} (h : parse text = some v) :
    parse (toString v) = some v ∧ toString v = bare text :=
  ⟨parse_toString h, toString_of_parse h⟩

theorem round_trip_candidate : ∃ v, parse (ascii "\tv1.2.3-rc.1+b-1 ") = some v ∧
    parse (toString v) = some v ∧ toString v = bare (ascii "\tv1.2.3-rc.1+b-1 ") := by
  have h : (parse (ascii "\tv1.2.3-rc.1+b-1 ")).isSome = true := by decide +kernel
  obtain ⟨v, hv⟩ := Option.isSome_iff_exists.mp h
  exact ⟨v, hv, parse_round_trip hv⟩

end Version

end SquaredPg
