import SquaredPg.DoubleRounding
import SquaredPg.JsonLiterals

namespace SquaredPg

open Ascii

variable {ds es : Bytes} {n j : ℕ}

theorem digitsValue_concat (ds : Bytes) (c : UInt8) :
    digitsValue (ds ++ [c]) = digitsValue ds * 10 + (c.toNat - 48) := by
  rw [digitsValue, List.foldl_concat, digitsValue]

theorem digitsValue_append (ds es : Bytes) :
    digitsValue (ds ++ es) = digitsValue ds * 10 ^ es.length + digitsValue es := by
  induction es using List.reverseRecOn with
  | nil => simp [digitsValue]
  | append_singleton es c ih =>
    rw [← List.append_assoc, digitsValue_concat, digitsValue_concat, ih, List.length_append,
      List.length_singleton, Nat.pow_succ]
    ring

theorem digitsValue_zeros (j : ℕ) : digitsValue (List.replicate j zero) = 0 := by
  induction j with
  | zero => rfl
  | succ j ih =>
    rw [List.replicate_succ', digitsValue_append, ih]
    rfl

theorem digitsValue_zeros_append (j : ℕ) (ds : Bytes) :
    digitsValue (List.replicate j zero ++ ds) = digitsValue ds := by
  rw [digitsValue_append, digitsValue_zeros, Nat.zero_mul, Nat.zero_add]

theorem digitsValue_append_zeros (ds : Bytes) (j : ℕ) :
    digitsValue (ds ++ List.replicate j zero) = digitsValue ds * 10 ^ j := by
  rw [digitsValue_append, digitsValue_zeros, List.length_replicate, Nat.add_zero]

theorem length_decimal_le {k : ℕ} (hk : 0 < k) : (decimal n).length ≤ k ↔ n < 10 ^ k := by
  rw [decimal, List.length_map]
  exact Nat.length_toDigits_le_iff (by decide) hk

theorem length_decimal {k : ℕ} (hlow : 10 ^ k ≤ n) (hhigh : n < 10 ^ (k + 1)) :
    (decimal n).length = k + 1 := by
  have hle := (length_decimal_le (Nat.succ_pos k)).mpr hhigh
  rcases Nat.eq_zero_or_pos k with rfl | hk
  · have hpos := List.length_pos_of_ne_nil (decimal_ne_nil n)
    omega
  · have hgt := mt (length_decimal_le hk).mp (not_lt.mpr hlow)
    omega

def shortDigits (n : ℕ) : Bytes := (decimal n).rdropWhile (· = zero)

theorem decimal_eq_short (n : ℕ) : ∃ j, decimal n = shortDigits n ++ List.replicate j zero := by
  refine ⟨((decimal n).rtakeWhile (· = zero)).length, ?_⟩
  have hzeros : (decimal n).rtakeWhile (· = zero) =
      List.replicate ((decimal n).rtakeWhile (· = zero)).length zero :=
    List.eq_replicate_of_mem fun c hc ↦ by simpa using List.mem_rtakeWhile_imp hc
  rw [← hzeros, shortDigits, List.rdropWhile_append_rtakeWhile]

/-- What the digits of a number are after the zeros at their end are gone. -/
structure Short (n : ℕ) (s : Bytes) : Prop where
  digits : ∀ c ∈ s, isDigit c = true
  nonempty : s ≠ []
  head : s.head? ≠ some zero
  last : ¬10 ∣ digitsValue s
  value : ∃ j, digitsValue s * 10 ^ j = n ∧ s.length + j = (decimal n).length

theorem short_shortDigits (hn : 0 < n) : Short n (shortDigits n) := by
  obtain ⟨j, hj⟩ := decimal_eq_short n
  have hvalue : digitsValue (shortDigits n) * 10 ^ j = n := by
    rw [← digitsValue_append_zeros, ← hj, digitsValue_decimal]
  have hne : shortDigits n ≠ [] := by
    intro hnil
    rw [hnil] at hvalue
    simp [digitsValue] at hvalue
    omega
  have hdigits : ∀ c ∈ shortDigits n, isDigit c = true := by
    intro c hc
    exact decimal_digits (n := n) (by rw [hj]; exact List.mem_append_left _ hc)
  refine ⟨hdigits, hne, ?_, ?_, j, hvalue, ?_⟩
  · have hhead := head_decimal hn
    rwa [hj, List.head?_append_of_ne_nil _ hne] at hhead
  · have hlast : ¬decide ((shortDigits n).getLast hne = zero) = true :=
      List.rdropWhile_last_not _ _ hne
    rw [decide_eq_true_eq] at hlast
    have hdigit := isDigit_iff.mp (hdigits _ (List.getLast_mem hne))
    have hcode : ((shortDigits n).getLast hne).toNat ≠ 48 := fun h ↦ hlast (UInt8.toNat_inj.mp h)
    rw [← List.dropLast_append_getLast hne, digitsValue_concat]
    omega
  · rw [hj, List.length_append, List.length_replicate]

namespace Yyjson

variable {whole fraction behind rest : Bytes} {negative : Bool} {x : Option ℤ}

def fractionText (fraction : Bytes) : Bytes := if fraction = [] then [] else dot :: fraction

def exponentText (x : ℤ) : Bytes :=
  ascii "e" ++ ascii (if x < 0 then "-" else "+") ++
    (if (decimal x.natAbs).length < 2 then zero :: decimal x.natAbs else decimal x.natAbs)

def NoDigit (s : Bytes) : Prop := ∀ c ∈ s.head?, isDigit c = false

theorem takeWhile_digits_append (hds : ∀ c ∈ ds, isDigit c = true) (h : NoDigit behind) :
    (ds ++ behind).takeWhile isDigit = ds ∧ (ds ++ behind).dropWhile isDigit = behind := by
  rw [List.takeWhile_append_of_pos hds, List.dropWhile_append_of_pos hds]
  rcases behind with _ | ⟨c, behind⟩
  · simp
  · simp [h c rfl]

theorem scanFraction_text (hfraction : ∀ c ∈ fraction, isDigit c = true)
    (h : ∀ c ∈ behind.head?, isDigit c = false ∧ c ≠ dot) :
    scanFraction (fractionText fraction ++ behind) = some (fraction, behind) := by
  unfold fractionText
  split_ifs with hnil
  · subst hnil
    rcases behind with _ | ⟨c, behind⟩
    · rfl
    · simp [scanFraction, (h c rfl).2]
  · obtain ⟨htake, hdrop⟩ := takeWhile_digits_append hfraction fun c hc ↦ (h c hc).1
    rw [List.cons_append, scanFraction, if_pos rfl, htake, hdrop, if_neg hnil]

theorem scanExponent_text (x : ℤ) (h : Boundary rest) :
    scanExponent (exponentText x ++ rest) = some (some x, rest) := by
  have hzero : isDigit zero = true := by decide
  obtain ⟨ds, hds⟩ : ∃ ds, ds = if (decimal x.natAbs).length < 2 then zero :: decimal x.natAbs
    else decimal x.natAbs := ⟨_, rfl⟩
  have hdigits : ∀ c ∈ ds, isDigit c = true := by
    intro c hc
    rw [hds] at hc
    split_ifs at hc
    · rcases List.mem_cons.mp hc with rfl | hc
      · exact hzero
      · exact decimal_digits hc
    · exact decimal_digits hc
  have hvalue : digitsValue ds = x.natAbs := by
    rw [hds]
    split_ifs
    · exact (digitsValue_zeros_append 1 _).trans (digitsValue_decimal _)
    · exact digitsValue_decimal _
  have hne : ds ≠ [] := by
    rw [hds]
    split_ifs
    · exact List.cons_ne_nil _ _
    · exact decimal_ne_nil _
  obtain ⟨htake, hdrop⟩ : (ds ++ rest).takeWhile isDigit = ds ∧ (ds ++ rest).dropWhile isDigit = rest :=
    takeWhile_digits_append hdigits fun c hc ↦ (h c hc).1
  rw [exponentText, ← hds]
  by_cases hx : x < 0
  · have hback : -|x| = x := by rw [abs_of_neg hx, neg_neg]
    have htext : ascii "e" ++ ascii (if x < 0 then "-" else "+") ++ ds ++ rest =
        101 :: minus :: (ds ++ rest) := by
      rw [if_pos hx]
      rfl
    rw [htext]
    simp [scanExponent, htake, hdrop, hne, hvalue, hback]
  · have hback : |x| = x := abs_of_nonneg (not_lt.mp hx)
    have hplus : plus ≠ minus := by decide
    have htext : ascii "e" ++ ascii (if x < 0 then "-" else "+") ++ ds ++ rest =
        101 :: plus :: (ds ++ rest) := by
      rw [if_neg hx]
      rfl
    rw [htext]
    simp [scanExponent, htake, hdrop, hne, hvalue, hback, hplus]

def exponentPart : Option ℤ → Bytes
  | none => []
  | some x => exponentText x

structure Literal (text whole fraction : Bytes) (x : Option ℤ) : Prop where
  text : text = whole ++ (fractionText fraction ++ exponentPart x)
  nonempty : whole ≠ []
  digits : ∀ c ∈ whole, isDigit c = true
  lead : whole.head? = some zero → whole.length = 1
  fraction : ∀ c ∈ fraction, isDigit c = true

theorem scanExponent_part (x : Option ℤ) (h : Boundary rest) :
    scanExponent (exponentPart x ++ rest) = some (x, rest) ∧
      ∀ c ∈ (exponentPart x ++ rest).head?, isDigit c = false ∧ c ≠ dot := by
  cases x with
  | none => exact ⟨scanExponent_boundary h, fun c hc ↦ ⟨(h c hc).1, (h c hc).2.1⟩⟩
  | some x =>
    refine ⟨scanExponent_text x h, ?_⟩
    intro c hc
    have hhead : (exponentPart (some x) ++ rest).head? = some 101 := rfl
    rw [hhead] at hc
    cases hc
    decide

theorem Literal.parse {text : Bytes} (h : Literal text whole fraction x) (hrest : Boundary rest) :
    parseNumber ((if negative then ascii "-" else []) ++ (text ++ rest)) =
      if fraction = [] ∧ x = none then (integerVal negative (digitsValue whole)).map fun v ↦ (v, rest)
      else (realVal negative whole fraction (x.getD 0)).map fun v ↦ (v, rest) := by
  obtain ⟨hexponent, hbehind⟩ := scanExponent_part x hrest
  have htext : text ++ rest = whole ++ (fractionText fraction ++ (exponentPart x ++ rest)) := by
    rw [h.text, List.append_assoc, List.append_assoc]
  have hnoDigit : NoDigit (fractionText fraction ++ (exponentPart x ++ rest)) := by
    unfold fractionText
    split_ifs
    · exact fun c hc ↦ (hbehind c hc).1
    · intro c hc
      cases hc
      decide
  obtain ⟨htake, hdrop⟩ := takeWhile_digits_append h.digits hnoDigit
  have hsign : (text ++ rest).head? ≠ some minus := by
    obtain ⟨c, tail, rfl⟩ := List.exists_cons_of_ne_nil h.nonempty
    rw [htext, List.cons_append, List.head?_cons, ne_eq, Option.some.injEq]
    rintro rfl
    exact absurd (h.digits minus List.mem_cons_self) (by decide)
  have hleading : ¬(whole = [] ∨ whole.head? = some zero ∧ whole.length ≠ 1) :=
    not_or.mpr ⟨h.nonempty, fun hz ↦ hz.2 (h.lead hz.1)⟩
  have hfraction := scanFraction_text h.fraction hbehind
  rw [← htext] at htake hdrop
  generalize text ++ rest = s at htake hdrop hsign
  simp only [Option.map_eq_bind, Function.comp_def]
  cases negative with
  | false => simp [parseNumber, hsign, htake, hdrop, hleading, hfraction, hexponent]
  | true =>
    have hminus : ascii "-" = [minus] := rfl
    simp [parseNumber, hminus, htake, hdrop, hleading, hfraction, hexponent]

theorem layoutG_exponent {precision : ℕ} {x : ℤ} (s : Bytes) (h : x < -4 ∨ (precision : ℤ) ≤ x) :
    Double.layoutG precision s x =
      s.take 1 ++ (fractionText (s.drop 1) ++ exponentPart (some x)) := by
  simp only [Double.layoutG, if_pos h, exponentPart, exponentText, fractionText, List.append_assoc]
  by_cases hdrop : s.drop 1 = []
  · simp only [if_pos hdrop, List.nil_append]
  · simp only [if_neg hdrop, List.append_assoc]

theorem layoutG_small {precision : ℕ} {x : ℤ} {s : Bytes} (hne : s ≠ [])
    (h : ¬(x < -4 ∨ (precision : ℤ) ≤ x)) (hx : x < 0) :
    Double.layoutG precision s x =
      [zero] ++ (fractionText (List.replicate ((-x).toNat - 1) zero ++ s) ++ exponentPart none) := by
  have hfraction : List.replicate ((-x).toNat - 1) zero ++ s ≠ [] :=
    List.append_ne_nil_of_right_ne_nil _ hne
  simp only [Double.layoutG, if_neg h, if_pos hx, fractionText, if_neg hfraction, exponentPart,
    List.append_nil, List.append_assoc]
  rfl

theorem layoutG_fixed {precision : ℕ} {x : ℤ} (s : Bytes) (h : ¬(x < -4 ∨ (precision : ℤ) ≤ x))
    (hx : ¬x < 0) :
    Double.layoutG precision s x =
      s.take (x.toNat + 1) ++ List.replicate (x.toNat + 1 - (s.take (x.toNat + 1)).length) zero ++
        (fractionText (s.drop (x.toNat + 1)) ++ exponentPart none) := by
  simp only [Double.layoutG, if_neg h, if_neg hx, fractionText, exponentPart, List.append_nil]
  by_cases hdrop : s.drop (x.toNat + 1) = []
  · simp only [if_pos hdrop, List.append_nil]
  · simp only [if_neg hdrop]

theorem head_take (s : Bytes) (k : ℕ) : (s.take (k + 1)).head? = s.head? := by
  cases s <;> rfl

theorem layoutG_literal {s : Bytes} (hdigits : ∀ c ∈ s, isDigit c = true) (hne : s ≠ [])
    (hhead : s.head? ≠ some zero) (precision : ℕ) (x : ℤ) :
    ∃ whole fraction exponent, Literal (Double.layoutG precision s x) whole fraction exponent ∧
      (digitsValue (whole ++ fraction) : ℚ) * 10 ^ (exponent.getD 0 - fraction.length) =
        digitsValue s * 10 ^ (x + 1 - s.length) ∧
      (fraction = [] ∧ exponent = none ↔ 0 ≤ x ∧ x < precision ∧ s.length ≤ x + 1) := by
  have hpos : 0 < s.length := List.length_pos_of_ne_nil hne
  have htake : ∀ k, s.take (k + 1) ≠ [] := by simp [hne]
  have hzero : isDigit zero = true := by decide
  by_cases hscientific : x < -4 ∨ (precision : ℤ) ≤ x
  · refine ⟨s.take 1, s.drop 1, some x, ⟨layoutG_exponent s hscientific, htake 0,
      fun c hc ↦ hdigits c (List.mem_of_mem_take hc), ?_,
      fun c hc ↦ hdigits c (List.mem_of_mem_drop hc)⟩, ?_, ?_⟩
    · intro hlead
      rw [head_take] at hlead
      exact absurd hlead hhead
    · have hexponent : x - (s.drop 1).length = x + 1 - s.length := by
        rw [List.length_drop]
        omega
      rw [List.take_append_drop, Option.getD_some, hexponent]
    · simp only [reduceCtorEq, and_false, false_iff]
      omega
  by_cases hsmall : x < 0
  · refine ⟨[zero], List.replicate ((-x).toNat - 1) zero ++ s, none,
      ⟨layoutG_small hne hscientific hsmall, List.cons_ne_nil _ _, ?_, fun _ ↦ rfl, ?_⟩, ?_, ?_⟩
    · intro c hc
      rw [List.mem_singleton.mp hc]
      exact hzero
    · intro c hc
      rcases List.mem_append.mp hc with hc | hc
      · rw [List.eq_of_mem_replicate hc]
        exact hzero
      · exact hdigits c hc
    · have hexponent : (0 : ℤ) - (List.replicate ((-x).toNat - 1) zero ++ s).length =
          x + 1 - s.length := by
        rw [List.length_append, List.length_replicate]
        omega
      have hvalue : digitsValue ([zero] ++ (List.replicate ((-x).toNat - 1) zero ++ s)) =
          digitsValue s :=
        (digitsValue_zeros_append 1 _).trans (digitsValue_zeros_append _ s)
      rw [Option.getD_none, hexponent, hvalue]
    · simp only [List.append_eq_nil_iff, hne, and_false, false_and, false_iff]
      omega
  · refine ⟨_, s.drop (x.toNat + 1), none, ⟨layoutG_fixed s hscientific hsmall,
      List.append_ne_nil_of_left_ne_nil (htake _) _, ?_, ?_,
      fun c hc ↦ hdigits c (List.mem_of_mem_drop hc)⟩, ?_, ?_⟩
    · intro c hc
      rcases List.mem_append.mp hc with hc | hc
      · exact hdigits c (List.mem_of_mem_take hc)
      · rw [List.eq_of_mem_replicate hc]
        exact hzero
    · intro hlead
      rw [List.head?_append_of_ne_nil _ (htake _), head_take] at hlead
      exact absurd hlead hhead
    · rw [Option.getD_none, List.length_drop]
      by_cases hlength : s.length ≤ x.toNat + 1
      · have hexponent : x + 1 - s.length = ((x.toNat + 1 - s.length : ℕ) : ℤ) := by omega
        have hrest : s.length - (x.toNat + 1) = 0 := by omega
        rw [List.take_of_length_le hlength, List.drop_of_length_le hlength, List.append_nil,
          digitsValue_append_zeros, hexponent, zpow_natCast, hrest]
        simp
      · have hexponent : (0 : ℤ) - (s.length - (x.toNat + 1) : ℕ) = x + 1 - s.length := by omega
        have hfull : x.toNat + 1 - (s.take (x.toNat + 1)).length = 0 := by
          rw [List.length_take]
          omega
        rw [hfull, List.replicate_zero, List.append_nil, List.take_append_drop, hexponent]
    · rw [List.drop_eq_nil_iff]
      simp only [and_true]
      omega

end Yyjson

namespace Double

open Rounding

variable {d : Double} {rest : Bytes}

def integer? (d : Double) : Option ℕ :=
  if d.magnitude.1 % d.magnitude.2 = 0 ∧ d.magnitude.1 / d.magnitude.2 < 10 ^ 17 then
    some (d.magnitude.1 / d.magnitude.2)
  else none

def toYyjson (d : Double) : YyjsonVal :=
  match d.integer? with
  | some k =>
    if d.negative then .sint (Int64.ofInt (-k)) else .uint (UInt64.ofNat k)
  | none => .real d

theorem integer_eq_some {k : ℕ} : d.integer? = some k ↔ d.absolute = k ∧ k < 10 ^ 17 := by
  have hpos := d.magnitude_pos
  have hposq : (d.magnitude.2 : ℚ) ≠ 0 := by exact_mod_cast hpos.ne'
  rw [integer?, ← magnitude_eq]
  constructor
  · intro h
    split_ifs at h with hk
    obtain ⟨hmod, hbound⟩ := hk
    cases h
    obtain ⟨k, hk⟩ := Nat.dvd_of_mod_eq_zero hmod
    rw [hk, Nat.mul_div_cancel_left k hpos] at hbound ⊢
    refine ⟨?_, hbound⟩
    rw [Nat.cast_mul, mul_div_cancel_left₀ _ hposq]
  · rintro ⟨hk, hbound⟩
    rw [div_eq_iff hposq] at hk
    have hmul : d.magnitude.1 = k * d.magnitude.2 := by exact_mod_cast hk
    rw [hmul, Nat.mul_mod_left, Nat.mul_div_cancel _ hpos, if_pos ⟨rfl, hbound⟩]

theorem integer_eq_none : d.integer? = none ↔ ∀ k : ℕ, d.absolute = k → 10 ^ 17 ≤ k := by
  constructor
  · intro h k hk
    by_contra hbound
    rw [integer_eq_some.mpr ⟨hk, not_le.mp hbound⟩] at h
    cases h
  · intro h
    cases hinteger : d.integer? with
    | none => rfl
    | some k =>
      obtain ⟨hk, hbound⟩ := integer_eq_some.mp hinteger
      exact absurd (h k hk) (not_le.mpr hbound)

theorem eq_of_integer {k : ℕ} (hfinite : d.Finite) (hzero : d.mantissa ≠ 0)
    (hpower : d.power < 0) (hnear : |(k : ℚ) - d.absolute| < d.absolute / 2 ^ 54) :
    d.absolute = k := by
  obtain ⟨hcanonical, -⟩ := canonical hfinite hzero
  have hmantissa : (d.mantissa : ℚ) < 2 ^ 53 := by exact_mod_cast hcanonical.lt
  obtain ⟨j, hj⟩ : ∃ j : ℕ, d.power = -(j : ℤ) := ⟨(-d.power).toNat, by omega⟩
  have hunit : (0 : ℚ) < 2 ^ j := by positivity
  have habsolute : d.absolute = d.mantissa / 2 ^ j := by
    rw [absolute, hj, zpow_neg, zpow_natCast, div_eq_mul_inv]
  have hdistance : |(k : ℚ) * 2 ^ j - d.mantissa| < d.mantissa / 2 ^ 54 := by
    have hscaled : (k : ℚ) * 2 ^ j - d.mantissa = (k - d.absolute) * 2 ^ j := by
      rw [habsolute]
      field_simp
    have hright : (d.mantissa : ℚ) / 2 ^ 54 = d.absolute / 2 ^ 54 * 2 ^ j := by
      rw [habsolute]
      field_simp
    rw [hscaled, abs_mul, abs_of_pos hunit, hright]
    exact mul_lt_mul_of_pos_right hnear hunit
  have hone : |((k * 2 ^ j : ℕ) : ℤ) - d.mantissa| < 1 := by
    have hlt : |(k : ℚ) * 2 ^ j - d.mantissa| < 1 := by
      refine hdistance.trans ?_
      rw [div_lt_one (by norm_num)]
      linarith
    exact_mod_cast hlt
  have heq := Int.abs_lt_one_iff.mp hone
  have hsame : d.mantissa = k * 2 ^ j := by omega
  rw [habsolute, hsame]
  push_cast
  field_simp

theorem integer_eq_integer {k : ℕ} (hfinite : d.Finite) (hzero : d.mantissa ≠ 0)
    {digits : ℕ} {x : ℤ} (hdecimal : Decimal 17 d.absolute digits x) (hx : x < 17)
    (hk : digits * (10 : ℚ) ^ (x - 16) = k) : d.integer? = some k := by
  have hnear : |(k : ℚ) - d.absolute| < d.absolute / 2 ^ 54 := by
    have h := hdecimal.near 53 (by norm_num)
    norm_num at h hk ⊢
    rwa [hk] at h
  have hsmall := hdecimal.small hx
  by_cases hpower : d.power < 0
  · have heq := eq_of_integer hfinite hzero hpower hnear
    refine integer_eq_some.mpr ⟨heq, ?_⟩
    rw [heq] at hsmall
    exact_mod_cast hsmall
  · obtain ⟨j, hj⟩ := Int.eq_ofNat_of_zero_le (not_lt.mp hpower)
    have heq : d.absolute = (d.mantissa * 2 ^ j : ℕ) := by
      rw [absolute, hj, zpow_natCast]
      push_cast
      rfl
    rw [heq] at hsmall
    have hbound : d.mantissa * 2 ^ j < 10 ^ 17 := by exact_mod_cast hsmall
    obtain ⟨-, hexact⟩ := hdecimal.exact _ heq hbound
    norm_num at hexact hk
    rw [hk] at hexact
    have hsame : k = d.mantissa * 2 ^ j := by exact_mod_cast hexact
    exact integer_eq_some.mpr ⟨by rw [heq, hsame], hsame ▸ hbound⟩

theorem realVal_recovers {whole fraction : Bytes} {x : ℤ} (hfinite : d.Finite)
    (hzero : d.mantissa ≠ 0)
    (hnear : |(digitsValue (whole ++ fraction) : ℚ) * 10 ^ (x - fraction.length) - d.absolute| <
      d.absolute / 2 ^ 54) :
    Yyjson.realVal d.negative whole fraction x = some (.real d) := by
  have habsolute : 0 < d.absolute := by
    have hmantissa : (0 : ℚ) < d.mantissa := by exact_mod_cast Nat.pos_of_ne_zero hzero
    exact mul_pos hmantissa (by positivity)
  have hpos : 0 < digitsValue (whole ++ fraction) := by
    refine Nat.pos_of_ne_zero fun hnil ↦ ?_
    rw [hnil, Nat.cast_zero, zero_mul, zero_sub, abs_neg, abs_of_pos habsolute] at hnear
    linarith
  unfold Yyjson.realVal
  dsimp only
  generalize digitsValue (whole ++ fraction) = n at hnear hpos
  generalize x - fraction.length = e at hnear
  split_ifs with he
  · obtain ⟨j, rfl⟩ := Int.eq_ofNat_of_zero_le he
    rw [zpow_natCast] at hnear
    rw [Int.toNat_natCast, nearest_recovers hfinite hzero (by positivity) one_pos]
    · rfl
    · push_cast
      rwa [div_one]
  · obtain ⟨j, rfl⟩ : ∃ j : ℕ, e = -(j : ℤ) := ⟨(-e).toNat, by omega⟩
    rw [zpow_neg, zpow_natCast, ← div_eq_mul_inv] at hnear
    rw [neg_neg, Int.toNat_natCast, nearest_recovers hfinite hzero hpos (by positivity)]
    · rfl
    · push_cast
      exact hnear

theorem integerVal_small {k : ℕ} (negative : Bool) (hk : k < 10 ^ 17) :
    Yyjson.integerVal negative k =
      some (if negative then .sint (Int64.ofInt (-k)) else .uint (UInt64.ofNat k)) := by
  have hlow : k ≤ 2 ^ 63 := by omega
  have hhigh : k < 2 ^ 64 := by omega
  cases negative
  · simp only [Yyjson.integerVal, Bool.false_eq_true, if_false, if_pos hhigh]
  · simp only [Yyjson.integerVal, if_true, if_pos hlow]

theorem digits_integral {digits k : ℕ} {x : ℤ} {s : Bytes} (hshort : Short digits s)
    (hhigh : digits < 10 ^ 17) (hpos : 0 < k)
    (hshift : digitsValue s * (10 : ℚ) ^ (x + 1 - s.length) = digits * 10 ^ (x - 16))
    (hk : digits * (10 : ℚ) ^ (x - 16) = k) : 0 ≤ x ∧ s.length ≤ x + 1 := by
  have hposq : (1 : ℚ) ≤ k := by exact_mod_cast hpos
  constructor
  · by_contra hx
    have hlt : (digits : ℚ) * 10 ^ (x - 16) < 1 := by
      have hdigits : (digits : ℚ) < 10 ^ 17 := by exact_mod_cast hhigh
      have hpower : (10 : ℚ) ^ (x - 16) ≤ 10 ^ (-17 : ℤ) :=
        zpow_le_zpow_right₀ (by norm_num) (by omega)
      calc (digits : ℚ) * 10 ^ (x - 16) < 10 ^ 17 * 10 ^ (x - 16) :=
            mul_lt_mul_of_pos_right hdigits (by positivity)
        _ ≤ 10 ^ 17 * 10 ^ (-17 : ℤ) := mul_le_mul_of_nonneg_left hpower (by norm_num)
        _ = 1 := by norm_num
    linarith
  · by_contra hlength
    obtain ⟨m, hm⟩ : ∃ m : ℕ, x + 1 - s.length = -((m + 1 : ℕ) : ℤ) :=
      ⟨(s.length - x - 2).toNat, by omega⟩
    rw [hk, hm, zpow_neg, zpow_natCast] at hshift
    have hvalue : (digitsValue s : ℚ) = k * 10 ^ (m + 1) := by
      rw [← hshift]
      field_simp
    have hvalue : digitsValue s = k * 10 ^ (m + 1) := by exact_mod_cast hvalue
    refine hshort.last ?_
    rw [hvalue, Nat.pow_succ]
    exact Dvd.intro_left (k * 10 ^ m) (by ring)

/-- The text of a finite double is read back as the double, or as the integer that it is. -/
theorem parseNumber_printG (hfinite : d.Finite) (hrest : Yyjson.Boundary rest) :
    Yyjson.parseNumber (d.printG 17 ++ rest) = some (d.toYyjson, rest) := by
  unfold printG
  rw [if_neg hfinite]
  dsimp only
  by_cases hzero : d.mantissa = 0
  · have hmagnitude := magnitude_eq_zero.mpr hzero
    have hliteral : Yyjson.Literal [Ascii.zero] [Ascii.zero] [] none :=
      ⟨rfl, List.cons_ne_nil _ _, List.forall_mem_singleton.mpr (by decide), fun _ ↦ rfl, by simp⟩
    have hinteger : d.integer? = some 0 := by
      rw [integer?, hmagnitude, Nat.zero_mod, Nat.zero_div]
      rfl
    have hvalue := integerVal_small (k := 0) d.negative (by norm_num)
    have hdigits : digitsValue [Ascii.zero] = 0 := rfl
    have htext : ascii "0" = [Ascii.zero] := rfl
    rw [if_pos hmagnitude, List.append_assoc, htext, hliteral.parse hrest, if_pos ⟨rfl, rfl⟩,
      hdigits, hvalue, toYyjson, hinteger]
    rfl
  · have hmagnitude := mt magnitude_eq_zero.mp hzero
    have hpos := Nat.pos_of_ne_zero hmagnitude
    have hdecimal := significant_decimal hpos d.magnitude_pos (by decide : 0 < 17)
    rw [magnitude_eq] at hdecimal
    rw [if_neg hmagnitude, List.append_assoc]
    generalize significant 17 d.magnitude.1 d.magnitude.2 = p at hdecimal ⊢
    obtain ⟨digits, x⟩ := p
    dsimp only at hdecimal ⊢
    rw [← shortDigits]
    have hlow : 10 ^ 16 ≤ digits := hdecimal.low
    have hshort := short_shortDigits (show 0 < digits by omega)
    generalize shortDigits digits = s at hshort ⊢
    have hshift : digitsValue s * (10 : ℚ) ^ (x + 1 - s.length) = digits * 10 ^ (x - 16) := by
      obtain ⟨j, hvalue, hlength⟩ := hshort.value
      rw [length_decimal hlow hdecimal.high] at hlength
      have hexponent : x + 1 - s.length = x - 16 + j := by omega
      rw [hexponent, zpow_add₀ (by norm_num), zpow_natCast, ← hvalue]
      push_cast
      ring
    obtain ⟨whole, fraction, exponent, hliteral, hvalue, hinteger⟩ :=
      Yyjson.layoutG_literal hshort.digits hshort.nonempty hshort.head 17 x
    rw [hshift] at hvalue
    rw [hliteral.parse hrest]
    by_cases hplain : fraction = [] ∧ exponent = none
    · obtain ⟨-, hx, -⟩ := hinteger.mp hplain
      obtain ⟨rfl, rfl⟩ := hplain
      have hwhole : digits * (10 : ℚ) ^ (x - 16) = digitsValue whole := by
        rw [← hvalue]
        simp
      have hsome := integer_eq_integer hfinite hzero hdecimal hx hwhole
      obtain ⟨-, hbound⟩ := integer_eq_some.mp hsome
      rw [if_pos ⟨rfl, rfl⟩, integerVal_small d.negative hbound, toYyjson, hsome]
      rfl
    · have hnone : d.integer? = none := by
        refine integer_eq_none.mpr fun k hk ↦ ?_
        by_contra hbound
        obtain ⟨hx, hexact⟩ := hdecimal.exact k hk (not_le.mp hbound)
        have hk0 : 0 < k := by
          refine Nat.pos_of_ne_zero ?_
          rintro rfl
          rw [← magnitude_eq] at hk
          have hdenominator : (d.magnitude.2 : ℚ) ≠ 0 := by exact_mod_cast d.magnitude_pos.ne'
          rw [div_eq_iff hdenominator] at hk
          simp [hmagnitude] at hk
        have hexact : digits * (10 : ℚ) ^ (x - 16) = k := by
          norm_num at hexact ⊢
          exact hexact
        obtain ⟨hx0, hlength⟩ := digits_integral hshort hdecimal.high hk0 hshift hexact
        exact hplain (hinteger.mpr ⟨hx0, hx, hlength⟩)
      have hreal : Yyjson.realVal d.negative whole fraction (exponent.getD 0) = some (.real d) := by
        refine realVal_recovers hfinite hzero ?_
        have hnear := hdecimal.near 53 (by norm_num)
        norm_num at hnear hvalue ⊢
        rwa [hvalue]
      rw [if_neg hplain, hreal, toYyjson, hnone]
      rfl

theorem parseValue_infinite (h : ¬d.Finite) (n : ℕ) (rest : Bytes) :
    Yyjson.parseValue n (d.printG 17 ++ rest) = none := by
  have hbiased : d.biasedExponent = 2047 := not_not.mp h
  cases n with
  | zero => rfl
  | succ n =>
    unfold printG
    dsimp only
    rw [if_pos hbiased]
    split_ifs
    · rfl
    · rfl
    · rfl
    · rfl

theorem head_of_parseNumber {s : Bytes} {p : YyjsonVal × Bytes}
    (h : Yyjson.parseNumber s = some p) :
    ∃ c tail, s = c :: tail ∧ (c = Ascii.minus ∨ isDigit c = true) := by
  rcases s with _ | ⟨c, tail⟩
  · cases h
  · refine ⟨c, tail, rfl, ?_⟩
    by_contra hc
    obtain ⟨hminus, hdigit⟩ := not_or.mp hc
    rw [Bool.not_eq_true] at hdigit
    simp [Yyjson.parseNumber, hminus, hdigit] at h

theorem head_printG (d : Double) : ∃ c tail, d.printG 17 = c :: tail ∧
    ((c = Ascii.minus ∨ isDigit c = true) ∨ c = 105 ∨ c = 110) := by
  by_cases hfinite : d.Finite
  · have hread : Yyjson.parseNumber (d.printG 17 ++ []) = some (d.toYyjson, []) :=
      parseNumber_printG hfinite (by simp [Yyjson.Boundary])
    rw [List.append_nil] at hread
    obtain ⟨c, tail, hc, hhead⟩ := head_of_parseNumber hread
    exact ⟨c, tail, hc, .inl hhead⟩
  · have hbiased : d.biasedExponent = 2047 := not_not.mp hfinite
    unfold printG
    dsimp only
    rw [if_pos hbiased]
    split_ifs
    · exact ⟨Ascii.minus, _, rfl, .inl (.inl rfl)⟩
    · exact ⟨Ascii.minus, _, rfl, .inl (.inl rfl)⟩
    · exact ⟨105, _, rfl, .inr (.inl rfl)⟩
    · exact ⟨110, _, rfl, .inr (.inr rfl)⟩

end Double

end SquaredPg
