import Mathlib.Data.List.DropRight

namespace SquaredPg

/-- A `std::string`: bytes in no particular encoding. -/
abbrev Bytes := List UInt8

instance : LawfulBEq Bytes := inferInstance

def charByte (c : Char) : UInt8 := UInt8.ofNat c.toNat

def ascii (s : String) : Bytes := s.toList.map charByte

/-- `std::to_string` of a non-negative number. -/
def decimal (n : ℕ) : Bytes := (Nat.toDigits 10 n).map charByte

namespace Ascii

abbrev quote : UInt8 := 34
abbrev star : UInt8 := 42
abbrev plus : UInt8 := 43
abbrev comma : UInt8 := 44
abbrev minus : UInt8 := 45
abbrev dot : UInt8 := 46
abbrev slash : UInt8 := 47
abbrev zero : UInt8 := 48
abbrev colon : UInt8 := 58
abbrev question : UInt8 := 63
abbrev at_ : UInt8 := 64
abbrev openBracket : UInt8 := 91
abbrev backslash : UInt8 := 92
abbrev closeBracket : UInt8 := 93
abbrev underscore : UInt8 := 95
abbrev openBrace : UInt8 := 123
abbrev closeBrace : UInt8 := 125

end Ascii

def isDigit (c : UInt8) : Bool := 48 ≤ c ∧ c ≤ 57

def isLower (c : UInt8) : Bool := 97 ≤ c ∧ c ≤ 122

def isUpper (c : UInt8) : Bool := 65 ≤ c ∧ c ≤ 90

def isLetter (c : UInt8) : Bool := isLower c || isUpper c

def isBlank (c : UInt8) : Bool := c = 32 ∨ c = 9

/-- `trim` of version.cpp, also written out in `substitute`. -/
def trim (text : Bytes) : Bytes := (text.dropWhile isBlank).rdropWhile isBlank

def digitsValue (ds : Bytes) : ℕ := ds.foldl (fun n d ↦ n * 10 + (d.toNat - 48)) 0

/-- `text.substr(0, i)` and `text.substr(i + 1)` for the first `separator`, if there is one. -/
def cutAt (separator : UInt8) : Bytes → Bytes × Option Bytes
  | [] => ([], none)
  | c :: rest =>
    if c = separator then ([], some rest)
    else ((c :: (cutAt separator rest).1), (cutAt separator rest).2)

def joinWith (separator : Bytes) (parts : List Bytes) : Bytes := separator.intercalate parts

theorem isDigit_iff {c : UInt8} : isDigit c = true ↔ 48 ≤ c.toNat ∧ c.toNat ≤ 57 := by
  simp [isDigit, UInt8.le_iff_toNat_le]

theorem charByte_digit {c : Char} (h : c.isDigit) : (charByte c).toNat = c.toNat := by
  have h' : c.toNat ≤ 57 := by
    simp only [Char.isDigit, Bool.and_eq_true, decide_eq_true_eq] at h
    exact h.2
  simp only [charByte, UInt8.toNat_ofNat']
  omega

theorem decimal_digits {n : ℕ} {c : UInt8} (h : c ∈ decimal n) : isDigit c = true := by
  obtain ⟨d, hd, rfl⟩ := List.mem_map.mp h
  have hdig := Nat.isDigit_of_mem_toDigits (by omega) (by omega) hd
  have hval := charByte_digit hdig
  simp only [Char.isDigit, Bool.and_eq_true, decide_eq_true_eq] at hdig
  rw [isDigit_iff, hval]
  exact hdig

theorem decimal_ne_nil (n : ℕ) : decimal n ≠ [] := by
  simp [decimal, Nat.toDigits_ne_nil]

theorem head_decimal {n : ℕ} (h : 0 < n) : (decimal n).head? ≠ some Ascii.zero := by
  induction n using Nat.strong_induction_on with
  | _ n ih =>
    by_cases hn : n < 10
    · have hdigits : ∀ n < 10, 0 < n → (decimal n).head? ≠ some Ascii.zero := by decide
      exact hdigits n hn h
    · have hsplit : decimal n = decimal (n / 10) ++ [charByte (n % 10).digitChar] := by
        simp [decimal, Nat.toDigits_of_base_le (b := 10) (by omega) (not_lt.mp hn)]
      rw [hsplit, List.head?_append_of_ne_nil _ (decimal_ne_nil _)]
      exact ih (n / 10) (by omega) (by omega)

theorem digitsValue_decimal (n : ℕ) : digitsValue (decimal n) = n := by
  have hfold : ∀ (ds : List Char) (m : ℕ), (∀ c ∈ ds, c.isDigit) →
      (ds.map charByte).foldl (fun n d ↦ n * 10 + (d.toNat - 48)) m = Nat.ofDigitChars 10 ds m := by
    intro ds
    induction ds with
    | nil => intro m _; rfl
    | cons c ds ih =>
      intro m h
      have hc := charByte_digit (h c (by simp))
      simp only [List.map_cons, List.foldl_cons, hc]
      rw [ih _ (fun d hd ↦ h d (by simp [hd]))]
      simp [Nat.ofDigitChars, Nat.mul_comm]
  rw [digitsValue, decimal, hfold _ _ (fun c hc ↦ Nat.isDigit_of_mem_toDigits (by omega) (by omega) hc)]
  exact Nat.ofDigitChars_ten_toDigits

end SquaredPg
