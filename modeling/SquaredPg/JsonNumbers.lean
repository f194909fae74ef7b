import SquaredPg.JsonReader
import SquaredPg.Lists
import Mathlib.Algebra.Group.Int.Defs

namespace SquaredPg

open Ascii

namespace JsonText

def isNumeral (c : UInt8) : Bool := isDigit c ∨ c = minus ∨ c = plus ∨ c = dot ∨ c = 101 ∨ c = 69

inductive Region
  | outside | string | escaped
  | number (literal : Bytes)

def literalsFrom : Region → Bytes → List Bytes
  | .outside, [] => []
  | .outside, c :: s =>
    if c = quote then literalsFrom .string s
    else if isDigit c ∨ c = minus then literalsFrom (.number [c]) s
    else literalsFrom .outside s
  | .string, [] => []
  | .string, c :: s =>
    if c = quote then literalsFrom .outside s
    else if c = backslash then literalsFrom .escaped s
    else literalsFrom .string s
  | .escaped, [] => []
  | .escaped, _ :: s => literalsFrom .string s
  | .number literal, [] => [literal]
  | .number literal, c :: s =>
    if isNumeral c then literalsFrom (.number (literal ++ [c])) s
    else literal :: if c = quote then literalsFrom .string s else literalsFrom .outside s

/-- The number literals of a text, in their order. -/
def numberLiterals (text : Bytes) : List Bytes := literalsFrom .outside text

def unsigned (s : Bytes) : Bytes := if s.head? = some minus then s.tail else s

/-- The integer that an integer literal denotes, if the literal is one. -/
def denoted (literal : Bytes) : Option ℤ :=
  if unsigned literal ≠ [] ∧ (unsigned literal).all isDigit then
    some (if literal.head? = some minus then -digitsValue (unsigned literal)
      else digitsValue (unsigned literal))
  else none

variable {c : UInt8} {s l r : Bytes}

def Idle (c : UInt8) : Prop := c ≠ quote ∧ isDigit c = false ∧ c ≠ minus

instance : DecidablePred Idle := fun c ↦
  inferInstanceAs (Decidable (c ≠ quote ∧ isDigit c = false ∧ c ≠ minus))

theorem literals_skip (h : Idle c) :
    literalsFrom .outside (c :: s) = literalsFrom .outside s := by
  obtain ⟨hquote, hdigit, hminus⟩ := h
  simp [literalsFrom, hquote, hdigit, hminus]

theorem space_idle (h : Yyjson.isSpace c = true) : Idle c ∧ isNumeral c = false := by
  have hc : c = 32 ∨ c = 9 ∨ c = 10 ∨ c = 13 := by simpa [Yyjson.isSpace] using h
  rcases hc with rfl | rfl | rfl | rfl <;> decide

theorem literals_skipSpace (s : Bytes) :
    literalsFrom .outside (Yyjson.skipSpace s) = literalsFrom .outside s := by
  induction s with
  | nil => rfl
  | cons c s ih =>
    by_cases hspace : Yyjson.isSpace c = true
    · rw [literals_skip (space_idle hspace).1, ← ih]
      simp [Yyjson.skipSpace, hspace]
    · rw [Yyjson.skipSpace_head (by simpa using hspace)]

theorem literals_number (literal s : Bytes) : literalsFrom (.number literal) s =
    (literal ++ s.takeWhile isNumeral) :: literalsFrom .outside (s.dropWhile isNumeral) := by
  induction s generalizing literal with
  | nil => simp [literalsFrom]
  | cons c s ih =>
    by_cases hc : isNumeral c = true
    · rw [literalsFrom, if_pos hc, ih]
      simp [hc]
    · have hdigit : ¬(isDigit c = true ∨ c = minus) := by
        intro h
        apply hc
        rcases h with h | h <;> simp [isNumeral, h]
      rw [literalsFrom, if_neg hc]
      simp [hc, literalsFrom, hdigit]

open Yyjson

theorem literals_plain (h : PlainRun l) :
    literalsFrom .string (l ++ s) = literalsFrom .string s := by
  induction l with
  | nil => rfl
  | cons c l ih =>
    obtain ⟨hquote, hback⟩ := h c List.mem_cons_self
    rw [List.cons_append, literalsFrom, if_neg hquote, if_neg hback]
    exact ih fun d hd ↦ h d (.tail c hd)

theorem literals_escaped (c : UInt8) (s : Bytes) :
    literalsFrom .string (backslash :: c :: s) = literalsFrom .string s := rfl

theorem literals_unicode {t rest : Bytes} (h : scanUnicode s = some (t, rest)) :
    literalsFrom .string s = literalsFrom .string rest := by
  obtain ⟨digits, -, hdigits, -, rfl | ⟨more, hmore, rfl⟩⟩ := scanUnicode_cases h
  · exact literals_plain hdigits
  · rw [literals_plain hdigits, literals_escaped, literals_plain hmore]

theorem literals_escape {t rest : Bytes} (h : scanEscape s = some (t, rest)) :
    literalsFrom .escaped s = literalsFrom .string rest := by
  obtain ⟨c, tail, rfl, ⟨rfl, -⟩ | ⟨-, hunicode⟩⟩ := scanEscape_cases h
  · rfl
  · exact literals_unicode hunicode

theorem literals_char {t rest : Bytes} (hquote : s.head? ≠ some quote)
    (h : scanChar s = some (t, rest)) : literalsFrom .string s = literalsFrom .string rest := by
  obtain ⟨tail, rfl, hescape⟩ | ⟨rfl, hplain⟩ := scanChar_cases hquote h
  · exact literals_escape hescape
  · exact literals_plain hplain

theorem literals_string {n : ℕ} {t rest : Bytes} (h : scanString n s = some (t, rest)) :
    literalsFrom .string s = literalsFrom .outside rest := by
  induction n generalizing s t with
  | zero => cases h
  | succ n ih =>
    obtain ⟨rfl, -⟩ | ⟨first, middle, others, hquote, hfirst, hothers, -⟩ := scanString_cases h
    · rfl
    · rw [literals_char hquote hfirst]
      exact ih hothers

def Ends (r : Bytes) : Prop := ∀ c ∈ r.head?, isNumeral c = false

theorem digit_numeral (h : isNumeral c = false) : isDigit c = false := by
  cases hdigit : isDigit c with
  | false => rfl
  | true => simp [isNumeral, hdigit] at h

theorem takeWhile_digits (h : Ends r) : (l ++ r).takeWhile isDigit = l.takeWhile isDigit := by
  induction l with
  | nil =>
    rcases r with _ | ⟨c, r⟩
    · rfl
    · simp [digit_numeral (h c rfl)]
  | cons c l ih =>
    by_cases hc : isDigit c = true
    · simp [hc, ih]
    · simp [hc]

theorem dropWhile_digits (h : Ends r) : (l ++ r).dropWhile isDigit = l.dropWhile isDigit ++ r := by
  induction l with
  | nil =>
    rcases r with _ | ⟨c, r⟩
    · rfl
    · simp [digit_numeral (h c rfl)]
  | cons c l ih =>
    by_cases hc : isDigit c = true
    · simp [hc, ih]
    · simp [hc]

theorem head_append {d : UInt8} (h : Ends r) (hd : isNumeral d = true) :
    (l ++ r).head? = some d ↔ l.head? = some d := by
  rcases l with _ | ⟨c, l⟩
  · rcases r with _ | ⟨c, r⟩
    · rfl
    · have hc : c ≠ d := by
        rintro rfl
        simp [h c rfl] at hd
      simp [hc]
  · rfl

theorem scanFraction_append (h : Ends r) :
    scanFraction (l ++ r) = (scanFraction l).map fun p ↦ (p.1, p.2 ++ r) := by
  rcases l with _ | ⟨c, l⟩
  · rcases r with _ | ⟨c, r⟩
    · rfl
    · have hc : c ≠ dot := by
        rintro rfl
        exact absurd (h dot rfl) (by decide)
      simp [scanFraction, hc]
  · simp only [List.cons_append, scanFraction, takeWhile_digits h, dropWhile_digits h]
    split_ifs <;> rfl

theorem unsigned_append {P : Prop} [Decidable P] (h : P → l ≠ []) :
    (if P then (l ++ r).tail else l ++ r) = (if P then l.tail else l) ++ r := by
  split_ifs with hsign
  · obtain ⟨c, tail, rfl⟩ := List.exists_cons_of_ne_nil (h hsign)
    rfl
  · rfl

theorem scanExponent_append (h : Ends r) :
    scanExponent (l ++ r) = (scanExponent l).map fun p ↦ (p.1, p.2 ++ r) := by
  rcases l with _ | ⟨c, l⟩
  · rcases r with _ | ⟨c, r⟩
    · rfl
    · have hc : ¬(c = 101 ∨ c = 69) := by
        rintro (rfl | rfl)
        · exact absurd (h 101 rfl) (by decide)
        · exact absurd (h 69 rfl) (by decide)
      simp [scanExponent, hc]
  · have hunsigned := unsigned_append (l := l) (r := r)
      (P := l.head? = some minus ∨ l.head? = some plus) (by rintro h rfl; simp at h)
    simp only [List.cons_append, scanExponent, head_append h (d := minus) (by decide),
      head_append h (d := plus) (by decide), hunsigned, takeWhile_digits h, dropWhile_digits h]
    split_ifs <;> rfl

theorem parseNumber_append (h : Ends r) :
    parseNumber (l ++ r) = (parseNumber l).map fun p ↦ (p.1, p.2 ++ r) := by
  have hunsigned := unsigned_append (l := l) (r := r)
    (P := decide (l.head? = some minus) = true) (by rintro h rfl; simp at h)
  simp only [parseNumber, head_append h (d := minus) (by decide), hunsigned, takeWhile_digits h,
    dropWhile_digits h, scanFraction_append h]
  generalize (if decide (l.head? = some minus) = true then l.tail else l) = digits
  split_ifs with hwhole
  · rfl
  · cases scanFraction (digits.dropWhile isDigit) with
    | none => rfl
    | some fraction =>
      simp only [Option.map_some, Option.bind_eq_bind, Option.bind_some, scanExponent_append h]
      cases scanExponent fraction.2 with
      | none => rfl
      | some exponent =>
        rw [Option.map_some, Option.bind_some, Option.bind_some]
        dsimp only
        split_ifs
        · rw [Option.map_bind]
          rfl
        · rw [Option.map_bind]
          rfl

theorem scanFraction_suffix {fraction rest : Bytes} (h : scanFraction s = some (fraction, rest)) :
    rest <:+ s := by
  rcases s with _ | ⟨c, s⟩
  · cases h
    exact List.suffix_rfl
  · rw [scanFraction] at h
    split_ifs at h with hdot hnone
    · cases h
      exact (List.dropWhile_suffix _).trans (List.suffix_cons c s)
    · cases h
      exact List.suffix_rfl

theorem scanExponent_suffix {exponent : Option ℤ} {rest : Bytes}
    (h : scanExponent s = some (exponent, rest)) : rest <:+ s := by
  rcases s with _ | ⟨c, s⟩
  · cases h
    exact List.suffix_rfl
  · rw [scanExponent] at h
    dsimp only at h
    split_ifs at h
    all_goals obtain ⟨-, rfl⟩ := Prod.mk.inj (Option.some.inj h)
    all_goals first
      | exact List.suffix_rfl
      | exact (List.dropWhile_suffix _).trans (List.suffix_cons c s)
      | exact ((List.dropWhile_suffix _).trans (List.tail_suffix s)).trans (List.suffix_cons c s)

theorem realVal_real {negative : Bool} {whole fraction : Bytes} {exponent : ℤ} {v : YyjsonVal}
    (h : realVal negative whole fraction exponent = some v) : ∃ d, v = .real d := by
  obtain ⟨d, -, rfl⟩ := Option.map_eq_some_iff.mp h
  exact ⟨d, rfl⟩

theorem parseNumber_cases {v : YyjsonVal} {rest : Bytes} (h : parseNumber s = some (v, rest)) :
    ∃ fraction middle exponent, (unsigned s).takeWhile isDigit ≠ [] ∧
      scanFraction ((unsigned s).dropWhile isDigit) = some (fraction, middle) ∧
      scanExponent middle = some (exponent, rest) ∧
      ((fraction = [] ∧ exponent = none) ∧ integerVal (s.head? = some minus)
          (digitsValue ((unsigned s).takeWhile isDigit)) = some v ∨
        ¬(fraction = [] ∧ exponent = none) ∧ ∃ d, v = .real d) := by
  have hunsigned : (if decide (s.head? = some minus) = true then s.tail else s) = unsigned s := by
    simp [unsigned]
  simp only [parseNumber, hunsigned] at h
  split_ifs at h with hwhole
  simp only [Option.bind_eq_bind, Option.bind_eq_some_iff] at h
  obtain ⟨⟨fraction, middle⟩, hfraction, ⟨exponent, last⟩, hexponent, h⟩ := h
  dsimp only at h
  refine ⟨fraction, middle, exponent, fun hnil ↦ hwhole (.inl hnil), hfraction, ?_⟩
  split_ifs at h with hinteger
  · obtain ⟨w, hw, heq⟩ := Option.bind_eq_some_iff.mp h
    obtain ⟨rfl, rfl⟩ := Prod.mk.inj (Option.some.inj heq)
    exact ⟨hexponent, .inl ⟨hinteger, hw⟩⟩
  · obtain ⟨w, hw, heq⟩ := Option.bind_eq_some_iff.mp h
    obtain ⟨rfl, rfl⟩ := Prod.mk.inj (Option.some.inj heq)
    exact ⟨hexponent, .inr ⟨hinteger, realVal_real hw⟩⟩

theorem unsigned_suffix (s : Bytes) : unsigned s <:+ s := by
  unfold unsigned
  split_ifs
  · exact List.tail_suffix s
  · exact List.suffix_rfl

theorem parseNumber_suffix {v : YyjsonVal} {rest : Bytes} (h : parseNumber s = some (v, rest)) :
    rest <:+ s := by
  obtain ⟨fraction, middle, exponent, -, hfraction, hexponent, -⟩ := parseNumber_cases h
  have hmiddle := (scanFraction_suffix hfraction).trans (List.dropWhile_suffix _)
  exact (scanExponent_suffix hexponent).trans (hmiddle.trans (unsigned_suffix s))

theorem parseNumber_head {v : YyjsonVal} {rest : Bytes} (h : parseNumber s = some (v, rest)) :
    ∃ c tail, s = c :: tail ∧ (isDigit c = true ∨ c = minus) := by
  obtain ⟨_, _, _, hwhole, -⟩ := parseNumber_cases h
  rcases s with _ | ⟨c, s⟩
  · exact absurd rfl hwhole
  · refine ⟨c, s, rfl, ?_⟩
    by_cases hc : c = minus
    · exact .inr hc
    · left
      by_contra hdigit
      apply hwhole
      simp [unsigned, hc, hdigit]

theorem ends_dropWhile (s : Bytes) : Ends (s.dropWhile isNumeral) := by
  have h := List.head?_dropWhile_not isNumeral s
  intro c hc
  rw [Option.mem_def.mp hc] at h
  exact h

theorem literals_parseNumber {v : YyjsonVal} {rest : Bytes}
    (h : parseNumber s = some (v, rest)) (hrest : Ends rest) :
    ∃ literal, literalsFrom .outside s = literal :: literalsFrom .outside rest ∧
      parseNumber literal = some (v, []) := by
  have hsplit := parseNumber_append (l := s.takeWhile isNumeral) (ends_dropWhile s)
  rw [List.takeWhile_append_dropWhile, h] at hsplit
  obtain ⟨⟨w, tail⟩, hliteral, heq⟩ := Option.map_eq_some_iff.mp hsplit.symm
  obtain ⟨rfl, rfl⟩ := Prod.mk.inj heq
  -- What is left of the run would go on with the number, and `rest` does not.
  have hnil : tail = [] := by
    rcases tail with _ | ⟨c, tail⟩
    · rfl
    · have hc := (parseNumber_suffix hliteral).subset List.mem_cons_self
      have hnumeral := List.mem_takeWhile_imp hc
      rw [hrest c rfl] at hnumeral
      cases hnumeral
  subst hnil
  refine ⟨_, ?_, hliteral⟩
  obtain ⟨c, s, rfl, hc⟩ := parseNumber_head h
  have hquote : c ≠ quote := by
    rintro rfl
    exact absurd hc (by decide)
  have hnumeral : isNumeral c = true := by
    rcases hc with hc | hc <;> simp [isNumeral, hc]
  rw [literalsFrom, if_neg hquote, if_pos hc, literals_number]
  simp [hnumeral]

end JsonText

namespace Value

mutual

def numerals : Value → List Value
  | .null => []
  | .boolean _ => []
  | .integer i => [.integer i]
  | .number d => [.number d]
  | .string _ => []
  | .array items => numeralsItems items
  | .object members => numeralsMembers members

def numeralsItems : List Value → List Value
  | [] => []
  | v :: vs => numerals v ++ numeralsItems vs

def numeralsMembers : List (Bytes × Value) → List Value
  | [] => []
  | (_, v) :: ms => numerals v ++ numeralsMembers ms

end

end Value

namespace JsonText

open Yyjson

def ReadFrom (literal : Bytes) (value : Value) : Prop :=
  ∃ v, parseNumber literal = some (v, []) ∧ value = fromYyjson v

/-- A text has the literals of some numbers, and then those of what follows. -/
def Spells (s : Bytes) (values : List Value) (rest : Bytes) : Prop :=
  ∃ literals, literalsFrom .outside s = literals ++ literalsFrom .outside rest ∧
    List.Forall₂ ReadFrom literals values

theorem Spells.trans {s middle rest : Bytes} {values others : List Value}
    (h : Spells s values middle) (h' : Spells middle others rest) :
    Spells s (values ++ others) rest := by
  obtain ⟨literals, hs, hvalues⟩ := h
  obtain ⟨literals', hmiddle, hothers⟩ := h'
  exact ⟨literals ++ literals', by rw [hs, hmiddle, List.append_assoc],
    List.rel_append hvalues hothers⟩

theorem Spells.congr_left {s middle rest : Bytes} {values : List Value}
    (h : Spells middle values rest)
    (heq : literalsFrom .outside s = literalsFrom .outside middle) : Spells s values rest := by
  obtain ⟨literals, hmiddle, hvalues⟩ := h
  exact ⟨literals, by rw [heq, hmiddle], hvalues⟩

theorem Spells.congr_right {s middle rest : Bytes} {values : List Value}
    (h : Spells s values middle)
    (heq : literalsFrom .outside middle = literalsFrom .outside rest) : Spells s values rest := by
  obtain ⟨literals, hs, hvalues⟩ := h
  exact ⟨literals, by rw [hs, heq], hvalues⟩

theorem spells_of_eq {s rest : Bytes} (h : literalsFrom .outside s = literalsFrom .outside rest) :
    Spells s [] rest :=
  ⟨[], h, .nil⟩

theorem literals_head {d : UInt8} (h : (skipSpace s).head? = some d) (hd : Idle d) :
    literalsFrom .outside s = literalsFrom .outside (skipSpace s).tail := by
  obtain ⟨tail, htail⟩ := List.head?_eq_some_iff.mp h
  rw [← literals_skipSpace, htail, literals_skip hd]
  rfl

theorem literals_open (h : Idle c) :
    literalsFrom .outside (c :: s) = literalsFrom .outside (skipSpace s) := by
  rw [literals_skip h, literals_skipSpace]

theorem ends_of_skipSpace {rest : Bytes} (h : Ends (skipSpace rest)) : Ends rest := by
  rcases rest with _ | ⟨c, rest⟩
  · exact h
  · by_cases hspace : isSpace c = true
    · intro d hd
      obtain rfl := Option.some.inj hd
      exact (space_idle hspace).2
    · rwa [skipSpace_head (by simpa using hspace)] at h

theorem ends_of_head {d : UInt8} {rest : Bytes} (h : (skipSpace rest).head? = some d)
    (hd : isNumeral d = false) : Ends rest := by
  apply ends_of_skipSpace
  intro c hc
  rw [Option.mem_def, h] at hc
  obtain rfl := Option.some.inj hc
  exact hd

theorem literals_word {text rest : Bytes} (htext : ∀ c ∈ text, Idle c) :
    literalsFrom .outside (text ++ rest) = literalsFrom .outside rest := by
  induction text with
  | nil => rfl
  | cons c text ih =>
    rw [List.cons_append, literals_skip (htext c List.mem_cons_self)]
    exact ih fun d hd ↦ htext d (.tail c hd)

def ValueSpells (n : ℕ) : Prop := ∀ {s v rest}, parseValue n s = some (v, rest) → Ends rest →
  Spells s (fromYyjson v).numerals rest

def ItemsSpell (n : ℕ) : Prop := ∀ {s vs rest}, parseItems n s = some (vs, rest) →
  Spells s (Value.numeralsItems (fromItems vs)) rest

def MembersSpell (n : ℕ) : Prop := ∀ {s ms rest}, parseMembers n s = some (ms, rest) →
  Spells s (Value.numeralsMembers (fromMembers ms)) rest

variable {n : ℕ}

theorem ValueSpells.before {d : UInt8} {middle : Bytes} {v : YyjsonVal} (hvalue : ValueSpells n)
    (h : parseValue n s = some (v, middle)) (hnext : (skipSpace middle).head? = some d)
    (hd : Idle d ∧ isNumeral d = false) :
    Spells s (fromYyjson v).numerals (skipSpace middle).tail :=
  (hvalue h (ends_of_head hnext hd.2)).congr_right (literals_head hnext hd.1)

theorem itemsSpell_succ (hvalue : ValueSpells n) (hitems : ItemsSpell n) : ItemsSpell (n + 1) := by
  intro s vs rest h
  obtain ⟨v, middle, hfirst, ⟨hclose, rfl, rfl⟩ | ⟨hcomma, others, hothers, rfl⟩⟩ :=
    parseItems_cases h
  · have hspells := hvalue.before hfirst hclose (by decide)
    simpa [fromItems, Value.numeralsItems] using hspells
  · have hspells := hvalue.before hfirst hcomma (by decide)
    exact hspells.trans ((hitems hothers).congr_left (literals_skipSpace _).symm)

theorem literals_key {key rest : Bytes} (hquote : s.head? = some quote)
    (hkey : scanString s.length s.tail = some (key, rest))
    (hcolon : (skipSpace rest).head? = some colon) :
    literalsFrom .outside s = literalsFrom .outside (skipSpace (skipSpace rest).tail) := by
  obtain ⟨tail, rfl⟩ := List.head?_eq_some_iff.mp hquote
  rw [List.tail_cons] at hkey
  rw [literalsFrom, if_pos rfl, literals_string hkey, literals_head hcolon (by decide),
    literals_skipSpace]

theorem membersSpell_succ (hvalue : ValueSpells n) (hmembers : MembersSpell n) :
    MembersSpell (n + 1) := by
  intro s ms rest h
  obtain ⟨key, middle, v, after, hquote, hkey, hcolon, hfirst, hend⟩ := parseMembers_cases h
  have hbefore := literals_key hquote hkey hcolon
  obtain ⟨hclose, rfl, rfl⟩ | ⟨hcomma, others, hothers, rfl⟩ := hend
  · have hspells := (hvalue.before hfirst hclose (by decide)).congr_left hbefore
    simpa [fromMembers, Value.numeralsMembers] using hspells
  · have hspells := (hvalue.before hfirst hcomma (by decide)).congr_left hbefore
    exact hspells.trans ((hmembers hothers).congr_left (literals_skipSpace _).symm)

theorem integerVal_cases {negative : Bool} {m : ℕ} {v : YyjsonVal}
    (h : integerVal negative m = some v) :
    (negative = true ∧ m ≤ 2 ^ 63 ∧ v = .sint (Int64.ofInt (-m))) ∨
      (negative = false ∧ m < 2 ^ 64 ∧ v = .uint (UInt64.ofNat m)) ∨
      ((if negative then 2 ^ 63 < m else 2 ^ 64 ≤ m) ∧ ∃ d, v = .real d) := by
  unfold integerVal at h
  split_ifs at h with hnegative hm hm
  · exact .inl ⟨hnegative, hm, (Option.some.inj h).symm⟩
  · obtain ⟨d, -, rfl⟩ := Option.map_eq_some_iff.mp h
    exact .inr (.inr ⟨by simpa [hnegative] using hm, d, rfl⟩)
  · exact .inr (.inl ⟨by simpa using hnegative, hm, (Option.some.inj h).symm⟩)
  · obtain ⟨d, -, rfl⟩ := Option.map_eq_some_iff.mp h
    exact .inr (.inr ⟨by simpa [hnegative] using hm, d, rfl⟩)

theorem numerals_number {v : YyjsonVal} {rest : Bytes} (h : parseNumber s = some (v, rest)) :
    (fromYyjson v).numerals = [fromYyjson v] := by
  obtain ⟨_, _, _, -, -, -, ⟨-, hinteger⟩ | ⟨-, d, rfl⟩⟩ := parseNumber_cases h
  · obtain ⟨-, -, rfl⟩ | ⟨-, -, rfl⟩ | ⟨-, d, rfl⟩ := integerVal_cases hinteger
    · rfl
    · rfl
    · rfl
  · rfl

theorem spells_parseNumber {v : YyjsonVal} {rest : Bytes} (h : parseNumber s = some (v, rest))
    (hrest : Ends rest) : Spells s (fromYyjson v).numerals rest := by
  obtain ⟨literal, hs, hliteral⟩ := literals_parseNumber h hrest
  rw [numerals_number h]
  exact ⟨[literal], hs, .cons ⟨v, hliteral, rfl⟩ .nil⟩

theorem valueSpells_succ (hitems : ItemsSpell n) (hmembers : MembersSpell n) :
    ValueSpells (n + 1) := by
  intro s v rest h hrest
  cases parseValue_cases h with
  | str htext => exact spells_of_eq (by rw [literalsFrom, if_pos rfl, literals_string htext])
  | noItems hnil =>
    apply spells_of_eq
    rw [literals_skip (by decide), literals_head hnil (by decide)]
  | arr hall => exact (hitems hall).congr_left (literals_open (by decide))
  | noMembers hempty =>
    apply spells_of_eq
    rw [literals_skip (by decide), literals_head hempty (by decide)]
  | obj hall => exact (hmembers hall).congr_left (literals_open (by decide))
  | null => exact spells_of_eq (literals_word (by decide +kernel))
  | true => exact spells_of_eq (literals_word (by decide +kernel))
  | false => exact spells_of_eq (literals_word (by decide +kernel))
  | number hnumber => exact spells_parseNumber hnumber hrest

theorem spells (n : ℕ) : ValueSpells n ∧ ItemsSpell n ∧ MembersSpell n := by
  -- On the fuel, which the three readers hand to one another.
  induction n with
  | zero =>
    refine ⟨?_, ?_, ?_⟩
    · intro s v rest h
      cases h
    · intro s vs rest h
      cases h
    · intro s ms rest h
      cases h
  | succ n ih =>
    obtain ⟨hvalue, hitems, hmembers⟩ := ih
    exact ⟨valueSpells_succ hitems hmembers, itemsSpell_succ hvalue hitems,
      membersSpell_succ hvalue hmembers⟩

/-- The number literals of a text that is accepted, and the numbers of its value, are one for one. -/
theorem numberLiterals_read {text : Bytes} {value : Value} (h : jsonParse text = .ok value) :
    List.Forall₂ ReadFrom (numberLiterals text) value.numerals := by
  obtain ⟨v, rest, hparse, hblank, rfl⟩ := jsonParse_cases h
  have hends : Ends rest := ends_of_skipSpace (by simp [hblank, Ends])
  obtain ⟨literals, hliterals, hread⟩ := (spells _).1 hparse hends
  rw [literals_skipSpace, ← literals_skipSpace rest, hblank] at hliterals
  rw [numberLiterals, hliterals]
  simpa [literalsFrom] using hread

def Kept (n : ℤ) (value : Value) : Prop :=
  (∃ i : Int64, value = .integer i ∧ i.toInt = n) ∨
    (¬(-2 ^ 63 ≤ n ∧ n < 2 ^ 63) ∧ ∃ d, value = .number d)

/-- Every integer literal of a text has become the integer that it denotes. -/
def IntegersKept (text : Bytes) (value : Value) : Prop :=
  List.Forall₂ (fun literal v ↦ ∀ n, denoted literal = some n → Kept n v)
    (numberLiterals text) value.numerals

variable {literal : Bytes} {value : Value}

theorem integerVal_of_denoted {n : ℤ} {v : YyjsonVal} {rest : Bytes}
    (h : parseNumber literal = some (v, rest)) (hn : denoted literal = some n) :
    ∃ m : ℕ, integerVal (literal.head? = some minus) m = some v ∧
      n = if literal.head? = some minus then -(m : ℤ) else m := by
  unfold denoted at hn
  by_cases hdigits : unsigned literal ≠ [] ∧ (unsigned literal).all isDigit = true
  · rw [if_pos hdigits] at hn
    obtain rfl := Option.some.inj hn
    have hall := List.all_eq_true.mp hdigits.2
    obtain ⟨fraction, middle, exponent, -, hfraction, hexponent, hcases⟩ := parseNumber_cases h
    rw [List.dropWhile_eq_nil_iff.mpr hall] at hfraction
    obtain ⟨rfl, rfl⟩ := Prod.mk.inj (Option.some.inj hfraction)
    obtain ⟨rfl, rfl⟩ := Prod.mk.inj (Option.some.inj hexponent)
    rw [List.takeWhile_eq_self_iff.mpr hall] at hcases
    obtain ⟨-, hval⟩ | ⟨hreal, -⟩ := hcases
    · exact ⟨_, hval, rfl⟩
    · exact absurd ⟨rfl, rfl⟩ hreal
  · rw [if_neg hdigits] at hn
    cases hn

theorem not_kept_integer {n : ℤ} {i : Int64} (h : 2 ^ 63 ≤ n) : ¬Kept n (.integer i) := by
  rintro (⟨j, heq, hj⟩ | ⟨-, d, hd⟩)
  · have hlt := j.toInt_lt
    omega
  · cases hd

/-- An integer literal becomes the integer that it denotes, except from 2^63 to 2^64 - 1. -/
theorem kept_iff {n : ℤ} (h : ReadFrom literal value) (hn : denoted literal = some n) :
    Kept n value ↔ ¬(2 ^ 63 ≤ n ∧ n < 2 ^ 64) := by
  obtain ⟨v, hparse, rfl⟩ := h
  obtain ⟨m, hval, hm⟩ := integerVal_of_denoted hparse hn
  obtain ⟨hnegative, hbound, rfl⟩ | ⟨hnegative, hbound, rfl⟩ | ⟨hbound, d, rfl⟩ :=
    integerVal_cases hval
  · rw [if_pos (by simpa using hnegative)] at hm
    refine ⟨fun _ ↦ by omega, fun _ ↦ .inl ⟨_, rfl, ?_⟩⟩
    rw [Int64.toInt_ofInt_of_le (by omega) (by omega), hm]
  · rw [if_neg (by simpa using hnegative)] at hm
    by_cases hsmall : m < 2 ^ 63
    · refine ⟨fun _ ↦ by omega, fun _ ↦ .inl ⟨_, rfl, ?_⟩⟩
      rw [UInt64.toInt64_ofNat', Int64.toInt_ofNat_of_lt hsmall, hm]
    · refine ⟨fun hkept ↦ absurd hkept (not_kept_integer (by omega)), fun hout ↦ ?_⟩
      omega
  · have hfar : n < -2 ^ 63 ∨ 2 ^ 64 ≤ n := by
      by_cases hsign : literal.head? = some minus
      · rw [if_pos hsign] at hm
        rw [if_pos (by simpa using hsign)] at hbound
        omega
      · rw [if_neg hsign] at hm
        rw [if_neg (by simpa using hsign)] at hbound
        omega
    exact ⟨fun _ ↦ by omega, fun _ ↦ .inr ⟨by omega, d, rfl⟩⟩

/-- The integers of a text are kept exactly where no literal is too large for a signed integer and
fits an unsigned one. -/
theorem integersKept_iff {text : Bytes} (h : jsonParse text = .ok value) :
    IntegersKept text value ↔
      ∀ literal ∈ numberLiterals text, ∀ n, denoted literal = some n →
        ¬(2 ^ 63 ≤ n ∧ n < 2 ^ 64) := by
  apply forall₂_iff (numberLiterals_read h)
  intro literal v hread
  refine ⟨fun hkept n hn ↦ ?_, fun hout n hn ↦ ?_⟩
  · exact (kept_iff hread hn).mp (hkept n hn)
  · exact (kept_iff hread hn).mpr (hout n hn)

theorem exists_value {text : Bytes} {p : Value → Bool} (h : (jsonParse text).toOption.any p = true) :
    ∃ value, jsonParse text = .ok value ∧ p value = true := by
  cases hparse : jsonParse text with
  | error e => simp [hparse, Except.toOption] at h
  | ok value => exact ⟨value, rfl, by simpa [hparse, Except.toOption] using h⟩

def nestedText : Bytes := ascii "[-9223372036854775808, \x7b\"a\": 18446744073709551616\x7d, \"\\\"1\"]"

theorem integersKept_nested : ∃ value, jsonParse nestedText = .ok value ∧
    (numberLiterals nestedText).length = 2 ∧ IntegersKept nestedText value := by
  have hfacts : (jsonParse nestedText).toOption.any (fun _ ↦ true) = true ∧
      (numberLiterals nestedText).length = 2 ∧
      (numberLiterals nestedText).all (fun literal ↦
        (denoted literal).all fun n ↦ ¬(2 ^ 63 ≤ n ∧ n < 2 ^ 64)) = true := by
    decide +kernel
  obtain ⟨hparse, htwo, hliterals⟩ := hfacts
  obtain ⟨value, hvalue, -⟩ := exists_value hparse
  refine ⟨value, hvalue, htwo, (integersKept_iff hvalue).mpr fun literal hliteral n hn ↦ ?_⟩
  have hall := List.all_eq_true.mp hliterals literal hliteral
  rw [hn] at hall
  simp only [Option.all_some, decide_eq_true_eq] at hall
  exact hall

/-- 2^63 is read as the least integer. -/
theorem integersKept_unsigned : ∃ value, jsonParse (ascii "9223372036854775808") = .ok value ∧
    value.asInt = some Int64.minValue ∧ ¬IntegersKept (ascii "9223372036854775808") value := by
  have hfacts : (jsonParse (ascii "9223372036854775808")).toOption.any
        (fun v ↦ v.asInt = some Int64.minValue) = true ∧
      numberLiterals (ascii "9223372036854775808") = [ascii "9223372036854775808"] ∧
      denoted (ascii "9223372036854775808") = some (2 ^ 63) := by
    decide +kernel
  obtain ⟨hparse, hliterals, hdenoted⟩ := hfacts
  obtain ⟨value, hvalue, hint⟩ := exists_value hparse
  have hasInt : value.asInt = some Int64.minValue := by simpa using hint
  refine ⟨value, hvalue, hasInt, fun hkept ↦ ?_⟩
  cases value <;> cases hasInt
  rw [IntegersKept, hliterals] at hkept
  obtain ⟨hfirst, -⟩ := List.forall₂_cons.mp hkept
  exact not_kept_integer le_rfl (hfirst _ hdenoted)

end JsonText

end SquaredPg
