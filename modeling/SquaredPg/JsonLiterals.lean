import SquaredPg.Json

namespace SquaredPg

open Ascii

namespace Yyjson

/-- The text of a string literal behind its opening quote, and what follows the literal. -/
def literal (escape : UInt8 → Bytes) (text rest : Bytes) : Bytes :=
  text.flatMap escape ++ quote :: rest

/-- What a way to write the bytes of a string must keep to, for the string to be read back. -/
structure Escaping (escape : UInt8 → Bytes) : Prop where
  high : ∀ {c : UInt8}, 0x80 ≤ c → escape c = [c]
  head : ∀ {c : UInt8}, c < 0x80 → ∃ d tail, escape c = d :: tail ∧ d < 0x80 ∧ d ≠ quote
  scan : ∀ {c : UInt8}, c < 0x80 → ∀ rest, scanChar (escape c ++ rest) = some ([c], rest)

section

variable {escape : UInt8 → Bytes} (h : Escaping escape)

theorem literal_cons (escape : UInt8 → Bytes) (c : UInt8) (text rest : Bytes) :
    literal escape (c :: text) rest = escape c ++ literal escape text rest := by
  simp [literal]

theorem high_of_isContinuation {c : UInt8} (h : Utf8.isContinuation c = true) : 0x80 ≤ c := by
  simp only [Utf8.isContinuation, decide_eq_true_eq] at h
  exact h.1

theorem high_of_secondAllowed {lead c : UInt8} (h : Utf8.secondAllowed lead c = true) :
    0x80 ≤ c := by
  simp only [Utf8.secondAllowed, decide_eq_true_eq] at h
  exact high_of_isContinuation h.1

theorem high_of_sequence {c : UInt8} {text : Bytes} (h : ¬ c < 0x80)
    (hn : Utf8.sequenceLength (c :: text) ≠ 0) :
    ∃ tail rest, text = tail ++ rest ∧ Utf8.sequenceLength (c :: text) = tail.length + 1 ∧
      ∀ b ∈ tail, (0x80 : UInt8) ≤ b := by
  revert hn
  simp only [Utf8.sequenceLength, if_neg h]
  split_ifs
  · rcases text with _ | ⟨a, text⟩
    · simp
    · by_cases ha : Utf8.isContinuation a = true
      · exact fun _ ↦ ⟨[a], text, rfl, by simp [ha], by simpa using high_of_isContinuation ha⟩
      · simp [ha]
  · rcases text with _ | ⟨a, _ | ⟨b, text⟩⟩
    · simp
    · simp
    · by_cases hab : Utf8.secondAllowed c a = true ∧ Utf8.isContinuation b = true
      · exact fun _ ↦ ⟨[a, b], text, rfl, by simp [hab],
          by simpa using ⟨high_of_secondAllowed hab.1, high_of_isContinuation hab.2⟩⟩
      · simp [hab]
  · rcases text with _ | ⟨a, _ | ⟨b, _ | ⟨d, text⟩⟩⟩
    · simp
    · simp
    · simp
    · by_cases habd : Utf8.secondAllowed c a = true ∧ Utf8.isContinuation b = true ∧
          Utf8.isContinuation d = true
      · exact fun _ ↦ ⟨[a, b, d], text, rfl, by simp [habd],
          by simpa using ⟨high_of_secondAllowed habd.1, high_of_isContinuation habd.2.1,
            high_of_isContinuation habd.2.2⟩⟩
      · simp [habd]
  · simp

include h

theorem literal_high {c : UInt8} (hc : 0x80 ≤ c) (text rest : Bytes) :
    literal escape (c :: text) rest = c :: literal escape text rest := by
  rw [literal_cons, h.high hc]
  rfl

theorem literal_view (text rest : Bytes) :
    (∃ b tail, text = b :: tail ∧ literal escape text rest = b :: literal escape tail rest) ∨
      ∃ d tail, literal escape text rest = d :: tail ∧ d < 0x80 ∧ ∀ b ∈ text.head?, b < 0x80 := by
  cases text with
  | nil => exact .inr ⟨quote, rest, rfl, by decide, by simp⟩
  | cons c text =>
    by_cases hc : c < 0x80
    · obtain ⟨d, tail, heq, hd, -⟩ := h.head hc
      exact .inr ⟨d, tail ++ literal escape text rest, by rw [literal_cons, heq]; rfl, hd,
        by simpa using hc⟩
    · exact .inl ⟨c, text, rfl, literal_high h (by simpa using hc) text rest⟩

omit h in
theorem isContinuation_low {c : UInt8} (hc : c < 0x80) : Utf8.isContinuation c = false := by
  simp [Utf8.isContinuation, hc]

theorem sequenceLength_literal {c : UInt8} (hc : ¬ c < 0x80) (text rest : Bytes) :
    Utf8.sequenceLength (c :: literal escape text rest) = Utf8.sequenceLength (c :: text) := by
  simp only [Utf8.sequenceLength, if_neg hc]
  rcases literal_view h text rest with ⟨b, text, rfl, hq⟩ | ⟨d, tail, hq, hd, hlow⟩
  · rw [hq]
    rcases literal_view h text rest with ⟨b', text, rfl, hq'⟩ | ⟨d, tail, hq', hd, hlow⟩
    · rw [hq']
      rcases literal_view h text rest with ⟨b'', text, rfl, hq''⟩ | ⟨d, tail, hq'', hd, hlow⟩
      · rw [hq'']
      · rw [hq'']
        cases text with
        | nil => simp [isContinuation_low hd]
        | cons e text => simp [isContinuation_low hd, isContinuation_low (hlow e rfl)]
    · rw [hq']
      cases text with
      | nil => cases tail <;> simp [isContinuation_low hd]
      | cons e text =>
        cases tail <;> cases text <;>
          simp [isContinuation_low hd, isContinuation_low (hlow e rfl)]
  · have hsecond : ∀ {e : UInt8}, e < 0x80 → Utf8.secondAllowed c e = false := by
      intro e he
      simp [Utf8.secondAllowed, isContinuation_low he]
    rw [hq]
    cases text with
    | nil =>
      rcases tail with _ | ⟨t, _ | ⟨t', tail⟩⟩ <;> simp [isContinuation_low hd, hsecond hd]
    | cons e text =>
      have he := hlow e rfl
      rcases tail with _ | ⟨t, _ | ⟨t', tail⟩⟩ <;> rcases text with _ | ⟨u, _ | ⟨u', text⟩⟩ <;>
        simp [isContinuation_low hd, hsecond hd, isContinuation_low he, hsecond he]

theorem literal_append_high {tail : Bytes} (htail : ∀ b ∈ tail, (0x80 : UInt8) ≤ b)
    (text rest : Bytes) :
    literal escape (tail ++ text) rest = tail ++ literal escape text rest := by
  induction tail with
  | nil => rfl
  | cons b tail ih =>
    rw [List.cons_append, literal_high h (htail b (by simp)), ih fun d hd ↦ htail d (by simp [hd])]
    rfl

theorem head_literal_cons (c : UInt8) (text rest : Bytes) :
    (literal escape (c :: text) rest).head? ≠ some quote := by
  by_cases hc : c < 0x80
  · obtain ⟨d, tail, heq, -, hd⟩ := h.head hc
    rw [literal_cons, heq]
    simpa using hd
  · rw [literal_high h (by simpa using hc)]
    have hne : c ≠ quote := by
      intro heq
      subst heq
      exact hc (by decide)
    simpa using hne

/-- A string literal is read back exactly when its text is UTF-8. -/
theorem scanString_literal (n : ℕ) : ∀ (m : ℕ) (text rest : Bytes), text.length < n →
    text.length ≤ m → scanString n (literal escape text rest) =
      if Utf8.validUpTo m text then some (text, rest) else none := by
  induction n with
  | zero => intro m text rest h; omega
  | succ n ih =>
    intro m text rest hn hm
    rcases text with _ | ⟨c, text⟩
    · cases m <;> simp [scanString, literal, Utf8.validUpTo]
    · obtain ⟨m, rfl⟩ : ∃ m', m = m' + 1 := ⟨m - 1, by simp at hm; omega⟩
      rw [scanString, if_neg (head_literal_cons h c text rest)]
      by_cases hc : c < 0x80
      · have hone : Utf8.sequenceLength (c :: text) = 1 := by simp [Utf8.sequenceLength, hc]
        rw [literal_cons, h.scan hc]
        simp only [Option.bind_eq_bind, Option.bind_some, Utf8.validUpTo, hone]
        rw [ih m text rest (by simpa using hn) (by simpa using hm)]
        by_cases hv : Utf8.validUpTo m text = true <;> simp [hv]
      · have hback : c ≠ backslash := by rintro rfl; exact hc (by decide)
        have hcontrol : ¬ c < 32 := fun h ↦ hc (UInt8.lt_trans h (by decide))
        rw [literal_high h (by simpa using hc)]
        simp only [scanChar, if_neg hback, if_neg hcontrol, sequenceLength_literal h hc]
        by_cases hzero : Utf8.sequenceLength (c :: text) = 0
        · simp [hzero, Utf8.validUpTo]
        · obtain ⟨tail, suffix, rfl, hlen, hhigh⟩ := high_of_sequence hc hzero
          simp only [List.length_append, List.length_cons] at hn hm
          rw [if_neg hzero, hlen, literal_append_high h hhigh]
          simp only [List.take_succ_cons, List.take_left, List.drop_succ_cons, List.drop_left,
            Option.bind_eq_bind, Option.bind_some, Utf8.validUpTo, hlen]
          rw [ih m suffix rest (by omega) (by omega)]
          by_cases hv : Utf8.validUpTo m suffix = true <;> simp [hv]

theorem length_literal (text rest : Bytes) : text.length < (literal escape text rest).length := by
  induction text with
  | nil => simp [literal]
  | cons c text ih =>
    have hpos : 0 < (escape c).length := by
      by_cases hc : c < 0x80
      · obtain ⟨d, tail, heq, -⟩ := h.head hc
        simp [heq]
      · simp [h.high (by simpa using hc)]
    rw [literal_cons, List.length_append, List.length_cons]
    omega

end

theorem hexCode_control : ∀ n < 128,
    hexCode zero zero (hexDigit (n / 16)) (hexDigit (n % 16)) = some n := by
  decide +kernel

theorem scanUnicode_control {n : ℕ} (h : n < 128) (rest : Bytes) :
    scanUnicode (zero :: zero :: hexDigit (n / 16) :: hexDigit (n % 16) :: rest) =
      some ([UInt8.ofNat n], rest) := by
  have hlow : ¬ (0xD800 ≤ n ∧ n < 0xDC00) := by omega
  have hsurrogate : ¬ (0xDC00 ≤ n ∧ n < 0xE000) := by omega
  have hascii : n < 0x80 := by omega
  simp [scanUnicode, hexCode_control n h, hlow, hsurrogate, encodeUtf8, hascii]

theorem scanChar_plain {c : UInt8} (h : c < 0x80) (hback : c ≠ backslash) (hcontrol : ¬ c < 32)
    (rest : Bytes) : scanChar ([c] ++ rest) = some ([c], rest) := by
  simp [scanChar, hback, hcontrol, Utf8.sequenceLength, h]

theorem ne_of_high {c : UInt8} (h : 0x80 ≤ c) {d : UInt8} (hd : d < 0x80) : c ≠ d := by
  intro heq
  subst heq
  exact absurd (UInt8.lt_of_lt_of_le hd h) (UInt8.lt_irrefl _)

theorem not_control_of_high {c : UInt8} (h : 0x80 ≤ c) : ¬ c < 32 :=
  fun hc ↦ absurd (UInt8.lt_of_lt_of_le (UInt8.lt_trans hc (by decide : (32 : UInt8) < 0x80)) h)
    (UInt8.lt_irrefl _)

theorem escaping_escapeByte : Escaping escapeByte where
  high {c} h := by
    simp [escapeByte, ne_of_high h (d := quote) (by decide),
      ne_of_high h (d := backslash) (by decide), ne_of_high h (d := 10) (by decide),
      ne_of_high h (d := 13) (by decide), ne_of_high h (d := 9) (by decide),
      ne_of_high h (d := 8) (by decide), ne_of_high h (d := 12) (by decide),
      not_control_of_high h]
  head {c} h := by
    unfold escapeByte
    split_ifs with hspecial
    all_goals first
      | exact ⟨_, _, rfl, by decide, by decide⟩
      | exact ⟨c, [], rfl, h, fun heq ↦ hspecial (.inl heq)⟩
  scan {c} h rest := by
    unfold escapeByte
    split_ifs with hspecial h10 h13 h9 h8 h12 hcontrol
    · rcases hspecial with rfl | rfl <;> rfl
    · subst h10; rfl
    · subst h13; rfl
    · subst h9; rfl
    · subst h8; rfl
    · subst h12; rfl
    · have hn : c.toNat < 128 := h
      have hscan := scanUnicode_control hn rest
      rw [UInt8.ofNat_toNat] at hscan
      exact hscan
    · exact scanChar_plain h (fun heq ↦ hspecial (.inr heq)) hcontrol rest

def quoted (text rest : Bytes) : Bytes := text.flatMap escapeByte ++ quote :: rest

theorem scanString_writeEscaped {n : ℕ} {text : Bytes} (rest : Bytes) (h : text.length < n) :
    scanString n (quoted text rest) = if Utf8.valid text then some (text, rest) else none :=
  scanString_literal escaping_escapeByte n _ text rest h le_rfl

theorem length_quoted (text rest : Bytes) : text.length < (quoted text rest).length :=
  length_literal escaping_escapeByte text rest

theorem writeEscaped_append (text rest : Bytes) :
    writeEscaped text ++ rest = quote :: quoted text rest := by
  simp [writeEscaped, quoted]

/-- What may stand behind a number: nothing that would go on with it. -/
def Boundary (rest : Bytes) : Prop :=
  ∀ c ∈ rest.head?, isDigit c = false ∧ c ≠ dot ∧ c ≠ 101 ∧ c ≠ 69

theorem takeWhile_decimal (n : ℕ) {rest : Bytes} (h : Boundary rest) :
    (decimal n ++ rest).takeWhile isDigit = decimal n ∧
      (decimal n ++ rest).dropWhile isDigit = rest := by
  rw [List.takeWhile_append_of_pos fun c hc ↦ decimal_digits hc,
    List.dropWhile_append_of_pos fun c hc ↦ decimal_digits hc]
  rcases rest with _ | ⟨c, rest⟩
  · simp
  · simp [(h c rfl).1]

theorem leading_decimal (n : ℕ) :
    ¬ (decimal n = [] ∨ (decimal n).head? = some zero ∧ (decimal n).length ≠ 1) := by
  rintro (hnil | ⟨hhead, hlen⟩)
  · exact decimal_ne_nil n hnil
  · rcases Nat.eq_zero_or_pos n with rfl | hn
    · exact hlen (by decide)
    · exact head_decimal hn hhead

theorem scanFraction_boundary {rest : Bytes} (h : Boundary rest) :
    scanFraction rest = some ([], rest) := by
  rcases rest with _ | ⟨c, rest⟩
  · rfl
  · simp [scanFraction, (h c rfl).2.1]

theorem scanExponent_boundary {rest : Bytes} (h : Boundary rest) :
    scanExponent rest = some (none, rest) := by
  rcases rest with _ | ⟨c, rest⟩
  · rfl
  · simp [scanExponent, (h c rfl).2.2]

def integerYyjson (i : Int64) : YyjsonVal := if i.toInt < 0 then .sint i else .uint i.toUInt64

theorem integerVal_negative {i : Int64} (h : i.toInt < 0) :
    integerVal true i.toInt.natAbs = some (integerYyjson i) := by
  have hlow := i.le_toInt
  have hbound : i.toInt.natAbs ≤ 2 ^ 63 := by omega
  have hback : -(i.toInt.natAbs : ℤ) = i.toInt := by omega
  rw [integerVal, if_pos rfl, if_pos hbound, hback, Int64.ofInt_toInt, integerYyjson, if_pos h]

theorem integerVal_nonneg {i : Int64} (h : ¬ i.toInt < 0) :
    integerVal false i.toInt.natAbs = some (integerYyjson i) := by
  have hhigh := i.toInt_lt
  have hbound : i.toInt.natAbs < 2 ^ 64 := by omega
  have hback : UInt64.ofNat i.toInt.natAbs = i.toUInt64 := by
    apply UInt64.toNat_inj.mp
    have hle : 0 ≤ i := Int64.le_iff_toInt_le.mpr (by simpa using h)
    rw [Int64.toNat_toUInt64_of_le hle, UInt64.toNat_ofNat', Int64.toNatClampNeg]
    omega
  rw [integerVal, if_neg (by simp), if_pos hbound, hback, integerYyjson, if_neg h]

theorem head_digits_append (n : ℕ) (rest : Bytes) :
    ∃ c tail, decimal n ++ rest = c :: tail ∧ isDigit c = true := by
  obtain ⟨c, tail, htail⟩ := List.exists_cons_of_ne_nil (decimal_ne_nil n)
  exact ⟨c, tail ++ rest, by rw [htail]; rfl, decimal_digits (by rw [htail]; simp)⟩

theorem parseNumber_integerText (i : Int64) {rest : Bytes} (h : Boundary rest) :
    parseNumber (integerText i ++ rest) = some (integerYyjson i, rest) := by
  obtain ⟨htake, hdrop⟩ := takeWhile_decimal i.toInt.natAbs h
  by_cases hneg : i.toInt < 0
  · simp [parseNumber, integerText, hneg, htake, hdrop, leading_decimal, scanFraction_boundary h,
      scanExponent_boundary h, digitsValue_decimal, integerVal_negative hneg]
  · obtain ⟨c, tail, hc, hdigit⟩ := head_digits_append i.toInt.natAbs rest
    have hsign : (decimal i.toInt.natAbs ++ rest).head? ≠ some minus := by
      rw [hc]
      simp only [List.head?_cons, ne_eq, Option.some.injEq]
      rintro rfl
      exact absurd hdigit (by decide)
    rw [integerText, if_neg hneg]
    generalize decimal i.toInt.natAbs ++ rest = s at htake hdrop hsign
    simp [parseNumber, hsign, htake, hdrop, leading_decimal, scanFraction_boundary h,
      scanExponent_boundary h, digitsValue_decimal, integerVal_nonneg hneg]

end Yyjson

namespace Value

inductive NumberFree : Value → Prop
  | null : NumberFree null
  | boolean (b : Bool) : NumberFree (boolean b)
  | integer (i : Int64) : NumberFree (integer i)
  | string (s : Bytes) : NumberFree (string s)
  | array {items : List Value} (h : ∀ v ∈ items, NumberFree v) : NumberFree (array items)
  | object {members : List (Bytes × Value)} (h : ∀ m ∈ members, NumberFree m.2) :
    NumberFree (object members)

mutual

/-- The strings and the keys of a value, in the order they are written. -/
def texts : Value → List Bytes
  | .null => []
  | .boolean _ => []
  | .integer _ => []
  | .number _ => []
  | .string s => [s]
  | .array items => textsItems items
  | .object members => textsMembers members

def textsItems : List Value → List Bytes
  | [] => []
  | v :: vs => texts v ++ textsItems vs

def textsMembers : List (Bytes × Value) → List Bytes
  | [] => []
  | (k, v) :: ms => k :: (texts v ++ textsMembers ms)

end

theorem texts_string (p : Bytes → Bool) (s : Bytes) : (string s).texts.all p = p s := by
  simp [texts]

theorem texts_integer (p : Bytes → Bool) (i : Int64) : (integer i).texts.all p = true := rfl

theorem texts_array (p : Bytes → Bool) (items : List Value) :
    (array items).texts.all p = items.all fun v ↦ v.texts.all p := by
  rw [texts]
  induction items with
  | nil => rfl
  | cons v items ih => rw [textsItems, List.all_append, List.all_cons, ih]

theorem texts_object (p : Bytes → Bool) (members : List (Bytes × Value)) :
    (object members).texts.all p = members.all fun m ↦ p m.1 && m.2.texts.all p := by
  rw [texts]
  induction members with
  | nil => rfl
  | cons m members ih =>
    obtain ⟨k, v⟩ := m
    rw [textsMembers, List.all_cons, List.all_append, List.all_cons, ih, Bool.and_assoc]

theorem texts_strings (p : Bytes → Bool) (items : List Bytes) :
    (strings items).texts.all p = items.all p := by
  rw [strings, texts_array, List.all_map]
  simp [Function.comp_def, texts]

end Value

namespace Yyjson

theorem skipSpace_head {s : Bytes} (h : ∀ c ∈ s.head?, isSpace c = false) : skipSpace s = s := by
  rcases s with _ | ⟨c, s⟩
  · rfl
  · simp [skipSpace, h c rfl]

theorem skipSpace_newline (pretty : Bool) (depth : ℕ) {s : Bytes}
    (h : ∀ c ∈ s.head?, isSpace c = false) : skipSpace (newline pretty depth ++ s) = s := by
  cases pretty
  · exact skipSpace_head h
  · have hblank : ∀ c ∈ newline true depth, isSpace c = true := by
      intro c hc
      simp only [newline, if_true, List.mem_cons, List.mem_replicate] at hc
      rcases hc with rfl | ⟨-, rfl⟩ <;> rfl
    rw [skipSpace, List.dropWhile_append_of_pos hblank]
    exact skipSpace_head h

theorem boundary_of_head {c : UInt8} (rest : Bytes)
    (h : isDigit c = false ∧ c ≠ dot ∧ c ≠ 101 ∧ c ≠ 69) : Boundary (c :: rest) := by
  simpa [Boundary] using h

theorem boundary_newline (pretty : Bool) (depth : ℕ) {s : Bytes} (h : Boundary s) :
    Boundary (newline pretty depth ++ s) := by
  cases pretty
  · exact h
  · exact boundary_of_head _ (by decide)

theorem boundary_writeItems (pretty : Bool) (depth : ℕ) (items : List Value) (rest : Bytes) :
    Boundary (writeItems pretty depth items ++ rest) := by
  cases items with
  | nil =>
    rw [writeItems, List.append_assoc]
    exact boundary_newline pretty depth (boundary_of_head _ (by decide))
  | cons v items => exact boundary_of_head _ (by decide)

theorem boundary_writeMembers (pretty : Bool) (depth : ℕ) (members : List (Bytes × Value))
    (rest : Bytes) : Boundary (writeMembers pretty depth members ++ rest) := by
  rcases members with _ | ⟨⟨k, v⟩, members⟩
  · rw [writeMembers, List.append_assoc]
    exact boundary_newline pretty depth (boundary_of_head _ (by decide))
  · exact boundary_of_head _ (by decide)

theorem head_colon (pretty : Bool) (rest : Bytes) :
    (skipSpace (ascii (if pretty then ": " else ":") ++ rest)).head? = some colon := by
  cases pretty <;> rfl

theorem skipSpace_key (pretty : Bool) (depth : ℕ) (k rest : Bytes) :
    skipSpace (newline pretty depth ++ (writeEscaped k ++ rest)) = writeEscaped k ++ rest := by
  refine skipSpace_newline pretty depth ?_
  rw [writeEscaped_append]
  simp [isSpace, quote]

theorem parseValue_number {n : ℕ} {c : UInt8} {tail : Bytes} (h : c = minus ∨ isDigit c = true) :
    parseValue (n + 1) (c :: tail) = parseNumber (c :: tail) := by
  have hne : ∀ d : UInt8, d ≠ minus → isDigit d = false → c ≠ d := by
    rintro d hminus hdigit rfl
    rcases h with rfl | h
    · exact hminus rfl
    · rw [hdigit] at h
      exact absurd h (by decide)
  rw [parseValue, if_neg (hne quote (by decide) (by decide)),
    if_neg (hne openBracket (by decide) (by decide)), if_neg (hne openBrace (by decide) (by decide)),
    if_neg (hne 110 (by decide) (by decide)), if_neg (hne 116 (by decide) (by decide)),
    if_neg (hne 102 (by decide) (by decide))]

end Yyjson

end SquaredPg
