import SquaredPg.Error
import SquaredPg.Sha256

namespace SquaredPg

namespace Utf8

def isContinuation (c : UInt8) : Bool := 0x80 ≤ c ∧ c ≤ 0xBF

def secondAllowed (lead c : UInt8) : Bool :=
  isContinuation c ∧ (lead = 0xE0 → 0xA0 ≤ c) ∧ (lead = 0xED → c ≤ 0x9F) ∧
    (lead = 0xF0 → 0x90 ≤ c) ∧ (lead = 0xF4 → c ≤ 0x8F)

/-- How many bytes the well-formed sequence at the front of `s` has; zero if there is none. -/
def sequenceLength : Bytes → ℕ
  | [] => 0
  | a :: s =>
    if a < 0x80 then 1
    else if 0xC2 ≤ a ∧ a ≤ 0xDF then
      match s with
      | b :: _ => if isContinuation b then 2 else 0
      | [] => 0
    else if 0xE0 ≤ a ∧ a ≤ 0xEF then
      match s with
      | b :: c :: _ => if secondAllowed a b ∧ isContinuation c then 3 else 0
      | _ => 0
    else if 0xF0 ≤ a ∧ a ≤ 0xF4 then
      match s with
      | b :: c :: d :: _ =>
        if secondAllowed a b ∧ isContinuation c ∧ isContinuation d then 4 else 0
      | _ => 0
    else 0

/-- Whether `s` is a run of well-formed sequences; `n` bounds their number. -/
def validUpTo : ℕ → Bytes → Bool
  | _, [] => true
  | 0, _ :: _ => false
  | n + 1, s => sequenceLength s ≠ 0 ∧ validUpTo n (s.drop (sequenceLength s))

def valid (s : Bytes) : Bool := validUpTo s.length s

end Utf8

/-- What `yyjson_get_type` and the number subtypes tell apart. -/
inductive YyjsonVal
  | null
  | bool (b : Bool)
  | uint (n : UInt64)
  | sint (n : Int64)
  | real (d : Double)
  | str (s : Bytes)
  | arr (items : List YyjsonVal)
  | obj (members : List (Bytes × YyjsonVal))

namespace Yyjson

open Ascii

def isSpace (c : UInt8) : Bool := c = 32 ∨ c = 9 ∨ c = 10 ∨ c = 13

def skipSpace (s : Bytes) : Bytes := s.dropWhile isSpace

def hexValue (c : UInt8) : Option ℕ :=
  if isDigit c then some (c.toNat - 48)
  else if 97 ≤ c ∧ c ≤ 102 then some (c.toNat - 87)
  else if 65 ≤ c ∧ c ≤ 70 then some (c.toNat - 55)
  else none

def hexCode (a b c d : UInt8) : Option ℕ := do
  pure (((← hexValue a) * 16 + (← hexValue b)) * 256 + ((← hexValue c) * 16 + (← hexValue d)))

def encodeUtf8 (n : ℕ) : Bytes :=
  if n < 0x80 then [UInt8.ofNat n]
  else if n < 0x800 then [UInt8.ofNat (0xC0 + n / 64), UInt8.ofNat (0x80 + n % 64)]
  else if n < 0x10000 then
    [UInt8.ofNat (0xE0 + n / 4096), UInt8.ofNat (0x80 + n / 64 % 64), UInt8.ofNat (0x80 + n % 64)]
  else
    [UInt8.ofNat (0xF0 + n / 262144), UInt8.ofNat (0x80 + n / 4096 % 64),
      UInt8.ofNat (0x80 + n / 64 % 64), UInt8.ofNat (0x80 + n % 64)]

/-- The four digits after `\u`, and the second half where they name a high surrogate. -/
def scanUnicode : Bytes → Option (Bytes × Bytes)
  | a :: b :: c :: d :: rest => do
    let high ← hexCode a b c d
    if 0xD800 ≤ high ∧ high < 0xDC00 then
      match rest with
      | e :: f :: g :: h :: i :: j :: rest' =>
        let low ← hexCode g h i j
        if e = backslash ∧ f = 117 ∧ 0xDC00 ≤ low ∧ low < 0xE000 then
          pure (encodeUtf8 (0x10000 + (high - 0xD800) * 1024 + (low - 0xDC00)), rest')
        else none
      | _ => none
    else if 0xDC00 ≤ high ∧ high < 0xE000 then none
    else pure (encodeUtf8 high, rest)
  | _ => none

def scanEscape : Bytes → Option (Bytes × Bytes)
  | [] => none
  | c :: rest =>
    if c = quote ∨ c = backslash ∨ c = slash then some ([c], rest)
    else if c = 98 then some ([8], rest)
    else if c = 102 then some ([12], rest)
    else if c = 110 then some ([10], rest)
    else if c = 114 then some ([13], rest)
    else if c = 116 then some ([9], rest)
    else if c = 117 then scanUnicode rest
    else none

def scanChar : Bytes → Option (Bytes × Bytes)
  | [] => none
  | c :: rest =>
    if c = backslash then scanEscape rest
    else if c < 32 then none
    else
      let n := Utf8.sequenceLength (c :: rest)
      if n = 0 then none else some ((c :: rest).take n, (c :: rest).drop n)

def scanString : ℕ → Bytes → Option (Bytes × Bytes)
  | 0, _ => none
  | n + 1, s =>
    if s.head? = some quote then some ([], s.tail)
    else do
      let (c, rest) ← scanChar s
      let (t, rest') ← scanString n rest
      pure (c ++ t, rest')

def scanFraction (s : Bytes) : Option (Bytes × Bytes) :=
  match s with
  | c :: rest =>
    if c = dot then
      if rest.takeWhile isDigit = [] then none
      else some (rest.takeWhile isDigit, rest.dropWhile isDigit)
    else some ([], s)
  | [] => some ([], s)

/-- An exponent part, `none` inside when there is none. -/
def scanExponent (s : Bytes) : Option (Option ℤ × Bytes) :=
  match s with
  | c :: rest =>
    if c = 101 ∨ c = 69 then
      let negative := rest.head? = some minus
      let digits := if negative ∨ rest.head? = some plus then rest.tail else rest
      if digits.takeWhile isDigit = [] then none
      else
        let e : ℤ := digitsValue (digits.takeWhile isDigit)
        some (some (if negative then -e else e), digits.dropWhile isDigit)
    else some (none, s)
  | [] => some (none, s)

/-- An integer literal: unsigned up to 2^64 - 1, signed down to -2^63, a double beyond. -/
def integerVal (negative : Bool) (n : ℕ) : Option YyjsonVal :=
  if negative then
    if n ≤ 2 ^ 63 then some (.sint (Int64.ofInt (-n))) else (Double.nearest true n 1).map .real
  else
    if n < 2 ^ 64 then some (.uint (UInt64.ofNat n)) else (Double.nearest false n 1).map .real

def realVal (negative : Bool) (whole fraction : Bytes) (exponent : ℤ) : Option YyjsonVal :=
  let n := digitsValue (whole ++ fraction)
  let e := exponent - fraction.length
  (if 0 ≤ e then Double.nearest negative (n * 10 ^ e.toNat) 1
    else Double.nearest negative n (10 ^ (-e).toNat)).map .real

def parseNumber (s : Bytes) : Option (YyjsonVal × Bytes) := do
  let negative : Bool := s.head? = some minus
  let s := if negative then s.tail else s
  let whole := s.takeWhile isDigit
  if whole = [] ∨ whole.head? = some zero ∧ whole.length ≠ 1 then none
  else
    let (fraction, rest) ← scanFraction (s.dropWhile isDigit)
    let (exponent, rest) ← scanExponent rest
    let v ← if fraction = [] ∧ exponent = none then integerVal negative (digitsValue whole)
      else realVal negative whole fraction (exponent.getD 0)
    pure (v, rest)

def scanLiteral (text : Bytes) (v : YyjsonVal) (s : Bytes) : Option (YyjsonVal × Bytes) :=
  if text.isPrefixOf s then some (v, s.drop text.length) else none

mutual

def parseValue : ℕ → Bytes → Option (YyjsonVal × Bytes)
  | 0, _ => none
  | _ + 1, [] => none
  | n + 1, c :: s =>
    if c = quote then (scanString (s.length + 1) s).map fun p ↦ (.str p.1, p.2)
    else if c = openBracket then
      if (skipSpace s).head? = some closeBracket then some (.arr [], (skipSpace s).tail)
      else (parseItems n (skipSpace s)).map fun p ↦ (.arr p.1, p.2)
    else if c = openBrace then
      if (skipSpace s).head? = some closeBrace then some (.obj [], (skipSpace s).tail)
      else (parseMembers n (skipSpace s)).map fun p ↦ (.obj p.1, p.2)
    else if c = 110 then scanLiteral (ascii "null") .null (c :: s)
    else if c = 116 then scanLiteral (ascii "true") (.bool true) (c :: s)
    else if c = 102 then scanLiteral (ascii "false") (.bool false) (c :: s)
    else parseNumber (c :: s)

def parseItems : ℕ → Bytes → Option (List YyjsonVal × Bytes)
  | 0, _ => none
  | n + 1, s =>
    match parseValue n s with
    | none => none
    | some (v, rest) =>
      if (skipSpace rest).head? = some closeBracket then some ([v], (skipSpace rest).tail)
      else if (skipSpace rest).head? = some comma then
        (parseItems n (skipSpace (skipSpace rest).tail)).map fun p ↦ (v :: p.1, p.2)
      else none

def parseMembers : ℕ → Bytes → Option (List (Bytes × YyjsonVal) × Bytes)
  | 0, _ => none
  | n + 1, s =>
    if s.head? = some quote then
      match scanString s.length s.tail with
      | none => none
      | some (key, rest) =>
        if (skipSpace rest).head? = some colon then
          match parseValue n (skipSpace (skipSpace rest).tail) with
          | none => none
          | some (v, rest') =>
            if (skipSpace rest').head? = some closeBrace then
              some ([(key, v)], (skipSpace rest').tail)
            else if (skipSpace rest').head? = some comma then
              (parseMembers n (skipSpace (skipSpace rest').tail)).map fun p ↦ ((key, v) :: p.1, p.2)
            else none
        else none
    else none

end

/-- `yyjson_read_opts` with no flag: one value, blanks around it and nothing else. -/
def read (text : Bytes) : Option YyjsonVal :=
  match parseValue (text.length + 1) (skipSpace text) with
  | some (v, rest) => if skipSpace rest = [] then some v else none
  | none => none

end Yyjson

mutual

def fromYyjson : YyjsonVal → Value
  | .null => .null
  | .bool b => .boolean b
  | .uint n => .integer n.toInt64
  | .sint n => .integer n
  | .real d => .number d
  | .str s => .string s
  | .arr items => .array (fromItems items)
  | .obj members => .object (fromMembers members)

def fromItems : List YyjsonVal → List Value
  | [] => []
  | v :: vs => fromYyjson v :: fromItems vs

def fromMembers : List (Bytes × YyjsonVal) → List (Bytes × Value)
  | [] => []
  | (k, v) :: ms => (k, fromYyjson v) :: fromMembers ms

end

/-- `json_parse`; the position and the wording of yyjson's own error are left out. -/
def jsonParse (text : Bytes) : Result Value :=
  match Yyjson.read text with
  | some v => .ok (fromYyjson v)
  | none => .error (makeError .configuration "configuration.json.malformed" (ascii "invalid JSON"))

def escapeByte (c : UInt8) : Bytes :=
  if c = Ascii.quote ∨ c = Ascii.backslash then [Ascii.backslash, c]
  else if c = 10 then [Ascii.backslash, 110]
  else if c = 13 then [Ascii.backslash, 114]
  else if c = 9 then [Ascii.backslash, 116]
  else if c = 8 then [Ascii.backslash, 98]
  else if c = 12 then [Ascii.backslash, 102]
  else if c < 32 then
    [Ascii.backslash, 117, Ascii.zero, Ascii.zero, hexDigit (c.toNat / 16), hexDigit (c.toNat % 16)]
  else [c]

def writeEscaped (text : Bytes) : Bytes :=
  Ascii.quote :: (text.flatMap escapeByte ++ [Ascii.quote])

def newline (pretty : Bool) (depth : ℕ) : Bytes :=
  if pretty then 10 :: List.replicate (depth * 2) 32 else []

def integerText (i : Int64) : Bytes :=
  if i.toInt < 0 then Ascii.minus :: decimal i.toInt.natAbs else decimal i.toInt.natAbs

mutual

def writeValue (pretty : Bool) (depth : ℕ) : Value → Bytes
  | .null => ascii "null"
  | .boolean b => if b then ascii "true" else ascii "false"
  | .integer i => integerText i
  | .number d => d.printG 17
  | .string s => writeEscaped s
  | .array [] => ascii "[]"
  | .array (v :: vs) =>
    Ascii.openBracket :: (newline pretty (depth + 1) ++ writeValue pretty (depth + 1) v ++
      writeItems pretty depth vs)
  | .object [] => [Ascii.openBrace, Ascii.closeBrace]
  | .object ((k, v) :: ms) =>
    Ascii.openBrace :: (newline pretty (depth + 1) ++ writeEscaped k ++
      ascii (if pretty then ": " else ":") ++ writeValue pretty (depth + 1) v ++
      writeMembers pretty depth ms)

def writeItems (pretty : Bool) (depth : ℕ) : List Value → Bytes
  | [] => newline pretty depth ++ [Ascii.closeBracket]
  | v :: vs =>
    Ascii.comma :: (newline pretty (depth + 1) ++ writeValue pretty (depth + 1) v ++
      writeItems pretty depth vs)

def writeMembers (pretty : Bool) (depth : ℕ) : List (Bytes × Value) → Bytes
  | [] => newline pretty depth ++ [Ascii.closeBrace]
  | (k, v) :: ms =>
    Ascii.comma :: (newline pretty (depth + 1) ++ writeEscaped k ++
      ascii (if pretty then ": " else ":") ++ writeValue pretty (depth + 1) v ++
      writeMembers pretty depth ms)

end

def jsonWrite (v : Value) (pretty : Bool) : Bytes :=
  writeValue pretty 0 v ++ if pretty then [10] else []

end SquaredPg
