import SquaredPg.Json

namespace SquaredPg

open Ascii

/-- `looks_textual`: no NUL in the first 8192 bytes. -/
def looksTextual (content : Bytes) : Bool := (0 : UInt8) ∉ content.take 8192

/-- The text up to the first `}}`, and what follows it. -/
def cutAtClose : Bytes → Option (Bytes × Bytes)
  | a :: b :: rest =>
    if a = closeBrace ∧ b = closeBrace then some ([], rest)
    else (cutAtClose (b :: rest)).map fun p ↦ (a :: p.1, p.2)
  | _ => none

def isIdentifier (token : Bytes) : Bool :=
  (token.head?.any fun c ↦ c == underscore || isLetter c) &&
    token.all fun c ↦ c == underscore || isLetter c || isDigit c

def missingParameter (token origin : Bytes) : EngineError :=
  { makeError .template_ "template.parameter.missing"
      (ascii "no value for parameter '" ++ token ++ ascii "' referenced by " ++ origin) with
    path := origin
    recoverable := true
    diagnostics := .object [(ascii "parameter", .string token)] }

def invalidParameter (token origin : Bytes) (value : Value) : EngineError :=
  { makeError .template_ "template.parameter.invalid"
      (ascii "parameter '" ++ token ++ ascii "' is a " ++ value.kindName ++
        ascii " and cannot be substituted into text") with
    path := origin }

def renderParameter (parameters : Value) (token origin : Bytes) : Result Bytes :=
  match parameters.find token with
  | none | some .null => .error (missingParameter token origin)
  | some (.string s) => .ok s
  | some (.integer i) => .ok (integerText i)
  | some (.boolean b) => .ok (ascii (if b then "true" else "false"))
  | some (.number d) => .ok (d.printG 6)
  | some value => .error (invalidParameter token origin value)

inductive Token
  | literal (c : UInt8) (rest : Bytes)
  | escape (rest : Bytes)
  | placeholder (name rest : Bytes)

/-- One turn of the loop. Anything in doubt is a literal, since templates are mostly C++. -/
def nextToken (c : UInt8) (rest : Bytes) : Token :=
  if c ≠ openBrace ∨ rest.head? ≠ some openBrace then .literal c rest
  else
    match cutAtClose rest.tail with
    | none => .literal c rest
    | some (raw, after) =>
      let token := trim raw
      if token = [quote, openBrace, openBrace, quote] then .escape after
      else if token = [] ∨ token.any fun b ↦ isBlank b || b = 10 || b = openBrace || b = closeBrace then
        .literal c rest
      else if isIdentifier token then .placeholder token after
      else .literal c rest

namespace Token

def rest : Token → Bytes
  | literal _ rest => rest
  | escape rest => rest
  | placeholder _ rest => rest

def render (parameters : Value) (origin : Bytes) : Token → Result Bytes
  | literal c _ => .ok [c]
  | escape _ => .ok [openBrace, openBrace]
  | placeholder name _ => renderParameter parameters name origin

end Token

/-- The loop of `substitute`; `n` bounds the number of turns. -/
def substituteUpTo (parameters : Value) (origin : Bytes) : ℕ → Bytes → Result Bytes
  | n + 1, c :: rest => do
    let text ← (nextToken c rest).render parameters origin
    let more ← substituteUpTo parameters origin n (nextToken c rest).rest
    pure (text ++ more)
  | _, _ => .ok []

def substitute (content : Bytes) (parameters : Value) (origin : Bytes) : Result Bytes :=
  substituteUpTo parameters origin content.length content

theorem cutAtClose_length {text raw after : Bytes} (h : cutAtClose text = some (raw, after)) :
    after.length < text.length := by
  induction text generalizing raw after with
  | nil => simp [cutAtClose] at h
  | cons a text ih =>
    cases text with
    | nil => simp [cutAtClose] at h
    | cons b rest =>
      rw [cutAtClose] at h
      split at h
      · simp only [Option.some.injEq, Prod.mk.injEq] at h
        simp only [← h.2, List.length_cons]
        omega
      · obtain ⟨p, hp, heq⟩ := Option.map_eq_some_iff.mp h
        have hlen := ih hp
        have hafter : p.2 = after := congrArg Prod.snd heq
        rw [← hafter]
        exact hlen.trans (Nat.lt_succ_self _)

theorem nextToken_length (c : UInt8) (rest : Bytes) :
    (nextToken c rest).rest.length ≤ rest.length := by
  unfold nextToken
  split_ifs
  · exact le_rfl
  · split
    · exact le_rfl
    · rename_i raw after hcut
      have hlen := cutAtClose_length hcut
      rw [List.length_tail] at hlen
      dsimp only
      split_ifs <;> simp only [Token.rest] <;> omega

theorem substituteUpTo_bound (parameters : Value) (origin : Bytes) {n m : ℕ} {content : Bytes}
    (hn : content.length ≤ n) (hm : content.length ≤ m) :
    substituteUpTo parameters origin n content = substituteUpTo parameters origin m content := by
  induction n generalizing m content with
  | zero =>
    rw [List.length_eq_zero_iff.mp (Nat.le_zero.mp hn)]
    cases m <;> rfl
  | succ n ih =>
    cases content with
    | nil => cases m <;> rfl
    | cons c rest =>
      have hlen := nextToken_length c rest
      rw [List.length_cons] at hn hm
      cases m with
      | zero => omega
      | succ m =>
        simp only [substituteUpTo]
        rw [ih (m := m) (by omega) (by omega)]

theorem substitute_nil (parameters : Value) (origin : Bytes) :
    substitute [] parameters origin = .ok [] := rfl

theorem substitute_cons (c : UInt8) (rest : Bytes) (parameters : Value) (origin : Bytes) :
    substitute (c :: rest) parameters origin =
      ((nextToken c rest).render parameters origin >>= fun text ↦
        substitute (nextToken c rest).rest parameters origin >>= fun more ↦
          pure (text ++ more)) := by
  have hlen := nextToken_length c rest
  simp only [substitute, List.length_cons, substituteUpTo]
  rw [substituteUpTo_bound parameters origin hlen le_rfl]

end SquaredPg
