import SquaredPg.Bytes

namespace Shell

open SquaredPg

abbrev Text := List UInt8

abbrev blank : UInt8 := 32
abbrev tab : UInt8 := 9
abbrev lineEnd : UInt8 := 10
abbrev hash : UInt8 := 35
abbrev dollar : UInt8 := 36
abbrev apostrophe : UInt8 := 39
abbrev openParen : UInt8 := 40
abbrev closeParen : UInt8 := 41
abbrev less : UInt8 := 60
abbrev greater : UInt8 := 62
abbrev backquote : UInt8 := 96

inductive Quoting
  | bare | double | full
  deriving DecidableEq

mutual

inductive Piece
  | char (c : UInt8) (quoting : Quoting)
  | parameter (name : Text)
  | command (tokens : List Token)
  | backquoted (text : Text)

inductive Token
  | word (pieces : List Piece)
  | ioNumber (pieces : List Piece)
  | operator (text : Text)
  | newline

end

abbrev Word := List Piece

/-- Where the shell stands. In `elsewhere` it has read a `text` that has rules of its own: of a
here-document, an arithmetic expansion, a parameter expansion with an operator. -/
inductive Mode
  | between
  | opened
  | word (w : Word)
  | escape (w : Option Word)
  | single (w : Word)
  | double (w : Word)
  | doubleEscape (w : Word)
  | dollar (w : Word) (quoting : Quoting)
  | braces (w : Word) (quoting : Quoting) (name : Text)
  | backquote (w : Word) (quoting : Quoting) (text : Text) (escaped : Bool)
  | operator (text : Text)
  | comment
  | elsewhere (back : Mode) (text : Text)

/-- What goes on behind a command substitution: the tokens so far, the parentheses that are open,
and the word around it. -/
structure Frame where
  tokens : List Token
  depth : ℕ
  word : Word
  quoting : Quoting

structure State where
  tokens : List Token := []
  depth : ℕ := 0
  frames : List Frame := []
  mode : Mode := .between

/-- The rules of what is read `elsewhere`: whether the text is complete, and how the shell goes on
behind it. -/
structure Rules where
  leave : State → Text → Option State

def operators : List Text :=
  ["&", "&&", "|", "||", ";", ";;", "<", "<<", "<<-", "<&", "<>", ">", ">>", ">&", ">|"].map ascii

def Token.isHereDocument : Token → Bool
  | .operator text => text = ascii "<<" ∨ text = ascii "<<-"
  | _ => false

def Token.isNewline : Token → Bool
  | .newline => true
  | _ => false

def announced (tokens : List Token) : Bool :=
  (tokens.reverse.takeWhile fun token ↦ !token.isNewline).any Token.isHereDocument

def delimits (c : UInt8) : Bool :=
  c = blank ∨ c = tab ∨ c = lineEnd ∨ c = openParen ∨ c = closeParen ∨ [c] ∈ operators

def isDescriptor (w : Word) : Bool :=
  w ≠ [] ∧ w.all fun
    | .char c .bare => isDigit c
    | _ => false

def wordToken (w : Word) (next : UInt8) : Token :=
  if (next = less ∨ next = greater) ∧ isDescriptor w then .ioNumber w else .word w

def isNameChar (c : UInt8) : Bool := isLetter c || isDigit c || c = Ascii.underscore

namespace State

def emit (st : State) (token : Token) : State :=
  { st with tokens := st.tokens ++ [token], mode := .between }

def line (st : State) : State :=
  { st with
    tokens := st.tokens ++ [.newline]
    mode := if announced st.tokens then .elsewhere .between [] else .between }

def resume (st : State) (quoting : Quoting) (w : Word) : State :=
  { st with mode := if quoting = .double then .double w else .word w }

/-- A closing parenthesis ends a command substitution, if none is open in it. -/
def close (st : State) : State :=
  if st.depth = 0 then
    match st.frames with
    | [] => st.emit (.operator [closeParen])
    | frame :: frames =>
      let outer : State := { tokens := frame.tokens, depth := frame.depth, frames := frames }
      outer.resume frame.quoting (frame.word ++ [.command st.tokens])
  else { st.emit (.operator [closeParen]) with depth := st.depth - 1 }

/-- A byte where no token is under way. -/
def start (st : State) (c : UInt8) : State :=
  if c = blank ∨ c = tab then { st with mode := .between }
  else if c = lineEnd then st.line
  else if c = hash then { st with mode := .comment }
  else if c = Ascii.backslash then { st with mode := .escape none }
  else if c = apostrophe then { st with mode := .single [] }
  else if c = Ascii.quote then { st with mode := .double [] }
  else if c = dollar then { st with mode := .dollar [] .bare }
  else if c = backquote then { st with mode := .backquote [] .bare [] false }
  else if c = openParen then { st.emit (.operator [openParen]) with depth := st.depth + 1 }
  else if c = closeParen then st.close
  else if [c] ∈ operators then { st with mode := .operator [c] }
  else { st with mode := .word [.char c .bare] }

def inWord (st : State) (w : Word) (c : UInt8) : State :=
  if delimits c then (st.emit (wordToken w c)).start c
  else if c = Ascii.backslash then { st with mode := .escape (some w) }
  else if c = apostrophe then { st with mode := .single w }
  else if c = Ascii.quote then { st with mode := .double w }
  else if c = dollar then { st with mode := .dollar w .bare }
  else if c = backquote then { st with mode := .backquote w .bare [] false }
  else { st with mode := .word (w ++ [.char c .bare]) }

def inDouble (st : State) (w : Word) (c : UInt8) : State :=
  if c = Ascii.quote then { st with mode := .word w }
  else if c = Ascii.backslash then { st with mode := .doubleEscape w }
  else if c = dollar then { st with mode := .dollar w .double }
  else if c = backquote then { st with mode := .backquote w .double [] false }
  else { st with mode := .double (w ++ [.char c .double]) }

def inDollar (st : State) (w : Word) (quoting : Quoting) (c : UInt8) : State :=
  if c = openParen then
    { frames := ⟨st.tokens, st.depth, w, quoting⟩ :: st.frames, mode := .opened }
  else if c = Ascii.openBrace then { st with mode := .braces w quoting [] }
  else if quoting = .double then st.inDouble (w ++ [.char dollar quoting]) c
  else st.inWord (w ++ [.char dollar quoting]) c

def inBraces (st : State) (w : Word) (quoting : Quoting) (name : Text) (c : UInt8) : State :=
  if c = Ascii.closeBrace then st.resume quoting (w ++ [.parameter name])
  else if isNameChar c then { st with mode := .braces w quoting (name ++ [c]) }
  else { st with mode := .elsewhere (.braces w quoting name) [c] }

def inBackquote (st : State) (w : Word) (quoting : Quoting) (text : Text) (escaped : Bool)
    (c : UInt8) : State :=
  if escaped = false ∧ c = backquote then st.resume quoting (w ++ [.backquoted text])
  else { st with mode := .backquote w quoting (text ++ [c]) (!escaped && c = Ascii.backslash) }

def inOperator (st : State) (text : Text) (c : UInt8) : State :=
  if text ++ [c] ∈ operators then { st with mode := .operator (text ++ [c]) }
  else (st.emit (.operator text)).start c

def step (rules : Rules) (st : State) (c : UInt8) : State :=
  match st.mode with
  | .between => st.start c
  | .opened =>
    if c = openParen then { st with mode := .elsewhere .opened [c] } else st.start c
  | .word w => st.inWord w c
  | .escape none =>
    if c = lineEnd then { st with mode := .between } else { st with mode := .word [.char c .full] }
  | .escape (some w) =>
    if c = lineEnd then { st with mode := .word w }
    else { st with mode := .word (w ++ [.char c .full]) }
  | .single w =>
    if c = apostrophe then { st with mode := .word w }
    else { st with mode := .single (w ++ [.char c .full]) }
  | .double w => st.inDouble w c
  | .doubleEscape w =>
    if c = lineEnd then { st with mode := .double w }
    else if c = dollar ∨ c = backquote ∨ c = Ascii.quote ∨ c = Ascii.backslash then
      { st with mode := .double (w ++ [.char c .full]) }
    else { st with mode := .double (w ++ [.char Ascii.backslash .full, .char c .double]) }
  | .dollar w quoting => st.inDollar w quoting c
  | .braces w quoting name => st.inBraces w quoting name c
  | .backquote w quoting text escaped => st.inBackquote w quoting text escaped c
  | .operator text => st.inOperator text c
  | .comment => if c = lineEnd then st.start c else st
  | .elsewhere back text =>
    (rules.leave { st with mode := back } (text ++ [c])).getD
      { st with mode := .elsewhere back (text ++ [c]) }

def run (rules : Rules) (st : State) (text : Text) : State := text.foldl (step rules) st

/-- The tokens of an input that is complete. -/
def finish (st : State) : Option (List Token) :=
  match st.frames, st.mode with
  | [], .between => some st.tokens
  | [], .comment => some st.tokens
  | [], .word w => some (st.emit (.word w)).tokens
  | [], .operator text => some (st.emit (.operator text)).tokens
  | _, _ => none

/-- The shell as it is about to start a token, if it is. -/
def ready (st : State) : Option State :=
  match st.mode with
  | .between => some st
  | .opened => some { st with mode := .between }
  | .operator text => some (st.emit (.operator text))
  | _ => none

end State

def read (rules : Rules) (text : Text) : Option (List Token) := (State.run rules {} text).finish

def Piece.inert : Piece → Bool
  | .char _ .full => true
  | .char c _ => isNameChar c || c = Ascii.minus || c = Ascii.slash || c = Ascii.dot
  | _ => false

def Piece.text : Piece → Text
  | .char c _ => [c]
  | _ => []

/-- Everything that decides what an expansion gives: the parameters, the files that a pattern
matches, the output of commands. -/
structure Environment where
  expand : Word → List Text

/-- The arguments that a word becomes. -/
def evaluate (env : Environment) (w : Word) : List Text :=
  if w.all Piece.inert then [w.flatMap Piece.text] else env.expand w

def arguments (env : Environment) : List Token → Option (List Text)
  | [] => some []
  | .word w :: tokens => (arguments env tokens).map fun rest ↦ evaluate env w ++ rest
  | _ :: _ => none

def literal (text : Text) : Word := text.map fun c ↦ .char c .full

theorem literal_cons (c : UInt8) (text : Text) :
    literal (c :: text) = .char c .full :: literal text := rfl

theorem literal_inert (text : Text) : (literal text).all Piece.inert = true := by
  simp [literal, Piece.inert]

theorem literal_text (text : Text) : (literal text).flatMap Piece.text = text := by
  induction text with
  | nil => rfl
  | cons c text ih => rw [literal_cons, List.flatMap_cons, ih]; rfl

theorem literal_not_descriptor (text : Text) : isDescriptor (literal text) = false := by
  cases text with
  | nil => simp [isDescriptor, literal]
  | cons c text => simp [isDescriptor, literal]

theorem evaluate_literal (env : Environment) (text : Text) :
    evaluate env (literal text) = [text] := by
  simp [evaluate, literal_inert, literal_text]

/-- The next byte, if there is one, ends an unquoted word. -/
def endsWord : Text → Bool
  | [] => true
  | c :: _ => delimits c

namespace State

variable (rules : Rules)

@[simp] theorem run_nil (st : State) : run rules st [] = st := rfl

@[simp] theorem run_cons (st : State) (c : UInt8) (text : Text) :
    run rules st (c :: text) = run rules (step rules st c) text := rfl

theorem run_append (st : State) (text more : Text) :
    run rules st (text ++ more) = run rules (run rules st text) more := List.foldl_append

theorem apostrophe_not_operator (text : Text) : text ++ [apostrophe] ∉ operators := by
  intro h
  have hall : ∀ operator ∈ operators, apostrophe ∉ operator := by decide
  exact hall _ h (by simp)

theorem step_ready {st st' : State} (h : st.ready = some st') :
    step rules st apostrophe = { st' with mode := .single [] } := by
  obtain ⟨tokens, depth, frames, mode⟩ := st
  cases mode with
  | between => cases h; rfl
  | opened => cases h; rfl
  | operator text =>
    cases h
    simp only [step, inOperator, apostrophe_not_operator, if_false]
    rfl
  | _ => cases h

theorem step_single {st : State} {w : Word} {c : UInt8} (hc : c ≠ apostrophe) :
    step rules { st with mode := .single w } c =
      { st with mode := .single (w ++ [.char c .full]) } := by
  simp only [step, if_neg hc]

theorem finish_word (st : State) {w : Word} (hw : isDescriptor w = false) {after : Text}
    (h : endsWord after = true) :
    (run rules { st with mode := .word w } after).finish =
      (run rules (st.emit (.word w)) after).finish := by
  obtain ⟨tokens, depth, frames, mode⟩ := st
  cases after with
  | nil => cases frames <;> rfl
  | cons c rest =>
    have hstep : step rules ⟨tokens, depth, frames, .word w⟩ c =
        step rules (emit ⟨tokens, depth, frames, mode⟩ (.word w)) c := by
      have hd : delimits c = true := h
      have htoken : wordToken w c = .word w := by simp [wordToken, hw]
      simp only [step, inWord, hd, if_true, htoken]
      rfl
    rw [run_cons, run_cons, hstep]

end State

end Shell
