import SquaredPg.Value

namespace SquaredPg

inductive ErrorCategory
  | configuration | validation | resource | template_ | kit | package | asset | framework
  | filesystem | transaction | compatibility | capability | lifecycle | internal
  deriving DecidableEq

inductive Severity
  | info | warning | error
  deriving DecidableEq

structure Diagnostic where
  severity : Severity
  message : Bytes
  resource : Bytes := []
  path : Bytes := []
  deriving DecidableEq

structure EngineError where
  category : ErrorCategory
  code : Bytes
  message : Bytes
  operation : Bytes := []
  resource : Bytes := []
  path : Bytes := []
  diagnostics : Value := .null
  recoverable : Bool := false

abbrev Result (α : Type) := Except EngineError α

def makeError (category : ErrorCategory) (code : String) (message : Bytes) : EngineError :=
  { category, code := ascii code, message }

end SquaredPg
