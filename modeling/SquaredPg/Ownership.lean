import SquaredPg.Glob
import SquaredPg.Manifest

namespace SquaredPg

inductive OwnershipClass
  | generated | seeded | shared | user | metadata
  deriving DecidableEq

namespace OwnershipClass

def toString : OwnershipClass → Bytes
  | generated => ascii "generated"
  | seeded => ascii "seeded"
  | shared => ascii "shared"
  | user => ascii "user"
  | metadata => ascii "metadata"

/-- `ownership_class_from_string`: what is not recognised is never overwritten. -/
def fromString (text : Bytes) : OwnershipClass :=
  if text = ascii "generated" then generated
  else if text = ascii "shared" ∨ text = ascii "merged" then shared
  else if text = ascii "user" then user
  else if text = ascii "metadata" then metadata
  else seeded

/-- `ownership_class_from_manifest`: a file the generator writes cannot be the user's own. -/
def fromManifest (declared : Bytes) : OwnershipClass :=
  if declared = ascii "generated" then generated
  else if declared = ascii "user" then seeded
  else if declared = ascii "shared" then shared
  else seeded

end OwnershipClass

structure OwnershipRules where
  generated : List Bytes := []
  user : List Bytes := []
  shared : List Bytes := []
  defaultClass : OwnershipClass := .seeded
  defaultDeclared : Bool := false

def overlapWarning (path chosenPattern pattern : Bytes) (chosen cls : OwnershipClass) : Diagnostic :=
  { severity := .warning
    message := ascii "ownership patterns '" ++ chosenPattern ++ ascii "' (" ++ chosen.toString ++
      ascii ") and '" ++ pattern ++ ascii "' (" ++ cls.toString ++
      ascii ") both match; a path must match at most one ownership list"
    path := path }

def considerPattern (path : Bytes) (cls : OwnershipClass)
    (state : Option (OwnershipClass × Bytes) × List Diagnostic) (pattern : Bytes) :
    Option (OwnershipClass × Bytes) × List Diagnostic :=
  if !globMatch pattern path then state
  else
    match state.1 with
    | none => (some (cls, pattern), state.2)
    | some (chosen, chosenPattern) =>
      if cls = chosen then state
      else
        (if chosen = .generated then some (cls, pattern) else some (chosen, chosenPattern),
          state.2 ++ [overlapWarning path chosenPattern pattern chosen cls])

/-- `classify_path`: the class of a path, and the warnings about lists that overlap. -/
def classifyPath (rules : OwnershipRules) (path : Bytes) : OwnershipClass × List Diagnostic :=
  let consider := fun state patterns cls ↦ patterns.foldl (considerPattern path cls) state
  let generated := consider (none, []) rules.generated (.fromManifest (ascii "generated"))
  let user := consider generated rules.user (.fromManifest (ascii "user"))
  let shared := consider user rules.shared (.fromManifest (ascii "shared"))
  ((shared.1.map Prod.fst).getD rules.defaultClass, shared.2)

def ownershipRules (manifest : Manifest) : OwnershipRules :=
  let declared := manifestExtension manifest "ownership"
  let fill := fun key ↦ ((declared.find (ascii key)).map stringList).getD []
  let fallback := (declared.find (ascii "default")).bind Value.asString
  { generated := fill "generated"
    user := fill "user"
    shared := fill "shared"
    defaultClass := (fallback.map OwnershipClass.fromManifest).getD .seeded
    defaultDeclared := fallback.isSome }

end SquaredPg
