import SquaredPg.Bytes

namespace SquaredPg

open Ascii

def isSegmentSeparator (c : UInt8) : Bool := c = underscore ∨ c = minus

/-- The loop of `valid_segment` behind the first byte: no separator doubles or comes last. -/
def validSegmentFrom (previous : UInt8) : Bytes → Bool
  | [] => !isSegmentSeparator previous
  | c :: rest =>
    if !isSegmentSeparator c && !(isLower c || isDigit c) then false
    else if isSegmentSeparator c && isSegmentSeparator previous then false
    else validSegmentFrom c rest

def validSegment : Bytes → Bool
  | [] => false
  | first :: rest => isLower first && validSegmentFrom first rest

def maxIdentifierBytes : ℕ := 128

def minSegments : ℕ := 2

def maxSegments : ℕ := 8

def validIdentifier (text : Bytes) : Bool :=
  text ≠ [] ∧ text.length ≤ maxIdentifierBytes ∧
    ((text.splitOn dot).all validSegment) ∧
    minSegments ≤ (text.splitOn dot).length ∧ (text.splitOn dot).length ≤ maxSegments

/-- `ResourceId`: the empty identifier, or a text that `parse` accepts. -/
structure ResourceId where
  str : Bytes
  valid : str = [] ∨ validIdentifier str = true
  deriving DecidableEq

def ResourceId.empty : ResourceId := ⟨[], .inl rfl⟩

def ResourceId.parse (text : Bytes) : Option ResourceId :=
  if h : validIdentifier text = true then some ⟨text, .inr h⟩ else none

inductive ResourceKind
  | projectTemplate | kit | package | asset | plugin | cartridge
  deriving DecidableEq

def ResourceKind.toString : ResourceKind → Bytes
  | projectTemplate => ascii "template"
  | kit => ascii "kit"
  | package => ascii "package"
  | asset => ascii "asset"
  | plugin => ascii "plugin"
  | cartridge => ascii "cartridge"

/-- `resource_kind_from_string`: the cartridge format has its own names for an asset. -/
def ResourceKind.fromString (text : Bytes) : Option ResourceKind :=
  if text = ascii "template" then some projectTemplate
  else if text = ascii "kit" then some kit
  else if text = ascii "package" then some package
  else if text = ascii "asset" ∨ text = ascii "asset_bundle" ∨ text = ascii "assets" then some asset
  else if text = ascii "plugin" then some plugin
  else if text = ascii "cartridge" then some cartridge
  else none

def ResourceKind.identityPrefix : ResourceKind → Bytes
  | cartridge => []
  | kind => kind.toString

/-- The second `ResourceId::parse`: the leading segment has to name the kind. -/
def ResourceId.parseAs (text : Bytes) (kind : ResourceKind) : Option ResourceId :=
  (parse text).filter fun id ↦
    kind.identityPrefix = [] ∨ (kind.identityPrefix ++ [dot]).isPrefixOf id.str

def isReservedNamespace (id : ResourceId) : Bool :=
  match id.str.splitOn dot with
  | _ :: second :: _ => second = ascii "squared_pg" ∨ second = ascii "squared-pg"
  | _ => false

structure ResourceRef where
  id : ResourceId
  range : Bytes := []
  deriving DecidableEq

def ResourceRef.parse (text : Bytes) : Option ResourceRef :=
  let (identity, range) := cutAt at_ text
  (ResourceId.parse identity).map fun id ↦ ⟨id, range.getD []⟩

def ResourceRef.toString (ref : ResourceRef) : Bytes :=
  if ref.range = [] then ref.id.str else ref.id.str ++ at_ :: ref.range

end SquaredPg
