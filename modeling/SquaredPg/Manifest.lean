import SquaredPg.Json
import SquaredPg.Version

namespace SquaredPg

open Ascii

/-- `sqcart::Manifest`: what the engine reads of a cartridge's manifest. A consumer's section
is JSON text, handed over unopened. -/
structure Manifest where
  tree : Bytes
  consumer : Bytes → Option Bytes

/-- `sqcart::Cartridge`: the manifest, the entries in their order, and the payload bytes; reading
an entry can fail with a message. -/
structure Cartridge where
  manifest : Manifest
  entries : List Bytes
  read : Bytes → Except Bytes Bytes

def metaDir : Bytes := ascii "SQ-INF/"

def consumerId : Bytes := ascii "squared_pg"

def findPath (value : Value) : List Bytes → Value
  | [] => value
  | segment :: segments =>
    match value.find segment with
    | none => .null
    | some inner => findPath inner segments

/-- `manifest_extension`: the member of the section addressed to the engine, `null` if absent. -/
def manifestExtension (manifest : Manifest) (member : String) : Value :=
  match manifest.consumer consumerId with
  | none => .null
  | some text =>
    match jsonParse text with
    | .error _ => .null
    | .ok value => findPath value ((ascii member).splitOn dot)

def stringList (value : Value) : List Bytes :=
  ((value.asArray).getD []).filterMap Value.asString

structure Capability where
  token : Bytes
  version : Version
  summary : Bytes := []

end SquaredPg
