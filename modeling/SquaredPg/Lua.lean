import SquaredPg.Json
import Mathlib.Data.List.Forall2

namespace SquaredPg

/-- A key of a table; a reference is the address of an object. A float with an integral value never
is a key, since Lua stores it as the integer. -/
inductive LuaKey
  | integer (i : ℤ)
  | float (d : Double)
  | string (s : Bytes)
  | boolean (b : Bool)
  | reference (address : ℕ)
  deriving DecidableEq

/-- A Lua value. The entries of a table are in the order in which `lua_next` meets them; a reference
is a function, a userdata or a thread. -/
inductive LuaValue
  | nil
  | boolean (b : Bool)
  | integer (i : Int64)
  | float (d : Double)
  | string (s : Bytes)
  | table (entries : List (LuaKey × LuaValue))
  | reference (address : ℕ)

abbrev LuaEntries := List (LuaKey × LuaValue)

namespace LuaEntries

def keys (entries : LuaEntries) : List LuaKey := entries.map Prod.fst

/-- `t[key] = value`; a nil takes the key away. -/
def set (entries : LuaEntries) (key : LuaKey) (value : LuaValue) : LuaEntries :=
  match value with
  | .nil => entries.filter fun entry ↦ entry.1 ≠ key
  | value =>
    if key ∈ entries.keys then
      entries.map fun entry ↦ if entry.1 = key then (key, value) else entry
    else entries ++ [(key, value)]

/-- `n` is a border: it is zero or an index of the table, and the next number is none. -/
def IsBorder (entries : LuaEntries) (n : ℕ) : Prop :=
  (n = 0 ∨ .integer n ∈ entries.keys) ∧ .integer (n + 1) ∉ entries.keys

end LuaEntries

/-- The length operator: some border of each table, which one is left open. -/
structure LuaLength where
  len : LuaEntries → ℕ
  border : ∀ entries : LuaEntries, entries.IsBorder (len entries)

def LuaKey.within (length : ℕ) : LuaKey → Bool
  | integer i => 1 ≤ i ∧ i ≤ length
  | _ => false

/-- `is_sequence`: every key is an index up to the length, and there are as many. -/
def isSequence (length : ℕ) (entries : LuaEntries) : Bool :=
  entries.all (fun entry ↦ entry.1.within length) && entries.length = length

/-- `lua_tolstring` on the copy of a key. -/
def LuaKey.text : LuaKey → Option Bytes
  | integer i => some (if i < 0 then Ascii.minus :: decimal i.natAbs else decimal i.natAbs)
  | float d =>
    let text := d.printG 14
    some (if text.all fun c ↦ isDigit c || c = Ascii.minus then text ++ ascii ".0" else text)
  | string s => some s
  | boolean _ => none
  | reference _ => none

mutual

def fromLua (length : LuaLength) : LuaValue → Value
  | .nil => .null
  | .boolean b => .boolean b
  | .integer i => .integer i
  | .float d => .number d
  | .string s => .string s
  | .reference _ => .null
  | .table entries =>
    let converted := fromEntries length entries
    if isSequence (length.len entries) entries then
      .array ((List.range (length.len entries)).map fun i : ℕ ↦
        (converted.lookup (.integer (i + 1))).getD .null)
    else .object (converted.filterMap fun entry ↦ entry.1.text.map fun text ↦ (text, entry.2))

def fromEntries (length : LuaLength) : LuaEntries → List (LuaKey × Value)
  | [] => []
  | (key, value) :: entries => (key, fromLua length value) :: fromEntries length entries

end

/-- What `c_str()` gives to a C function: the text ends at its first NUL. -/
def cString (text : Bytes) : Bytes := text.takeWhile fun c ↦ c ≠ 0

theorem cString_of_not_mem {text : Bytes} (h : (0 : UInt8) ∉ text) : cString text = text := by
  rw [cString, List.takeWhile_eq_self_iff]
  intro c hc
  simp only [ne_eq, decide_eq_true_eq]
  exact fun heq ↦ h (heq ▸ hc)

mutual

def pushValue : Value → LuaValue
  | .null => .nil
  | .boolean b => .boolean b
  | .integer i => .integer i
  | .number d => .float d
  | .string s => .string s
  | .array items => .table (pushItems 1 [] items)
  | .object members => .table (pushMembers [] members)

def pushItems (i : ℤ) (entries : LuaEntries) : List Value → LuaEntries
  | [] => entries
  | v :: vs => pushItems (i + 1) (entries.set (.integer i) (pushValue v)) vs

def pushMembers (entries : LuaEntries) : List (Bytes × Value) → LuaEntries
  | [] => entries
  | (k, v) :: ms => pushMembers (entries.set (.string (cString k)) (pushValue v)) ms

end

mutual

/-- The same value, up to the order of the members of its objects. -/
def Value.Same : Value → Value → Prop
  | .null, w => w = .null
  | .boolean b, w => w = .boolean b
  | .integer i, w => w = .integer i
  | .number d, w => w = .number d
  | .string s, w => w = .string s
  | .array items, w => ∃ items', w = .array items' ∧ Value.SameItems items items'
  | .object members, w => ∃ members' aligned, w = .object members' ∧ members'.Perm aligned ∧
    Value.SameMembers members aligned

def Value.SameItems : List Value → List Value → Prop
  | [], ws => ws = []
  | v :: vs, ws => ∃ w ws', ws = w :: ws' ∧ Value.Same v w ∧ Value.SameItems vs ws'

def Value.SameMembers : List (Bytes × Value) → List (Bytes × Value) → Prop
  | [], ws => ws = []
  | (k, v) :: ms, ws => ∃ w ws', ws = (k, w) :: ws' ∧ Value.Same v w ∧ Value.SameMembers ms ws'

end

mutual

/-- The same Lua value, up to the order in which `lua_next` meets the entries of its tables. -/
def LuaValue.Same : LuaValue → LuaValue → Prop
  | .nil, w => w = .nil
  | .boolean b, w => w = .boolean b
  | .integer i, w => w = .integer i
  | .float d, w => w = .float d
  | .string s, w => w = .string s
  | .reference address, w => w = .reference address
  | .table entries, w => ∃ entries' aligned, w = .table entries' ∧ entries'.Perm aligned ∧
    LuaValue.SameEntries entries aligned

def LuaValue.SameEntries : LuaEntries → LuaEntries → Prop
  | [], ws => ws = []
  | (k, v) :: es, ws => ∃ w ws', ws = (k, w) :: ws' ∧ LuaValue.Same v w ∧
    LuaValue.SameEntries es ws'

end

end SquaredPg
