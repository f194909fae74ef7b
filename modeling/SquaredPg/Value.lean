import SquaredPg.Double

namespace SquaredPg

/-- `Value`: structured data crossing the control surface. Objects are ordered
pairs, so that writing a value twice gives the same bytes. -/
inductive Value
  | null
  | boolean (b : Bool)
  | integer (i : Int64)
  | number (d : Double)
  | string (s : Bytes)
  | array (items : List Value)
  | object (members : List (Bytes × Value))

namespace Value

def kindName : Value → Bytes
  | null => ascii "null"
  | boolean _ => ascii "boolean"
  | integer _ => ascii "integer"
  | number _ => ascii "number"
  | string _ => ascii "string"
  | array _ => ascii "array"
  | object _ => ascii "object"

def isNull : Value → Bool
  | null => true
  | _ => false

def isObject : Value → Bool
  | object _ => true
  | _ => false

def asBool : Value → Option Bool
  | boolean b => some b
  | _ => none

def asInt : Value → Option Int64
  | integer i => some i
  | _ => none

def asString : Value → Option Bytes
  | string s => some s
  | _ => none

def asArray : Value → Option (List Value)
  | array items => some items
  | _ => none

def asObject : Value → Option (List (Bytes × Value))
  | object members => some members
  | _ => none

def find (v : Value) (key : Bytes) : Option Value := v.asObject.bind (List.lookup key)

def stringOr (v : Value) (key fallback : Bytes) : Bytes :=
  ((v.find key).bind asString).getD fallback

def setMember (key : Bytes) (value : Value) : List (Bytes × Value) → List (Bytes × Value)
  | [] => [(key, value)]
  | (k, v) :: rest => if k = key then (k, value) :: rest else (k, v) :: setMember key value rest

/-- `Value::set`: insert or replace a member, promoting null to an object first. -/
def set (v : Value) (key : Bytes) (value : Value) : Value :=
  match v with
  | null => object [(key, value)]
  | object members => object (setMember key value members)
  | other => other

/-- `Value::push`: append to an array, promoting null to an array first. -/
def push (v : Value) (item : Value) : Value :=
  match v with
  | null => array [item]
  | array items => array (items ++ [item])
  | other => other

def strings (items : List Bytes) : Value := array (items.map string)

theorem lookup_cons_eq (key key' : Bytes) (value : Value) (members : List (Bytes × Value)) :
    ((key, value) :: members).lookup key' =
      if key' = key then some value else members.lookup key' := by
  by_cases h : key' = key
  · subst h
    simp
  · simp [List.lookup_cons, beq_eq_false_iff_ne.mpr h, h]

theorem lookup_setMember (key key' : Bytes) (value : Value) (members : List (Bytes × Value)) :
    (setMember key value members).lookup key' =
      if key' = key then some value else members.lookup key' := by
  induction members with
  | nil => simp [setMember, lookup_cons_eq]
  | cons m rest ih =>
    obtain ⟨k, v⟩ := m
    by_cases hk : k = key
    · subst hk
      simp only [setMember, ↓reduceIte, lookup_cons_eq]
      split <;> rfl
    · simp only [setMember, hk, ↓reduceIte, lookup_cons_eq, ih]
      by_cases h : key' = key
      · simp [h, Ne.symm hk]
      · simp [h]

theorem find_set_object (members : List (Bytes × Value)) (key key' : Bytes) (value : Value) :
    ((object members).set key value).find key' =
      if key' = key then some value else (object members).find key' :=
  lookup_setMember key key' value members

end Value

end SquaredPg
