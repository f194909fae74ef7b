import SquaredPg.Arguments
import SquaredPg.LuaBoundary
import SquaredPg.Plan

namespace SquaredPg

open Ascii

/-- `^%-?%d+$`, and the number that such a text denotes. -/
def integerLiteral (text : Bytes) : Option ℤ :=
  let digits := if text.head? = some minus then text.tail else text
  if digits ≠ [] ∧ digits.all isDigit = true then
    some (if text.head? = some minus then -digitsValue digits else digitsValue digits)
  else none

def InInt64 (n : ℤ) : Prop := -2 ^ 63 ≤ n ∧ n < 2 ^ 63

instance (n : ℤ) : Decidable (InInt64 n) := inferInstanceAs (Decidable (_ ∧ _))

/-- `math.tointeger` of a float: it has no fraction and fits. -/
def Double.toInteger (d : Double) : Option Int64 :=
  if d.biasedExponent = 2047 then none
  else
    let (n, den) := d.magnitude
    let value : ℤ := if d.negative then -(n / den : ℕ) else (n / den : ℕ)
    if n % den = 0 ∧ InInt64 value then some (Int64.ofInt value) else none

/-- `math.tointeger(tonumber(text))` of an integer literal; one that does not fit is a float on the
way. -/
def toInteger (n : ℤ) : Option Int64 :=
  if InInt64 n then some (Int64.ofInt n)
  else (Double.nearest (n < 0) n.natAbs 1).bind Double.toInteger

namespace Args

def parameterValue (value : Bytes) : LuaValue :=
  if value = ascii "true" then .boolean true
  else if value = ascii "false" then .boolean false
  else
    match integerLiteral value with
    | some n => (toInteger n).elim .nil .integer
    | none => .string value

def expectsPair (entry : Bytes) : Bytes :=
  ascii "--param expects key=value, got '" ++ entry ++ ascii "'"

def addParameter (parameters : LuaEntries × List Bytes) (entry : Bytes) :
    LuaEntries × List Bytes :=
  match splitPair entry with
  | none => (parameters.1, parameters.2 ++ [expectsPair entry])
  | some (key, value) => (parameters.1.set (.string key) (parameterValue value), parameters.2)

def parameters (list : List Bytes) : LuaEntries × List Bytes := list.foldl addParameter ([], [])

/-- The text behind the first equals sign of the last entry with the key. -/
def lastValue (list : List Bytes) (key : Bytes) : Option Bytes :=
  ((list.filterMap splitPair).filter fun pair ↦ pair.1 = key).getLast?.map Prod.snd

/-- The text of a parameter as it is to arrive: an integer literal is spelled canonically. -/
def canonicalText (text : Bytes) : Bytes :=
  match integerLiteral text with
  | some n => if n < 0 then minus :: decimal n.natAbs else decimal n.natAbs
  | none => text

end Args

namespace LuaEntries

variable {entries : LuaEntries} {key other : LuaKey} {value : LuaValue}

theorem set_replaces (h : key ∈ entries.keys) (hvalue : value ≠ .nil) :
    entries.set key value =
      entries.map fun entry ↦ if entry.1 = key then (key, value) else entry := by
  cases value with
  | nil => exact absurd rfl hvalue
  | _ => exact if_pos h

theorem keys_set_of_mem (h : key ∈ entries.keys) (hvalue : value ≠ .nil) :
    (entries.set key value).keys = entries.keys := by
  rw [set_replaces h hvalue, keys, List.map_map]
  refine List.map_congr_left fun entry _ ↦ ?_
  by_cases heq : entry.1 = key
  · simp [heq]
  · simp [heq]

theorem nodup_set (h : entries.keys.Nodup) : (entries.set key value).keys.Nodup := by
  by_cases hvalue : value = .nil
  · rw [hvalue]
    exact h.sublist (List.filter_sublist.map _)
  · by_cases hkey : key ∈ entries.keys
    · rwa [keys_set_of_mem hkey hvalue]
    · have hnodup : (entries.keys ++ [key]).Nodup := by simpa using List.Nodup.concat hkey h
      rw [set_fresh hvalue hkey, keys_append]
      exact hnodup

def assigned : LuaValue → Option LuaValue
  | .nil => none
  | value => some value

theorem assigned_of_ne (h : value ≠ .nil) : assigned value = some value := by
  cases value with
  | nil => exact absurd rfl h
  | _ => rfl

theorem lookup_filter_ne (entries : LuaEntries) (key other : LuaKey) :
    (entries.filter fun entry ↦ entry.1 ≠ key).lookup other =
      if other = key then none else entries.lookup other := by
  induction entries with
  | nil => simp
  | cons entry entries ih =>
    obtain ⟨k, v⟩ := entry
    by_cases hk : k = key
    · rw [List.filter_cons_of_neg (by simpa using hk), ih, hk]
      by_cases hother : other = key
      · simp [hother]
      · rw [if_neg hother, if_neg hother, List.lookup_cons, beq_eq_false_iff_ne.mpr hother]
    · rw [List.filter_cons_of_pos (by simpa using hk), List.lookup_cons, List.lookup_cons, ih]
      by_cases hother : other = k
      · have hne : ¬ other = key := fun heq ↦ hk (hother.symm.trans heq)
        simp [hother, hk]
      · rw [beq_eq_false_iff_ne.mpr hother]

theorem lookup_replaced (h : key ∈ entries.keys) :
    (entries.map fun entry ↦ if entry.1 = key then (key, value) else entry).lookup key =
      some value := by
  induction entries with
  | nil => cases h
  | cons entry entries ih =>
    obtain ⟨k, v⟩ := entry
    rw [List.map_cons]
    by_cases hk : k = key
    · simp [hk]
    · have htail : key ∈ keys entries := (List.mem_cons.mp h).resolve_left fun heq ↦ hk heq.symm
      rw [if_neg hk, List.lookup_cons, beq_eq_false_iff_ne.mpr fun heq ↦ hk heq.symm]
      exact ih htail

theorem lookup_replaced_ne (h : other ≠ key) :
    (entries.map fun entry ↦ if entry.1 = key then (key, value) else entry).lookup other =
      entries.lookup other := by
  induction entries with
  | nil => rfl
  | cons entry entries ih =>
    obtain ⟨k, v⟩ := entry
    rw [List.map_cons]
    by_cases hk : k = key
    · rw [if_pos hk, List.lookup_cons, List.lookup_cons, beq_eq_false_iff_ne.mpr h, ih, hk,
        beq_eq_false_iff_ne.mpr h]
    · rw [if_neg hk, List.lookup_cons, List.lookup_cons, ih]

theorem lookup_set : (entries.set key value).lookup other =
    if other = key then assigned value else entries.lookup other := by
  by_cases hvalue : value = .nil
  · rw [hvalue]
    exact lookup_filter_ne entries key other
  · rw [assigned_of_ne hvalue]
    by_cases hkey : key ∈ entries.keys
    · rw [set_replaces hkey hvalue]
      split_ifs with hother
      · rw [hother]
        exact lookup_replaced hkey
      · exact lookup_replaced_ne hother
    · rw [set_fresh hvalue hkey, List.lookup_append]
      have hnone : entries.lookup key = none := by
        rw [List.lookup_eq_none_iff]
        intro entry hentry
        rw [bne_iff_ne]
        exact fun heq ↦ hkey (List.mem_map.mpr ⟨entry, hentry, heq.symm⟩)
      split_ifs with hother
      · simp [hother, hnone]
      · simp [List.lookup_cons, beq_eq_false_iff_ne.mpr hother]

end LuaEntries

namespace Args

variable {list : List Bytes} {key text origin : Bytes} {t : LuaValue} {length : LuaLength}

theorem parameters_concat (list : List Bytes) (entry : Bytes) :
    parameters (list ++ [entry]) = addParameter (parameters list) entry := by
  rw [parameters, List.foldl_append]
  rfl

theorem lastValue_concat (list : List Bytes) (entry : Bytes) : lastValue (list ++ [entry]) key =
    match splitPair entry with
    | none => lastValue list key
    | some (k, value) => if k = key then some value else lastValue list key := by
  rw [lastValue, List.filterMap_append, List.filter_append]
  cases hsplit : splitPair entry with
  | none => simp [hsplit, lastValue]
  | some pair =>
    obtain ⟨k, value⟩ := pair
    by_cases hk : k = key
    · simp [hsplit, hk]
    · simp [hsplit, hk, lastValue]

theorem lookup_parameters (list : List Bytes) (key : Bytes) :
    (parameters list).1.lookup (.string key) =
      (lastValue list key).bind fun text ↦ LuaEntries.assigned (parameterValue text) := by
  induction list using List.reverseRecOn with
  | nil => rfl
  | append_singleton list entry ih =>
    rw [parameters_concat, lastValue_concat, addParameter]
    cases hsplit : splitPair entry with
    | none => exact ih
    | some pair =>
      obtain ⟨k, value⟩ := pair
      rw [LuaEntries.lookup_set, ih]
      by_cases hk : key = k
      · simp [hk]
      · have hne : ¬ k = key := fun heq ↦ hk heq.symm
        simp [hk, hne]

theorem nodup_parameters (list : List Bytes) : (parameters list).1.keys.Nodup := by
  induction list using List.reverseRecOn with
  | nil => exact List.nodup_nil
  | append_singleton list entry ih =>
    rw [parameters_concat, addParameter]
    cases splitPair entry with
    | none => exact ih
    | some pair => exact LuaEntries.nodup_set ih

theorem mem_parameters {entry : LuaKey × LuaValue} (h : entry ∈ (parameters list).1) :
    ∃ key text, entry = (.string key, parameterValue text) := by
  induction list using List.reverseRecOn with
  | nil => cases h
  | append_singleton list pair ih =>
    rw [parameters_concat, addParameter] at h
    cases hsplit : splitPair pair with
    | none =>
      rw [hsplit] at h
      exact ih h
    | some pair =>
      rw [hsplit] at h
      obtain hin | rfl := mem_set h
      · exact ih hin
      · exact ⟨pair.1, pair.2, rfl⟩

theorem keys_members {entries : LuaEntries} (h : ∀ entry ∈ entries, ∃ s, entry.1 = .string s) :
    ((entries.filterMap (member length)).map Prod.fst).map LuaKey.string = entries.keys := by
  induction entries with
  | nil => rfl
  | cons entry entries ih =>
    obtain ⟨s, hs⟩ := h entry (by simp)
    have hmember : member length entry = some (s, fromLua length entry.2) := by
      rw [member, hs]
      rfl
    rw [List.filterMap_cons_some hmember, List.map_cons, List.map_cons,
      ih fun entry hentry ↦ h entry (by simp [hentry])]
    exact congrArg (· :: _) hs.symm

theorem eq_of_same_parameterValue {w : LuaValue} (h : (parameterValue text).Same w) :
    w = parameterValue text := by
  revert h
  rw [parameterValue]
  split_ifs
  · exact id
  · exact id
  · cases integerLiteral text with
    | none => exact id
    | some n =>
      dsimp only
      cases toInteger n with
      | none => exact id
      | some i => exact id

theorem find_fromLua (hlast : lastValue list key = some text) (hvalue : parameterValue text ≠ .nil)
    (ht : (LuaValue.table (parameters list).1).Same t) :
    (fromLua length t).find key = some (fromLua length (parameterValue text)) := by
  have hlookup := lookup_parameters list key
  rw [hlast, Option.bind_some, LuaEntries.assigned_of_ne hvalue] at hlookup
  obtain ⟨entries, aligned, rfl, hperm, hsame⟩ := ht
  have hkeys : (LuaEntries.keys entries).Perm (parameters list).1.keys := by
    rw [← LuaValue.keys_of_same hsame]
    exact hperm.map Prod.fst
  have hforall := LuaValue.sameEntries_iff.mp hsame
  obtain ⟨⟨k, w⟩, hin, hk, hw⟩ := exists_of_forall₂ hforall (mem_of_lookup hlookup)
  obtain rfl : k = .string key := hk
  obtain rfl := eq_of_same_parameterValue hw
  have hentry := hperm.mem_iff.mpr hin
  have hstrings : ∀ entry ∈ entries, ∃ s, entry.1 = .string s := by
    intro entry hentry
    have hkey := hkeys.mem_iff.mp (List.mem_map_of_mem hentry)
    obtain ⟨other, hother, heq⟩ := List.mem_map.mp hkey
    obtain ⟨s, _, rfl⟩ := mem_parameters hother
    exact ⟨s, heq.symm⟩
  have hnodup : ((entries.filterMap (member length)).map Prod.fst).Nodup := by
    refine List.Nodup.of_map LuaKey.string ?_
    rw [keys_members hstrings]
    exact hkeys.nodup_iff.mpr (nodup_parameters list)
  rw [fromLua_table, isSequence_string (List.mem_map_of_mem hentry), if_neg Bool.false_ne_true]
  exact lookup_of_nodup hnodup (List.mem_filterMap.mpr ⟨_, hentry, rfl⟩)

theorem toInteger_of_fits {n : ℤ} (h : InInt64 n) : toInteger n = some (Int64.ofInt n) := if_pos h

theorem integerText_ofInt {n : ℤ} (h : InInt64 n) : integerText (Int64.ofInt n) =
    if n < 0 then minus :: decimal n.natAbs else decimal n.natAbs := by
  obtain ⟨hlow, hhigh⟩ := h
  rw [integerText, Int64.toInt_ofInt_of_le hlow hhigh]

theorem parameterValue_renders (length : LuaLength)
    (hfits : ∀ n, integerLiteral text = some n → InInt64 n) :
    parameterValue text ≠ .nil ∧ ∀ (parameters : Value) (key origin : Bytes),
      parameters.find key = some (fromLua length (parameterValue text)) →
        parameters.binds key = true ∧
          renderParameter parameters key origin = .ok (canonicalText text) := by
  rw [parameterValue]
  split_ifs with htrue hfalse
  · refine ⟨LuaValue.noConfusion, fun parameters key origin hfind ↦ ?_⟩
    have hliteral : integerLiteral (ascii "true") = none := by decide
    rw [Value.binds, renderParameter, hfind, canonicalText, htrue, hliteral]
    exact ⟨rfl, rfl⟩
  · refine ⟨LuaValue.noConfusion, fun parameters key origin hfind ↦ ?_⟩
    have hliteral : integerLiteral (ascii "false") = none := by decide
    rw [Value.binds, renderParameter, hfind, canonicalText, hfalse, hliteral]
    exact ⟨rfl, rfl⟩
  · cases hliteral : integerLiteral text with
    | none =>
      refine ⟨LuaValue.noConfusion, fun parameters key origin hfind ↦ ?_⟩
      rw [Value.binds, renderParameter, hfind, canonicalText, hliteral]
      exact ⟨rfl, rfl⟩
    | some n =>
      simp only [toInteger_of_fits (hfits n hliteral), Option.elim_some]
      refine ⟨LuaValue.noConfusion, fun parameters key origin hfind ↦ ?_⟩
      rw [Value.binds, renderParameter, hfind, canonicalText, hliteral]
      exact ⟨rfl, congrArg Except.ok (integerText_ofInt (hfits n hliteral))⟩

/-- A parameter arrives as it was typed, but for the spelling of an integer. -/
theorem parameters_arrive (list : List Bytes) (key text origin : Bytes)
    (hlast : lastValue list key = some text)
    (hfits : ∀ n, integerLiteral text = some n → InInt64 n) (length : LuaLength) (t : LuaValue)
    (ht : (LuaValue.table (parameters list).1).Same t) :
    (fromLua length t).binds key = true ∧
      renderParameter (fromLua length t) key origin = .ok (canonicalText text) := by
  obtain ⟨hvalue, hrenders⟩ := parameterValue_renders length hfits
  exact hrenders _ key origin (find_fromLua hlast hvalue ht)

/-- A count with leading zeros, given after another one. -/
def zerosEntries : List Bytes := [ascii "count=5", ascii "name=a=b", ascii "count=007"]

theorem fits_zeros : ∀ n, integerLiteral (ascii "007") = some n → InInt64 n := by
  intro n h
  have hseven : integerLiteral (ascii "007") = some 7 := by decide
  obtain rfl : 7 = n := Option.some.inj (hseven.symm.trans h)
  decide

theorem parameters_arrive_zeros :
    (fromLua .last (.table (parameters zerosEntries).1)).binds (ascii "count") = true ∧
      renderParameter (fromLua .last (.table (parameters zerosEntries).1)) (ascii "count") [] =
        .ok (canonicalText (ascii "007")) :=
  parameters_arrive zerosEntries (ascii "count") (ascii "007") [] (by decide) fits_zeros .last _
    (LuaValue.same_refl _)

/-- What was typed with leading zeros arrives without them. -/
theorem parameters_zeros : ¬ ∀ (list : List Bytes) (key text : Bytes), (parameters list).2 = [] →
    lastValue list key = some text → ∀ (length : LuaLength) (t : LuaValue),
      (LuaValue.table (parameters list).1).Same t →
        renderParameter (fromLua length t) key [] = .ok text := by
  intro hall
  have hlast : lastValue zerosEntries (ascii "count") = some (ascii "007") := by decide
  have htyped := hall zerosEntries _ _ (by decide) hlast .last _ (LuaValue.same_refl _)
  obtain ⟨hvalue, hrenders⟩ := parameterValue_renders .last fits_zeros
  have hrendered := (hrenders _ _ [] (find_fromLua hlast hvalue (LuaValue.same_refl _))).2
  rw [hrendered, Except.ok.injEq] at htyped
  exact absurd htyped (by decide)

end Args

end SquaredPg
