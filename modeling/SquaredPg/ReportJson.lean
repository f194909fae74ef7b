import SquaredPg.JsonTexts
import SquaredPg.LuaBoundary
import SquaredPg.Sorting

namespace SquaredPg

open Ascii Std

/-- What is left to the Lua runtime: borders, and the texts of objects. -/
structure LuaRuntime extends LuaLength where
  address : ℕ → Bytes

/-- `tostring` of a key -/
def LuaKey.tostring (runtime : LuaRuntime) : LuaKey → Bytes
  | boolean b => ascii (if b then "true" else "false")
  | reference address => runtime.address address
  | key => key.text.getD []

/-- `ipairs`: the values at 1, 2, … up to the first index without one. -/
def ipairs {α : Type} (entries : List (LuaKey × α)) : ℕ → ℤ → List α
  | 0, _ => []
  | n + 1, i =>
    match entries.lookup (.integer i) with
    | some value => value :: ipairs entries n (i + 1)
    | none => []

def reportEscape (c : UInt8) : Bytes :=
  if c = quote then [backslash, quote]
  else if c = backslash then [backslash, backslash]
  else if c = 10 then [backslash, 110]
  else if c = 13 then [backslash, 114]
  else if c = 9 then [backslash, 116]
  else if c < 32 ∨ c = 127 then
    [backslash, 117, zero, zero, hexDigit (c.toNat / 16), hexDigit (c.toNat % 16)]
  else [c]

def reportString (value : Bytes) : Bytes := [quote] ++ value.flatMap reportEscape ++ [quote]

def bytewise : Bytes → Bytes → Ordering := List.compareLex compare

instance : TransCmp bytewise := inferInstanceAs (TransCmp (List.compareLex _))

instance : LawfulEqCmp bytewise := inferInstanceAs (LawfulEqCmp (List.compareLex _))

mutual

/-- `report.json` -/
def reportJson (runtime : LuaRuntime) (indent : Bytes) : LuaValue → Bytes
  | .nil => ascii "null"
  | .boolean b => ascii (if b then "true" else "false")
  | .integer i => integerText i
  | .float d => d.printG 17
  | .string s => reportString s
  | .reference _ => ascii "null"
  | .table entries =>
    let nextIndent := indent ++ ascii "  "
    let count := entries.length
    let values := reportValues runtime nextIndent entries
    if count = 0 then [openBrace, closeBrace]
    else if runtime.len entries = count then
      let parts := (ipairs values count 1).map fun item ↦ nextIndent ++ item
      ascii "[\n" ++ joinWith (ascii ",\n") parts ++ ascii "\n" ++ indent ++ ascii "]"
    else
      let keys := sortBy bytewise (entries.map fun entry ↦ entry.1.tostring runtime)
      let parts := keys.map fun key ↦ nextIndent ++ reportString key ++ ascii ": " ++
        (values.lookup (.string key)).getD (ascii "null")
      [openBrace] ++ ascii "\n" ++ joinWith (ascii ",\n") parts ++ ascii "\n" ++ indent ++
        [closeBrace]

def reportValues (runtime : LuaRuntime) (indent : Bytes) : LuaEntries → List (LuaKey × Bytes)
  | [] => []
  | (key, value) :: entries =>
    (key, reportJson runtime indent value) :: reportValues runtime indent entries

end

namespace Value

/-- The values that reports are made of: without nulls and numbers with a fraction, in UTF-8, the
keys of an object distinct C texts. -/
inductive Reportable : Value → Prop
  | boolean (b : Bool) : Reportable (boolean b)
  | integer (i : Int64) : Reportable (integer i)
  | string {s : Bytes} (hvalid : Utf8.valid s = true) : Reportable (string s)
  | array {items : List Value} (h : ∀ v ∈ items, Reportable v) : Reportable (array items)
  | object {members : List (Bytes × Value)} (hnodup : (members.map Prod.fst).Nodup)
      (hkeys : ∀ m ∈ members, Utf8.valid m.1 = true ∧ (0 : UInt8) ∉ m.1)
      (h : ∀ m ∈ members, Reportable m.2) : Reportable (object members)

theorem Reportable.ne_null {v : Value} (h : v.Reportable) : v ≠ .null := by
  cases h <;> exact Value.noConfusion

mutual

/-- The value with an empty object in the place of each empty array. -/
def emptied : Value → Value
  | .array [] => .object []
  | .array (v :: vs) => .array (emptied v :: emptiedItems vs)
  | .object members => .object (emptiedMembers members)
  | .null => .null
  | .boolean b => .boolean b
  | .integer i => .integer i
  | .number d => .number d
  | .string s => .string s

def emptiedItems : List Value → List Value
  | [] => []
  | v :: vs => emptied v :: emptiedItems vs

def emptiedMembers : List (Bytes × Value) → List (Bytes × Value)
  | [] => []
  | (k, v) :: ms => (k, emptied v) :: emptiedMembers ms

end

theorem emptiedItems_eq (items : List Value) : emptiedItems items = items.map emptied := by
  induction items with
  | nil => rfl
  | cons v vs ih => rw [emptiedItems, ih, List.map_cons]

theorem emptiedMembers_eq (members : List (Bytes × Value)) :
    emptiedMembers members = members.map fun m ↦ (m.1, m.2.emptied) := by
  induction members with
  | nil => rfl
  | cons m ms ih => rw [emptiedMembers, ih, List.map_cons]

theorem emptied_array {items : List Value} (hne : items ≠ []) :
    (array items).emptied = .array (items.map emptied) := by
  obtain ⟨v, vs, rfl⟩ := List.exists_cons_of_ne_nil hne
  rw [emptied, emptiedItems_eq, List.map_cons]

theorem emptied_object (members : List (Bytes × Value)) :
    (object members).emptied = .object (members.map fun m ↦ (m.1, m.2.emptied)) := by
  rw [emptied, emptiedMembers_eq]

end Value

open Yyjson

theorem escaping_reportEscape : Escaping reportEscape where
  high {c} h := by
    simp [reportEscape, ne_of_high h (d := quote) (by decide),
      ne_of_high h (d := backslash) (by decide), ne_of_high h (d := 10) (by decide),
      ne_of_high h (d := 13) (by decide), ne_of_high h (d := 9) (by decide),
      ne_of_high h (d := 127) (by decide), not_control_of_high h]
  head {c} h := by
    unfold reportEscape
    split_ifs with hquote
    all_goals first
      | exact ⟨_, _, rfl, by decide, by decide⟩
      | exact ⟨c, [], rfl, h, hquote⟩
  scan {c} h rest := by
    unfold reportEscape
    split_ifs with hquote hback h10 h13 h9 hcontrol
    · subst hquote; rfl
    · subst hback; rfl
    · subst h10; rfl
    · subst h13; rfl
    · subst h9; rfl
    · have hn : c.toNat < 128 := h
      have hscan := scanUnicode_control hn rest
      rw [UInt8.ofNat_toNat] at hscan
      exact hscan
    · exact scanChar_plain h hback (fun hlow ↦ hcontrol (.inl hlow)) rest

theorem reportString_eq (value : Bytes) : reportString value = stringText reportEscape value := by
  simp [reportString, stringText]

variable {runtime : LuaRuntime} {indent : Bytes} {entries : LuaEntries} {items : List Value}
  {members : List (Bytes × Value)}

theorem reportValues_eq (runtime : LuaRuntime) (indent : Bytes) (entries : LuaEntries) :
    reportValues runtime indent entries =
      entries.map fun entry ↦ (entry.1, reportJson runtime indent entry.2) := by
  induction entries with
  | nil => rfl
  | cons entry entries ih => rw [reportValues, ih, List.map_cons]

theorem lookup_reportValues (runtime : LuaRuntime) (indent : Bytes) {key : LuaKey}
    {value : LuaValue} (hnodup : (LuaEntries.keys entries).Nodup) (h : (key, value) ∈ entries) :
    (reportValues runtime indent entries).lookup key = some (reportJson runtime indent value) := by
  rw [reportValues_eq]
  refine lookup_of_nodup ?_ (List.mem_map_of_mem (f := fun entry : LuaKey × LuaValue ↦
    (entry.1, reportJson runtime indent entry.2)) h)
  rw [List.map_map]
  exact hnodup

theorem reportJson_sequence (hne : entries.length ≠ 0) (h : runtime.len entries = entries.length) :
    reportJson runtime indent (.table entries) = openBracket :: 10 :: (joinWith itemSeparator
      ((ipairs (reportValues runtime (indent ++ ascii "  ") entries) entries.length 1).map
        fun item ↦ indent ++ ascii "  " ++ item) ++ 10 :: (indent ++ [closeBracket])) := by
  have hopen : ascii "[\n" = [openBracket, 10] := rfl
  have hend : ascii "\n" = [10] := rfl
  have hclose : ascii "]" = [closeBracket] := rfl
  have hseparator : ascii ",\n" = itemSeparator := rfl
  rw [reportJson]
  simp only [if_neg hne, if_pos h, hopen, hend, hclose, hseparator, List.append_assoc,
    List.cons_append, List.nil_append]

def textAt (runtime : LuaRuntime) (indent : Bytes) (entries : LuaEntries) (key : Bytes) : Bytes :=
  ((reportValues runtime indent entries).lookup (.string key)).getD (ascii "null")

theorem reportJson_members (hne : entries.length ≠ 0) (h : runtime.len entries ≠ entries.length) :
    reportJson runtime indent (.table entries) = openBrace :: 10 :: (joinWith itemSeparator
      (((sortBy bytewise (entries.map fun entry ↦ entry.1.tostring runtime)).map fun key ↦
        memberText reportEscape key (textAt runtime (indent ++ ascii "  ") entries key)).map
          fun part ↦ indent ++ ascii "  " ++ part) ++
        10 :: (indent ++ [closeBrace])) := by
  have hend : ascii "\n" = [10] := rfl
  have hcolon : ascii ": " = [colon, 32] := rfl
  have hseparator : ascii ",\n" = itemSeparator := rfl
  rw [reportJson]
  simp only [if_neg hne, if_neg h, hend, hcolon, hseparator, List.append_assoc, List.map_map,
    List.cons_append, List.nil_append, reportString_eq, memberText, textAt, Function.comp_def]

theorem whitespace_next (h : Whitespace indent) : Whitespace (indent ++ ascii "  ") := by
  intro c hc
  rcases List.mem_append.mp hc with hc | hc
  · exact h c hc
  · have hspaces : ∀ c ∈ ascii "  ", isSpace c = true := by decide +kernel
    exact hspaces c hc

/-- The text of `t` is read as a value that says `v`. -/
def Says (text : Bytes) (v : Value) : Prop := ∃ y, Reads text y ∧ v.Same (fromYyjson y)

theorem ipairs_forall₂ {α β : Type} {R : α → β → Prop} {xs : List α}
    {entries : List (LuaKey × β)} {i : ℤ} (h : ∀ j, (hj : j < xs.length) →
      ∃ value, entries.lookup (.integer (i + j)) = some value ∧ R xs[j] value) :
    List.Forall₂ R xs (ipairs entries xs.length i) := by
  induction xs generalizing i with
  | nil => exact .nil
  | cons x xs ih =>
    obtain ⟨value, hvalue, hR⟩ := h 0 (by simp)
    have hrest : List.Forall₂ R xs (ipairs entries xs.length (i + 1)) := by
      refine ih fun j hj ↦ ?_
      obtain ⟨value, hvalue, hR⟩ := h (j + 1) (by simpa using hj)
      rw [Int.natCast_succ, Int.add_comm (j : ℤ) 1, ← Int.add_assoc] at hvalue
      exact ⟨value, hvalue, hR⟩
    rw [Int.natCast_zero, Int.add_zero] at hvalue
    rw [List.length_cons, ipairs, hvalue]
    exact .cons hR hrest

theorem fromMembers_eq (members : List (Bytes × YyjsonVal)) :
    fromMembers members = members.map fun m ↦ (m.1, fromYyjson m.2) := by
  induction members with
  | nil => rfl
  | cons m ms ih => rw [fromMembers, ih, List.map_cons]

theorem says_items {texts : List Bytes}
    (h : List.Forall₂ (fun v text ↦ Says text v.emptied) items texts) :
    ∃ ys, List.Forall₂ Reads texts ys ∧
      Value.SameItems (items.map Value.emptied) (fromItems ys) := by
  induction h with
  | nil => exact ⟨[], .nil, rfl⟩
  | cons hsays _ ih =>
    obtain ⟨y, hreads, hsame⟩ := hsays
    obtain ⟨ys, hall, hitems⟩ := ih
    exact ⟨y :: ys, .cons hreads hall, fromYyjson y, fromItems ys, rfl, hsame, hitems⟩

theorem says_empty : Says [openBrace, closeBrace] (.object []) :=
  ⟨.obj [], reads_writeValue (v := .object []) rfl, [], [], rfl, .refl [], rfl⟩

theorem says_array (hne : items ≠ []) (hindent : Whitespace indent) {t : LuaValue}
    (hnull : ∀ v ∈ items, v ≠ .null) (h : (pushValue (.array items)).Same t)
    (ih : ∀ v ∈ items, ∀ indent, Whitespace indent → ∀ t, (pushValue v).Same t →
      Says (reportJson runtime indent t) v.emptied) :
    Says (reportJson runtime indent t) (Value.array items).emptied := by
  obtain ⟨entries, rfl, hkeys, hitems⟩ := items_of_same hnull h
  have hcount : entries.length = items.length := by
    have hlen := hkeys.length_eq
    rwa [LuaEntries.keys, List.length_map, length_indices] at hlen
  have hlen : runtime.len entries = items.length := border_of_perm hkeys (runtime.border entries)
  have hnodup : (LuaEntries.keys entries).Nodup := hkeys.nodup_iff.mpr (nodup_indices _)
  have hsays : List.Forall₂ (fun v text ↦ Says text v.emptied) items
      (ipairs (reportValues runtime (indent ++ ascii "  ") entries) items.length 1) := by
    refine ipairs_forall₂ fun j hj ↦ ?_
    obtain ⟨value, hin, hvalue⟩ := hitems j hj
    refine ⟨_, ?_, ih _ (List.getElem_mem hj) _ (whitespace_next hindent) value hvalue⟩
    rw [Int.add_comm]
    exact lookup_reportValues _ _ hnodup hin
  obtain ⟨ys, hreads, hsame⟩ := says_items hsays
  have hpos : items.length ≠ 0 := by simpa using hne
  have hlength := hsays.length_eq
  refine ⟨.arr ys, ?_, ?_⟩
  · have harray := reads_array (by
      intro hnil
      rw [hnil] at hlength
      exact hpos hlength) hreads (whitespace_next hindent) hindent
    rw [reportJson_sequence (by rw [hcount]; exact hpos) (by rw [hlen, hcount]), hcount]
    exact harray
  · rw [Value.emptied_array hne]
    exact ⟨_, rfl, hsame⟩

def byKey (members : List (Bytes × Value)) : List (Bytes × Value) :=
  sortBy (fun m m' ↦ bytewise m.1 m'.1) members

theorem byKey_perm (members : List (Bytes × Value)) : (byKey members).Perm members :=
  sortBy_perm _ members

theorem byKey_ne_nil (hne : members ≠ []) : byKey members ≠ [] := by
  intro hnil
  have hperm := byKey_perm members
  rw [hnil] at hperm
  exact hne hperm.symm.eq_nil

theorem sorted_keys (hkeys : (LuaEntries.keys entries).Perm
    (members.map fun m ↦ LuaKey.string m.1)) :
    sortBy bytewise (entries.map fun entry ↦ entry.1.tostring runtime) =
      (byKey members).map Prod.fst := by
  have htexts : (entries.map fun entry ↦ entry.1.tostring runtime).Perm
      (members.map Prod.fst) := by
    have hperm := hkeys.map (LuaKey.tostring runtime)
    rw [LuaEntries.keys, List.map_map, List.map_map] at hperm
    exact hperm
  rw [sortBy_eq_of_perm bytewise htexts fun a _ b _ hab ↦ LawfulEqCmp.eq_of_compare hab]
  exact (List.map_insertionSort _ _ Prod.fst members fun a _ b _ ↦ Iff.rfl).symm

theorem len_of_string (hkeys : (LuaEntries.keys entries).Perm
    (members.map fun m ↦ LuaKey.string m.1)) : runtime.len entries = 0 := by
  obtain hzero | hin := (runtime.border entries).1
  · exact hzero
  · obtain ⟨m, _, heq⟩ := List.mem_map.mp (hkeys.mem_iff.mp hin)
    cases heq

theorem nodup_of_members (hnodup : (members.map Prod.fst).Nodup)
    (hkeys : (LuaEntries.keys entries).Perm (members.map fun m ↦ LuaKey.string m.1)) :
    (LuaEntries.keys entries).Nodup := by
  refine hkeys.nodup_iff.mpr ?_
  have hmap := hnodup.map (f := LuaKey.string) fun a b hab ↦ LuaKey.string.inj hab
  rwa [List.map_map] at hmap

theorem reads_byKey {text : Bytes → Bytes} {y : Bytes × Value → YyjsonVal}
    (hkeys : ∀ m ∈ members, Utf8.valid m.1 = true)
    (hreads : ∀ m ∈ members, Reads (text m.1) (y m)) :
    List.Forall₂ (ReadsMember reportEscape)
      ((byKey members).map fun m ↦ memberText reportEscape m.1 (text m.1))
      ((byKey members).map fun m ↦ (m.1, y m)) := by
  rw [List.forall₂_map_left_iff, List.forall₂_map_right_iff, List.forall₂_same]
  intro m hm
  have hin := (byKey_perm members).mem_iff.mp hm
  exact ⟨hkeys m hin, text m.1, hreads m hin, rfl⟩

theorem says_object (hne : members ≠ []) (hindent : Whitespace indent) {t : LuaValue}
    (hnull : ∀ m ∈ members, m.2 ≠ .null) (hnodup : (members.map Prod.fst).Nodup)
    (hkeys : ∀ m ∈ members, Utf8.valid m.1 = true ∧ (0 : UInt8) ∉ m.1)
    (h : (pushValue (.object members)).Same t)
    (ih : ∀ m ∈ members, ∀ indent, Whitespace indent → ∀ t, (pushValue m.2).Same t →
      Says (reportJson runtime indent t) m.2.emptied) :
    Says (reportJson runtime indent t) (Value.object members).emptied := by
  obtain ⟨entries, rfl, hperm, hmembers⟩ :=
    members_of_same hnull hnodup (fun m hm ↦ (hkeys m hm).2) h
  have hdistinct := nodup_of_members hnodup hperm
  have hsays : ∀ m ∈ members,
      Says (textAt runtime (indent ++ ascii "  ") entries m.1) m.2.emptied := by
    intro m hm
    obtain ⟨value, hin, hvalue⟩ := hmembers m hm
    rw [textAt, lookup_reportValues runtime _ hdistinct hin]
    exact ih m hm _ (whitespace_next hindent) value hvalue
  have : Nonempty YyjsonVal := ⟨.null⟩
  choose! y hreads hsame using hsays
  have hcount : entries.length = members.length := by
    have hlen := hperm.length_eq
    rwa [LuaEntries.keys, List.length_map, List.length_map] at hlen
  have hpos : members.length ≠ 0 := by simpa using hne
  have hparts := reads_byKey (fun m hm ↦ (hkeys m hm).1) hreads
  refine ⟨.obj ((byKey members).map fun m ↦ (m.1, y m)), ?_, ?_⟩
  · have hobject := reads_object escaping_reportEscape
      (fun hnil ↦ byKey_ne_nil hne (List.map_eq_nil_iff.mp hnil)) hparts
      (whitespace_next hindent) hindent
    rw [List.map_map] at hobject
    rw [reportJson_members (by rw [hcount]; exact hpos)
      (by rw [hcount, len_of_string hperm]; exact hpos.symm), sorted_keys hperm, List.map_map,
      List.map_map]
    exact hobject
  · rw [Value.emptied_object]
    refine ⟨_, members.map fun m ↦ (m.1, fromYyjson (y m)), rfl, ?_, ?_⟩
    · rw [fromMembers_eq, List.map_map]
      exact (byKey_perm members).map _
    · rw [Value.sameMembers_iff, List.forall₂_map_left_iff, List.forall₂_map_right_iff,
        List.forall₂_same]
      exact fun m hm ↦ ⟨rfl, hsame m hm⟩

theorem reportJson_nil : reportJson runtime indent (.table []) = [openBrace, closeBrace] := by
  rw [reportJson]
  rfl

theorem says_value (runtime : LuaRuntime) {v : Value} (h : v.Reportable) :
    ∀ indent, Whitespace indent → ∀ t, (pushValue v).Same t →
      Says (reportJson runtime indent t) v.emptied := by
  induction h with
  | boolean b =>
    intro indent _ t ht
    rw [show t = .boolean b from ht, reportJson]
    cases b
    · exact ⟨_, reads_writeValue (v := .boolean false) rfl, rfl⟩
    · exact ⟨_, reads_writeValue (v := .boolean true) rfl, rfl⟩
  | integer i =>
    intro indent _ t ht
    rw [show t = .integer i from ht, reportJson]
    exact ⟨_, reads_writeValue (v := .integer i) rfl, Value.fromYyjson_handed (.integer i)⟩
  | @string s hvalid =>
    intro indent _ t ht
    rw [show t = .string s from ht, reportJson, reportString_eq]
    exact ⟨.str s, reads_string escaping_reportEscape hvalid, rfl⟩
  | @array items hitems ih =>
    intro indent hindent t ht
    have hnull : ∀ v ∈ items, v ≠ .null := fun v hv ↦ (hitems v hv).ne_null
    by_cases hne : items = []
    · subst hne
      obtain ⟨entries, rfl, hkeys, -⟩ := items_of_same hnull ht
      rw [List.map_eq_nil_iff.mp hkeys.eq_nil, reportJson_nil]
      exact says_empty
    · exact says_array hne hindent hnull ht ih
  | @object members hnodup hkeys hmembers ih =>
    intro indent hindent t ht
    have hnull : ∀ m ∈ members, m.2 ≠ .null := fun m hm ↦ (hmembers m hm).ne_null
    by_cases hne : members = []
    · subst hne
      obtain ⟨entries, rfl, hperm, -⟩ := members_of_same hnull hnodup (by simp) ht
      rw [List.map_eq_nil_iff.mp hperm.eq_nil, reportJson_nil]
      exact says_empty
    · exact says_object hne hindent hnull hnodup hkeys ht ih

/-- `report.json` prints a value that `push_value` has put into tables, but for its empty arrays:
in Lua they are the empty table, and that is printed as an object. -/
theorem reportJson_denotes (runtime : LuaRuntime) {v : Value} (h : v.Reportable) {t : LuaValue}
    (ht : (pushValue v).Same t) :
    ∃ w, jsonParse (reportJson runtime [] t) = .ok w ∧ v.emptied.Same w := by
  obtain ⟨y, hreads, hsame⟩ := says_value runtime h [] (by simp [Whitespace]) t ht
  refine ⟨fromYyjson y, ?_, hsame⟩
  rw [jsonParse, hreads.read]

def plainRuntime : LuaRuntime := { LuaLength.last with address := fun _ ↦ [] }

/-- A key out of order, an escaped string, an empty array. -/
theorem reportJson_denotes_nested : ∃ w, jsonParse (reportJson plainRuntime [] (pushValue
    (.object [(ascii "b", .array []), (ascii "a", .array [.integer (-3), .string [34, 10, 127]])])))
      = .ok w ∧ (Value.object [(ascii "b", .object []),
        (ascii "a", .array [.integer (-3), .string [34, 10, 127]])]).Same w := by
  refine reportJson_denotes plainRuntime (v := .object [(ascii "b", .array []),
    (ascii "a", .array [.integer (-3), .string [34, 10, 127]])]) ?_ (LuaValue.same_refl _)
  refine .object (by decide) (by decide) fun m hm ↦ ?_
  simp only [List.mem_cons, List.not_mem_nil, or_false] at hm
  rcases hm with rfl | rfl
  · exact .array (by simp)
  · refine .array fun v hv ↦ ?_
    simp only [List.mem_cons, List.not_mem_nil, or_false] at hv
    rcases hv with rfl | rfl
    · exact .integer _
    · exact .string (by decide)

theorem reportJson_empty_array : (Value.array []).Reportable ∧
    ¬ ∃ w, jsonParse (reportJson plainRuntime [] (pushValue (.array []))) = .ok w ∧
      (Value.array []).Same w := by
  refine ⟨.array (by simp), ?_⟩
  intro ⟨w, hparse, items, hw, _⟩
  have hempty : jsonParse [openBrace, closeBrace] = .ok (.object []) := rfl
  rw [pushValue, pushItems, reportJson_nil, hempty, hw] at hparse
  cases hparse

end SquaredPg
