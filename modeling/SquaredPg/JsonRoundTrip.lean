import SquaredPg.DoubleText

namespace SquaredPg

open Ascii

namespace Value

@[elab_as_elim]
theorem nested {P : Value → Prop} (null : P null) (boolean : ∀ b, P (boolean b))
    (integer : ∀ i, P (integer i)) (number : ∀ d, P (number d)) (string : ∀ s, P (string s))
    (array : ∀ items, (∀ v ∈ items, P v) → P (array items))
    (object : ∀ members, (∀ m ∈ members, P m.2) → P (object members)) (v : Value) : P v :=
  @Value.rec P (fun items ↦ ∀ v ∈ items, P v) (fun members ↦ ∀ m ∈ members, P m.2)
    (fun m ↦ P m.2) null boolean integer number string array object (by simp)
    (fun _ _ hv hitems ↦ List.forall_mem_cons.mpr ⟨hv, hitems⟩) (by simp)
    (fun _ _ hm hmembers ↦ List.forall_mem_cons.mpr ⟨hm, hmembers⟩) (fun _ _ hv ↦ hv) v

mutual

/-- Whether there is a text of JSON for a value: its strings are UTF-8 and its numbers finite. -/
def legible : Value → Bool
  | .null => true
  | .boolean _ => true
  | .integer _ => true
  | .number d => d.Finite
  | .string s => Utf8.valid s
  | .array items => legibleItems items
  | .object members => legibleMembers members

def legibleItems : List Value → Bool
  | [] => true
  | v :: vs => legible v && legibleItems vs

def legibleMembers : List (Bytes × Value) → Bool
  | [] => true
  | (k, v) :: ms => (Utf8.valid k && legible v) && legibleMembers ms

end

mutual

/-- What yyjson hands over for the text of a value that has one. -/
def handed : Value → YyjsonVal
  | .null => .null
  | .boolean b => .bool b
  | .integer i => Yyjson.integerYyjson i
  | .number d => d.toYyjson
  | .string s => .str s
  | .array items => .arr (handedItems items)
  | .object members => .obj (handedMembers members)

def handedItems : List Value → List YyjsonVal
  | [] => []
  | v :: vs => handed v :: handedItems vs

def handedMembers : List (Bytes × Value) → List (Bytes × YyjsonVal)
  | [] => []
  | (k, v) :: ms => (k, handed v) :: handedMembers ms

end

/-- The integer that a double with few enough digits is, or else the double. -/
def settledNumber (d : Double) : Value :=
  match d.integer? with
  | some k => .integer (Int64.ofInt (if d.negative then -k else k))
  | none => .number d

mutual

/-- The value with an integer for each number that is written as one. -/
def settled : Value → Value
  | .null => .null
  | .boolean b => .boolean b
  | .integer i => .integer i
  | .number d => settledNumber d
  | .string s => .string s
  | .array items => .array (settledItems items)
  | .object members => .object (settledMembers members)

def settledItems : List Value → List Value
  | [] => []
  | v :: vs => settled v :: settledItems vs

def settledMembers : List (Bytes × Value) → List (Bytes × Value)
  | [] => []
  | (k, v) :: ms => (k, settled v) :: settledMembers ms

end

theorem fromYyjson_double (d : Double) : fromYyjson d.toYyjson = settledNumber d := by
  unfold Double.toYyjson settledNumber
  cases d.integer? with
  | none => rfl
  | some k =>
    dsimp only
    split_ifs
    · rfl
    · rfl

theorem fromYyjson_handed (v : Value) : fromYyjson v.handed = v.settled := by
  induction v using nested with
  | null => rfl
  | boolean b => rfl
  | integer i =>
    rw [handed, Yyjson.integerYyjson]
    split_ifs
    · rfl
    · rw [fromYyjson, Int64.toInt64_toUInt64, settled]
  | number d => exact fromYyjson_double d
  | string s => rfl
  | array items ih =>
    rw [handed, fromYyjson, settled]
    congr 1
    induction items with
    | nil => rfl
    | cons v items ihitems =>
      rw [handedItems, fromItems, settledItems, ih v List.mem_cons_self,
        ihitems fun w hw ↦ ih w (.tail v hw)]
  | object members ih =>
    rw [handed, fromYyjson, settled]
    congr 1
    induction members with
    | nil => rfl
    | cons m members ihmembers =>
      obtain ⟨k, v⟩ := m
      rw [handedMembers, fromMembers, settledMembers, ih (k, v) List.mem_cons_self,
        ihmembers fun n hn ↦ ih n (.tail (k, v) hn)]

end Value

namespace Yyjson

variable {v : Value} {items : List Value} {members : List (Bytes × Value)} {pretty : Bool}

theorem head_value (v : Value) (pretty : Bool) (depth : ℕ) (rest : Bytes) :
    ∃ c tail, writeValue pretty depth v ++ rest = c :: tail ∧ isSpace c = false ∧
      c ≠ closeBracket ∧ c ≠ closeBrace := by
  cases v with
  | null => exact ⟨_, _, rfl, by decide, by decide, by decide⟩
  | boolean b => cases b <;> exact ⟨_, _, rfl, by decide, by decide, by decide⟩
  | integer i =>
    obtain ⟨c, tail, hc, hdigit⟩ := head_digits_append i.toInt.natAbs rest
    rw [writeValue, integerText]
    split_ifs
    · exact ⟨minus, _, rfl, by decide, by decide, by decide⟩
    · refine ⟨c, tail, hc, ?_, ?_, ?_⟩
      · rw [Bool.eq_false_iff]
        intro hspace
        simp only [isSpace, decide_eq_true_eq] at hspace
        rcases hspace with rfl | rfl | rfl | rfl <;> exact absurd hdigit (by decide)
      · rintro rfl; exact absurd hdigit (by decide)
      · rintro rfl; exact absurd hdigit (by decide)
  | number d =>
    obtain ⟨c, tail, htext, hc⟩ := d.head_printG
    refine ⟨c, tail ++ rest, by rw [writeValue, htext]; rfl, ?_, ?_, ?_⟩
    · rw [Bool.eq_false_iff]
      intro hspace
      simp only [isSpace, decide_eq_true_eq] at hspace
      rcases hspace with rfl | rfl | rfl | rfl <;> exact absurd hc (by decide)
    · rintro rfl
      exact absurd hc (by decide)
    · rintro rfl
      exact absurd hc (by decide)
  | string s => exact ⟨_, _, rfl, by decide, by decide, by decide⟩
  | array items => cases items <;> exact ⟨_, _, rfl, by decide, by decide, by decide⟩
  | object members => cases members <;> exact ⟨_, _, rfl, by decide, by decide, by decide⟩

theorem skipSpace_value (v : Value) (pretty : Bool) (depth depth' : ℕ) (rest : Bytes) :
    skipSpace (newline pretty depth ++ (writeValue pretty depth' v ++ rest)) =
      writeValue pretty depth' v ++ rest := by
  obtain ⟨c, tail, hc, hspace, -⟩ := head_value v pretty depth' rest
  refine skipSpace_newline pretty depth ?_
  rw [hc]
  simpa using hspace

theorem length_value (v : Value) (pretty : Bool) (depth : ℕ) :
    0 < (writeValue pretty depth v).length := by
  obtain ⟨c, tail, hc, -⟩ := head_value v pretty depth []
  rw [List.append_nil] at hc
  simp [hc]

def HandsOver (pretty : Bool) (v : Value) : Prop :=
  ∀ (depth n : ℕ) (rest : Bytes), Boundary rest → (writeValue pretty depth v).length ≤ n →
    parseValue n (writeValue pretty depth v ++ rest) =
      if v.legible then some (v.handed, rest) else none

theorem parseItems_values (depth : ℕ) (items : List Value) (rest : Bytes) :
    ∀ (v : Value) (n : ℕ), (∀ w ∈ v :: items, HandsOver pretty w) →
      (writeValue pretty (depth + 1) v).length + (writeItems pretty depth items).length ≤ n →
      parseItems n (writeValue pretty (depth + 1) v ++ (writeItems pretty depth items ++ rest)) =
        if Value.legibleItems (v :: items) then some (Value.handedItems (v :: items), rest)
        else none := by
  induction items with
  | nil =>
    intro v n hread hn
    simp only [writeItems, List.length_append, List.length_singleton] at hn
    obtain ⟨n, rfl⟩ : ∃ m, n = m + 1 := ⟨n - 1, by omega⟩
    have hclose : skipSpace (newline pretty depth ++ closeBracket :: rest) = closeBracket :: rest :=
      skipSpace_newline pretty depth (by simp [isSpace, closeBracket])
    rw [parseItems, hread v (by simp) _ _ _ (boundary_writeItems pretty depth [] rest) (by omega)]
    by_cases hv : v.legible = true
    · simp [hv, writeItems, hclose, Value.legibleItems, Value.handedItems]
    · simp [hv, Value.legibleItems]
  | cons w items ih =>
    intro v n hread hn
    have hpos := length_value v pretty (depth + 1)
    simp only [writeItems, List.length_cons, List.length_append] at hn
    obtain ⟨n, rfl⟩ : ∃ m, n = m + 1 := ⟨n - 1, by omega⟩
    have hskip : ∀ s, skipSpace (comma :: s) = comma :: s := fun s ↦ rfl
    have hcomma : some comma ≠ some closeBracket := by decide
    rw [parseItems, hread v (by simp) _ _ _ (boundary_writeItems pretty depth (w :: items) rest)
      (by omega), Value.legibleItems]
    by_cases hv : v.legible = true
    · have htail := ih w n (fun u hu ↦ hread u (by simp [hu])) (by omega)
      simp only [hv, Bool.true_and, if_true, writeItems, List.cons_append, List.append_assoc, hskip,
        List.head?_cons, List.tail_cons, skipSpace_value, htail, if_neg hcomma]
      split_ifs <;> rfl
    · simp [hv]

theorem skipSpace_colon_value (v : Value) (pretty : Bool) (depth : ℕ) (rest : Bytes) :
    skipSpace (skipSpace (ascii (if pretty then ": " else ":") ++
      (writeValue pretty depth v ++ rest))).tail = writeValue pretty depth v ++ rest := by
  obtain ⟨c, tail, hc, hspace, -⟩ := head_value v pretty depth rest
  have hvalue : skipSpace (c :: tail) = c :: tail := skipSpace_head (by simpa using hspace)
  rw [hc]
  cases pretty
  · exact hvalue
  · exact (List.dropWhile_cons_of_pos rfl).trans hvalue

theorem parseMembers_value {k rest : Bytes} {depth n : ℕ} (hread : HandsOver pretty v)
    (hrest : Boundary rest) (hn : (writeValue pretty depth v).length ≤ n) :
    parseMembers (n + 1) (writeEscaped k ++ (ascii (if pretty then ": " else ":") ++
      (writeValue pretty depth v ++ rest))) =
      if Utf8.valid k && v.legible then
        if (skipSpace rest).head? = some closeBrace then
          some ([(k, v.handed)], (skipSpace rest).tail)
        else if (skipSpace rest).head? = some comma then
          (parseMembers n (skipSpace (skipSpace rest).tail)).map fun p ↦ ((k, v.handed) :: p.1, p.2)
        else none
      else none := by
  have hkey := fun s ↦ scanString_writeEscaped s ((length_quoted k s).trans (Nat.lt_succ_self _))
  have hvalue := hread depth n rest hrest hn
  rw [writeEscaped_append, parseMembers]
  simp only [List.head?_cons, List.tail_cons, if_true, List.length_cons, hkey]
  by_cases hk : Utf8.valid k = true
  · simp only [hk, if_true, head_colon, skipSpace_colon_value, hvalue, Bool.true_and]
    by_cases hv : v.legible = true
    · simp only [hv, if_true]
    · simp only [hv]
      rfl
  · simp [hk]

theorem parseMembers_values (depth : ℕ) (members : List (Bytes × Value)) (rest : Bytes) :
    ∀ (k : Bytes) (v : Value) (n : ℕ), (∀ m ∈ (k, v) :: members, HandsOver pretty m.2) →
      (writeValue pretty (depth + 1) v).length + (writeMembers pretty depth members).length ≤ n →
      parseMembers n (writeEscaped k ++ (ascii (if pretty then ": " else ":") ++
        (writeValue pretty (depth + 1) v ++ (writeMembers pretty depth members ++ rest)))) =
        if Value.legibleMembers ((k, v) :: members) then
          some (Value.handedMembers ((k, v) :: members), rest) else none := by
  induction members with
  | nil =>
    intro k v n hread hn
    simp only [writeMembers, List.length_append, List.length_singleton] at hn
    obtain ⟨n, rfl⟩ : ∃ m, n = m + 1 := ⟨n - 1, by omega⟩
    have hclose : skipSpace (newline pretty depth ++ closeBrace :: rest) = closeBrace :: rest :=
      skipSpace_newline pretty depth (by simp [isSpace, closeBrace])
    have hreadv : HandsOver pretty v := hread (k, v) (by simp)
    rw [parseMembers_value hreadv (boundary_writeMembers pretty depth [] rest) (by omega)]
    simp [writeMembers, hclose, Value.legibleMembers, Value.handedMembers]
  | cons m members ih =>
    obtain ⟨l, w⟩ := m
    intro k v n hread hn
    have hreadv : HandsOver pretty v := hread (k, v) (by simp)
    have hpos := length_value v pretty (depth + 1)
    simp only [writeMembers, List.length_cons, List.length_append] at hn
    obtain ⟨n, rfl⟩ : ∃ m, n = m + 1 := ⟨n - 1, by omega⟩
    have htail := ih l w n (fun u hu ↦ hread u (by simp [hu])) (by omega)
    have hskip : ∀ s, skipSpace (comma :: s) = comma :: s := fun s ↦ rfl
    have hcomma : some comma ≠ some closeBrace := by decide
    rw [parseMembers_value hreadv (boundary_writeMembers pretty depth ((l, w) :: members) rest)
      (by omega), Value.legibleMembers]
    by_cases hkv : (Utf8.valid k && v.legible) = true
    · simp only [hkv, Bool.true_and, if_true, writeMembers, List.cons_append, List.append_assoc,
        hskip, List.head?_cons, List.tail_cons, skipSpace_key, htail, if_neg hcomma]
      split_ifs <;> rfl
    · simp [hkv]

theorem HandsOver.of_succ (h : ∀ (depth n : ℕ) (rest : Bytes), Boundary rest →
    (writeValue pretty depth v).length ≤ n + 1 →
    parseValue (n + 1) (writeValue pretty depth v ++ rest) =
      if v.legible then some (v.handed, rest) else none) : HandsOver pretty v := by
  intro depth n rest hrest hn
  have hpos := length_value v pretty depth
  obtain ⟨n, rfl⟩ : ∃ m, n = m + 1 := ⟨n - 1, by omega⟩
  exact h depth n rest hrest hn

theorem handsOver_integer (i : Int64) (pretty : Bool) : HandsOver pretty (.integer i) := by
  refine .of_succ fun depth n rest hrest _ ↦ ?_
  have hhead : ∃ c tail, integerText i ++ rest = c :: tail ∧ (c = minus ∨ isDigit c = true) := by
    rw [integerText]
    split_ifs
    · exact ⟨minus, _, rfl, .inl rfl⟩
    · obtain ⟨c, tail, hc, hdigit⟩ := head_digits_append i.toInt.natAbs rest
      exact ⟨c, tail, hc, .inr hdigit⟩
  obtain ⟨c, tail, hc, hkind⟩ := hhead
  rw [writeValue, hc, parseValue_number hkind, ← hc, parseNumber_integerText i hrest]
  rfl

theorem handsOver_string (s : Bytes) (pretty : Bool) : HandsOver pretty (.string s) := by
  refine .of_succ fun depth n rest _ _ ↦ ?_
  rw [writeValue, writeEscaped_append, parseValue, if_pos rfl,
    scanString_writeEscaped rest ((length_quoted s rest).trans (Nat.lt_succ_self _))]
  by_cases hs : Utf8.valid s = true <;> simp [hs, Value.legible, Value.handed]

theorem handsOver_number (d : Double) (pretty : Bool) : HandsOver pretty (.number d) := by
  refine .of_succ fun depth n rest hrest _ ↦ ?_
  rw [writeValue]
  by_cases hfinite : d.Finite
  · have hparse := d.parseNumber_printG hfinite hrest
    obtain ⟨c, tail, hc, hhead⟩ := Double.head_of_parseNumber hparse
    rw [hc] at hparse ⊢
    rw [parseValue_number hhead, hparse, Value.legible, if_pos (decide_eq_true hfinite)]
    rfl
  · rw [d.parseValue_infinite hfinite, Value.legible, if_neg (by simpa using hfinite)]

theorem handsOver_array (ih : ∀ v ∈ items, HandsOver pretty v) :
    HandsOver pretty (.array items) := by
  refine .of_succ fun depth n rest _ hn ↦ ?_
  rcases items with _ | ⟨v, items⟩
  · rfl
  · simp only [writeValue, List.length_cons, List.length_append] at hn
    obtain ⟨c, tail, hc, -, hclose, -⟩ := head_value v pretty (depth + 1)
      (writeItems pretty depth items ++ rest)
    have hitems := parseItems_values depth items rest v n ih (by omega)
    rw [writeValue, List.cons_append, parseValue, if_neg (by decide), if_pos rfl,
      List.append_assoc, List.append_assoc, skipSpace_value, hitems, hc,
      List.head?_cons, if_neg (by simpa using hclose), Value.legible, Value.handed]
    split_ifs <;> rfl

theorem handsOver_object (ih : ∀ m ∈ members, HandsOver pretty m.2) :
    HandsOver pretty (.object members) := by
  refine .of_succ fun depth n rest _ hn ↦ ?_
  rcases members with _ | ⟨⟨k, v⟩, members⟩
  · rfl
  · simp only [writeValue, List.length_cons, List.length_append] at hn
    have hmembers := parseMembers_values depth members rest k v n ih (by omega)
    have hhead : ∀ s, (writeEscaped k ++ s).head? ≠ some closeBrace := by
      intro s
      rw [writeEscaped_append]
      simp [quote, closeBrace]
    rw [writeValue, List.cons_append, parseValue, if_neg (by decide), if_neg (by decide), if_pos rfl]
    simp only [List.append_assoc, skipSpace_key, if_neg (hhead _), hmembers]
    by_cases hall : (Value.object ((k, v) :: members)).legible = true
    · rw [if_pos hall, if_pos (show Value.legibleMembers _ = true from hall)]
      rfl
    · rw [if_neg hall, if_neg (show ¬Value.legibleMembers _ = true from hall)]
      rfl

theorem handsOver (v : Value) (pretty : Bool) : HandsOver pretty v := by
  induction v using Value.nested with
  | null =>
    refine .of_succ fun depth n rest _ _ ↦ ?_
    simp [writeValue, ascii, charByte, parseValue, scanLiteral, quote, openBracket, openBrace,
      Value.legible, Value.handed]
  | boolean b =>
    refine .of_succ fun depth n rest _ _ ↦ ?_
    cases b <;> simp [writeValue, ascii, charByte, parseValue, scanLiteral, quote, openBracket,
      openBrace, Value.legible, Value.handed]
  | integer i => exact handsOver_integer i pretty
  | number d => exact handsOver_number d pretty
  | string s => exact handsOver_string s pretty
  | array items ih => exact handsOver_array ih
  | object members ih => exact handsOver_object ih

/-- The reader takes exactly the texts of JSON among those that are written. -/
theorem read_written (v : Value) (pretty : Bool) :
    read (jsonWrite v pretty) = if v.legible then some v.handed else none := by
  have hblank : skipSpace (if pretty then [10] else []) = [] := by cases pretty <;> rfl
  have hboundary : Boundary (if pretty then [10] else []) := by
    cases pretty
    · simp [Boundary]
    · exact boundary_of_head _ (by decide)
  obtain ⟨c, tail, hc, hspace, -⟩ := head_value v pretty 0 (if pretty then [10] else [])
  have hskip : skipSpace (jsonWrite v pretty) = jsonWrite v pretty := by
    rw [jsonWrite, hc]
    exact skipSpace_head (by simpa using hspace)
  have hvalue := handsOver v pretty 0 ((jsonWrite v pretty).length + 1) _ hboundary
    (by simp only [jsonWrite, List.length_append]; omega)
  rw [← jsonWrite] at hvalue
  rw [read, hskip, hvalue]
  by_cases hlegible : v.legible = true
  · simp only [if_pos hlegible, hblank, if_true]
  · simp only [if_neg hlegible]

end Yyjson

theorem jsonParse_of_legible {v : Value} (h : v.legible = true) (pretty : Bool) :
    jsonParse (jsonWrite v pretty) = .ok v.settled := by
  rw [jsonParse, Yyjson.read_written, if_pos h]
  exact congrArg Except.ok v.fromYyjson_handed

theorem jsonParse_of_not_legible {v : Value} (h : ¬ v.legible = true) (pretty : Bool) :
    jsonParse (jsonWrite v pretty) =
      .error (makeError .configuration "configuration.json.malformed" (ascii "invalid JSON")) := by
  rw [jsonParse, Yyjson.read_written, if_neg h]

/-- A text is read as the value it was written from, with its integral numbers as integers, and it
is refused if a string in it is not UTF-8 or a number is not finite. -/
theorem jsonParse_jsonWrite_all (v : Value) (pretty : Bool) :
    jsonParse (jsonWrite v pretty) = if v.legible then .ok v.settled
      else .error (makeError .configuration "configuration.json.malformed" (ascii "invalid JSON")) := by
  by_cases hlegible : v.legible = true
  · rw [if_pos hlegible, jsonParse_of_legible hlegible]
  · rw [if_neg hlegible, jsonParse_of_not_legible hlegible]

namespace Value

variable {v : Value}

theorem legibleItems_eq_all (items : List Value) : legibleItems items = items.all legible := by
  induction items with
  | nil => rfl
  | cons v items ih => rw [legibleItems, List.all_cons, ih]

theorem legibleMembers_eq_all (members : List (Bytes × Value)) :
    legibleMembers members = members.all fun m ↦ Utf8.valid m.1 && m.2.legible := by
  induction members with
  | nil => rfl
  | cons m members ih => rw [legibleMembers, List.all_cons, ih]

theorem settledItems_of_forall {items : List Value} (h : ∀ v ∈ items, v.settled = v) :
    settledItems items = items := by
  induction items with
  | nil => rfl
  | cons v items ih =>
    rw [settledItems, h v List.mem_cons_self, ih fun w hw ↦ h w (.tail v hw)]

theorem settledMembers_of_forall {members : List (Bytes × Value)}
    (h : ∀ m ∈ members, m.2.settled = m.2) : settledMembers members = members := by
  induction members with
  | nil => rfl
  | cons m members ih =>
    obtain ⟨k, v⟩ := m
    rw [settledMembers, h (k, v) List.mem_cons_self, ih fun n hn ↦ h n (.tail (k, v) hn)]

theorem NumberFree.legible_eq (h : v.NumberFree) : v.legible = v.texts.all Utf8.valid := by
  induction h with
  | null => rfl
  | boolean b => rfl
  | integer i => rfl
  | string s => rw [texts_string, legible]
  | array _ ih =>
    rw [texts_array, legible, legibleItems_eq_all, Bool.eq_iff_iff, List.all_eq_true, List.all_eq_true]
    exact forall₂_congr fun v hv ↦ by rw [ih v hv]
  | object _ ih =>
    rw [texts_object, legible, legibleMembers_eq_all, Bool.eq_iff_iff, List.all_eq_true,
      List.all_eq_true]
    exact forall₂_congr fun m hm ↦ by rw [ih m hm]

theorem NumberFree.settled_eq (h : v.NumberFree) : v.settled = v := by
  induction h with
  | null => rfl
  | boolean b => rfl
  | integer i => rfl
  | string s => rfl
  | array _ ih => rw [settled, settledItems_of_forall ih]
  | object _ ih => rw [settled, settledMembers_of_forall ih]

end Value

theorem jsonParse_jsonWrite {v : Value} (hv : v.NumberFree) (pretty : Bool) :
    (v.texts.all Utf8.valid = true ∧ jsonParse (jsonWrite v pretty) = .ok v) ∨
      (v.texts.all Utf8.valid = false ∧ ∃ e, jsonParse (jsonWrite v pretty) = .error e) := by
  by_cases hall : v.texts.all Utf8.valid = true
  · have hparse := jsonParse_of_legible (hv.legible_eq.trans hall) pretty
    rw [hv.settled_eq] at hparse
    exact .inl ⟨hall, hparse⟩
  · have hlegible : ¬ v.legible = true := hv.legible_eq ▸ hall
    exact .inr ⟨Bool.eq_false_iff.mpr hall, _, jsonParse_of_not_legible hlegible pretty⟩

/-- A value without floating point numbers is read back as it was, pretty or compact. -/
theorem json_roundTrip {v : Value} (hv : v.NumberFree) (hvalid : v.texts.all Utf8.valid = true)
    (pretty : Bool) : jsonParse (jsonWrite v pretty) = .ok v := by
  obtain ⟨-, hparse⟩ | ⟨hinvalid, -⟩ := jsonParse_jsonWrite hv pretty
  · exact hparse
  · rw [hvalid] at hinvalid
    cases hinvalid

/-- One key twice, and a string with a NUL, a quote and a line end. -/
theorem json_roundTrip_repeated :
    jsonParse (jsonWrite (.object [(ascii "a", .array [.integer Int64.minValue, .object []]),
      (ascii "a", .string [0, 34, 10])]) true) =
      .ok (.object [(ascii "a", .array [.integer Int64.minValue, .object []]),
        (ascii "a", .string [0, 34, 10])]) := by
  apply json_roundTrip
  · apply Value.NumberFree.object
    intro m hm
    simp only [List.mem_cons, List.not_mem_nil, or_false] at hm
    rcases hm with rfl | rfl
    · apply Value.NumberFree.array
      intro v hvalue
      simp only [List.mem_cons, List.not_mem_nil, or_false] at hvalue
      rcases hvalue with rfl | rfl
      · exact .integer _
      · exact .object (by simp)
    · exact .string _
  · decide

end SquaredPg
