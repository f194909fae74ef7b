import SquaredPg.ArgumentParameters
import SquaredPg.Fallible
import SquaredPg.Reports

namespace SquaredPg

open Ascii Fallible

namespace LuaEntries

/-- `for key, value in pairs(source) do entries[key] = value end` -/
def update (entries source : LuaEntries) : LuaEntries :=
  source.foldl (fun entries entry ↦ LuaEntries.set entries entry.1 entry.2) entries

variable {entries source : LuaEntries} {key : LuaKey} {value : LuaValue}

theorem present_set (h : ∀ entry ∈ entries, entry.2 ≠ .nil) :
    ∀ entry ∈ entries.set key value, entry.2 ≠ .nil := by
  by_cases hvalue : value = .nil
  · rw [hvalue]
    exact fun entry hentry ↦ h entry (List.mem_of_mem_filter hentry)
  · intro entry hentry
    rcases mem_set hentry with hmem | rfl
    · exact h entry hmem
    · exact hvalue

theorem nodup_update (h : entries.keys.Nodup) : (entries.update source).keys.Nodup := by
  induction source generalizing entries with
  | nil => exact h
  | cons entry source ih => exact ih (nodup_set h)

theorem present_update (h : ∀ entry ∈ entries, entry.2 ≠ .nil) :
    ∀ entry ∈ entries.update source, entry.2 ≠ .nil := by
  induction source generalizing entries with
  | nil => exact h
  | cons entry source ih => exact ih (present_set h)

theorem lookup_update (hnodup : source.keys.Nodup) (hpresent : ∀ entry ∈ source, entry.2 ≠ .nil) :
    (entries.update source).lookup key = (source.lookup key).or (entries.lookup key) := by
  induction source generalizing entries with
  | nil => rfl
  | cons entry source ih =>
    obtain ⟨k, v⟩ := entry
    obtain ⟨hfresh, hnodup⟩ := List.nodup_cons.mp hnodup
    obtain ⟨hv, hpresent⟩ := List.forall_mem_cons.mp hpresent
    rw [update, List.foldl_cons, ← update, ih hnodup hpresent, lookup_set, List.lookup_cons]
    by_cases hkey : key = k
    · have hnone : source.lookup k = none := by
        rw [List.lookup_eq_none_iff]
        intro entry hentry
        rw [bne_iff_ne]
        exact fun heq ↦ hfresh (List.mem_map.mpr ⟨entry, hentry, heq.symm⟩)
      rw [hkey, hnone, if_pos rfl, beq_self_eq_true]
      exact assigned_of_ne hv
    · rw [if_neg hkey, beq_eq_false_iff_ne.mpr hkey]

end LuaEntries

def luaKey (name : String) : LuaKey := .string (ascii name)

/-- A table binds a key once, and to something else than nil. -/
structure LuaTable where
  entries : LuaEntries
  nodup : entries.keys.Nodup
  present : ∀ entry ∈ entries, entry.2 ≠ .nil

namespace LuaTable

open LuaEntries

def empty : LuaTable := ⟨[], List.nodup_nil, by simp⟩

def get (t : LuaTable) (key : LuaKey) : Option LuaValue := t.entries.lookup key

def set (t : LuaTable) (key : LuaKey) (value : LuaValue) : LuaTable :=
  ⟨t.entries.set key value, nodup_set t.nodup, present_set t.present⟩

def update (t source : LuaTable) : LuaTable :=
  ⟨t.entries.update source.entries, nodup_update t.nodup, present_update t.present⟩

def ofFields (fields : List (String × LuaValue)) : LuaTable :=
  fields.foldl (fun t field ↦ t.set (luaKey field.1) field.2) empty

variable {t source : LuaTable} {key other : LuaKey} {value : LuaValue}

@[simp] theorem get_empty : empty.get key = none := rfl

@[simp] theorem get_set : (t.set key value).get other =
    if other = key then assigned value else t.get other := lookup_set

@[simp] theorem get_update : (t.update source).get key = (source.get key).or (t.get key) :=
  lookup_update source.nodup source.present

end LuaTable

def numeral (c : UInt8) : Bool := isDigit c || c ∈ ascii "+-.aefin"

def Worded (key : Bytes) : Prop := ∃ c ∈ key, numeral c = false

instance : DecidablePred Worded := List.decidableBEx (numeral · = false)

def AllNumeral (text : Bytes) : Prop := ∀ c ∈ text, numeral c = true

instance : DecidablePred AllNumeral := List.decidableBAll (numeral · = true)

theorem allNumeral_append {text other : Bytes} :
    AllNumeral (text ++ other) ↔ AllNumeral text ∧ AllNumeral other := List.forall_mem_append

theorem allNumeral_cons {c : UInt8} {text : Bytes} :
    AllNumeral (c :: text) ↔ numeral c = true ∧ AllNumeral text := List.forall_mem_cons

theorem allNumeral_decimal (n : ℕ) : AllNumeral (decimal n) := by
  intro c hc
  rw [numeral, decimal_digits hc, Bool.true_or]

theorem allNumeral_zeros (n : ℕ) : AllNumeral (List.replicate n zero) := by
  intro c hc
  rw [List.eq_of_mem_replicate hc]
  decide

namespace Double

theorem allNumeral_point {whole rest : Bytes} (hwhole : AllNumeral whole) (hrest : AllNumeral rest) :
    AllNumeral (if rest = [] then whole else whole ++ dot :: rest) := by
  split_ifs
  · exact hwhole
  · rw [allNumeral_append, allNumeral_cons]
    exact ⟨hwhole, by decide, hrest⟩

theorem allNumeral_layoutG {precision : ℕ} {digits : Bytes} {x : ℤ} (h : AllNumeral digits) :
    AllNumeral (layoutG precision digits x) := by
  have htake : ∀ n, AllNumeral (digits.take n) := fun n c hc ↦ h c (List.mem_of_mem_take hc)
  have hdrop : ∀ n, AllNumeral (digits.drop n) := fun n c hc ↦ h c (List.mem_of_mem_drop hc)
  unfold layoutG
  dsimp only
  by_cases hexponent : x < -4 ∨ (precision : ℤ) ≤ x
  · rw [if_pos hexponent]
    simp only [allNumeral_append]
    refine ⟨⟨⟨allNumeral_point (htake _) (hdrop _), by decide⟩, ?_⟩, ?_⟩
    · split_ifs <;> decide
    · split_ifs
      · exact allNumeral_cons.mpr ⟨by decide, allNumeral_decimal _⟩
      · exact allNumeral_decimal _
  · rw [if_neg hexponent]
    by_cases hneg : x < 0
    · rw [if_pos hneg]
      simp only [allNumeral_append]
      exact ⟨⟨by decide, allNumeral_zeros _⟩, h⟩
    · rw [if_neg hneg]
      exact allNumeral_point (allNumeral_append.mpr ⟨htake _, allNumeral_zeros _⟩) (hdrop _)

theorem allNumeral_printG (precision : ℕ) (d : Double) : AllNumeral (d.printG precision) := by
  have hsign : AllNumeral (if d.negative then ascii "-" else []) := by split_ifs <;> decide
  unfold printG
  dsimp only
  generalize (if d.negative then ascii "-" else []) = sign at hsign ⊢
  split_ifs
  · exact allNumeral_append.mpr ⟨hsign, by decide⟩
  · exact allNumeral_append.mpr ⟨hsign, by decide⟩
  · exact allNumeral_append.mpr ⟨hsign, by decide⟩
  · refine allNumeral_append.mpr ⟨hsign, allNumeral_layoutG fun c hc ↦ ?_⟩
    exact allNumeral_decimal _ c ((List.rdropWhile_prefix _ _).subset hc)

end Double

/-- Only the text itself is a key that reads as it: no number does. -/
def Unnumbered (key : Bytes) : Prop := ∀ k : LuaKey, k.text = some key → k = .string key

theorem unnumbered_of_not {P : Bytes → Prop} {key : Bytes} (hkey : ¬ P key)
    (hdecimal : ∀ n, P (decimal n)) (hminus : ∀ n, P (Ascii.minus :: decimal n))
    (hfloat : ∀ d : Double, P (d.printG 14)) (hpoint : ∀ text, P text → P (text ++ ascii ".0")) :
    Unnumbered key := by
  intro k htext
  cases k with
  | string s => exact congrArg LuaKey.string (Option.some.inj htext)
  | boolean b => cases htext
  | reference address => cases htext
  | integer i =>
    refine absurd ?_ hkey
    rw [← Option.some.inj htext]
    split_ifs
    · exact hminus _
    · exact hdecimal _
  | float d =>
    refine absurd ?_ hkey
    rw [← Option.some.inj htext]
    split_ifs
    · exact hpoint _ (hfloat d)
    · exact hfloat d

theorem Worded.unnumbered {key : Bytes} (h : Worded key) : Unnumbered key := by
  obtain ⟨c, hc, hworded⟩ := h
  have hnot : ¬ AllNumeral key := by
    intro hall
    rw [hall c hc] at hworded
    cases hworded
  refine unnumbered_of_not hnot allNumeral_decimal ?_ (fun d ↦ d.allNumeral_printG 14) ?_
  · exact fun n ↦ allNumeral_cons.mpr ⟨by decide, allNumeral_decimal n⟩
  · exact fun text htext ↦ allNumeral_append.mpr ⟨htext, by decide⟩

/-- What the text of a number looks like: it has a digit, or says that there is no finite number. -/
def Numbered (text : Bytes) : Prop :=
  (∃ c ∈ text, isDigit c = true) ∨ text ∈ ["inf", "-inf", "nan", "-nan"].map ascii

instance : DecidablePred Numbered := fun text ↦
  @instDecidableOr _ _ (List.decidableBEx (isDigit · = true) text) (inferInstanceAs (Decidable (_ ∈ _)))

theorem numbered_append_left {text : Bytes} (other : Bytes) (h : ∃ c ∈ text, isDigit c = true) :
    ∃ c ∈ text ++ other, isDigit c = true :=
  h.imp fun _ hc ↦ ⟨List.mem_append_left other hc.1, hc.2⟩

theorem numbered_append_right {text : Bytes} (other : Bytes) (h : ∃ c ∈ text, isDigit c = true) :
    ∃ c ∈ other ++ text, isDigit c = true :=
  h.imp fun _ hc ↦ ⟨List.mem_append_right other hc.1, hc.2⟩

theorem numbered_decimal (n : ℕ) : ∃ c ∈ decimal n, isDigit c = true := by
  obtain ⟨c, hc⟩ := List.exists_mem_of_ne_nil (decimal n) (decimal_ne_nil n)
  exact ⟨c, hc, decimal_digits hc⟩

namespace Double

theorem numbered_layoutG {precision : ℕ} {digits : Bytes} {x : ℤ}
    (h : ∀ c ∈ digits, isDigit c = true) : ∃ c ∈ layoutG precision digits x, isDigit c = true := by
  unfold layoutG
  dsimp only
  by_cases hexponent : x < -4 ∨ (precision : ℤ) ≤ x
  · rw [if_pos hexponent]
    refine numbered_append_right _ ?_
    split_ifs
    · exact ⟨zero, List.mem_cons_self, by decide⟩
    · exact numbered_decimal _
  · rw [if_neg hexponent]
    by_cases hneg : x < 0
    · rw [if_pos hneg, List.append_assoc]
      exact numbered_append_left _ ⟨zero, by decide, by decide⟩
    · rw [if_neg hneg]
      -- the whole part is filled up with zeros to its length, which is not 0
      generalize hwhole : digits.take (x.toNat + 1) ++
        List.replicate (x.toNat + 1 - (digits.take (x.toNat + 1)).length) zero = whole
      have hlength : 0 < whole.length := by
        rw [← hwhole, List.length_append, List.length_replicate]
        omega
      have hdigits : ∀ c ∈ whole, isDigit c = true := by
        intro c hc
        rw [← hwhole] at hc
        rcases List.mem_append.mp hc with hmem | hmem
        · exact h c (List.mem_of_mem_take hmem)
        · rw [List.eq_of_mem_replicate hmem]
          decide
      have hsome : ∃ c ∈ whole, isDigit c = true := by
        obtain ⟨c, hc⟩ := List.exists_mem_of_ne_nil whole (List.ne_nil_of_length_pos hlength)
        exact ⟨c, hc, hdigits c hc⟩
      split_ifs
      · exact hsome
      · exact numbered_append_left _ hsome

theorem numbered_printG (precision : ℕ) (d : Double) : Numbered (d.printG precision) := by
  unfold printG Numbered
  dsimp only
  by_cases hspecial : d.biasedExponent = 2047
  · right
    rw [if_pos hspecial]
    split_ifs <;> decide
  · left
    rw [if_neg hspecial]
    generalize (if d.negative then ascii "-" else []) = sign
    split_ifs
    · exact numbered_append_right sign ⟨zero, by decide, by decide⟩
    · refine numbered_append_right sign (numbered_layoutG fun c hc ↦ ?_)
      exact decimal_digits ((List.rdropWhile_prefix _ _).subset hc)

end Double

theorem unnumbered_of_digitless {key : Bytes} (h : ¬ Numbered key) : Unnumbered key := by
  refine unnumbered_of_not h (fun n ↦ .inl (numbered_decimal n)) ?_ ?_ ?_
  · exact fun n ↦ .inl (numbered_append_right [minus] (numbered_decimal n))
  · exact Double.numbered_printG 14
  · exact fun text _ ↦ .inl (numbered_append_right text ⟨zero, by decide, by decide⟩)

example : Unnumbered (ascii "fine") := unnumbered_of_digitless (by decide)

namespace Unnumbered

variable {key : Bytes}

theorem text_iff (h : Unnumbered key) {k : LuaKey} : k.text = some key ↔ k = .string key := by
  constructor
  · exact h k
  · rintro rfl
    rfl

theorem lookup_members (h : Unnumbered key) (length : LuaLength)
    (entries : LuaEntries) : (entries.filterMap (member length)).lookup key =
      (entries.lookup (.string key)).map (fromLua length) := by
  induction entries with
  | nil => rfl
  | cons entry entries ih =>
    obtain ⟨k, v⟩ := entry
    by_cases hk : k = .string key
    · have hmember : member length (k, v) = some (key, fromLua length v) := by rw [hk]; rfl
      rw [List.filterMap_cons_some hmember, List.lookup_cons, beq_self_eq_true, List.lookup_cons, hk,
        beq_self_eq_true]
      rfl
    · have hne : (LuaKey.string key == k) = false := beq_eq_false_iff_ne.mpr fun heq ↦ hk heq.symm
      rw [List.lookup_cons, hne, ← ih]
      cases htext : k.text with
      | none =>
        have hmember : member length (k, v) = none := by rw [member, htext]; rfl
        rw [List.filterMap_cons_none hmember]
      | some text =>
        have hother : (key == text) = false := by
          rw [beq_eq_false_iff_ne]
          rintro rfl
          exact hk (h.text_iff.mp htext)
        have hmember : member length (k, v) = some (text, fromLua length v) := by
          rw [member, htext]
          rfl
        rw [List.filterMap_cons_some hmember, List.lookup_cons, hother]

theorem find (h : Unnumbered key) (length : LuaLength) (entries : LuaEntries) :
    (fromLua length (.table entries)).find key =
      (entries.lookup (.string key)).map (fromLua length) := by
  rw [fromLua_table]
  split_ifs with hsequence
  · have hnone : entries.lookup (.string key) = none := by
      by_contra hsome
      have hmem := mem_of_lookup (Option.ne_none_iff_exists'.mp hsome).choose_spec
      rw [isSequence_string (List.mem_map_of_mem hmem)] at hsequence
      cases hsequence
    rw [hnone]
    rfl
  · exact h.lookup_members length entries

end Unnumbered

namespace Args

/-- `parsed.options[name]` -/
def Parsed.option (parsed : Parsed) (name : String) : LuaValue :=
  match parsed.options (ascii name) with
  | none => .nil
  | some (.text value) => .string value
  | some (.list values) =>
    .table (values.mapIdx fun i value ↦ (.integer (i + 1), .string value))

def Parsed.textAt (parsed : Parsed) (name : String) : Option Bytes :=
  match parsed.options (ascii name) with
  | some (.text value) => some value
  | _ => none

/-- What comes of a file that is loaded as a chunk and run: it is none or fails, or it returns. -/
inductive Chunk
  | fails
  | returns (t : LuaTable)
  | returnsOther

def loadConfig (chunk : Bytes → Chunk) (path : Bytes) : Option LuaTable :=
  match chunk path with
  | .returns t => some t
  | _ => none

def merge (defaults fromFile fromCli : LuaTable) : LuaTable :=
  [defaults, fromFile, fromCli].foldl LuaTable.update .empty

end Args

/-- How a command of the workflow ends: with a status, or in an error that Lua raises. -/
inductive Exit
  | returns (status : ℕ)
  | raises
  deriving DecidableEq

/-- `v or w`, where the value may be none -/
def orElse (v : Option LuaValue) (w : LuaValue) : LuaValue := (v.getD .nil).otherwise w

namespace Workflow

open Args

def fromCli (parsed : Parsed) (name : Bytes) : LuaTable :=
  .ofFields
    [("name", .string name), ("template", parsed.option "template"), ("kits", parsed.option "kit"),
      ("packages", parsed.option "package"), ("assets", parsed.option "asset"),
      ("platforms", parsed.option "platform"), ("framework", parsed.option "framework"),
      ("out", parsed.option "out")]

def defaults : LuaTable := .ofFields [("framework", .string (ascii "1.0.0"))]

/-- The table of the `--config` file. -/
def readFile (chunk : Bytes → Chunk) (parsed : Parsed) : Except Exit LuaTable :=
  match parsed.textAt "config" with
  | none => pure .empty
  | some path => (loadConfig chunk path).elim (throw (.returns 2)) pure

def readParameters (parsed : Parsed) : Except Exit LuaEntries :=
  let (parameters, errors) := Args.parameters (parsed.listAt (ascii "param"))
  if errors = [] then pure parameters else throw (.returns 2)

/-- `config.parameters[key] = value` for the parameters of the command line, where there are any. -/
def refineParameters (parameters : LuaEntries) (configured : LuaValue) : Except Exit LuaValue :=
  if parameters = [] then pure configured
  else
    match configured with
    | .table entries => pure (.table (LuaEntries.update entries parameters))
    | _ => throw .raises

/-- `build_config`: a nil is the status 2 of the commands that ask for it. -/
def buildConfig (chunk : Bytes → Chunk) (parsed : Parsed) (name : Bytes) : Except Exit LuaTable := do
  let fromFile ← readFile chunk parsed
  let parameters ← readParameters parsed
  let config := merge defaults fromFile (fromCli parsed name)
  let refined ← refineParameters parameters
    (orElse (config.get (luaKey "parameters")) (.table []))
  let config := config.set (luaKey "parameters") refined
  let output := orElse (config.get (luaKey "out")) (.string (ascii "./" ++ name))
  let config := (config.set (luaKey "output") output).set (luaKey "out") .nil
  if config.get (luaKey "template") = none then throw (.returns 2) else pure config

variable {chunk : Bytes → Chunk} {parsed : Parsed} {name : Bytes} {config file : LuaTable}

def merged (parsed : Parsed) (name : Bytes) (file : LuaTable) : LuaTable :=
  merge defaults file (fromCli parsed name)

theorem get_merged (key : LuaKey) : (merged parsed name file).get key =
    ((fromCli parsed name).get key).or ((file.get key).or (defaults.get key)) := by
  simp [merged, merge]

def outputOf (parsed : Parsed) (name : Bytes) (file : LuaTable) : LuaValue :=
  orElse ((merged parsed name file).get (luaKey "out")) (.string (ascii "./" ++ name))

/-- What `build_config` puts together. -/
structure Built (chunk : Bytes → Chunk) (parsed : Parsed) (name : Bytes) (file : LuaTable)
    (parameters : LuaEntries) (refined : LuaValue) (config : LuaTable) : Prop where
  read : readFile chunk parsed = .ok file
  spelled : readParameters parsed = .ok parameters
  refines : refineParameters parameters
    (orElse ((merged parsed name file).get (luaKey "parameters")) (.table [])) = .ok refined
  assembled : config = (((merged parsed name file).set (luaKey "parameters") refined).set
    (luaKey "output") (outputOf parsed name file)).set (luaKey "out") .nil
  selected : config.get (luaKey "template") ≠ none

theorem built_of_ok (h : buildConfig chunk parsed name = .ok config) :
    ∃ file parameters refined, Built chunk parsed name file parameters refined config := by
  unfold buildConfig at h
  obtain ⟨file, hread, h⟩ := bind_eq_ok.mp h
  obtain ⟨parameters, hspelled, h⟩ := bind_eq_ok.mp h
  obtain ⟨refined, hrefines, h⟩ := bind_eq_ok.mp h
  have hout : ((merge defaults file (fromCli parsed name)).set (luaKey "parameters") refined).get
      (luaKey "out") = (merged parsed name file).get (luaKey "out") := by
    rw [LuaTable.get_set, if_neg (by decide)]
    rfl
  dsimp only at h
  rw [hout] at h
  split_ifs at h with hselected
  have hconfig : (((merged parsed name file).set (luaKey "parameters") refined).set
      (luaKey "output") (outputOf parsed name file)).set (luaKey "out") .nil = config :=
    Except.ok.inj h
  exact ⟨file, parameters, refined, hread, hspelled, hrefines, hconfig.symm, hconfig ▸ hselected⟩

def Carried (key : Bytes) : Prop := key ∉ ["parameters", "output", "out"].map ascii

instance : DecidablePred Carried := fun key ↦ inferInstanceAs (Decidable (key ∉ _))

namespace Built

variable {parameters : LuaEntries} {refined : LuaValue} {key : Bytes}

theorem get_carried (h : Built chunk parsed name file parameters refined config)
    (hkey : Carried key) : config.get (.string key) =
      ((fromCli parsed name).get (.string key)).or
        ((file.get (.string key)).or (defaults.get (.string key))) := by
  have hne : ∀ k ∈ ["parameters", "output", "out"], LuaKey.string key ≠ luaKey k := by
    intro k hk heq
    exact hkey (LuaKey.string.inj heq ▸ List.mem_map_of_mem hk)
  rw [h.assembled, LuaTable.get_set, if_neg (hne "out" (by simp)), LuaTable.get_set,
    if_neg (hne "output" (by simp)), LuaTable.get_set, if_neg (hne "parameters" (by simp)), get_merged]

theorem get_output (h : Built chunk parsed name file parameters refined config) :
    config.get (luaKey "output") = LuaEntries.assigned (outputOf parsed name file) := by
  have hne : luaKey "output" ≠ luaKey "out" := by decide
  rw [h.assembled, LuaTable.get_set, if_neg hne, LuaTable.get_set, if_pos rfl]

theorem get_out (h : Built chunk parsed name file parameters refined config) :
    config.get (luaKey "out") = none := by
  rw [h.assembled, LuaTable.get_set, if_pos rfl]
  rfl

theorem get_parameters (h : Built chunk parsed name file parameters refined config) :
    config.get (luaKey "parameters") = LuaEntries.assigned refined := by
  have hne : luaKey "parameters" ≠ luaKey "out" := by decide
  have hne' : luaKey "parameters" ≠ luaKey "output" := by decide
  rw [h.assembled, LuaTable.get_set, if_neg hne, LuaTable.get_set, if_neg hne', LuaTable.get_set,
    if_pos rfl]

end Built

/-- The parameter in the file; what is no table holds none. -/
def fileParameter (file : LuaTable) (key : Bytes) : Option LuaValue :=
  match file.get (luaKey "parameters") with
  | some (.table entries) => entries.lookup (.string key)
  | _ => none

/-- The request of a command line that names the file, and of its defaults. -/
structure Precedence (length : LuaLength) (parsed : Parsed) (name : Bytes) (file : LuaTable)
    (parameters : LuaEntries) (request : Value) : Prop where
  carried : ∀ key, Unnumbered key → Carried key → request.find key =
    (((fromCli parsed name).get (.string key)).or
      ((file.get (.string key)).or (defaults.get (.string key)))).map (fromLua length)
  named : request.find (ascii "name") = some (.string name)
  out : request.find (ascii "out") = none
  output : request.find (ascii "output") = some (fromLua length
    (orElse ((LuaEntries.assigned (parsed.option "out")).or (file.get (luaKey "out")))
      (.string (ascii "./" ++ name))))
  selected : request.find (ascii "template") ≠ none
  parameter : ∀ key, Unnumbered key → (request.find (ascii "parameters")).bind (Value.find · key) =
    ((parameters.lookup (.string key)).or (fileParameter file key)).map (fromLua length)

theorem get_fromCli_name : (fromCli parsed name).get (luaKey "name") = some (.string name) := by
  simp only [fromCli, LuaTable.ofFields, List.foldl_cons, List.foldl_nil]
  repeat rw [LuaTable.get_set, if_neg (by decide)]
  rw [LuaTable.get_set, if_pos rfl]
  rfl

theorem get_fromCli_out : (fromCli parsed name).get (luaKey "out") =
    LuaEntries.assigned (parsed.option "out") := by
  simp only [fromCli, LuaTable.ofFields, List.foldl_cons, List.foldl_nil]
  rw [LuaTable.get_set, if_pos rfl]

theorem get_fromCli_parameters : (fromCli parsed name).get (luaKey "parameters") = none := by
  simp only [fromCli, LuaTable.ofFields, List.foldl_cons, List.foldl_nil]
  repeat rw [LuaTable.get_set, if_neg (by decide)]
  exact LuaTable.get_empty

variable {length : LuaLength}

theorem find_request {key : Bytes} (hkey : Unnumbered key) :
    (fromLua length (.table config.entries)).find key =
      (config.get (.string key)).map (fromLua length) := hkey.find length config.entries

theorem get_merged_parameters : (merged parsed name file).get (luaKey "parameters") =
    file.get (luaKey "parameters") := by
  have hdefault : defaults.get (luaKey "parameters") = none := by
    simp only [defaults, LuaTable.ofFields, List.foldl_cons, List.foldl_nil]
    rw [LuaTable.get_set, if_neg (by decide)]
    exact LuaTable.get_empty
  rw [get_merged, get_fromCli_parameters, hdefault, Option.none_or, Option.or_none]

theorem present_parameters (list : List Bytes) :
    ∀ entry ∈ (Args.parameters list).1, entry.2 ≠ .nil := by
  induction list using List.reverseRecOn with
  | nil => exact fun entry hentry ↦ nomatch hentry
  | append_singleton list entry ih =>
    rw [parameters_concat, addParameter]
    cases splitPair entry with
    | none => exact ih
    | some pair => exact LuaEntries.present_set ih

theorem parameters_of_read {parameters : LuaEntries} (h : readParameters parsed = .ok parameters) :
    parameters = (Args.parameters (parsed.listAt (ascii "param"))).1 := by
  unfold readParameters at h
  dsimp only at h
  split_ifs at h
  exact (Except.ok.inj h).symm

def configured (file : LuaTable) : LuaValue := orElse (file.get (luaKey "parameters")) (.table [])

theorem lookup_configured {entries : LuaEntries} {key : Bytes} (h : configured file = .table entries) :
    entries.lookup (.string key) = fileParameter file key := by
  unfold configured at h
  unfold fileParameter
  cases hfile : file.get (luaKey "parameters") with
  | none =>
    rw [hfile] at h
    cases h
    rfl
  | some v =>
    rw [hfile] at h
    cases v with
    | table entries =>
      cases h
      rfl
    | boolean b =>
      cases b with
      | false =>
        cases h
        rfl
      | true => cases h
    | nil =>
      cases h
      rfl
    | integer _ => cases h
    | float _ => cases h
    | string _ => cases h
    | reference _ => cases h

theorem fileParameter_of_other {key : Bytes} (h : ∀ entries, configured file ≠ .table entries) :
    fileParameter file key = none := by
  unfold fileParameter
  cases hfile : file.get (luaKey "parameters") with
  | none => rfl
  | some v =>
    cases v with
    | table entries =>
      refine absurd ?_ (h entries)
      rw [configured, hfile]
      rfl
    | _ => rfl

theorem find_configured {key : Bytes} (hkey : Unnumbered key) :
    (fromLua length (configured file)).find key = (fileParameter file key).map (fromLua length) := by
  cases htable : configured file with
  | table entries => rw [hkey.find, lookup_configured htable]
  | _ =>
    rw [fileParameter_of_other fun entries heq ↦ by cases htable.symm.trans heq]
    rfl

theorem orElse_ne_nil {v : Option LuaValue} {w : LuaValue} (hw : w ≠ .nil) : orElse v w ≠ .nil := by
  cases v with
  | none => exact hw
  | some v =>
    cases v with
    | nil => exact hw
    | boolean b =>
      cases b with
      | false => exact hw
      | true => exact LuaValue.noConfusion
    | _ => exact LuaValue.noConfusion

theorem refined_parameter {parameters : LuaEntries} {refined : LuaValue} {key : Bytes}
    (h : Built chunk parsed name file parameters refined config) (hkey : Unnumbered key) :
    ((fromLua length (.table config.entries)).find (ascii "parameters")).bind (Value.find · key) =
      ((parameters.lookup (.string key)).or (fileParameter file key)).map (fromLua length) := by
  have hrefines : refineParameters parameters (configured file) = .ok refined := by
    rw [configured, ← @get_merged_parameters parsed name file]
    exact h.refines
  have hassigned : config.get (.string (ascii "parameters")) = LuaEntries.assigned refined :=
    h.get_parameters
  rw [find_request (Worded.unnumbered (by decide)), hassigned]
  unfold refineParameters at hrefines
  split_ifs at hrefines with hnone
  · obtain rfl : configured file = refined := Except.ok.inj hrefines
    have hne : configured file ≠ .nil := orElse_ne_nil (w := .table []) LuaValue.noConfusion
    rw [hnone, LuaEntries.assigned_of_ne hne]
    exact find_configured hkey
  · cases htable : configured file with
    | table entries =>
      rw [htable] at hrefines
      obtain rfl : LuaValue.table (LuaEntries.update entries parameters) = refined :=
        Except.ok.inj hrefines
      have hread := parameters_of_read h.spelled
      have hlookup : (LuaEntries.update entries parameters).lookup (.string key) =
          (parameters.lookup (.string key)).or (entries.lookup (.string key)) := by
        rw [hread]
        exact LuaEntries.lookup_update (nodup_parameters _) (present_parameters _)
      change (fromLua length (.table (LuaEntries.update entries parameters))).find key = _
      rw [hkey.find, hlookup, lookup_configured htable]
    | _ =>
      rw [htable] at hrefines
      cases hrefines

/-- The command line over the file, the file over the defaults; the parameters of the command line
are put into those of the file, and the workspace lies below its name where no place is given. -/
theorem buildConfig_precedence (length : LuaLength) (h : buildConfig chunk parsed name = .ok config) :
    ∃ file parameters, readFile chunk parsed = .ok file ∧ readParameters parsed = .ok parameters ∧
      Precedence length parsed name file parameters (fromLua length (.table config.entries)) := by
  obtain ⟨file, parameters, refined, hbuilt⟩ := built_of_ok h
  refine ⟨file, parameters, hbuilt.read, hbuilt.spelled, ?_, ?_, ?_, ?_, ?_, ?_⟩
  · intro key hkey hcarried
    rw [find_request hkey, hbuilt.get_carried hcarried]
  · have hcarried : Carried (ascii "name") := by decide
    have hname : (fromCli parsed name).get (.string (ascii "name")) = some (.string name) :=
      get_fromCli_name
    rw [find_request (Worded.unnumbered (by decide)), hbuilt.get_carried hcarried, hname]
    rfl
  · have hout : config.get (.string (ascii "out")) = none := hbuilt.get_out
    rw [find_request (Worded.unnumbered (by decide)), hout]
    rfl
  · have houtput : config.get (.string (ascii "output")) =
        LuaEntries.assigned (outputOf parsed name file) := hbuilt.get_output
    have hdefault : defaults.get (luaKey "out") = none := by
      simp only [defaults, LuaTable.ofFields, List.foldl_cons, List.foldl_nil]
      rw [LuaTable.get_set, if_neg (by decide)]
      exact LuaTable.get_empty
    have hne : outputOf parsed name file ≠ .nil :=
      orElse_ne_nil (w := .string (ascii "./" ++ name)) LuaValue.noConfusion
    rw [find_request (Worded.unnumbered (by decide)), houtput, LuaEntries.assigned_of_ne hne, outputOf, get_merged,
      get_fromCli_out, hdefault, Option.or_none]
    rfl
  · rw [find_request (Worded.unnumbered (by decide)), Ne, Option.map_eq_none_iff]
    exact hbuilt.selected
  · intro key hkey
    exact refined_parameter hbuilt hkey

/-- A file that selects a template and places the workspace. -/
def sampleChunk (path : Bytes) : Chunk :=
  if path = ascii "f" then
    .returns (.ofFields
      [("template", .string (ascii "template.sample")), ("out", .string (ascii "o")),
        ("parameters", .table [(luaKey "title", .string (ascii "x"))])])
  else .fails

def sampleArguments : List Bytes :=
  ["new", "p", "--config", "f", "--out", "b", "--param", "title=y"].map ascii

theorem sample_precedence : ∃ config, buildConfig sampleChunk (parse sampleArguments) (ascii "p") =
      .ok config ∧ ∃ file parameters, readFile sampleChunk (parse sampleArguments) = .ok file ∧
      readParameters (parse sampleArguments) = .ok parameters ∧
      Precedence .last (parse sampleArguments) (ascii "p") file parameters
        (fromLua .last (.table config.entries)) := by
  have hok : ∃ config, buildConfig sampleChunk (parse sampleArguments) (ascii "p") = .ok config :=
    ⟨_, rfl⟩
  obtain ⟨config, hconfig⟩ := hok
  exact ⟨config, hconfig, buildConfig_precedence .last hconfig⟩

end Workflow

end SquaredPg
