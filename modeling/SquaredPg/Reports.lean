import SquaredPg.DoubleText
import SquaredPg.Operation
import SquaredPg.ReportJson

namespace SquaredPg

open Ascii

namespace LuaValue

/-- `v.key`; the methods that texts have are left out. -/
def index (key : Bytes) : LuaValue → Option LuaValue
  | table entries => some ((entries.lookup (.string key)).getD .nil)
  | string _ => some .nil
  | _ => none

/-- `#v` -/
def size (length : LuaLength) : LuaValue → Option ℕ
  | table entries => some (length.len entries)
  | string text => some text.length
  | _ => none

/-- What `ipairs(v)` goes through. -/
def items : LuaValue → Option (List LuaValue)
  | table entries => some (ipairs entries entries.length 1)
  | string _ => some []
  | _ => none

/-- `tostring(v)`; the address of a table is left to the runtime. -/
def tostring (runtime : LuaRuntime) : LuaValue → Bytes
  | nil => ascii "nil"
  | boolean b => ascii (if b then "true" else "false")
  | integer i => integerText i
  | float d => ((LuaKey.float d).text).getD []
  | string text => text
  | table entries => runtime.address entries.length
  | reference address => runtime.address address

def isText (text : Bytes) : LuaValue → Bool
  | string value => value = text
  | _ => false

/-- `v or w` -/
def otherwise : LuaValue → LuaValue → LuaValue
  | nil, w => w
  | boolean false, w => w
  | v, _ => v

end LuaValue

/-- `isalpha` -/
def isAlphabetic (c : UInt8) : Bool := (65 ≤ c ∧ c ≤ 90) ∨ (97 ≤ c ∧ c ≤ 122)

def skipDigit (spec : Bytes) : Bytes := if spec.head?.any isDigit then spec.tail else spec

def get2digits (spec : Bytes) : Bytes := if spec.head?.any isDigit then skipDigit spec.tail else spec

/-- `checkformat`, on what stands behind the percent sign: the flag `-`, and a precision -/
def checkFormat (form : Bytes) : Bool :=
  let spec := form.dropWhile fun c ↦ c = minus
  let spec := if spec.head? = some zero then spec
    else
      let spec := get2digits spec
      if spec.head? = some dot then get2digits spec.tail else spec
  spec.head?.any isAlphabetic

/-- `("%-" .. width .. "s"):format(text)`; the bound on the length of the form is `getformat`'s. -/
def padded (width : ℕ) (text : Bytes) : Option Bytes :=
  let form := minus :: (decimal width ++ ascii "s")
  if 22 ≤ form.length then none
  else if 0 ∈ text then none
  else if checkFormat form = false then none
  else if 100 ≤ text.length then some text
  else some (text ++ List.replicate (width - text.length) 32)

theorem ne_of_isDigit {c d : UInt8} (hc : isDigit c = true) (hd : isDigit d = false) : c ≠ d := by
  rintro rfl
  rw [hc] at hd
  cases hd

theorem isAlphabetic_of_isDigit {c : UInt8} (h : isDigit c = true) : isAlphabetic c = false := by
  simp only [isDigit, isAlphabetic, decide_eq_true_eq, decide_eq_false_iff_not, UInt8.le_iff_toNat_le]
    at h ⊢
  have h57 : c.toNat ≤ 57 := h.2
  have h65 : (65 : UInt8).toNat = 65 := rfl
  have h97 : (97 : UInt8).toNat = 97 := rfl
  omega

theorem checkFormat_width (width : ℕ) : checkFormat (minus :: (decimal width ++ ascii "s")) = true ↔
    0 < width ∧ width < 100 := by
  by_cases hzero : width = 0
  · rw [hzero]
    decide
  have hpos : 0 < width := Nat.pos_of_ne_zero hzero
  have hhead := head_decimal hpos
  have hlength : (decimal width).length ≤ 2 ↔ width < 100 := length_decimal_le (by omega)
  have hdigits : ∀ c ∈ decimal width, isDigit c = true := fun c ↦ decimal_digits
  have hne := decimal_ne_nil width
  rw [← hlength, checkFormat]
  generalize decimal width = digits at hhead hdigits hne ⊢
  cases digits with
  | nil => exact absurd rfl hne
  | cons a rest =>
    have ha : isDigit a = true := hdigits a (by simp)
    have hminus : a ≠ minus := ne_of_isDigit ha (by decide)
    have hfirst : a ≠ zero := fun heq ↦ hhead (congrArg some heq)
    have hdrop : (minus :: (a :: rest ++ ascii "s")).dropWhile (fun c ↦ c = minus) =
        a :: (rest ++ ascii "s") := by
      simp [hminus]
    have hcut : get2digits (a :: (rest ++ ascii "s")) = skipDigit (rest ++ ascii "s") := by
      simp [get2digits, ha]
    have hskip : ∀ c, isDigit c = true → ∀ ds, skipDigit (c :: ds) = ds := by
      intro c hc ds
      simp [skipDigit, hc]
    dsimp only
    rw [hdrop, if_neg (by simpa using hfirst), hcut]
    cases rest with
    | nil => simpa [hpos] using show _ = true by decide
    | cons b rest =>
      have hb : isDigit b = true := hdigits b (by simp)
      rw [List.cons_append, hskip b hb]
      cases rest with
      | nil => simpa [hpos] using show _ = true by decide
      | cons c rest =>
        -- A third digit is no conversion.
        have hc : isDigit c = true := hdigits c (by simp)
        have hdot : c ≠ dot := ne_of_isDigit hc (by decide)
        simp [hdot, isAlphabetic_of_isDigit hc]

theorem padded_isSome {width : ℕ} {text : Bytes} :
    (padded width text).isSome = true ↔ 0 < width ∧ width < 100 ∧ 0 ∉ text := by
  rw [← and_assoc, ← checkFormat_width]
  unfold padded
  dsimp only
  have hs : (ascii "s").length = 1 := by decide
  have hlength : (minus :: (decimal width ++ ascii "s")).length = (decimal width).length + 2 := by
    rw [List.length_cons, List.length_append, hs]
  split_ifs with hlong hnul hform
  · have hwide : ¬ width < 100 := by
      intro h
      have hle : (decimal width).length ≤ 2 := (length_decimal_le (by omega)).mpr h
      omega
    simp [checkFormat_width, hwide]
  · simp [hnul]
  · simp [hform]
  · simpa [hnul] using hform
  · simpa [hnul] using hform

def paint (colours : Bool) (code text : Bytes) : Bytes :=
  if colours then 27 :: (ascii "[" ++ code ++ ascii "m" ++ text ++ 27 :: ascii "[0m") else text

def widest (runtime : LuaRuntime) (key : Bytes) (items : List LuaValue) : Option ℕ :=
  items.foldlM (fun widest item ↦ do
    let size ← (← item.index key).size runtime.toLuaLength
    pure (max widest size)) 0

section

variable (runtime : LuaRuntime) (colours : Bool)

def reportEntries (label : Bytes) (entries : LuaValue) : Option (List Bytes) := do
  if 0 < (← entries.size runtime.toLuaLength) then
    (← entries.items).mapM fun entry ↦ do
      pure (label ++ (← entry.index (ascii "id")).tostring runtime ++ ascii "@" ++
        (← entry.index (ascii "version")).tostring runtime)
  else pure []

def reportStep (widest : ℕ) (step : LuaValue) : Option Bytes := do
  let path ← step.index (ascii "path")
  if (← step.index (ascii "action")).isText (ascii "create_directory") then
    pure (ascii "  " ++ paint colours (ascii "34") (ascii "dir ") ++ ascii " " ++
      path.tostring runtime ++ ascii "/")
  else
    let ownership ← step.index (ascii "ownership")
    let colour := if ownership.isText (ascii "generated") then ascii "35" else ascii "32"
    let column ← padded widest (path.tostring runtime)
    pure (ascii "  " ++ paint colours (ascii "32") (ascii "file") ++ ascii " " ++ column ++
      ascii "  " ++ paint colours colour (ownership.tostring runtime) ++ ascii "  " ++
      ((← step.index (ascii "origin")).otherwise (.string [])).tostring runtime)

/-- `report.plan`: the lines that it writes, unless an error is raised -/
def reportPlan (plan : LuaValue) : Option (List Bytes) := do
  let line (label : String) (key : String) : Option Bytes := do
    pure (ascii label ++ (← plan.index (ascii key)).tostring runtime)
  let steps ← (← plan.index (ascii "steps")).items
  let widest ← widest runtime (ascii "path") steps
  pure ([← line "plan for " "project_name",
      (← line "  template          " "template") ++ (← line "@" "template_version")] ++
    (← reportEntries runtime (ascii "  kit               ") (← plan.index (ascii "kits"))) ++
    (← reportEntries runtime (ascii "  package           ") (← plan.index (ascii "packages"))) ++
    [← line "  working directory " "working_directory", ← line "  workspace         " "workspace", []] ++
    (← steps.mapM (reportStep runtime colours widest)) ++
    [[], (← line "  " "step_count") ++ ascii " steps"])

def reportResource (widest : ℕ) (resource : LuaValue) : Option Bytes := do
  let column ← padded widest ((← resource.index (ascii "id")).tostring runtime)
  let kind ← padded 8 ((← resource.index (ascii "kind")).tostring runtime)
  let version ← padded 8 ((← resource.index (ascii "version")).tostring runtime)
  pure (ascii "  " ++ column ++ ascii "  " ++ kind ++ ascii "  " ++ version ++ ascii "  " ++
    ((← resource.index (ascii "title")).otherwise (.string [])).tostring runtime)

/-- `report.resources` -/
def reportResources (resources : LuaValue) : Option (List Bytes) := do
  if (← resources.size runtime.toLuaLength) = 0 then pure [ascii "no resources indexed"]
  else
    let resources ← resources.items
    let widest ← widest runtime (ascii "id") resources
    resources.mapM (reportResource runtime widest)

end

structure Fields (members : List (Bytes × Value)) : Prop where
  present : ∀ m ∈ members, m.2 ≠ .null
  texts : ∀ key ∈ members.map Prod.fst, (0 : UInt8) ∉ key
  apart : (members.map Prod.fst).Nodup

variable {members : List (Bytes × Value)} {key : Bytes} {v : Value}

theorem Fields.lookup (h : Fields members) (key : Bytes) :
    (named members).lookup (.string key) = (members.lookup key).map pushValue := by
  obtain ⟨-, htexts, -⟩ := h
  induction members with
  | nil => rfl
  | cons m ms ih =>
    obtain ⟨k, v⟩ := m
    obtain ⟨hk, hrest⟩ := List.forall_mem_cons.mp htexts
    have hnamed : named ((k, v) :: ms) = (.string k, pushValue v) :: named ms := by
      simp [named, cString_of_not_mem hk]
    rw [hnamed, List.lookup_cons, List.lookup_cons, ih hrest]
    by_cases hkey : key = k
    · simp [hkey]
    · have hne : (LuaKey.string key == LuaKey.string k) = false := by simp [hkey]
      rw [hne, beq_eq_false_iff_ne.mpr hkey]

theorem Fields.index (h : Fields members) (key : Bytes) :
    (pushValue (.object members)).index key =
      some (((members.lookup key).map pushValue).getD .nil) := by
  have hnul : ∀ m ∈ members, (0 : UInt8) ∉ m.1 := fun m hm ↦ h.texts m.1 (List.mem_map_of_mem hm)
  rw [pushValue_object h.present (map_cString hnul ▸ h.apart), LuaValue.index, h.lookup]

theorem Fields.index_of_find (h : Fields members) (hfind : (Value.object members).find key = some v) :
    (pushValue (.object members)).index key = some (pushValue v) := by
  have hlookup : members.lookup key = some v := hfind
  rw [h.index, hlookup]
  rfl

theorem pushValue_array {items : List Value} (hnull : ∀ v ∈ items, v ≠ .null) :
    pushValue (.array items) = .table (indexed 1 items) := by
  rw [pushValue, pushItems_eq hnull (by simp [LuaEntries.keys]), List.nil_append]

theorem length_indexed (items : List Value) : (indexed 1 items).length = items.length := by
  have hkeys := congrArg List.length (keys_indexed_one items)
  rwa [LuaEntries.keys, List.length_map, length_indices] at hkeys

theorem items_pushValue {items : List Value} (hnull : ∀ v ∈ items, v ≠ .null) :
    (pushValue (.array items)).items = some (items.map pushValue) := by
  rw [pushValue_array hnull, LuaValue.items, length_indexed]
  have hnodup : (LuaEntries.keys (indexed 1 items)).Nodup := by
    rw [keys_indexed_one]
    exact nodup_indices _
  have hall : List.Forall₂ (fun v t ↦ pushValue v = t) items
      (ipairs (indexed 1 items) items.length 1) := by
    refine ipairs_forall₂ fun j hj ↦ ⟨_, ?_, rfl⟩
    exact lookup_of_nodup hnodup (mem_indexed hj)
  have hmap := List.forall₂_map_left_iff.mpr hall
  rw [List.forall₂_eq_eq_eq] at hmap
  rw [hmap]

theorem size_pushValue (length : LuaLength) {items : List Value} (hnull : ∀ v ∈ items, v ≠ .null) :
    (pushValue (.array items)).size length = some items.length := by
  rw [pushValue_array hnull, LuaValue.size]
  have hkeys : (LuaEntries.keys (indexed 1 items)).Perm (indices items.length) :=
    keys_indexed_one items ▸ .refl _
  exact congrArg some (border_of_perm hkeys (length.border _))

theorem isSome_mapM {α β : Type} {f : α → Option β} {xs : List α} :
    (xs.mapM f).isSome = true ↔ ∀ x ∈ xs, (f x).isSome = true := by
  induction xs with
  | nil => simp
  | cons x xs ih =>
    rw [List.mapM_cons, List.forall_mem_cons, ← ih]
    cases f x with
    | none => simp
    | some y => cases xs.mapM f <;> simp

theorem foldl_max_lt {ns : List ℕ} {n bound : ℕ} :
    ns.foldl max n < bound ↔ n < bound ∧ ∀ m ∈ ns, m < bound := by
  induction ns generalizing n with
  | nil => simp
  | cons m ns ih =>
    rw [List.foldl_cons, ih, List.forall_mem_cons, max_lt_iff, and_assoc]

theorem foldl_max_pos {α : Type} {text : α → Bytes} {xs : List α} {x : α} (hx : x ∈ xs)
    (h : text x ≠ []) : 0 < (xs.map fun x ↦ (text x).length).foldl max 0 := by
  have hlength : 0 < (text x).length := List.length_pos_of_ne_nil h
  by_contra hnot
  have hzero : (xs.map fun x ↦ (text x).length).foldl max 0 < 1 := by omega
  have hless := (foldl_max_lt.mp hzero).2 _ (List.mem_map_of_mem hx)
  omega

variable {runtime : LuaRuntime} {colours : Bool}

theorem widest_pushValue {α : Type} {value : α → Value} {text : α → Bytes} {xs : List α}
    (h : ∀ x ∈ xs, (pushValue (value x)).index key = some (.string (text x))) :
    widest runtime key ((xs.map value).map pushValue) =
      some ((xs.map fun x ↦ (text x).length).foldl max 0) := by
  rw [widest]
  generalize 0 = n
  induction xs generalizing n with
  | nil => rfl
  | cons x xs ih =>
    obtain ⟨hx, hrest⟩ := List.forall_mem_cons.mp h
    rw [List.map_cons, List.map_cons, List.foldlM_cons, hx]
    exact ih hrest (max n (text x).length)

def stepKeys : List Bytes :=
  ["action", "phase", "path", "ownership", "origin", "origin_version", "bytes", "executable"].map ascii

theorem stepKeys_apart : stepKeys.Nodup ∧ ∀ key ∈ stepKeys, (0 : UInt8) ∉ key := by decide +kernel

def entryKeys : List Bytes := ["id", "version"].map ascii

theorem entryKeys_apart : entryKeys.Nodup ∧ ∀ key ∈ entryKeys, (0 : UInt8) ∉ key := by decide +kernel

def recordKeys : List Bytes := ["id", "kind", "version", "title", "description"].map ascii

theorem recordKeys_apart : recordKeys.Nodup ∧ ∀ key ∈ recordKeys, (0 : UInt8) ∉ key := by
  decide +kernel

def planKeys : List Bytes :=
  ["project_name", "workspace", "working_directory", "template", "template_version", "kits",
    "packages", "assets", "platforms", "framework_version", "steps", "step_count",
    "diagnostics"].map ascii

theorem planKeys_apart : planKeys.Nodup ∧ ∀ key ∈ planKeys, (0 : UInt8) ∉ key := by decide +kernel

theorem keys_given (key : String) (text : Bytes) :
    ((given key text).map Prod.fst).Sublist [ascii key] := by
  unfold given
  split_ifs
  · exact List.nil_sublist _
  · exact .refl _

theorem present_given {key : String} {text : Bytes} : ∀ m ∈ given key text, m.2 ≠ .null := by
  unfold given
  split_ifs <;> simp

theorem Fields.of_sublist {names : List Bytes}
    (hnames : names.Nodup ∧ ∀ key ∈ names, (0 : UInt8) ∉ key) (hpresent : ∀ m ∈ members, m.2 ≠ .null)
    (hkeys : (members.map Prod.fst).Sublist names) : Fields members :=
  ⟨hpresent, fun key hkey ↦ hnames.2 key (hkeys.subset hkey), hnames.1.sublist hkeys⟩

theorem fields_step (step : PlanStep) : ∃ members, step.toValue = .object members ∧ Fields members := by
  refine ⟨_, rfl, .of_sublist stepKeys_apart ?_ ?_⟩
  · simp only [List.mem_append]
    rintro m ((((hm | hm) | hm) | hm) | hm)
    · have hall : ∀ m ∈ [(ascii "action", Value.string step.action.toString),
          (ascii "phase", .string step.phase.toString), (ascii "path", .string step.path),
          (ascii "ownership", .string step.ownership.toString)], m.2 ≠ .null := by simp
      exact hall m hm
    · exact present_given m hm
    · exact present_given m hm
    · split_ifs at hm
      · cases hm
      · rw [List.mem_singleton.mp hm]
        exact Value.noConfusion
    · split_ifs at hm
      · rw [List.mem_singleton.mp hm]
        exact Value.noConfusion
      · cases hm
  · simp only [List.map_append]
    have hbytes : ((if step.isDirectory then [] else
        [(ascii "bytes", Engine.count step.content.length)]).map Prod.fst).Sublist
          [ascii "bytes"] := by
      split_ifs
      · exact List.nil_sublist _
      · exact .refl _
    have hexecutable : ((if step.executable then [(ascii "executable", Value.boolean true)] else
        []).map Prod.fst).Sublist [ascii "executable"] := by
      split_ifs
      · exact .refl _
      · exact List.nil_sublist _
    exact ((((List.Sublist.refl _).append (keys_given _ _)).append (keys_given _ _)).append
      hbytes).append hexecutable

theorem index_step {step : PlanStep} (h : step.toValue.find key = some v) :
    (pushValue step.toValue).index key = some (pushValue v) := by
  obtain ⟨members, hvalue, hfields⟩ := fields_step step
  rw [hvalue] at h ⊢
  exact hfields.index_of_find h

theorem index_step_path (step : PlanStep) :
    (pushValue step.toValue).index (ascii "path") = some (.string step.path) :=
  index_step (v := .string step.path) rfl

theorem isSome_reportStep {width : ℕ} {step : PlanStep} :
    (reportStep runtime colours width (pushValue step.toValue)).isSome = true ↔
      (step.isDirectory = false → (padded width step.path).isSome = true) := by
  obtain ⟨origin, horigin⟩ : ∃ t, (pushValue step.toValue).index (ascii "origin") = some t := by
    obtain ⟨members, hvalue, hfields⟩ := fields_step step
    rw [hvalue, hfields.index]
    exact ⟨_, rfl⟩
  have haction : (pushValue step.toValue).index (ascii "action") =
      some (.string step.action.toString) := index_step (v := .string step.action.toString) rfl
  have hownership : (pushValue step.toValue).index (ascii "ownership") =
      some (.string step.ownership.toString) := index_step (v := .string step.ownership.toString) rfl
  have hdirectory : (LuaValue.string step.action.toString).isText (ascii "create_directory") =
      step.isDirectory := by
    unfold PlanStep.isDirectory
    cases step.action <;> decide
  unfold reportStep
  rw [index_step_path, haction, hownership, horigin]
  dsimp only [Option.bind_eq_bind, Option.bind_some, LuaValue.tostring]
  rw [hdirectory]
  cases step.isDirectory with
  | true => simp
  | false => cases padded width step.path <;> simp

theorem isSome_reportEntries {label : Bytes} {refs : List ResourceRef} {versions : List Bytes} :
    (reportEntries runtime label
      (pushValue (MetadataService.resourceEntries refs versions))).isSome = true := by
  have hentries : ∀ v ∈ refs.mapIdx (fun i ref ↦
      MetadataService.resourceEntry ref.id (versions[i]?.getD [])), ∃ id version,
        v = MetadataService.resourceEntry id version := by
    intro v hv
    obtain ⟨i, hi, rfl⟩ := List.mem_mapIdx.mp hv
    exact ⟨_, _, rfl⟩
  unfold MetadataService.resourceEntries reportEntries
  generalize refs.mapIdx _ = items at hentries
  have hnull : ∀ v ∈ items, v ≠ .null := by
    intro v hv
    obtain ⟨id, version, rfl⟩ := hentries v hv
    exact Value.noConfusion
  rw [size_pushValue _ hnull, items_pushValue hnull]
  dsimp only [Option.bind_eq_bind, Option.bind_some]
  split_ifs
  · rw [isSome_mapM]
    intro t ht
    obtain ⟨v, hv, rfl⟩ := List.mem_map.mp ht
    obtain ⟨id, version, rfl⟩ := hentries v hv
    have hfields : Fields [(ascii "id", Value.string id.str), (ascii "version", .string version)] :=
      .of_sublist entryKeys_apart (by simp) (.refl _)
    rw [MetadataService.resourceEntry, hfields.index, hfields.index]
    rfl
  · rfl

theorem fields_plan (plan : GenerationPlan) :
    ∃ members, plan.toValue = .object members ∧ Fields members := by
  refine ⟨_, rfl, .of_sublist planKeys_apart ?_ (.refl _)⟩
  simp [MetadataService.resourceEntries, Value.strings, Engine.count]

def Printable (steps : List PlanStep) : Prop :=
  ∀ step ∈ steps, step.isDirectory = false →
    (0 : UInt8) ∉ step.path ∧ ∀ other ∈ steps, other.path.length < 100

theorem index_plan {plan : GenerationPlan} (h : plan.toValue.find key = some v) :
    (pushValue plan.toValue).index key = some (pushValue v) := by
  obtain ⟨members, hvalue, hfields⟩ := fields_plan plan
  rw [hvalue] at h ⊢
  exact hfields.index_of_find h

theorem isSome_reportPlan {plan : GenerationPlan} (hpaths : ∀ step ∈ plan.steps, step.path ≠ []) :
    (reportPlan runtime colours (pushValue plan.toValue)).isSome = true ↔ Printable plan.steps := by
  have htext : ∀ key text, plan.toValue.find key = some (.string text) →
      (pushValue plan.toValue).index key = some (.string text) := fun _ _ h ↦ index_plan h
  have hname := htext (ascii "project_name") plan.projectName rfl
  have htemplate := htext (ascii "template") plan.templateRef.id.str rfl
  have hversion := htext (ascii "template_version") plan.templateVersion rfl
  have hworking := htext (ascii "working_directory") plan.workingDirectory rfl
  have hworkspace := htext (ascii "workspace") plan.workspace rfl
  have hcount := @index_plan (ascii "step_count") _ plan rfl
  have hkits := @index_plan (ascii "kits") _ plan rfl
  have hpackages := @index_plan (ascii "packages") _ plan rfl
  have hsteps := @index_plan (ascii "steps") _ plan rfl
  have hnull : ∀ v ∈ plan.steps.map PlanStep.toValue, v ≠ .null := by
    intro v hv
    obtain ⟨step, -, rfl⟩ := List.mem_map.mp hv
    exact Value.noConfusion
  have hitems := items_pushValue hnull
  have hwidest := @widest_pushValue (ascii "path") runtime _ PlanStep.toValue PlanStep.path plan.steps
    fun step _ ↦ index_step_path step
  obtain ⟨kits, hkitLines⟩ := Option.isSome_iff_exists.mp
    (@isSome_reportEntries runtime (ascii "  kit               ") plan.kits plan.kitVersions)
  obtain ⟨packages, hpackageLines⟩ := Option.isSome_iff_exists.mp
    (@isSome_reportEntries runtime (ascii "  package           ") plan.packages plan.packageVersions)
  have hlines : (reportPlan runtime colours (pushValue plan.toValue)).isSome =
      (((plan.steps.map PlanStep.toValue).map pushValue).mapM (reportStep runtime colours
        ((plan.steps.map fun step ↦ step.path.length).foldl max 0))).isSome := by
    generalize (plan.steps.map fun step ↦ step.path.length).foldl max 0 = width at hwidest ⊢
    generalize (plan.steps.map PlanStep.toValue).map pushValue = steps at hitems hwidest ⊢
    unfold reportPlan
    cases hmap : steps.mapM (reportStep runtime colours width) <;>
    simp [hname, htemplate, hversion, hworking, hworkspace, hcount, hkits, hpackages, hsteps,
      hitems, hwidest, hkitLines, hpackageLines, hmap]
  rw [hlines, isSome_mapM]
  have hone : ∀ step ∈ plan.steps, (reportStep runtime colours
      ((plan.steps.map fun step ↦ step.path.length).foldl max 0) (pushValue step.toValue)).isSome =
        true ↔ (step.isDirectory = false → (0 : UInt8) ∉ step.path ∧
          ∀ other ∈ plan.steps, other.path.length < 100) := by
    intro step hstep
    have hpos := foldl_max_pos hstep (hpaths step hstep)
    rw [isSome_reportStep, padded_isSome, foldl_max_lt, List.forall_mem_map]
    constructor
    · intro h hfile
      obtain ⟨-, ⟨-, hall⟩, hnul⟩ := h hfile
      exact ⟨hnul, hall⟩
    · intro h hfile
      obtain ⟨hnul, hall⟩ := h hfile
      exact ⟨hpos, ⟨by omega, hall⟩, hnul⟩
  simp only [List.forall_mem_map]
  exact forall₂_congr hone

theorem fields_record (record : ResourceRecord) :
    ∃ members, record.toPublicValue = .object members ∧ Fields members := by
  refine ⟨_, rfl, .of_sublist recordKeys_apart ?_ ?_⟩
  · simp only [List.mem_append]
    rintro m ((hm | hm) | hm)
    · have hall : ∀ m ∈ [(ascii "id", Value.string record.id.str),
          (ascii "kind", .string record.kind.toString),
          (ascii "version", .string record.version.toString)], m.2 ≠ .null := by simp
      exact hall m hm
    · exact present_given m hm
    · exact present_given m hm
  · simp only [List.map_append]
    exact ((List.Sublist.refl _).append (keys_given _ _)).append (keys_given _ _)

theorem index_record {record : ResourceRecord} (h : record.toPublicValue.find key = some v) :
    (pushValue record.toPublicValue).index key = some (pushValue v) := by
  obtain ⟨members, hvalue, hfields⟩ := fields_record record
  rw [hvalue] at h ⊢
  exact hfields.index_of_find h

theorem index_record_id (record : ResourceRecord) :
    (pushValue record.toPublicValue).index (ascii "id") = some (.string record.id.str) :=
  index_record (v := .string record.id.str) rfl

theorem isSome_reportResource {width : ℕ} {record : ResourceRecord} :
    (reportResource runtime width (pushValue record.toPublicValue)).isSome = true ↔
      (padded width record.id.str).isSome = true ∧ (0 : UInt8) ∉ record.version.toString := by
  obtain ⟨title, htitle⟩ : ∃ t, (pushValue record.toPublicValue).index (ascii "title") = some t := by
    obtain ⟨members, hvalue, hfields⟩ := fields_record record
    rw [hvalue, hfields.index]
    exact ⟨_, rfl⟩
  have hkind : (pushValue record.toPublicValue).index (ascii "kind") =
      some (.string record.kind.toString) := index_record (v := .string record.kind.toString) rfl
  have hversion : (pushValue record.toPublicValue).index (ascii "version") =
      some (.string record.version.toString) :=
    index_record (v := .string record.version.toString) rfl
  obtain ⟨kind, hkindText⟩ : ∃ kind, padded 8 record.kind.toString = some kind := by
    rw [← Option.isSome_iff_exists, padded_isSome]
    cases record.kind <;> decide
  have hversionText := @padded_isSome 8 record.version.toString
  unfold reportResource
  rw [index_record_id, hkind, hversion, htitle]
  simp only [Option.bind_eq_bind, Option.bind_some, LuaValue.tostring, hkindText]
  cases padded width record.id.str with
  | none => simp
  | some column =>
    cases hpadded : padded 8 record.version.toString <;> simp_all

theorem isSome_reportResources {records : List ResourceRecord}
    (hids : ∀ record ∈ records, record.id.str ≠ []) :
    (reportResources runtime
      (pushValue (.array (records.map ResourceRecord.toPublicValue)))).isSome = true ↔
      ∀ record ∈ records, record.id.str.length < 100 ∧ (0 : UInt8) ∉ record.id.str ∧
        (0 : UInt8) ∉ record.version.toString := by
  have hnull : ∀ v ∈ records.map ResourceRecord.toPublicValue, v ≠ .null := by
    intro v hv
    obtain ⟨record, -, rfl⟩ := List.mem_map.mp hv
    exact Value.noConfusion
  have hitems := items_pushValue hnull
  have hsize := size_pushValue runtime.toLuaLength hnull
  have hwidest := @widest_pushValue (ascii "id") runtime _ ResourceRecord.toPublicValue
    (fun record ↦ record.id.str) records fun record _ ↦ index_record_id record
  unfold reportResources
  rw [hsize, hitems]
  dsimp only [Option.bind_eq_bind, Option.bind_some]
  rw [hwidest, Option.bind_some, List.length_map]
  split_ifs with hnone
  · rw [List.length_eq_zero_iff.mp hnone]
    simp [pure]
  rw [isSome_mapM]
  simp only [List.forall_mem_map, isSome_reportResource, padded_isSome, foldl_max_lt]
  constructor
  · intro h record hrecord
    obtain ⟨⟨-, ⟨-, hall⟩, hnul⟩, hversion⟩ := h record hrecord
    exact ⟨hall record hrecord, hnul, hversion⟩
  · intro h record hrecord
    have hpos := @foldl_max_pos _ (fun record ↦ record.id.str) _ _ hrecord (hids record hrecord)
    obtain ⟨-, hnul, hversion⟩ := h record hrecord
    exact ⟨⟨hpos, ⟨by omega, fun other hother ↦ (h other hother).1⟩, hnul⟩, hversion⟩

end SquaredPg
