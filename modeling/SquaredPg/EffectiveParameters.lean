import SquaredPg.PlanProperties
import SquaredPg.Defaults

namespace SquaredPg

open Defaults

/-- The value of a parameter. A null counts as absent. -/
def Value.bound (parameters : Value) (name : Bytes) : Option Value :=
  (parameters.find name).filter fun value ↦ !value.isNull

def entryName (entry : Value) : Bytes := entry.stringOr (ascii "name") []

/-- What `effective_parameters` reads. -/
structure ParameterSources where
  projectTemplate : ResolvedResource
  config : Value
  workingDirectory : Bytes
  engineVersion : Version
  kitIds : List Bytes

namespace ParameterSources

def effective (sources : ParameterSources) : Value :=
  effectiveParameters sources.projectTemplate sources.config sources.workingDirectory
    sources.engineVersion sources.kitIds

def supplied (sources : ParameterSources) : Value :=
  match sources.config.find (ascii "parameters") with
  | some value => if value.isObject then value else .object []
  | none => .object []

def builtins (sources : ParameterSources) : List (Bytes × Bytes) :=
  let name := sources.config.stringOr (ascii "name") []
  let joined := joinWith (ascii ", ") sources.kitIds
  [(ascii "project_name", name),
    (ascii "namespace", name),
    (ascii "working_directory", sources.workingDirectory),
    (ascii "generator_version", sources.engineVersion.toString),
    (ascii "template_id", sources.projectTemplate.id.str),
    (ascii "template_version", sources.projectTemplate.version),
    (ascii "framework_version", sources.config.stringOr (ascii "framework") (ascii "0.0.0")),
    (ascii "kit_list", if joined = [] then ascii "none" else joined)]

/-- The entries of the template's list of parameters. -/
def declared (sources : ParameterSources) : List Value :=
  ((manifestExtension sources.projectTemplate.cartridge.manifest "parameters").asArray).getD []

/-- The effective parameters, were `entries` the list that the template declares. -/
def effectiveWith (sources : ParameterSources) (entries : List Value) : Value :=
  entries.foldl declareFrom (entries.foldl declareLiteral
    (sources.builtins.foldl (fun parameters b ↦ putIfAbsent b.1 b.2 parameters) sources.supplied))

theorem effective_eq (sources : ParameterSources) :
    sources.effective = sources.effectiveWith sources.declared := by
  have hdefaults : ∀ parameters, applyDeclaredDefaults parameters sources.projectTemplate =
      sources.declared.foldl declareFrom (sources.declared.foldl declareLiteral parameters) := by
    intro parameters
    rw [applyDeclaredDefaults, declared]
    cases (manifestExtension sources.projectTemplate.cartridge.manifest "parameters").asArray <;> rfl
  exact hdefaults _

def named (entries : List Value) : List Value := entries.filter (entryName · ≠ [])

def DistinctNames (entries : List Value) : Prop := ((named entries).map entryName).Nodup

instance (entries : List Value) : Decidable (DistinctNames entries) :=
  inferInstanceAs (Decidable (List.Nodup _))

def declaration (entries : List Value) (name : Bytes) : Option Value :=
  (named entries).find? (entryName · = name)

def declaredLiteral (entries : List Value) (name : Bytes) : Option Value :=
  (declaration entries name).bind fun entry ↦ entry.bound (ascii "default")

def sourceName (entry : Value) : Option Bytes := (entry.find (ascii "default_from")).bind Value.asString

def declaredFrom (entries : List Value) (name : Bytes) : Option Bytes :=
  (declaration entries name).bind sourceName

/-- The references that the declarations make, in their order. -/
def declaredReferences (entries : List Value) : List (Bytes × Bytes) :=
  (named entries).filterMap fun entry ↦ (sourceName entry).map fun source ↦ (entryName entry, source)

/-- The value that a name has without references: the workflow's, the engine's, or a literal. -/
def former (sources : ParameterSources) (entries : List Value) : Env Bytes Value := fun name ↦
  (sources.supplied.bound name).or
    (((sources.builtins.lookup name).map Value.string).or (declaredLiteral entries name))

end ParameterSources

def Value.setDefault (parameters : Value) (name : Bytes) (value : Option Value) : Value :=
  if parameters.binds name then parameters else value.elim parameters (parameters.set name)

theorem Value.binds_eq (parameters : Value) (name : Bytes) :
    parameters.binds name = (parameters.bound name).isSome := by
  rw [Value.binds, Value.bound]
  cases parameters.find name with
  | none => rfl
  | some value => cases hnull : value.isNull <;> simp [hnull]

theorem Value.bound_set (members : List (Bytes × Value)) (name n : Bytes) (value : Value) :
    ((Value.object members).set name value).bound n =
      if n = name then (some value).filter (!·.isNull) else (Value.object members).bound n := by
  rw [Value.bound, Value.find_set_object]
  by_cases h : n = name
  · rw [if_pos h, if_pos h]
  · rw [if_neg h, if_neg h]
    rfl

variable {parameters : Value}

theorem Value.bound_setDefault (h : parameters.isObject = true) (name : Bytes) (value : Option Value) :
    (parameters.setDefault name value).isObject = true ∧
      (parameters.setDefault name value).bound =
        fill parameters.bound name (value.filter (!·.isNull)) := by
  cases hbound : parameters.bound name with
  | some v =>
    have hbinds : parameters.binds name = true := by rw [binds_eq, hbound]; rfl
    rw [setDefault, if_pos hbinds, fill_of_some hbound]
    exact ⟨h, rfl⟩
  | none =>
    have hbinds : ¬parameters.binds name = true := by rw [binds_eq, hbound]; exact Bool.false_ne_true
    rw [setDefault, if_neg hbinds]
    cases value with
    | none =>
      rw [Option.filter_none, fill_none]
      exact ⟨h, rfl⟩
    | some value =>
      cases parameters with
      | object members =>
        refine ⟨rfl, ?_⟩
        funext n
        rw [Option.elim_some, bound_set]
        by_cases hn : n = name
        · rw [if_pos hn, hn, fill_self, hbound, Option.none_or]
        · rw [if_neg hn, fill_of_ne hn]
      | _ => cases h

theorem putIfAbsent_eq (key value : Bytes) (parameters : Value) :
    putIfAbsent key value parameters = parameters.setDefault key (some (.string value)) := rfl

theorem unlessBound_eq {parameters declared : Value} {name : Bytes} {value : Option Value}
    (h : declared = value.elim parameters (parameters.set name)) :
    (if name = [] ∨ parameters.binds name = true then parameters else declared) =
      if name = [] then parameters else parameters.setDefault name value := by
  by_cases hname : name = []
  · rw [if_pos hname, if_pos (.inl hname)]
  · rw [if_neg hname, Value.setDefault]
    by_cases hbinds : parameters.binds name = true
    · rw [if_pos hbinds, if_pos (.inr hbinds)]
    · rw [if_neg hbinds, if_neg fun hskip ↦ hskip.elim hname hbinds, h]

theorem declareLiteral_eq (parameters entry : Value) :
    declareLiteral parameters entry =
      if entryName entry = [] then parameters
      else parameters.setDefault (entryName entry) (entry.find (ascii "default")) := by
  apply unlessBound_eq
  cases entry.find (ascii "default") <;> rfl

theorem declareFrom_eq (parameters entry : Value) :
    declareFrom parameters entry =
      if entryName entry = [] then parameters
      else parameters.setDefault (entryName entry)
        ((ParameterSources.sourceName entry).bind parameters.find) := by
  apply unlessBound_eq
  rw [ParameterSources.sourceName]
  cases (entry.find (ascii "default_from")).bind Value.asString with
  | none => rfl
  | some source =>
    dsimp only [Option.bind_some]
    cases parameters.find source <;> rfl

namespace ParameterSources

theorem foldl_putIfAbsent (builtins : List (Bytes × Bytes)) (h : parameters.isObject = true) :
    (builtins.foldl (fun parameters b ↦ putIfAbsent b.1 b.2 parameters) parameters).isObject = true ∧
      (builtins.foldl (fun parameters b ↦ putIfAbsent b.1 b.2 parameters) parameters).bound =
        literals parameters.bound (builtins.map fun b ↦ (b.1, some (.string b.2))) := by
  induction builtins generalizing parameters with
  | nil => exact ⟨h, rfl⟩
  | cons b builtins ih =>
    obtain ⟨hobject, hbound⟩ := Value.bound_setDefault h b.1 (some (.string b.2))
    obtain ⟨hobject', hbound'⟩ := ih hobject
    refine ⟨hobject', ?_⟩
    rw [List.foldl_cons, putIfAbsent_eq, hbound', hbound]
    rfl

theorem foldl_declareLiteral (entries : List Value) (h : parameters.isObject = true) :
    (entries.foldl declareLiteral parameters).isObject = true ∧
      (entries.foldl declareLiteral parameters).bound = literals parameters.bound
        ((named entries).map fun entry ↦ (entryName entry, entry.bound (ascii "default"))) := by
  induction entries generalizing parameters with
  | nil => exact ⟨h, rfl⟩
  | cons entry entries ih =>
    rw [List.foldl_cons, declareLiteral_eq, named, List.filter_cons]
    by_cases hname : entryName entry = []
    · rw [if_pos hname, if_neg (by simpa using hname)]
      exact ih h
    · obtain ⟨hobject, hbound⟩ :=
        Value.bound_setDefault h (entryName entry) (entry.find (ascii "default"))
      obtain ⟨hobject', hbound'⟩ := ih hobject
      rw [if_neg hname, if_pos (by simpa using hname)]
      refine ⟨hobject', ?_⟩
      rw [hbound', hbound]
      rfl

theorem foldl_declareFrom (entries : List Value) (h : parameters.isObject = true) :
    (entries.foldl declareFrom parameters).isObject = true ∧
      (entries.foldl declareFrom parameters).bound =
        references parameters.bound (declaredReferences entries) := by
  induction entries generalizing parameters with
  | nil => exact ⟨h, rfl⟩
  | cons entry entries ih =>
    rw [List.foldl_cons, declareFrom_eq, declaredReferences, named, List.filter_cons]
    by_cases hname : entryName entry = []
    · rw [if_pos hname, if_neg (by simpa using hname)]
      exact ih h
    · obtain ⟨hobject, hbound⟩ :=
        Value.bound_setDefault h (entryName entry) ((sourceName entry).bind parameters.find)
      obtain ⟨hobject', hbound'⟩ := ih hobject
      rw [if_neg hname, if_pos (by simpa using hname), List.filterMap_cons]
      refine ⟨hobject', ?_⟩
      rw [hbound', hbound]
      cases sourceName entry with
      | none =>
        rw [Option.bind_none, Option.filter_none, fill_none]
        rfl
      | some source => rfl

theorem isObject_supplied (sources : ParameterSources) : sources.supplied.isObject = true := by
  rw [supplied]
  cases sources.config.find (ascii "parameters") with
  | none => rfl
  | some value =>
    by_cases hobject : value.isObject = true
    · simp only [hobject, if_true]
    · simp only [hobject]
      rfl

variable {sources : ParameterSources} {entries : List Value}

theorem lookup_builtins (builtins : List (Bytes × Bytes)) (name : Bytes) :
    (builtins.map fun b ↦ (b.1, some (Value.string b.2))).findSome?
        (fun d ↦ if name = d.1 then d.2 else none) =
      (builtins.lookup name).map Value.string := by
  induction builtins with
  | nil => rfl
  | cons b builtins ih =>
    rw [List.map_cons, List.findSome?_cons, ih, List.lookup_cons]
    by_cases h : name = b.1
    · simp [h]
    · simp [h, beq_eq_false_iff_ne.mpr h]

theorem literals_former (sources : ParameterSources) (h : DistinctNames entries) :
    literals (literals sources.supplied.bound
        (sources.builtins.map fun b ↦ (b.1, some (.string b.2))))
      ((named entries).map fun entry ↦ (entryName entry, entry.bound (ascii "default"))) =
    sources.former entries := by
  funext name
  rw [literals_apply, literals_apply, lookup_builtins, List.findSome?_map, Option.or_assoc,
    former, declaredLiteral, declaration, ← findSome_key h]
  rfl

/-- The value of every name, in layers. -/
theorem bound_effectiveWith (h : DistinctNames entries) :
    (sources.effectiveWith entries).bound =
      references (sources.former entries) (declaredReferences entries) := by
  obtain ⟨hobject, hbound⟩ := foldl_putIfAbsent sources.builtins sources.isObject_supplied
  obtain ⟨hobject', hbound'⟩ := foldl_declareLiteral entries hobject
  rw [effectiveWith, (foldl_declareFrom entries hobject').2, hbound', hbound,
    literals_former sources h]

variable {entries' : List Value} {name source : Bytes} {entry : Value}

theorem declaration_iff (h : DistinctNames entries) :
    declaration entries name = some entry ↔ entry ∈ named entries ∧ entryName entry = name := by
  refine ⟨?_, ?_⟩
  · intro hfind
    exact ⟨List.mem_of_find?_eq_some hfind, by simpa using List.find?_some hfind⟩
  · intro ⟨hmem, hname⟩
    cases hfind : declaration entries name with
    | none =>
      have hnone := List.find?_eq_none.mp hfind entry hmem
      exact absurd (decide_eq_true hname) hnone
    | some other =>
      have hname' : entryName other = name := by simpa using List.find?_some hfind
      have hsame := List.inj_on_of_nodup_map h (List.mem_of_find?_eq_some hfind) hmem
        (hname'.trans hname.symm)
      rw [hsame]

theorem mem_declaredReferences (h : DistinctNames entries) :
    (name, source) ∈ declaredReferences entries ↔ declaredFrom entries name = some source := by
  rw [declaredReferences, List.mem_filterMap, declaredFrom, Option.bind_eq_some_iff]
  refine exists_congr fun entry ↦ ?_
  rw [declaration_iff h, and_assoc]
  refine and_congr_right fun _ ↦ ?_
  rw [Option.map_eq_some_iff]
  refine ⟨?_, ?_⟩
  · intro ⟨s, hs, heq⟩
    obtain ⟨hname, rfl⟩ := Prod.mk.inj heq
    exact ⟨hname, hs⟩
  · intro ⟨hname, hs⟩
    exact ⟨source, hs, by rw [hname]⟩

theorem nodup_declaredReferences (h : DistinctNames entries) :
    ((declaredReferences entries).map Prod.fst).Nodup := by
  have hsub : ∀ l : List Value, ((l.filterMap fun entry ↦ (sourceName entry).map fun source ↦
      (entryName entry, source)).map Prod.fst).Sublist (l.map entryName) := by
    intro l
    induction l with
    | nil => exact .slnil
    | cons entry l ih =>
      rw [List.filterMap_cons]
      cases sourceName entry with
      | none => exact ih.cons _
      | some source => exact ih.cons_cons _
  exact h.sublist (hsub _)

theorem DistinctNames.perm (h : DistinctNames entries) (hperm : entries'.Perm entries) :
    DistinctNames entries' := ((hperm.filter _).map entryName).nodup_iff.mpr h

theorem former_perm (h : DistinctNames entries) (hperm : entries'.Perm entries) :
    sources.former entries' = sources.former entries := by
  have hdeclaration : declaration entries' = declaration entries := by
    funext name
    apply Option.ext
    intro entry
    rw [declaration_iff h, declaration_iff (h.perm hperm), named, named, (hperm.filter _).mem_iff]
  funext name
  rw [former, former, declaredLiteral, declaredLiteral, hdeclaration]

/-- The layers decide every name that they give a value, directly or by one reference; a name that
has a value otherwise has the one at the end of its chain of references. -/
theorem effective_precedence (sources : ParameterSources) (h : DistinctNames sources.declared) :
    (∀ name v, sources.former sources.declared name = some v →
      sources.effective.bound name = some v) ∧
    (∀ name source v, sources.former sources.declared name = none →
      declaredFrom sources.declared name = some source →
      sources.former sources.declared source = some v → sources.effective.bound name = some v) ∧
    (∀ name v, sources.effective.bound name = some v →
      Leads (sources.former sources.declared) (declaredReferences sources.declared) name v) ∧
    ∀ name v, sources.supplied.bound name = some v → sources.effective.bound name = some v := by
  have hlayers : sources.effective.bound =
      references (sources.former sources.declared) (declaredReferences sources.declared) := by
    rw [effective_eq, bound_effectiveWith h]
  have hformer : ∀ name v, sources.former sources.declared name = some v →
      sources.effective.bound name = some v := by
    intro name v hv
    rw [hlayers]
    exact extends_references _ _ name v hv
  refine ⟨hformer, ?_, ?_, ?_⟩
  · intro name source v hnone hfrom hsource
    rw [hlayers]
    exact references_of_direct (nodup_declaredReferences h) ((mem_declaredReferences h).mpr hfrom)
      hnone hsource
  · intro name v hv
    rw [hlayers] at hv
    exact leads_of_references hv
  · intro name v hv
    apply hformer
    rw [former, hv, Option.some_or]

def sample (text : String) : ParameterSources where
  projectTemplate := sampleTemplate text []
  config := .object [(ascii "name", .string (ascii "app"))]
  workingDirectory := ascii "app"
  engineVersion := {}
  kitIds := []

def directSample : ParameterSources := sample
  "\x7b\"parameters\":[\x7b\"name\":\"label\",\"default_from\":\"project_name\"\x7d]\x7d"

def chainedSample : ParameterSources := sample
  "\x7b\"parameters\":[\x7b\"name\":\"b\",\"default_from\":\"project_name\"\x7d,\x7b\"name\":\"a\",\"default_from\":\"b\"\x7d]\x7d"

theorem effective_precedence_direct :
    ∃ v, directSample.former directSample.declared (ascii "project_name") = some v ∧
      directSample.effective.bound (ascii "label") = some v := by
  have hvalues : DistinctNames directSample.declared ∧
      (directSample.former directSample.declared (ascii "project_name")).isSome = true ∧
      (directSample.former directSample.declared (ascii "label")).isNone = true ∧
      declaredFrom directSample.declared (ascii "label") = some (ascii "project_name") := by
    decide +kernel
  obtain ⟨hnames, hsome, hnone, hfrom⟩ := hvalues
  obtain ⟨v, hv⟩ := Option.isSome_iff_exists.mp hsome
  exact ⟨v, hv, (effective_precedence directSample hnames).2.1 _ _ v
    (Option.isNone_iff_eq_none.mp hnone) hfrom hv⟩

/-- A reference to a name that has its value from a reference is followed as well. -/
theorem effective_precedence_chained :
    ¬∀ sources : ParameterSources, DistinctNames sources.declared → ∀ name,
      sources.effective.bound name = (sources.former sources.declared name).or
        ((declaredFrom sources.declared name).bind (sources.former sources.declared)) := by
  intro h
  have hvalues : DistinctNames chainedSample.declared ∧
      (chainedSample.effective.bound (ascii "a")).isSome = true ∧
      ((chainedSample.former chainedSample.declared (ascii "a")).or
        ((declaredFrom chainedSample.declared (ascii "a")).bind
          (chainedSample.former chainedSample.declared))).isSome = false := by
    decide +kernel
  obtain ⟨hnames, hbound, hlayers⟩ := hvalues
  rw [h chainedSample hnames (ascii "a"), hlayers] at hbound
  cases hbound

/-- The list of declarations may be permuted, and every chain is followed to its end. -/
def OrderFree (sources : ParameterSources) : Prop :=
  (∀ entries, entries.Perm sources.declared →
    (sources.effectiveWith entries).bound = sources.effective.bound) ∧
  ∀ name v, Leads (sources.former sources.declared) (declaredReferences sources.declared) name v →
    sources.effective.bound name = some v

theorem orderFree_iff (sources : ParameterSources) (h : DistinctNames sources.declared) :
    sources.OrderFree ↔
      Shallow (sources.former sources.declared) (declaredReferences sources.declared) := by
  have hlayers : ∀ entries, entries.Perm sources.declared → (sources.effectiveWith entries).bound =
      references (sources.former sources.declared) (declaredReferences entries) := by
    intro entries hperm
    rw [bound_effectiveWith (h.perm hperm), former_perm h hperm]
  have hperm : ∀ {entries}, entries.Perm sources.declared →
      (declaredReferences entries).Perm (declaredReferences sources.declared) :=
    fun hperm ↦ (hperm.filter _).filterMap _
  rw [OrderFree, effective_eq, hlayers _ (.refl _)]
  refine ⟨?_, ?_⟩
  · intro ⟨horder, hchains⟩
    apply shallow_of_references (nodup_declaredReferences h) _ hchains
    intro r hr
    -- The declaration that makes the reference comes first.
    obtain ⟨entry, hentry, hmap⟩ := List.mem_filterMap.mp hr
    obtain ⟨front, back, hsplit⟩ := List.append_of_mem (List.mem_of_mem_filter hentry)
    have hfirst : (entry :: (front ++ back)).Perm sources.declared := by
      rw [hsplit]
      exact List.perm_middle.symm
    have hrefs : declaredReferences (entry :: (front ++ back)) =
        r :: declaredReferences (front ++ back) := by
      rw [declaredReferences, named, List.filter_cons_of_pos (List.of_mem_filter hentry)]
      exact List.filterMap_cons_some hmap
    refine ⟨declaredReferences (front ++ back), ?_, ?_⟩
    · rw [← hrefs]
      exact hperm hfirst
    · rw [← hrefs, ← hlayers _ hfirst, horder _ hfirst]
  · intro hshallow
    have hnodup := nodup_declaredReferences h
    refine ⟨?_, fun name v hleads ↦ references_of_leads hshallow hnodup hleads⟩
    intro entries hentries
    rw [hlayers _ hentries, references_perm hshallow hnodup (hperm hentries)]

def earlySample : ParameterSources := sample
  "\x7b\"parameters\":[\x7b\"name\":\"a\",\"default_from\":\"b\"\x7d,\x7b\"name\":\"b\",\"default_from\":\"project_name\"\x7d]\x7d"

theorem orderFree_direct : directSample.OrderFree := by
  have hvalues : DistinctNames directSample.declared ∧
      ∀ r ∈ declaredReferences directSample.declared,
        (directSample.former directSample.declared r.2).isSome = true := by
    decide +kernel
  obtain ⟨hnames, hdirect⟩ := hvalues
  refine (orderFree_iff directSample hnames).mpr ?_
  intro name source v hmem _ hleads
  obtain ⟨w, hw⟩ := Option.isSome_iff_exists.mp (hdirect _ hmem)
  rw [hw, hleads.of_some hw]

theorem orderFree_early : ¬∀ sources : ParameterSources, DistinctNames sources.declared →
    Acyclic (declaredReferences sources.declared) → sources.OrderFree := by
  intro h
  have hvalues : DistinctNames earlySample.declared ∧
      declaredReferences earlySample.declared =
        [(ascii "a", ascii "b"), (ascii "b", ascii "project_name")] ∧
      (∀ name ∈ [ascii "a", ascii "b"],
        (earlySample.former earlySample.declared name).isNone = true) ∧
      (earlySample.former earlySample.declared (ascii "project_name")).isSome = true ∧
      (earlySample.effective.bound (ascii "a")).isNone = true := by
    decide +kernel
  obtain ⟨hnames, hrefs, hnone, hsome, hunbound⟩ := hvalues
  obtain ⟨v, hv⟩ := Option.isSome_iff_exists.mp hsome
  have hacyclic : Acyclic (declaredReferences earlySample.declared) := by
    apply acyclic_of_rank fun name ↦ List.idxOf name [ascii "a", ascii "b"]
    rw [hrefs]
    decide
  have hleads : Leads (earlySample.former earlySample.declared)
      (declaredReferences earlySample.declared) (ascii "a") v := by
    rw [hrefs]
    apply Leads.ref (Option.isNone_iff_eq_none.mp (hnone _ (by simp))) (s := ascii "b") (by simp)
    apply Leads.ref (Option.isNone_iff_eq_none.mp (hnone _ (by simp))) (s := ascii "project_name")
      (by simp)
    exact .here hv
  rw [(h earlySample hnames hacyclic).2 _ v hleads] at hunbound
  cases hunbound

end ParameterSources

end SquaredPg
