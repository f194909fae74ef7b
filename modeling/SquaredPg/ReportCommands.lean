import SquaredPg.IdentityGrammar
import SquaredPg.IndexInvariant
import SquaredPg.NewCommand
import SquaredPg.VerifyCommand
import SquaredPg.VersionGrammar

namespace SquaredPg

open Ascii Fallible FileSystem Program

theorem zero_not_mem_dotted {text : Bytes} (h : ∀ part ∈ text.splitOn dot, (0 : UInt8) ∉ part) :
    (0 : UInt8) ∉ text := by
  intro hzero
  have hjoin : joinWith [dot] (text.splitOn dot) = text := List.intercalate_splitOn dot
  rw [← hjoin] at hzero
  rcases mem_joinWith hzero with heq | ⟨part, hpart, hzero⟩
  · cases heq
  · exact h part hpart hzero

theorem zero_not_mem_identifier {text : Bytes} (h : validIdentifier text = true) :
    (0 : UInt8) ∉ text := by
  simp only [validIdentifier, decide_eq_true_eq, List.all_eq_true] at h
  refine zero_not_mem_dotted fun segment hsegment hzero ↦ ?_
  rcases mem_validSegment (h.2.2.1 segment hsegment) hzero with hsep | halnum
  · cases hsep
  · cases halnum

theorem zero_not_mem_suffix {text : Bytes} (h : text = [] ∨ validDotSeparated text = true) :
    (0 : UInt8) ∉ text := by
  rcases h with rfl | hvalid
  · simp
  · simp only [validDotSeparated, decide_eq_true_eq, List.all_eq_true] at hvalid
    refine zero_not_mem_dotted fun part hpart hzero ↦ ?_
    cases (hvalid.2 part hpart).2 0 hzero

theorem zero_not_mem_decimal (n : ℕ) : (0 : UInt8) ∉ decimal n := by
  intro hzero
  cases decimal_digits hzero

theorem zero_not_mem_version (v : Version) : (0 : UInt8) ∉ v.toString := by
  have hprerelease := zero_not_mem_suffix v.prerelease_valid
  have hbuild := zero_not_mem_suffix v.build_valid
  have hdot : (0 : UInt8) ≠ dot := by decide
  have hminus : (0 : UInt8) ≠ minus := by decide
  have hplus : (0 : UInt8) ≠ plus := by decide
  simp only [Version.toString, List.mem_append, List.mem_cons, zero_not_mem_decimal, hdot, false_or,
    not_or]
  constructor
  · split_ifs
    · simp
    · simp [hprerelease, hminus]
  · split_ifs
    · simp
    · simp [hbuild, hplus]

theorem id_of_recordFrom {envelope : Envelope} {location : Bytes} {record : ResourceRecord}
    (h : recordFrom envelope location = .ok record) : validIdentifier record.id.str = true := by
  unfold recordFrom at h
  split at h
  · cases h
  · split_ifs at h with hkind
    split at h
    · cases h
    · rename_i id hid
      split at h
      · cases h
      · obtain ⟨hparse, -⟩ := (parseAs_eq_some hkind).mp hid
        obtain ⟨hgrammar, hstr⟩ := parse_eq_some.mp hparse
        rw [← Except.ok.inj h, hstr]
        exact validIdentifier_iff.mpr hgrammar

namespace Engine

variable {host : Host} {config : EngineConfig} {engine : Engine}

theorem index_of_start (hready : (engine.start host).2.state = .ready) :
    ∃ diagnostics, engine.buildIndex host = .ok ((engine.start host).2.index, diagnostics) := by
  unfold start at hready ⊢
  cases hservices : coreServices.find? fun required ↦ decide (required ∉ engine.locator.names) with
  | some required =>
    rw [hservices] at hready
    cases hready
  | none =>
    rw [hservices] at hready
    dsimp only at hready ⊢
    cases hbuilt : engine.buildIndex host with
    | error e =>
      rw [hbuilt] at hready
      cases hready
    | ok built => exact ⟨built.2, rfl⟩

theorem ids_of_started (hready : (startedEngine host config).state = .ready) :
    ∀ record ∈ (startedEngine host config).index.records, validIdentifier record.id.str = true := by
  have hstart : (create config).initialize_ host = (create config).registered.start host :=
    if_neg (not_not.mpr rfl)
  unfold startedEngine at hready ⊢
  rw [hstart] at hready ⊢
  generalize (create config).registered = filled at hready ⊢
  intro record hrecord
  obtain ⟨diagnostics, hbuilt⟩ := index_of_start hready
  have hindex := buildIndex_index hbuilt
  dsimp only at hindex
  rw [hindex] at hrecord
  obtain ⟨location, -, hcandidate⟩ :=
    List.mem_filterMap.mp ((ofRecords_holds _).sound record hrecord)
  obtain ⟨envelope, -, hfrom⟩ := Option.bind_eq_some_iff.mp hcandidate
  exact id_of_recordFrom (toOption_eq_some.mp hfrom)

structure Plans (host : Host) (engine : Engine) (params : Value) (planned : OperationResult) :
    Prop where
  decided : planned.succeeded = true ↔ engine.Admits projectPlan params ∧
    ∃ plan, engine.planFor host params = .ok plan
  shown : ∀ plan, planned.succeeded = true → engine.planFor host params = .ok plan →
    planned.data = plan.toValue

theorem Equipped.plans (h : engine.Equipped) (params : Value) (fs : FileSystem) : ∃ planned,
    (engine.execute host projectPlan params).run (perform host.cwd) fs =
      (.ok (planned, { engine with lastResult := planned }), fs) ∧ Plans host engine params planned := by
  rcases admission_alike params h with ⟨e, -, herror, -⟩ | ⟨found, -, hadmission, hhandler, -⟩
  · refine ⟨_, run_execute_kept (run_execute_error herror), iff_of_false (by simp) ?_,
      fun plan hok ↦ by cases hok⟩
    rintro ⟨⟨hready, found, hfound, hvalid⟩, -⟩
    rw [admission_eq_ok.mpr ⟨hready, hfound, hvalid⟩] at herror
    cases herror
  have hadmits : engine.Admits projectPlan params := by
    obtain ⟨hready, hfound, hvalid⟩ := admission_eq_ok.mp hadmission
    exact ⟨hready, found, hfound, hvalid⟩
  have hhandled : (handle host { engine with state := .operating } params found.handler).run
      (perform host.cwd) fs = (.ok (engine.planProject host params), fs) := by
    rw [hhandler]
    rfl
  refine ⟨_, run_execute_kept (run_execute_ok hadmission hhandled), ?_⟩
  unfold planProject
  cases hfor : engine.planFor host params with
  | error e =>
    have hfailed : ((failure e).setOperation projectPlan).succeeded = false := by
      change (failure e).succeeded = false
      rw [failure, OperationResult.succeeded_withDiagnostics, OperationResult.succeeded_failed]
    refine ⟨iff_of_false (by simp [hfailed]) ?_, fun plan hok ↦ ?_⟩
    · rintro ⟨-, plan, hok⟩
      rw [hfor] at hok
      cases hok
    · rw [hfailed] at hok
      cases hok
  | ok plan =>
    have hok : (((OperationResult.ok plan.toValue).withDiagnostics
        plan.diagnostics).setOperation projectPlan).succeeded = true := by
      change ((OperationResult.ok plan.toValue).withDiagnostics plan.diagnostics).succeeded = true
      rw [OperationResult.succeeded_withDiagnostics, OperationResult.succeeded_ok]
    refine ⟨iff_of_true hok ⟨hadmits, plan, hfor⟩, fun other _ hother ↦ ?_⟩
    obtain rfl : plan = other := Except.ok.inj (hfor.symm.trans hother)
    change ((OperationResult.ok plan.toValue).withDiagnostics plan.diagnostics).data = plan.toValue
    rw [OperationResult.withDiagnostics_eq]
    rfl

end Engine

namespace Workflow

open Args Engine

variable {host : Host} {surroundings : Surroundings} {parsed : Parsed} {engine : Engine}
  {argv : List Bytes} {fs : FileSystem} {table : LuaTable} {name : Bytes}

/-- The engine plans the workspace, and the plan can be shown unless it is asked for as JSON. -/
structure Previews (host : Host) (surroundings : Surroundings) (engine : Engine) (parsed : Parsed)
    (table : LuaTable) (plan : GenerationPlan) : Prop where
  admitted : engine.Admits projectPlan (request surroundings table)
  planned : engine.planFor host (request surroundings table) = .ok plan
  shown : jsonOutput parsed = false → Printable plan.steps

theorem run_previewing (hequipped : engine.Equipped) :
    ∃ exit result, (calling host surroundings engine "project.plan" (.table table.entries) fun data ↦
          if jsonOutput parsed then .returns 0
          else printed (reportPlan surroundings.runtime surroundings.colours data)).run
        (perform host.cwd) fs = (.ok (exit, { engine with lastResult := result }), fs) ∧
      Settles (∃ plan, Previews host surroundings engine parsed table plan) exit := by
  obtain ⟨planned, hrun, hplans⟩ := hequipped.plans (request surroundings table) fs
  refine ⟨_, planned, run_calling hrun, ?_⟩
  cases hok : planned.succeeded with
  | false =>
    refine ⟨.inr (.inl rfl), iff_of_false (by simp) ?_⟩
    rintro ⟨plan, hpreviews⟩
    have hyes := hplans.decided.mpr ⟨hpreviews.admitted, plan, hpreviews.planned⟩
    rw [hok] at hyes
    cases hyes
  | true =>
    obtain ⟨hadmits, plan, hfor⟩ := hplans.decided.mp hok
    have hshows := isSome_report_planned hfor surroundings.colours
    rw [if_pos rfl, hplans.shown plan hok hfor]
    have hexact : (∃ other, Previews host surroundings engine parsed table other) ↔
        (jsonOutput parsed = false → Printable plan.steps) := by
      constructor
      · rintro ⟨other, hpreviews⟩
        obtain rfl := Except.ok.inj (hpreviews.planned.symm.trans hfor)
        exact hpreviews.shown
      · exact fun hshown ↦ ⟨plan, hadmits, hfor, hshown⟩
    rw [hexact]
    cases hjson : jsonOutput parsed with
    | true => exact ⟨.inl rfl, iff_of_true rfl fun h ↦ by cases h⟩
    | false =>
      rw [if_neg (by simp), ← hshows]
      cases reportPlan surroundings.runtime surroundings.colours (pushValue plan.toValue) with
      | none => exact ⟨.inr (.inr rfl), iff_of_false (by simp [printed]) (by simp)⟩
      | some lines => exact ⟨.inl rfl, iff_of_true rfl fun _ ↦ rfl⟩

end Workflow

open Args Engine Workflow

variable {host : Host} {surroundings : Surroundings} {config : EngineConfig} {argv : List Bytes}
  {fs : FileSystem}

/-- A process that nothing fails in and whose command is `plan` changes nothing, and it ends with
status 0 exactly when the arguments spell a configuration that the engine plans and the plan can be
shown. -/
theorem sqpg_plan (hcommand : (parse argv).command = some (ascii "plan"))
    (hhelp : (parse argv).options (ascii "help") = none) :
    ∃ status, (sqpg host surroundings config argv).run (perform host.cwd) fs = (.ok status, fs) ∧
      Answers surroundings (startedEngine host config) (parse argv)
        (fun table ↦ ∃ plan,
          Previews host surroundings (startedEngine host config) (parse argv) table plan) status := by
  have hbody : command host surroundings (ascii "plan") (parse argv) (startedEngine host config) =
      onConfiguration surroundings (parse argv) (startedEngine host config) fun table ↦
        calling host surroundings (startedEngine host config) "project.plan" (.table table.entries)
          fun data ↦ if jsonOutput (parse argv) then .returns 0
            else printed (reportPlan surroundings.runtime surroundings.colours data) := by
    unfold command
    repeat rw [if_neg (by decide : ¬ ascii "plan" = _)]
    rw [if_pos rfl, plan]
  have hdone : (startedEngine host config).state ≠ .ready → ∀ table, ¬ ∃ plan,
      Previews host surroundings (startedEngine host config) (parse argv) table plan := by
    rintro hunready table ⟨plan, hpreviews⟩
    exact hunready hpreviews.admitted.1
  obtain ⟨status, after, hrun, hanswers, hleft⟩ :=
    @sqpg_configured host surroundings config argv fs _ _ _ (fun _ _ after ↦ after = fs)
      hcommand hhelp (by decide) hbody hdone fun hready table hasks ↦ by
        obtain ⟨exit, result, hrun, hsettles⟩ := run_previewing (equipped_started host config)
        exact ⟨exit, result, fs, hrun, hsettles, rfl⟩
  have hsame : after = fs := by
    rcases hleft with ⟨hsame, -⟩ | ⟨-, -, -, -, hsame⟩ <;> exact hsame
  exact ⟨status, hsame ▸ hrun, hanswers⟩

def planArguments : List Bytes := ["plan", "p", "--template", "template.sample"].map ascii

/-- The workspace of the sample could be made. -/
theorem sample_plan :
    (sqpg sampleHost plainSurroundings sampleConfig planArguments).run (perform sampleHost.cwd) .bare =
      (.ok 0, .bare) ∧
    Answers plainSurroundings (startedEngine sampleHost sampleConfig) (parse planArguments)
      (fun table ↦ ∃ plan, Previews sampleHost plainSurroundings
        (startedEngine sampleHost sampleConfig) (parse planArguments) table plan) 0 := by
  have hzero : ((sqpg sampleHost plainSurroundings sampleConfig planArguments).run
      (perform sampleHost.cwd) .bare).1.toOption = some 0 := by decide +kernel
  obtain ⟨status, hrun, hanswers⟩ :=
    @sqpg_plan sampleHost plainSurroundings sampleConfig planArguments .bare (by decide) (by decide)
  rw [hrun] at hzero
  obtain rfl : status = 0 := Option.some.inj hzero
  exact ⟨hrun, hanswers⟩

namespace Engine

def listing (engine : Engine) (kindText : Bytes) : Option (List ResourceRecord) :=
  if kindText = [] then some engine.index.records
  else (ResourceKind.fromString kindText).map engine.index.ofKind

theorem list_admitted {engine : Engine} (hequipped : engine.Equipped) (hready : engine.state = .ready)
    {params : Value} (hparams : params = .array [] ∨
      ∃ kind, params = .object [(ascii "kind", .string kind)]) :
    ∃ found, engine.admission (ascii "resource.list") params = .ok found ∧
      found.handler = .resourceList := by
  rcases hparams with rfl | ⟨kind, rfl⟩
  · exact ⟨_, hequipped.admission_builtin hready rfl rfl, rfl⟩
  · exact ⟨_, hequipped.admission_builtin hready rfl rfl, rfl⟩

theorem listResources_cases (engine : Engine) {params : Value} {kindText : Bytes}
    (h : params.stringOr (ascii "kind") [] = kindText) :
    (∃ records, engine.listing kindText = some records ∧
      engine.listResources params = resourceListing records) ∨
    engine.listing kindText = none ∧ (engine.listResources params).succeeded = false := by
  unfold listing listResources
  rw [h]
  dsimp only
  by_cases hempty : kindText = []
  · rw [if_pos hempty, if_pos hempty]
    exact .inl ⟨_, rfl, rfl⟩
  · rw [if_neg hempty, if_neg hempty]
    cases ResourceKind.fromString kindText with
    | none => exact .inr ⟨rfl, OperationResult.succeeded_failed⟩
    | some kind => exact .inl ⟨_, rfl, rfl⟩

theorem listing_subset {engine : Engine} {kindText : Bytes} {records : List ResourceRecord}
    (h : engine.listing kindText = some records) : ∀ record ∈ records, record ∈ engine.index.records := by
  unfold listing at h
  split_ifs at h
  · obtain rfl := Option.some.inj h
    exact fun record hrecord ↦ hrecord
  · obtain ⟨kind, -, rfl⟩ := Option.map_eq_some_iff.mp h
    exact fun record hrecord ↦ (ResourceIndex.mem_ofKind.mp hrecord).1

end Engine

namespace Workflow

variable {engine : Engine} {parsed : Parsed}

/-- The records that are asked for are there, and they can be shown unless they are asked for as
JSON. -/
def Listable (engine : Engine) (parsed : Parsed) : Prop :=
  ∃ records, engine.listing (parsed.positional.head?.getD []) = some records ∧
    (jsonOutput parsed = false → ∀ record ∈ records, record.id.str.length < 100)

theorem index_resources (records : List ResourceRecord) :
    (pushValue (resourceListing records).data).index (ascii "resources") =
      some (pushValue (.array (records.map ResourceRecord.toPublicValue))) := by
  have hfields : Fields [(ascii "resources",
      Value.array (records.map ResourceRecord.toPublicValue))] :=
    ⟨by simp, by simpa using (by decide : (0 : UInt8) ∉ ascii "resources"), by simp⟩
  exact hfields.index_of_find rfl

theorem isSome_report_listed (hids : ∀ record ∈ engine.index.records,
      validIdentifier record.id.str = true) {records : List ResourceRecord}
    (hsub : ∀ record ∈ records, record ∈ engine.index.records) (runtime : LuaRuntime) :
    (reportResources runtime
      (pushValue (.array (records.map ResourceRecord.toPublicValue)))).isSome = true ↔
      ∀ record ∈ records, record.id.str.length < 100 := by
  rw [isSome_reportResources]
  · constructor
    · exact fun h record hrecord ↦ (h record hrecord).1
    · exact fun h record hrecord ↦ ⟨h record hrecord,
        zero_not_mem_identifier (hids record (hsub record hrecord)), zero_not_mem_version _⟩
  · intro record hrecord hempty
    have hid := hids record (hsub record hrecord)
    rw [hempty] at hid
    cases hid

theorem run_list (hequipped : engine.Equipped) (hready : engine.state = .ready)
    (hids : ∀ record ∈ engine.index.records, validIdentifier record.id.str = true) :
    ∃ exit result, (list host surroundings parsed engine).run (perform host.cwd) fs =
        (.ok (exit, { engine with lastResult := result }), fs) ∧
      Settles (Listable engine parsed) exit := by
  have hparams : ∃ params, fromLua surroundings.runtime.toLuaLength
        (.table (parsed.positional.head?.elim [] fun kind ↦ [(luaKey "kind", .string kind)])) = params ∧
      (params = .array [] ∨ ∃ kind, params = .object [(ascii "kind", .string kind)]) ∧
      params.stringOr (ascii "kind") [] = parsed.positional.head?.getD [] := by
    cases parsed.positional.head? with
    | none =>
      have hborder : surroundings.runtime.len [] = 0 := by
        rcases (surroundings.runtime.border []).1 with hzero | hin
        · exact hzero
        · cases hin
      have harray : fromLua surroundings.runtime.toLuaLength (.table []) = .array [] := by
        rw [fromLua_table, hborder]
        rfl
      exact ⟨_, harray, .inl rfl, rfl⟩
    | some kind => exact ⟨_, fromLua_text _ _ _, .inr ⟨kind, rfl⟩, rfl⟩
  obtain ⟨params, hrequest, hshape, hkind⟩ := hparams
  obtain ⟨found, hadmission, hhandler⟩ := list_admitted hequipped hready hshape
  have hhandled : (handle host { engine with state := .operating } params found.handler).run
      (perform host.cwd) fs = (.ok (engine.listResources params), fs) := by
    rw [hhandler]
    rfl
  have hrun := run_execute_kept (run_execute_ok hadmission hhandled)
  rw [← hrequest] at hrun
  refine ⟨_, _, run_calling hrun, ?_⟩
  have hdata : ∀ records, ((resourceListing records).setOperation (ascii "resource.list")).data =
      (resourceListing records).data := fun _ ↦ rfl
  rw [hrequest]
  rcases engine.listResources_cases hkind with ⟨records, hlisting, hlisted⟩ | ⟨hnone, hfailed⟩
  · have hexact : Listable engine parsed ↔
        (jsonOutput parsed = false → ∀ record ∈ records, record.id.str.length < 100) := by
      constructor
      · rintro ⟨other, hother, hshown⟩
        obtain rfl := Option.some.inj (hother.symm.trans hlisting)
        exact hshown
      · exact fun hshown ↦ ⟨records, hlisting, hshown⟩
    have hsucceeded : ((resourceListing records).setOperation
        (ascii "resource.list")).succeeded = true := OperationResult.succeeded_ok _
    rw [hexact, hlisted, if_pos hsucceeded, hdata, index_resources, Option.bind_some]
    cases hjson : jsonOutput parsed with
    | true => exact ⟨.inl rfl, iff_of_true rfl fun h ↦ by cases h⟩
    | false =>
      rw [if_neg (by simp), ← isSome_report_listed hids (listing_subset hlisting)
        surroundings.runtime]
      cases reportResources surroundings.runtime
          (pushValue (.array (records.map ResourceRecord.toPublicValue))) with
      | none => exact ⟨.inr (.inr rfl), iff_of_false (by simp [printed]) (by simp)⟩
      | some lines => exact ⟨.inl rfl, iff_of_true rfl fun _ ↦ rfl⟩
  · have hfalse : ((engine.listResources params).setOperation
        (ascii "resource.list")).succeeded = false := hfailed
    rw [hfalse]
    refine ⟨.inr (.inl rfl), iff_of_false (by simp) ?_⟩
    rintro ⟨records, hlisting, -⟩
    rw [hnone] at hlisting
    cases hlisting

end Workflow

/-- A process that nothing fails in and whose command is `list` changes nothing, and it ends with
status 0 exactly when the kind is one that resources have and, unless they are asked for as JSON,
every identifier has less than a hundred bytes. -/
theorem sqpg_list (hcommand : (parse argv).command = some (ascii "list"))
    (hhelp : (parse argv).options (ascii "help") = none) :
    ∃ status, (sqpg host surroundings config argv).run (perform host.cwd) fs = (.ok status, fs) ∧
      (status = 0 ∨ status = 1 ∨ status = 2) ∧
      (status = 0 ↔ (startedEngine host config).state = .ready ∧ (parse argv).errors = [] ∧
        Listable (startedEngine host config) (parse argv)) ∧
      (status = 2 ↔ (startedEngine host config).state = .ready ∧ (parse argv).errors ≠ []) := by
  by_cases hready : (startedEngine host config).state = .ready
  · have hrun := @run_of_command host surroundings (startedEngine host config) argv _ hcommand hhelp
      (by decide)
    by_cases herrors : (parse argv).errors = []
    · rw [if_neg (not_not.mpr herrors)] at hrun
      obtain ⟨exit, result, hlist, hsettles⟩ := @run_list host surroundings fs
        (startedEngine host config) (parse argv) (equipped_started host config) hready
        (ids_of_started hready)
      have hbody : command host surroundings (ascii "list") (parse argv) (startedEngine host config) =
          list host surroundings (parse argv) (startedEngine host config) := by
        unfold command
        repeat rw [if_neg (by decide : ¬ ascii "list" = _)]
        rw [if_pos rfl]
      rw [hbody] at hrun
      rw [← hrun] at hlist
      have hstopped : (Engine.shutdown
          { startedEngine host config with lastResult := result }).1.succeeded = true :=
        shutdown_succeeded hready
      refine ⟨_, run_sqpg hready hlist, ?_⟩
      rcases hsettles.status hstopped with ⟨hzero, hexit⟩ | ⟨hone, hnot⟩
      · rw [hzero]
        exact ⟨.inl rfl, iff_of_true rfl ⟨hready, herrors, hsettles.2.mp hexit⟩,
          iff_of_false (by decide) fun h ↦ h.2 herrors⟩
      · rw [hone]
        exact ⟨.inr (.inl rfl), iff_of_false (by decide) fun h ↦ hnot h.2.2,
          iff_of_false (by decide) fun h ↦ h.2 herrors⟩
    · rw [if_pos herrors] at hrun
      have hrefused : (run host surroundings argv (startedEngine host config)).run
          (perform host.cwd) fs = (.ok (.returns 2, startedEngine host config), fs) := by
        rw [hrun]
        rfl
      have htwo : ∀ stopped, exitStatus (.returns 2) stopped = 2 := by simp [exitStatus]
      refine ⟨_, run_sqpg hready hrefused, ?_⟩
      rw [htwo]
      exact ⟨.inr (.inr rfl), iff_of_false (by decide) fun h ↦ herrors h.2.1,
        iff_of_true rfl ⟨hready, herrors⟩⟩
  · exact ⟨1, run_sqpg_of_unready hready, .inr (.inl rfl),
      iff_of_false Nat.one_ne_zero fun h ↦ hready h.1, iff_of_false (by decide) fun h ↦ hready h.1⟩

/-- The sample, with an identifier of a hundred bytes. -/
def wideHost : Host :=
  { sampleHost with
    openEnvelope := fun _ ↦ .ok
      { kind := ascii "template"
        id := ascii "template." ++ List.replicate 91 97
        version := ascii "1.0.0"
        manifest := (sampleTemplate "\x7b\x7d" ["a"]).cartridge.manifest } }

/-- A resource with such an identifier is indexed, and the listing ends with status 1. -/
theorem wide_list :
    (startedEngine wideHost sampleConfig).state = .ready ∧
    (sqpg wideHost plainSurroundings sampleConfig [ascii "list"]).run (perform wideHost.cwd) .bare =
      (.ok 1, .bare) ∧
    ¬ Listable (startedEngine wideHost sampleConfig) (parse [ascii "list"]) := by
  have hready : (startedEngine wideHost sampleConfig).state = .ready := by decide +kernel
  have hone : ((sqpg wideHost plainSurroundings sampleConfig [ascii "list"]).run
      (perform wideHost.cwd) .bare).1.toOption = some 1 := by decide +kernel
  obtain ⟨status, hrun, -, hzero, -⟩ :=
    @sqpg_list wideHost plainSurroundings sampleConfig [ascii "list"] .bare (by decide) (by decide)
  rw [hrun] at hone
  obtain rfl : status = 1 := Option.some.inj hone
  exact ⟨hready, hrun, fun hlistable ↦ Nat.one_ne_zero (hzero.mpr ⟨hready, by decide, hlistable⟩)⟩

end SquaredPg
