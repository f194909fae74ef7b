import SquaredPg.Atomicity
import SquaredPg.OutputLocation

namespace Program

variable {Op : Type} {Ans : Op → Type} {ε ε' α S : Type} {Q : Op → Prop}
  {step : (op : Op) → S → Option (Ans op) → S → Prop}

theorem wp_unchanged (hsame : ∀ op s r s', Q op → step op s r s' → s' = s)
    {p : Program Op Ans ε α} (hp : p.CallsOnly Q) (s : S) :
    p.wp step (fun _ s' ↦ s' = s) (fun _ s' ↦ s' = s) (fun s' ↦ s' = s) s := by
  induction p generalizing s with
  | done a => rfl
  | fail e => rfl
  | call op next ih =>
    refine wp_call rfl (fun s' hstep ↦ hsame op s none s' hp.1 hstep) fun r s' hstep ↦ ?_
    obtain rfl := hsame op s (some r) s' hp.1 hstep
    exact ih r (hp.2 r) s'

end Program

namespace SquaredPg

open Ascii Fallible Program

namespace FilesystemService

open FileSystem

variable {cwd : Location} {trusted : FsOp → Prop} {fs fs' : FileSystem}

theorem ReadsOnly.same {op : FsOp} {r : Option (FsAnswer op)} (h : ReadsOnly op)
    (hstep : Behaves cwd trusted op fs r fs') : fs' = fs := by
  obtain ⟨path, rfl⟩ := h
  rcases hstep with ⟨-, hsame⟩ | ⟨⟨hsame, -⟩, -⟩
  · exact hsame
  · exact hsame

end FilesystemService

namespace Engine

open FilesystemService FileSystem MetadataService TransactionService

variable {cwd : Location} {trusted : FsOp → Prop} {fs fs' : FileSystem} {host : Host}
  {engine : Engine} {params : Value}

/-- The transaction of a plan was given up or cut off, or it went through. -/
def Transacts (trusted : FsOp → Prop) (host : Host) (engine : Engine) (plan : GenerationPlan)
    (fs fs' : FileSystem) : Prop :=
  Reached (targetOf host.cwd plan).parts.dropLast (stagingName (targetOf host.cwd plan)) fs fs' ∨
    Committed host.cwd trusted (targetOf host.cwd plan) (engine.transactionSteps plan) fs fs'

theorem generateProject_transacts (hcwd : ∀ c ∈ host.cwd, Plain c)
    {done : OperationResult → FileSystem → Prop} {stop : FileSystem → Prop}
    (hsame : stop fs ∧ ∀ result, done result fs)
    (hplan : ∀ plan, engine.planFor host params = .ok plan → ∀ fs',
      Transacts trusted host engine plan fs fs' → stop fs' ∧ ∀ result, done result fs') :
    (engine.generateProject host params).wp (Behaves host.cwd trusted) done (fun _ _ ↦ True) stop
      fs := by
  unfold generateProject
  cases hfor : engine.planFor host params with
  | error e => exact hsame.2 _
  | ok plan =>
    obtain ⟨set, diagnostics, hbuild⟩ := buildPlan_of_planFor hfor
    have hany := hplan plan hfor
    dsimp only
    rw [wp_bind, wp_attempt]
    refine wp_mono (apply_wp hcwd (inside_of_buildPlan hbuild)) (fun outcome fs' h ↦ ?_)
      (fun e fs' h ↦ ?_) fun fs' h ↦ ?_
    · exact (hany fs' (.inr h)).2 _
    · exact (hany fs' (.inl h)).2 _
    · exact (hany fs' h).1

def Undertakes (host : Host) (engine : Engine) (call : Call) (plan : GenerationPlan) : Prop :=
  ∃ operation params found, call = .execute operation params ∧
    engine.admission operation params = .ok found ∧ found.handler = .projectGenerate ∧
    engine.planFor host params = .ok plan

theorem serve_wp (hcwd : ∀ c ∈ host.cwd, Plain c) (call : Call) (fs : FileSystem) :
    (engine.serve host call).wp (Behaves host.cwd trusted)
      (fun _ fs' ↦ fs' = fs ∨ ∃ plan, Undertakes host engine call plan ∧
        Transacts trusted host engine plan fs fs') (fun _ _ ↦ True)
      (fun fs' ↦ fs' = fs ∨ ∃ plan, Undertakes host engine call plan ∧
        Transacts trusted host engine plan fs fs') fs := by
  cases call with
  | initialize_ => exact .inl rfl
  | shutdown => exact .inl rfl
  | execute operation params =>
    rw [serve, execute]
    cases hadmission : engine.admission operation params with
    | error e => exact .inl rfl
    | ok found =>
      dsimp only
      rw [wp_bind]
      by_cases hhandler : found.handler = .projectGenerate
      · rw [hhandler]
        refine generateProject_transacts hcwd ⟨.inl rfl, fun _ ↦ .inl rfl⟩ fun plan hplan fs' h ↦ ?_
        have hundertakes : Undertakes host engine (.execute operation params) plan :=
          ⟨operation, params, found, rfl, hadmission, hhandler, hplan⟩
        exact ⟨.inr ⟨plan, hundertakes, h⟩, fun _ ↦ .inr ⟨plan, hundertakes, h⟩⟩
      · have hreads : (({ engine with state := .operating } : Engine).handle host params
            found.handler).CallsOnly ReadsOnly := handle_readsOnly hhandler
        refine wp_mono (wp_unchanged (fun _ _ _ _ h hstep ↦ h.same hstep) hreads fs) ?_ ?_ ?_
        · rintro result fs' rfl
          exact .inl rfl
        · exact fun _ _ _ ↦ trivial
        · exact fun fs' h ↦ .inl h

def StagingName (c : Bytes) : Prop := ascii "." <+: c ∧ ascii ".squared-tmp" <:+ c

instance : DecidablePred StagingName := fun c ↦ by unfold StagingName; infer_instance

/-- The location is neither a staging directory nor in one. -/
def Unstaged (x : Location) : Prop := ∀ c ∈ x, ¬ StagingName c

/-- What was there is as it was, but for what lies in staging directories. -/
def Spares (fs fs' : FileSystem) : Prop :=
  ∀ x, Unstaged x → fs.node x ≠ none → fs'.node x = fs.node x

def HoldsPlan (host : Host) (engine : Engine) (plan : GenerationPlan) (fs : FileSystem) : Prop :=
  ∃ base f, base [] = some .dir ∧
    (engine.transactionSteps plan).foldlM stepLayout base = some f ∧
    ∀ y, Unstaged (targetLocation (targetOf host.cwd plan) ++ y) → f y ≠ none →
      fs.node (targetLocation (targetOf host.cwd plan) ++ y) = f y

/-- Every file that is new lies in a workspace that is there as a whole. -/
def BringsWhole (host : Host) (engine : Engine) (plan : GenerationPlan) (fs fs' : FileSystem) :
    Prop :=
  ∀ x data, Unstaged x → fs.node x = none → fs'.node x = some (.file data) →
    targetLocation (targetOf host.cwd plan) <+: x ∧ HoldsPlan host engine plan fs'

theorem Spares.refl (fs : FileSystem) : Spares fs fs := fun _ _ _ ↦ rfl

theorem Spares.trans {fs'' : FileSystem} (h : Spares fs fs') (h' : Spares fs' fs'') :
    Spares fs fs'' := by
  intro x hx hthere
  have hsame := h x hx hthere
  rw [h' x hx (hsame ▸ hthere), hsame]

theorem HoldsPlan.spares {plan : GenerationPlan} (h : HoldsPlan host engine plan fs)
    (hspares : Spares fs fs') : HoldsPlan host engine plan fs' := by
  obtain ⟨base, f, hbase, hsteps, hall⟩ := h
  refine ⟨base, f, hbase, hsteps, fun y hy hthere ↦ ?_⟩
  have hnode := hall y hy hthere
  rw [hspares _ hy (hnode ▸ hthere), hnode]

theorem stagingName_stagingName (target : HostPath) : StagingName (stagingName target) := by
  refine ⟨?_, List.suffix_append _ _⟩
  rw [stagingName, List.append_assoc]
  exact List.prefix_append _ _

theorem Unstaged.outside {x : Location} {target : HostPath} (h : Unstaged x) :
    ¬ stagingLocation target.parts.dropLast (stagingName target) <+: x := by
  intro hp
  exact h _ (hp.subset (by simp [stagingLocation])) (stagingName_stagingName target)

theorem spares_of_reached {target : HostPath}
    (h : Reached target.parts.dropLast (stagingName target) fs fs') : Spares fs fs' := by
  intro x hx hthere
  refine (h x hx.outside).resolve_right ?_
  rintro ⟨hnone, -⟩
  exact hthere hnone

theorem spares_of_committed {target : HostPath} {steps : List PlanStep}
    (hwf : WellFormed target) (h : Committed cwd trusted target steps fs fs') : Spares fs fs' := by
  intro x hx hthere
  obtain ⟨base, hprepared, staged, hstaged, hrenamed⟩ := h
  have htmp := plain_stagingName target
  obtain ⟨-, hmovable, hover, rfl⟩ := Renamed.beside hwf hstaged.made hrenamed
  have hsame : staged.node x = fs.node x := by
    rw [hstaged.outside x hx.outside]
    exact spares_of_reached hprepared.reached x hx hthere
  rw [FileTree.node_move hmovable]
  split_ifs with htarget hstaging
  · have hempty := FileTree.emptyBelow_iff.mp hmovable.2.2.2.2.2 x htarget
    have heq : x = targetLocation target := by
      by_contra hne
      exact hthere (hsame ▸ hempty hne)
    have hdir : staged.node (stagingLocation target.parts.dropLast (stagingName target)) =
        some .dir := locate_staging htmp ▸ hstaged.made _ List.prefix_rfl
    rw [heq, List.drop_length, List.append_nil, hdir, ← heq]
    unfold replaceable at hover
    rw [← heq, hsame] at hover
    cases hnode : fs.node x with
    | none => exact absurd hnode hthere
    | some e =>
      rw [hnode, FileTree.isDir_iff.mpr hdir] at hover
      cases e with
      | dir => rfl
      | file data => simp [Entry.isDir] at hover
  · exact absurd hstaging hx.outside
  · exact hsame

theorem Transacts.spares {plan : GenerationPlan} (hcwd : ∀ c ∈ host.cwd, Plain c)
    (h : Transacts trusted host engine plan fs fs') : Spares fs fs' := by
  rcases h with hreached | hcommitted
  · exact spares_of_reached hreached
  · exact spares_of_committed (targetOf_wellFormed hcwd plan) hcommitted

theorem Transacts.bringsWhole {plan : GenerationPlan} (hcwd : ∀ c ∈ host.cwd, Plain c)
    (hclose : ∀ p w, trusted (.close p w)) (h : Transacts trusted host engine plan fs fs') :
    BringsWhole host engine plan fs fs' := by
  intro x data hx hnone hfile
  rcases h with hreached | hcommitted
  · rcases hreached x hx.outside with hsame | ⟨-, hdir, -⟩
    · rw [hsame, hnone] at hfile
      cases hfile
    · rw [hdir] at hfile
      cases hfile
  · have hwf := targetOf_wellFormed hcwd plan
    obtain ⟨base, hroot, hlayout, -⟩ := hcommitted.layout hwf hclose
    refine ⟨?_, base, _, hroot, hlayout, fun y _ _ ↦ rfl⟩
    by_contra htarget
    rcases hcommitted.keepsOutside hwf x htarget with hsame | ⟨-, hdir, -⟩ | ⟨hstaging, -⟩
    · rw [hsame, hnone] at hfile
      cases hfile
    · rw [hdir] at hfile
      cases hfile
    · exact hx.outside hstaging

end Engine

namespace Engine

variable {S : Type} {step : (op : FsOp) → S → Option (FsAnswer op) → S → Prop}
  {engine engine' : Engine} {event : Event} {host : Host} {call : Call} {plan : GenerationPlan}

theorem mutates_of_builtin : ∀ found ∈ builtinOperations, found.handler = .projectGenerate →
    found.descriptor.mutatesWorkspace = true := by decide +kernel

/-- The operations are registered once, or not yet. -/
structure Furnished (engine : Engine) : Prop where
  registry : engine.registry = {} ∨ engine.registry = .builtin
  fresh : engine.state = .created → engine.registry = {}

theorem furnished_create (config : EngineConfig) : (create config).Furnished :=
  ⟨.inl rfl, fun _ ↦ rfl⟩

theorem Furnished.serves (h : engine.Furnished) (hserves : Serves step engine event engine') :
    engine'.Furnished := by
  rcases serves_cases hserves with ⟨-, rfl⟩ | ⟨-, hcreated, hstarted⟩ | rfl
  · exact ⟨h.registry, h.fresh⟩
  · have hregistry := registry_registered (h.fresh hcreated)
    generalize engine.registered = filled at hstarted hregistry
    rcases hstarted with ⟨-, rfl⟩ | ⟨index, diagnostics, -, rfl⟩
    · exact ⟨.inr hregistry, fun hstate ↦ by cases hstate⟩
    · exact ⟨.inr hregistry, fun hstate ↦ by cases hstate⟩
  · exact ⟨h.registry, fun hstate ↦ by cases hstate⟩

/-- The call is one of an operation whose descriptor says that it mutates a workspace. -/
def Mutates (engine : Engine) (call : Call) : Prop :=
  ∃ operation params found, call = .execute operation params ∧
    engine.findOperation operation = some found ∧ found.descriptor.mutatesWorkspace = true

theorem Furnished.builtin (h : engine.Furnished) {operation : Bytes} {found : Operation}
    (hfound : engine.findOperation operation = some found) : found ∈ builtinOperations := by
  have hmem : found ∈ engine.operations := List.mem_of_find?_eq_some hfound
  rcases h.registry with hnone | hall
  · have hoperations : engine.operations = [] := congrArg Registry.operations hnone
    rw [hoperations] at hmem
    cases hmem
  · have hoperations : engine.operations = builtinOperations := congrArg Registry.operations hall
    exact hoperations ▸ hmem

theorem Furnished.mutates (h : engine.Furnished) (hcall : Undertakes host engine call plan) :
    engine.Mutates call := by
  obtain ⟨operation, params, found, rfl, hadmission, hhandler, -⟩ := hcall
  obtain ⟨-, hfound, -⟩ := admission_eq_ok.mp hadmission
  exact ⟨operation, params, found, rfl, hfound, mutates_of_builtin found (h.builtin hfound) hhandler⟩

end Engine

open Engine FileSystem TransactionService

/-- The engine of the running process, and the file system. -/
structure Session where
  engine : Engine
  files : FileSystem

inductive Deed
  | start (config : EngineConfig)
  | call (host : Host) (engine : Engine) (call : Call)

/-- A call is answered, or an exception goes through it, or the process is killed in it and
another one starts. -/
inductive Session.Step (trusted : FsOp → Prop) : Session → Deed → Session → Prop
  | start (session : Session) (config : EngineConfig) :
      Step trusted session (.start config) ⟨create config, session.files⟩
  | answer {host : Host} {engine engine' : Engine} {fs fs' : FileSystem} {call : Call}
      {result : OperationResult} : (∀ c ∈ host.cwd, Plain c) →
      Exec (Behaves host.cwd trusted) (engine.serve host call) fs (.ok (result, engine')) fs' →
      Step trusted ⟨engine, fs⟩ (.call host engine call) ⟨engine', fs'⟩
  | throw {host : Host} {engine : Engine} {fs fs' : FileSystem} {call : Call} :
      (∀ c ∈ host.cwd, Plain c) →
      Exec (Behaves host.cwd trusted) (engine.serve host call) fs .stopped fs' →
      Step trusted ⟨engine, fs⟩ (.call host engine call) ⟨{ engine with state := .operating }, fs'⟩
  | kill {host : Host} {engine : Engine} {fs fs' : FileSystem} {call : Call}
      (config : EngineConfig) : (∀ c ∈ host.cwd, Plain c) →
      Exec (Behaves host.cwd trusted) (engine.serve host call) fs .stopped fs' →
      Step trusted ⟨engine, fs⟩ (.call host engine call) ⟨create config, fs'⟩

def Deed.Mutates : Deed → Prop
  | .start _ => False
  | .call _ engine made => engine.Mutates made

/-- The deed is a generation, and what it was to make is there, around the location. -/
def Deed.Made (x : Location) (fs : FileSystem) (deed : Deed) : Prop :=
  ∃ host engine call plan, deed = .call host engine call ∧ Undertakes host engine call plan ∧
    targetLocation (targetOf host.cwd plan) <+: x ∧ HoldsPlan host engine plan fs

variable {trusted : FsOp → Prop} {session session' : Session} {deed : Deed} {deeds : List Deed}
  {config : EngineConfig} {fs : FileSystem}

theorem Session.Step.furnished (h : Session.Step trusted session deed session')
    (hengine : session.engine.Furnished) : session'.engine.Furnished := by
  cases h with
  | start _ config => exact furnished_create config
  | @answer host engine engine' fs fs' call result _ hexec =>
    have hserves : Serves (Behaves host.cwd trusted) engine ⟨engine, call, result, engine'⟩ engine' :=
      ⟨rfl, rfl, host, fs, fs', hexec⟩
    exact hengine.serves hserves
  | throw _ _ => exact ⟨hengine.registry, fun hstate ↦ by cases hstate⟩
  | kill config _ _ => exact furnished_create config

theorem Session.Step.transacts (h : Session.Step trusted session deed session') :
    session'.files = session.files ∨ ∃ host call plan,
      deed = .call host session.engine call ∧ (∀ c ∈ host.cwd, Plain c) ∧
      Undertakes host session.engine call plan ∧
      Transacts trusted host session.engine plan session.files session'.files := by
  cases h with
  | start _ config => exact .inl rfl
  | answer hcwd hexec =>
    have hmeets := hexec.sound (serve_wp hcwd _ _)
    exact hmeets.imp_right fun ⟨plan, hplan, h⟩ ↦ ⟨_, _, plan, rfl, hcwd, hplan, h⟩
  | throw hcwd hexec =>
    have hmeets := hexec.sound (serve_wp hcwd _ _)
    exact hmeets.imp_right fun ⟨plan, hplan, h⟩ ↦ ⟨_, _, plan, rfl, hcwd, hplan, h⟩
  | kill config hcwd hexec =>
    have hmeets := hexec.sound (serve_wp hcwd _ _)
    exact hmeets.imp_right fun ⟨plan, hplan, h⟩ ↦ ⟨_, _, plan, rfl, hcwd, hplan, h⟩

theorem Session.Step.spares (h : Session.Step trusted session deed session') :
    Spares session.files session'.files := by
  rcases h.transacts with hsame | ⟨host, call, plan, -, hcwd, -, htransacts⟩
  · rw [hsame]
    exact .refl _
  · exact htransacts.spares hcwd

theorem Session.Step.unchanged (h : Session.Step trusted session deed session')
    (hengine : session.engine.Furnished) (hdeed : ¬ deed.Mutates) :
    session'.files = session.files := by
  refine h.transacts.resolve_right ?_
  rintro ⟨host, call, plan, rfl, -, hplan, -⟩
  exact hdeed (hengine.mutates hplan)

theorem Session.Step.whole (hclose : ∀ p w, trusted (.close p w))
    (h : Session.Step trusted session deed session') {x : Location} {data : FileData}
    (hx : Unstaged x) (hnone : session.files.node x = none)
    (hfile : session'.files.node x = some (.file data)) : deed.Made x session'.files := by
  rcases h.transacts with hsame | ⟨host, call, plan, hdeed, hcwd, hplan, htransacts⟩
  · rw [hsame, hnone] at hfile
    cases hfile
  · obtain ⟨htarget, hholds⟩ := htransacts.bringsWhole hcwd hclose x data hx hnone hfile
    exact ⟨host, session.engine, call, plan, hdeed, hplan, htarget, hholds⟩

theorem session_spares_files (h : Runs (Session.Step trusted) session deeds session') :
    Spares session.files session'.files :=
  h.invariant (I := fun later ↦ Spares session.files later.files)
    (fun _ _ _ hspares hstep ↦ hspares.trans hstep.spares) (.refl _)

/-- Whatever fails and wherever a process is killed, what was there stays as it was; and nothing
changes at all without a call of an operation that is declared to mutate a workspace. -/
theorem session_spares (h : Runs (Session.Step trusted) ⟨create config, fs⟩ deeds session) :
    Spares fs session.files ∧ ((∀ deed ∈ deeds, ¬ deed.Mutates) → session.files = fs) := by
  refine ⟨session_spares_files h, fun hdeeds ↦ ?_⟩
  have hkept : ∀ {first last : Session} {deeds}, Runs (Session.Step trusted) first deeds last →
      first.engine.Furnished → (∀ deed ∈ deeds, ¬ deed.Mutates) → last.files = first.files := by
    intro first last deeds hruns hengine hdeeds
    induction hruns with
    | nil => rfl
    | cons hstep _ ih =>
      obtain ⟨hdeed, hrest⟩ := List.forall_mem_cons.mp hdeeds
      exact (ih (hstep.furnished hengine) hrest).trans (hstep.unchanged hengine hdeed)
  exact hkept h (furnished_create config) hdeeds

/-- A file that a session has brought belongs to a generated workspace that is there as a whole. -/
theorem session_whole (hclose : ∀ p w, trusted (.close p w))
    (h : Runs (Session.Step trusted) session deeds session') {x : Location} {data : FileData}
    (hx : Unstaged x) (hnone : session.files.node x = none)
    (hfile : session'.files.node x = some (.file data)) :
    ∃ deed ∈ deeds, deed.Made x session'.files := by
  induction h with
  | nil =>
    rw [hnone] at hfile
    cases hfile
  | @cons first next last deed deeds hstep hrest ih =>
    by_cases hnext : next.files.node x = none
    · obtain ⟨deed, hmem, hmade⟩ := ih hnext hfile
      exact ⟨deed, List.mem_cons_of_mem _ hmem, hmade⟩
    · have hspares := session_spares_files hrest
      rw [hspares x hx hnext] at hfile
      obtain ⟨host, engine, call, plan, hdeed, hplan, htarget, hholds⟩ :=
        hstep.whole hclose hx hnone hfile
      exact ⟨deed, List.mem_cons_self, host, engine, call, plan, hdeed, hplan, htarget,
        hholds.spares hspares⟩

theorem runs_generated (trusted : FsOp → Prop) : ∃ deeds engine,
    Runs (Session.Step trusted) ⟨create sampleConfig, .bare⟩ deeds
      ⟨engine, (sampleEngine.generate sampleHost (sampleRequest "b") .bare).2⟩ := by
  have hexec := exec_perform sampleHost.cwd trusted
    (sampleEngine.serve sampleHost (.execute projectGenerate (sampleRequest "b"))) .bare
  have hcwd : ∀ c ∈ sampleHost.cwd, Plain c := by simp [sampleHost]
  cases hrun : sampleEngine.generate sampleHost (sampleRequest "b") .bare with
  | mk out after =>
    cases out with
    | error e => exact e.elim
    | ok served =>
      rw [generate] at hrun
      rw [serve, hrun] at hexec
      have hgenerate : Session.Step trusted ⟨sampleEngine, .bare⟩
          (.call sampleHost sampleEngine (.execute projectGenerate (sampleRequest "b")))
          ⟨served.2, after⟩ := .answer hcwd hexec
      have hstart : Session.Step trusted ⟨create sampleConfig, .bare⟩
          (.call sampleHost (create sampleConfig) .initialize_) ⟨sampleEngine, .bare⟩ :=
        @Session.Step.answer trusted sampleHost (create sampleConfig) sampleEngine .bare .bare
          .initialize_ ((create sampleConfig).initialize_ sampleHost).1 hcwd (.done _ _)
      exact ⟨_, served.2, .cons hstart (.cons hgenerate (.nil _))⟩

theorem generated_spares : ∃ deeds session,
    Runs (Session.Step fun _ ↦ False) ⟨create sampleConfig, .bare⟩ deeds session ∧
    Spares .bare session.files ∧
      ((∀ deed ∈ deeds, ¬ deed.Mutates) → session.files = FileTree.bare) := by
  obtain ⟨deeds, engine, hruns⟩ := runs_generated fun _ ↦ False
  exact ⟨deeds, _, hruns, session_spares hruns⟩

def recordLocation : Location := [ascii "b", ascii ".squared", ascii "metadata.json"]

theorem generated_whole : ∃ deeds session data,
    Runs (Session.Step fun _ ↦ True) ⟨create sampleConfig, .bare⟩ deeds session ∧
    session.files.node recordLocation = some (.file data) ∧
      ∃ deed ∈ deeds, deed.Made recordLocation session.files := by
  obtain ⟨deeds, engine, hruns⟩ := runs_generated fun _ ↦ True
  have hfile : ((sampleEngine.generate sampleHost (sampleRequest "b") .bare).2.node.fileAt
      recordLocation).isSome = true := by decide +kernel
  obtain ⟨data, hdata⟩ := Option.isSome_iff_exists.mp hfile
  rw [Layout.fileAt_eq_some] at hdata
  have hunstaged : Unstaged recordLocation := by
    unfold Unstaged
    decide
  exact ⟨deeds, _, data, hruns, hdata,
    session_whole (fun _ _ ↦ trivial) hruns hunstaged rfl hdata⟩

end SquaredPg
