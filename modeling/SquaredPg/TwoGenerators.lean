import SquaredPg.Exclusion

namespace SquaredPg

open Ascii Program

namespace TransactionService

open FilesystemService FileSystem MetadataService

section Amid

variable {ι : Type} [DecidableEq ι] {gs : ι → Generator} {S T : Location} {s s' : Shared ι} {i : ι}
  {α : Type}

theorem amid_probe {ok : α → Shared ι → Prop} {err : EngineError → Shared ι → Prop} {op : FsOp}
    {next : FsAnswer op → FsProgram α} (hdisk : ∀ fs, (perform (gs i).cwd op fs).2 = fs)
    (hphase : ∀ phase r, (gs i).phaseAfter phase op r = phase)
    (h : ∀ s', Undisturbed S i s s' → Sound gs S T s' →
      (discipline gs S T).amid i ok err s' (next (perform (gs i).cwd op s'.disk).1)) :
    (discipline gs S T).amid i ok err s (.call op next) :=
  Discipline.amid_probe (performAs_same hdisk hphase) h

theorem amid_pure {ok : α → Shared ι → Prop} {err : EngineError → Shared ι → Prop} {a : α}
    (h : ∀ s', Undisturbed S i s s' → ok a s') :
    (discipline gs S T).amid i ok err s (pure a : FsProgram α) := h

theorem amid_fail {ok : α → Shared ι → Prop} (e : EngineError) :
    (discipline gs S T).amid i ok (fun _ _ ↦ True) s (fail e : FsProgram α) := fun _ _ ↦ trivial

theorem amid_syncUnless {err : EngineError → Shared ι → Prop} {phase : Phase} (fast : Bool)
    (path : HostPath) (hs : s.phase i = phase) :
    (discipline gs S T).amid i (fun _ s' ↦ s'.phase i = phase) err s (syncUnless fast path) := by
  unfold syncUnless
  split_ifs
  · exact amid_pure fun s₁ hrely ↦ hrely.phase.trans hs
  · refine amid_probe (fun _ ↦ rfl) (fun _ _ ↦ rfl) fun s₁ hrely _ ↦ ?_
    exact amid_pure fun s₂ hrely' ↦ (hrely'.phase.trans hrely.phase).trans hs

theorem amid_refuseExisting (target : HostPath) (hs : s.phase i = .outside) :
    (discipline gs S T).amid i (fun _ s' ↦ s'.phase i = .outside) (fun _ _ ↦ True) s
      (refuseExisting target) := by
  refine amid_probe (fun _ ↦ rfl) (fun _ _ ↦ rfl) fun s' hrely _ ↦ ?_
  cases (perform (gs i).cwd (.exists target) s'.disk).1 with
  | false => exact amid_pure fun s'' hrely' ↦ (hrely'.phase.trans hrely.phase).trans hs
  | true => exact amid_fail _

theorem amid_refuseNested (target : HostPath) (ancestors : List HostPath)
    (hs : s.phase i = .outside) :
    (discipline gs S T).amid i (fun _ s' ↦ s'.phase i = .outside) (fun _ _ ↦ True) s
      (refuseNested target ancestors) := by
  induction ancestors generalizing s with
  | nil => exact amid_pure fun s' hrely ↦ hrely.phase.trans hs
  | cons ancestor rest ih =>
    refine amid_probe (fun _ ↦ rfl) (fun _ _ ↦ rfl) fun s' hrely _ ↦ ?_
    cases (perform (gs i).cwd (.exists (recordOf ancestor)) s'.disk).1 with
    | false => exact ih (hrely.phase.trans hs)
    | true => exact amid_fail _

theorem amid_removeAll {err : EngineError → Shared ι → Prop} (hplaces : (gs i).Places S T)
    (hready : ∀ s', Undisturbed S i s s' → Sound gs S T s' → (∀ j, s'.phase j = .inside → j = i) →
      existsAt (gs i).cwd s'.disk (gs i).staging = true ∨ Blank S s'.disk) :
    (discipline gs S T).amid i (fun _ s' ↦ s'.phase i = .outside ∧ s'.Settled S) err s
      (removeAll (gs i).staging) := by
  intro s₁ hrely hsound hpermits
  have hex := hpermits (.inr rfl)
  obtain ⟨hkeeps, hnone, hphase, hblank⟩ :=
    Sound.removed hsound hplaces hex (hready s₁ hrely hsound hex)
  refine ⟨hkeeps, ?_⟩
  rw [show ((discipline gs S T).perform i (.removeAll (gs i).staging) s₁).1 = none from hnone]
  exact amid_pure fun s₂ hrely₂ ↦ ⟨hrely₂.phase.trans hphase, hrely₂.settled (.inr hblank)⟩

theorem amid_clearStaging (hplaces : (gs i).Places S T) (hs : s.phase i = .outside) :
    (discipline gs S T).amid i (fun _ s' ↦ s'.phase i = .outside ∧ s'.Settled S)
      (fun _ _ ↦ True) s (clearStaging (gs i).staging) := by
  refine amid_probe (fun _ ↦ rfl) (fun _ _ ↦ rfl) fun s₁ hrely₁ hsound₁ ↦ ?_
  have hs₁ := hrely₁.phase.trans hs
  change (discipline gs S T).amid i _ _ s₁
    (if existsAt (gs i).cwd s₁.disk (gs i).staging then removeAll (gs i).staging else pure ())
  split_ifs with hseen
  · refine amid_removeAll hplaces fun s₂ hrely₂ hsound₂ hex ↦ ?_
    -- nobody is inside, so what is there is blank or a leftover that is seen
    rcases hsound₂.leftover with ⟨⟨j, hj⟩ | hblank⟩ | hall
    · rw [hex j hj, hrely₂.phase, hs₁] at hj
      cases hj
    · exact .inr hblank
    · exact .inl (hall i)
  · have hset := hsound₁.leftover.resolve_right fun hall ↦ hseen (hall i)
    exact amid_pure fun s₂ hrely₂ ↦ ⟨hrely₂.phase.trans hs₁, hrely₂.settled hset⟩

theorem amid_createStaging (hplaces : (gs i).Places S T) (hs : s.phase i = .outside)
    (hset : s.Settled S) :
    (discipline gs S T).amid i
      (fun _ s' ↦ s'.phase i = .inside ∧
        Made s'.disk [] ((gs i).target.parts.dropLast ++ [stagingName (gs i).target]) ∧
        s'.disk.node.below S = Layout.bare)
      (fun _ _ ↦ True) s (createDirectories (gs i).staging) := by
  intro s₁ hrely hsound hpermits
  have hex := hpermits (.inl rfl)
  have hs₁ := (Undisturbed.phase hrely).trans hs
  have hblank : Blank S s₁.disk := by
    refine (Undisturbed.settled hrely hset).resolve_left ?_
    rintro ⟨j, hj⟩
    rw [hex j hj, hs₁] at hj
    cases hj
  obtain ⟨hkeeps, hcases⟩ := Sound.created hsound hplaces hs₁ hex hblank
  refine ⟨hkeeps, ?_⟩
  rcases hcases with ⟨hnone, hin, hmade, hblank'⟩ | ⟨hsome, ds, data, hway, hoff, hfile⟩
  · rw [show ((discipline gs S T).perform i (.createDirectories (gs i).staging) s₁).1 = none
      from hnone]
    refine amid_pure fun s₂ hrely₂ ↦ ?_
    have hdisk := hrely₂.frozen hin
    refine ⟨hrely₂.phase.trans hin, hdisk ▸ hmade, ?_⟩
    rw [hdisk]
    exact hblank'.bare (hplaces.located ▸ hmade _ List.prefix_rfl)
  · rw [show ((discipline gs S T).perform i (.createDirectories (gs i).staging) s₁).1 =
      some enotdir from hsome]
    refine amid_probe (fun _ ↦ rfl) (fun _ _ ↦ rfl) fun s₂ hrely₂ _ ↦ ?_
    -- the file in the way is still there, so nobody else has made the directory meanwhile
    have hthere := hrely₂.files _ data hoff hfile
    have hnot : isDirectory (gs i).cwd s₂.disk (gs i).staging = false := by
      rw [hplaces.staging_eq]
      by_contra hdir
      have hmade := made_of_isDirectory (Bool.eq_true_of_not_eq_false hdir)
      have hnode := hmade ds (hway.trans (List.prefix_append _ _))
      rw [start_absolute rfl, hthere] at hnode
      cases hnode
    rw [show (perform (gs i).cwd (.isDirectory (gs i).staging) s₂.disk).1 = false from hnot]
    exact amid_fail _

def Working (S : Location) (i : ι) (s : Shared ι) : Prop :=
  s.phase i = .inside ∧ s.disk.node S = some .dir

omit [DecidableEq ι] in
theorem Working.stable (h : Working S i s) (hrely : Undisturbed S i s s') :
    Working S i s' ∧ s'.disk = s.disk := by
  have hdisk := hrely.frozen h.1
  exact ⟨⟨hrely.phase.trans h.1, hdisk ▸ h.2⟩, hdisk⟩

theorem Working.quiet {op : FsOp} {base : FileSystem} (h : Working S i s)
    (hplaces : (gs i).Places S T) (hquiet : Quiet op) (hsound : Sound gs S T s)
    (hout : Outside S base s.disk) (hout' : Outside S base (performAs gs i op s).2.disk) :
    Working S i (performAs gs i op s).2 ∧
      (discipline gs S T).Keeps i s (performAs gs i op s).2 := by
  have hphase : (performAs gs i op s).2.phase = Function.update s.phase i .inside := by
    simp only [performAs, h.1, Generator.phaseAfter_quiet _ hquiet]
  have hstep : Outside S s.disk (performAs gs i op s).2.disk :=
    fun x hx ↦ (hout' x hx).trans (hout x hx).symm
  refine ⟨⟨by rw [hphase, Function.update_self], dir_kept hquiet h.2⟩, ?_⟩
  exact hsound.keeps hphase (fun j hj ↦ hsound.alone j i hj h.1) (.inl rfl)
    (fun x data hx hfile ↦ (hstep x hx).trans hfile) (fun _ _ _ ↦ hplaces.outside_target hstep)
    fun hp ↦ by cases hp

theorem amid_quiet {p : FsProgram α} {ok : α → FileSystem → Prop} {base : FileSystem}
    (hplaces : (gs i).Places S T) (hcalls : p.CallsOnly Quiet)
    (hp : p.wp (Behaves (gs i).cwd fun _ ↦ True) ok (fun _ fs ↦ Outside S base fs)
      (fun fs ↦ Outside S base fs) s.disk)
    (hok : ∀ a fs, ok a fs → Outside S base fs) (hs : Working S i s) :
    (discipline gs S T).amid i (fun a s' ↦ Working S i s' ∧ ok a s'.disk)
      (fun _ s' ↦ Working S i s' ∧ Outside S base s'.disk) s p :=
  Discipline.amid_of_wp (fun _ _ ↦ .inl ⟨rfl, rfl⟩) (fun _ _ h hrely ↦ h.stable hrely)
    (fun _ _ hquiet h hsound hout hout' ↦ h.quiet hplaces hquiet hsound hout hout') hok
    (fun _ _ h ↦ h) hcalls hp hs

theorem amid_rename {base : FileSystem} (hplaces : (gs i).Places S T) (hs : Working S i s)
    (hbare : base.node.below S = Layout.bare)
    (hstaged : Staged (fun _ ↦ True) (gs i).target.parts.dropLast (stagingName (gs i).target) base
      (stagedSteps (gs i).metadataRecord (gs i).plan.steps (gs i).fast) s.disk) :
    (discipline gs S T).amid i (fun _ s' ↦ s'.phase i = .landed)
      (fun _ s' ↦ Working S i s' ∧ Outside S base s'.disk) s
      (rename (gs i).staging (gs i).target) := by
  intro s₁ hrely hsound _
  obtain ⟨hs₁, hdisk⟩ := hs.stable hrely
  rw [← hdisk] at hstaged
  obtain ⟨hkeeps, ⟨hnone, hphase⟩ | ⟨hsome, hsame⟩⟩ :=
    Sound.moved hsound hplaces hs₁.1 hbare hstaged
  · refine ⟨hkeeps, ?_⟩
    rw [show ((discipline gs S T).perform i (.rename (gs i).staging (gs i).target) s₁).1 = none
      from hnone]
    exact amid_pure fun s₂ hrely₂ ↦ hrely₂.phase.trans hphase
  · obtain ⟨ec, hec⟩ := Option.ne_none_iff_exists'.mp hsome
    refine ⟨hkeeps, ?_⟩
    rw [show ((discipline gs S T).perform i (.rename (gs i).staging (gs i).target) s₁).1 = some ec
      from hec]
    intro s₂ hrely₂
    obtain ⟨hs₂, hdisk₂⟩ := hs₁.stable (hsame ▸ hrely₂)
    refine ⟨hs₂, ?_⟩
    rw [hdisk₂, ← hplaces.staging]
    exact hstaged.outside

theorem amid_build (hplaces : (gs i).Places S T) (hs : Working S i s)
    (hmade : Made s.disk [] ((gs i).target.parts.dropLast ++ [stagingName (gs i).target]))
    (hbare : s.disk.node.below S = Layout.bare) :
    (discipline gs S T).amid i (fun _ s' ↦ s'.phase i = .landed)
      (fun _ s' ↦ Working S i s' ∧ Outside S s.disk s'.disk) s
      (build (gs i).staging (gs i).target (gs i).plan (gs i).metadataRecord (gs i).fast) := by
  have hout : ∀ done fs, Staged (fun _ ↦ True) (gs i).target.parts.dropLast
      (stagingName (gs i).target) s.disk done fs → Outside S s.disk fs :=
    fun _ _ h ↦ hplaces.staging ▸ h.outside
  unfold build
  refine Discipline.amid_bind (amid_quiet hplaces
    ((callsOnly_foldlM applyStep_building _ _).mono Building.quiet) (steps_staged hplaces hmade)
    (fun _ fs h ↦ hout _ fs h.1) hs) ?_
  intro outcome s₁ hdone
  obtain ⟨hs₁, hstaged, hhashes⟩ := hdone
  refine Discipline.amid_bind (amid_quiet hplaces ((writeRecord_building _).mono Building.quiet)
    (record_staged hplaces hstaged) (fun _ fs h ↦ hout _ fs h) hs₁) ?_
  intro _ s₂ hrecorded
  obtain ⟨hs₂, hstaged₂⟩ := hrecorded
  rw [hhashes] at hstaged₂
  refine Discipline.amid_bind (amid_rename hplaces hs₂ hbare hstaged₂) fun _ s₃ hlanded ↦ ?_
  exact amid_pure fun s₄ hrely ↦ hrely.phase.trans hlanded

theorem amid_abortWith {base : FileSystem} {ok : α → Shared ι → Prop} (hplaces : (gs i).Places S T)
    (hs : Working S i s) (hout : Outside S base s.disk)
    (hmade : Made base [] ((gs i).target.parts.dropLast ++ [stagingName (gs i).target]))
    (e : EngineError) :
    (discipline gs S T).amid i ok (fun _ _ ↦ True) s
      (abortWith (gs i).staging e : FsProgram α) := by
  have hready : ∀ s', Undisturbed S i s s' →
      existsAt (gs i).cwd s'.disk (gs i).staging = true := by
    intro s₁ hrely
    obtain ⟨hs₁, hdisk⟩ := hs.stable hrely
    rw [← hdisk] at hout
    exact existsAt_staging hplaces hmade hout hs₁.2
  have hremove : (discipline gs S T).amid i (fun _ s' ↦ s'.phase i = .outside ∧ s'.Settled S)
      (fun _ _ ↦ False) s (removeAll (gs i).staging) :=
    amid_removeAll hplaces fun s₁ hrely _ _ ↦ .inl (hready s₁ hrely)
  refine Discipline.amid_bind (Discipline.amid_handle hremove fun _ _ herr ↦ herr.elim) ?_
  exact fun _ _ _ ↦ amid_fail e

/-- A process that runs `apply` amid others that do so has landed when it reports success. -/
theorem amid_apply (hplaces : (gs i).Places S T) (hs : s.phase i = .outside) :
    (discipline gs S T).amid i (fun _ s' ↦ s'.phase i = .landed) (fun _ _ ↦ True) s
      (gs i).program := by
  refine Discipline.amid_bind (amid_refuseExisting _ hs) fun _ s₁ hs₁ ↦ ?_
  refine Discipline.amid_bind (amid_refuseNested _ _ hs₁) fun _ s₂ hs₂ ↦ ?_
  refine Discipline.amid_bind (amid_clearStaging hplaces hs₂) fun _ s₃ hs₃ ↦ ?_
  refine Discipline.amid_bind (amid_createStaging hplaces hs₃.1 hs₃.2) ?_
  intro _ s₄ hcreated
  obtain ⟨hin, hmade, hbare⟩ := hcreated
  have hs₄ : Working S i s₄ := ⟨hin, hplaces.located ▸ hmade _ List.prefix_rfl⟩
  refine Discipline.amid_bind (Discipline.amid_handle (amid_build hplaces hs₄ hmade hbare) ?_) ?_
  · intro e s₅ herr
    exact amid_abortWith hplaces herr.1 herr.2 hmade e
  · intro outcome s₅ hlanded
    have hend : ∀ s₆, s₆.phase i = .landed →
        (discipline gs S T).amid i (fun _ s' ↦ s'.phase i = .landed) (fun _ _ ↦ True) s₆
          (pure outcome : FsProgram Outcome) :=
      fun s₆ hs₆ ↦ amid_pure fun s₇ hrely ↦ hrely.phase.trans hs₆
    split_ifs
    · exact Discipline.amid_bind (amid_syncUnless _ _ hlanded) fun _ s₆ hs₆ ↦ hend s₆ hs₆
    · exact hend s₅ hlanded

end Amid

def stagingBeside (l : Location) : Location :=
  l.dropLast ++ [ascii "." ++ l.getLast?.getD [] ++ ascii ".squared-tmp"]

theorem stagingLocation_beside {target : HostPath} (h : Beside target) :
    stagingLocation target.parts.dropLast (stagingName target) =
      stagingBeside (targetLocation target) := by
  rw [h.targetLocation, stagingBeside, stagingLocation, stagingName]
  simp

section Runs

variable {ι : Type} [DecidableEq ι] {gs : ι → Generator} {T : Location} {fs : FileSystem}
  {schedule : List ι}

theorem places_of_clear {g : Generator} (hcwd : ∀ c ∈ g.cwd, Plain c)
    (hsteps : ∀ step ∈ g.plan.steps, Inside step.path) (hsame : targetLocation g.target = T)
    (hname : Plain g.target.filename)
    (hclear : Clear g.cwd g.target.parts.dropLast (stagingName g.target) fs)
    (hapart : ∀ ds, ds <+: g.target.parts.dropLast → T <+: locate [] ds → locate [] ds = T) :
    g.Places (stagingBeside T) T := by
  have hstaging := stagingLocation_beside (beside_of_plain hname)
  rw [hsame] at hstaging
  have hway := hclear.way
  rw [hstaging] at hway
  exact ⟨hcwd, hsteps, hname, hsame, hstaging, hway, hapart⟩

/-- Any number of processes generate into one target, which each names with an ordinary name at the
end, on a way that leads neither into the target nor into the staging directory, and from where
what was left over there is seen. In a run in which nobody makes or removes the staging directory
while another process is inside, at most one reports success, and then its whole workspace is at the
target with its record. -/
theorem exclusive_oneWinner (hcwd : ∀ i, ∀ c ∈ (gs i).cwd, Plain c)
    (hsteps : ∀ i, ∀ step ∈ (gs i).plan.steps, Inside step.path)
    (hsame : ∀ i, targetLocation (gs i).target = T)
    (hname : ∀ i, Plain (gs i).target.filename)
    (hclear : ∀ i, Clear (gs i).cwd (gs i).target.parts.dropLast (stagingName (gs i).target) fs)
    (hapart : ∀ i ds, ds <+: (gs i).target.parts.dropLast → T <+: locate [] ds → locate [] ds = T)
    (hexclusive : (start gs fs).Permitted (performAs gs) (Exclusive gs) schedule) :
    OneWinner gs ((start gs fs).run (performAs gs) schedule) := by
  have hplaces : ∀ i, (gs i).Places (stagingBeside T) T := fun i ↦
    places_of_clear (hcwd i) (hsteps i) (hsame i) (hname i) (hclear i) (hapart i)
  have hsound : Sound gs (stagingBeside T) T (start gs fs).state := by
    refine ⟨fun i j hi ↦ (by cases hi), ?_, fun i j hi ↦ (by cases hi), fun i hi ↦ (by cases hi)⟩
    by_cases hnone : fs.node (stagingBeside T) = none
    · exact .inl (.inr (blank_of_none hnone))
    · refine .inr fun i ↦ ?_
      have hseen := (hclear i).seen
      rw [(hplaces i).staging, ← (hplaces i).staging_eq] at hseen
      exact hseen.resolve_left hnone
  have hrun : Sound gs (stagingBeside T) T ((start gs fs).run (performAs gs) schedule).state ∧
      ∀ i, (discipline gs (stagingBeside T) T).amid i (fun _ s ↦ s.phase i = .landed)
        (fun _ _ ↦ True) ((start gs fs).run (performAs gs) schedule).state
        (((start gs fs).run (performAs gs) schedule).left i) :=
    Discipline.amid_run (D := discipline gs (stagingBeside T) T) hsound
      (fun i ↦ amid_apply (hplaces i) rfl) hexclusive
  obtain ⟨hsound', hamid⟩ := hrun
  have hlanded : ∀ i, (((start gs fs).run (performAs gs) schedule).left i).succeeded = true →
      ((start gs fs).run (performAs gs) schedule).state.phase i = .landed := by
    intro i hi
    obtain ⟨outcome, hdone⟩ := exists_of_succeeded hi
    have hend := hamid i
    rw [hdone] at hend
    exact hend _ (.refl _ i _)
  refine ⟨fun i j hi hj ↦ hsound'.winner i j (hlanded i hi) (hlanded j hj), fun i hi ↦ ?_⟩
  rw [hsame i]
  exact hsound'.tree i (hlanded i hi)

end Runs

instance (gs : Bool → Generator) (i : Bool) (op : FsOp) (s : Shared Bool) :
    Decidable (Exclusive gs i op s) := by
  unfold Exclusive
  infer_instance

def rivals (second : Bool) : Generator where
  cwd := []
  plan := samplePlan "/b" [{ path := ascii (if second then "y" else "x"), content := ascii "go" }]
  metadataRecord := .object []
  fast := true

/-- One process looks for the target before the other generates, and goes on afterwards. -/
def overtaking : List Bool := true :: List.replicate 12 false ++ List.replicate 12 true

theorem overtaking_oneWinner :
    OneWinner rivals ((start rivals .bare).run (performAs rivals) overtaking) ∧
      (((start rivals .bare).run (performAs rivals) overtaking).left false).succeeded = true := by
  have hsteps : ∀ second, ∀ step ∈ (rivals second).plan.steps, Inside step.path := by
    have hnormal : ∀ second, ∀ step ∈ (rivals second).plan.steps,
        step.path ≠ [] ∧ normalizeRelative step.path = step.path ∧
          StartsWithDrive isLetter (kept step.path) = false := by decide
    exact fun second step hstep ↦ (confined_of_normal (hnormal second step hstep)).inside
  refine ⟨exclusive_oneWinner (T := [ascii "b"]) (by decide) hsteps (by decide) (by decide)
    (fun second ↦ ?_) ?_ (by decide +kernel), by decide +kernel⟩
  · exact clear_of_direct (plain_stagingName _) (direct_of_plain (by cases second <;> decide))
  · intro second ds hds hp
    have hnil : (rivals second).target.parts.dropLast = [] := by cases second <;> decide
    rw [hnil, List.prefix_nil] at hds
    subst hds
    exact absurd hp (by decide)

/-- One process takes for a leftover what the other has staged, and starts over there; the other then
moves the empty directory into place, and the first its workspace over it. -/
def collision : List Bool :=
  List.replicate 11 false ++ List.replicate 4 true ++ [false] ++ List.replicate 9 true

theorem collision_two_winners :
    ¬ OneWinner rivals ((start rivals .bare).run (performAs rivals) collision) := by
  intro h
  have heq := h.unique false true (by decide +kernel) (by decide +kernel)
  cases heq

end TransactionService

end SquaredPg
