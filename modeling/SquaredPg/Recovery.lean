import SquaredPg.ApplySucceeds
import SquaredPg.Runs

namespace SquaredPg

open Ascii Fallible Program

namespace TransactionService

open FilesystemService FileSystem MetadataService

variable {cwd : Location} {plan : GenerationPlan} {metadataRecord : Value} {fast : Bool}
  {fs fs' fs'' : FileSystem} {target : HostPath} {f g : Layout Bytes FileData}
  {outs : List (Program.Outcome EngineError Outcome)} {outcome : Outcome}

/-- One run of the transaction, in which operations fail and which may be cut off. -/
def Attempt (cwd : Location) (plan : GenerationPlan) (metadataRecord : Value) (fast : Bool)
    (fs : FileSystem) (out : Program.Outcome EngineError Outcome) (fs' : FileSystem) : Prop :=
  Exec (Behaves cwd (Unseen (targetOf cwd plan))) (apply cwd plan metadataRecord fast) fs out fs'

theorem OnlyAncestors.refl (target : HostPath) (fs : FileSystem) : OnlyAncestors target fs fs :=
  fun _ _ ↦ .inl rfl

theorem OnlyAncestors.trans (h : OnlyAncestors target fs fs') (h' : OnlyAncestors target fs' fs'') :
    OnlyAncestors target fs fs'' := by
  intro x hx
  rcases h' x hx with hsame | ⟨hnone, hdir, habove⟩
  · rw [hsame]
    exact h x hx
  · rcases h x hx with hsame | ⟨-, hthere, -⟩
    · exact .inr ⟨hsame ▸ hnone, hdir, habove⟩
    · rw [hnone] at hthere
      cases hthere

theorem Complete.unique (hf : Complete metadataRecord plan.steps fast f)
    (hg : Complete metadataRecord plan.steps fast g) : f = g :=
  Option.some.inj (hf.symm.trans hg)

theorem Attempt.cases (hcwd : ∀ c ∈ cwd, Plain c) (hsteps : ∀ step ∈ plan.steps, Inside step.path)
    (hstraight : ascii ".." ∉ (targetOf cwd plan).parts.dropLast) {out : Program.Outcome EngineError Outcome}
    (h : Attempt cwd plan metadataRecord fast fs out fs') :
    OnlyAncestors (targetOf cwd plan) fs fs' ∨ Complete metadataRecord plan.steps fast
      (fs'.node.below (targetLocation (targetOf cwd plan))) := by
  have hmeets := h.sound (apply_wp hcwd hsteps)
  have hway := wayClear_of_straight hstraight fs
  have hcomplete : Committed cwd (Unseen (targetOf cwd plan)) (targetOf cwd plan)
      (stagedSteps metadataRecord plan.steps fast) fs fs' →
      Complete metadataRecord plan.steps fast
        (fs'.node.below (targetLocation (targetOf cwd plan))) :=
    complete_of_committed hcwd hway (fun p w ↦ .inr (.inr ⟨p, w, rfl⟩)) (.inr (.inl rfl))
  cases out with
  | ok outcome => exact .inr (hcomplete hmeets)
  | error e => exact .inl (Reached.onlyAncestors hway hmeets)
  | stopped => exact hmeets.imp (Reached.onlyAncestors hway) hcomplete

theorem Attempt.existing (hcwd : ∀ c ∈ cwd, Plain c)
    (hstraight : ascii ".." ∉ (targetOf cwd plan).parts.dropLast)
    (hbeside : Beside (targetOf cwd plan)) {out : Program.Outcome EngineError Outcome}
    (hcomplete : Complete metadataRecord plan.steps fast
      (fs.node.below (targetLocation (targetOf cwd plan))))
    (h : Attempt cwd plan metadataRecord fast fs out fs') : fs' = fs := by
  have hthere : fs.node (targetLocation (targetOf cwd plan)) ≠ none := by
    have hdir := (dir_of_steps hcomplete).1 [] rfl
    rw [Layout.below, List.append_nil] at hdir
    simp [hdir]
  have hseen : existsAt cwd fs (targetOf cwd plan) = true :=
    hbeside.seen (targetOf_wellFormed hcwd plan) (wayClear_of_straight hstraight fs).passes hthere
  have hmeets := h.sound (apply_existing (.inl rfl) hseen)
  cases out with
  | ok outcome => exact hmeets.elim
  | error e => exact hmeets
  | stopped => exact hmeets

/-- After attempts the target is complete, or nothing differs but what is above it. -/
theorem attempts_settle (hcwd : ∀ c ∈ cwd, Plain c) (hsteps : ∀ step ∈ plan.steps, Inside step.path)
    (hstraight : ascii ".." ∉ (targetOf cwd plan).parts.dropLast)
    (hbeside : Beside (targetOf cwd plan))
    (hruns : Runs (Attempt cwd plan metadataRecord fast) fs outs fs') :
    OnlyAncestors (targetOf cwd plan) fs fs' ∨ Complete metadataRecord plan.steps fast
      (fs'.node.below (targetLocation (targetOf cwd plan))) := by
  refine hruns.invariant (I := fun fs' ↦ OnlyAncestors (targetOf cwd plan) fs fs' ∨
    Complete metadataRecord plan.steps fast (fs'.node.below (targetLocation (targetOf cwd plan))))
    ?_ (.inl (.refl _ fs))
  rintro fs₁ out fs₂ (honly | hcomplete) hattempt
  · exact (hattempt.cases hcwd hsteps hstraight).imp_left honly.trans
  · rw [hattempt.existing hcwd hstraight hbeside hcomplete]
    exact .inr hcomplete

theorem stagingName_not_mem (target : HostPath) : stagingName target ∉ splitPath kMetadataFile := by
  have hparts : splitPath kMetadataFile = [ascii ".squared", ascii "metadata.json"] := by decide
  have hhead : (stagingName target).head? = some dot := rfl
  have hlength : 13 ≤ (stagingName target).length := by
    simp only [stagingName, List.length_append]
    have h₁ : (ascii ".").length = 1 := by decide
    have h₂ : (ascii ".squared-tmp").length = 12 := by decide
    omega
  intro hmem
  rw [hparts, List.mem_cons, List.mem_singleton] at hmem
  rcases hmem with heq | heq
  · rw [heq] at hlength
    exact absurd hlength (by decide)
  · rw [heq] at hhead
    exact absurd hhead (by decide)

theorem Vacant.onlyAncestors (hstraight : ascii ".." ∉ target.parts.dropLast)
    (hpath : ∀ x, ¬ x ++ splitPath kMetadataFile <+: locate [] target.parts.dropLast)
    (h : Vacant fs target) (honly : OnlyAncestors target fs fs') : Vacant fs' target := by
  have hbeside := beside_of_plain h.named
  refine ⟨h.named, ?_, fun x hx data hdata ↦ ?_, ?_⟩
  · have hsame := congrFun (honly.untouched hbeside) []
    rw [Layout.below, Layout.below, List.append_nil] at hsame
    rw [hsame, h.absent]
  · have houtside : ¬ stagingLocation target.parts.dropLast (stagingName target) <+: x :=
      fun hp ↦ staging_apart hbeside [] (hp.trans (hx.trans (List.prefix_append _ _)))
    rcases honly x houtside with hsame | ⟨-, hdir, -⟩
    · exact h.way x hx data (hsame ▸ hdata)
    · rw [hdata] at hdir
      cases hdir
  · rintro d ⟨cs, hne, hcs, -, rfl⟩ hspace
    have hrecord : ¬ stagingLocation target.parts.dropLast (stagingName target) <+:
        locate [] cs ++ splitPath kMetadataFile := by
      intro hp
      obtain ⟨r, hr⟩ := direct_of_straight hstraight cs hcs
      rw [stagingLocation, ← hr, List.append_assoc, List.prefix_append_right_inj] at hp
      exact stagingName_not_mem target (hp.subset (by simp))
    rcases honly _ hrecord with hsame | ⟨-, -, habove⟩
    · have hspace : Workspace fs (locate [] cs) := by rwa [Workspace, hsame] at hspace
      -- What the walk passes on the way to a workspace is there.
      have hmade : Made fs [] cs := fun ds hds ↦
        hspace.dir_above (direct_of_straight (fun hmem ↦ hstraight (hcs.subset hmem)) ds hds)
      exact h.unenclosed _ ⟨cs, hne, hcs, hmade, rfl⟩ hspace
    · exact hpath _ habove

/-- However often the transaction fails or is cut off, the target is what an undisturbed run would
have made of it, or an undisturbed run still makes that. -/
theorem apply_recovers {undisturbed : FileSystem} (hcwd : ∀ c ∈ cwd, Plain c)
    (hsteps : ∀ step ∈ plan.steps, Inside step.path)
    (hstraight : ascii ".." ∉ (targetOf cwd plan).parts.dropLast)
    (hpath : ∀ x, ¬ x ++ splitPath kMetadataFile <+: locate [] (targetOf cwd plan).parts.dropLast)
    (hrun : (apply cwd plan metadataRecord fast).run (perform cwd) fs = (.ok outcome, undisturbed))
    (hruns : Runs (Attempt cwd plan metadataRecord fast) fs outs fs') :
    fs'.node.below (targetLocation (targetOf cwd plan)) =
        undisturbed.node.below (targetLocation (targetOf cwd plan)) ∨
      ∃ outcome' last, (apply cwd plan metadataRecord fast).run (perform cwd) fs' =
          (.ok outcome', last) ∧
        last.node.below (targetLocation (targetOf cwd plan)) =
          undisturbed.node.below (targetLocation (targetOf cwd plan)) := by
  have hwhole : ∀ {fs outcome last},
      (apply cwd plan metadataRecord fast).run (perform cwd) fs = (.ok outcome, last) →
      Complete metadataRecord plan.steps fast
        (last.node.below (targetLocation (targetOf cwd plan))) :=
    fun h ↦ complete_of_committed hcwd (wayClear_of_straight hstraight _) (fun _ _ ↦ trivial)
      trivial (run_committed hcwd hsteps h)
  obtain ⟨hvacant, happart⟩ := vacant_of_run hcwd hsteps (wayClear_of_straight hstraight fs) hrun
  have hbeside := beside_of_plain hvacant.named
  rcases attempts_settle hcwd hsteps hstraight hbeside hruns with honly | hcomplete
  · right
    have hyields : (apply cwd plan metadataRecord fast).Yields (perform cwd) (fun _ _ ↦ True) fs' :=
      apply_yields hcwd hsteps (wayClear_of_straight hstraight fs')
        (hvacant.onlyAncestors hstraight hpath honly) happart
    obtain ⟨outcome', last, hlast, -⟩ := hyields
    exact ⟨outcome', last, hlast, (hwhole hlast).unique (hwhole hrun)⟩
  · exact .inl (hcomplete.unique (hwhole hrun))

/-- Two attempts that cannot open any file. -/
theorem sample_recovers : ∃ outcome undisturbed outs fs',
    (apply [] (samplePlan "/b" sampleSteps) (.object []) true).run (perform []) .bare =
      (.ok outcome, undisturbed) ∧
    Runs (Attempt [] (samplePlan "/b" sampleSteps) (.object []) true) .bare outs fs' ∧
    outs.length = 2 ∧
    (fs'.node.below (targetLocation (targetOf [] (samplePlan "/b" sampleSteps))) =
        undisturbed.node.below (targetLocation (targetOf [] (samplePlan "/b" sampleSteps))) ∨
      ∃ outcome' last, (apply [] (samplePlan "/b" sampleSteps) (.object []) true).run (perform [])
          fs' = (.ok outcome', last) ∧
        last.node.below (targetLocation (targetOf [] (samplePlan "/b" sampleSteps))) =
          undisturbed.node.below (targetLocation (targetOf [] (samplePlan "/b" sampleSteps)))) := by
  obtain ⟨outcome, hrun⟩ := exists_ok_run [] .bare
    (apply [] (samplePlan "/b" sampleSteps) (.object []) true) (by decide +kernel)
  have hattempt : ∀ fs, ∃ out fs', Attempt [] (samplePlan "/b" sampleSteps) (.object []) true fs out
      fs' := fun fs ↦ ⟨_, _, exec_run (withoutFiles_behaves [] _) _ fs⟩
  obtain ⟨out, fs₁, hfirst⟩ := hattempt .bare
  obtain ⟨out', fs₂, hsecond⟩ := hattempt fs₁
  have hruns := Runs.cons hfirst (Runs.cons hsecond (Runs.nil fs₂))
  refine ⟨outcome, _, _, fs₂, hrun, hruns, rfl, ?_⟩
  refine apply_recovers (by simp) (fun step hstep ↦ (sample_confined step hstep).inside) (by decide) ?_
    hrun hruns
  intro x hp
  have hshort := hp.length_le
  have hlong : (splitPath kMetadataFile).length = 2 := by decide
  have hparent : locate [] (targetOf [] (samplePlan "/b" sampleSteps)).parts.dropLast = [] := by decide
  rw [hparent, List.length_append, hlong, List.length_nil] at hshort
  omega

end TransactionService

end SquaredPg
