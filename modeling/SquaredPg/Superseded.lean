import Mathlib.Data.List.Dedup
import SquaredPg.CommittedTree
import SquaredPg.RecordText

namespace SquaredPg

open Ascii Fallible Program

/-- The steps but for each write that a later write on its path replaces. -/
def withoutSuperseded : List PlanStep → List PlanStep
  | [] => []
  | step :: steps =>
    if step.action = .writeFile ∧
        ∃ later ∈ steps, later.action = .writeFile ∧ later.path = step.path then
      withoutSuperseded steps
    else step :: withoutSuperseded steps

def GenerationPlan.withoutSuperseded (plan : GenerationPlan) : GenerationPlan :=
  { plan with steps := SquaredPg.withoutSuperseded plan.steps }

variable {steps writes : List PlanStep} {step : PlanStep} {x : Location} {f g : Layout Bytes FileData}

theorem withoutSuperseded_sublist (steps : List PlanStep) : (withoutSuperseded steps).Sublist steps := by
  induction steps with
  | nil => exact .slnil
  | cons step steps ih =>
    rw [withoutSuperseded]
    split_ifs
    · exact ih.cons step
    · exact ih.cons_cons step

theorem fileOver_last_iff (old : Option FileData) (writes : List PlanStep) :
    fileOver old writes = fileOver old writes.getLast?.toList ↔
      (writes.any PlanStep.executable = true →
        (∃ last, writes.getLast? = some last ∧ last.executable = true) ∨
          old.any FileData.executable = true) := by
  rcases List.eq_nil_or_concat' writes with rfl | ⟨before, last, rfl⟩
  · simp
  · have hone : fileOver old [last] = some (last.fileData old) := rfl
    rw [List.getLast?_concat, Option.toList_some, fileOver_concat, hone, PlanStep.fileData,
      PlanStep.fileData, executable_fileOver]
    cases hlast : last.executable <;> cases hold : old.any FileData.executable <;>
      cases hany : before.any PlanStep.executable <;> simp [hlast, hany]

/-- What a plan of the builder guarantees of a step. -/
structure PlanStep.Regular (step : PlanStep) : Prop where
  inside : Inside step.path
  action : step.action = .writeFile ∨ step.action = .createDirectory

theorem PlanStep.Regular.isDirectory_iff (h : step.Regular) :
    step.isDirectory = false ↔ step.action = .writeFile := by
  rcases h.action with haction | haction <;> simp [PlanStep.isDirectory, haction]

theorem PlanStep.Regular.location_eq (h : step.Regular) {other : PlanStep} (hother : other.Regular) :
    other.location = step.location ↔ other.path = step.path := by
  refine ⟨fun heq ↦ ?_, congrArg splitPath⟩
  rw [← hother.inside.joined, ← h.inside.joined]
  exact congrArg joinPath heq

theorem superseded_iff (hstep : step.Regular) (h : ∀ s ∈ steps, s.Regular) :
    (step.action = .writeFile ∧ ∃ later ∈ steps, later.action = .writeFile ∧ later.path = step.path) ↔
      step.isDirectory = false ∧ writesAt steps step.location ≠ [] := by
  have hsome : writesAt steps step.location ≠ [] ↔ ∃ later, later ∈ writesAt steps step.location :=
    ⟨List.exists_mem_of_ne_nil _, fun ⟨_, hin⟩ ↦ List.ne_nil_of_mem hin⟩
  rw [hstep.isDirectory_iff, hsome]
  simp only [mem_writesAt]
  refine and_congr_right fun _ ↦ exists_congr fun later ↦ and_congr_right fun hlater ↦ ?_
  rw [(h later hlater).isDirectory_iff, hstep.location_eq (h later hlater)]

theorem writesAt_withoutSuperseded (h : ∀ s ∈ steps, s.Regular) (x : Location) :
    writesAt (withoutSuperseded steps) x = (writesAt steps x).getLast?.toList := by
  induction steps with
  | nil => rfl
  | cons step steps ih =>
    obtain ⟨hstep, h⟩ := List.forall_mem_cons.mp h
    have hcons : ∀ steps, writesAt (step :: steps) x =
        if step.isDirectory = false ∧ step.location = x then step :: writesAt steps x
        else writesAt steps x := by
      intro steps
      simp [writesAt, List.filter_cons]
    rw [withoutSuperseded]
    simp only [superseded_iff hstep h, hcons]
    split_ifs with hgone hhere hhere
    · -- a later write at `x` is the last one of all
      obtain ⟨last, hlast⟩ := List.getLast?_isSome.mpr (hhere.2 ▸ hgone.2) |> Option.isSome_iff_exists.mp
      rw [ih h, hlast, List.getLast?_cons, hlast]
      rfl
    · exact ih h
    · have hnil : writesAt steps x = [] := by
        by_contra hne
        exact hgone ⟨hhere.1, hhere.2 ▸ hne⟩
      rw [hcons, if_pos hhere, ih h, hnil]
      rfl
    · rw [hcons, if_neg hhere, ih h]

theorem writtenPaths_withoutSuperseded (h : ∀ s ∈ steps, s.Regular) :
    TransactionService.writtenPaths (withoutSuperseded steps) =
      (TransactionService.writtenPaths steps).dedup := by
  induction steps with
  | nil => rfl
  | cons step steps ih =>
    obtain ⟨hstep, h⟩ := List.forall_mem_cons.mp h
    have hcons : ∀ steps, TransactionService.writtenPaths (step :: steps) =
        if step.isDirectory = false then step.path :: TransactionService.writtenPaths steps
        else TransactionService.writtenPaths steps := by
      intro steps
      cases hdir : step.isDirectory <;> simp [TransactionService.writtenPaths, hdir]
    have hlater : step.path ∈ TransactionService.writtenPaths steps ↔
        ∃ later ∈ steps, later.action = .writeFile ∧ later.path = step.path := by
      simp only [TransactionService.writtenPaths, List.mem_map, List.mem_filter, decide_eq_true_eq,
        and_assoc]
      refine exists_congr fun later ↦ and_congr_right fun hin ↦ ?_
      rw [(h later hin).isDirectory_iff]
    rw [withoutSuperseded, hcons]
    simp only [← hlater, ← hstep.isDirectory_iff]
    split_ifs with hgone hfile hfile
    · rw [ih h, List.dedup_cons_of_mem hgone.2]
    · exact absurd hgone.1 hfile
    · rw [hcons, if_pos hfile, ih h, List.dedup_cons_of_notMem fun hin ↦ hgone ⟨hfile, hin⟩]
    · rw [hcons, if_neg hfile, ih h]

theorem count_escapeByte (c : UInt8) : (escapeByte c).count 10 = 0 := by
  have hall : ∀ n < 256, (escapeByte (UInt8.ofNat n)).count 10 = 0 := by decide +kernel
  simpa using hall c.toNat c.toNat_lt

theorem count_writeEscaped (text : Bytes) : (writeEscaped text).count 10 = 0 := by
  rw [writeEscaped, List.count_cons_of_ne (by decide), List.count_append, List.count_flatMap]
  simp [Function.comp_def, count_escapeByte, quote]

theorem count_newline (depth : ℕ) : (newline true depth).count 10 = 1 := by
  simp [newline, List.count_replicate]

theorem count_writeItems {k depth : ℕ} {items : List Value}
    (h : ∀ v ∈ items, (writeValue true (depth + 1) v).count 10 = k) :
    (writeItems true depth items).count 10 = (k + 1) * items.length + 1 := by
  induction items with
  | nil => simp [writeItems, count_newline, closeBracket]
  | cons v items ih =>
    obtain ⟨hv, h⟩ := List.forall_mem_cons.mp h
    rw [writeItems, List.count_cons_of_ne (by decide), List.count_append, List.count_append,
      count_newline, hv, ih h, List.length_cons, Nat.mul_succ]
    omega

namespace TransactionService

open FileSystem MetadataService

variable {set : ResolvedSet} {config : Value} {engineVersion : Version}
  {diagnostics : List Diagnostic} {plan : GenerationPlan} {cwd : Location} {fs fs' : FileSystem}
  {fast : Bool} {outcome : Outcome}

theorem count_provenanceRow (depth : ℕ) (hashes : List (Bytes × Bytes)) (step : PlanStep) :
    (writeValue true depth (provenanceRow hashes step)).count 10 = 7 := by
  simp [provenanceRow, writeValue, writeMembers, count_writeEscaped, count_newline, openBrace,
    closeBrace, comma, ascii, charByte]

theorem count_provenance (depth : ℕ) (steps : List PlanStep) (hashes : List (Bytes × Bytes)) :
    (writeValue true depth (.array (provenance steps hashes))).count 10 =
      if (writtenPaths steps).length = 0 then 0 else 8 * (writtenPaths steps).length + 1 := by
  have hlength : (provenance steps hashes).length = (writtenPaths steps).length := by
    simp [provenance, writtenPaths]
  have hrows : ∀ row ∈ provenance steps hashes,
      (writeValue true (depth + 1) row).count 10 = 7 := by
    intro row hrow
    obtain ⟨step, -, rfl⟩ := List.mem_map.mp hrow
    exact count_provenanceRow (depth + 1) hashes step
  rw [← hlength]
  cases hprovenance : provenance steps hashes with
  | nil => rfl
  | cons row rows =>
    rw [hprovenance] at hrows
    obtain ⟨hrow, hrest⟩ := List.forall_mem_cons.mp hrows
    rw [if_neg (by simp), writeValue, List.count_cons_of_ne (by decide), List.count_append,
      List.count_append, count_newline, hrow, count_writeItems hrest, List.length_cons]
    omega

theorem rows_of_text {steps : List PlanStep}
    (h : jsonWrite (committedRecord plan engineVersion fast) true =
      jsonWrite (committedRecord { plan with steps } engineVersion fast) true) :
    (writtenPaths plan.steps).length = (writtenPaths steps).length := by
  have hcount := congrArg (List.count 10) h
  -- the records differ in one member only
  have hrows : (writeValue true 1 (.array (provenance plan.steps (stepHashes plan.steps)))).count 10 =
      (writeValue true 1 (.array (provenance steps (stepHashes steps)))).count 10 := by
    simp only [committedRecord_eq, jsonWrite, writeValue, writeMembers, List.count_append,
      List.count_cons, Nat.zero_add] at hcount
    omega
  rw [count_provenance, count_provenance] at hrows
  split_ifs at hrows <;> omega

/-- A bit that a write sets is set by the last write on its path as well, or was there before. The
file of the record is left out. -/
def BitsCovered (f : Layout Bytes FileData) (steps : List PlanStep) : Prop :=
  ∀ step ∈ steps, step.action = .writeFile → step.executable = true → step.path ≠ kMetadataFile →
    (∃ last, (writesAt steps step.location).getLast? = some last ∧ last.executable = true) ∨
      (f.fileAt step.location).any FileData.executable = true

/-- One file but for the record: over what was there, all the writes or the last ones alone. -/
theorem bitsCovered_iff {steps : List PlanStep} (h : ∀ s ∈ steps, s.Regular)
    (f : Layout Bytes FileData) (text text' : Bytes) :
    (∀ x, x ≠ splitPath kMetadataFile →
      (layoutOver f (steps ++ [recordStep text])).fileAt x =
        (layoutOver f (withoutSuperseded steps ++ [recordStep text'])).fileAt x) ↔
      BitsCovered f steps := by
  have hfiles : ∀ x, x ≠ splitPath kMetadataFile →
      ((layoutOver f (steps ++ [recordStep text])).fileAt x =
        (layoutOver f (withoutSuperseded steps ++ [recordStep text'])).fileAt x ↔
      ((writesAt steps x).any PlanStep.executable = true →
        (∃ last, (writesAt steps x).getLast? = some last ∧ last.executable = true) ∨
          (f.fileAt x).any FileData.executable = true)) := by
    intro x hx
    rw [fileAt_layoutOver, fileAt_layoutOver, writesAt_recorded, writesAt_recorded, if_neg hx,
      if_neg hx, List.append_nil, List.append_nil, writesAt_withoutSuperseded h, fileOver_last_iff]
  constructor
  · intro hsame step hstep haction hbit hpath
    have hregular := h step hstep
    have hx : step.location ≠ splitPath kMetadataFile := by
      intro heq
      refine hpath ?_
      rw [← hregular.inside.joined, ← inside_kMetadataFile.joined]
      exact congrArg joinPath heq
    refine (hfiles _ hx).mp (hsame _ hx) (List.any_eq_true.mpr ⟨step, ?_, hbit⟩)
    exact mem_writesAt.mpr ⟨hstep, hregular.isDirectory_iff.mpr haction, rfl⟩
  · intro hcovered x hx
    refine (hfiles x hx).mpr fun hany ↦ ?_
    obtain ⟨step, hstep, hbit⟩ := List.any_eq_true.mp hany
    obtain ⟨hin, hfile, rfl⟩ := mem_writesAt.mp hstep
    refine hcovered step hin ((h step hin).isDirectory_iff.mp hfile) hbit fun hpath ↦ hx ?_
    rw [PlanStep.location, hpath]

theorem fileAt_recorded (f : Layout Bytes FileData) (steps : List PlanStep) (text : Bytes) :
    (layoutOver f (steps ++ [recordStep text])).fileAt (splitPath kMetadataFile) =
      some ((recordStep text).fileData
        (fileOver (f.fileAt (splitPath kMetadataFile)) (writesAt steps (splitPath kMetadataFile)))) := by
  rw [fileAt_layoutOver, writesAt_recorded, if_pos rfl, fileOver_concat]

theorem regular_of_buildPlan (h : buildPlan set config engineVersion diagnostics = .ok plan) :
    ∀ step ∈ plan.steps, step.Regular :=
  fun step hstep ↦ ⟨inside_of_buildPlan h step hstep, (buildPlan_covers h).2.actions step hstep⟩

/-- What `apply` does for a plan that `project.generate` has built. -/
def transact (cwd : Location) (plan : GenerationPlan) (engineVersion : Version) (fast : Bool)
    (fs : FileSystem) : Except EngineError Outcome × FileSystem :=
  (apply cwd plan (buildRecord plan engineVersion) fast).run (perform cwd) fs

/-- Superseded writes always leave a trace, in the record. Everywhere else they leave none exactly
where no executable bit outlasts the write that sets it. -/
theorem superseded_traced {outcome : Outcome} (hcwd : ∀ c ∈ cwd, Plain c)
    (hplan : buildPlan set config engineVersion diagnostics = .ok plan)
    (hsuperseded : ¬ (writtenPaths plan.steps).Nodup)
    (hrun : transact cwd plan engineVersion fast fs = (.ok outcome, fs')) :
    ∀ outcome' fs'', transact cwd plan.withoutSuperseded engineVersion fast fs = (.ok outcome', fs'') →
      (fs'.node.below (targetLocation (targetOf cwd plan))).fileAt ≠
          (fs''.node.below (targetLocation (targetOf cwd plan))).fileAt ∧
        ((∀ x, x ≠ splitPath kMetadataFile →
          (fs'.node.below (targetLocation (targetOf cwd plan))).fileAt x =
            (fs''.node.below (targetLocation (targetOf cwd plan))).fileAt x) ↔
          BitsCovered (stagingBase cwd (targetOf cwd plan) fs) plan.steps) := by
  intro outcome' fs'' hrun'
  have hregular := regular_of_buildPlan hplan
  have hinside : ∀ step ∈ plan.withoutSuperseded.steps, Inside step.path := fun step hstep ↦
    (hregular step ((withoutSuperseded_sublist plan.steps).subset hstep)).inside
  have htree := committed_tree hcwd (fun step hstep ↦ (hregular step hstep).inside) hrun
  have htree' := committed_tree hcwd hinside hrun'
  have htarget : targetOf cwd plan.withoutSuperseded = targetOf cwd plan := rfl
  rw [htarget] at htree'
  rw [htree, htree']
  refine ⟨fun hsame ↦ ?_, bitsCovered_iff hregular _ _ _⟩
  have htexts := congrFun hsame (splitPath kMetadataFile)
  rw [stagedSteps, stagedSteps, fileAt_recorded, fileAt_recorded, Option.some.injEq,
    PlanStep.fileData, PlanStep.fileData, FileData.mk.injEq] at htexts
  have hrows := rows_of_text htexts.1
  rw [writtenPaths_withoutSuperseded hregular] at hrows
  have hdedup := (List.dedup_sublist (writtenPaths plan.steps)).eq_of_length hrows.symm
  exact hsuperseded (List.dedup_eq_self.mp hdedup)

/-- A script of the template, and a kit that puts an ordinary file in its place. -/
def overriddenScript : ResolvedSet :=
  { projectTemplate := sampleTemplate "\x7b\"executable\":[\"**\"]\x7d" ["a"]
    kits := [sampleKit "\x7b\"overrides\":[\"a\"]\x7d" ["a"]] }

def transactsBoth (set : ResolvedSet)
    (P : Layout Bytes FileData → Layout Bytes FileData → Bool) : Bool :=
  (buildPlan set sampleOutput {} []).toOption.any fun plan ↦
    let run := transact [] plan {} true .bare
    let run' := transact [] plan.withoutSuperseded {} true .bare
    run.1.toOption.isSome && run'.1.toOption.isSome &&
      P (run.2.node.below (targetLocation (targetOf [] plan)))
        (run'.2.node.below (targetLocation (targetOf [] plan)))

theorem exists_both {P : Layout Bytes FileData → Layout Bytes FileData → Bool}
    (h : transactsBoth set P = true) : ∃ plan outcome outcome' fs' fs'',
      buildPlan set sampleOutput {} [] = .ok plan ∧
      transact [] plan {} true .bare = (.ok outcome, fs') ∧
      transact [] plan.withoutSuperseded {} true .bare = (.ok outcome', fs'') ∧
      P (fs'.node.below (targetLocation (targetOf [] plan)))
        (fs''.node.below (targetLocation (targetOf [] plan))) = true := by
  unfold transactsBoth at h
  cases hplan : buildPlan set sampleOutput {} [] with
  | error e =>
    rw [hplan] at h
    cases h
  | ok plan =>
    rw [hplan] at h
    simp only [Except.toOption, Option.any_some, Bool.and_eq_true] at h
    obtain ⟨⟨hok, hok'⟩, hP⟩ := h
    obtain ⟨outcome, houtcome⟩ := exists_ok hok
    obtain ⟨outcome', houtcome'⟩ := exists_ok hok'
    exact ⟨plan, outcome, outcome', _, _, rfl, Prod.ext houtcome rfl, Prod.ext houtcome' rfl, hP⟩

theorem twice_written (hplan : buildPlan set config engineVersion diagnostics = .ok plan)
    (h : ¬ (claimedPaths set config engineVersion).Nodup) : ¬ (writtenPaths plan.steps).Nodup :=
  fun hnodup ↦ h ((writtenPaths_perm hplan).nodup_iff.mp hnodup)

theorem overridden_script_traced : ∃ plan outcome outcome' fs' fs'',
    buildPlan overriddenScript sampleOutput {} [] = .ok plan ∧
    transact [] plan {} true .bare = (.ok outcome, fs') ∧
    transact [] plan.withoutSuperseded {} true .bare = (.ok outcome', fs'') ∧
    (fs'.node.below (targetLocation (targetOf [] plan))).fileAt ≠
        (fs''.node.below (targetLocation (targetOf [] plan))).fileAt ∧
      ((∀ x, x ≠ splitPath kMetadataFile →
        (fs'.node.below (targetLocation (targetOf [] plan))).fileAt x =
          (fs''.node.below (targetLocation (targetOf [] plan))).fileAt x) ↔
        BitsCovered (stagingBase [] (targetOf [] plan) .bare) plan.steps) := by
  have hboth : transactsBoth overriddenScript (fun _ _ ↦ true) = true := by decide +kernel
  obtain ⟨plan, outcome, outcome', fs', fs'', hplan, hrun, hrun', -⟩ := exists_both hboth
  have htwice := twice_written hplan (by decide +kernel)
  exact ⟨plan, outcome, outcome', fs', fs'', hplan, hrun, hrun',
    superseded_traced (by simp) hplan htwice hrun outcome' fs'' hrun'⟩

/-- The bit of the script outlasts the script. -/
theorem overridden_script_executable : ∃ plan outcome outcome' fs' fs'',
    buildPlan overriddenScript sampleOutput {} [] = .ok plan ∧
    transact [] plan {} true .bare = (.ok outcome, fs') ∧
    transact [] plan.withoutSuperseded {} true .bare = (.ok outcome', fs'') ∧
    ¬ (writtenPaths plan.steps).Nodup ∧
    (fs'.node.below (targetLocation (targetOf [] plan))).fileAt [ascii "a"] ≠
      (fs''.node.below (targetLocation (targetOf [] plan))).fileAt [ascii "a"] := by
  have hboth : transactsBoth overriddenScript (fun f g ↦
      (f.fileAt [ascii "a"]).map FileData.executable = some true ∧
        (g.fileAt [ascii "a"]).map FileData.executable = some false) = true := by decide +kernel
  obtain ⟨plan, outcome, outcome', fs', fs'', hplan, hrun, hrun', hbits⟩ := exists_both hboth
  refine ⟨plan, outcome, outcome', fs', fs'', hplan, hrun, hrun',
    twice_written hplan (by decide +kernel), fun hsame ↦ ?_⟩
  rw [decide_eq_true_eq, hsame] at hbits
  rw [hbits.1] at hbits
  exact absurd hbits.2 (by decide)

end TransactionService

end SquaredPg
