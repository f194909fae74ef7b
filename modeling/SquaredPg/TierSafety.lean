import SquaredPg.TierMoves

namespace SquaredPg

open Ascii

namespace Machine

variable {m : Machine} {root tier name path source : Bytes} {st : HostState}

theorem head_tierPath (root tier name : Bytes) :
    (tierPath root tier name).head? = some minus ↔ root.head? = some minus := by
  have hslash : slash ≠ minus := by decide
  cases root with
  | nil => simpa [tierPath, ascii, charByte] using hslash
  | cons c root => simp [tierPath]

/-- `rm` refuses the path: it is an option, or ends in an element that names no entry. -/
def Refuses (root name : Bytes) : Prop := root.head? = some minus ∨ ¬ EndsPlain name

theorem endsPlain_iff (root : Bytes) (htier : tier ∈ tiers) : EndsPlain name ↔
    (splitPath (tierPath root tier name)).getLast? ≠ some (ascii ".") ∧
      (splitPath (tierPath root tier name)).getLast? ≠ some (ascii "..") := by
  have hne := HostPath.splitPath_getLast? name
  rw [splitPath_tierPath htier, List.getLast?_append, List.getLast?_cons, EndsPlain]
  cases hlast : (splitPath name).getLast? with
  | none =>
    have hplain := (tier_plain htier).1
    simpa using ⟨hplain.2.1, hplain.2.2⟩
  | some last =>
    have hlastNe : last ≠ [] := fun h ↦ hne (by rw [hlast, h])
    simp [Plain, hlastNe]

theorem rm_tierPath (htier : tier ∈ tiers) (root name : Bytes) (st : HostState) :
    (m.rm (tierPath root tier name) st).2.log = st.log ∨
      ¬ Refuses root name ∧ (m.rm (tierPath root tier name) st).2.log =
        st.log ++ [.remove (locate (m.tierLocation root tier) (splitPath name))] := by
  unfold rm
  dsimp only
  split_ifs with hhead hends
  · exact .inl rfl
  · exact .inl rfl
  · cases hr : FileSystem.resolve m.cwd st.fs (.ofBytes (tierPath root tier name)) with
    | none => exact .inl rfl
    | some l =>
      dsimp only
      split_ifs with hnone
      · exact .inl rfl
      · refine .inr ⟨?_, by rw [resolve_tierPath htier hr]⟩
        simp only [HostPath.stem_ofBytes, not_or] at hends
        rintro (h | h)
        · exact hhead ((head_tierPath root tier name).mpr h)
        · exact h ((endsPlain_iff root htier).mpr hends.2)

theorem rm_isDir (h : m.initialised root st = true) (htier : tier ∈ tiers)
    (hdir : m.isDir (tierPath root tier name) st = true) (hrefuses : ¬ Refuses root name) :
    (m.rm (tierPath root tier name) st).2.log =
      st.log ++ [.remove (locate (m.tierLocation root tier) (splitPath name))] := by
  simp only [Refuses, not_or, not_not] at hrefuses
  obtain ⟨hhead, hname⟩ := hrefuses
  obtain ⟨-, hwalk⟩ := (isDir_tierPath h htier).mp hdir
  rw [Option.any_eq_true] at hwalk
  obtain ⟨l, hl, hisDir⟩ := hwalk
  have hlocation := (FileSystem.walk_eq_some.mp hl).1
  have hresolve : FileSystem.resolve m.cwd st.fs (.ofBytes (tierPath root tier name)) = some l := by
    rw [← walk_tierPath h htier] at hl
    obtain hr | hr := resolve_ofBytes (m := m) st.fs (tierPath root tier name)
    · rw [hr, hl]
    · rw [hr, hl]
      simp [Option.filter, hisDir]
  have hnode := FileTree.isDir_iff.mp hisDir
  have hends := (endsPlain_iff root htier).mp hname
  have hne : splitPath (tierPath root tier name) ≠ [] := by
    rw [splitPath_tierPath htier]
    simp
  have hoption : ¬ (tierPath root tier name).head? = some minus :=
    fun ho ↦ hhead ((head_tierPath root tier name).mp ho)
  rw [← hlocation]
  unfold rm
  simp only [if_neg hoption, HostPath.stem_ofBytes, hne, hends.1, hends.2, or_self, if_false,
    hresolve, hnode, Option.isNone_some, Bool.false_eq_true]

theorem run_rm_tierPath (htier : tier ∈ tiers) (root name : Bytes) (st : HostState) :
    (m.run (ascii "rm -rf " ++ Env.quote (tierPath root tier name)) st).2.log = st.log ∨
      ¬ Refuses root name ∧
        (m.run (ascii "rm -rf " ++ Env.quote (tierPath root tier name)) st).2.log =
          st.log ++ [.remove (locate (m.tierLocation root tier) (splitPath name))] := by
  rw [run_rm]
  split_ifs with hnul
  · exact .inl rfl
  · exact rm_tierPath htier root name st

theorem removeEntries_state (entries : List SurveyEntry) (st : HostState) :
    (m.removeEntries entries st).2 =
      entries.foldl (fun st e ↦ (m.run (ascii "rm -rf " ++ Env.quote e.path) st).2) st := by
  unfold removeEntries
  refine (List.foldl_hom Prod.snd fun removed e ↦ ?_).symm
  obtain ⟨n, st⟩ := removed
  dsimp only
  obtain ⟨b, st'⟩ := m.run (ascii "rm -rf " ++ Env.quote e.path) st
  cases b
  · rfl
  · rfl

def InTier (root name : Bytes) (e : SurveyEntry) : Prop :=
  ∃ tier ∈ tiers, e.path = tierPath root tier name

theorem removeEntries_steps {entries : List SurveyEntry} (h : ∀ e ∈ entries, InTier root name e)
    (st : HostState) : ∀ step ∈ (m.removeEntries entries st).2.log, step ∈ st.log ∨
      ¬ Refuses root name ∧ ∃ tier ∈ tiers,
        step = .remove (locate (m.tierLocation root tier) (splitPath name)) := by
  rw [removeEntries_state]
  induction entries generalizing st with
  | nil => exact fun step hstep ↦ .inl hstep
  | cons e entries ih =>
    intro step hstep
    rw [List.foldl_cons] at hstep
    obtain ⟨tier, htier, hpath⟩ := h e (by simp)
    obtain hrest | hremoved := ih (fun e he ↦ h e (by simp [he])) _ step hstep
    · rw [hpath] at hrest
      obtain hlog | ⟨hrefuses, hlog⟩ := run_rm_tierPath (m := m) htier root name st
      · exact .inl (hlog ▸ hrest)
      · rw [hlog, List.mem_append, List.mem_singleton] at hrest
        exact hrest.imp id fun heq ↦ ⟨hrefuses, tier, htier, heq⟩
    · exact .inr hremoved

theorem removeEntries_grows {entries : List SurveyEntry} (h : ∀ e ∈ entries, InTier root name e)
    (st : HostState) {step : TreeStep} (hstep : step ∈ st.log) :
    step ∈ (m.removeEntries entries st).2.log := by
  rw [removeEntries_state]
  induction entries generalizing st with
  | nil => exact hstep
  | cons e entries ih =>
    rw [List.foldl_cons]
    obtain ⟨tier, htier, hpath⟩ := h e (by simp)
    refine ih (fun e he ↦ h e (by simp [he])) _ ?_
    rw [hpath]
    obtain hlog | ⟨-, hlog⟩ := run_rm_tierPath (m := m) htier root name st
    · rwa [hlog]
    · rw [hlog]
      exact List.mem_append_left _ hstep

theorem mem_survey_workspace {e : SurveyEntry} : e ∈ m.survey root st (.workspace name) ↔
    ∃ tier ∈ tiers, m.isDir (tierPath root tier name) st = true ∧
      e ∈ m.surveyed (tierPath root tier name) (tier ++ ascii "/" ++ name) st := by
  rw [survey, List.mem_flatMap]
  refine exists_congr fun tier ↦ and_congr_right fun _ ↦ ?_
  unfold surveyed
  split_ifs with hdir
  · simp [hdir]
  · simp [hdir]

theorem path_of_mem_surveyed {path label : Bytes} {e : SurveyEntry}
    (h : e ∈ m.surveyed path label st) : e.path = path := by
  unfold surveyed at h
  split_ifs at h
  · cases h
  · rw [List.mem_singleton.mp h]

theorem survey_workspace_nil : m.survey root st (.workspace name) = [] ↔
    ∀ tier ∈ tiers, m.isDir (tierPath root tier name) st = false := by
  rw [survey, List.flatMap_eq_nil_iff]
  refine forall₂_congr fun tier _ ↦ ?_
  unfold surveyed
  split_ifs with hdir
  · simp [hdir]
  · simp [hdir]

theorem survey_workspace_ne_nil (htier : tier ∈ tiers)
    (hdir : m.isDir (tierPath root tier name) st = true) :
    m.survey root st (.workspace name) ≠ [] := by
  intro hnil
  rw [survey_workspace_nil.mp hnil tier htier] at hdir
  cases hdir

theorem inTier_of_mem_survey :
    ∀ e ∈ m.survey root st (.workspace name), InTier root name e := by
  intro e he
  obtain ⟨tier, htier, -, he⟩ := mem_survey_workspace.mp he
  exact ⟨tier, htier, path_of_mem_surveyed he⟩

def Destroys (m : Machine) (root name : Bytes) (confirm typed : Option Bytes)
    (st : HostState) : Prop :=
  m.initialised root st = true ∧ (∃ tier ∈ tiers, m.isDir (tierPath root tier name) st = true) ∧
    confirm = some (tokenFor (m.survey root st (.workspace name)) (.workspace name)) ∧
    typed = some (Scope.workspace name).phrase

theorem selfdestruct_log {root : Option Bytes} {r : Bytes} (name : Bytes)
    (confirm typed : Option Bytes) (st : HostState)
    (hroot : m.environmentRoot root = some r) :
    (m.Destroys r name confirm typed st →
      (m.selfdestruct { root, name := some name, confirm } typed st).2 =
        (m.removeEntries (m.survey r st (.workspace name)) st).2) ∧
      (¬ m.Destroys r name confirm typed st →
        (m.selfdestruct { root, name := some name, confirm } typed st).2 = st) := by
  obtain ⟨declared, hdeclared, hroot⟩ := Option.map_eq_some_iff.mp hroot
  have hscope : ∀ confirm, DestructOptions.scope { root, name := some name, confirm } =
      some (.workspace name) := fun _ ↦ rfl
  constructor
  · intro ⟨hinit, ⟨tier, htier, hdir⟩, hconfirm, htyped⟩
    have hne := survey_workspace_ne_nil htier hdir
    simp only [selfdestruct, hdeclared, hroot, hinit, hscope, Bool.true_eq_false, if_false,
      if_neg hne, hconfirm, htyped, ne_eq, not_true_eq_false]
  · intro hnot
    simp only [selfdestruct, hdeclared, hroot, hscope]
    split_ifs with hinit hnil hconfirm htyped
    · rfl
    · rfl
    · rfl
    · rfl
    · refine absurd ⟨by simpa using hinit, ?_, not_not.mp hconfirm, not_not.mp htyped⟩ hnot
      by_contra hnone
      refine hnil (survey_workspace_nil.mpr fun tier htier ↦ ?_)
      exact Bool.eq_false_iff.mpr fun hdir ↦ hnone ⟨tier, htier, hdir⟩

theorem removeEntries_survey (hinit : m.initialised root st = true) (hrefuses : ¬ Refuses root name)
    (hne : m.survey root st (.workspace name) ≠ []) : ∃ tier ∈ tiers,
      .remove (locate (m.tierLocation root tier) (splitPath name)) ∈
        (m.removeEntries (m.survey root st (.workspace name)) st).2.log := by
  obtain ⟨e, entries, hsurvey⟩ := List.exists_cons_of_ne_nil hne
  have hinTier : ∀ e ∈ m.survey root st (.workspace name), InTier root name e :=
    inTier_of_mem_survey
  have he : e ∈ m.survey root st (.workspace name) := by rw [hsurvey]; simp
  obtain ⟨tier, htier, hdir, he⟩ := mem_survey_workspace.mp he
  have hnul : (0 : UInt8) ∉ tierPath root tier name := ((isDir_tierPath hinit htier).mp hdir).1
  refine ⟨tier, htier, ?_⟩
  rw [hsurvey] at hinTier ⊢
  rw [removeEntries_state, List.foldl_cons, ← removeEntries_state, path_of_mem_surveyed he, run_rm,
    if_neg hnul]
  refine removeEntries_grows (fun e he ↦ hinTier e (by simp [he])) _ ?_
  rw [rm_isDir hinit htier hdir hrefuses]
  simp

/-- A removal stays in the tiers exactly when the name leads there, or `rm` refuses it. -/
theorem selfdestruct_stays {root : Option Bytes} {r : Bytes} (name : Bytes)
    (confirm typed : Option Bytes) (hroot : m.environmentRoot root = some r) (fs : FileSystem) :
    m.StaysInTiers r (m.selfdestruct { root, name := some name, confirm } typed { fs }).2.log ↔
      (m.Destroys r name confirm typed { fs } → Refuses r name ∨ m.Leads r name) := by
  obtain ⟨hremoved, hkept⟩ :=
    selfdestruct_log (m := m) name confirm typed { fs } hroot
  by_cases hdestroys : m.Destroys r name confirm typed { fs }
  · rw [hremoved hdestroys]
    constructor
    · intro hstays _
      by_cases hrefuses : Refuses r name
      · exact .inl hrefuses
      obtain ⟨hinit, ⟨tier, htier, hdir⟩, -⟩ := hdestroys
      have hne := survey_workspace_ne_nil htier hdir
      obtain ⟨other, hother, hmem⟩ := removeEntries_survey hinit hrefuses hne
      have hname : EndsPlain name := not_not.mp fun h ↦ hrefuses (.inr h)
      exact .inr ((tierChild_locate r hother hname).mp (hstays _ hmem _ (by simp [TreeStep.places])))
    · intro hleads step hstep l hl
      obtain hnil | ⟨hrefuses, tier, htier, rfl⟩ :=
        removeEntries_steps inTier_of_mem_survey { fs } step hstep
      · cases hnil
      · rw [List.mem_singleton.mp hl]
        have hname : EndsPlain name := not_not.mp fun h ↦ hrefuses (.inr h)
        exact (tierChild_locate r htier hname).mpr ((hleads hdestroys).resolve_left hrefuses)
  · rw [hkept hdestroys]
    simp [StaysInTiers, hdestroys]

def Copies (m : Machine) (root source name : Bytes) (st : HostState) : Prop :=
  ∃ src dst, FileSystem.resolve m.cwd st.fs (.ofBytes source) = some src ∧
    m.entryAt (.ofBytes (tierPath root (ascii "sandbox") name)) st.fs = some dst ∧
    st.fs.Copyable src dst ∧ (st.fs.isDir src ∨
      (HostPath.ofBytes (tierPath root (ascii "sandbox") name)).parts.getLast? ≠ some [])

theorem copyTo_tierPath (h : m.initialised root st = true) (source name : Bytes) :
    (m.Copies root source name st → EndsPlain name ∧ ∃ reported fs,
      m.copyTo (.ofBytes source) (.ofBytes (tierPath root (ascii "sandbox") name)) st =
        (reported, { fs, log := st.log ++
          [.copy (locate (m.tierLocation root (ascii "sandbox")) (splitPath name))] })) ∧
      (¬ m.Copies root source name st →
        m.copyTo (.ofBytes source) (.ofBytes (tierPath root (ascii "sandbox") name)) st =
          (false, st)) := by
  have hsandbox : ascii "sandbox" ∈ tiers := by decide
  constructor
  · intro ⟨src, dst, hsrc, hdst, hcopyable, hshape⟩
    obtain ⟨hname, hwalk⟩ := (entryAt_tierPath h hsandbox).mp hdst
    refine ⟨hname, !decide (src <+: dst), st.fs.copy src dst, ?_⟩
    rw [← (FileSystem.walk_eq_some.mp hwalk).1]
    unfold copyTo
    simp only [hsrc, hdst]
    rw [if_pos ⟨hcopyable, hshape⟩]
  · intro hnot
    unfold copyTo
    split
    · rename_i src dst hsrc hdst
      exact if_neg fun hcopy ↦ hnot ⟨src, dst, hsrc, hdst, hcopy⟩
    · rfl

theorem rm_missing {path : Bytes} (h : m.existsAt path st.fs = false) :
    (m.rm path st).2 = st := by
  unfold rm
  dsimp only
  split_ifs with hhead hends
  · rfl
  · rfl
  · cases hr : FileSystem.resolve m.cwd st.fs (.ofBytes path) with
    | none => rfl
    | some l =>
      have hne : path ≠ [] := by
        rintro rfl
        exact hends (.inl rfl)
      have hnone : (st.fs.node l).isNone = true := by
        simpa [existsAt, FileSystem.existsAt, hr, hne] using h
      simp only [hnone, if_true]

theorem run_cut_copy {target : Bytes} (hnul : (0 : UInt8) ∈ source ∨ (0 : UInt8) ∈ target)
    (hfree : m.exists_ target st = false) :
    m.run (ascii "cp -a " ++ Env.quote source ++ ascii " " ++ Env.quote target) st = (false, st) ∧
      (m.run (ascii "rm -rf " ++ Env.quote target) st).2 = st := by
  refine ⟨by rw [run_cp, if_pos hnul], ?_⟩
  rw [run_rm]
  split_ifs with hcut
  · rfl
  · rw [exists_eq m hcut] at hfree
    rw [rm_missing hfree]

def Adopts (m : Machine) (root path : Bytes) (options : TierOptions) (st : HostState)
    (source name : Bytes) : Prop :=
  m.initialised root st = true ∧ m.resolve path st = some source ∧
    (options.name.orElse fun _ ↦ Env.basename source) = some name ∧
    m.tierOf root source st = none ∧
    m.exists_ (tierPath root (ascii "sandbox") name) st = false ∧ options.explain = false ∧
    (0 : UInt8) ∉ source ∧ (0 : UInt8) ∉ tierPath root (ascii "sandbox") name

def adopted (m : Machine) (source target : Bytes) (st : HostState) : HostState :=
  match m.cp source target st with
  | (true, st') => st'
  | (false, st') => (m.rm target st').2

theorem quarantine_log {options : TierOptions} (path : Bytes) (st : HostState)
    (hroot : m.environmentRoot options.root = some root) :
    (∀ source name, m.Adopts root path options st source name →
      (m.quarantine path options st).2.log =
        (m.adopted source (tierPath root (ascii "sandbox") name) st).log) ∧
      ((∀ source name, ¬ m.Adopts root path options st source name) →
        (m.quarantine path options st).2.log = st.log) := by
  obtain ⟨declared, hdeclared, hroot⟩ := Option.map_eq_some_iff.mp hroot
  constructor
  · intro source name ⟨hinit, hsource, hname, htier, hfree, hexplain, hsourceNul, hnul⟩
    simp only [quarantine, hdeclared, hroot, hinit, hsource, hname, htier, hfree, hexplain,
      Bool.true_eq_false, Bool.false_eq_true, Option.isSome_none, if_false, run_cp, run_rm,
      hsourceNul, hnul, or_self, adopted]
    obtain ⟨reported, st'⟩ := m.cp source (tierPath root (ascii "sandbox") name) st
    cases reported
    · rfl
    · exact writeFile_log _ _ _
  · intro hnone
    simp only [quarantine, hdeclared, hroot]
    by_cases hinit : m.initialised root st = false
    · rw [if_pos hinit]
    rw [if_neg hinit]
    cases hsource : m.resolve path st with
    | none => rfl
    | some source =>
      dsimp only
      cases hname : options.name.orElse fun _ ↦ Env.basename source with
      | none => rfl
      | some name =>
        dsimp only
        split_ifs with htier hfree hexplain
        · rfl
        · rfl
        · rfl
        · rw [Bool.not_eq_false] at hinit
          rw [Option.not_isSome_iff_eq_none] at htier
          rw [Bool.not_eq_true] at hfree hexplain
          have hnul : (0 : UInt8) ∈ source ∨ (0 : UInt8) ∈ tierPath root (ascii "sandbox") name := by
            by_contra hclean
            rw [not_or] at hclean
            exact hnone source name ⟨hinit, hsource, hname, htier, hfree, hexplain, hclean⟩
          obtain ⟨hcut, hkept⟩ := run_cut_copy hnul hfree
          rw [hcut]
          dsimp only
          rw [hkept]

/-- The copy that is made, if one is, is at a place in the tiers; a target with a hyphen in front is
left to `cp`. -/
def CopyLeads (m : Machine) (root source name : Bytes) (st : HostState) : Prop :=
  (root.head? = some minus → ∀ dst fs,
    m.copyInto source (tierPath root (ascii "sandbox") name) st.fs = some (dst, fs) →
      m.TierChild root dst) ∧
    (root.head? ≠ some minus → m.Copies root source name st → m.Leads root name)

theorem isDirectory_of_missing {path : Bytes} {fs : FileSystem} (h : m.existsAt path fs = false) :
    m.isDirectory path fs = false := by
  rw [Bool.eq_false_iff] at h ⊢
  intro hdir
  rw [isDirectory, decide_eq_true_eq, FileSystem.isDirectory, Option.any_eq_true] at hdir
  obtain ⟨hne, l, hl, hisDir⟩ := hdir
  refine h ?_
  rw [existsAt, decide_eq_true_eq, FileSystem.existsAt, hl]
  exact ⟨hne, by simp [FileTree.isDir_iff.mp hisDir]⟩

theorem adopted_option {target : Bytes} (hoption : target.head? = some minus) :
    (m.adopted source target st).log =
      match m.copyInto source target st.fs with
      | some (dst, _) => st.log ++ [.copy dst]
      | none => st.log := by
  unfold adopted cp
  rw [if_pos (.inl hoption)]
  cases m.copyInto source target st.fs with
  | none =>
    simp only [rm, if_pos hoption]
  | some made => rfl

theorem cp_of_missing {target : Bytes} (hoption : target.head? ≠ some minus)
    (hmissing : m.existsAt target st.fs = false) (source : Bytes) :
    m.cp source target st = m.copyTo (.ofBytes source) (.ofBytes target) st := by
  unfold cp
  rw [if_neg]
  simp [hoption, isDirectory_of_missing hmissing]

theorem adopted_of_copy {l : Location} {reported : Bool} {fs : FileSystem}
    (hl : l = locate (m.tierLocation root (ascii "sandbox")) (splitPath name))
    (hcp : m.cp source (tierPath root (ascii "sandbox") name) st =
      (reported, { fs, log := st.log ++ [.copy l] })) :
    .copy l ∈ (m.adopted source (tierPath root (ascii "sandbox") name) st).log ∧
      ∀ step ∈ (m.adopted source (tierPath root (ascii "sandbox") name) st).log,
        step ∈ st.log ∨ step.places = [l] := by
  have hsandbox : ascii "sandbox" ∈ tiers := by decide
  have hcopy : ∀ step ∈ st.log ++ [.copy l], step ∈ st.log ∨ step.places = [l] := by
    intro step hstep
    rw [List.mem_append, List.mem_singleton] at hstep
    exact hstep.imp id fun heq ↦ by rw [heq, TreeStep.places]
  rw [adopted, hcp]
  cases reported with
  | true => exact ⟨by simp, hcopy⟩
  | false =>
    dsimp only
    obtain hlog | ⟨-, hlog⟩ :=
      rm_tierPath (m := m) hsandbox root name { fs, log := st.log ++ [.copy l] }
    · rw [hlog]
      exact ⟨by simp, hcopy⟩
    · rw [hlog, ← hl]
      refine ⟨by simp, fun step hstep ↦ ?_⟩
      rw [List.mem_append, List.mem_singleton] at hstep
      obtain hstep | rfl := hstep
      · exact hcopy step hstep
      · exact .inr rfl

theorem adopted_copy (source : Bytes) (h : m.initialised root st = true)
    (hoption : root.head? ≠ some minus)
    (hmissing : m.existsAt (tierPath root (ascii "sandbox") name) st.fs = false) :
    (m.Copies root source name st → EndsPlain name ∧
      .copy (locate (m.tierLocation root (ascii "sandbox")) (splitPath name)) ∈
        (m.adopted source (tierPath root (ascii "sandbox") name) st).log ∧
      ∀ step ∈ (m.adopted source (tierPath root (ascii "sandbox") name) st).log, step ∈ st.log ∨
        step.places = [locate (m.tierLocation root (ascii "sandbox")) (splitPath name)]) ∧
      (¬ m.Copies root source name st →
        (m.adopted source (tierPath root (ascii "sandbox") name) st).log = st.log) := by
  have hhead : (tierPath root (ascii "sandbox") name).head? ≠ some minus :=
    fun hm ↦ hoption ((head_tierPath _ _ _).mp hm)
  have hcp := cp_of_missing hhead hmissing source
  obtain ⟨hcopied, hkept⟩ := copyTo_tierPath h source name
  constructor
  · intro hcopies
    obtain ⟨hname, reported, fs, hcopy⟩ := hcopied hcopies
    exact ⟨hname, adopted_of_copy rfl (hcp.trans hcopy)⟩
  · intro hcopies
    rw [adopted, hcp, hkept hcopies]
    dsimp only
    rw [rm_missing hmissing]

theorem adopted_stays {fs : FileSystem} (h : m.initialised root { fs } = true)
    (hmissing : m.existsAt (tierPath root (ascii "sandbox") name) fs = false) :
    m.StaysInTiers root (m.adopted source (tierPath root (ascii "sandbox") name) { fs }).log ↔
      m.CopyLeads root source name { fs } := by
  by_cases hoption : root.head? = some minus
  · rw [adopted_option ((head_tierPath _ _ _).mpr hoption)]
    dsimp only
    cases hmade : m.copyInto source (tierPath root (ascii "sandbox") name) fs with
    | none => simp [StaysInTiers, CopyLeads, hoption, hmade]
    | some made =>
      obtain ⟨dst, made⟩ := made
      simp [StaysInTiers, CopyLeads, hoption, hmade, TreeStep.places]
  · obtain ⟨hcopied, hkept⟩ := adopted_copy source h hoption hmissing
    have hsandbox : ascii "sandbox" ∈ tiers := by decide
    by_cases hcopies : m.Copies root source name { fs }
    · obtain ⟨hname, hmem, hall⟩ := hcopied hcopies
      have hchild := tierChild_locate (m := m) root hsandbox hname
      constructor
      · intro hstays
        exact ⟨fun ho ↦ absurd ho hoption, fun _ _ ↦
          hchild.mp (hstays _ hmem _ (by simp [TreeStep.places]))⟩
      · intro hleads step hstep l hl
        obtain hnil | hplaces := hall step hstep
        · cases hnil
        · rw [hplaces, List.mem_singleton] at hl
          rw [hl]
          exact hchild.mpr (hleads.2 hoption hcopies)
    · rw [hkept hcopies]
      simp [StaysInTiers, CopyLeads, hoption, hcopies]

theorem quarantine_stays {options : TierOptions} (path : Bytes)
    (hroot : m.environmentRoot options.root = some root) (fs : FileSystem) :
    m.StaysInTiers root (m.quarantine path options { fs }).2.log ↔
      ∀ source name, m.Adopts root path options { fs } source name →
        m.CopyLeads root source name { fs } := by
  obtain ⟨hadopted, hkept⟩ := quarantine_log (m := m) path { fs } hroot
  by_cases hadopts : ∃ source name, m.Adopts root path options { fs } source name
  · obtain ⟨source, name, hadopts⟩ := hadopts
    have hunique : ∀ source' name', m.Adopts root path options { fs } source' name' →
        source' = source ∧ name' = name := by
      intro source' name' hadopts'
      obtain rfl := Option.some.inj (hadopts'.2.1.symm.trans hadopts.2.1)
      exact ⟨rfl, Option.some.inj (hadopts'.2.2.1.symm.trans hadopts.2.2.1)⟩
    have hmissing : m.existsAt (tierPath root (ascii "sandbox") name) fs = false := by
      obtain ⟨-, -, -, -, hfree, -, -, hnul⟩ := hadopts
      rwa [exists_eq m hnul] at hfree
    rw [hadopted source name hadopts, adopted_stays hadopts.1 hmissing]
    constructor
    · intro hleads source' name' hadopts'
      obtain ⟨rfl, rfl⟩ := hunique source' name' hadopts'
      exact hleads
    · exact fun hleads ↦ hleads source name hadopts
  · have hnone : ∀ source name, ¬ m.Adopts root path options { fs } source name :=
      fun source name h ↦ hadopts ⟨source, name, h⟩
    rw [hkept hnone]
    simp [StaysInTiers, hnone]

end Machine

inductive TierCommand
  | promote (name : Bytes) (options : TierOptions)
  | demote (name : Bytes) (options : TierOptions)
  | quarantine (path : Bytes) (options : TierOptions)
  | selfdestruct (name : Bytes) (root confirm typed : Option Bytes)

namespace TierCommand

def root : TierCommand → Option Bytes
  | promote _ options => options.root
  | demote _ options => options.root
  | quarantine _ options => options.root
  | selfdestruct _ root _ _ => root

/-- The trees that a command moves, copies or removes, in order. -/
def steps (m : Machine) (fs : FileSystem) : TierCommand → List TreeStep
  | promote name options => (m.promote name options { fs }).2.log
  | demote name options => (m.demote name options { fs }).2.log
  | quarantine path options => (m.quarantine path options { fs }).2.log
  | selfdestruct name root confirm typed =>
    (m.selfdestruct { root, name := some name, confirm } typed { fs }).2.log

/-- A command that gets as far as a tree has a name that leads to a child of a tier. -/
def LeadsToChild (m : Machine) (root : Bytes) (fs : FileSystem) : TierCommand → Prop
  | promote name options =>
    m.Moves root (ascii "sandbox") (ascii "project") name options { fs } → m.Leads root name
  | demote name options =>
    m.Moves root (ascii "project") (ascii "sandbox") name options { fs } → m.Leads root name
  | quarantine path options => ∀ source name, m.Adopts root path options { fs } source name →
      m.CopyLeads root source name { fs }
  | selfdestruct name _ confirm typed =>
    m.Destroys root name confirm typed { fs } → Machine.Refuses root name ∨ m.Leads root name

end TierCommand

/-- Every tree that a command moves, copies or removes is a child of a tier exactly when its name
leads to one, or it does not get that far. -/
theorem stays_in_tiers_iff (m : Machine) (fs : FileSystem) (command : TierCommand) {root : Bytes}
    (hroot : m.environmentRoot command.root = some root) :
    m.StaysInTiers root (command.steps m fs) ↔ command.LeadsToChild m root fs := by
  cases command with
  | promote name options =>
    rw [TierCommand.steps, Machine.promote_log]
    exact Machine.moveBetween_stays (by decide) (by decide) options hroot fs
  | demote name options =>
    rw [TierCommand.steps, Machine.demote_log]
    exact Machine.moveBetween_stays (by decide) (by decide) options hroot fs
  | quarantine path options => exact Machine.quarantine_stays path hroot fs
  | selfdestruct name _ confirm typed =>
    exact Machine.selfdestruct_stays name confirm typed hroot fs

def plainMachine : Machine where
  cwd := []
  sqsysroot := some (ascii "/s")
  home := none
  rules := ⟨fun _ _ ↦ none⟩
  environment := ⟨fun _ ↦ []⟩
  capture := fun _ _ ↦ []
  gitInit := fun _ fs ↦ fs
  copyInto := fun _ _ _ ↦ none

/-- An environment with one workspace, in the sandbox. -/
def demoDisk : FileSystem :=
  [["s"], ["s", ".sqpg"], ["s", "project"], ["s", "sandbox"], ["s", "sandbox", "demo"]].foldl
    (fun fs l ↦ fs.put (l.map ascii) .dir) .bare

theorem stays_in_tiers_demo :
    (TierCommand.promote (ascii "demo") {}).steps plainMachine demoDisk =
        [.move [ascii "s", ascii "sandbox", ascii "demo"]
          [ascii "s", ascii "project", ascii "demo"]] ∧
      plainMachine.StaysInTiers (ascii "/s")
        ((TierCommand.promote (ascii "demo") {}).steps plainMachine demoDisk) :=
  ⟨by decide +kernel,
    (stays_in_tiers_iff plainMachine demoDisk (.promote (ascii "demo") {}) rfl).mpr fun _ ↦
      ⟨[], ascii "demo", by decide, ascii "sandbox", by decide, rfl⟩⟩

def removeNameless : TierCommand :=
  .selfdestruct [] none (some (ascii "d5aa4c6c")) (some (ascii "destroy "))

/-- An empty name removes the tiers themselves. -/
theorem stays_in_tiers_empty_name :
    removeNameless.steps plainMachine demoDisk =
      [.remove [ascii "s", ascii "sandbox"], .remove [ascii "s", ascii "project"]] ∧
    ¬ ∀ (m : Machine) (fs : FileSystem) (command : TierCommand) (root : Bytes),
      m.environmentRoot command.root = some root → m.StaysInTiers root (command.steps m fs) := by
  have hsteps : removeNameless.steps plainMachine demoDisk =
      [.remove [ascii "s", ascii "sandbox"], .remove [ascii "s", ascii "project"]] := by
    decide +kernel
  refine ⟨hsteps, fun hall ↦ ?_⟩
  have hstays := hall plainMachine demoDisk removeNameless (ascii "/s") rfl
  rw [hsteps] at hstays
  obtain ⟨tier, -, name, heq⟩ := hstays _ List.mem_cons_self _ List.mem_cons_self
  have hroot : plainMachine.rootLocation (ascii "/s") = [ascii "s"] := by decide
  have hlength := congrArg List.length heq
  simp [Machine.tierLocation, hroot] at hlength

end SquaredPg
