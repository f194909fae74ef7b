import SquaredPg.TierSafety

namespace SquaredPg

open Ascii

/-- `quarantine` ends, or goes on to its copy. -/
inductive QuarantineStep
  | stop (code : Option ℕ)
  | copy (source target : Bytes)
  deriving DecidableEq

namespace Machine

variable (m : Machine)

def quarantineStep (path : Bytes) (options : TierOptions) (st : HostState) : QuarantineStep :=
  match m.environmentRoot options.root with
  | none => .stop (some 1)
  | some root =>
    if m.initialised root st = false then .stop (some 1)
    else
      match m.resolve path st with
      | none => .stop (some 1)
      | some source =>
        match options.name.orElse fun _ ↦ Env.basename source with
        | none => .stop none
        | some name =>
          let target := tierPath root (ascii "sandbox") name
          if (m.tierOf root source st).isSome then .stop (some 1)
          else if m.exists_ target st then .stop (some 1)
          else if options.explain then .stop (some 0)
          else .copy source target

def carryOut (st : HostState) : QuarantineStep → Option ℕ × HostState
  | .stop code => (code, st)
  | .copy source target =>
    match m.run (ascii "cp -a " ++ Env.quote source ++ ascii " " ++ Env.quote target) st with
    | (true, st') => (some 0, m.writeFile (target ++ ascii "/AGENTS.md") agentsQuarantine st')
    | (false, st') => (some 1, (m.run (ascii "rm -rf " ++ Env.quote target) st').2)

/-- `quarantine` ends in front of its copy, and not because it was only to explain. -/
def TurnsAway (path : Bytes) (options : TierOptions) (st : HostState) : Prop :=
  ∃ code, m.quarantineStep path options st = .stop code ∧ code ≠ some 0

/-- The path resolves to a directory that is the root, lies in it or contains it; `pwd -P` prints
both without links, so that the elements decide. -/
def Related (root path : Bytes) (st : HostState) : Prop :=
  ∃ source location, m.resolve path st = some source ∧ m.resolve root st = some location ∧
    (splitPath source <+: splitPath location ∨ splitPath location <+: splitPath source)

/-- There is no environment, the source has no name, or its text begins with that of a tier, or the
sandbox has something of its name. -/
def Stopped (root source : Bytes) (options : TierOptions) (st : HostState) : Prop :=
  m.initialised root st = false ∨
    (options.name.orElse fun _ ↦ Env.basename source) = none ∨
    (∃ tier ∈ tiers, ∃ resolved, m.resolve source st = some resolved ∧
      root ++ ascii "/" ++ tier ++ ascii "/" <+: resolved) ∨
    ∃ name, (options.name.orElse fun _ ↦ Env.basename source) = some name ∧
      m.exists_ (tierPath root (ascii "sandbox") name) st = true

variable {m} {path root source resolved : Bytes} {options : TierOptions} {st : HostState}

theorem quarantine_eq (path : Bytes) (options : TierOptions) (st : HostState) :
    m.quarantine path options st = m.carryOut st (m.quarantineStep path options st) := by
  unfold quarantine quarantineStep environmentRoot
  cases m.root with
  | none => rfl
  | some declared =>
    dsimp only [Option.map_some]
    by_cases hinit : m.initialised (options.root.getD declared) st = false
    · rw [if_pos hinit, if_pos hinit]
      rfl
    rw [if_neg hinit, if_neg hinit]
    cases m.resolve path st with
    | none => rfl
    | some source =>
      dsimp only
      cases options.name.orElse fun _ ↦ Env.basename source with
      | none => rfl
      | some name =>
        dsimp only
        split_ifs
        · rfl
        · rfl
        · rfl
        · rfl

theorem quarantine_of_turnsAway (h : m.TurnsAway path options st) :
    (m.quarantine path options st).2 = st := by
  obtain ⟨code, hstop, _⟩ := h
  rw [quarantine_eq, hstop]
  rfl

theorem tierOf_isSome : (m.tierOf root source st).isSome = true ↔
    ∃ tier ∈ tiers, ∃ resolved, m.resolve source st = some resolved ∧
      root ++ ascii "/" ++ tier ++ ascii "/" <+: resolved := by
  unfold tierOf
  cases m.resolve source st with
  | none => simp
  | some resolved => simp [List.find?_isSome]

theorem turnsAway_iff (hroot : m.environmentRoot options.root = some root)
    (hsource : m.resolve path st = some source) :
    m.TurnsAway path options st ↔ m.Stopped root source options st := by
  unfold TurnsAway Stopped quarantineStep
  rw [hroot, ← tierOf_isSome]
  dsimp only
  by_cases hinit : m.initialised root st = false
  · rw [if_pos hinit]
    exact iff_of_true ⟨some 1, rfl, by decide⟩ (.inl hinit)
  rw [if_neg hinit, hsource]
  dsimp only
  cases hname : options.name.orElse fun _ ↦ Env.basename source with
  | none => exact iff_of_true ⟨none, rfl, by decide⟩ (.inr (.inl rfl))
  | some name =>
    dsimp only
    by_cases htier : (m.tierOf root source st).isSome = true
    · rw [if_pos htier]
      exact iff_of_true ⟨some 1, rfl, by decide⟩ (.inr (.inr (.inl htier)))
    by_cases hthere : m.exists_ (tierPath root (ascii "sandbox") name) st = true
    · rw [if_neg htier, if_pos hthere]
      exact iff_of_true ⟨some 1, rfl, by decide⟩ (.inr (.inr (.inr ⟨name, rfl, hthere⟩)))
    rw [if_neg htier, if_neg hthere]
    refine iff_of_false ?_ ?_
    · intro h
      obtain ⟨code, hstop, hcode⟩ := h
      split_ifs at hstop
      cases hstop
      exact hcode rfl
    · simp [hinit, htier, hthere]

structure Printed (text : Bytes) (names : List Bytes) : Prop where
  eq : text = slash :: joinPath names
  named : ∀ name ∈ names, name ≠ [] ∧ slash ∉ name

theorem prefix_iff_below {location names : List Bytes} {tier : Bytes} (htier : tier ∈ tiers)
    (hroot : Printed root location) (hne : location ≠ []) (hresolved : Printed resolved names) :
    root ++ ascii "/" ++ tier ++ ascii "/" <+: resolved ↔
      ∃ more, more ≠ [] ∧ names = location ++ tier :: more := by
  have hslash : ascii "/" = [slash] := by decide
  obtain ⟨hplain, hsplit⟩ := tier_plain htier
  rw [hslash, hroot.eq, hresolved.eq]
  constructor
  · intro h
    obtain ⟨rest, heq⟩ := h
    have hjoin : joinPath location ++ slash :: (tier ++ slash :: rest) = joinPath names := by
      simpa using heq
    have hnames := congrArg splitPath hjoin
    rw [splitPath_append, splitPath_append, splitPath_joinPath hroot.named,
      splitPath_joinPath hresolved.named, hsplit] at hnames
    refine ⟨splitPath rest, ?_, hnames.symm⟩
    intro hnil
    -- without a further element the text would end with the tier
    rw [← hnames, hnil, List.append_nil, joinPath_append hne (List.cons_ne_nil tier []),
      joinPath_singleton] at hjoin
    have hlength := congrArg List.length hjoin
    simp at hlength
  · intro h
    obtain ⟨more, hmore, rfl⟩ := h
    refine ⟨joinPath more, ?_⟩
    rw [joinPath_append hne (List.cons_ne_nil tier more)]
    have htail : joinPath (tier :: more) = tier ++ slash :: joinPath more := by
      rw [← List.singleton_append, joinPath_append (List.cons_ne_nil tier []) hmore,
        joinPath_singleton]
    rw [htail]
    simp

theorem tierOf_isSome_iff_below {location names : List Bytes} (hroot : Printed root location)
    (hne : location ≠ []) (hsource : m.resolve source st = some resolved)
    (hresolved : Printed resolved names) : (m.tierOf root source st).isSome = true ↔
      ∃ tier ∈ tiers, ∃ more, more ≠ [] ∧ names = location ++ tier :: more := by
  rw [tierOf_isSome]
  simp only [hsource, Option.some.injEq, exists_eq_left']
  exact exists_congr fun tier ↦ and_congr_right fun htier ↦
    prefix_iff_below htier hroot hne hresolved

theorem quarantine_refuses_related_iff (m : Machine) (path : Bytes) (options : TierOptions)
    (st : HostState) :
    (∀ root, m.environmentRoot options.root = some root → m.Related root path st →
      m.TurnsAway path options st) ↔
    ∀ root source, m.environmentRoot options.root = some root → m.resolve path st = some source →
      m.Related root path st → m.Stopped root source options st := by
  constructor
  · intro h root source hroot hsource hrelated
    exact (turnsAway_iff hroot hsource).mp (h root hroot hrelated)
  · intro h root hroot hrelated
    obtain ⟨source, location, hsource, hlocation, hrelation⟩ := hrelated
    exact (turnsAway_iff hroot hsource).mpr
      (h root source hroot hsource ⟨source, location, hsource, hlocation, hrelation⟩)

end Machine

def printingMachine : Machine :=
  { plainMachine with
    capture := fun _ command ↦
      if command = ascii "cd '/s' 2>/dev/null && pwd -P" then ascii "/s\n" else [] }

/-- The root is copied into itself, and then the copy is removed. -/
theorem quarantine_adopts_root :
    printingMachine.environmentRoot none = some (ascii "/s") ∧
    printingMachine.Related (ascii "/s") (ascii "/s") { fs := demoDisk } ∧
    ¬ printingMachine.TurnsAway (ascii "/s") {} { fs := demoDisk } ∧
    (printingMachine.quarantine (ascii "/s") {} { fs := demoDisk }).2.log =
      [.copy [ascii "s", ascii "sandbox", ascii "s"],
        .remove [ascii "s", ascii "sandbox", ascii "s"]] := by
  have hstep : printingMachine.quarantineStep (ascii "/s") {} { fs := demoDisk } =
      .copy (ascii "/s") (ascii "/s/sandbox/s") := by
    decide +kernel
  refine ⟨rfl, ⟨ascii "/s", ascii "/s", by decide +kernel, by decide +kernel, .inl ?_⟩, ?_, ?_⟩
  · exact List.prefix_refl _
  · intro h
    obtain ⟨code, hstop, _⟩ := h
    rw [hstep] at hstop
    cases hstop
  · decide +kernel

end SquaredPg
