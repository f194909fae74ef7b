import SquaredPg.TierCommands

namespace SquaredPg

open Ascii

namespace Machine

variable (m : Machine)

def rootLocation (root : Bytes) : Location :=
  locate (FileSystem.start m.cwd (.ofBytes (root ++ ascii "/"))) (splitPath root)

def tierLocation (root tier : Bytes) : Location := m.rootLocation root ++ [tier]

/-- Where a name leads from the directory of a tier. -/
def placeIn (root tier name : Bytes) : Location :=
  locate (m.tierLocation root tier) (splitPath name)

def TierChild (root : Bytes) (l : Location) : Prop :=
  ∃ tier ∈ tiers, ∃ name, l = m.tierLocation root tier ++ [name]

def StaysInTiers (root : Bytes) (log : List TreeStep) : Prop :=
  ∀ step ∈ log, ∀ l ∈ step.places, m.TierChild root l

/-- What stands in front of the last element of a name leads from a tier to a tier. -/
def Leads (root name : Bytes) : Prop :=
  ∃ before last, splitPath name = before ++ [last] ∧ ∃ tier ∈ tiers,
    locate (m.tierLocation root (ascii "sandbox")) before = m.tierLocation root tier

variable {m} {root tier name text : Bytes} {fs : FileSystem} {st : HostState}

theorem start_eq (root rest : Bytes) :
    FileSystem.start m.cwd (.ofBytes (root ++ ascii "/" ++ rest)) =
      FileSystem.start m.cwd (.ofBytes (root ++ ascii "/")) := by
  have hhead : (root ++ ascii "/" ++ rest).head? = (root ++ ascii "/").head? := by
    cases root <;> rfl
  have habsolute : (HostPath.ofBytes (root ++ ascii "/" ++ rest)).absolute =
      (HostPath.ofBytes (root ++ ascii "/")).absolute := by
    simp only [HostPath.ofBytes, hhead]
  rw [FileSystem.start, habsolute]
  rfl

theorem tier_plain (h : tier ∈ tiers) : Plain tier ∧ splitPath tier = [tier] := by
  have hall : ∀ tier ∈ tiers, Plain tier ∧ splitPath tier = [tier] := by decide
  exact hall tier h

theorem splitPath_tierPath (h : tier ∈ tiers) (root name : Bytes) :
    splitPath (tierPath root tier name) = splitPath root ++ tier :: splitPath name := by
  have hshape : tierPath root tier name = root ++ slash :: (tier ++ slash :: name) := by
    simp [tierPath, ascii, charByte]
  rw [hshape, splitPath_append, splitPath_append, (tier_plain h).2]
  rfl

theorem resolve_ofBytes (fs : FileSystem) (text : Bytes) :
    FileSystem.resolve m.cwd fs (.ofBytes text) =
    FileSystem.walk fs (FileSystem.start m.cwd (.ofBytes text)) (splitPath text) ∨
    FileSystem.resolve m.cwd fs (.ofBytes text) =
      (FileSystem.walk fs (FileSystem.start m.cwd (.ofBytes text)) (splitPath text)).filter
        fs.isDir := by
  unfold FileSystem.resolve
  by_cases h : text.getLast? = some slash ∧ splitPath text ≠ []
  · right
    have hparts : (HostPath.ofBytes text).parts = splitPath text ++ [[]] := by
      simp only [HostPath.ofBytes, if_pos h]
    rw [hparts, FileSystem.walk_append]
    cases FileSystem.walk fs (FileSystem.start m.cwd (.ofBytes text)) (splitPath text) with
    | none => rfl
    | some l => simp [FileSystem.walk, advance, Option.filter]
  · left
    have hparts : (HostPath.ofBytes text).parts = splitPath text := by
      simp only [HostPath.ofBytes, if_neg h, List.append_nil]
    rw [hparts]

theorem isDirectory_ofBytes (text : Bytes) : FileSystem.isDirectory m.cwd fs (.ofBytes text) =
    (FileSystem.walk fs (FileSystem.start m.cwd (.ofBytes text)) (splitPath text)).any fs.isDir := by
  rw [FileSystem.isDirectory]
  obtain h | h := resolve_ofBytes (m := m) fs text
  · rw [h]
  · rw [h]
    cases FileSystem.walk fs (FileSystem.start m.cwd (.ofBytes text)) (splitPath text) with
    | none => rfl
    | some l => cases hl : fs.isDir l <;> simp [Option.filter, hl]

theorem start_tierPath (root tier name : Bytes) :
    FileSystem.start m.cwd (.ofBytes (tierPath root tier name)) =
      FileSystem.start m.cwd (.ofBytes (root ++ ascii "/")) := by
  rw [tierPath, List.append_assoc, List.append_assoc, start_eq]

theorem resolve_tierPath (htier : tier ∈ tiers) {l : Location}
    (h : FileSystem.resolve m.cwd fs (.ofBytes (tierPath root tier name)) = some l) :
    l = locate (m.tierLocation root tier) (splitPath name) := by
  have hwalk : FileSystem.walk fs (FileSystem.start m.cwd (.ofBytes (tierPath root tier name)))
      (splitPath (tierPath root tier name)) = some l := by
    obtain hr | hr := resolve_ofBytes (m := m) fs (tierPath root tier name)
    · rw [← hr, h]
    · rw [hr, Option.filter_eq_some_iff] at h
      exact h.1
  have hl := (FileSystem.walk_eq_some.mp hwalk).1
  rw [start_tierPath, splitPath_tierPath htier, ← List.singleton_append, ← List.append_assoc,
    locate_append, locate_concat, advance_plain (tier_plain htier).1] at hl
  exact hl

theorem walk_tier (h : m.initialised root st = true) (htier : tier ∈ tiers) :
    FileSystem.walk st.fs (FileSystem.start m.cwd (.ofBytes (root ++ ascii "/")))
      (splitPath root ++ [tier]) = some (m.tierLocation root tier) ∧
      st.fs.isDir (m.tierLocation root tier) = true := by
  have hdir : m.isDir (root ++ ascii "/" ++ tier) st = true := by
    simp only [initialised, Bool.and_eq_true] at h
    simp only [tiers, List.mem_cons, List.not_mem_nil, or_false] at htier
    rcases htier with rfl | rfl
    · rw [List.append_assoc]
      exact h.2
    · rw [List.append_assoc]
      exact h.1.2
  rw [isDir_eq, Bool.and_eq_true, isDirectory, decide_eq_true_eq] at hdir
  have hwalk := hdir.2
  have hsplit : splitPath (root ++ ascii "/" ++ tier) = splitPath root ++ [tier] := by
    rw [List.append_assoc]
    exact (splitPath_append root tier).trans (by rw [(tier_plain htier).2])
  simp only [decide_eq_true_eq, isDirectory_ofBytes, start_eq, hsplit, Option.any_eq_true]
    at hwalk
  obtain ⟨-, l, hl, hisDir⟩ := hwalk
  have hlocation := (FileSystem.walk_eq_some.mp hl).1
  rw [locate_concat, advance_plain (tier_plain htier).1] at hlocation
  subst hlocation
  exact ⟨hl, hisDir⟩

theorem walk_tierPath (h : m.initialised root st = true) (htier : tier ∈ tiers) (name : Bytes) :
    FileSystem.walk st.fs (FileSystem.start m.cwd (.ofBytes (tierPath root tier name)))
      (splitPath (tierPath root tier name)) =
      FileSystem.walk st.fs (m.tierLocation root tier) (splitPath name) := by
  have hsplit : splitPath (tierPath root tier name) =
      (splitPath root ++ [tier]) ++ splitPath name := by
    rw [splitPath_tierPath htier, List.append_assoc]
    rfl
  rw [start_tierPath, hsplit, FileSystem.walk_append, (walk_tier h htier).1]
  rfl

theorem leads_of_tier {a b : Bytes} {cs : List Bytes} (hb : b ∈ tiers)
    (h : ∃ tier ∈ tiers, locate (m.tierLocation root a) cs = m.tierLocation root tier) :
    ∃ tier ∈ tiers, locate (m.tierLocation root b) cs = m.tierLocation root tier := by
  obtain ⟨tier, htier, heq⟩ := h
  obtain ⟨y, ha, hb'⟩ | hmeet := locate_parallel (m.rootLocation root) a b [] cs
  · rw [tierLocation, ha, tierLocation, List.append_cancel_left_eq, List.cons.injEq] at heq
    refine ⟨b, hb, ?_⟩
    rw [tierLocation, hb', heq.2]
  · refine ⟨tier, htier, ?_⟩
    rw [tierLocation, ← hmeet]
    exact heq

theorem tierChild_concat {l : Location} {last : Bytes} :
    m.TierChild root (l ++ [last]) ↔ ∃ tier ∈ tiers, l = m.tierLocation root tier := by
  constructor
  · intro ⟨tier, htier, name, heq⟩
    exact ⟨tier, htier, List.append_inj_left' heq rfl⟩
  · intro ⟨tier, htier, heq⟩
    exact ⟨tier, htier, last, by rw [heq]⟩

def EndsPlain (name : Bytes) : Prop := ∀ last ∈ (splitPath name).getLast?, Plain last

theorem tierChild_locate (root : Bytes) (htier : tier ∈ tiers) (hname : EndsPlain name) :
    m.TierChild root (locate (m.tierLocation root tier) (splitPath name)) ↔ m.Leads root name := by
  rcases List.eq_nil_or_concat' (splitPath name) with hnil | ⟨before, last, hsplit⟩
  · rw [hnil]
    constructor
    · intro hchild
      obtain ⟨other, _, child, heq⟩ := hchild
      have hlen := congrArg List.length heq
      simp [locate, tierLocation] at hlen
    · intro hleads
      obtain ⟨before, last, heq, _⟩ := hleads
      rw [hnil] at heq
      exact absurd heq.symm (by simp)
  · have hplain : Plain last := hname last (by simp [hsplit])
    rw [hsplit, locate_concat, advance_plain hplain, tierChild_concat]
    constructor
    · intro h
      exact ⟨before, last, hsplit, leads_of_tier (by decide) h⟩
    · intro hleads
      obtain ⟨before', last', heq, h⟩ := hleads
      rw [hsplit] at heq
      rw [(List.append_inj' heq rfl).1]
      exact leads_of_tier htier h

theorem isDir_tierPath (h : m.initialised root st = true) (htier : tier ∈ tiers) :
    m.isDir (tierPath root tier name) st = true ↔ (0 : UInt8) ∉ tierPath root tier name ∧
      (FileSystem.walk st.fs (m.tierLocation root tier) (splitPath name)).any st.fs.isDir = true := by
  have hne : tierPath root tier name ≠ [] := by simp [tierPath, ascii]
  rw [isDir_eq, isDirectory, isDirectory_ofBytes, walk_tierPath h htier]
  simp [hne]

theorem entryAt_tierPath (h : m.initialised root st = true) (htier : tier ∈ tiers)
    {l : Location} : m.entryAt (.ofBytes (tierPath root tier name)) st.fs = some l ↔
      EndsPlain name ∧ FileSystem.walk st.fs (m.tierLocation root tier) (splitPath name) = some l := by
  have hlast : (splitPath (tierPath root tier name)).getLast?.getD [] =
      (splitPath name).getLast?.getD tier := by
    rw [splitPath_tierPath htier]
    cases splitPath name using List.reverseRecOn with
    | nil => simp
    | append_singleton before last => simp [List.getLast?_append, List.getLast?_cons]
  have hplain : Plain ((splitPath name).getLast?.getD tier) ↔ EndsPlain name := by
    unfold EndsPlain
    cases (splitPath name).getLast? with
    | none => simp [(tier_plain htier).1]
    | some last => simp
  have hstart : ∀ p : HostPath, FileSystem.start m.cwd { p with parts := p.stem } =
      FileSystem.start m.cwd p := fun _ ↦ rfl
  have hiff : Plain ((HostPath.ofBytes (tierPath root tier name)).stem.getLast?.getD []) ↔
      EndsPlain name := by
    rw [HostPath.stem_ofBytes, hlast]
    exact hplain
  rw [entryAt, FileSystem.resolveEntry, FileSystem.resolve, hstart, HostPath.filename,
    HostPath.stem_ofBytes, walk_tierPath h htier]
  rw [HostPath.stem_ofBytes] at hiff
  by_cases hname : EndsPlain name
  · rw [if_pos (hiff.mpr hname)]
    simp [hname]
  · rw [if_neg fun hp ↦ hname (hiff.mp hp)]
    simp [hname]

variable {fromTier toTier : Bytes} {dst : Location}

theorem exists_of_isDir {path : Bytes} (h : m.isDir path st = true) : m.exists_ path st = true := by
  rw [isDir_eq, Bool.and_eq_true, decide_eq_true_eq] at h
  obtain ⟨hnul, hdir⟩ := h
  rw [exists_eq m hnul, existsAt, decide_eq_true_eq]
  rw [isDirectory, decide_eq_true_eq] at hdir
  refine ⟨hdir.1, ?_⟩
  have hisDir := hdir.2
  rw [FileSystem.isDirectory, Option.any_eq_true] at hisDir
  obtain ⟨l, hl, hnode⟩ := hisDir
  rw [FileSystem.existsAt, hl]
  simp [FileTree.isDir_iff.mp hnode]

theorem fileSystem_rename_eq (s t : HostPath) : FileSystem.rename m.cwd fs s t =
    match m.entryAt s fs, m.entryAt t fs with
    | some src, some dst =>
      if src = dst then (none, fs)
      else if fs.Movable src dst ∧ FileSystem.replaceable fs src dst then (none, fs.move src dst)
      else (some enotempty, fs)
    | _, _ => (some enoent, fs) := rfl

theorem length_locate_tier (root a b : Bytes) (cs : List Bytes) :
    (locate (m.tierLocation root a) cs).length = (locate (m.tierLocation root b) cs).length := by
  obtain ⟨y, ha, hb⟩ | hmeet := locate_parallel (m.rootLocation root) a b [] cs
  · rw [tierLocation, ha, tierLocation, hb]
    simp
  · rw [tierLocation, hmeet, tierLocation]

theorem locate_tier_ne_nil (hname : EndsPlain name) :
    locate (m.tierLocation root tier) (splitPath name) ≠ [] := by
  rcases List.eq_nil_or_concat' (splitPath name) with hnil | ⟨before, last, hsplit⟩
  · rw [hnil]
    simp [locate, tierLocation]
  · have hplain : Plain last := hname last (by simp [hsplit])
    rw [hsplit, locate_concat, advance_plain hplain]
    simp

theorem parent_of_missing (h : m.initialised root st = true) (htier : tier ∈ tiers)
    (hname : EndsPlain name)
    (hwalk : FileSystem.walk st.fs (m.tierLocation root tier) (splitPath name) = some dst)
    (hnone : st.fs.node dst = none) : st.fs.isDir dst.dropLast = true := by
  rcases List.eq_nil_or_concat' (splitPath name) with hnil | ⟨before, last, hsplit⟩
  · rw [hnil] at hwalk
    cases hwalk
    have hdir := FileTree.isDir_iff.mp (walk_tier h htier).2
    rw [hnone] at hdir
    cases hdir
  · have hplain : Plain last := hname last (by simp [hsplit])
    rw [hsplit] at hwalk
    obtain ⟨hmade, heq⟩ := FileSystem.made_of_walk hwalk
    rw [heq, advance_plain hplain, List.dropLast_concat]
    exact FileTree.isDir_iff.mpr (hmade before (List.prefix_refl _))

theorem rename_tierPath (h : m.initialised root st = true) (hfrom : fromTier ∈ tiers)
    (hto : toTier ∈ tiers) (hsource : m.isDir (tierPath root fromTier name) st = true)
    (hnul : (0 : UInt8) ∉ tierPath root toTier name)
    (hdst : m.entryAt (.ofBytes (tierPath root toTier name)) st.fs = some dst)
    (hnone : st.fs.node dst = none) :
    EndsPlain name ∧ st.fs.Movable (m.placeIn root fromTier name) (m.placeIn root toTier name) ∧
      m.rename (tierPath root fromTier name) (tierPath root toTier name) st = (true,
        { fs := st.fs.move (m.placeIn root fromTier name) (m.placeIn root toTier name)
          log := st.log ++ [.move (m.placeIn root fromTier name) (m.placeIn root toTier name)] }) := by
  obtain ⟨hsourceNul, hdir⟩ := (isDir_tierPath h hfrom).mp hsource
  rw [Option.any_eq_true] at hdir
  obtain ⟨src, hsrc, hisDir⟩ := hdir
  obtain ⟨hname, hwalk⟩ := (entryAt_tierPath h hto).mp hdst
  have hentry := (entryAt_tierPath h hfrom).mpr ⟨hname, hsrc⟩
  have hsrcEq := (FileSystem.walk_eq_some.mp hsrc).1
  have hdstEq := (FileSystem.walk_eq_some.mp hwalk).1
  have hnode := FileTree.isDir_iff.mp hisDir
  have hneq : src ≠ dst := by
    intro heq
    rw [heq, hnone] at hnode
    cases hnode
  have hlen : src.length = dst.length := by
    rw [hsrcEq, hdstEq]
    exact length_locate_tier root fromTier toTier (splitPath name)
  have hparent := parent_of_missing h hto hname hwalk hnone
  have hmovable : st.fs.Movable src dst := by
    refine ⟨?_, ?_, by simp [hnode], ?_, hparent, FileTree.emptyBelow_of_none hnone⟩
    · rw [hsrcEq]
      exact locate_tier_ne_nil hname
    · rw [hdstEq]
      exact locate_tier_ne_nil hname
    · exact fun hp ↦ hneq (hp.eq_of_length hlen)
  have hreplaceable : FileSystem.replaceable st.fs src dst = true := by
    simp [FileSystem.replaceable, hnone]
  rw [placeIn, placeIn, ← hsrcEq, ← hdstEq]
  refine ⟨hname, hmovable, ?_⟩
  rw [rename, cString_of_not_mem hsourceNul, cString_of_not_mem hnul]
  simp only [fileSystem_rename_eq, hentry, hdst, if_neg hneq, hmovable, hreplaceable, and_self,
    if_true]

theorem rename_fails (h : m.initialised root st = true) (hfrom : fromTier ∈ tiers)
    (hto : toTier ∈ tiers) (hsource : m.isDir (tierPath root fromTier name) st = true)
    (hnul : (0 : UInt8) ∉ tierPath root toTier name)
    (hexists : m.exists_ (tierPath root toTier name) st = false)
    (hdst : ∀ dst, m.entryAt (.ofBytes (tierPath root toTier name)) st.fs = some dst →
      st.fs.node dst ≠ none) :
    m.rename (tierPath root fromTier name) (tierPath root toTier name) st = (false, st) := by
  obtain ⟨hsourceNul, hdir⟩ := (isDir_tierPath h hfrom).mp hsource
  rw [Option.any_eq_true] at hdir
  obtain ⟨src, hsrc, hisDir⟩ := hdir
  rw [rename, cString_of_not_mem hsourceNul, cString_of_not_mem hnul]
  cases hentry : m.entryAt (.ofBytes (tierPath root toTier name)) st.fs with
  | none =>
    simp only [fileSystem_rename_eq, hentry]
    cases m.entryAt (.ofBytes (tierPath root fromTier name)) st.fs <;> rfl
  | some dst =>
    obtain ⟨hname, hwalk⟩ := (entryAt_tierPath h hto).mp hentry
    have hsrcEntry := (entryAt_tierPath h hfrom).mpr ⟨hname, hsrc⟩
    have hfile : st.fs.isDir dst = false := by
      rw [Bool.eq_false_iff]
      intro hdir
      have hisDir : m.isDir (tierPath root toTier name) st = true :=
        (isDir_tierPath h hto).mpr ⟨hnul, by rw [hwalk]; exact hdir⟩
      rw [exists_of_isDir hisDir] at hexists
      cases hexists
    have hneq : src ≠ dst := by
      intro heq
      rw [heq, hfile] at hisDir
      cases hisDir
    have hreplaceable : FileSystem.replaceable st.fs src dst = false := by
      cases hnode : st.fs.node dst with
      | none => exact absurd hnode (hdst dst hentry)
      | some e =>
        have he : e.isDir = false := by simpa [FileTree.isDir, hnode] using hfile
        simp [FileSystem.replaceable, hnode, he, hisDir]
    simp only [fileSystem_rename_eq, hentry, hsrcEntry, if_neg hneq, hreplaceable,
      Bool.false_eq_true, and_false, if_false]

/-- The root that a command works on. -/
def environmentRoot (m : Machine) (option : Option Bytes) : Option Bytes :=
  m.root.map fun declared ↦ option.getD declared

def Moves (m : Machine) (root fromTier toTier name : Bytes) (options : TierOptions)
    (st : HostState) : Prop :=
  m.initialised root st = true ∧ options.explain = false ∧
    m.isDir (tierPath root fromTier name) st = true ∧
    ∃ dst, m.entryAt (.ofBytes (tierPath root toTier name)) st.fs = some dst ∧
      st.fs.node dst = none

theorem nul_tierPath (htier : tier ∈ tiers) (root name : Bytes) :
    (0 : UInt8) ∉ tierPath root tier name ↔ (0 : UInt8) ∉ root ∧ (0 : UInt8) ∉ name := by
  have hslash : (0 : UInt8) ∉ ascii "/" := by decide
  have hall : ∀ tier ∈ tiers, (0 : UInt8) ∉ tier := by decide
  simp [tierPath, hslash, hall tier htier]

theorem free_of_missing (h : m.initialised root st = true) (htier : tier ∈ tiers)
    (hnul : (0 : UInt8) ∉ tierPath root tier name)
    (hdst : m.entryAt (.ofBytes (tierPath root tier name)) st.fs = some dst)
    (hnone : st.fs.node dst = none) : m.exists_ (tierPath root tier name) st = false := by
  rw [Bool.eq_false_iff, exists_eq m hnul, existsAt]
  intro hexists
  rw [decide_eq_true_eq, FileSystem.existsAt, Option.any_eq_true] at hexists
  obtain ⟨-, l, hl, hnode⟩ := hexists
  obtain ⟨-, hwalk⟩ := (entryAt_tierPath h htier).mp hdst
  have heq : l = dst := (resolve_tierPath htier hl).trans (FileSystem.walk_eq_some.mp hwalk).1.symm
  rw [heq, hnone] at hnode
  cases hnode

theorem nul_other_tier (hfrom : fromTier ∈ tiers) (hto : toTier ∈ tiers)
    (h : m.isDir (tierPath root fromTier name) st = true) :
    (0 : UInt8) ∉ tierPath root toTier name := by
  rw [isDir_eq, Bool.and_eq_true, decide_eq_true_eq] at h
  rw [nul_tierPath hto, ← nul_tierPath hfrom]
  exact h.1

theorem moveBetween_of_moves {options : TierOptions} (hfrom : fromTier ∈ tiers)
    (hto : toTier ∈ tiers) (hroot : m.environmentRoot options.root = some root)
    (h : m.Moves root fromTier toTier name options st) :
    EndsPlain name ∧ st.fs.Movable (m.placeIn root fromTier name) (m.placeIn root toTier name) ∧
      m.moveBetween fromTier toTier name options st =
        ⟨0, some (tierPath root fromTier name, tierPath root toTier name),
          { fs := st.fs.move (m.placeIn root fromTier name) (m.placeIn root toTier name)
            log := st.log ++ [.move (m.placeIn root fromTier name)
              (m.placeIn root toTier name)] }⟩ := by
  obtain ⟨declared, hdeclared, hroot⟩ := Option.map_eq_some_iff.mp hroot
  obtain ⟨hinit, hexplain, hdir, dst, hdst, hnone⟩ := h
  have hnul := nul_other_tier hfrom hto hdir
  obtain ⟨hname, hmovable, hrename⟩ := rename_tierPath hinit hfrom hto hdir hnul hdst hnone
  have hfree := free_of_missing hinit hto hnul hdst hnone
  refine ⟨hname, hmovable, ?_⟩
  simp only [moveBetween, hdeclared, hroot, hinit, hdir, hfree, hexplain, hrename,
    Bool.true_eq_false, Bool.false_eq_true, if_false]

theorem moveBetween_of_stays {options : TierOptions} (hfrom : fromTier ∈ tiers)
    (hto : toTier ∈ tiers) (hroot : m.environmentRoot options.root = some root)
    (h : ¬ m.Moves root fromTier toTier name options st) :
    (m.moveBetween fromTier toTier name options st).state = st ∧
      (options.explain = false → (m.moveBetween fromTier toTier name options st).code = 1 ∧
        (m.moveBetween fromTier toTier name options st).paths = none) := by
  obtain ⟨declared, hdeclared, hroot⟩ := Option.map_eq_some_iff.mp hroot
  simp only [moveBetween, hdeclared, hroot]
  split_ifs with hinit hdir hexists hexplain
  · simp
  · simp
  · simp
  · simp [hexplain]
  · simp only [Bool.not_eq_false, Bool.not_eq_true] at hinit hdir hexists hexplain
    rw [rename_fails hinit hfrom hto hdir (nul_other_tier hfrom hto hdir) hexists
      fun dst hdst hnone ↦ h ⟨hinit, hexplain, hdir, dst, hdst, hnone⟩]
    simp

theorem moveBetween_log (hfrom : fromTier ∈ tiers) (hto : toTier ∈ tiers) (options : TierOptions)
    (hroot : m.environmentRoot options.root = some root) (name : Bytes) (st : HostState) :
    (m.Moves root fromTier toTier name options st → EndsPlain name ∧
      (m.moveBetween fromTier toTier name options st).state.log =
        st.log ++ [.move (locate (m.tierLocation root fromTier) (splitPath name))
          (locate (m.tierLocation root toTier) (splitPath name))]) ∧
      (¬ m.Moves root fromTier toTier name options st →
        (m.moveBetween fromTier toTier name options st).state.log = st.log) := by
  constructor
  · intro hmoves
    obtain ⟨hname, -, hmoved⟩ := moveBetween_of_moves hfrom hto hroot hmoves
    refine ⟨hname, ?_⟩
    rw [hmoved]
    rfl
  · intro hmoves
    rw [(moveBetween_of_stays hfrom hto hroot hmoves).1]

theorem removeEntry_log (path : Bytes) (st : HostState) : (m.removeEntry path st).log = st.log := by
  unfold removeEntry
  split
  · rfl
  · split_ifs <;> rfl

theorem writeFile_log (path contents : Bytes) (st : HostState) :
    (m.writeFile path contents st).log = st.log := by
  unfold writeFile
  dsimp only
  split <;> rfl

theorem promote_log (name : Bytes) (options : TierOptions) (st : HostState) :
    (m.promote name options st).2.log =
      (m.moveBetween (ascii "sandbox") (ascii "project") name options st).state.log := by
  unfold promote
  dsimp only
  split
  · rfl
  · split_ifs
    · rfl
    · exact removeEntry_log _ _
    · exact removeEntry_log _ _

theorem demote_log (name : Bytes) (options : TierOptions) (st : HostState) :
    (m.demote name options st).2.log =
      (m.moveBetween (ascii "project") (ascii "sandbox") name options st).state.log := by
  unfold demote
  dsimp only
  split
  · rfl
  · split_ifs
    · rfl
    · exact writeFile_log _ _ _

/-- A move stays in the tiers exactly when its name leads there. -/
theorem moveBetween_stays (hfrom : fromTier ∈ tiers) (hto : toTier ∈ tiers)
    (options : TierOptions) (hroot : m.environmentRoot options.root = some root) (fs : FileSystem) :
    m.StaysInTiers root (m.moveBetween fromTier toTier name options { fs }).state.log ↔
      (m.Moves root fromTier toTier name options { fs } → m.Leads root name) := by
  obtain ⟨hmoved, hkept⟩ :=
    moveBetween_log (m := m) hfrom hto options hroot name { fs }
  by_cases hmoves : m.Moves root fromTier toTier name options { fs }
  · obtain ⟨hname, hlog⟩ := hmoved hmoves
    rw [hlog, List.nil_append]
    have hsrc := tierChild_locate (m := m) root hfrom hname
    have hdst := tierChild_locate (m := m) root hto hname
    simp [StaysInTiers, TreeStep.places, hsrc, hdst, hmoves]
  · rw [hkept hmoves]
    simp [StaysInTiers, hmoves]

end Machine

end SquaredPg
