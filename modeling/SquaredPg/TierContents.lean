import SquaredPg.TierSafety

namespace SquaredPg

open Ascii

namespace FileSystem

variable {fs fs' : FileSystem} {l x : Location} {cs : List Bytes} {cwd : Location} {p : HostPath}

theorem walk_mono (hdirs : ∀ x, fs.node x = some .dir → fs'.node x = some .dir)
    (h : walk fs l cs = some x) : walk fs' l cs = some x := by
  rw [walk_eq_some] at h ⊢
  exact ⟨h.1, fun ds hp hne ↦ hdirs _ (h.2 ds hp hne)⟩

theorem resolveEntry_mono (hdirs : ∀ x, fs.node x = some .dir → fs'.node x = some .dir)
    (h : resolveEntry cwd fs p = some x) : resolveEntry cwd fs' p = some x := by
  unfold resolveEntry at h ⊢
  split_ifs at h ⊢
  exact walk_mono hdirs h

theorem parent_of_resolveEntry (h : resolveEntry cwd fs p = some l) :
    l ≠ [] ∧ fs.isDir l.dropLast = true := by
  unfold resolveEntry at h
  split_ifs at h with hplain
  have hparts := HostPath.parts_of_named hplain.1
  rw [resolve, hparts] at h
  obtain ⟨hmade, rfl⟩ := made_of_walk h
  rw [advance_plain hplain]
  refine ⟨by simp, ?_⟩
  rw [List.dropLast_concat]
  exact FileTree.isDir_iff.mpr (hmade _ (List.prefix_refl _))

theorem fits_file {data : FileData} (h : resolveEntry cwd fs p = some l)
    (hdir : fs.node l ≠ some .dir) : fs.Fits l (.file data) := by
  obtain ⟨hne, hparent⟩ := parent_of_resolveEntry h
  refine ⟨hne, hparent, .inr ?_⟩
  rw [Bool.eq_false_iff, Ne, FileTree.isDir_iff]
  exact hdir

theorem dir_put_file {data : FileData} (hdir : fs.node l ≠ some .dir)
    (hx : fs.node x = some .dir) : (fs.put l (.file data)).node x = some .dir := by
  rw [FileTree.node_put_other, hx]
  rintro rfl
  exact hdir hx

end FileSystem

structure Settled (content : Bytes) (l : Location) (reached : Prop) (fs fs' : FileSystem) : Prop where
  others : ∀ x data, x ≠ l → fs.node x = some (.file data) → fs'.node x = some (.file data)
  entry : fs'.node l = fs.node l ∨
    ∀ data, fs'.node l = some (.file data) → data.content = content
  reached : reached → ∀ data, fs'.node l = some (.file data) → data.content = content

theorem Settled.weaken {content : Bytes} {l : Location} {reached reached' : Prop}
    {fs fs' : FileSystem} (h : Settled content l reached fs fs') (hreached : reached' → reached) :
    Settled content l reached' fs fs' :=
  ⟨h.others, h.entry, fun h' ↦ h.reached (hreached h')⟩

namespace Machine

variable {m : Machine} {path content : Bytes} {l : Location} {st : HostState}

def entryOf (m : Machine) (path : Bytes) (fs : FileSystem) : Option Location :=
  FileSystem.resolveEntry m.cwd fs (.ofBytes (cString path))

theorem removeEntry_settled (h : ∀ l', m.entryOf path st.fs = some l' → l' = l) :
    Settled content l (m.entryOf path st.fs ≠ none) st.fs (m.removeEntry path st).fs := by
  unfold removeEntry
  rw [← entryOf]
  cases hentry : m.entryOf path st.fs with
  | none => exact ⟨fun _ _ _ hx ↦ hx, .inl rfl, fun hne ↦ absurd rfl hne⟩
  | some l' =>
    obtain rfl := h l' hentry
    obtain ⟨hne, -⟩ := FileSystem.parent_of_resolveEntry hentry
    dsimp only
    split_ifs with hempty
    · have hgone : (st.fs.prune l').node l' = none := by
        rw [FileTree.node_prune hne, if_pos (List.prefix_refl _)]
      refine ⟨?_, .inr ?_, fun _ ↦ ?_⟩
      · intro x data hx hfile
        rw [FileTree.node_prune hne, if_neg, hfile]
        intro hp
        rw [FileTree.emptyBelow_iff.mp hempty x hp hx] at hfile
        cases hfile
      · intro data hdata
        rw [hgone] at hdata
        cases hdata
      · intro data hdata
        rw [hgone] at hdata
        cases hdata
    · refine ⟨fun _ _ _ hx ↦ hx, .inl rfl, fun _ data hdata ↦ ?_⟩
      -- below a file there is nothing, so that it would have been removed
      refine absurd (FileTree.emptyBelow_iff.mpr ?_) hempty
      intro x hp hx
      exact FileTree.none_below (by simp [hdata]) hp hx.symm

theorem fill_file {fs : FileSystem} (data : FileData) (content : Bytes)
    (hentry : m.entryOf path fs = some l)
    (hdir : fs.node l ≠ some .dir) :
    ∃ fs', FileSystem.writeContent m.cwd (fs.put l (.file data)) (.ofBytes (cString path)) content =
        (true, fs') ∧
      (∀ x, x ≠ l → fs'.node x = fs.node x) ∧
      fs'.node l = some (.file { data with content }) := by
  have hput : (fs.put l (.file data)).node l = some (.file data) := by
    rw [FileTree.node_put (FileSystem.fits_file hentry hdir), Layout.put_self]
  have hagain : FileSystem.resolveEntry m.cwd (fs.put l (.file data)) (.ofBytes (cString path)) =
      some l :=
    FileSystem.resolveEntry_mono (fun x hx ↦ FileSystem.dir_put_file hdir hx) hentry
  have hnot : (fs.put l (.file data)).node l ≠ some .dir := by simp [hput]
  refine ⟨(fs.put l (.file data)).put l (.file { data with content }), ?_, ?_, ?_⟩
  · rw [FileSystem.writeContent, FileSystem.editFile, hagain, Option.bind_some, hput]
  · intro x hx
    rw [FileTree.node_put_other hx, FileTree.node_put_other hx]
  · rw [FileTree.node_put (FileSystem.fits_file hagain hnot), Layout.put_self]

theorem writeFile_settled (h : ∀ l', m.entryOf path st.fs = some l' → l' = l) :
    Settled content l (m.entryOf path st.fs ≠ none) st.fs (m.writeFile path content st).fs := by
  have hentryOf : FileSystem.resolveEntry m.cwd st.fs (.ofBytes (cString path)) =
      m.entryOf path st.fs := rfl
  simp only [writeFile, FileSystem.openTruncated, hentryOf]
  have hfilled {data : FileData} {l' : Location} {fs : FileSystem}
      (hothers : ∀ x, x ≠ l' → fs.node x = st.fs.node x)
      (hentry : fs.node l' = some (.file { data with content })) {reached : Prop} :
      Settled content l' reached st.fs fs := by
    have hcontent : ∀ found, fs.node l' = some (.file found) → found.content = content := by
      intro found hfound
      rw [hentry] at hfound
      cases hfound
      rfl
    exact ⟨fun x data hx hfile ↦ (hothers x hx).trans hfile, .inr hcontent, fun _ ↦ hcontent⟩
  cases hentry : m.entryOf path st.fs with
  | none => exact ⟨fun _ _ _ hx ↦ hx, .inl rfl, fun hne ↦ absurd rfl hne⟩
  | some l' =>
    obtain rfl := h l' hentry
    dsimp only
    cases hnode : st.fs.node l' with
    | none =>
      obtain ⟨fs', hwrite, hothers, hfile⟩ :=
        fill_file ⟨[], false⟩ content hentry (by simp [hnode])
      dsimp only
      rw [hwrite]
      exact hfilled hothers hfile
    | some e =>
      cases e with
      | dir =>
        refine ⟨fun _ _ _ hx ↦ hx, .inl rfl, fun _ data hdata ↦ ?_⟩
        rw [hnode] at hdata
        cases hdata
      | file data =>
        obtain ⟨fs', hwrite, hothers, hfile⟩ :=
          fill_file { data with content := [] } content hentry (by simp [hnode])
        dsimp only
        rw [hwrite]
        exact hfilled hothers hfile

inductive TierMove
  | promote (options : TierOptions)
  | demote (options : TierOptions)

namespace TierMove

def options : TierMove → TierOptions
  | promote options => options
  | demote options => options

def fromTier : TierMove → Bytes
  | promote _ => ascii "sandbox"
  | demote _ => ascii "project"

def toTier : TierMove → Bytes
  | promote _ => ascii "project"
  | demote _ => ascii "sandbox"

def apply (m : Machine) (name : Bytes) (st : HostState) : TierMove → ℕ × HostState
  | promote options => m.promote name options st
  | demote options => m.demote name options st

def rename (m : Machine) (root name : Bytes) (st : HostState) (move : TierMove) : HostState :=
  { fs := st.fs.move (m.placeIn root move.fromTier name) (m.placeIn root move.toTier name)
    log := st.log ++ [.move (m.placeIn root move.fromTier name) (m.placeIn root move.toTier name)] }

def settle (m : Machine) (path : Bytes) (st : HostState) : TierMove → HostState
  | promote _ => m.removeEntry path st
  | demote _ => m.writeFile path agentsSandbox st

def Succeeds (m : Machine) (root name : Bytes) (st : HostState) (move : TierMove) : Prop :=
  m.environmentRoot move.options.root = some root ∧ move.options.explain = false ∧
    move.options.noGit = true ∧ (move.apply m name st).1 = 0

end TierMove

theorem settle_settled (st : HostState) (move : TierMove)
    (h : ∀ l', m.entryOf path st.fs = some l' → l' = l) :
    Settled agentsSandbox l (m.entryOf path st.fs ≠ none) st.fs (move.settle m path st).fs := by
  cases move with
  | promote options => exact removeEntry_settled h
  | demote options => exact writeFile_settled h

def agentsName : Bytes := ascii "AGENTS.md"

def agentsPath (root tier name : Bytes) : Bytes := tierPath root tier name ++ ascii "/AGENTS.md"

variable {root name tier : Bytes} {fs : FileSystem} {move : TierMove}

theorem fromTier_mem (move : TierMove) : move.fromTier ∈ tiers := by
  cases move <;> simp [TierMove.fromTier, tiers]

theorem toTier_mem (move : TierMove) : move.toTier ∈ tiers := by
  cases move <;> simp [TierMove.toTier, tiers]

theorem apply_of_succeeds (h : move.Succeeds m root name st) :
    m.Moves root move.fromTier move.toTier name move.options st ∧
    (move.apply m name st).2 =
      move.settle m (agentsPath root move.toTier name) (move.rename m root name st) := by
  obtain ⟨hroot, hexplain, hgit, hcode⟩ := h
  have hmoves : m.Moves root move.fromTier move.toTier name move.options st := by
    by_contra hnot
    obtain ⟨-, hstays⟩ := moveBetween_of_stays (fromTier_mem move) (toTier_mem move) hroot hnot
    obtain ⟨hone, hnone⟩ := hstays hexplain
    cases move with
    | promote options =>
      simp only [TierMove.fromTier, TierMove.toTier, TierMove.options] at hone hnone
      simp only [TierMove.apply, promote, hnone, hone] at hcode
      cases hcode
    | demote options =>
      simp only [TierMove.fromTier, TierMove.toTier, TierMove.options] at hone hnone
      simp only [TierMove.apply, demote, hnone, hone] at hcode
      cases hcode
  refine ⟨hmoves, ?_⟩
  obtain ⟨-, -, hmoved⟩ := moveBetween_of_moves (fromTier_mem move) (toTier_mem move) hroot hmoves
  cases move with
  | promote options =>
    simp only [TierMove.fromTier, TierMove.toTier, TierMove.options] at hmoved hexplain hgit ⊢
    simp only [TierMove.apply, promote, hmoved, hexplain, hgit, Bool.false_eq_true, if_false,
      true_or, if_true]
    rfl
  | demote options =>
    simp only [TierMove.fromTier, TierMove.toTier, TierMove.options] at hmoved hexplain ⊢
    simp only [TierMove.apply, demote, hmoved, hexplain, Bool.false_eq_true, if_false]
    rfl

theorem agentsPath_eq (root tier name : Bytes) :
    agentsPath root tier name = tierPath root tier (name ++ ascii "/AGENTS.md") := by
  simp [agentsPath, tierPath]

theorem splitPath_agents (name : Bytes) :
    splitPath (name ++ ascii "/AGENTS.md") = splitPath name ++ [agentsName] := by
  have hslash : ascii "/AGENTS.md" = slash :: agentsName := by decide
  have hsplit : splitPath agentsName = [agentsName] := by decide
  rw [hslash, splitPath_append, hsplit]

theorem plain_agents : Plain agentsName := by decide

theorem nul_agentsPath (hnul : (0 : UInt8) ∉ tierPath root tier name) :
    (0 : UInt8) ∉ agentsPath root tier name := by
  have hfixed : (0 : UInt8) ∉ ascii "/AGENTS.md" := by decide
  simp [agentsPath, hnul, hfixed]

theorem parts_agentsPath (root tier name : Bytes) :
    (HostPath.ofBytes (agentsPath root tier name)).parts =
      splitPath (tierPath root tier name) ++ [agentsName] := by
  have hlast : (agentsPath root tier name).getLast? ≠ some slash := by
    have hfixed : (ascii "/AGENTS.md").getLast? = some 100 := by decide
    simp [agentsPath, List.getLast?_append, hfixed, slash]
  have hsplit : splitPath (agentsPath root tier name) =
      splitPath (tierPath root tier name) ++ [agentsName] := splitPath_agents _
  simp only [HostPath.ofBytes, hlast, false_and, if_false, List.append_nil, hsplit]

theorem entryOf_agents (htier : tier ∈ tiers) (hnul : (0 : UInt8) ∉ tierPath root tier name)
    (h : m.entryOf (agentsPath root tier name) fs = some l) :
    l = m.placeIn root tier name ++ [agentsName] := by
  rw [entryOf, cString_of_not_mem (nul_agentsPath hnul), FileSystem.resolveEntry,
    agentsPath_eq] at h
  split_ifs at h
  rw [resolve_tierPath htier h, splitPath_agents, locate_concat, advance_plain plain_agents]
  rfl

/-- A path leads through what is at a location, or below it, before it ends. -/
def LeadsThrough (m : Machine) (path : Bytes) (l : Location) : Prop :=
  ∃ ds, ds <+: splitPath path ∧ ds ≠ splitPath path ∧
    l <+: locate (FileSystem.start m.cwd (.ofBytes path)) ds

theorem places_of_moves {options : TierOptions} {fromTier toTier : Bytes} (hfrom : fromTier ∈ tiers)
    (hto : toTier ∈ tiers) (h : m.Moves root fromTier toTier name options st) :
    (0 : UInt8) ∉ tierPath root toTier name ∧
    st.fs.node (m.placeIn root fromTier name) = some .dir ∧
    st.fs.node (m.placeIn root toTier name) = none ∧
    FileSystem.walk st.fs (FileSystem.start m.cwd (.ofBytes (tierPath root toTier name)))
      (splitPath (tierPath root toTier name)) = some (m.placeIn root toTier name) := by
  obtain ⟨hinit, -, hdir, dst, hdst, hnone⟩ := h
  obtain ⟨-, hwalk⟩ := (entryAt_tierPath hinit hto).mp hdst
  obtain rfl : dst = m.placeIn root toTier name := (FileSystem.walk_eq_some.mp hwalk).1
  have hsource := ((isDir_tierPath hinit hfrom).mp hdir).2
  rw [Option.any_eq_true] at hsource
  obtain ⟨src, hsrc, hisDir⟩ := hsource
  obtain rfl : src = m.placeIn root fromTier name := (FileSystem.walk_eq_some.mp hsrc).1
  refine ⟨nul_other_tier hfrom hto hdir, FileTree.isDir_iff.mp hisDir, hnone, ?_⟩
  rw [walk_tierPath hinit hto]
  exact hwalk

theorem entryOf_agents_moved {src dst : Location} (hmovable : fs.Movable src dst)
    (hnul : (0 : UInt8) ∉ tierPath root tier name) (hdir : fs.node src = some .dir)
    (hnone : fs.node dst = none)
    (hwalk : FileSystem.walk fs (FileSystem.start m.cwd (.ofBytes (tierPath root tier name)))
      (splitPath (tierPath root tier name)) = some dst)
    (hthrough : ¬ m.LeadsThrough (tierPath root tier name) src) :
    m.entryOf (agentsPath root tier name) (fs.move src dst) ≠ none := by
  have hcut := nul_agentsPath hnul
  have hparts := parts_agentsPath root tier name
  have hfilename : (HostPath.ofBytes (agentsPath root tier name)).filename = agentsName := by
    simp [HostPath.filename, hparts]
  have hstart : FileSystem.start m.cwd (.ofBytes (agentsPath root tier name)) =
      FileSystem.start m.cwd (.ofBytes (tierPath root tier name)) := by
    rw [agentsPath_eq, start_tierPath, start_tierPath]
  obtain ⟨hdst, hdirs⟩ := FileSystem.walk_eq_some.mp hwalk
  have hmoved : FileSystem.walk (fs.move src dst)
      (FileSystem.start m.cwd (.ofBytes (tierPath root tier name)))
      (splitPath (tierPath root tier name)) = some dst := by
    refine FileSystem.walk_eq_some.mpr ⟨hdst, ?_⟩
    intro ds hp hne
    have hold := hdirs ds hp hne
    rw [FileTree.node_move hmovable, if_neg, if_neg, hold]
    · intro hsrc
      exact hthrough ⟨ds, hp, hne, hsrc⟩
    · intro hunder
      by_cases heq : dst = locate (FileSystem.start m.cwd (.ofBytes (tierPath root tier name))) ds
      · rw [← heq, hnone] at hold
        cases hold
      · rw [FileTree.none_below (by simp [hnone]) hunder heq] at hold
        cases hold
  have hthere : (fs.move src dst).isDir dst = true := by
    rw [FileTree.isDir_iff, FileTree.node_move hmovable, if_pos (List.prefix_refl _)]
    simpa using hdir
  rw [entryOf, cString_of_not_mem hcut, FileSystem.resolveEntry, hfilename, if_pos plain_agents,
    FileSystem.resolve, hstart, hparts, FileSystem.walk_append, hmoved]
  simp [FileSystem.walk, hthere]

theorem move_settled (h : move.Succeeds m root name st) :
    let src := m.placeIn root move.fromTier name
    let dst := m.placeIn root move.toTier name
    Settled agentsSandbox (dst ++ [agentsName])
      (¬ m.LeadsThrough (tierPath root move.toTier name) src)
      (st.fs.move src dst) (move.apply m name st).2.fs ∧
    ∀ x, (st.fs.move src dst).node (dst ++ x) = st.fs.node (src ++ x) := by
  dsimp only
  obtain ⟨hmoves, happly⟩ := apply_of_succeeds h
  obtain ⟨-, hmovable, -⟩ := moveBetween_of_moves (fromTier_mem move) (toTier_mem move) h.1 hmoves
  obtain ⟨hnul, hdir, hnone, hwalk⟩ := places_of_moves (fromTier_mem move) (toTier_mem move) hmoves
  constructor
  · rw [happly]
    have hplace : ∀ l, m.entryOf (agentsPath root move.toTier name) (move.rename m root name st).fs =
        some l → l = m.placeIn root move.toTier name ++ [agentsName] :=
      fun l hl ↦ entryOf_agents (toTier_mem move) hnul hl
    exact (settle_settled (move.rename m root name st) move hplace).weaken
      (entryOf_agents_moved hmovable hnul hdir hnone hwalk)
  · intro x
    rw [FileTree.node_move hmovable, if_pos (List.prefix_append _ _), List.drop_left]

/-- Moves of one tree, each from the tier in which the one before has left it. -/
inductive Carries (m : Machine) (root name : Bytes) :
    Bytes → HostState → List TierMove → Bytes → HostState → Prop
  | stay (tier : Bytes) (st : HostState) : Carries m root name tier st [] tier st
  | step {move : TierMove} {moves : List TierMove} {tier : Bytes} {st st' : HostState}
    (h : move.Succeeds m root name st)
    (rest : Carries m root name move.toTier (move.apply m name st).2 moves tier st') :
    Carries m root name move.fromTier st (move :: moves) tier st'

def boundaryTexts : List Bytes := [agentsSandbox, agentsQuarantine]

/-- Every file of the tree is in it again, unless it was a text that squared-pg writes. -/
def TreeKept (m : Machine) (root name tier : Bytes) (st : HostState) (tier' : Bytes)
    (st' : HostState) : Prop :=
  ∀ x data, st.fs.node (m.placeIn root tier name ++ x) = some (.file data) →
    data.content ∈ boundaryTexts ∨
      st'.fs.node (m.placeIn root tier' name ++ x) = some (.file data)

/-- The tree has no `AGENTS.md` of its owner's. -/
def AgentsOurs (m : Machine) (root name tier : Bytes) (st : HostState) : Prop :=
  ∀ data, st.fs.node (m.placeIn root tier name ++ [agentsName]) = some (.file data) →
    data.content ∈ boundaryTexts

theorem head_ascii (cs : List Char) : (ascii (String.ofList cs)).head? = cs.head?.map charByte := by
  rw [ascii, String.toList_ofList, List.head?_map]

set_option maxRecDepth 4000 in
theorem head_boundaryTexts {text : Bytes} (h : text ∈ boundaryTexts) : text.head? = some 35 := by
  have hsandbox : agentsSandbox.head? = some 35 := head_ascii _
  have hquarantine : agentsQuarantine.head? = some 35 := head_ascii _
  simp only [boundaryTexts, List.mem_cons, List.not_mem_nil, or_false] at h
  obtain heq | heq := h
  · rw [heq, hsandbox]
  · rw [heq, hquarantine]

variable {moves : List TierMove} {tier' : Bytes} {st' : HostState}

theorem agentsSandbox_mem {data : FileData} (h : data.content = agentsSandbox) :
    data.content ∈ boundaryTexts := by simp [boundaryTexts, h]

theorem AgentsOurs.step (hours : AgentsOurs m root name move.fromTier st)
    (h : move.Succeeds m root name st) :
    AgentsOurs m root name move.toTier (move.apply m name st).2 := by
  obtain ⟨hsettled, hmoved⟩ := move_settled h
  intro data hdata
  obtain heq | hnew := hsettled.entry
  · rw [heq, hmoved] at hdata
    exact hours data hdata
  · exact agentsSandbox_mem (hnew data hdata)

theorem treeKept_step (hours : AgentsOurs m root name move.fromTier st)
    (h : move.Succeeds m root name st) :
    TreeKept m root name move.fromTier st move.toTier (move.apply m name st).2 := by
  obtain ⟨hsettled, hmoved⟩ := move_settled h
  intro x data hdata
  by_cases hx : x = [agentsName]
  · left
    rw [hx] at hdata
    exact hours data hdata
  · right
    refine hsettled.others _ data ?_ ?_
    · intro heq
      exact hx (List.append_cancel_left heq)
    · rw [hmoved]
      exact hdata

theorem AgentsOurs.carried (hours : AgentsOurs m root name tier st)
    (h : Carries m root name tier st moves tier' st') : AgentsOurs m root name tier' st' := by
  induction h with
  | stay tier st => exact hours
  | step h rest ih => exact ih (hours.step h)

theorem treeKept_of_ours (hours : AgentsOurs m root name tier st)
    (h : Carries m root name tier st moves tier' st') : TreeKept m root name tier st tier' st' := by
  induction h with
  | stay tier st => exact fun x data hdata ↦ .inr hdata
  | step h rest ih =>
    intro x data hdata
    obtain hboundary | hkept := treeKept_step hours h x data hdata
    · exact .inl hboundary
    · exact ih (hours.step h) x data hkept

theorem ours_of_treeKept {move : TierMove} (h : Carries m root name tier st (move :: moves) tier' st')
    (hthrough : ¬ m.LeadsThrough (tierPath root move.toTier name)
      (m.placeIn root move.fromTier name))
    (hkept : TreeKept m root name tier st tier' st') : AgentsOurs m root name tier st := by
  cases h with
  | step h rest =>
    obtain ⟨hsettled, -⟩ := move_settled h
    have hours : AgentsOurs m root name move.toTier (move.apply m name st).2 := by
      intro data hdata
      exact agentsSandbox_mem (hsettled.reached hthrough data hdata)
    intro data hdata
    obtain hboundary | hstill := hkept [agentsName] data hdata
    · exact hboundary
    · exact hours.carried rest data hstill

theorem tree_kept_iff (h : Carries m root name tier st moves tier' st') :
    (AgentsOurs m root name tier st → TreeKept m root name tier st tier' st') ∧
    (∀ move ∈ moves.head?, ¬ m.LeadsThrough (tierPath root move.toTier name)
        (m.placeIn root move.fromTier name) →
      TreeKept m root name tier st tier' st' → AgentsOurs m root name tier st) := by
  refine ⟨fun hours ↦ treeKept_of_ours hours h, ?_⟩
  intro move hmove hthrough hkept
  obtain ⟨rest, rfl⟩ := List.head?_eq_some_iff.mp hmove
  exact ours_of_treeKept h hthrough hkept

end Machine

def workspaceDisk (agents : Bytes) : FileSystem :=
  demoDisk.put (["s", "sandbox", "demo", "AGENTS.md"].map ascii) (.file ⟨agents, false⟩)

theorem workspaceDisk_agents (agents : Bytes) :
    (workspaceDisk agents).node (["s", "sandbox", "demo", "AGENTS.md"].map ascii) =
      some (.file ⟨agents, false⟩) := by
  have hfits : demoDisk.Fits (["s", "sandbox", "demo", "AGENTS.md"].map ascii)
      (.file ⟨agents, false⟩) :=
    ⟨by decide, by decide +kernel, .inr (by decide +kernel)⟩
  rw [workspaceDisk, FileTree.node_put hfits, Layout.put_self]

def withoutGit : TierOptions := { noGit := true }

open Machine in
theorem tree_kept_there_and_back : ∃ st', Carries plainMachine (ascii "/s") (ascii "demo")
      (ascii "sandbox") { fs := workspaceDisk agentsSandbox }
      [.promote withoutGit, .demote withoutGit] (ascii "sandbox") st' ∧
    TreeKept plainMachine (ascii "/s") (ascii "demo") (ascii "sandbox")
      { fs := workspaceDisk agentsSandbox } (ascii "sandbox") st' := by
  have hfirst : (TierMove.promote withoutGit).Succeeds plainMachine (ascii "/s") (ascii "demo")
      { fs := workspaceDisk agentsSandbox } :=
    ⟨rfl, rfl, rfl, by decide +kernel⟩
  have hsecond : (TierMove.demote withoutGit).Succeeds plainMachine (ascii "/s") (ascii "demo")
      ((TierMove.promote withoutGit).apply plainMachine (ascii "demo")
        { fs := workspaceDisk agentsSandbox }).2 :=
    ⟨rfl, rfl, rfl, by decide +kernel⟩
  have hrun := Carries.step hfirst (.step hsecond (.stay _ _))
  refine ⟨_, hrun, (tree_kept_iff hrun).1 ?_⟩
  intro data hdata
  have hfound := (workspaceDisk_agents agentsSandbox).symm.trans hdata
  simp only [Option.some.injEq, Entry.file.injEq] at hfound
  rw [← hfound]
  simp only [boundaryTexts, List.mem_cons, true_or]

open Machine in
/-- An `AGENTS.md` that its owner wrote is gone behind the promotion. -/
theorem tree_not_kept : Carries plainMachine (ascii "/s") (ascii "demo") (ascii "sandbox")
      { fs := workspaceDisk (ascii "mine") } [.promote withoutGit] (ascii "project")
      ((TierMove.promote withoutGit).apply plainMachine (ascii "demo")
        { fs := workspaceDisk (ascii "mine") }).2 ∧
    ¬ TreeKept plainMachine (ascii "/s") (ascii "demo") (ascii "sandbox")
      { fs := workspaceDisk (ascii "mine") } (ascii "project")
      ((TierMove.promote withoutGit).apply plainMachine (ascii "demo")
        { fs := workspaceDisk (ascii "mine") }).2 := by
  have hsucceeds : (TierMove.promote withoutGit).Succeeds plainMachine (ascii "/s") (ascii "demo")
      { fs := workspaceDisk (ascii "mine") } :=
    ⟨rfl, rfl, rfl, by decide +kernel⟩
  refine ⟨.step hsucceeds (.stay _ _), ?_⟩
  intro hkept
  obtain hboundary | hstill := hkept [agentsName] _ (workspaceDisk_agents (ascii "mine"))
  · have hhash := head_boundaryTexts hboundary
    revert hhash
    decide
  · revert hstill
    decide +kernel

end SquaredPg
