import SquaredPg.Generators

namespace SquaredPg

open Ascii Program

namespace TransactionService

open FilesystemService FileSystem MetadataService

/-- A generator that stages at one location and lands at the other, on ways that end before either. -/
structure Generator.Places (g : Generator) (S T : Location) : Prop where
  cwd : ∀ c ∈ g.cwd, Plain c
  inside : ∀ step ∈ g.plan.steps, Inside step.path
  named : Plain g.target.filename
  target : targetLocation g.target = T
  staging : stagingLocation g.target.parts.dropLast (stagingName g.target) = S
  way : ∀ ds, ds <+: g.target.parts.dropLast → S <+: locate [] ds → locate [] ds = S
  apart : ∀ ds, ds <+: g.target.parts.dropLast → T <+: locate [] ds → locate [] ds = T

/-- Nothing is there but perhaps an empty directory. -/
structure Blank (l : Location) (fs : FileSystem) : Prop where
  no_file : ∀ data, fs.node l ≠ some (.file data)
  empty : ∀ y, y ≠ [] → fs.node (l ++ y) = none

theorem Blank.bare {l : Location} {fs : FileSystem} (h : Blank l fs) (hdir : fs.node l = some .dir) :
    fs.node.below l = Layout.bare := by
  funext y
  unfold Layout.below Layout.bare
  split_ifs with hy
  · simpa [hy] using hdir
  · exact h.empty y hy

theorem blank_of_none {l : Location} {fs : FileSystem} (h : fs.node l = none) : Blank l fs where
  no_file data := by simp [h]
  empty y hy := FileTree.none_below (by simp [h]) (List.prefix_append l y) (by simpa using hy)

theorem blank_prune {l : Location} {fs : FileSystem} (h : l ≠ []) : Blank l (fs.prune l) :=
  blank_of_none (by rw [FileTree.node_prune h, if_pos List.prefix_rfl])

section Places

variable {g : Generator} {S T : Location} {fs fs' : FileSystem}

namespace Generator.Places

theorem wellFormed (h : g.Places S T) : WellFormed g.target := targetOf_wellFormed h.cwd g.plan

theorem staging_eq (h : g.Places S T) :
    g.staging = stagingAt g.target.parts.dropLast (stagingName g.target) :=
  stagingPathFor_eq h.wellFormed

theorem located (h : g.Places S T) :
    locate [] (g.target.parts.dropLast ++ [stagingName g.target]) = S := by
  rw [locate_staging (plain_stagingName _), h.staging]

theorem staging_ne (h : g.Places S T) : S ≠ [] := by
  rw [← h.staging, stagingLocation]
  simp

theorem off_target (h : g.Places S T) (y : Location) : ¬ S <+: T ++ y := by
  rw [← h.staging, ← h.target]
  exact staging_apart (beside_of_plain h.named) y

theorem off_staging (h : g.Places S T) (y : Location) : ¬ T <+: S ++ y := by
  intro hp
  have hlength : T.length = S.length := by
    rw [← h.staging, ← h.target, (beside_of_plain h.named).targetLocation, stagingLocation]
    simp
  have hTS : T <+: S := List.prefix_of_prefix_length_le hp (List.prefix_append S y) hlength.le
  have heq := hTS.eq_of_length hlength
  exact h.off_target [] (by simp [heq])

theorem outside_target (h : g.Places S T) (hout : Outside S fs fs') :
    fs'.node.below T = fs.node.below T :=
  funext fun y ↦ hout _ (h.off_target y)

theorem grown_target (h : g.Places S T) (hdir : fs.node T = some .dir)
    (hgrown : Grown fs [] (g.target.parts.dropLast ++ [stagingName g.target]) fs') :
    fs'.node.below T = fs.node.below T := by
  funext y
  refine (hgrown (T ++ y)).resolve_right ?_
  rintro ⟨hnone, -, ds, hds, heq⟩
  have hp : T <+: locate [] ds := heq ▸ List.prefix_append T y
  rcases List.prefix_concat_iff.mp hds with rfl | hway
  · rw [h.located] at hp
    exact h.off_staging [] (by simpa using hp)
  · have hend := heq.trans (h.apart ds hway hp)
    rw [hend, hdir] at hnone
    cases hnone

theorem grown_blank (h : g.Places S T) (hblank : Blank S fs)
    (hgrown : Grown fs [] (g.target.parts.dropLast ++ [stagingName g.target]) fs') :
    Blank S fs' := by
  refine ⟨fun data ↦ hgrown.no_file (hblank.no_file data), fun y hy ↦ ?_⟩
  rcases hgrown (S ++ y) with hsame | ⟨-, -, ds, hds, heq⟩
  · rw [hsame, hblank.empty y hy]
  · have hend : S ++ y = S := by
      rcases List.prefix_concat_iff.mp hds with rfl | hway
      · exact heq.trans h.located
      · exact heq.trans (h.way ds hway (heq ▸ List.prefix_append S y))
    exact absurd (by simpa using hend) hy

end Generator.Places

theorem Generator.Holds.directory {f : Layout Bytes FileData} (h : g.Holds f) :
    f [ascii ".squared"] = some .dir := by
  have hp : [ascii ".squared"] <+: [ascii ".squared", ascii "metadata.json"] := ⟨_, rfl⟩
  refine (dir_of_steps_iff h).mpr (.inr ⟨_, List.mem_append_right _ (List.mem_singleton.mpr rfl), ?_⟩)
  rw [location_recordStep]
  exact ⟨hp, .inr (by simp)⟩

theorem Generator.Holds.root {f : Layout Bytes FileData} (h : g.Holds f) : f [] = some .dir :=
  (dir_of_steps_iff h).mpr (.inl rfl)

theorem removeAll_clears (h : g.Places S T)
    (hseen : existsAt g.cwd fs g.staging = true ∨ Blank S fs) :
    (FileSystem.removeAll g.cwd fs g.staging).1 = none ∧
      Outside S fs (FileSystem.removeAll g.cwd fs g.staging).2 ∧
      Blank S (FileSystem.removeAll g.cwd fs g.staging).2 := by
  have hloc : ∀ l, resolve g.cwd fs g.staging = some l → l = S := by
    intro l hl
    rw [h.staging_eq, resolve, start_absolute rfl] at hl
    exact (walk_eq_some.mp hl).1.trans h.located
  unfold FileSystem.removeAll
  cases hres : resolve g.cwd fs g.staging with
  | none =>
    have hunseen : existsAt g.cwd fs g.staging ≠ true := by simp [existsAt, hres]
    exact ⟨rfl, .refl S fs, hseen.resolve_left hunseen⟩
  | some l =>
    obtain rfl := hloc l hres
    simp only [if_neg h.staging_ne]
    refine ⟨trivial, fun x hx ↦ ?_, blank_prune h.staging_ne⟩
    rw [FileTree.node_prune h.staging_ne, if_neg hx]

theorem existsAt_staging {base : FileSystem} (h : g.Places S T)
    (hmade : Made base [] (g.target.parts.dropLast ++ [stagingName g.target]))
    (hout : Outside S base fs) (hdir : fs.node S = some .dir) :
    existsAt g.cwd fs g.staging = true := by
  have hnodes : ∀ ds, ds <+: g.target.parts.dropLast → fs.node (locate [] ds) = some .dir := by
    intro ds hds
    by_cases hp : S <+: locate [] ds
    · rw [h.way ds hds hp, hdir]
    · rw [hout _ hp]
      exact hmade ds (hds.trans (List.prefix_append _ _))
  have hthere : fs.node (locate [] g.target.parts.dropLast ++ [stagingName g.target]) ≠ none := by
    have hS : locate [] g.target.parts.dropLast ++ [stagingName g.target] = S := h.staging
    simp [hS, hdir]
  rw [h.staging_eq]
  exact existsAt_of_way (plain_stagingName _) (fun ds hds ↦ .inr (hnodes ds hds)) hthere

theorem createDirectories_staging (h : g.Places S T) (fs : FileSystem) :
    FileSystem.createDirectories g.cwd fs g.staging =
      (if (makeDirs fs [] (g.target.parts.dropLast ++ [stagingName g.target])).1 then none
        else some enotdir,
        (makeDirs fs [] (g.target.parts.dropLast ++ [stagingName g.target])).2) := by
  rw [h.staging_eq]
  exact perform_createDirectories g.cwd fs rfl

theorem createDirectories_cases (h : g.Places S T) (hblank : Blank S fs) :
    ((FileSystem.createDirectories g.cwd fs g.staging).1 = none ∧
      Made (FileSystem.createDirectories g.cwd fs g.staging).2 []
        (g.target.parts.dropLast ++ [stagingName g.target])) ∨
    ((FileSystem.createDirectories g.cwd fs g.staging).1 = some enotdir ∧
      ∃ ds data, ds <+: g.target.parts.dropLast ∧ ¬ S <+: locate [] ds ∧
        fs.node (locate [] ds) = some (.file data)) := by
  rw [createDirectories_staging h]
  cases hmk : (makeDirs fs [] (g.target.parts.dropLast ++ [stagingName g.target])).1 with
  | true => exact .inl ⟨rfl, (makeDirs_spec fs.root).2 hmk⟩
  | false =>
    refine .inr ⟨rfl, ?_⟩
    by_contra hnone
    have hok : (makeDirs fs [] (g.target.parts.dropLast ++ [stagingName g.target])).1 = true := by
      refine makeDirs_ok fs.root fun ds hds data hfile ↦ ?_
      rcases List.prefix_concat_iff.mp hds with rfl | hway
      · rw [h.located] at hfile
        exact hblank.no_file data hfile
      · refine hnone ⟨ds, data, hway, fun hp ↦ ?_, hfile⟩
        rw [h.way ds hway hp] at hfile
        exact hblank.no_file data hfile
    rw [hok] at hmk
    cases hmk

theorem createDirectories_grown (h : g.Places S T) (fs : FileSystem) :
    Grown fs [] (g.target.parts.dropLast ++ [stagingName g.target])
      (FileSystem.createDirectories g.cwd fs g.staging).2 := by
  rw [createDirectories_staging h]
  exact makeDirs_grown fs List.prefix_rfl

theorem move_file {l l' x : Location} {fs : FileSystem} {data : FileData} (hmovable : fs.Movable l l')
    (hover : replaceable fs l l' = true) (hdir : fs.node l = some .dir) (hx : ¬ l <+: x)
    (hfile : fs.node x = some (.file data)) : (fs.move l l').node x = some (.file data) := by
  have hoff : ¬ l' <+: x := by
    intro hp
    by_cases heq : x = l'
    · subst heq
      simp [replaceable, hfile, FileTree.isDir, hdir, Entry.isDir] at hover
    · rw [FileTree.emptyBelow_iff.mp hmovable.2.2.2.2.2 x hp heq] at hfile
      cases hfile
  rw [FileTree.node_move hmovable, if_neg hoff, if_neg hx, hfile]

theorem rename_staged {base : FileSystem} (h : g.Places S T) (hbare : base.node.below S = Layout.bare)
    (hstaged : Staged (fun _ ↦ True) g.target.parts.dropLast (stagingName g.target) base
      (stagedSteps g.metadataRecord g.plan.steps g.fast) fs) :
    ((FileSystem.rename g.cwd fs g.staging g.target).1 = none ∧ fs.Movable S T ∧
      replaceable fs S T = true ∧
      (FileSystem.rename g.cwd fs g.staging g.target).2 = fs.move S T ∧
      g.Holds ((FileSystem.rename g.cwd fs g.staging g.target).2.node.below T)) ∨
    ((FileSystem.rename g.cwd fs g.staging g.target).1 ≠ none ∧
      (FileSystem.rename g.cwd fs g.staging g.target).2 = fs) := by
  refine (rename_cases g.cwd fs g.staging g.target).imp_left ?_
  rintro ⟨hnone, hmoved⟩
  rw [h.staging_eq] at hnone hmoved ⊢
  have hlayout := Landed.layout h.wellFormed (fun _ _ ↦ trivial) ⟨fs, hstaged, hmoved⟩
  obtain ⟨-, hmovable, hover, hmove⟩ := Renamed.beside h.wellFormed hstaged.made hmoved
  rw [h.staging, h.target] at hmovable hover hmove
  rw [h.staging, h.target, hbare] at hlayout
  exact ⟨hnone, hmovable, hover, hmove, hlayout⟩

theorem steps_staged {base : FileSystem} (h : g.Places S T)
    (hmade : Made base [] (g.target.parts.dropLast ++ [stagingName g.target])) :
    (g.plan.steps.foldlM (applyStep g.staging g.fast) {}).wp (Behaves g.cwd fun _ ↦ True)
      (fun outcome fs ↦ Staged (fun _ ↦ True) g.target.parts.dropLast (stagingName g.target) base
        g.plan.steps fs ∧ outcome.hashes = stepHashes g.plan.steps)
      (fun _ fs ↦ Outside S base fs) (fun fs ↦ Outside S base fs) base := by
  rw [h.staging_eq, ← h.staging]
  exact steps_wp (plain_stagingName g.target) h.inside hmade

theorem record_staged {base : FileSystem} {done : List PlanStep} {record : Value}
    (h : g.Places S T) (hstaged : Staged (fun _ ↦ True) g.target.parts.dropLast
      (stagingName g.target) base done fs) :
    (writeRecord g.staging g.fast record).wp (Behaves g.cwd fun _ ↦ True)
      (fun _ fs' ↦ Staged (fun _ ↦ True) g.target.parts.dropLast (stagingName g.target) base
        (done ++ [recordStep (jsonWrite record true)]) fs')
      (fun _ fs' ↦ Outside S base fs') (fun fs' ↦ Outside S base fs') fs := by
  rw [h.staging_eq, ← h.staging]
  exact writeRecord_wp (plain_stagingName g.target) hstaged

end Places

section Discipline

variable {ι : Type} {gs : ι → Generator} {S T : Location} {s s' s'' : Shared ι} {i : ι}

def Shared.Settled (S : Location) (s : Shared ι) : Prop :=
  (∃ i, s.phase i = .inside) ∨ Blank S s.disk

/-- One process at most is inside, one at most has landed, and its workspace is there. Until a
process has been inside, what was left over is seen by everyone. -/
structure Sound (gs : ι → Generator) (S T : Location) (s : Shared ι) : Prop where
  alone : ∀ i j, s.phase i = .inside → s.phase j = .inside → i = j
  leftover : s.Settled S ∨ ∀ i, existsAt (gs i).cwd s.disk (gs i).staging = true
  winner : ∀ i j, s.phase i = .landed → s.phase j = .landed → i = j
  tree : ∀ i, s.phase i = .landed → (gs i).Holds (s.disk.node.below T)

/-- What a process relies on: while it is inside the disk is as it left it, the staging directory is
settled once it is, and no file outside of it goes away. -/
structure Undisturbed (S : Location) (i : ι) (s s' : Shared ι) : Prop where
  phase : s'.phase i = s.phase i
  frozen : s.phase i = .inside → s'.disk = s.disk
  settled : s.Settled S → s'.Settled S
  files : ∀ x data, ¬ S <+: x → s.disk.node x = some (.file data) →
    s'.disk.node x = some (.file data)

theorem Undisturbed.refl (S : Location) (i : ι) (s : Shared ι) : Undisturbed S i s s :=
  ⟨rfl, fun _ ↦ rfl, id, fun _ _ _ h ↦ h⟩

theorem Undisturbed.trans (h : Undisturbed S i s s') (h' : Undisturbed S i s' s'') :
    Undisturbed S i s s'' where
  phase := h'.phase.trans h.phase
  frozen hin := (h'.frozen (h.phase.trans hin)).trans (h.frozen hin)
  settled hs := h'.settled (h.settled hs)
  files x data hx hfile := h'.files x data hx (h.files x data hx hfile)

theorem Sound.not_landed {j : ι} (h : Sound gs S T s) (hmovable : s.disk.Movable S T) :
    s.phase j ≠ .landed := by
  intro hj
  have hdir := (h.tree j hj).directory
  have hnone := FileTree.emptyBelow_iff.mp hmovable.2.2.2.2.2 (T ++ [ascii ".squared"])
    (List.prefix_append _ _) (by simp)
  rw [Layout.below, hnone] at hdir
  cases hdir

variable [DecidableEq ι]

def discipline (gs : ι → Generator) (S T : Location) : Discipline ι FsOp FsAnswer (Shared ι) where
  perform := performAs gs
  permits := Exclusive gs
  inv := Sound gs S T
  rely := Undisturbed S
  rely_refl := Undisturbed.refl S
  rely_trans := Undisturbed.trans

theorem Sound.keeps {p : Phase} (h : Sound gs S T s)
    (hphase : s'.phase = Function.update s.phase i p) (hex : ∀ j, s.phase j = .inside → j = i)
    (hsettled : p = .inside ∨ Blank S s'.disk)
    (hfiles : ∀ x data, ¬ S <+: x → s.disk.node x = some (.file data) →
      s'.disk.node x = some (.file data))
    (htree : ∀ j, j ≠ i → s.phase j = .landed → s'.disk.node.below T = s.disk.node.below T)
    (hland : p = .landed →
      (gs i).Holds (s'.disk.node.below T) ∧ ∀ j, j ≠ i → s.phase j ≠ .landed) :
    (discipline gs S T).Keeps i s s' := by
  have hself : s'.phase i = p := by rw [hphase, Function.update_self]
  have hother : ∀ j, j ≠ i → s'.phase j = s.phase j :=
    fun j hj ↦ by rw [hphase, Function.update_of_ne hj]
  have honly : ∀ j, s'.phase j = .inside → j = i := by
    intro j hj
    by_contra hne
    exact hne (hex j (hother j hne ▸ hj))
  have hset : s'.Settled S := hsettled.imp (fun hp ↦ ⟨i, hself.trans hp⟩) id
  have hland' : ∀ j, s'.phase j = .landed → j ≠ i → p ≠ .landed := by
    intro j hj hne hp
    exact (hland hp).2 j hne (hother j hne ▸ hj)
  refine ⟨⟨fun j k hj hk ↦ (honly j hj).trans (honly k hk).symm, .inl hset, ?_, ?_⟩, ?_⟩
  · intro j k hj hk
    by_cases hji : j = i
    · by_cases hki : k = i
      · rw [hji, hki]
      · exact absurd (hself.symm.trans (hji ▸ hj)) (hland' k hk hki)
    · by_cases hki : k = i
      · exact absurd (hself.symm.trans (hki ▸ hk)) (hland' j hj hji)
      · exact h.winner j k (hother j hji ▸ hj) (hother k hki ▸ hk)
  · intro j hj
    by_cases hji : j = i
    · subst hji
      exact (hland (hself.symm.trans hj)).1
    · have hj' := (hother j hji).symm.trans hj
      rw [htree j hji hj']
      exact h.tree j hj'
  · intro j hj
    exact ⟨hother j hj, fun hin ↦ absurd (hex j hin) hj, fun _ ↦ hset, hfiles⟩

theorem performAs_same {op : FsOp} (hdisk : ∀ fs, (perform (gs i).cwd op fs).2 = fs)
    (hphase : ∀ phase r, (gs i).phaseAfter phase op r = phase) (s : Shared ι) :
    (performAs gs i op s).2 = s := by
  simp only [performAs, hdisk, hphase, Function.update_eq_self]

theorem Sound.removed (h : Sound gs S T s) (hplaces : (gs i).Places S T)
    (hex : ∀ j, s.phase j = .inside → j = i)
    (hseen : existsAt (gs i).cwd s.disk (gs i).staging = true ∨ Blank S s.disk) :
    (discipline gs S T).Keeps i s (performAs gs i (.removeAll (gs i).staging) s).2 ∧
      (performAs gs i (.removeAll (gs i).staging) s).1 = none ∧
      (performAs gs i (.removeAll (gs i).staging) s).2.phase i = .outside ∧
      Blank S (performAs gs i (.removeAll (gs i).staging) s).2.disk := by
  obtain ⟨hnone, hout, hblank⟩ := removeAll_clears hplaces hseen
  have hphase : (performAs gs i (.removeAll (gs i).staging) s).2.phase =
      Function.update s.phase i .outside := by
    simp [performAs, perform, hnone, Generator.phaseAfter]
  refine ⟨h.keeps hphase hex (.inr hblank) (fun x data hx hfile ↦ (hout x hx).trans hfile)
    (fun _ _ _ ↦ hplaces.outside_target hout) (fun hp ↦ by cases hp), hnone, ?_, hblank⟩
  rw [hphase, Function.update_self]

theorem Sound.created (h : Sound gs S T s) (hplaces : (gs i).Places S T)
    (hout : s.phase i = .outside) (hex : ∀ j, s.phase j = .inside → j = i)
    (hblank : Blank S s.disk) :
    (discipline gs S T).Keeps i s (performAs gs i (.createDirectories (gs i).staging) s).2 ∧
      (((performAs gs i (.createDirectories (gs i).staging) s).1 = none ∧
        (performAs gs i (.createDirectories (gs i).staging) s).2.phase i = .inside ∧
        Made (performAs gs i (.createDirectories (gs i).staging) s).2.disk []
          ((gs i).target.parts.dropLast ++ [stagingName (gs i).target]) ∧
        Blank S (performAs gs i (.createDirectories (gs i).staging) s).2.disk) ∨
      ((performAs gs i (.createDirectories (gs i).staging) s).1 = some enotdir ∧
        ∃ ds data, ds <+: (gs i).target.parts.dropLast ∧ ¬ S <+: locate [] ds ∧
          (performAs gs i (.createDirectories (gs i).staging) s).2.disk.node (locate [] ds) =
            some (.file data))) := by
  have hgrown := createDirectories_grown hplaces s.disk
  have hblank' := hplaces.grown_blank hblank hgrown
  have htree : ∀ j, j ≠ i → s.phase j = .landed →
      (performAs gs i (.createDirectories (gs i).staging) s).2.disk.node.below T =
        s.disk.node.below T := by
    intro j _ hj
    have hroot := (h.tree j hj).root
    rw [Layout.below, List.append_nil] at hroot
    exact hplaces.grown_target hroot hgrown
  have hfiles : ∀ x data, ¬ S <+: x → s.disk.node x = some (.file data) →
      (performAs gs i (.createDirectories (gs i).staging) s).2.disk.node x = some (.file data) :=
    fun x data _ hfile ↦ hgrown.file hfile
  rcases createDirectories_cases hplaces hblank with ⟨hnone, hmade⟩ | ⟨hsome, ds, data, hway, hoff, hfile⟩
  · have hphase : (performAs gs i (.createDirectories (gs i).staging) s).2.phase =
        Function.update s.phase i .inside := by
      simp [performAs, perform, hnone, Generator.phaseAfter]
    refine ⟨h.keeps hphase hex (.inl rfl) hfiles htree (fun hp ↦ by cases hp),
      .inl ⟨hnone, ?_, hmade, hblank'⟩⟩
    rw [hphase, Function.update_self]
  · have hphase : (performAs gs i (.createDirectories (gs i).staging) s).2.phase =
        Function.update s.phase i .outside := by
      simp [performAs, perform, hsome, Generator.phaseAfter, hout]
    exact ⟨h.keeps hphase hex (.inr hblank') hfiles htree (fun hp ↦ by cases hp),
      .inr ⟨hsome, ds, data, hway, hoff, hgrown.file hfile⟩⟩

theorem Sound.moved {base : FileSystem} (h : Sound gs S T s) (hplaces : (gs i).Places S T)
    (hin : s.phase i = .inside) (hbare : base.node.below S = Layout.bare)
    (hstaged : Staged (fun _ ↦ True) (gs i).target.parts.dropLast (stagingName (gs i).target) base
      (stagedSteps (gs i).metadataRecord (gs i).plan.steps (gs i).fast) s.disk) :
    (discipline gs S T).Keeps i s
        (performAs gs i (.rename (gs i).staging (gs i).target) s).2 ∧
      (((performAs gs i (.rename (gs i).staging (gs i).target) s).1 = none ∧
        (performAs gs i (.rename (gs i).staging (gs i).target) s).2.phase i = .landed) ∨
      ((performAs gs i (.rename (gs i).staging (gs i).target) s).1 ≠ none ∧
        (performAs gs i (.rename (gs i).staging (gs i).target) s).2 = s)) := by
  rcases rename_staged hplaces hbare hstaged with
    ⟨hnone, hmovable, hover, hmove, hholds⟩ | ⟨hsome, hsame⟩
  · have hphase : (performAs gs i (.rename (gs i).staging (gs i).target) s).2.phase =
        Function.update s.phase i .landed := by
      simp [performAs, perform, hnone, Generator.phaseAfter]
    have hdir : s.disk.node S = some .dir := hplaces.located ▸ hstaged.made _ List.prefix_rfl
    have hgone : (performAs gs i (.rename (gs i).staging (gs i).target) s).2.disk.node S = none := by
      change (FileSystem.rename (gs i).cwd s.disk (gs i).staging (gs i).target).2.node S = none
      have hoff : ¬ T <+: S := by simpa using hplaces.off_staging []
      rw [hmove, FileTree.node_move hmovable, if_neg hoff, if_pos List.prefix_rfl]
    have hfiles : ∀ x data, ¬ S <+: x → s.disk.node x = some (.file data) →
        (performAs gs i (.rename (gs i).staging (gs i).target) s).2.disk.node x =
          some (.file data) := by
      intro x data hx hfile
      change (FileSystem.rename (gs i).cwd s.disk (gs i).staging (gs i).target).2.node x = _
      rw [hmove]
      exact move_file hmovable hover hdir hx hfile
    refine ⟨h.keeps hphase (fun j hj ↦ h.alone j i hj hin) (.inr (blank_of_none hgone)) hfiles
      (fun j _ hj ↦ absurd hj (h.not_landed hmovable)) (fun _ ↦ ⟨hholds, fun j _ ↦ ?_⟩),
      .inl ⟨hnone, ?_⟩⟩
    · exact h.not_landed hmovable
    · rw [hphase, Function.update_self]
  · have hstate : (performAs gs i (.rename (gs i).staging (gs i).target) s).2 = s := by
      cases hanswer : (FileSystem.rename (gs i).cwd s.disk (gs i).staging (gs i).target).1 with
      | none => exact absurd hanswer hsome
      | some ec =>
        simp only [performAs, perform, hanswer, hsame, Generator.phaseAfter,
          Function.update_eq_self]
    rw [hstate]
    exact ⟨⟨h, fun j _ ↦ .refl S j s⟩, .inr ⟨hsome, rfl⟩⟩

end Discipline

end TransactionService

end SquaredPg
