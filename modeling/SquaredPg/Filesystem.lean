import SquaredPg.FileTree
import SquaredPg.HostPath
import SquaredPg.Program

namespace SquaredPg

open Ascii

structure FileData where
  content : Bytes
  executable : Bool
  deriving DecidableEq

/-- A file system without links: names on the way from the root lead to every entry. -/
abbrev FileSystem := FileTree Bytes FileData

abbrev Location := List Bytes

/-- Where an element of a path leads from a directory. -/
def advance (l : Location) (c : Bytes) : Location :=
  if c = [] ∨ c = ascii "." then l else if c = ascii ".." then l.dropLast else l ++ [c]

/-- Where a path leads, on paper. -/
def locate (l : Location) (parts : List Bytes) : Location := parts.foldl advance l

/-- An element that names an entry, rather than a directory on the way. -/
def Plain (c : Bytes) : Prop := c ≠ [] ∧ c ≠ ascii "." ∧ c ≠ ascii ".."

instance : DecidablePred Plain := fun c ↦ by unfold Plain; infer_instance

structure SystemError where
  value : Int64
  message : Bytes
  deriving DecidableEq

def enoent : SystemError := ⟨2, ascii "No such file or directory"⟩

def ebusy : SystemError := ⟨16, ascii "Device or resource busy"⟩

def enotdir : SystemError := ⟨20, ascii "Not a directory"⟩

def einval : SystemError := ⟨22, ascii "Invalid argument"⟩

def enotempty : SystemError := ⟨39, ascii "Directory not empty"⟩

inductive ReadResult
  | content (bytes : Bytes)
  | unopened
  | broken
  deriving DecidableEq

/-- The operations that the engine's file system service uses. `write` hands the content to the
stream, and `close` is the flush of the stream's destructor. -/
inductive FsOp
  | exists (path : HostPath)
  | isDirectory (path : HostPath)
  | createDirectories (path : HostPath)
  | openTruncated (path : HostPath)
  | write (path : HostPath) (content : Bytes)
  | close (path : HostPath) (content : Bytes)
  | addExecutable (path : HostPath)
  | removeAll (path : HostPath)
  | rename (source destination : HostPath)
  | sync (path : HostPath)
  | read (path : HostPath)
  deriving DecidableEq

abbrev FsAnswer : FsOp → Type
  | .exists _ | .isDirectory _ | .openTruncated _ | .write _ _ | .close _ _ => Bool
  | .createDirectories _ | .addExecutable _ | .removeAll _ | .rename _ _ => Option SystemError
  | .sync _ => Unit
  | .read _ => ReadResult

namespace FileSystem

def walk (fs : FileSystem) (l : Location) : List Bytes → Option Location
  | [] => some l
  | c :: cs => if fs.isDir l then walk fs (advance l c) cs else none

def start (cwd : Location) (p : HostPath) : Location := if p.absolute then [] else cwd

/-- The location a path leads to through directories that are there. -/
def resolve (cwd : Location) (fs : FileSystem) (p : HostPath) : Option Location :=
  walk fs (start cwd p) p.parts

/-- The location of an entry that may be made: the path ends in a name. -/
def resolveEntry (cwd : Location) (fs : FileSystem) (p : HostPath) : Option Location :=
  if Plain p.filename then resolve cwd fs p else none

def existsAt (cwd : Location) (fs : FileSystem) (p : HostPath) : Bool :=
  (resolve cwd fs p).any fun l ↦ (fs.node l).isSome

def isDirectory (cwd : Location) (fs : FileSystem) (p : HostPath) : Bool :=
  (resolve cwd fs p).any fs.isDir

def makeDirs (fs : FileSystem) (l : Location) : List Bytes → Bool × FileSystem
  | [] => (true, fs)
  | c :: cs =>
    match fs.node (advance l c) with
    | some .dir => makeDirs fs (advance l c) cs
    | some (.file _) => (false, fs)
    | none => makeDirs (fs.put (advance l c) .dir) (advance l c) cs

def createDirectories (cwd : Location) (fs : FileSystem) (p : HostPath) :
    Option SystemError × FileSystem :=
  if p.isEmpty then (some einval, fs)
  else if fs.isDir (start cwd p) = false then (some enoent, fs)
  else
    match makeDirs fs (start cwd p) p.parts with
    | (true, fs') => (none, fs')
    | (false, fs') => (some enotdir, fs')

def openTruncated (cwd : Location) (fs : FileSystem) (p : HostPath) : Bool × FileSystem :=
  match resolveEntry cwd fs p with
  | none => (false, fs)
  | some l =>
    match fs.node l with
    | none => (true, fs.put l (.file ⟨[], false⟩))
    | some (.file data) => (true, fs.put l (.file { data with content := [] }))
    | some .dir => (false, fs)

def editFile (cwd : Location) (fs : FileSystem) (p : HostPath) (edit : FileData → FileData) :
    Option FileSystem :=
  (resolveEntry cwd fs p).bind fun l ↦
    match fs.node l with
    | some (.file data) => some (fs.put l (.file (edit data)))
    | _ => none

def writeContent (cwd : Location) (fs : FileSystem) (p : HostPath) (content : Bytes) :
    Bool × FileSystem :=
  match editFile cwd fs p fun data ↦ { data with content } with
  | some fs' => (true, fs')
  | none => (false, fs)

def addExecutable (cwd : Location) (fs : FileSystem) (p : HostPath) :
    Option SystemError × FileSystem :=
  match editFile cwd fs p fun data ↦ { data with executable := true } with
  | some fs' => (none, fs')
  | none => (some enoent, fs)

def removeAll (cwd : Location) (fs : FileSystem) (p : HostPath) : Option SystemError × FileSystem :=
  match resolve cwd fs p with
  | none => (none, fs)
  | some l => if l = [] then (some ebusy, fs) else (none, fs.prune l)

/-- A directory is put over nothing or over an empty directory, a file over nothing or a file. -/
def replaceable (fs : FileSystem) (src dst : Location) : Bool :=
  match fs.node dst with
  | none => true
  | some e => e.isDir = fs.isDir src

def rename (cwd : Location) (fs : FileSystem) (source destination : HostPath) :
    Option SystemError × FileSystem :=
  match resolveEntry cwd fs { source with parts := source.stem },
      resolveEntry cwd fs { destination with parts := destination.stem } with
  | some src, some dst =>
    if src = dst then (none, fs)
    else if fs.Movable src dst ∧ replaceable fs src dst then (none, fs.move src dst)
    else (some enotempty, fs)
  | _, _ => (some enoent, fs)

def read (cwd : Location) (fs : FileSystem) (p : HostPath) : ReadResult :=
  match (resolve cwd fs p).bind fs.node with
  | none => .unopened
  | some .dir => .broken
  | some (.file data) => if p.parts.getLast? = some [] then .unopened else .content data.content

/-- What every operation does where nothing fails. -/
def perform (cwd : Location) : (op : FsOp) → FileSystem → FsAnswer op × FileSystem
  | .exists p, fs => (existsAt cwd fs p, fs)
  | .isDirectory p, fs => (isDirectory cwd fs p, fs)
  | .createDirectories p, fs => createDirectories cwd fs p
  | .openTruncated p, fs => openTruncated cwd fs p
  | .write p content, fs => writeContent cwd fs p content
  | .close p content, fs => writeContent cwd fs p content
  | .addExecutable p, fs => addExecutable cwd fs p
  | .removeAll p, fs => removeAll cwd fs p
  | .rename source destination, fs => rename cwd fs source destination
  | .sync _, fs => ((), fs)
  | .read p, fs => (read cwd fs p, fs)

def Touched (cwd : Location) (fs : FileSystem) (p : HostPath) (fs' : FileSystem) : Prop :=
  fs' = fs ∨ ∃ l data, resolveEntry cwd fs p = some l ∧ fs' = fs.put l (.file data)

/-- Nothing differs but that a first part of the content is in the file that a path names. -/
def Flushed (cwd : Location) (fs : FileSystem) (p : HostPath) (content : Bytes)
    (fs' : FileSystem) : Prop :=
  fs' = fs ∨ ∃ l data n, resolveEntry cwd fs p = some l ∧ fs.node l = some (.file data) ∧
    fs' = fs.put l (.file { data with content := content.take n })

/-- What an operation may do that fails, or during which the process stops. A stream may hold
bytes back although it is good, and a rename takes place or does not. -/
def Faulty (cwd : Location) :
    (op : FsOp) → FileSystem → Option (FsAnswer op) → FileSystem → Prop
  | .exists _, fs, r, fs' => fs' = fs ∧ r ≠ some true
  | .isDirectory _, fs, r, fs' => fs' = fs ∧ r ≠ some true
  | .createDirectories p, fs, r, fs' =>
    r ≠ some none ∧ ∃ n, fs' = (makeDirs fs (start cwd p) (p.parts.take n)).2
  | .openTruncated p, fs, r, fs' => r ≠ some true ∧ Touched cwd fs p fs'
  | .write p content, fs, _, fs' => Flushed cwd fs p content fs'
  | .close p content, fs, _, fs' => Flushed cwd fs p content fs'
  | .addExecutable p, fs, r, fs' => r ≠ some none ∧ Touched cwd fs p fs'
  | .removeAll p, fs, r, fs' =>
    r ≠ some none ∧ (fs' = fs ∨ ∃ l, resolve cwd fs p = some l ∧ fs.PrunedTo l fs')
  | .rename source destination, fs, r, fs' =>
    (r ≠ some none ∧ fs' = fs) ∨ (r = none ∧ fs' = (rename cwd fs source destination).2)
  | .sync _, fs, _, fs' => fs' = fs
  | .read _, fs, r, fs' => fs' = fs ∧ ∀ bytes, r ≠ some (.content bytes)

/-- How operations behave that may fail, but for the ones that are trusted. -/
def Behaves (cwd : Location) (trusted : FsOp → Prop) (op : FsOp) (fs : FileSystem)
    (r : Option (FsAnswer op)) (fs' : FileSystem) : Prop :=
  (r = some (perform cwd op fs).1 ∧ fs' = (perform cwd op fs).2) ∨
    (Faulty cwd op fs r fs' ∧ (trusted op → r = none))

theorem exec_perform {ε α : Type} (cwd : Location) (trusted : FsOp → Prop)
    (p : Program FsOp FsAnswer ε α) (fs : FileSystem) :
    Program.Exec (Behaves cwd trusted) p fs (.ofExcept (p.run (perform cwd) fs).1)
      (p.run (perform cwd) fs).2 :=
  Program.exec_run (fun _ _ ↦ .inl ⟨rfl, rfl⟩) p fs

end FileSystem

variable {l : Location} {c : Bytes} {cs ds : List Bytes}

theorem locate_append : locate l (cs ++ ds) = locate (locate l cs) ds := List.foldl_append

theorem locate_concat : locate l (cs ++ [c]) = advance (locate l cs) c := by
  rw [locate_append]
  rfl

theorem advance_plain (h : Plain c) : advance l c = l ++ [c] := by
  simp [advance, h.1, h.2.1, h.2.2]

theorem locate_plain (h : ∀ c ∈ cs, Plain c) : locate l cs = l ++ cs := by
  induction cs generalizing l with
  | nil => simp [locate]
  | cons c cs ih =>
    have hc := advance_plain (l := l) (h c (by simp))
    rw [locate, List.foldl_cons, hc, ← locate, ih fun d hd ↦ h d (by simp [hd])]
    simp

theorem advance_cases (l : Location) (c : Bytes) :
    advance l c = l ∨ advance l c = l.dropLast ∨ advance l c = l ++ [c] := by
  unfold advance
  split_ifs <;> simp

theorem locate_parallel (R : Location) (a b : Bytes) (x : Location) (cs : List Bytes) :
    (∃ y, locate (R ++ a :: x) cs = R ++ a :: y ∧ locate (R ++ b :: x) cs = R ++ b :: y) ∨
      locate (R ++ a :: x) cs = locate (R ++ b :: x) cs := by
  induction cs generalizing x with
  | nil => exact .inl ⟨x, rfl, rfl⟩
  | cons c cs ih =>
    have hstep : ∀ l, locate l (c :: cs) = locate (advance l c) cs := fun _ ↦ rfl
    rw [hstep, hstep]
    unfold advance
    split_ifs
    · exact ih x
    · rcases List.eq_nil_or_concat' x with rfl | ⟨x, d, rfl⟩
      · right
        rw [List.dropLast_concat, List.dropLast_concat]
      · have hdrop : ∀ e : Bytes, (R ++ e :: (x ++ [d])).dropLast = R ++ e :: x := by
          intro e
          rw [← List.cons_append, ← List.append_assoc, List.dropLast_concat]
        rw [hdrop, hdrop]
        exact ih x
    · have hpush : ∀ e : Bytes, R ++ e :: x ++ [c] = R ++ e :: (x ++ [c]) := by simp
      rw [hpush, hpush]
      exact ih (x ++ [c])

namespace FileSystem

variable {fs fs' : FileSystem} {x : Location}

/-- All the directories that a path goes through are there. -/
def Made (fs : FileSystem) (l : Location) (cs : List Bytes) : Prop :=
  ∀ ds, ds <+: cs → fs.node (locate l ds) = some .dir

/-- Nothing differs but directories that a path goes through and that were not there. -/
def Grown (fs : FileSystem) (l : Location) (cs : List Bytes) (fs' : FileSystem) : Prop :=
  ∀ x, fs'.node x = fs.node x ∨
    (fs.node x = none ∧ fs'.node x = some .dir ∧ ∃ ds, ds <+: cs ∧ x = locate l ds)

theorem Made.shorten (h : Made fs l cs) (hp : ds <+: cs) : Made fs l ds :=
  fun es hes ↦ h es (hes.trans hp)

theorem Grown.refl (fs : FileSystem) (l : Location) (cs : List Bytes) : Grown fs l cs fs :=
  fun _ ↦ .inl rfl

theorem Grown.lengthen (h : Grown fs l ds fs') (hp : ds <+: cs) : Grown fs l cs fs' := by
  intro x
  rcases h x with h | ⟨hnone, hdir, es, hes, rfl⟩
  · exact .inl h
  · exact .inr ⟨hnone, hdir, es, hes.trans hp, rfl⟩

theorem Grown.trans {fs'' : FileSystem} (h : Grown fs l cs fs') (h' : Grown fs' l cs fs'') :
    Grown fs l cs fs'' := by
  intro x
  rcases h' x with hx | ⟨hnone, hdir, hway⟩
  · rw [hx]
    exact h x
  · rcases h x with hx | ⟨-, hx, -⟩
    · exact .inr ⟨hx ▸ hnone, hdir, hway⟩
    · rw [hnone] at hx
      cases hx

theorem Grown.cons (h : Grown fs (advance l c) cs fs') : Grown fs l (c :: cs) fs' := by
  intro x
  rcases h x with hx | ⟨hnone, hdir, ds, hds, rfl⟩
  · exact .inl hx
  · exact .inr ⟨hnone, hdir, c :: ds, List.cons_prefix_cons.mpr ⟨rfl, hds⟩, rfl⟩

theorem Made.cons (h : Made fs (advance l c) cs) (hl : fs.node l = some .dir) :
    Made fs l (c :: cs) := by
  intro ds hds
  cases ds with
  | nil => exact hl
  | cons d ds =>
    obtain ⟨rfl, hrest⟩ := List.cons_prefix_cons.mp hds
    exact h ds hrest

theorem Grown.dir (h : Grown fs l cs fs') (hx : fs.node x = some .dir) :
    fs'.node x = some .dir := by
  rcases h x with h | ⟨hnone, hdir, -⟩
  · rw [h, hx]
  · exact hdir

theorem Grown.kept (h : Grown fs l cs fs') (hx : fs.node x ≠ none) : fs'.node x ≠ none := by
  rcases h x with h | ⟨-, hdir, -⟩
  · rwa [h]
  · simp [hdir]

theorem Grown.file {data : FileData} (h : Grown fs l cs fs') (hx : fs.node x = some (.file data)) :
    fs'.node x = some (.file data) := by
  rcases h x with hsame | ⟨hnone, -⟩
  · rw [hsame, hx]
  · simp [hx] at hnone

theorem Grown.no_file {data : FileData} (h : Grown fs l cs fs')
    (hx : fs.node x ≠ some (.file data)) : fs'.node x ≠ some (.file data) := by
  rcases h x with h | ⟨-, hdir, -⟩
  · rwa [h]
  · simp [hdir]

theorem walk_eq_some : walk fs l cs = some x ↔
    x = locate l cs ∧ ∀ ds, ds <+: cs → ds ≠ cs → fs.node (locate l ds) = some .dir := by
  induction cs generalizing l with
  | nil =>
    simp only [walk, Option.some.injEq, List.prefix_nil]
    constructor
    · rintro rfl
      exact ⟨rfl, fun ds h hne ↦ absurd h hne⟩
    · exact fun h ↦ h.1.symm
  | cons c cs ih =>
    rw [walk]
    split_ifs with hdir
    · rw [ih]
      refine and_congr_right fun _ ↦ ⟨fun h ds hp hne ↦ ?_, fun h ds hp hne ↦ ?_⟩
      · cases ds with
        | nil => exact FileTree.isDir_iff.mp hdir
        | cons d ds =>
          obtain ⟨rfl, hrest⟩ := List.cons_prefix_cons.mp hp
          exact h ds hrest fun heq ↦ hne (by rw [heq])
      · exact h (c :: ds) (List.cons_prefix_cons.mpr ⟨rfl, hp⟩) fun heq ↦ hne (List.cons.inj heq).2
    · simp only [false_iff, not_and]
      intro _ h
      exact hdir (FileTree.isDir_iff.mpr (h [] (by simp) (by simp)))

theorem walk_append (fs : FileSystem) (l : Location) (cs ds : List Bytes) :
    walk fs l (cs ++ ds) = (walk fs l cs).bind fun x ↦ walk fs x ds := by
  induction cs generalizing l with
  | nil => rfl
  | cons c cs ih =>
    rw [List.cons_append, walk, walk]
    split_ifs
    · exact ih (advance l c)
    · rfl

theorem walk_of_made (h : Made fs l cs) : walk fs l cs = some (locate l cs) :=
  walk_eq_some.mpr ⟨rfl, fun ds hp _ ↦ h ds hp⟩

theorem made_of_walk (h : walk fs l (cs ++ [c]) = some x) :
    Made fs l cs ∧ x = advance (locate l cs) c := by
  obtain ⟨hx, hdirs⟩ := walk_eq_some.mp h
  refine ⟨fun ds hp ↦ hdirs ds (hp.trans (List.prefix_append cs [c])) ?_, hx.trans locate_concat⟩
  rintro rfl
  exact absurd hp.length_le (by simp)

theorem resolveEntry_eq {cwd : Location} {p : HostPath} (hroot : p.absolute = true)
    (hparts : p.parts = cs ++ [c]) (h : resolveEntry cwd fs p = some x) :
    Plain c ∧ Made fs [] cs ∧ x = locate [] cs ++ [c] := by
  have hname : p.filename = c := by simp [HostPath.filename, hparts]
  unfold resolveEntry at h
  rw [hname] at h
  split_ifs at h with hplain
  rw [resolve, start, if_pos hroot, hparts] at h
  obtain ⟨hmade, rfl⟩ := made_of_walk h
  exact ⟨hplain, hmade, advance_plain hplain⟩

theorem resolveEntry_of_made {cwd : Location} {p : HostPath} (hroot : p.absolute = true)
    (hparts : p.parts = cs ++ [c]) (hplain : Plain c) (hmade : Made fs [] cs) :
    resolveEntry cwd fs p = some (locate [] cs ++ [c]) := by
  have hname : p.filename = c := by simp [HostPath.filename, hparts]
  rw [resolveEntry, hname, if_pos hplain, resolve, start, if_pos hroot, hparts, walk_eq_some,
    locate_concat, advance_plain hplain]
  refine ⟨rfl, fun ds hds hne ↦ hmade ds ?_⟩
  rcases List.prefix_concat_iff.mp hds with rfl | hp
  · exact absurd rfl hne
  · exact hp

theorem fits_dir (h : fs.node l = some .dir) (hnone : fs.node (advance l c) = none) :
    fs.Fits (advance l c) .dir := by
  rcases advance_cases l c with heq | heq | heq
  · rw [heq, h] at hnone
    cases hnone
  · rw [heq] at hnone
    have hne : l ≠ [] := fun hnil ↦ by simp [hnil, fs.root] at hnone
    have hlast := List.dropLast_append_getLast hne
    have hdir := fs.closed l.dropLast (l.getLast hne) (by rw [hlast, h]; simp)
    rw [hdir] at hnone
    cases hnone
  · rw [heq]
    exact ⟨by simp, by simpa using FileTree.isDir_iff.mpr h, .inl rfl⟩

theorem grown_put (h : fs.node l = some .dir) (hnone : fs.node (advance l c) = none) :
    Grown fs l (c :: cs) (fs.put (advance l c) .dir) := by
  intro x
  rw [FileTree.node_put (fits_dir h hnone)]
  by_cases hx : x = advance l c
  · rw [hx, Layout.put_self]
    exact .inr ⟨hnone, rfl, [c], by simp, rfl⟩
  · exact .inl (Layout.put_other _ hx)

/-- Making directories makes those that were not there, and where it goes through, all of them. -/
theorem makeDirs_spec (h : fs.node l = some .dir) :
    Grown fs l cs (makeDirs fs l cs).2 ∧
      ((makeDirs fs l cs).1 = true → Made (makeDirs fs l cs).2 l cs) := by
  induction cs generalizing fs l with
  | nil =>
    refine ⟨.refl fs l [], fun _ ds hds ↦ ?_⟩
    rw [List.prefix_nil.mp hds]
    exact h
  | cons c cs ih =>
    rw [makeDirs]
    cases hnode : fs.node (advance l c) with
    | none =>
      have hput : (fs.put (advance l c) .dir).node (advance l c) = some .dir := by
        rw [FileTree.node_put (fits_dir h hnode), Layout.put_self]
      obtain ⟨hgrown, hmade⟩ := ih hput
      have hall := (grown_put h hnode).trans hgrown.cons
      exact ⟨hall, fun hok ↦ (hmade hok).cons (hall.dir h)⟩
    | some e =>
      cases e with
      | dir =>
        obtain ⟨hgrown, hmade⟩ := ih hnode
        exact ⟨hgrown.cons, fun hok ↦ (hmade hok).cons (hgrown.cons.dir h)⟩
      | file data => exact ⟨.refl fs l (c :: cs), fun hok ↦ by cases hok⟩

theorem makeDirs_ok (h : fs.node l = some .dir)
    (hfiles : ∀ ds, ds <+: cs → ∀ data, fs.node (locate l ds) ≠ some (.file data)) :
    (makeDirs fs l cs).1 = true := by
  induction cs generalizing fs l with
  | nil => rfl
  | cons c cs ih =>
    have hrest : ∀ ds, ds <+: cs → ∀ data,
        fs.node (locate (advance l c) ds) ≠ some (.file data) :=
      fun ds hds ↦ hfiles (c :: ds) (List.cons_prefix_cons.mpr ⟨rfl, hds⟩)
    rw [makeDirs]
    cases hnode : fs.node (advance l c) with
    | none =>
      have hfits := fits_dir h hnode
      refine ih (by rw [FileTree.node_put hfits, Layout.put_self]) fun ds hds data ↦ ?_
      rw [FileTree.node_put hfits]
      by_cases heq : locate (advance l c) ds = advance l c
      · rw [heq, Layout.put_self]
        simp
      · rw [Layout.put_other _ heq]
        exact hrest ds hds data
    | some e =>
      cases e with
      | dir => exact ih hnode hrest
      | file data => exact absurd hnode (hrest [] (by simp) data)

theorem makeDirs_made
    (hfiles : ∀ ds, ds <+: cs → ∀ data, fs.node (locate [] ds) ≠ some (.file data)) :
    Grown fs [] cs (makeDirs fs [] cs).2 ∧ Made (makeDirs fs [] cs).2 [] cs :=
  (makeDirs_spec fs.root).imp_right fun h ↦ h (makeDirs_ok fs.root hfiles)

end FileSystem

end SquaredPg
