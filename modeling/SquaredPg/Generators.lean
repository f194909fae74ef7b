import SquaredPg.Atomicity
import SquaredPg.Interleaving

namespace SquaredPg

open Ascii Program

namespace TransactionService

open FilesystemService FileSystem MetadataService

/-- What one process calls `apply` with. -/
structure Generator where
  cwd : Location
  plan : GenerationPlan
  metadataRecord : Value
  fast : Bool

/-- A process is inside while a staging directory that it has created is there: it has neither moved
it into place, which is to land, nor removed it. -/
inductive Phase
  | outside
  | inside
  | landed
  deriving DecidableEq

/-- The disk, and what each process has done there so far. -/
structure Shared (ι : Type) where
  disk : FileSystem
  phase : ι → Phase

namespace Generator

variable (g : Generator)

def target : HostPath := targetOf g.cwd g.plan

def staging : HostPath := stagingPathFor g.target

def program : FsProgram Outcome := apply g.cwd g.plan g.metadataRecord g.fast

def Holds (f : Layout Bytes FileData) : Prop := Complete g.metadataRecord g.plan.steps g.fast f

def phaseAfter (phase : Phase) : (op : FsOp) → FsAnswer op → Phase
  | .createDirectories path, none => if path = g.staging then .inside else phase
  | .removeAll path, none => if path = g.staging then .outside else phase
  | .rename source destination, none =>
    if source = g.staging ∧ destination = g.target then .landed else phase
  | _, _ => phase

end Generator

section Model

variable {ι : Type} [DecidableEq ι]

/-- An operation takes place as a whole, and without a fault. -/
def performAs (gs : ι → Generator) (i : ι) (op : FsOp) (s : Shared ι) : FsAnswer op × Shared ι :=
  ((perform (gs i).cwd op s.disk).1,
    { disk := (perform (gs i).cwd op s.disk).2
      phase := Function.update s.phase i
        ((gs i).phaseAfter (s.phase i) op (perform (gs i).cwd op s.disk).1) })

/-- Nobody makes or removes the staging directory while another process is inside. -/
def Exclusive (gs : ι → Generator) (i : ι) (op : FsOp) (s : Shared ι) : Prop :=
  op = .createDirectories (gs i).staging ∨ op = .removeAll (gs i).staging →
    ∀ j, s.phase j = .inside → j = i

def start (gs : ι → Generator) (fs : FileSystem) :
    Processes ι FsOp FsAnswer EngineError Outcome (Shared ι) where
  left i := (gs i).program
  state := ⟨fs, fun _ ↦ .outside⟩

/-- At most one run reports success, and then its workspace is what is at the target. -/
structure OneWinner (gs : ι → Generator)
    (c : Processes ι FsOp FsAnswer EngineError Outcome (Shared ι)) : Prop where
  unique : ∀ i j, (c.left i).succeeded = true → (c.left j).succeeded = true → i = j
  holds : ∀ i, (c.left i).succeeded = true →
    (gs i).Holds (c.state.disk.node.below (targetLocation (gs i).target))

end Model

def Quiet : FsOp → Prop
  | .removeAll _ | .rename _ _ => False
  | _ => True

section Quiet

variable {cwd : Location} {fs : FileSystem} {op : FsOp} {l x : Location}

theorem Generator.phaseAfter_quiet (g : Generator) (h : Quiet op) (r : FsAnswer op) :
    g.phaseAfter .inside op r = .inside := by
  cases op with
  | createDirectories path =>
    cases r with
    | none => simp [phaseAfter]
    | some ec => rfl
  | removeAll path => exact h.elim
  | rename source destination => exact h.elim
  | _ => rfl

theorem dir_put {data : FileData} (hl : fs.node l ≠ some .dir) (hx : fs.node x = some .dir) :
    (fs.put l (.file data)).node x = some .dir := by
  have hne : x ≠ l := by
    rintro rfl
    exact hl hx
  rw [FileTree.node_put_other hne]
  exact hx

theorem dir_editFile {fs' : FileSystem} {path : HostPath} {edit : FileData → FileData}
    (h : editFile cwd fs path edit = some fs') (hx : fs.node x = some .dir) :
    fs'.node x = some .dir := by
  obtain ⟨l, -, hl⟩ := Option.bind_eq_some_iff.mp h
  cases hnode : fs.node l with
  | none => simp [hnode] at hl
  | some e =>
    cases e with
    | dir => simp [hnode] at hl
    | file data =>
      simp only [hnode, Option.some.injEq] at hl
      subst hl
      exact dir_put (by simp [hnode]) hx

theorem dir_writeContent {path : HostPath} {content : Bytes} (hx : fs.node x = some .dir) :
    (writeContent cwd fs path content).2.node x = some .dir := by
  unfold writeContent
  cases hfile : editFile cwd fs path fun data ↦ { data with content } with
  | none => exact hx
  | some fs' => exact dir_editFile hfile hx

theorem dir_kept (h : Quiet op) (hx : fs.node x = some .dir) :
    (perform cwd op fs).2.node x = some .dir := by
  cases op with
  | removeAll path => exact h.elim
  | rename source destination => exact h.elim
  | createDirectories path =>
    simp only [perform, FileSystem.createDirectories]
    split_ifs with hempty hstart
    · exact hx
    · exact hx
    · have hdir := FileTree.isDir_iff.mp (Bool.eq_true_of_not_eq_false hstart)
      have hgrown : Grown fs (FileSystem.start cwd path) path.parts
          (makeDirs fs (FileSystem.start cwd path) path.parts).2 := (makeDirs_spec hdir).1
      have hkept := hgrown.dir hx
      revert hkept
      rcases makeDirs fs (FileSystem.start cwd path) path.parts with ⟨_ | _, fs'⟩ <;> exact id
  | openTruncated path =>
    simp only [perform, openTruncated]
    cases resolveEntry cwd fs path with
    | none => exact hx
    | some l =>
      cases hnode : fs.node l with
      | none =>
        have hl : fs.node l ≠ some .dir := by simp [hnode]
        simp only [hnode]
        exact dir_put hl hx
      | some e =>
        cases e with
        | dir => simpa [hnode] using hx
        | file data =>
          have hl : fs.node l ≠ some .dir := by simp [hnode]
          simp only [hnode]
          exact dir_put hl hx
  | write path content => exact dir_writeContent hx
  | close path content => exact dir_writeContent hx
  | addExecutable path =>
    simp only [perform, FileSystem.addExecutable]
    cases hfile : editFile cwd fs path fun data ↦ { data with executable := true } with
    | none => exact hx
    | some fs' => exact dir_editFile hfile hx
  | _ => exact hx

theorem Building.quiet : ∀ op, Building op → Quiet op := by
  intro op h
  cases op with
  | removeAll path => exact h
  | rename source destination => exact h
  | _ => trivial

end Quiet

end TransactionService

end SquaredPg
