import SquaredPg.Filesystem
import SquaredPg.ShellQuote

namespace SquaredPg

open Ascii

/-- A tree that a command moves, makes by copying, or removes. -/
inductive TreeStep
  | move (source target : Location)
  | copy (target : Location)
  | remove (location : Location)
  deriving DecidableEq

def TreeStep.places : TreeStep → List Location
  | move source target => [source, target]
  | copy target => [target]
  | remove location => [location]

structure HostState where
  fs : FileSystem
  log : List TreeStep := []

/-- What the commands run on. The shell reads simple commands as POSIX has it; what their programs
print, `git init`, and what `cp` makes of an option are left open. -/
structure Machine where
  cwd : Location
  sqsysroot : Option Bytes
  home : Option Bytes
  rules : Shell.Rules
  environment : Shell.Environment
  /-- What a command prints, read back by `io.popen`. -/
  capture : FileSystem → Bytes → Bytes
  gitInit : Bytes → FileSystem → FileSystem
  /-- Where `cp -a` puts a tree whose target is a directory that is there, or has a hyphen in front
  and is an option to `cp`. -/
  copyInto : Bytes → Bytes → FileSystem → Option (Location × FileSystem)

namespace Machine

variable (m : Machine)

def isDirectory (path : Bytes) (fs : FileSystem) : Bool :=
  path ≠ [] ∧ FileSystem.isDirectory m.cwd fs (.ofBytes path)

def existsAt (path : Bytes) (fs : FileSystem) : Bool :=
  path ≠ [] ∧ FileSystem.existsAt m.cwd fs (.ofBytes path)

/-- The entry that a path names, whether it is there or not; separators at its end are ignored. -/
def entryAt (p : HostPath) (fs : FileSystem) : Option Location :=
  FileSystem.resolveEntry m.cwd fs { p with parts := p.stem }

def mkdir (operand : Bytes) (st : HostState) : Bool × HostState :=
  if operand.head? = some minus then (false, st)
  else
    let (error, fs) := FileSystem.createDirectories m.cwd st.fs (.ofBytes operand)
    (error = none, { st with fs })

/-- `rm -rf`; a path with a hyphen in front is an option it does not know, and it refuses the root
and operands that end in `.` or `..`. -/
def rm (operand : Bytes) (st : HostState) : Bool × HostState :=
  let p := HostPath.ofBytes operand
  if operand.head? = some minus then (false, st)
  else if p.stem = [] ∨ p.stem.getLast? = some (ascii ".") ∨ p.stem.getLast? = some (ascii "..")
    then (false, st)
  else
    match FileSystem.resolve m.cwd st.fs p with
    | none => (true, st)
    | some l =>
      if (st.fs.node l).isNone then (true, st)
      else (true, { fs := st.fs.prune l, log := st.log ++ [.remove l] })

/-- A copy into itself is made, and reported as a failure. -/
def copyTo (source target : HostPath) (st : HostState) : Bool × HostState :=
  match FileSystem.resolve m.cwd st.fs source, m.entryAt target st.fs with
  | some src, some dst =>
    if st.fs.Copyable src dst ∧ (st.fs.isDir src ∨ target.parts.getLast? ≠ some []) then
      (!decide (src <+: dst), { fs := st.fs.copy src dst, log := st.log ++ [.copy dst] })
    else (false, st)
  | _, _ => (false, st)

/-- `cp -a`, to where nothing but directories is in the way -/
def cp (source target : Bytes) (st : HostState) : Bool × HostState :=
  if target.head? = some minus ∨ m.isDirectory target st.fs then
    match m.copyInto source target st.fs with
    | some (dst, fs) => (true, { fs, log := st.log ++ [.copy dst] })
    | none => (false, st)
  else m.copyTo (.ofBytes source) (.ofBytes target) st

/-- The programs that `os.execute` runs here. -/
def execute (arguments : List Bytes) (st : HostState) : Bool × HostState :=
  match arguments with
  | [program, option, operand] =>
    if program = ascii "test" ∧ option = ascii "-d" then (m.isDirectory operand st.fs, st)
    else if program = ascii "test" ∧ option = ascii "-e" then (m.existsAt operand st.fs, st)
    else if program = ascii "mkdir" ∧ option = ascii "-p" then m.mkdir operand st
    else if program = ascii "rm" ∧ option = ascii "-rf" then m.rm operand st
    else (false, st)
  | [program, option, source, target] =>
    if program = ascii "cp" ∧ option = ascii "-a" then m.cp source target st else (false, st)
  | _ => (false, st)

def words (command : Bytes) : Option (List Bytes) :=
  (Shell.read m.rules (cString command)).bind (Shell.arguments m.environment)

def run (command : Bytes) (st : HostState) : Bool × HostState :=
  match m.words command with
  | some arguments => m.execute arguments st
  | none => (false, st)

def isDir (path : Bytes) (st : HostState) : Bool :=
  (m.run (ascii "test -d " ++ Env.quote path) st).1

def exists_ (path : Bytes) (st : HostState) : Bool :=
  m.existsAt (cString path) st.fs || (m.run (ascii "test -e " ++ Env.quote path) st).1

def mkdirP (path : Bytes) (st : HostState) : Bool × HostState :=
  m.run (ascii "mkdir -p " ++ Env.quote path) st

/-- `env.rename`, the `rename` of the C library -/
def rename (source target : Bytes) (st : HostState) : Bool × HostState :=
  let s := HostPath.ofBytes (cString source)
  let t := HostPath.ofBytes (cString target)
  match FileSystem.rename m.cwd st.fs s t, m.entryAt s st.fs, m.entryAt t st.fs with
  | (none, fs), some src, some dst =>
    (true, { fs, log := if src = dst then st.log else st.log ++ [.move src dst] })
  | _, _, _ => (false, st)

def root : Option Bytes :=
  match m.sqsysroot.filter (· ≠ []) with
  | some declared => some declared
  | none => (m.home.filter (· ≠ [])).map fun home ↦ home ++ ascii "/sqsysroot"

def initialised (root : Bytes) (st : HostState) : Bool :=
  m.isDir (root ++ ascii "/.sqpg") st && m.isDir (root ++ ascii "/project") st &&
    m.isDir (root ++ ascii "/sandbox") st

/-- The line that `pwd -P` prints behind `cd`. -/
def resolve (path : Bytes) (st : HostState) : Option Bytes :=
  let command := ascii "cd " ++ Env.quote path ++ ascii " 2>/dev/null && pwd -P"
  let out := (m.capture st.fs command).takeWhile fun c ↦ c ≠ 10
  if out = [] then none else some out

def tiers : List Bytes := [ascii "sandbox", ascii "project"]

def tierOf (root path : Bytes) (st : HostState) : Option Bytes :=
  (m.resolve path st).bind fun resolved ↦
    tiers.find? fun tier ↦ (root ++ ascii "/" ++ tier ++ ascii "/").isPrefixOf resolved

end Machine

def Env.basename (path : Bytes) : Option Bytes :=
  let name := ((path.rdropWhile fun c ↦ c = slash).reverse.takeWhile fun c ↦ c ≠ slash).reverse
  if name = [] then none else some name

end SquaredPg
