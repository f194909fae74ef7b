import SquaredPg.Paths

namespace SquaredPg

open Ascii

/-- `std::filesystem::path` by its elements below the root. A trailing separator is an empty last
element; other doubled separators make no difference. A path is a text without a NUL, where the calls
of the system would end it. -/
structure HostPath where
  absolute : Bool
  parts : List Bytes
  deriving DecidableEq

namespace HostPath

def ofBytes (text : Bytes) : HostPath where
  absolute := text.head? = some slash
  parts := splitPath text ++
    if text.getLast? = some slash ∧ splitPath text ≠ [] then [[]] else []

/-- `path::string`, but with one separator where the text of the path doubles it. -/
def string (p : HostPath) : Bytes := (if p.absolute then [slash] else []) ++ joinPath p.parts

def isEmpty (p : HostPath) : Bool := !p.absolute && p.parts.isEmpty

/-- The elements without the empty one that a trailing separator stands for. -/
def stem (p : HostPath) : List Bytes :=
  if p.parts.getLast? = some [] then p.parts.dropLast else p.parts

def append (p q : HostPath) : HostPath :=
  if q.absolute then q
  else if q.parts = [] then { p with parts := if p.stem = [] then [] else p.stem ++ [[]] }
  else { p with parts := p.stem ++ q.parts }

/-- `parent_path`: the last element is dropped, and a root is its own parent. -/
def parentPath (p : HostPath) : HostPath := { p with parts := p.parts.dropLast }

def hasParentPath (p : HostPath) : Bool := !p.parentPath.isEmpty

/-- `filename`: the last element, empty behind a trailing separator. -/
def filename (p : HostPath) : Bytes := p.parts.getLast?.getD []

/-- `std::filesystem::absolute`: the current directory in front, and nothing normalised. -/
def makeAbsolute (cwd : List Bytes) (p : HostPath) : HostPath :=
  if p.absolute then p else append ⟨true, cwd⟩ p

/-- The walk from the parent of a path up to the root, which it leaves out. -/
def properAncestors (p : HostPath) : List HostPath :=
  (p.parts.dropLast.inits.tail.reverse).map fun parts ↦ { p with parts }

variable {p : HostPath}

theorem parts_of_named (h : p.filename ≠ []) : p.parts = p.parts.dropLast ++ [p.filename] := by
  rcases List.eq_nil_or_concat' p.parts with hnil | ⟨ps, name, hparts⟩
  · simp [filename, hnil] at h
  · simp [filename, hparts]

theorem stem_of_named (h : p.filename ≠ []) : p.stem = p.parts := by
  have hlast : p.parts.getLast? ≠ some [] := by
    rw [parts_of_named h, List.getLast?_concat]
    exact fun heq ↦ h (Option.some.inj heq)
  exact if_neg hlast

theorem stem_of_unnamed (h : p.filename = []) : p.stem = p.parts.dropLast := by
  rcases List.eq_nil_or_concat' p.parts with hnil | ⟨ps, name, hparts⟩
  · simp [stem, hnil]
  · have hname : name = [] := by simpa [filename, hparts] using h
    simp [stem, hparts, hname]

theorem splitPath_getLast? (text : Bytes) : (splitPath text).getLast? ≠ some [] :=
  fun h ↦ (mem_splitPath (List.mem_of_getLast? h)).1 rfl

theorem stem_ofBytes (text : Bytes) : (ofBytes text).stem = splitPath text := by
  unfold stem ofBytes
  by_cases h : text.getLast? = some slash ∧ splitPath text ≠ []
  · simp [h]
  · simp [h, splitPath_getLast?]

end HostPath

end SquaredPg
