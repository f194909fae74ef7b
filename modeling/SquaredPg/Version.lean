import SquaredPg.Bytes
import SquaredPg.Sorting

namespace SquaredPg

open Ascii Std

/-- SemVer numeric identifiers: no sign, no leading zero, at most nine digits. -/
def parseNumeric (text : Bytes) : Option UInt32 :=
  if text = [] ∨ 9 < text.length then none
  else if 1 < text.length ∧ text.head? = some zero then none
  else text.foldlM (fun value c ↦ if isDigit c then some (value * 10 + (c.toUInt32 - 48)) else none) 0

def isIdentifierChar (c : UInt8) : Bool := isLetter c || isDigit c || c == minus

def validDotSeparated (text : Bytes) : Bool :=
  text ≠ [] ∧ (text.splitOn dot).all fun part ↦ part ≠ [] ∧ part.all isIdentifierChar

def allDigits (text : Bytes) : Bool := text ≠ [] ∧ text.all isDigit

def compareIdentifier (l r : Bytes) : Ordering :=
  if allDigits l && allDigits r then (compare l.length r.length).then (List.compareLex compare l r)
  else if allDigits l != allDigits r then (if allDigits l then .lt else .gt)
  else List.compareLex compare l r

/-- The loop of `compare_prerelease`: identifier by identifier, a shorter list first. -/
def compareIdentifiers (l r : List Bytes) : Ordering := List.compareLex compareIdentifier l r

/-- SemVer precedence of pre-releases: none at all beats any. -/
def comparePrerelease (l r : Bytes) : Ordering :=
  if l = [] ∧ r = [] then .eq
  else if l = [] then .gt
  else if r = [] then .lt
  else compareIdentifiers (l.splitOn dot) (r.splitOn dot)

def hasLeadingZero (part : Bytes) : Bool :=
  allDigits part ∧ 1 < part.length ∧ part.head? = some zero

theorem noSuffix_valid : ([] : Bytes) = [] ∨ validDotSeparated [] = true := .inl rfl

structure Version where
  major : UInt32 := 0
  minor : UInt32 := 0
  patch : UInt32 := 0
  prerelease : Bytes := []
  build : Bytes := []
  prerelease_valid : prerelease = [] ∨ validDotSeparated prerelease = true := by exact noSuffix_valid
  build_valid : build = [] ∨ validDotSeparated build = true := by exact noSuffix_valid
  deriving DecidableEq

namespace Version

def isPrerelease (v : Version) : Bool := v.prerelease ≠ []

def parseCore (core prerelease build : Bytes)
    (hp : prerelease = [] ∨ validDotSeparated prerelease = true)
    (hb : build = [] ∨ validDotSeparated build = true) : Option Version :=
  match core.splitOn dot with
  | [first, second, third] => do
    let major ← parseNumeric first
    let minor ← parseNumeric second
    let patch ← parseNumeric third
    pure ⟨major, minor, patch, prerelease, build, hp, hb⟩
  | _ => none

/-- The text after the build metadata is cut off: the core, and a pre-release behind a dash. -/
def parsePrerelease (text build : Bytes) (hb : build = [] ∨ validDotSeparated build = true) :
    Option Version :=
  match cutAt minus text with
  | (core, none) => parseCore core [] build noSuffix_valid hb
  | (core, some prerelease) =>
    if hp : validDotSeparated prerelease = true then
      if (prerelease.splitOn dot).any hasLeadingZero then none
      else parseCore core prerelease build (.inr hp) hb
    else none

def parse (text : Bytes) : Option Version :=
  let text := trim text
  if text = [] then none
  else
    let text := if text.head? = some 118 ∨ text.head? = some 86 then text.tail else text
    match cutAt plus text with
    | (rest, none) => parsePrerelease rest [] noSuffix_valid
    | (rest, some build) =>
      if hb : validDotSeparated build = true then parsePrerelease rest build (.inr hb) else none

def toString (v : Version) : Bytes :=
  decimal v.major.toNat ++ dot :: decimal v.minor.toNat ++ dot :: decimal v.patch.toNat ++
    (if v.prerelease = [] then [] else minus :: v.prerelease) ++
    (if v.build = [] then [] else plus :: v.build)

/-- `Version::operator<=>`: build metadata takes no part. -/
def cmp (a b : Version) : Ordering :=
  (compare a.major b.major).then <| (compare a.minor b.minor).then <|
    (compare a.patch b.patch).then <| comparePrerelease a.prerelease b.prerelease

/-- `Version::operator==`. -/
def same (a b : Version) : Bool :=
  a.major = b.major ∧ a.minor = b.minor ∧ a.patch = b.patch ∧ a.prerelease = b.prerelease

end Version

/-- `1` becomes `1.0.0` and `1.2` becomes `1.2.0`; a suffix stays. -/
def padVersion (token : Bytes) : Bytes :=
  let core := token.takeWhile fun c ↦ c ≠ minus ∧ c ≠ plus
  let suffix := token.dropWhile fun c ↦ c ≠ minus ∧ c ≠ plus
  if 2 ≤ core.count dot then token
  else core ++ (List.replicate (2 - core.count dot) (ascii ".0")).flatten ++ suffix

inductive RangeOp
  | eq | lt | lte | gt | gte | caret | tilde
  deriving DecidableEq

structure Clause where
  op : RangeOp
  version : Version
  deriving DecidableEq

structure VersionRange where
  clauses : List Clause := []
  text : Bytes := []
  deriving DecidableEq

namespace VersionRange

def takeOp (rest : Bytes) : RangeOp × Bytes :=
  if (ascii ">=").isPrefixOf rest then (.gte, rest.drop 2)
  else if (ascii "<=").isPrefixOf rest then (.lte, rest.drop 2)
  else if (ascii ">").isPrefixOf rest then (.gt, rest.drop 1)
  else if (ascii "<").isPrefixOf rest then (.lt, rest.drop 1)
  else if (ascii "=").isPrefixOf rest then (.eq, rest.drop 1)
  else if (ascii "^").isPrefixOf rest then (.caret, rest.drop 1)
  else if (ascii "~").isPrefixOf rest then (.tilde, rest.drop 1)
  else (.eq, rest)

/-- The loop of `VersionRange::parse`; `n` bounds the number of rounds. -/
def parseClauses : ℕ → Bytes → Option (List Clause)
  | 0, _ => none
  | n + 1, rest =>
    if trim rest = [] then some []
    else
      let (op, rest) := takeOp (trim rest)
      let token := (trim rest).takeWhile (· ≠ 32)
      if token = [] then none
      else do
        let version ← Version.parse (padVersion token)
        let clauses ← parseClauses n ((trim rest).dropWhile (· ≠ 32))
        pure (⟨op, version⟩ :: clauses)

def parse (text : Bytes) : Option VersionRange :=
  let rest := trim text
  if rest = [] ∨ rest = ascii "*" ∨ rest = ascii "any" then some { text := rest }
  else (parseClauses (rest.length + 1) rest).map fun clauses ↦ { clauses, text := rest }

def Clause.admits (clause : Clause) (version : Version) : Bool :=
  let bound := clause.version
  match clause.op with
  | .eq => version.same bound
  | .lt => version.cmp bound = .lt
  | .lte => version.cmp bound ≠ .gt
  | .gt => version.cmp bound = .gt
  | .gte => version.cmp bound ≠ .lt
  | .caret =>
    if version.cmp bound = .lt then false
    else if 0 < bound.major then version.major = bound.major
    else if 0 < bound.minor then version.major = 0 ∧ version.minor = bound.minor
    else version.major = 0 ∧ version.minor = 0 ∧ version.patch = bound.patch
  | .tilde =>
    if version.cmp bound = .lt then false
    else version.major = bound.major ∧ version.minor = bound.minor

/-- Some clause names a pre-release of the same triple. -/
def invites (range : VersionRange) (version : Version) : Bool :=
  range.clauses.any fun clause ↦ clause.version.isPrerelease ∧
    clause.version.major = version.major ∧ clause.version.minor = version.minor ∧
    clause.version.patch = version.patch

def satisfiedBy (range : VersionRange) (version : Version) : Bool :=
  if range.clauses = [] then true
  else if version.isPrerelease && !range.invites version then false
  else range.clauses.all fun clause ↦ Clause.admits clause version

end VersionRange

namespace VersionRange

theorem trim_length_le (text : Bytes) : (trim text).length ≤ text.length :=
  ((List.rdropWhile_prefix isBlank (text.dropWhile isBlank)).length_le).trans
    (List.dropWhile_suffix isBlank).length_le

theorem takeOp_length_le (rest : Bytes) : (takeOp rest).2.length ≤ rest.length := by
  unfold takeOp
  split_ifs <;> simp

theorem parseClauses_bound {n m : ℕ} {rest : Bytes} (hn : rest.length < n) (hm : rest.length < m) :
    parseClauses n rest = parseClauses m rest := by
  induction n generalizing m rest with
  | zero => exact absurd hn (by omega)
  | succ n ih =>
    obtain ⟨m, rfl⟩ := Nat.exists_eq_add_of_lt (Nat.zero_lt_of_lt hm)
    simp only [Nat.zero_add, parseClauses]
    split
    · rfl
    · split
      · rfl
      · rename_i hrest htoken
        have hlen := List.takeWhile_append_dropWhile
          (p := (· ≠ 32)) (l := trim (takeOp (trim rest)).2)
        have hlen' := congrArg List.length hlen
        have h₁ := trim_length_le (takeOp (trim rest)).2
        have h₂ := takeOp_length_le (trim rest)
        have h₃ := trim_length_le rest
        have h₄ := List.length_pos_iff.mpr htoken
        rw [List.length_append] at hlen'
        rw [ih (m := m) (by omega) (by omega)]

end VersionRange

def identifierRank (part : Bytes) : ℕ × ℕ := if allDigits part then (0, part.length) else (1, 0)

theorem compareIdentifier_eq (l r : Bytes) :
    compareIdentifier l r =
      (compare (identifierRank l).1 (identifierRank r).1).then
        ((compare (identifierRank l).2 (identifierRank r).2).then (List.compareLex compare l r)) := by
  cases hl : allDigits l <;> cases hr : allDigits r <;>
    simp [compareIdentifier, identifierRank, hl, hr, Nat.compare_eq_ite_lt]

instance : TransCmp compareIdentifier := by
  have h : compareIdentifier = compareLex (compareOn fun part ↦ (identifierRank part).1)
      (compareLex (compareOn fun part ↦ (identifierRank part).2) (List.compareLex compare)) := by
    funext l r
    exact compareIdentifier_eq l r
  rw [h]
  infer_instance

instance : LawfulEqCmp compareIdentifier where
  eq_of_compare {l r} h := by
    rw [compareIdentifier_eq, Ordering.then_eq_eq, Ordering.then_eq_eq] at h
    exact LawfulEqCmp.eq_of_compare h.2.2

theorem comparePrerelease_eq (l r : Bytes) :
    comparePrerelease l r =
      (compare (if l = [] then 1 else 0) (if r = [] then 1 else 0)).then
        (compareIdentifiers (l.splitOn dot) (r.splitOn dot)) := by
  by_cases hl : l = [] <;> by_cases hr : r = []
  · subst hl hr
    rfl
  all_goals simp [comparePrerelease, hl, hr, Nat.compare_eq_ite_lt]

instance : TransCmp compareIdentifiers := inferInstanceAs (TransCmp (List.compareLex _))

instance : LawfulEqCmp compareIdentifiers := inferInstanceAs (LawfulEqCmp (List.compareLex _))

instance : TransCmp comparePrerelease := by
  have h : comparePrerelease = compareLex (compareOn fun l : Bytes ↦ if l = [] then 1 else 0)
      (fun l r ↦ compareIdentifiers (l.splitOn dot) (r.splitOn dot)) := by
    funext l r
    exact comparePrerelease_eq l r
  have := transCmp_on compareIdentifiers fun l : Bytes ↦ l.splitOn dot
  rw [h]
  infer_instance

instance : LawfulEqCmp comparePrerelease where
  eq_of_compare {l r} h := by
    rw [comparePrerelease_eq, Ordering.then_eq_eq] at h
    have hsplit := LawfulEqCmp.eq_of_compare h.2
    exact (List.intercalate_splitOn dot).symm.trans (hsplit ▸ List.intercalate_splitOn dot)

namespace Version

instance : TransCmp cmp := by
  have := transCmp_on comparePrerelease prerelease
  exact inferInstanceAs (TransCmp (compareLex (compareOn major) (compareLex (compareOn minor)
    (compareLex (compareOn patch) fun a b ↦ comparePrerelease a.prerelease b.prerelease))))

theorem cmp_eq_iff {a b : Version} : cmp a b = .eq ↔ same a b = true := by
  simp [cmp, same, Ordering.then_eq_eq, LawfulEqCmp.compare_eq_iff_eq]

end Version

end SquaredPg
