import Mathlib

/-! # Host paths — texts and their components

A path is a text, and the host reads it as a list of components: repeated and trailing separators
and interior dots are dropped.  So two texts may name one file.  A path of normal components
stays below the directory it is joined to, and its names are what the host sees of it. -/

namespace HostPath

open List

inductive Component where
  | rootDir
  | curDir
  | parentDir
  | normal (name : List Char)
  deriving DecidableEq

/-- A segment after the first. -/
def interior (segment : List Char) : Option Component :=
  if segment = [] ∨ segment = ['.'] then none
  else if segment = ['.', '.'] then some .parentDir
  else some (.normal segment)

/-- `Path::components`. -/
def components (path : List Char) : List Component :=
  if path.head? = some '/' then .rootDir :: (path.splitOn '/').filterMap interior
  else if (path.splitOn '/').head? = some ['.'] then
    .curDir :: (path.splitOn '/').tail.filterMap interior
  else (path.splitOn '/').filterMap interior

def isAbsolute (path : List Char) : Bool := decide (path.head? = some '/')

def Component.isNormal : Component → Bool
  | .normal _ => true
  | _ => false

/-- A relative path of normal components. -/
def isConfined (path : List Char) : Bool :=
  !isAbsolute path && (components path).all Component.isNormal

def Component.name : Component → Option String
  | .normal name => some (String.ofList name)
  | _ => none

/-- The names of a path. -/
def names (path : List Char) : List String := (components path).filterMap Component.name

/-- Where a component leads from a directory. -/
def follow (dir : List String) : Component → List String
  | .rootDir => []
  | .curDir => dir
  | .parentDir => dir.dropLast
  | .normal name => dir ++ [String.ofList name]

/-- `Path::join`, as the place that the host then finds. -/
def join (root : List String) (path : List Char) : List String :=
  (components path).foldl follow root

/-- A segment that is a name. -/
def IsName (segment : List Char) : Prop :=
  segment ≠ [] ∧ segment ≠ ['.'] ∧ segment ≠ ['.', '.'] ∧ '/' ∉ segment

instance (segment : List Char) : Decidable (IsName segment) := by
  unfold IsName
  infer_instance

section Lemmas

variable {path a b : List Char}

theorem splitOn_name (h : '/' ∉ a) : a.splitOn '/' = [a] := by
  have hsplit : (['/'].intercalate [a]).splitOn '/' = [a] :=
    splitOn_intercalate '/' (fun l hl => mem_singleton.mp hl ▸ h) (cons_ne_nil _ _)
  rwa [intercalate_singleton] at hsplit

theorem interior_name (h : IsName a) : interior a = some (.normal a) := by
  rw [interior, if_neg (not_or.mpr ⟨h.1, h.2.1⟩), if_neg h.2.2.1]

/-- A confined path is read segment by segment. -/
theorem components_of_confined (h : isConfined path) :
    components path = (path.splitOn '/').filterMap interior := by
  rw [isConfined, Bool.and_eq_true, Bool.not_eq_true'] at h
  obtain ⟨habsolute, hall⟩ := h
  rw [components, if_neg (of_decide_eq_false habsolute)] at hall ⊢
  split_ifs at hall ⊢ with hdot
  · cases all_eq_true.mp hall _ mem_cons_self
  · rfl

/-- A confined path is below the directory. -/
theorem join_of_confined (h : isConfined path) (root : List String) :
    join root path = root ++ names path := by
  rw [isConfined, Bool.and_eq_true] at h
  have hall := h.2
  rw [join, names]
  generalize components path = l at hall
  induction l generalizing root with
  | nil => exact (append_nil root).symm
  | cons c rest ih =>
    rw [all_cons, Bool.and_eq_true] at hall
    cases c with
    | rootDir | curDir | parentDir => cases hall.1
    | normal name =>
      rw [foldl_cons, ih _ hall.2, follow, append_assoc]
      rfl

/-- The names of the segments of a text. -/
def segmentNames (text : List Char) : List String :=
  ((text.splitOn '/').filterMap interior).filterMap Component.name

theorem names_of_confined (h : isConfined path) : names path = segmentNames path := by
  rw [names, segmentNames, components_of_confined h]

theorem segmentNames_append (a b : List Char) :
    segmentNames (a ++ '/' :: b) = segmentNames a ++ segmentNames b := by
  rw [segmentNames, splitOn, splitOnP_append_cons a b (by decide), filterMap_append, filterMap_append]
  rfl

theorem segmentNames_name (h : IsName a) : segmentNames a = [String.ofList a] := by
  rw [segmentNames, splitOn_name h.2.2.2, filterMap_cons_some (interior_name h)]
  rfl

end Lemmas

end HostPath
