import Lineage.Path

/-!
# File trees

What stands at the places of a file system, and how paths lead there. A path is followed part by
part; two dots lead back to the directory above, so the parts before them have to be there. Making
a directory makes all that are missing on its way, and the path leads to a directory afterwards
(`find_of_makeDirectory`).
-/

namespace Lineage

/-- What stands at a path. -/
inductive FileEntry
  | missing
  | tooLong
  | directory
  | file (bytes : List UInt8)
  deriving DecidableEq

/-- Why a path cannot be used. -/
inductive PathCause
  | alreadyExists
  | notDirectory
  | isDirectory
  | tooLong
  deriving DecidableEq, Repr

/-- A tree of files: what stands at each place, a place being a path in normal form that holds two
dots at most in front. -/
structure FileTree where
  entryAt : String → FileEntry

namespace FileTree

/-! ## Limits -/

def maxPart : Nat := 255

def maxPath : Nat := 4095

def isTooLong (path : String) : Bool :=
  maxPath < path.utf8ByteSize || (Path.parts path).any (maxPart < ·.utf8ByteSize)

/-! ## Following a path -/

/-- One step from a place: two dots lead back, but not behind a root. -/
def step (root : String) (here : List String) (part : String) : List String :=
  if part == ".." then
    match here.getLast? with
    | none => if root == "" then [".."] else []
    | some last => if last == ".." then here ++ [".."] else here.dropLast
  else here ++ [part]

/-- The place where parts lead from `here`, whatever stands on the way. -/
def placeFrom (root : String) (here parts : List String) : String :=
  Path.assemble root (parts.foldl (step root) here)

def place (path : String) : String :=
  placeFrom (Path.root path) [] (Path.parts path)

/-- The places on the way of a path, the last one being its own. -/
def places (path : String) : List String :=
  let parts := Path.parts path
  (List.range (parts.length + 1)).map fun n => placeFrom (Path.root path) [] (parts.take n)

def findFrom (t : FileTree) (root : String) (here : List String) : List String → FileEntry
  | [] => t.entryAt (Path.assemble root here)
  | part :: rest =>
    match t.entryAt (Path.assemble root here) with
    | .directory =>
      if maxPart < part.utf8ByteSize then .tooLong
      else t.findFrom root (step root here part) rest
    | .file _ => .missing
    | entry => entry

def find (t : FileTree) (path : String) : FileEntry :=
  if maxPath < path.utf8ByteSize then .tooLong
  else t.findFrom (Path.root path) [] (Path.parts path)

/-! ## Changing a tree -/

def put (t : FileTree) (place : String) (entry : FileEntry) : FileTree where
  entryAt p := if p = place then entry else t.entryAt p

/-- Why no directory can be made in the place of a file: something stands there already, if it is
the next directory to be made; else a step on the way leads through it. -/
def blocked (next : Bool) : PathCause :=
  if next then .alreadyExists else .notDirectory

/-- Makes the directories that are missing on the way of parts from `here`, `made` telling whether
one has been made before: from then on each directory is the next to be made. -/
def makeFrom (t : FileTree) (root : String) (made : Bool) (here : List String) :
    List String → Except PathCause FileTree
  | [] => .ok t
  | part :: rest =>
    if maxPart < part.utf8ByteSize then .error .tooLong
    else
      match t.entryAt (Path.assemble root (step root here part)) with
      | .directory => t.makeFrom root made (step root here part) rest
      | .missing =>
        (t.put (Path.assemble root (step root here part)) .directory).makeFrom root true
          (step root here part) rest
      | .tooLong => .error .tooLong
      | .file _ => .error (blocked (made || rest.isEmpty))

def makeDirectory (t : FileTree) (path : String) : Except PathCause FileTree :=
  if maxPath < path.utf8ByteSize then .error .tooLong
  else t.makeFrom (Path.root path) false [] (Path.parts path)

def makeFile (t : FileTree) (path : String) : Except PathCause FileTree :=
  match t.find path with
  | .missing => .ok (t.put (place path) (.file []))
  | .file _ => .ok t
  | .directory => .error .isDirectory
  | .tooLong => .error .tooLong

def modifyFile (t : FileTree) (place : String) (f : List UInt8 → List UInt8) : FileTree :=
  match t.entryAt place with
  | .file bytes => t.put place (.file (f bytes))
  | _ => t

/-! ## Directories stay and lead on -/

theorem entryAt_put (t : FileTree) (place p : String) (entry : FileEntry) :
    (t.put place entry).entryAt p = if p = place then entry else t.entryAt p := rfl

theorem entryAt_of_makeFrom {t t' : FileTree} {root : String} {made : Bool} {here ps : List String}
    (h : t.makeFrom root made here ps = .ok t') {p : String} (hp : t.entryAt p = .directory) :
    t'.entryAt p = .directory := by
  fun_induction makeFrom t root made here ps with
  | case1 => cases h; exact hp
  | case2 => cases h
  | case3 t made here part rest _ _ ih => exact ih h hp
  | case4 t made here part rest _ _ ih =>
    refine ih h ?_
    rw [entryAt_put, hp]
    exact ite_self _
  | case5 => cases h
  | case6 => cases h

/-- Parts lead to a directory once the missing ones on their way have been made. -/
theorem findFrom_of_makeFrom {t t' : FileTree} {root : String} {made : Bool}
    {here ps : List String} (h : t.makeFrom root made here ps = .ok t')
    (hh : t.entryAt (Path.assemble root here) = .directory) :
    t'.findFrom root here ps = .directory := by
  have kept := entryAt_of_makeFrom h hh
  fun_induction makeFrom t root made here ps with
  | case1 => exact kept
  | case2 => cases h
  | case3 t made here part rest fits e ih =>
    rw [findFrom, kept]
    simp only [fits, if_false]
    exact ih h e (entryAt_of_makeFrom h e)
  | case4 t made here part rest fits e ih =>
    have stands : (t.put (Path.assemble root (step root here part)) .directory).entryAt
        (Path.assemble root (step root here part)) = .directory := by
      rw [entryAt_put, if_pos rfl]
    rw [findFrom, kept]
    simp only [fits, if_false]
    exact ih h stands (entryAt_of_makeFrom h stands)
  | case5 => cases h
  | case6 => cases h

/-- A path whose directory has been made leads to a directory. -/
theorem find_of_makeDirectory {t t' : FileTree} {path : String}
    (h : t.makeDirectory path = .ok t')
    (hh : t.entryAt (Path.assemble (Path.root path) []) = .directory) :
    t'.find path = .directory := by
  rw [makeDirectory] at h
  split at h
  · cases h
  · next fits =>
    rw [find, if_neg fits]
    exact findFrom_of_makeFrom h hh

end FileTree

end Lineage
