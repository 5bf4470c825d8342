/-!
# Paths

Paths with `/` between their parts. Empty parts and single dots say nothing and are dropped; two
dots are kept, because what they lead to depends on the directories.
-/

namespace Lineage.Path

def allParts (path : String) : List String :=
  (path.toList.splitOn '/').map String.ofList

/-- The parts of a path that say something. -/
def parts (path : String) : List String :=
  (allParts path).filter fun p => p != "" && p != "."

/-- The root of a path: none, one slash, or exactly two slashes, which are kept apart. -/
def root (path : String) : String :=
  match path.toList with
  | '/' :: '/' :: '/' :: _ => "/"
  | '/' :: '/' :: _ => "//"
  | '/' :: _ => "/"
  | _ => ""

/-- The path of a root and parts; without either it is the current directory. -/
def assemble (root : String) (parts : List String) : String :=
  let path := root ++ "/".intercalate parts
  if path == "" then "." else path

def normalize (path : String) : String :=
  assemble (root path) (parts path)

def parent (path : String) : String :=
  assemble (root path) (parts path).dropLast

def join (directory file : String) : String :=
  assemble (root directory) (parts directory ++ [file])

end Lineage.Path
