import Holbuild.Library.Lines

/-!
# Unix paths

A path is absolute when it starts with a slash; its arcs are what stands between its slashes. `concat`
appends a relative path and refuses an absolute one, `dir` drops the last arc, and `mkCanonical` removes
empty arcs, current arcs and the parent arcs that have an arc to remove.
-/

set_option autoImplicit false
set_option relaxedAutoImplicit false

namespace Holbuild.Library

/-- A path taken apart: whether it is absolute, and its arcs. -/
structure Path where
  isAbs : Bool
  arcs : List Text

namespace Path

/-- Takes a path apart. The empty path has no arcs; an absolute one drops the empty text before its
first slash. -/
def fromString (path : Text) : Path :=
  match path.splitOn '/' with
  | [[]] => ⟨false, []⟩
  | [] :: arcs => ⟨true, arcs⟩
  | arcs => ⟨false, arcs⟩

/-- Puts a path together. -/
def toString (path : Path) : Text :=
  (if path.isAbs then ['/'] else []) ++ concatWith ['/'] path.arcs

def isAbsolute (path : Text) : Bool := (fromString path).isAbs

/-- Arcs followed by arcs; an empty last arc of the first is dropped. -/
def concatArcs : List Text → List Text → List Text
  | [], arcs => arcs
  | [[]], arcs => arcs
  | arc :: rest, arcs => arc :: concatArcs rest arcs

/-- A path followed by the arcs of another. -/
def append (root relative : Text) : Text :=
  let parsed := fromString root
  toString { parsed with arcs := concatArcs parsed.arcs (fromString relative).arcs }

/-- A path followed by a relative one; an absolute one cannot follow a path. -/
def concat (root relative : Text) : Option Text :=
  if isAbsolute relative then none else some (append root relative)

/-- The path without its last arc. -/
def dir (path : Text) : Text :=
  let parsed := fromString path
  toString { parsed with arcs := parsed.arcs.dropLast }

/-- The canonical arcs, from those already kept, the last first. A parent arc removes the arc before
it; a relative path keeps the parent arcs that have none to remove. -/
def canonicalArcs (isAbs : Bool) : List Text → List Text → List Text
  | kept, [] => kept.reverse
  | kept, arc :: rest =>
    if arc = [] ∨ arc = ['.'] then canonicalArcs isAbs kept rest
    else if arc = ['.', '.'] then
      match kept with
      | [] => canonicalArcs isAbs (if isAbs then [] else [arc]) rest
      | last :: before =>
        if last = ['.', '.'] then canonicalArcs isAbs (arc :: kept) rest
        else canonicalArcs isAbs before rest
    else canonicalArcs isAbs (arc :: kept) rest

/-- The canonical path of a path; that of the empty path is the current directory. -/
def mkCanonical (path : Text) : Text :=
  let parsed := fromString path
  match parsed.isAbs, canonicalArcs parsed.isAbs [] parsed.arcs with
  | false, [] => ['.']
  | isAbs, arcs => toString ⟨isAbs, arcs⟩

example : mkCanonical "/tmp/../a//b/./c".toList = "/a/b/c".toList := by decide

example : concat (dir "/a/b.sml".toList) "c/d.txt".toList = some "/a/c/d.txt".toList := by decide

end Path

end Holbuild.Library
