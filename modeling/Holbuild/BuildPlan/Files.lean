import Holbuild.BuildPlan.Selection

/-!
# Files and the extra inputs a declaration names

A file system is a tree of files and directories, each readable or not. An extra-input declaration
names one file, the files under a directory, or the files under its base that match a glob;
`expandExtraDepWalk` lists them, each with its declared relative path and its absolute path, and the
paths that were walked to find them.
-/

set_option autoImplicit false
set_option relaxedAutoImplicit false

namespace Holbuild.BuildPlan

open Library

/-- A file with its content, or a directory with its entries in the order it lists them. -/
inductive Entry
  | file (readable : Bool) (content : Text)
  | dir (readable : Bool) (entries : List (Text × Entry))

namespace Entry

/-- The entry at the end of a path's arcs. -/
def find : Entry → List Text → Option Entry
  | entry, [] => some entry
  | .file _ _, _ :: _ => none
  | .dir _ entries, arc :: arcs =>
    match entries.find? fun named ↦ named.1 = arc with
    | some named => find named.2 arcs
    | none => none

/-- The entry a path names, from the root. -/
def resolve (root : Entry) (path : Text) : Option Entry :=
  root.find (Path.canonicalArcs true [] (Path.fromString path).arcs)

def isDir (root : Entry) (path : Text) : Bool :=
  match root.resolve path with
  | some (.dir _ _) => true
  | _ => false

def readable (root : Entry) (path : Text) : Bool :=
  match root.resolve path with
  | some (.dir readable _) => readable
  | some (.file readable _) => readable
  | none => false

/-- The content of a readable file. -/
def content (root : Entry) (path : Text) : Option Text :=
  match root.resolve path with
  | some (.file true content) => some content
  | _ => none

end Entry

/-- `*` matches any characters and `?` one; other characters match themselves. -/
def globMatch : Text → Text → Bool
  | [], text => text.isEmpty
  | '*' :: pattern, text =>
    globMatch pattern text || match text with
      | [] => false
      | _ :: rest => globMatch ('*' :: pattern) rest
  | '?' :: pattern, text =>
    match text with
    | [] => false
    | _ :: rest => globMatch pattern rest
  | c :: pattern, text =>
    match text with
    | [] => false
    | c' :: rest => c = c' && globMatch pattern rest
termination_by pattern text => pattern.length + text.length

/-- What a declaration names: its files, each as declared and as found, and the paths walked. -/
structure InputExpansion where
  files : List (Text × Text)
  dirs : List Text
deriving DecidableEq, Repr

def pathHasGlob (path : Text) : Bool := path.any fun c ↦ c = '*' || c = '?'

def joinPath (root relative : Text) : Text :=
  if relative = [] then root else Path.append root relative

mutual

/-- The readable files under an entry and the paths walked, newest first. holbuild's own directories
are skipped, and an unreadable directory cannot be listed. -/
def filesUnder (abs rel : Text) (found : InputExpansion) : Entry → Except PlanError InputExpansion
  | .file readable _ =>
    .ok (if readable then { found with files := (rel, abs) :: found.files }
      else { found with dirs := abs :: found.dirs })
  | .dir readable entries =>
    if readable then filesUnderEntries abs rel { found with dirs := abs :: found.dirs } entries
    else .error (.rejected ("could not read directory: ".toList ++ abs))

def filesUnderEntries (abs rel : Text) (found : InputExpansion) :
    List (Text × Entry) → Except PlanError InputExpansion
  | [] => .ok found
  | (name, entry) :: rest =>
    if name = ".holbuild".toList then filesUnderEntries abs rel found rest
    else
      match filesUnder (Path.append abs name) (joinPath rel name) found entry with
      | .ok found' => filesUnderEntries abs rel found' rest
      | .error e => .error e

end

def walkedFilesUnder (root : Entry) (abs rel : Text) : Except PlanError InputExpansion := do
  let found ← match root.resolve abs with
    | some entry => filesUnder abs rel ⟨[], []⟩ entry
    | none => .ok ⟨[], [abs]⟩
  .ok ⟨found.files.reverse, found.dirs.reverse⟩

/-- The files an extra-input declaration names. -/
def expandExtraDepWalk (root : Entry) (base decl : Text) : Except PlanError InputExpansion :=
  if pathHasGlob decl then do
    let found ← walkedFilesUnder root base []
    .ok { found with files := found.files.filter fun file ↦ globMatch decl file.1 }
  else
    let abs := Path.mkCanonical (if Path.isAbsolute decl then decl else Path.append base decl)
    if root.isDir abs then walkedFilesUnder root abs decl
    else if root.readable abs then .ok ⟨[(decl, abs)], []⟩
    else .error (.rejected ("extra dependency not found: ".toList ++ abs))

/-- A tree with a file in a directory of the package. -/
def sampleTree : Entry :=
  .dir true [("p".toList, .dir true [("data".toList, .dir true
    [("a".toList, .file true "1".toList), ("b".toList, .file true "2".toList)])])]

example : (expandExtraDepWalk sampleTree "/p".toList "data".toList).toOption.map
    InputExpansion.files =
      some [("data/a".toList, "/p/data/a".toList), ("data/b".toList, "/p/data/b".toList)] := by
  decide +kernel

end Holbuild.BuildPlan
