import ShapeAssembly.Excerpt
import ShapeAssembly.Sorting

namespace ShapeAssembly

inductive FileTree where
  | file (bytes : ByteArray)
  | directory (entries : List (String × FileTree))

/-- Why a path has no text. -/
inductive FileError where
  | notFound
  | notDirectory
  | isDirectory
  | nameTooLong
  | nulInName
  | notUtf8
  | other (message : String)
  deriving DecidableEq

def FileError.message : FileError → String
  | notFound => "No such file or directory (os error 2)"
  | notDirectory => "Not a directory (os error 20)"
  | isDirectory => "Is a directory (os error 21)"
  | nameTooLong => "File name too long (os error 36)"
  | nulInName => "file name contained an unexpected NUL byte"
  | notUtf8 => "stream did not contain valid UTF-8"
  | other message => message

/-- What is found at a path. -/
abbrev Disk := String → Except FileError FileTree

namespace FileTree

def text : FileTree → Except FileError String
  | directory _ => .error .isDirectory
  | file bytes =>
    match String.fromUTF8? bytes with
    | some text => .ok text
    | none => .error .notUtf8

def isDirectory : FileTree → Bool
  | directory _ => true
  | file _ => false

/-- Whether a path is too long to be looked up: one has less than 4096 bytes. -/
def isLongPath (path : String) : Bool := 4096 ≤ byteSize path.toList

/-- Whether a name is too long for an entry of a directory: one has at most 255 bytes. -/
def isLongName (name : String) : Bool := 255 < byteSize name.toList

/-- The parts of a path between its slashes. -/
def components (path : String) : List String :=
  let parts := path.toList.foldr (fun c parts =>
    match parts with
    | [] => [[c]]
    | part :: more => if c = '/' then [] :: part :: more else (c :: part) :: more) [[]]
  parts.map String.ofList

/-- Follows components through directories. An empty one and a dot stay; two dots return to the
directory above, of which the nearest comes first. Around the topmost directory nothing is
known to lie. -/
def follow (above : List FileTree) (here : FileTree) : List String → Except FileError FileTree
  | [] => .ok here
  | part :: rest =>
    match here with
    | file _ => .error .notDirectory
    | directory entries =>
      if part = "" ∨ part = "." then follow above here rest
      else if part = ".." then follow above.tail (above.head?.getD (directory [])) rest
      else if isLongName part then .error .nameTooLong
      else match entries.lookup part with
        | none => .error .notFound
        | some next => follow (here :: above) next rest

/-- A tree as the disk of a program that runs in its topmost directory. A path that starts with a
slash leads around it. -/
def disk (tree : FileTree) : Disk := fun path =>
  if path.toList.contains '\x00' then .error .nulInName
  else if isLongPath path then .error .nameTooLong
  else if path = "" then .error .notFound
  else
    let start := if path.toList.head? = some '/' then directory [] else tree
    start.follow [] (components path)

/-- Puts a tree at a path, with the directories on the way. -/
def insert (tree : FileTree) : List String → FileTree → FileTree
  | [], new => new
  | part :: rest, new =>
    let entries := match tree with
      | directory entries => entries
      | file _ => []
    let below := (entries.lookup part).getD (directory [])
    directory ((part, below.insert rest new) :: entries.filter (·.1 ≠ part))

/-- A path with a name at its end. -/
def join (path name : String) : String :=
  if path.toList.getLast? = some '/' then path ++ name else path ++ "/" ++ name

/-- Whether a name ends in `.sa` after at least one more character. -/
def isProgramName (name : String) : Bool :=
  match name.toList.reverse with
  | 'a' :: 's' :: '.' :: _ :: _ => true
  | _ => false

mutual

/-- The paths of the programs beneath a path. The entries of a directory come in the order of
their names, those of a directory within in its place. What lies beneath too long a path is not
reached. -/
def programs (path : String) : FileTree → List String
  | file _ => [path]
  | directory entries =>
    if isLongPath path then []
    else (stableSort (fun a b => a.1 ≤ b.1) (entryPrograms path entries)).flatMap (·.2)

def entryPrograms (path : String) : List (String × FileTree) → List (String × List String)
  | [] => []
  | (name, tree) :: rest =>
    let found := programs (join path name) tree
    (name, if tree.isDirectory || isProgramName name then found else []) :: entryPrograms path rest

end

end FileTree

namespace Disk

def read (disk : Disk) (path : String) : Except FileError String :=
  (disk path).bind FileTree.text

/-- The files that paths stand for: a directory for the programs beneath it, any other path for
itself. -/
def collect (disk : Disk) (paths : List String) : List String :=
  paths.flatMap fun path =>
    match disk path with
    | .ok (.directory entries) => FileTree.programs path (.directory entries)
    | _ => [path]

end Disk

end ShapeAssembly
