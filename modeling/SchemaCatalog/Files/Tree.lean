/-
# Trees of files

A file system is a tree of directories with files at its leaves.  Paths lead from
the top or from the working directory to a place in it.
-/
import SchemaCatalog.Files.Path

namespace SchemaCatalog.Files

/-- A file with its bytes, or a directory with its entries by name. -/
inductive Node where
  | file (bytes : List UInt8)
  | dir (entries : List (FileName × Node))

/-- A file system, and the names that lead to the working directory. -/
structure FileSystem where
  root : Node
  workingDirectory : List FileName

/-! ## Building a tree -/

/-- The entries of a directory with one of them set. -/
def setEntry (name : FileName) (n : Node) : List (FileName × Node) → List (FileName × Node)
  | [] => [(name, n)]
  | e :: es => if e.1 = name then (name, n) :: es else e :: setEntry name n es

namespace Node

/-- The entries of a directory. -/
def entries : Node → List (FileName × Node)
  | file _ => []
  | dir es => es

/-- The tree with a node put where some names lead; directories on the way come
into being. -/
def put (n : Node) : List FileName → Node → Node
  | [], _ => n
  | name :: names, t =>
    dir (setEntry name (put n names ((t.entries.lookup name).getD (dir []))) t.entries)

/-- The tree with a directory where some names lead, unless there is one. -/
def putDir : List FileName → Node → Node
  | [], t => dir t.entries
  | name :: names, t =>
    dir (setEntry name (putDir names ((t.entries.lookup name).getD (dir []))) t.entries)

/-! ## Following a path -/

/-- Whether a node is a file. -/
def isFile : Node → Bool
  | file _ => true
  | dir _ => false

/-- The node where some names lead. -/
def at? : List FileName → Node → Option Node
  | [], t => some t
  | name :: names, t => (t.entries.lookup name).bind (at? names)

end Node

/-- Why a path leads nowhere. -/
inductive PathError where
  | missing
  /-- The path goes on behind a file. -/
  | notADirectory
  /-- The path, or a name in it, is longer than paths and names can be. -/
  | tooLong
  /-- The path holds a byte that no name can hold. -/
  | badByte
  deriving DecidableEq

/-- How a path that leads nowhere is reported. -/
def PathError.message : PathError → String
  | missing => "No such file or directory (os error 2)"
  | notADirectory => "Not a directory (os error 20)"
  | tooLong => "File name too long (os error 36)"
  | badByte => "file name contained an unexpected NUL byte"

/-- The number of bytes that a name can have. -/
def maxNameBytes : Nat := 255

/-- The number of bytes that a path can have. -/
def maxPathBytes : Nat := 4095

/-- Where a path leads: the names from the top without detours, and the node. -/
structure Target where
  location : List FileName
  node : Node

/-- Follows the names of a path from a location on. -/
def follow (root : Node) : (location names : List FileName) → Except PathError Target
  | location, [] =>
    match root.at? location with
    | some n => .ok ⟨location, n⟩
    | none => .error .missing
  | location, name :: names =>
    match root.at? location with
    | none => .error .missing
    | some (.file _) => .error .notADirectory
    | some (.dir es) =>
      if name = [] || name = [dot] then follow root location names
      -- above the top is the top again
      else if name = [dot, dot] then follow root location.dropLast names
      else if maxNameBytes < name.length then .error .tooLong
      else if (es.lookup name).isSome then follow root (location ++ [name]) names
      else .error .missing

/-- The path of a location from the top. -/
def absolutePath (location : List FileName) : Path := slash :: [slash].intercalate location

/-- The path of a location without detours, unless that is longer than a path can be. -/
def canonicalPath (location : List FileName) : Except PathError Path :=
  if maxPathBytes < (absolutePath location).length then .error .tooLong
  else .ok (absolutePath location)

namespace FileSystem

/-- Where a path leads. -/
def resolve (fs : FileSystem) (path : Path) : Except PathError Target :=
  if path.contains 0 then .error .badByte
  else if path = [] then .error .missing
  else if maxPathBytes < path.length then .error .tooLong
  else if isAbsolute path then follow fs.root [] (components path)
  else follow fs.root fs.workingDirectory (components path)

/-- The bytes of the file that a path leads to, if it leads to one. -/
def bytesAt? (fs : FileSystem) (path : Path) : Option (List UInt8) :=
  match fs.resolve path with
  | .ok ⟨_, .file bytes⟩ => some bytes
  | _ => none

/-- Whether a path leads to a file. -/
def isFile (fs : FileSystem) (path : Path) : Bool := (fs.bytesAt? path).isSome

end FileSystem

/-! ## Walking a tree -/

/-- What a walk comes by: the path as it was gone, the location, and whether a file
is there. -/
structure Entry where
  path : Path
  location : List FileName
  isFile : Bool
  deriving DecidableEq

/-- Puts a named item before the first one with a greater name, byte by byte. -/
def insertByName {α : Type} (item : FileName × α) : List (FileName × α) → List (FileName × α)
  | [] => [item]
  | other :: others =>
    if item.1 < other.1 then item :: other :: others else other :: insertByName item others

/-- Items in the order of their names. -/
def sortByName {α : Type} (items : List (FileName × α)) : List (FileName × α) :=
  items.foldr insertByName []

mutual

/-- All entries at and below a node: the node first, and the entries of a directory
in the order of their names. -/
def Node.walk (path : Path) (location : List FileName) : Node → List Entry
  | .file _ => [⟨path, location, true⟩]
  | .dir es =>
    ⟨path, location, false⟩ :: (sortByName (walkEntries path location es)).flatMap Prod.snd

/-- The walks below the entries of a directory, each under its name. -/
def walkEntries (path : Path) (location : List FileName) :
    List (FileName × Node) → List (FileName × List Entry)
  | [] => []
  | (name, n) :: es =>
    (name, n.walk (join path name) (location ++ [name])) :: walkEntries path location es

end

/-- All entries at and below the target of a path. -/
def Target.walk (path : Path) (t : Target) : List Entry := t.node.walk path t.location

end SchemaCatalog.Files
