/-
# Loading schemas from files

A file holds text in UTF-8, with or without a byte-order mark.  One file whose
name says that it is JSON holds an answer to an introspection query; any other
file holds a schema or a part of one.
-/
import SchemaCatalog.Files.Tree
import SchemaCatalog.Source

namespace SchemaCatalog.Files

/-! ## Reading a file -/

/-- A text without the byte-order mark at its start, if there is one. -/
def stripMark (text : String) : String :=
  match text.toList with
  | '\uFEFF' :: cs => String.ofList cs
  | _ => text

/-- The text of a file as its bytes encode it. -/
def rawText (fs : FileSystem) (path : Path) : Except ReadError String :=
  match fs.bytesAt? path with
  | none => .error (.notAFile path)
  | some bytes =>
    match Text.decode bytes with
    | .ok t => .ok t
    | .error e => .error (.undecodable path bytes e)

/-- The text of a file. -/
def readText (fs : FileSystem) (path : Path) : Except ReadError String :=
  (rawText fs path).map stripMark

/-- What is reported while a file is read. -/
def readLog (fs : FileSystem) (path : Path) : Log :=
  match rawText fs path with
  | .error _ => []
  | .ok t =>
    (if t.toList.head? == some '\uFEFF' then
      [.trace ("Stripping byte-order mark from " ++ shown path ++ ".")] else [])
    ++ [.trace ("Read " ++ toString (stripMark t).utf8ByteSize
      ++ " bytes of schema text from " ++ shown path ++ ".")]

/-! ## Reading several files -/

/-- The texts of files, up to the first that cannot be read. -/
def readTexts (fs : FileSystem) (paths : List Path) : Except ReadError (List String) :=
  paths.mapM (readText fs)

/-- What is reported while files are read. -/
def readTextsLog (fs : FileSystem) : List Path → Log
  | [] => []
  | p :: ps =>
    .trace ("Reading schema fragment from " ++ shown p ++ ".") :: (readLog fs p ++
      match readText fs p with
      | .ok _ => readTextsLog fs ps
      | .error _ => [])

/-- Whether the files are one file that holds an answer to an introspection query. -/
def isAnswer : List Path → Bool
  | [path] => extension? path == some (Text.encode "json")
  | _ => false

/-- The answer that a file holds. -/
def readAnswer (fs : FileSystem) (path : Path) : Except Error Json :=
  match readText fs path with
  | .error e => .error (.reading e)
  | .ok t =>
    match Json.ofText t with
    | .ok v => .ok v
    | .error e => .error (.decoding (.notJson e))

/-- The source that texts make up: one alone is a whole schema. -/
def sourceOfTexts : List String → Source
  | [t] => .text t
  | ts => .fragments ts

/-- The source that files hold. -/
def source (fs : FileSystem) (paths : List Path) : Except Error Source :=
  if isAnswer paths then
    match readAnswer fs (paths.headD []) with
    | .ok v => .ok (.introspection v)
    | .error e => .error e
  else
    match readTexts fs paths with
    | .ok ts => .ok (sourceOfTexts ts)
    | .error e => .error (.reading e)

/-- What is reported while the source is loaded. -/
def sourceLog (fs : FileSystem) (paths : List Path) : Log :=
  if isAnswer paths then readLog fs (paths.headD []) else readTextsLog fs paths

end SchemaCatalog.Files
