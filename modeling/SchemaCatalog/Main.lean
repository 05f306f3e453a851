/-
# The program

Takes up the part of the file system that the arguments name, runs the command
on it, and writes what comes of it.  The log goes to the error output, so that
the catalog can be piped on.
-/
import SchemaCatalog.Command.LogLevel
import SchemaCatalog.Command.Run

namespace SchemaCatalog.Command

/-! ## Taking up files -/

/-- The node at a path of the disk. -/
partial def loadNode (path : String) : IO Files.Node := do
  let here ← IO.FS.realPath path
  if ← here.isDir then
    let entries ← here.readDir
    let nodes ← entries.toList.mapM fun e => do
      return (Text.encode e.fileName, ← loadNode (path ++ "/" ++ e.fileName))
    return .dir nodes
  else
    return .file (← IO.FS.readBinFile here).toList

/-- The names that lead to a path of the disk. -/
def namesOf (path : String) : List Files.FileName :=
  (Files.components (Text.encode path)).filter fun n => n ≠ []

/-- The paths that are passed on the way to a path, the shortest first. -/
def pathsTo (path : Files.Path) : List String :=
  let parts := (Files.components path).map Text.mend
  (List.range parts.length).map fun n => "/".intercalate (parts.take (n + 1))

/-- A tree with the directories that a path passes. -/
def addPassed (root : Files.Node) (path : String) : IO Files.Node := do
  try
    let here ← IO.FS.realPath path
    if ← here.isDir then return Files.Node.putDir (namesOf here.toString) root else return root
  catch _ => return root

/-- A tree with what a path leads to. -/
def addPath (root : Files.Node) (path : Files.Path) : IO Files.Node := do
  let root ← ((pathsTo path).filter (· ≠ "")).foldlM addPassed root
  try
    let here ← IO.FS.realPath (Text.mend path)
    return Files.Node.put (← loadNode here.toString) (namesOf here.toString) root
  catch _ => return root

/-- The part of the disk that some paths lead to. -/
def loadFileSystem (paths : List Files.Path) : IO Files.FileSystem := do
  let here := namesOf (← IO.currentDir).toString
  return ⟨← paths.foldlM addPath (Files.Node.putDir here (.dir [])), here⟩

/-! ## Texts of the program -/

/-- How the program is called. -/
def usageText : String :=
  "Usage: schema-catalog [-v] describe [--compact] [--graphql-file-exts EXTS] PATHS...\n"
    ++ "       schema-catalog [-v] validate [--graphql-file-exts EXTS] PATHS..."

/-- The paths that a command works on. -/
def Action.paths : Action → List Files.Path
  | describe _ inputs | validate inputs => inputs.paths

/-! ## Running -/

/-- Writes log entries. -/
def writeLog (level : Log.Level) (log : Log) : IO Unit :=
  (log.visibleAt level).forM fun e => IO.eprintln (e.level.text ++ " " ++ e.text)

/-- The level of the log, and what is reported about it. -/
def chooseLevel (isVerbose : Bool) : IO (Log.Level × Log) := do
  if isVerbose then
    return (.debug, [])
  else
    let (level, warning) := Log.Level.ofSetting (← IO.getEnv "LOG_LEVEL")
    return (level, warning.toList.map .warn)

/-- Runs a command on the disk. -/
def runAction (isVerbose : Bool) (action : Action) : IO UInt32 := do
  let (level, warnings) ← chooseLevel isVerbose
  let fs ← loadFileSystem action.paths
  writeLog level (warnings ++ action.log fs)
  let outcome := action.run fs
  match outcome with
  | .success output => IO.println output
  | .failure report => IO.eprintln report
  | .brokenOff => pure ()
  return outcome.exitCode.toUInt32

end SchemaCatalog.Command

open SchemaCatalog.Command in
/-- Runs the program. -/
def main (args : List String) : IO UInt32 := do
  match Request.ofArguments args with
  | .ok (.run isVerbose action) => runAction isVerbose action
  | .ok (.nothing _) => do
    IO.println usageText
    return 0
  | .error usage => do
    IO.eprintln usageText
    return usage.exitCode.toUInt32
