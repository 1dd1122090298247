import CachedRun.CommandLine.Machine

/-!
# The program

Loads the places that a command works with into a `Machine`, runs the command there, and writes back
what has changed. Everything that is decided is decided by `Machine.run`.
-/

set_option autoImplicit false

namespace CachedRun.Main

open CommandLine

/-- The names of the variables that the program looks at. -/
def variableNames : List String :=
  ["HOME", "SIMWPS_CACHE_DIR", "SIMWPS_RUNNER", "SIMWPS_CACHE_MAX_MB", "SIMWPS_CACHE_TTL_DAYS"]

/-- The text of an absolute path. -/
def pathText (path : Path) : String := "/" ++ "/".intercalate path

/-- Adds the directories on the way to a path, as far as they are there. -/
def loadParents (t : FileTree) (path : Path) : IO FileTree :=
  ((List.range (path.length + 1)).map path.take).foldlM (fun t path => do
    match ← (IO.FS.realPath (pathText path)).toBaseIO with
    | .ok real =>
      if path ≠ [] ∧ (← real.isDir) ∧ !t.occupied path then return t.set path .directory
      else return t
    | .error _ => return t) t

/-- Adds what lies at a path and below it. -/
partial def load (t : FileTree) (path : Path) : IO FileTree := do
  match ← (IO.FS.realPath (pathText path)).toBaseIO with
  | .error _ => return t
  | .ok real =>
    if ← real.isDir then
      let mut t := if path = [] then t else t.set path .directory
      for entry in ← real.readDir do
        t ← load t (path ++ [entry.fileName])
      return t
    else
      match ← (IO.FS.readBinFile real).toBaseIO with
      | .ok content => return t.set path (.file content.toList)
      | .error _ => return t

/-- Writes what one tree has and the other has not. -/
def store (before after : FileTree) : IO Unit := do
  for (path, node) in after.nodes do
    if before.node? path ≠ some node then
      match node with
      | .directory => IO.FS.createDirAll (pathText path)
      | .file content => IO.FS.writeBinFile (pathText path) ⟨content.toArray⟩
  for (path, node) in before.nodes do
    if node ≠ .directory ∧ !after.occupied path then
      IO.FS.removeFile (pathText path)

/-- The time, which is that of a file made now. -/
def now : IO Instant := do
  let (_, file) ← IO.FS.createTempFile
  let time := (← file.metadata).modified
  IO.FS.removeFile file
  return ⟨time.sec, time.nsec.toNat⟩

/-- The machine that a command needs. -/
def machineFor (arguments : List String) : IO Machine := do
  let values ← variableNames.filterMapM fun name => do
    return (← IO.getEnv name).map fun value => (name, value)
  let directory := Path.ofText (← IO.FS.realPath ".").toString
  let texts := match Command.ofArguments arguments with
    | .ok command => Machine.places values command
    | .error _ => []
  let places := texts.map (Machine.place directory) ++ [directory ++ ["bin"]]
  let tree ← places.foldlM (fun t place => do load (← loadParents t place.dropLast) place) .empty
  return ⟨tree, directory, values, ← now, 0⟩

end CachedRun.Main

/-- Runs the program and leaves its exit code. -/
def main (arguments : List String) : IO UInt32 := do
  let before ← CachedRun.Main.machineFor arguments
  let (report, after) := before.run arguments
  CachedRun.Main.store before.tree after.tree
  IO.print report.stdout
  match report.error with
  | some text => IO.eprintln text
  | none => pure ()
  return report.exit.toUInt32
