import NilGuard.Cli.Run
/-! The command line tool. It looks at the files that the command line names, runs, and
writes what the run leaves behind. -/
namespace NilGuard.Cli

/-- What lies at a path of the real file system. -/
def entryAt (path : Path) : IO (Option Entry) := do
  let place := (← IO.currentDir).join path.text
  if ← place.isDir then return some .directory
  if ← place.pathExists then return some (.file (← IO.FS.readFile place))
  return none

/-- The names that a command line gives to files. -/
def namesOf (o : Options) : List String :=
  o.dumps ++ o.targetFile.toList ++
    match o.output with
    | .named name => [name]
    | _ => []

/-- The paths that a run looks at: those of its files and all that lies above them. -/
def pathsOf (ws : Workspace) (o : Options) : List Path :=
  let upTo := fun (p : Path) => (List.range (p.parts.length + 1)).map fun n => ⟨p.parts.take n⟩
  (((namesOf o).filterMap ws.resolve?).flatMap upTo).eraseDups

/-- Adds to a workspace what lies at the paths that a run looks at. -/
def observe (ws : Workspace) (o : Options) : IO Workspace := do
  let mut entries := []
  for path in pathsOf ws o do
    match ← entryAt path with
    | some e => entries := (path, e) :: entries
    | none => pure ()
  return { ws with entries }

def pathOfText (text : String) : Path :=
  ((Text.splitAt '/' text.toList).map String.ofList).foldl Path.enter .root

def currentWorkspace : IO Workspace := do
  let directory := pathOfText (← IO.currentDir).toString
  let home := pathOfText ((← IO.getEnv "HOME").getD "/")
  return { directory, home }

/-- A reading of the running clock, two digits each for hours, minutes and seconds. -/
def clockText (seconds : Nat) : String :=
  let two := fun (n : Nat) => (if n < 10 then "0" else "") ++ toString n
  two (seconds / 3600 % 24) ++ ":" ++ two (seconds / 60 % 60) ++ ":" ++ two (seconds % 60)

/-- Writes what a run leaves behind. -/
def perform (outcome : Outcome) : IO Unit := do
  for line in outcome.log do
    IO.eprintln (clockText ((← IO.monoMsNow) / 1000) ++ " " ++ line.text)
  match outcome.usage with
  | some e => IO.eprint (usageText ++ e.line ++ "\n")
  | none => pure ()
  match outcome.made with
  | some path => IO.FS.createDirAll path.text
  | none => pure ()
  match outcome.written with
  | some (path, contents) =>
    IO.FS.createDirAll path.parent.text
    IO.FS.writeFile path.text contents
  | none => pure ()
  IO.print outcome.stdout

end NilGuard.Cli

open NilGuard.Cli in
def main (arguments : List String) : IO UInt32 := do
  match Options.parse arguments with
  | .error stop =>
    perform stop.outcome
    return stop.outcome.exit.toUInt32
  | .ok o =>
    let ws ← observe (← currentWorkspace) o
    let start ← IO.monoNanosNow
    let analysis ← IO.lazyPure fun _ => analyse ws o
    let tenths := ((← IO.monoNanosNow) - start) / 100000
    let outcome := finish ws o analysis tenths
    perform outcome
    return outcome.exit.toUInt32
