import NilGuard.Check.Pool
import NilGuard.Cli.Log
import NilGuard.Cli.Options
import NilGuard.Cli.Workspace
import NilGuard.Dump.Load
import NilGuard.Target.File
import NilGuard.Target.Spec
/-! A run of the command line. The steps are taken in a fixed order and the first that
fails ends the run; only when all have succeeded is anything written. -/
namespace NilGuard.Cli

/-- What the tool calls itself. -/
def versionLine : String := "nilnop 0.1.0\n"

/-- The files that a run reads. -/
inductive Input where
  | dump
  | targetFile
  deriving DecidableEq, Repr

def Input.text : Input → String
  | .dump => "dump file"
  | .targetFile => "target file"

/-- Why a run ends before it has a result. -/
inductive Failure where
  | jobs (count : Int)
  | target (error : TargetError)
  | noTargets
  | notFound (input : Input) (path : Path)
  | load (message : String)
  | dumpIsDirectory (path : Path)
  /-- The output cannot be written. Directories on the way to it may have been made. -/
  | cannotWrite (made : Path)
  | unexpected
  deriving Repr

def Failure.message : Failure → String
  | .jobs count => "--jobs must be at least 1, got " ++ toString count
  | .target error => error.message
  | .noTargets => "no targets given (use -t or --targets)"
  | .notFound input path => input.text ++ " not found: " ++ path.text
  | .load message => "Failed to load IR dump: " ++ message
  | .dumpIsDirectory path =>
    "Failed to read IR dump: [Errno 21] Is a directory: " ++ Text.quoted path.text
  | .cannotWrite _ | .unexpected => "Unhandled exception"

/-- The last of the directories made before a failure. -/
def Failure.made? : Failure → Option Path
  | .cannotWrite made => some made
  | _ => none

/-- Errors in the configuration are told apart from those of the reader under it. -/
def Failure.ofTargetError (e : TargetError) : Failure :=
  if e.isConfiguration then .target e else .unexpected

/-- A step of a run. -/
abbrev Step := Logged Failure

def log (level : Level) (source : Source) (message : String) : Step Unit :=
  Logged.log [⟨level, source, .plain message⟩]

def ofTargets {α : Type} (x : Except TargetError α) : Step α :=
  .ofExcept (x.mapError Failure.ofTargetError)

/-- Finds a file or directory that must be there. -/
def locate (ws : Workspace) (input : Input) (name : String) : Step Path :=
  match ws.resolve? name with
  | none => throw .unexpected
  | some path =>
    match ws.look path with
    | .missing => throw (.notFound input path)
    | .tooLong => throw .unexpected
    | .found _ => pure path

/-- The number of workers, which is at least one. -/
def workers (o : Options) : Step Int :=
  match o.jobs with
  | none => throw .unexpected
  | some jobs => if jobs < 1 then throw (.jobs jobs) else pure jobs

/-- The targets of the target file. An empty name means that there is no file. -/
def fileTargets (ws : Workspace) (o : Options) : Step (List Target) :=
  match o.targetFile with
  | none | some "" => pure []
  | some name => do
    let path ← locate ws .targetFile name
    match ws.lookup path with
    | some (.file contents) =>
      let targets ← ofTargets (Target.parseFile path.text contents)
      log .debug .targets
        ("Loaded " ++ toString targets.length ++ " target(s) from " ++ path.text)
      return targets
    | _ => throw .unexpected

/-- A target of the command line. -/
def namedTarget : Option String → Step Target
  | none => throw .unexpected
  | some text => ofTargets (Target.parse text)

/-- The targets of the command line and then those of the target file. -/
def collectTargets (ws : Workspace) (o : Options) : Step (List Target) := do
  let named ← o.targets.mapM namedTarget
  let listed ← fileTargets ws o
  if (named ++ listed).isEmpty then throw .noTargets
  return named ++ listed

/-- Adds the dump at a path to a program. -/
def loadDump (ws : Workspace) (program : Program) (path : Path) : Step Program := do
  log .info .dumps ("Loading IR dump: " ++ path.text)
  match ws.lookup path with
  | some (.file contents) =>
    let loaded := program.load (Text.fileText contents)
    Logged.log (loaded.functions.map fun fn =>
      ⟨.debug, .dumps,
        .plain ("Loaded " ++ fn.name ++ ": " ++ toString fn.blocks.size ++ " block(s)")⟩)
    match loaded.error with
    | none => return loaded.program
    | some e =>
      match e.message? path.text with
      | some message => throw (.load message)
      | none => throw .unexpected
  | _ => throw (.dumpIsDirectory path)

/-- Loads all dumps into one program, once all of them have been found. -/
def loadDumps (ws : Workspace) (o : Options) : Step Program := do
  let paths ← o.dumps.mapM (locate ws .dump)
  paths.foldlM (loadDump ws) {}

/-- Why a target is passed over. -/
def passedOver (t : Target) : Resolution → List Line
  | .found _ => []
  | .noFunction => missing "Target "
  | .noType => missing "Receiver type of target "
  | .noMethod => missing "Method of target "
where
  missing (what : String) : List Line :=
    [⟨.debug, .targets, .plain (what ++ t.text ++ " not found; ignoring")⟩]

def resolveTarget (program : Program) (t : Target) : Step Resolution := do
  let r ← ofTargets (t.resolve program)
  Logged.log (passedOver t r)
  return r

def resolveTargets (program : Program) (ts : List Target) : Step (List ResolvedTarget) := do
  let rs ← ts.mapM (resolveTarget program)
  let resolved := rs.filterMap Resolution.target?
  log .info .targets ("Resolved " ++ toString resolved.length ++ " target(s)")
  return resolved

/-- The line about an event, unless it has a number without a numeral. Comparisons with a fixed
outcome are only reported. -/
def eventLine? (fn : Function) : Event → Option Line
  | .tooFewArguments location callee count index => do
    let place ← location.text?
    let wanted ← Numeral.text? index
    return ⟨.debug, .targets, .plain (place ++ ": call to " ++ callee.text ++ " has " ++
      toString count ++ " argument(s); target wants index " ++ wanted)⟩
  | .nilArgument d => do
    let place ← d.location.text?
    return ⟨.debug, .walk, .plain (place ++ ": " ++ d.message)⟩
  | .condition _ => none
  | .learned block facts => some ⟨.debug, .walk, .learned fn.name (fn.indexAt block) facts⟩

/-- What the check of a function hands over: lines of the log and diagnostics. -/
inductive Notice where
  | line (line : Line)
  | diagnostic (diagnostic : Diagnostic)

namespace Notice

def line? : Notice → Option Line
  | .line l => some l
  | .diagnostic _ => none

def diagnostic? : Notice → Option Diagnostic
  | .line _ => none
  | .diagnostic d => some d

/-- An event is logged before it is reported. -/
def ofEvent (fn : Function) (e : Event) : List Notice :=
  (eventLine? fn e).toList.map line ++ e.diagnostic?.toList.map diagnostic

/-- All notices about a function in their order. -/
def ofFunction (settings : Settings) (fn : Function) : List Notice :=
  let e := fn.events settings
  e.events.flatMap (ofEvent fn) ++
    match e.crash with
    | none => []
    | some c =>
      [.line ⟨.error, .check, .plain ("Analysis of " ++ fn.name ++ " failed")⟩,
        .diagnostic (.internal fn.location fn.name c.message)]

end Notice

/-- Checks all functions. With several workers, the notices about different functions come in
the order that the choices give. -/
def checkFunctions (settings : Settings) (jobs : Int) (choices : List Nat) (fns : List Function) :
    Step Results := do
  let bodies := fns.filter Function.hasBody
  if 1 < jobs && 2 ≤ bodies.length then
    log .info .check ("Checking " ++ toString bodies.length ++ " function(s) with " ++
      toString jobs ++ " worker(s)")
  let notices := Pool.collect jobs choices (bodies.map (Notice.ofFunction settings))
  Logged.log (notices.filterMap Notice.line?)
  let results : Results :=
    { diagnostics := Diagnostic.sort (notices.filterMap Notice.diagnostic?)
      checked := bodies.length }
  log .info .check ("Checked " ++ toString results.checked ++ " function(s): " ++
    toString results.total ++ " finding(s)")
  return results

/-- All steps of a run up to its results. -/
def analyse (ws : Workspace) (o : Options) (choices : List Nat := []) : Step Results := do
  let jobs ← workers o
  let targets ← collectTargets ws o
  let program ← loadDumps ws o
  let resolved ← resolveTargets program targets
  checkFunctions { validator := .ofTargets resolved, reportConditions := o.reportConditions }
    jobs choices program.functions

/-- The file that the output goes to, if it does not go to the standard output. -/
def destination (ws : Workspace) (o : Options) : Step (Option Path) :=
  match o.output with
  | .standard => pure none
  | .unnamed => throw .unexpected
  | .named name =>
    match ws.resolve? name with
    | none => throw .unexpected
    | some path =>
      if ws.canWrite path then pure (some path) else throw (.cannotWrite (ws.lastDirectory path))

/-- The record of a diagnostic, if it can be written. A summary has the records of the plain
format. -/
def Format.record? : Format → Diagnostic → Option String
  | .json, d => d.jsonLine?
  | _, d => d.text?

/-- What is written, and whether that is all there was to write. -/
structure Emission where
  text : String := ""
  isComplete : Bool := true
  deriving Repr

/-- One line for each record, up to the first that cannot be written. -/
def Format.records (format : Format) : List Diagnostic → Emission
  | [] => {}
  | d :: ds =>
    match format.record? d with
    | none => { isComplete := false }
    | some record =>
      let rest := format.records ds
      { rest with text := record ++ "\n" ++ rest.text }

/-- The output: one line for each diagnostic, and the counts if they are asked for. -/
def render (r : Results) (tenths : Nat) (format : Format) : Emission :=
  let records := format.records r.diagnostics
  if records.isComplete ∧ format = .summary then
    { text := records.text ++ "\n" ++ r.summary tenths ++ "\n" }
  else records

/-- What a run leaves behind. A directory is made only on the way to an output that then
could not be written; a written file brings its directories with it. -/
structure Outcome where
  exit : Nat
  stdout : String := ""
  log : List Line := []
  made : Option Path := none
  written : Option (Path × String) := none
  usage : Option UsageError := none
  deriving Repr

/-- No finding, some finding, or a function that could not be analysed. -/
def exitCode (r : Results) : Nat :=
  if !r.internalErrors.isEmpty then 2 else if r.findings.isEmpty then 0 else 1

/-- The line about functions that could not be analysed. -/
def internalLines (r : Results) : List Line :=
  if r.internalErrors.isEmpty then []
  else
    [⟨.error, .run,
      .plain (toString r.internalErrors.length ++ " function(s) could not be analysed")⟩]

/-- Ends a run. The time that the check took is given in tenths of a millisecond. An output that
breaks off is left as it is. -/
def finish (ws : Workspace) (o : Options) (analysis : Step Results) (tenths : Nat) : Outcome :=
  let run : Step (Results × Option Path) := do
    let results ← analysis
    return (results, ← destination ws o)
  let shown := fun (lines : List Line) => lines.filter (·.level.isShown o.verbosity)
  match run.result with
  | .error f =>
    { exit := 2
      log := shown (run.lines ++ [⟨.error, .run, .plain f.message⟩])
      made := f.made? }
  | .ok (results, path) =>
    let output := render results tenths o.format
    let lines :=
      if output.isComplete then internalLines results
      else [⟨.error, .run, .plain Failure.unexpected.message⟩]
    { exit := if output.isComplete then exitCode results else 2
      stdout := if path.isNone then output.text else ""
      log := shown (run.lines ++ lines)
      written := path.map (·, output.text) }

/-- A run with given options. Where several workers check, the choices say whose turn it is. -/
def run (ws : Workspace) (o : Options) (tenths : Nat := 0) (choices : List Nat := []) : Outcome :=
  finish ws o (analyse ws o choices) tenths

/-- How the tool is called. -/
def usageText : String :=
  "usage: nilnop [-h] [--version] [-v] [-t PKG:NAME[:POS]] [--targets FILE.json]\n" ++
  "              [-o FILE] [-f \x7bjson,gcc,summary\x7d] [--no-cond] [-j N]\n" ++
  "              DUMP [DUMP ...]\n"

/-- What a command line that asks for no check leaves behind. -/
def Stop.outcome : Stop → Outcome
  | .help => { exit := 0, stdout := usageText }
  | .version => { exit := 0, stdout := versionLine }
  | .usage e => { exit := 2, usage := some e }

/-- The last line about a wrong command line. -/
def UsageError.line (e : UsageError) : String := "nilnop: error: " ++ e.message

/-- The workspace after a run. -/
def Outcome.leave (o : Outcome) (ws : Workspace) : Workspace :=
  let ws := o.made.elim ws ws.makeDirectory
  o.written.elim ws fun (path, contents) => ws.write path contents

/-- A run from its command line. -/
def invoke (ws : Workspace) (arguments : List String) : Outcome :=
  match Options.parse arguments with
  | .error stop => stop.outcome
  | .ok o => run ws o

end NilGuard.Cli
