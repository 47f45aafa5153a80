import NilGuard.Target.Error
import NilGuard.Text.Newline
/-! Target files: a JSON list of objects, one for each target. -/
namespace NilGuard.Target

/-- The target of one entry. The position is zero when it is left out. The path must
be there before the function is looked for, and both must be there before their
kinds are looked at. -/
def ofJson (entry : Json) : Except FileFault Target :=
  match entry with
  | .obj _ =>
    match entry.field? "pkg_path" with
    | none => .error (.missingKey "pkg_path")
    | some package =>
      match entry.field? "func_name" with
      | none => .error (.missingKey "func_name")
      | some function =>
        match package, function with
        | .str package, .str function =>
          match (entry.field? "arg_pos").getD (.int 0) with
          | .int position => .ok { package, function, position }
          | position => .error (.positionNotInteger position)
        | _, _ => .error .namesNotStrings
  | _ => .error (.notAnObject entry)

/-- The targets of a list of entries, or the first fault among them. -/
def ofJsonList : Json → Except FileFault (List Target)
  | .arr entries => entries.mapM ofJson
  | _ => .error .notAList

/-- The targets that a file of the given contents names. -/
def parseFile (path contents : String) : Except TargetError (List Target) :=
  Except.mapError (TargetError.file path) <|
    match Json.read (Text.fileText contents) with
    | .error e => .error (.invalidJson e)
    | .ok json => ofJsonList json

end NilGuard.Target
