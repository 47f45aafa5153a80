import NilGuard.Numeral.Integer
import NilGuard.Text.Quoted
import NilGuard.Text.Split
/-! The command line. Every argument is first classified by itself: a value, an option
with or without a text attached to it, or the separator after which all arguments are
values. Then the options take their values, and the first unbroken run of the values
that are left names the dumps. -/
namespace NilGuard.Cli

/-- What an option stands for. -/
inductive Flag where
  | help
  | version
  | verbose
  | target
  | targets
  | output
  | format
  | noConditions
  | jobs
  deriving DecidableEq, Repr

namespace Flag

def all : List Flag :=
  [help, version, verbose, target, targets, output, format, noConditions, jobs]

/-- The spellings of an option, the short one first. -/
def names : Flag → List String
  | help => ["-h", "--help"]
  | version => ["--version"]
  | verbose => ["-v", "--verbose"]
  | target => ["-t", "--target"]
  | targets => ["--targets"]
  | output => ["-o", "--output"]
  | format => ["-f", "--format"]
  | noConditions => ["--no-cond"]
  | jobs => ["-j", "--jobs"]

def takesValue : Flag → Bool
  | target | targets | output | format | jobs => true
  | _ => false

/-- How messages call an option. -/
def label (f : Flag) : String := "/".intercalate f.names

def spellings : List (String × Flag) := all.flatMap fun f => f.names.map (·, f)

/-- The option with exactly this spelling. -/
def ofName? (name : String) : Option Flag := spellings.lookup name

end Flag

/-- The forms in which results are written. -/
inductive Format where
  | json
  | gcc
  | summary
  deriving DecidableEq, Repr

namespace Format

def all : List Format := [json, gcc, summary]

def text : Format → String
  | json => "json"
  | gcc => "gcc"
  | summary => "summary"

def ofText? (s : String) : Option Format := all.find? (·.text == s)

end Format

/-- What is wrong with a command line. -/
inductive UsageError where
  | ambiguous (argument : String) (names : List String)
  | valueExpected (flag : Flag)
  | valueIgnored (flag : Flag) (value : String)
  | notAnInteger (flag : Flag) (value : String)
  | notAChoice (flag : Flag) (value : String)
  | dumpsRequired
  | unrecognized (arguments : List String)
  deriving DecidableEq, Repr

def UsageError.message : UsageError → String
  | .ambiguous argument names =>
    "ambiguous option: " ++ argument ++ " could match " ++ ", ".intercalate names
  | .valueExpected flag => "argument " ++ flag.label ++ ": expected one argument"
  | .valueIgnored flag value =>
    "argument " ++ flag.label ++ ": ignored explicit argument " ++ Text.quoted value
  | .notAnInteger flag value =>
    "argument " ++ flag.label ++ ": invalid int value: " ++ Text.quoted value
  | .notAChoice flag value =>
    "argument " ++ flag.label ++ ": invalid choice: " ++ Text.quoted value ++ " (choose from " ++
      ", ".intercalate (Format.all.map (Text.quoted ·.text)) ++ ")"
  | .dumpsRequired => "the following arguments are required: DUMP"
  | .unrecognized arguments => "unrecognized arguments: " ++ " ".intercalate arguments

/-- Why a command line asks for no check. -/
inductive Stop where
  | usage (error : UsageError)
  | help
  | version
  deriving DecidableEq, Repr

/-- Where the output goes. -/
inductive Output where
  | standard
  | named (name : String)
  /-- The option was given, but without a value. -/
  | unnamed
  deriving DecidableEq, Repr

/-- What a command line asks for. A target or a number of jobs is missing if its option
was given without a value. -/
structure Options where
  dumps : List String := []
  targets : List (Option String) := []
  targetFile : Option String := none
  output : Output := .standard
  format : Format := .gcc
  reportConditions : Bool := true
  jobs : Option Int := some 1
  verbosity : Nat := 0
  deriving DecidableEq, Repr

/-- An argument by itself. -/
inductive Token where
  | separator
  | value (text : String)
  | option (flag : Flag) (short : Bool) (attached : Option (List Char))
  | unknown (text : String)
  deriving DecidableEq, Repr

namespace Token

/-- The part before the first equals sign and, if there is one, the part after it. -/
def cutAtEquals : List Char → List Char × Option (List Char)
  | [] => ([], none)
  | c :: cs =>
    if c = '=' then ([], some cs)
    else
      let (name, after) := cutAtEquals cs
      (c :: name, after)

/-- Whether an argument is a negative number and therefore no option. One line end after
it is allowed. -/
def isNegativeNumber : List Char → Bool
  | '-' :: cs =>
    let body := if cs.getLast? = some '\n' then cs.dropLast else cs
    let digits := fun (ds : List Char) => ds.all fun c => (Text.digit? c).isSome
    match Text.splitAt '.' body with
    | [whole] => !whole.isEmpty && digits whole
    | [whole, places] => digits whole && !places.isEmpty && digits places
    | _ => false
  | _ => false

/-- An argument that is neither a spelling nor the start of one. -/
def unmatched (cs : List Char) : Token :=
  let s := String.ofList cs
  if isNegativeNumber cs || cs.contains ' ' then .value s else .unknown s

/-- A long option may be cut short as long as it stays unique. -/
def ofLong (cs : List Char) : Except UsageError Token :=
  let (name, after) := cutAtEquals cs
  match Flag.spellings.filter fun e => name.isPrefixOf e.1.toList with
  | [] => .ok (unmatched cs)
  | [(_, flag)] => .ok (.option flag false after)
  | several => .error (.ambiguous (String.ofList cs) (several.map (·.1)))

/-- A short option may have its value attached. -/
def ofShort (cs : List Char) : Token :=
  match Flag.ofName? (String.ofList (cs.take 2)) with
  | some flag => .option flag true (some (cs.drop 2))
  | none => unmatched cs

/-- Classifies an argument other than the separator. -/
def classify (argument : String) : Except UsageError Token :=
  let cs := argument.toList
  let isShort := fun (name : List Char) => name.length == 2
  match cs with
  | '-' :: second :: _ =>
    match Flag.ofName? argument with
    | some flag => .ok (.option flag (isShort cs) none)
    | none =>
      let (name, after) := cutAtEquals cs
      match after, Flag.ofName? (String.ofList name) with
      | some text, some flag => .ok (.option flag (isShort name) (some text))
      | _, _ => if second = '-' then ofLong cs else .ok (ofShort cs)
  | _ => .ok (.value argument)

/-- Classifies all arguments. -/
def classifyAll : List String → Except UsageError (List Token)
  | [] => .ok []
  | argument :: rest =>
    if argument = "--" then .ok (.separator :: rest.map .value)
    else do
      let token ← classify argument
      return token :: (← classifyAll rest)

end Token

/-- How a group of short options ends. -/
inductive Ending where
  | complete
  /-- The last option has its value. -/
  | given (flag : Flag) (value : String)
  /-- The last option takes the next argument. -/
  | awaiting (flag : Flag)
  deriving DecidableEq, Repr

/-- The options that one argument holds: some without a value, and how it ends. -/
structure Group where
  flags : List Flag := []
  ending : Ending := .complete
  deriving DecidableEq, Repr

namespace Group

/-- An option with no text attached to it. -/
def bare (flag : Flag) : Group :=
  if flag.takesValue then { ending := .awaiting flag } else { flags := [flag] }

/-- Unfolds an option with the text attached to it. A text attached to a short option that
takes no value holds more short options, each written as its letter. -/
def ofText (flag : Flag) (short : Bool) (text : List Char) : Except UsageError Group :=
  if flag.takesValue then .ok { ending := .given flag (String.ofList text) }
  else
    match text with
    | [] => .error (.valueIgnored flag "")
    | c :: cs =>
      match if short then Flag.ofName? (String.ofList ['-', c]) else none with
      | none => .error (.valueIgnored flag (String.ofList (c :: cs)))
      | some next => do
        let rest ← if cs.isEmpty then .ok (bare next) else ofText next true cs
        return { rest with flags := flag :: rest.flags }

/-- Unfolds an option. -/
def ofOption (flag : Flag) (short : Bool) : Option (List Char) → Except UsageError Group
  | none => .ok (bare flag)
  | some text => ofText flag short text

end Group

/-- How far the run of values that names the dumps has come. -/
inductive Phase where
  | before
  | inside
  | after
  deriving DecidableEq, Repr

/-- What has been taken from the command line so far. -/
structure Parse where
  options : Options := {}
  phase : Phase := .before
  extras : List String := []
  deriving Repr

namespace Parse

/-- The options after one that takes no value. -/
def takeFlag (p : Parse) (flag : Flag) : Except Stop Parse :=
  let o := p.options
  match flag with
  | .help => .error .help
  | .version => .error .version
  | .verbose => .ok { p with options := { o with verbosity := o.verbosity + 1 } }
  | .noConditions => .ok { p with options := { o with reportConditions := false } }
  | _ => .ok p

def takeFlags (p : Parse) (flags : List Flag) : Except Stop Parse := flags.foldlM takeFlag p

/-- The options after one that takes a value. -/
def withValue (o : Options) (flag : Flag) (value : String) : Except UsageError Options :=
  match flag with
  | .target => .ok { o with targets := o.targets ++ [some value] }
  | .targets => .ok { o with targetFile := some value }
  | .output => .ok { o with output := if value = "-" then .standard else .named value }
  | .format =>
    match Format.ofText? value with
    | some format => .ok { o with format }
    | none => .error (.notAChoice flag value)
  | .jobs =>
    match Numeral.integer? value.toList with
    | some jobs => .ok { o with jobs := some jobs }
    | none => .error (.notAnInteger flag value)
  | _ => .ok o

/-- The options after one whose value was left out. Then results are written with their
counts. -/
def withoutValue (o : Options) : Flag → Options
  | .target => { o with targets := o.targets ++ [none] }
  | .targets => { o with targetFile := none }
  | .output => { o with output := .unnamed }
  | .format => { o with format := .summary }
  | .jobs => { o with jobs := none }
  | _ => o

/-- Takes an option with its value. Two dashes stand for no value. -/
def take (p : Parse) (flag : Flag) (value : String) : Except Stop Parse :=
  if value = "--" then .ok { p with options := withoutValue p.options flag }
  else
    match withValue p.options flag value with
    | .ok options => .ok { p with options }
    | .error e => .error (.usage e)

def addExtra (p : Parse) (text : String) : Parse := { p with extras := p.extras ++ [text] }

def addDump (p : Parse) (text : String) : Parse :=
  { p with phase := .inside, options := { p.options with dumps := p.options.dumps ++ [text] } }

/-- An option ends the run of values that names the dumps. -/
def interrupt (p : Parse) : Parse := if p.phase = .inside then { p with phase := .after } else p

/-- Takes the tokens one after the other. -/
def takeAll (p : Parse) : List Token → Except Stop Parse
  | [] => .ok p
  | .value text :: rest =>
    if p.phase = .after then (p.addExtra text).takeAll rest else (p.addDump text).takeAll rest
  | .separator :: rest =>
    if p.phase = .after || (p.phase = .before && rest.isEmpty) then (p.addExtra "--").takeAll rest
    else p.takeAll rest
  | .unknown text :: rest => (p.interrupt.addExtra text).takeAll rest
  | .option flag short attached :: rest =>
    match Group.ofOption flag short attached with
    | .error e => .error (.usage e)
    | .ok group =>
      match group.ending, rest with
      | .complete, rest => do (← p.interrupt.takeFlags group.flags).takeAll rest
      | .given flag value, rest => do
        (← (← p.interrupt.takeFlags group.flags).take flag value).takeAll rest
      | .awaiting flag, .value value :: rest => do
        (← (← p.interrupt.takeFlags group.flags).take flag value).takeAll rest
      | .awaiting flag, _ => .error (.usage (.valueExpected flag))

/-- A command line names at least one dump and leaves no argument over. -/
def finish (p : Parse) : Except Stop Options :=
  if p.phase = .before then .error (.usage .dumpsRequired)
  else if p.extras.isEmpty then .ok p.options
  else .error (.usage (.unrecognized p.extras))

end Parse

/-- Reads a command line. -/
def Options.parse (arguments : List String) : Except Stop Options :=
  match Token.classifyAll arguments with
  | .error e => .error (.usage e)
  | .ok tokens =>
    match Parse.takeAll {} tokens with
    | .error s => .error s
    | .ok p => p.finish

end NilGuard.Cli
