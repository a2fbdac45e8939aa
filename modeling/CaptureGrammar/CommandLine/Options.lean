/-! The arguments of the program: options, at most one pattern, and what makes them unusable. -/
namespace CaptureGrammar.CommandLine

/-- How the annotated pattern is printed. -/
inductive Format where
  | text
  | json
deriving DecidableEq

def Format.ofName? : String → Option Format
  | "text" => some .text
  | "json" => some .json
  | _ => none

/-- What the arguments of a run set. An option that takes a value is `none` until it is given. -/
structure Options where
  pattern : Option String := none
  format : Option Format := none
  strict : Bool := false
  quiet : Bool := false
  verbosity : Nat := 0
deriving DecidableEq

inductive Request where
  | run (options : Options)
  | help
  | version
deriving DecidableEq

inductive UsageError where
  | unknownOption (text : String)
  | unexpectedArgument (text : String)
  /-- A value was given to an option that takes none. -/
  | unexpectedValue (name : String)
  | missingValue (name : String)
  | invalidFormat (value : String)
  | repeated (name : String)
deriving DecidableEq

/-- The options there are. -/
inductive Switch where
  | format
  | strict
  | quiet
  | verbose
  | help
  | version
deriving DecidableEq

namespace Switch

def name : Switch → String
  | .format => "format"
  | .strict => "strict"
  | .quiet => "quiet-ast"
  | .verbose => "verbose"
  | .help => "help"
  | .version => "version"

def letter : Switch → Char
  | .format => 'f'
  | .strict => 's'
  | .quiet => 'q'
  | .verbose => 'v'
  | .help => 'h'
  | .version => 'V'

def all : List Switch := [.format, .strict, .quiet, .verbose, .help, .version]

end Switch

/-- What follows from one argument. -/
inductive Step where
  | proceed (options : Options)
  /-- The next argument is the format. -/
  | awaitFormat (options : Options)
  /-- The request is settled, whatever comes after. -/
  | settle (request : Request)
  /-- What comes after is no option. -/
  | endOptions

namespace Options

def setPattern (o : Options) (s : String) : Except UsageError Options :=
  match o.pattern with
  | none => .ok { o with pattern := some s }
  | some _ => .error (.unexpectedArgument s)

def setFormat (o : Options) (value : String) : Except UsageError Options :=
  match Format.ofName? value, o.format with
  | none, _ => .error (.invalidFormat value)
  | some _, some _ => .error (.repeated Switch.format.name)
  | some f, none => .ok { o with format := some f }

/-- Follows a switch to which no value is attached. Only verbosity can be asked for repeatedly. -/
def turn (o : Options) : Switch → Except UsageError Step
  | .format => .ok (.awaitFormat o)
  | .strict =>
    if o.strict then .error (.repeated Switch.strict.name)
    else .ok (.proceed { o with strict := true })
  | .quiet =>
    if o.quiet then .error (.repeated Switch.quiet.name)
    else .ok (.proceed { o with quiet := true })
  | .verbose => .ok (.proceed { o with verbosity := o.verbosity + 1 })
  | .help => .ok (.settle .help)
  | .version => .ok (.settle .version)

end Options

/-- Reads `--name` or `--name=value`, of which the dashes have been passed. -/
def readLong (o : Options) (cs : List Char) : Except UsageError Step :=
  let (name, attached) := cs.span (· != '=')
  match Switch.all.find? (·.name.toList = name), attached with
  | none, _ => .error (.unknownOption ("--" ++ String.ofList cs))
  | some switch, [] => o.turn switch
  | some .format, _ :: value => .proceed <$> o.setFormat (String.ofList value)
  | some switch, _ :: _ => .error (.unexpectedValue switch.name)

/-- The value that follows the letter of an option in the same argument. An `=` may come between. -/
def attachedValue : List Char → String
  | '=' :: cs | cs => String.ofList cs

/-- Reads a row of letters, of which the dash has been passed. What follows the letter of the format
is its value. -/
def readLetters (o : Options) : List Char → Except UsageError Step
  | [] => .ok (.proceed o)
  | c :: cs =>
    match Switch.all.find? (·.letter = c) with
    | none => .error (.unknownOption (String.ofList ['-', c]))
    | some .format =>
      if cs.isEmpty then .ok (.awaitFormat o)
      else .proceed <$> o.setFormat (attachedValue cs)
    | some switch =>
      match o.turn switch with
      | .ok (.proceed o) => readLetters o cs
      | other => other

/-- Reads one argument. A lone dash is a pattern, and so is the empty argument. -/
def readArgument (o : Options) (arg : String) : Except UsageError Step :=
  match arg.toList with
  | ['-', '-'] => .ok .endOptions
  | '-' :: '-' :: cs => readLong o cs
  | '-' :: c :: cs => readLetters o (c :: cs)
  | _ => .proceed <$> o.setPattern arg

/-- Whether an argument cannot be the value of the option before it. -/
def looksLikeOption (arg : String) : Bool :=
  match arg.toList with
  | '-' :: _ :: _ => true
  | _ => false

/-- Reads the arguments from left to right. The first failure or settled request decides. -/
def readArguments (o : Options) (awaitsFormat : Bool) : List String → Except UsageError Request
  | [] => if awaitsFormat then .error (.missingValue Switch.format.name) else .ok (.run o)
  | arg :: args =>
    if awaitsFormat then
      if looksLikeOption arg then .error (.missingValue Switch.format.name)
      else
        match o.setFormat arg with
        | .error e => .error e
        | .ok o => readArguments o false args
    else
      match readArgument o arg with
      | .error e => .error e
      | .ok (.proceed o) => readArguments o false args
      | .ok (.awaitFormat o) => readArguments o true args
      | .ok (.settle request) => .ok request
      | .ok .endOptions => .run <$> args.foldlM Options.setPattern o

def Request.ofArguments (args : List String) : Except UsageError Request :=
  readArguments {} false args

end CaptureGrammar.CommandLine
