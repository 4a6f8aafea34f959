import Reckoner.Session.Transcript

/-! # The command line

Arguments are read from left to right. An option may take a value, which is attached to it or is
the next argument; flags may be written together behind one hyphen. Reading stops at the first
argument that is wrong or that asks for something other than a session.
-/

namespace Reckoner

namespace CommandLine

/-- The name under which the calculator is called, and its version. -/
def programName : String := "decimal-calc"

def programVersion : String := "0.1.0"

/-- The options that stand for themselves. -/
inductive Flag where
  | trace
  | verbose
  | version
  | help
  deriving Repr, DecidableEq

/-- The options that take a value. -/
inductive Setting where
  | digits
  | rounding
  | exitKeyword
  deriving Repr, DecidableEq

/-- An option of either sort. -/
inductive Choice where
  | flag (flag : Flag)
  | setting (setting : Setting)
  deriving Repr, DecidableEq

/-- What is wrong with the arguments. -/
inductive UsageError where
  | unknownOption (written : String)
  | unexpectedArgument (written : String)
  | missingValue (setting : Setting)
  | badValue (setting : Setting) (written : String)
  /-- A value is attached to a flag. -/
  | needlessValue (flag : Flag)
  | repeatedOption (choice : Choice)
  deriving Repr, DecidableEq

/-- What the arguments ask for. -/
inductive Request where
  | session (settings : Settings)
  | version
  | help
  | misuse (error : UsageError)
  deriving Repr, DecidableEq

/-- The options given so far. -/
structure Given where
  digits : Option Nat
  rounding : Option RoundingMode
  exitKeyword : Option String
  trace : Bool
  deriving Repr, DecidableEq

/-- What the next argument may be. -/
inductive Expecting where
  | option
  | value (setting : Setting)
  /-- The options have been ended. -/
  | nothing
  deriving Repr, DecidableEq

/-- Where reading stands between two arguments. -/
structure Progress where
  given : Given
  expecting : Expecting
  deriving Repr, DecidableEq

/-- Why no further argument is read. -/
inductive Halt where
  | version
  | help
  | misuse (error : UsageError)
  deriving Repr, DecidableEq

namespace Flag

def longName : Flag → String
  | trace => "trace"
  | verbose => "verbose"
  | version => "version"
  | help => "help"

def shortName : Flag → Char
  | trace => 't'
  | verbose => 'v'
  | version => 'V'
  | help => 'h'

def all : List Flag := [trace, verbose, version, help]

end Flag

namespace Setting

def longName : Setting → String
  | digits => "precision"
  | rounding => "rounding"
  | exitKeyword => "exit-keyword"

/-- The exit keyword has no short form. -/
def shortName? : Setting → Option Char
  | digits => some 'p'
  | rounding => some 'r'
  | exitKeyword => none

def all : List Setting := [digits, rounding, exitKeyword]

end Setting

namespace Choice

def all : List Choice :=
  Flag.all.map flag ++ Setting.all.map setting

def longName : Choice → String
  | flag f => f.longName
  | setting s => s.longName

def shortName? : Choice → Option Char
  | flag f => some f.shortName
  | setting s => s.shortName?

/-- The option with this long name. It has to be written out. -/
def ofLongName? (name : String) : Option Choice :=
  all.find? fun choice => choice.longName == name

def ofShortName? (c : Char) : Option Choice :=
  all.find? fun choice => choice.shortName? == some c

end Choice

namespace UsageError

def message : UsageError → String
  | unknownOption written => s!"unknown option {written}"
  | unexpectedArgument written => s!"unexpected argument {written}"
  | missingValue setting => s!"--{setting.longName} needs a value"
  | badValue setting written => s!"--{setting.longName} does not take the value {written}"
  | needlessValue flag => s!"--{flag.longName} takes no value"
  | repeatedOption choice => s!"--{choice.longName} may be given only once"

end UsageError

/-- Read a number of significant digits: digits, perhaps after a plus, that come to a supported
    number. -/
def readDigits? (written : List Char) : Option Nat :=
  let written := if written.head? = some '+' then written.tail else written
  match Literal.takeDigits written with
  | ([], _) => none
  | (_, _ :: _) => none
  | (digits, []) =>
    let number := Digits.toNat digits
    if 0 < number ∧ number ≤ maxDigits then some number else none

namespace Given

def nothing : Given := ⟨none, none, none, false⟩

/-- The settings that the given options make of the default ones. -/
def settings (given : Given) : Settings :=
  let default := Settings.default
  { default with
    digits := given.digits.getD default.digits
    rounding := given.rounding.getD default.rounding
    exitKeyword := given.exitKeyword.getD default.exitKeyword
    trace := given.trace }

/-- Take a flag. Only the flag for more messages may be given again. -/
def withFlag (given : Given) : Flag → Except Halt Given
  | .trace =>
    if given.trace then .error (.misuse (.repeatedOption (.flag .trace)))
    else .ok { given with trace := true }
  | .verbose => .ok given
  | .version => .error .version
  | .help => .error .help

/-- Take the value of an option that has been given for the first time. -/
def withValue (given : Given) (setting : Setting) (written : List Char) : Except Halt Given :=
  let bad := Halt.misuse (.badValue setting (String.ofList written))
  let again := Halt.misuse (.repeatedOption (.setting setting))
  match setting with
  | .digits =>
    match readDigits? written with
    | none => .error bad
    | some digits =>
      if given.digits.isSome then .error again else .ok { given with digits := some digits }
  | .rounding =>
    match RoundingMode.ofName? (String.ofList written) with
    | none => .error bad
    | some rounding =>
      if given.rounding.isSome then .error again else .ok { given with rounding := some rounding }
  | .exitKeyword =>
    if given.exitKeyword.isSome then .error again
    else .ok { given with exitKeyword := some (String.ofList written) }

end Given

/-- Read options written together behind one hyphen. The first that takes a value takes all that is
    left, without an equals sign in front of it; if nothing is left, the value is still to come. -/
def readShort (given : Given) : List Char → Except Halt Progress
  | [] => .ok ⟨given, .option⟩
  | c :: rest =>
    match Choice.ofShortName? c with
    | none => .error (.misuse (.unknownOption (String.ofList ['-', c])))
    | some (.flag flag) => do
      let given ← given.withFlag flag
      readShort given rest
    | some (.setting setting) =>
      match rest with
      | [] => .ok ⟨given, .value setting⟩
      | '=' :: value => do
        let given ← given.withValue setting value
        pure ⟨given, .option⟩
      | value => do
        let given ← given.withValue setting value
        pure ⟨given, .option⟩

/-- Read an option written with two hyphens, which have been taken off. -/
def readLong (given : Given) (written : List Char) : Except Halt Progress :=
  let name := String.ofList (written.takeWhile fun c => c != '=')
  match Choice.ofLongName? name, written.dropWhile fun c => c != '=' with
  | none, _ => .error (.misuse (.unknownOption ("--" ++ name)))
  | some (.flag flag), [] => do
    let given ← given.withFlag flag
    pure ⟨given, .option⟩
  | some (.flag flag), _ :: _ => .error (.misuse (.needlessValue flag))
  | some (.setting setting), [] => .ok ⟨given, .value setting⟩
  | some (.setting setting), _ :: value => do
    let given ← given.withValue setting value
    pure ⟨given, .option⟩

/-- Read one argument. A lone hyphen is no option. -/
def readArgument (progress : Progress) (argument : String) : Except Halt Progress :=
  let unexpected := Halt.misuse (.unexpectedArgument argument)
  match progress.expecting, argument.toList with
  | .nothing, _ => .error unexpected
  | .value setting, '-' :: _ :: _ => .error (.misuse (.missingValue setting))
  | .value setting, value => do
    let given ← progress.given.withValue setting value
    pure ⟨given, .option⟩
  | .option, ['-', '-'] => .ok { progress with expecting := .nothing }
  | .option, '-' :: '-' :: written => readLong progress.given written
  | .option, '-' :: c :: rest => readShort progress.given (c :: rest)
  | .option, _ => .error unexpected

/-- What a list of arguments asks for. -/
def request (arguments : List String) : Request :=
  match arguments.foldlM readArgument ⟨.nothing, .option⟩ with
  | .error .version => .version
  | .error .help => .help
  | .error (.misuse error) => .misuse error
  | .ok ⟨given, .option⟩ => .session given.settings
  | .ok ⟨given, .nothing⟩ => .session given.settings
  | .ok ⟨_, .value setting⟩ => .misuse (.missingValue setting)

/-- The line that shows the version. -/
def versionLine : String :=
  s!"{programName} {programVersion}\n"

/-- How to call the calculator. -/
def helpText : String :=
  s!"Usage: {programName} [OPTIONS]\n\n" ++
  "  -p, --precision N         significant digits, 1 to 28\n" ++
  "  -r, --rounding MODE       half-even, half-up, half-down, down, up, floor or ceiling\n" ++
  "      --exit-keyword TEXT   the line that ends the session\n" ++
  "  -t, --trace               show the steps of each evaluation\n" ++
  "  -v, --verbose             more messages\n" ++
  "  -V, --version             show the version\n" ++
  "  -h, --help                show this text\n"

/-- The line about settings that were refused. -/
def faultLine (fault : SettingsError) : String :=
  s!"Error: \"{fault.message}\"\n"

/-- The line about a session that ended before its input. -/
def endingLine (error : SessionError) : String :=
  s!"Error: {error.message}\n"

/-- The line about arguments that were refused. -/
def usageLine (error : UsageError) : String :=
  s!"error: {error.message}\n"

/-- What a finished process leaves behind. -/
structure Finished where
  exitCode : UInt8
  output : String
  errors : String
  deriving Repr, DecidableEq

/-- The whole process for given arguments and a given input. -/
def run (arguments : List String) (input : List UInt8) : Finished :=
  match request arguments with
  | .misuse error => ⟨2, "", usageLine error⟩
  | .version => ⟨0, versionLine, ""⟩
  | .help => ⟨0, helpText, ""⟩
  | .session settings =>
    match Session.start settings with
    | .error fault => ⟨1, "", faultLine fault⟩
    | .ok session =>
      let transcript := session.run input
      match transcript.ending with
      | .ok _ => ⟨0, transcript.output, ""⟩
      | .error error => ⟨1, transcript.output, endingLine error⟩

end CommandLine

end Reckoner
