import RuleScript.Text.LowerCase
import RuleScript.Match.Matcher

/-!
# Command-line arguments

A command line names a command and gives options and an input in any order.  An option has a long
name after two dashes and mostly a letter after one.  Its value is attached to the name or is the
next argument; two dashes alone end the options.

Values are looked at late: what an argument gives is kept pending until the next option or input
comes up or the command line ends, so an unknown option is reported before a bad value in front of
it.
-/

namespace RuleScript.CommandLine

/-- How a report is written. -/
inductive Format where
  | tree
  | json
  deriving DecidableEq

/-- The format a word stands for, in whatever letter case. -/
def Format.ofWord? (word : String) : Option Format :=
  let word := String.ofList (lowerCase word.toList)
  if word = "tree" ∨ word = "text" then some tree
  else if word = "json" then some json
  else none

/-- The options there are. -/
inductive Opt where
  | tokenizer
  | searchPath
  | maxDepth
  | grammar
  | failOnWarning
  | format
  | output
  | help
  | version
  deriving DecidableEq

namespace Opt

def all : List Opt :=
  [tokenizer, searchPath, maxDepth, grammar, failOnWarning, format, output, help, version]

def longName : Opt → String
  | tokenizer => "tokenizer"
  | searchPath => "include"
  | maxDepth => "max-depth"
  | grammar => "grammar"
  | failOnWarning => "fail-on-warning"
  | format => "format"
  | output => "output"
  | help => "help"
  | version => "version"

def letter? : Opt → Option Char
  | tokenizer => some 't'
  | searchPath => some 'I'
  | maxDepth => none
  | grammar => some 'g'
  | failOnWarning => none
  | format => some 'f'
  | output => some 'o'
  | help => some 'h'
  | version => some 'V'

def takesValue : Opt → Bool
  | failOnWarning | help | version => false
  | _ => true

end Opt

/-- The commands there are. -/
inductive Command where
  | tokens
  | parse
  | check
  | graph
  deriving DecidableEq

namespace Command

def all : List Command := [tokens, parse, check, graph]

def name : Command → String
  | tokens => "tokens"
  | parse => "parse"
  | check => "check"
  | graph => "graph"

def ofName? (name : String) : Option Command := all.find? (·.name == name)

/-- The options of a command. -/
def options : Command → List Opt
  | tokens => [.tokenizer, .searchPath, .maxDepth, .help]
  | parse => [.tokenizer, .searchPath, .maxDepth, .grammar, .failOnWarning, .format, .help]
  | check => [.tokenizer, .searchPath, .maxDepth, .grammar, .format, .help]
  | graph => [.tokenizer, .searchPath, .maxDepth, .grammar, .output, .help]

/-- Whether a command reads an input. -/
def takesInput : Command → Bool
  | tokens | parse => true
  | check | graph => false

/-- Whether a command needs a grammar. -/
def needsGrammar : Command → Bool
  | parse => true
  | _ => false

end Command

/-- What can be wrong with a command line, and the two requests that end it early. -/
inductive UsageError where
  | nothingGiven
  | unknownCommand
  | missingArgument
  | unknownArgument
  /-- A value that an option cannot have. -/
  | badValue
  /-- An option that was given before. -/
  | conflict
  /-- An option without a value. -/
  | noValue
  /-- A value for an option that takes none. -/
  | surplusValue
  | helpWanted
  | versionWanted
  deriving DecidableEq

namespace UsageError

def message : UsageError → String
  | nothingGiven => "a command is needed: tokens, parse, check or graph"
  | unknownCommand => "there is no such command"
  | missingArgument => "a required argument is missing"
  | unknownArgument => "an argument was not expected"
  | badValue => "an option has a value it cannot have"
  | conflict => "an option was given more than once"
  | noValue => "an option has no value"
  | surplusValue => "an option has a value but takes none"
  | helpWanted =>
    "commands: tokens, parse, check, graph\n" ++
    "options: --tokenizer FILE, --grammar FILE, --include DIRECTORY, --max-depth NUMBER,\n" ++
    "  --fail-on-warning, --format tree|json, --output FILE"
  | versionWanted => "1.0"

/-- Whether the command line only asked for this message. -/
def isRequest : UsageError → Bool
  | helpWanted | versionWanted => true
  | _ => false

end UsageError

/-- What a command line gives. -/
structure Given where
  tokenizer : Option String := none
  searchPaths : List String := []
  maxDepth : Option Nat := none
  grammar : Option String := none
  failOnWarning : Bool := false
  format : Option Format := none
  output : Option String := none
  input : Option String := none

/-- The largest depth that can be asked for. -/
def maxDepthLimit : Nat := 18446744073709551615

/-- The number that a word stands for: decimal digits, perhaps after a plus sign. -/
def numberOf? (word : String) : Option Nat :=
  let digits := match word.toList with
    | '+' :: digits => digits
    | digits => digits
  if digits.isEmpty || !digits.all Char.isDigit then none
  else
    let number := digits.foldl (fun n digit => 10 * n + (digit.toNat - '0'.toNat)) 0
    if number ≤ maxDepthLimit then some number else none

namespace Given

/-- Set what may be given once. -/
def once {β : Type} (current : Option β) (value : Except UsageError β) (put : β → Given) :
    Except UsageError Given :=
  match current with
  | some _ => .error .conflict
  | none => value.map put

/-- A file path; it may not be empty. -/
def path (value : String) : Except UsageError String :=
  if value.isEmpty then .error .noValue else .ok value

/-- The value that `read` finds in a word. -/
def valueOf {β : Type} (read : String → Option β) (value : String) : Except UsageError β :=
  match read value with
  | some v => .ok v
  | none => .error .badValue

/-- Take the value of an option. -/
def setOption (given : Given) (opt : Opt) (value : String) : Except UsageError Given :=
  match opt with
  | .tokenizer => once given.tokenizer (path value) fun v => { given with tokenizer := some v }
  | .searchPath =>
    (path value).map fun v => { given with searchPaths := given.searchPaths ++ [v] }
  | .maxDepth =>
    once given.maxDepth (valueOf numberOf? value) fun v => { given with maxDepth := some v }
  | .grammar => once given.grammar (path value) fun v => { given with grammar := some v }
  | .format =>
    once given.format (valueOf Format.ofWord? value) fun v => { given with format := some v }
  | .output => once given.output (path value) fun v => { given with output := some v }
  | .failOnWarning | .help | .version => .error .surplusValue

/-- Take an option that has no value. -/
def setFlag (given : Given) (opt : Opt) : Except UsageError Given :=
  match opt with
  | .failOnWarning =>
    if given.failOnWarning then .error .conflict else .ok { given with failOnWarning := true }
  | .help => .error .helpWanted
  | .version => .error .versionWanted
  | _ => .error .noValue

end Given

/-- What was given last and has not been looked at. -/
inductive Pending where
  | nothing
  /-- An option, with its value as soon as that is there. -/
  | option (opt : Opt) (value : Option String)
  | input (value : String)

/-- Look at what is pending. -/
def Pending.settle (given : Given) : Pending → Except UsageError Given
  | nothing => .ok given
  | option _ none => .error .noValue
  | option opt (some value) => given.setOption opt value
  | input value => (Given.path value).map fun v => { given with input := some v }

/-- How an argument looks. -/
inductive Shape where
  /-- Two dashes and nothing else. -/
  | dashes
  /-- A long name, perhaps with a value. -/
  | long (name : String) (value : Option String)
  /-- A letter, with what is attached to it. -/
  | short (letter : Char) (attached : String)
  | plain

/-- The text before the first equals sign, and the text after it if there is one. -/
def splitAtEquals (text : List Char) : String × Option String :=
  match text.dropWhile (· ≠ '=') with
  | [] => (String.ofList text, none)
  | _ :: value => (String.ofList (text.takeWhile (· ≠ '=')), some (String.ofList value))

/-- How an argument looks. -/
def Shape.of (argument : String) : Shape :=
  match argument.toList with
  | ['-', '-'] => dashes
  | '-' :: '-' :: rest => long (splitAtEquals rest).1 (splitAtEquals rest).2
  | '-' :: letter :: attached => short letter (String.ofList attached)
  | _ => plain

/-- The value in what is attached to a letter; an equals sign in front is not part of it. -/
def attachedValue? (attached : String) : Option String :=
  match attached.toList with
  | [] => none
  | '=' :: value => some (String.ofList value)
  | _ => some attached

section Reading

variable (options : List Opt) (takesInput : Bool)

/-- Where the reader of a command line stands. -/
structure Reader where
  given : Given := {}
  pending : Pending := .nothing
  /-- Whether the next argument may be the value of a pending option. -/
  awaitsValue : Bool := false
  /-- Whether options have ended. -/
  onlyInputs : Bool := false
  /-- Whether the input was given. -/
  hasInput : Bool := false

namespace Reader

/-- Come to an option, with its value if that is attached. -/
def option (r : Reader) (opt : Opt) (value : Option String) : Except UsageError Reader := do
  let given ← r.pending.settle r.given
  match value with
  | some value =>
    let given ← given.setOption opt value
    return { r with given := given, pending := .nothing, awaitsValue := false }
  | none => return { r with given := given, pending := .option opt none, awaitsValue := true }

/-- Come to an option that takes no value. -/
def optionAlone (r : Reader) (opt : Opt) : Except UsageError Reader := do
  let given ← r.pending.settle r.given
  let given ← given.setFlag opt
  return { r with given := given, pending := .nothing, awaitsValue := false }

/-- Come to an argument that is no option: the value of an option that waits for one, or the
input. -/
def plain (r : Reader) (argument : String) : Except UsageError Reader :=
  match r.pending, r.awaitsValue && !r.onlyInputs with
  | .option opt _, true =>
    .ok { r with pending := .option opt (some argument), awaitsValue := false }
  | _, _ =>
    if takesInput && !r.hasInput then do
      let given ← r.pending.settle r.given
      return { r with
        given := given, pending := .input argument, awaitsValue := false, hasInput := true }
    else .error .unknownArgument

/-- Read one argument. -/
def read (r : Reader) (argument : String) : Except UsageError Reader :=
  if r.onlyInputs then r.plain takesInput argument
  else
    match Shape.of argument with
    | .dashes => .ok { r with onlyInputs := true }
    | .plain => r.plain takesInput argument
    | .long name value =>
      match options.find? (·.longName == name) with
      | none => .error .unknownArgument
      | some opt =>
        if opt.takesValue then r.option opt value
        else if value.isSome then .error .surplusValue
        else r.optionAlone opt
    | .short letter attached =>
      match options.find? (·.letter? == some letter) with
      | none => .error .unknownArgument
      | some opt =>
        if opt.takesValue then r.option opt (attachedValue? attached) else r.optionAlone opt

end Reader

/-- What the arguments after a command give. -/
def readArguments (arguments : List String) : Except UsageError Given := do
  let r ← arguments.foldlM (fun r argument => r.read options takesInput argument) ({} : Reader)
  r.pending.settle r.given

end Reading

/-- A command line that asks for something that can be done. -/
structure Invocation where
  command : Command
  tokenizer : String
  searchPaths : List String
  maxDepth : Nat
  grammar : Option String
  failOnWarning : Bool
  format : Format
  output : Option String
  input : Option String
  deriving DecidableEq

/-- What a command is to do with what was given; some of it has to be. -/
def Command.invocation (command : Command) (given : Given) : Except UsageError Invocation :=
  match given.tokenizer with
  | none => .error .missingArgument
  | some tokenizer =>
    if (command.needsGrammar && given.grammar.isNone) ||
        (command.takesInput && given.input.isNone) then .error .missingArgument
    else .ok
      { command := command
        tokenizer := tokenizer
        searchPaths := given.searchPaths
        maxDepth := given.maxDepth.getD defaultMaxDepth
        grammar := given.grammar
        failOnWarning := given.failOnWarning
        format := given.format.getD .tree
        output := given.output
        input := given.input }

/-- The end of a command line that asks for help about a command, or about all of them. -/
def helpOn : List String → UsageError
  | [] => .helpWanted
  | [command] =>
    if command = "help" ∨ (Command.ofName? command).isSome then .helpWanted else .unknownCommand
  | _ => .unknownCommand

/-- Read a command line from its first argument on, after dashes or not. -/
def readCommand (afterDashes : Bool) : List String → Except UsageError Invocation
  | [] => .error .nothingGiven
  | first :: rest =>
    if afterDashes then
      .error (if first = "help" ∨ (Command.ofName? first).isSome then .unknownArgument
        else .unknownCommand)
    else
      match Command.ofName? first with
      | some command => do
        command.invocation (← readArguments command.options command.takesInput rest)
      | none =>
        if first = "help" then .error (helpOn rest)
        else
          match Shape.of first with
          | .dashes => readCommand true rest
          | .plain => .error .unknownCommand
          | .long "help" none | .short 'h' _ => .error .helpWanted
          | .long "version" none | .short 'V' _ => .error .versionWanted
          | .long "help" (some _) | .long "version" (some _) => .error .surplusValue
          | _ => .error .unknownArgument

/-- What a command line asks for. -/
def Invocation.ofArguments (arguments : List String) : Except UsageError Invocation :=
  readCommand false arguments

end RuleScript.CommandLine
