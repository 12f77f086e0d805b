import CommodoreBasic.Machine.Run

/-!
# The command line

The command takes a program file, or `-` for a program on standard input, and may be given two
limits, each by an option or by an environment variable; the option wins. What is wrong with a
command line is not told apart: it is refused.
-/

namespace CommodoreBasic.CommandLine

/-- The limits that can be chosen. -/
inductive Limit where
  | steps
  | stack
deriving DecidableEq, Repr

namespace Limit

/-- The option for a limit. -/
def option : Limit → String
  | steps => "--max-steps"
  | stack => "--stack-limit"

/-- The environment variable for a limit. -/
def environmentName : Limit → String
  | steps => "BASIC_MAX_STEPS"
  | stack => "BASIC_STACK_LIMIT"

/-- The name of an option's value in the help text. -/
def placeholder : Limit → String
  | steps => "<MAX_STEPS>"
  | stack => "<STACK_LIMIT>"

/-- What a limit is for. -/
def purpose : Limit → String
  | steps => "Statements to execute before giving up with INFINITE LOOP (0 = unlimited)"
  | stack => "Deepest GOSUB or FOR nesting allowed"

/-- The limit if none is chosen. -/
def standard : Limit → Nat
  | steps => Machine.defaultStepLimit
  | stack => Machine.defaultStackLimit

/-- All limits, in the order of the help text. -/
def all : List Limit := [steps, stack]

/-- The limit that an option is for. -/
def ofOption? (s : String) : Option Limit := all.find? (·.option == s)

/-- The greatest limit. -/
def greatest : Nat := Nat.pow 2 64 - 1

/-- Reads a limit: decimal digits, which a plus sign may precede. -/
def read? (s : String) : Option Nat :=
  let digits := match s.toList with
    | '+' :: cs => cs
    | cs => cs
  if digits.isEmpty || !digits.all Char.isDigit then none
  else
    let n := Decimal.ofDigits digits
    if n ≤ greatest then some n else none

end Limit

/-- The values of environment variables. -/
abbrev Environment := String → Option String

/-- What has been chosen by the arguments so far. -/
structure Choice where
  file : Option String := none
  limits : List (Limit × Nat) := []

namespace Choice

/-- Chooses a limit, which must not have been chosen before. -/
def addLimit (c : Choice) (l : Limit) (value : String) : Option Choice := do
  guard (c.limits.lookup l).isNone
  let n ← Limit.read? value
  return { c with limits := (l, n) :: c.limits }

/-- Chooses the file, which must have a name and not have been chosen before. -/
def addFile (c : Choice) (file : String) : Option Choice := do
  guard (c.file.isNone && file != "")
  return { c with file := some file }

end Choice

/-- What the arguments ask for. -/
inductive Wish where
  | help
  | choice (c : Choice)

/-- The argument starts an option, as `-` alone does not. -/
def isOption (argument : String) : Bool :=
  match argument.toList with
  | '-' :: _ :: _ => true
  | _ => false

/-- An argument's name and the value behind an equals sign. -/
def splitValue (argument : String) : String × Option String :=
  match argument.toList.span (· != '=') with
  | (name, _ :: value) => (String.ofList name, some (String.ofList value))
  | (name, []) => (String.ofList name, none)

/-- Reads the arguments. After `--` none is an option. Nothing is given for arguments that are
refused. -/
def readArguments? (c : Choice) (options : Bool) : List String → Option Wish
  | [] => some (.choice c)
  | argument :: rest =>
    if !options || !isOption argument then do
      readArguments? (← c.addFile argument) options rest
    else if argument == "--" then readArguments? c false rest
    else if argument == "--help" || "-h".toList.isPrefixOf argument.toList then some .help
    else
      let (name, value) := splitValue argument
      match Limit.ofOption? name, value, rest with
      | some l, some value, rest => do readArguments? (← c.addLimit l value) options rest
      | some l, none, value :: rest => do
        guard !isOption value
        readArguments? (← c.addLimit l value) options rest
      | _, _, _ => none

/-- A run that has been ordered: the program file and the limits. -/
structure Order where
  file : String
  stepLimit : Nat
  stackLimit : Nat
deriving DecidableEq, Repr

/-- A limit, by option or by environment variable or by default. -/
def Choice.limit? (c : Choice) (environment : Environment) (l : Limit) : Option Nat :=
  match c.limits.lookup l, environment l.environmentName with
  | some n, _ => some n
  | none, some value => Limit.read? value
  | none, none => some l.standard

/-- The run that a choice orders. -/
def Choice.order? (c : Choice) (environment : Environment) : Option Order := do
  let stepLimit ← c.limit? environment .steps
  let stackLimit ← c.limit? environment .stack
  let file ← c.file
  return { file, stepLimit, stackLimit }

/-- Words laid out in lines of at most `width` characters, if no word is longer; `line` is the line
begun. -/
def fill (width : Nat) (line : String) : List String → List String
  | [] => [line]
  | word :: words =>
    if line.length + 1 + word.length ≤ width then fill width (line ++ " " ++ word) words
    else line :: fill width word words

/-- The width of the help text, and where its right column starts. -/
def helpWidth : Nat := 100

@[inherit_doc helpWidth] def helpColumn : Nat := 35

/-- A text with blanks after it up to the right column. -/
def padded (s : String) : String :=
  s ++ String.ofList (List.replicate (helpColumn - s.length) ' ')

/-- An option in the help text. -/
def Limit.help (environment : Environment) (l : Limit) : String :=
  let text := l.purpose ++ " [env: " ++ l.environmentName ++ "=" ++ (environment l.environmentName).getD "" ++
    "] [default: " ++ toString l.standard ++ "]"
  let lines := match text.splitOn " " with
    | word :: words => fill (helpWidth - helpColumn) word words
    | [] => []
  padded ("      " ++ l.option ++ " " ++ l.placeholder) ++
    String.intercalate ("\n" ++ padded "") lines ++ "\n"

/-- The help text. -/
def help (environment : Environment) : String :=
  "Run a Commodore 64 BASIC V2 program\n\nUsage: basic [OPTIONS] <FILE>\n\nArguments:\n" ++
    "  <FILE>  Program file, or `-` to read stdin\n\nOptions:\n" ++
    String.join (Limit.all.map (Limit.help environment)) ++
    padded "  -h, --help" ++ "Print help\n"

/-- Why a program file cannot be read. -/
inductive FileError where
  | notFound
  | notDirectory
  | isDirectory
  | notText
  | other (message : String)
deriving DecidableEq, Repr

/-- The words for a file error. -/
def FileError.message : FileError → String
  | notFound => "No such file or directory (os error 2)"
  | notDirectory => "Not a directory (os error 20)"
  | isDirectory => "Is a directory (os error 21)"
  | notText => "stream did not contain valid UTF-8"
  | other message => message

/-- The text of a file. -/
def decode (bytes : ByteArray) : Except FileError String :=
  match String.fromUTF8? bytes with
  | some s => .ok s
  | none => .error .notText

/-- A line of input without the characters that end it. -/
def reply (line : ByteArray) : Reply :=
  match String.fromUTF8? line with
  | some s => .line (String.ofList (Text.dropEndWhile Text.isLineEnd s.toList))
  | none => .unreadable

/-- Lines of bytes, each with its line feed if it has one; `reversed` is the line begun. -/
def splitBytes (reversed : List UInt8) : List UInt8 → List ByteArray
  | [] => if reversed.isEmpty then [] else [⟨reversed.reverse.toArray⟩]
  | b :: bs =>
    if b = 10 then ⟨(b :: reversed).reverse.toArray⟩ :: splitBytes [] bs
    else splitBytes (b :: reversed) bs

/-- The replies on standard input. -/
def replies (bytes : ByteArray) : List Reply := (splitBytes [] bytes.toList).map reply

/-- The machine about to run the program of an order, or the message that says why there is none. -/
def start (order : Order) (source : Except FileError String) (replies : List Reply) :
    Except String Machine := do
  let source ← source.mapError fun e => order.file ++ ": " ++ e.message
  let program ← (Program.parse source).mapError Error.message
  return (Machine.new { replies } order.stepLimit order.stackLimit).load program

/-- A message in bold on a line of its own. -/
def bold (message : String) : String := "\x1b[1m" ++ message ++ "\x1b[0m\n"

/-- What an event puts on the terminal. -/
def display : Event → String
  | .print s => s
  | .printLine s => s ++ "\n"
  | .ask prompt _ => prompt
  | .clear => "\x1b[2J\x1b[H"
  | .failed => ""

end CommodoreBasic.CommandLine
