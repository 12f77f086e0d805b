import Std.Time.DateTime.Timestamp
import CommodoreBasic.CommandLine

/-!
# The program

Runs a BASIC program on the terminal. Events are shown turn by turn. A turn that runs out of replies
is taken again once another line has been read, from the state before it, so that what it had shown
already is not shown again.
-/

namespace CommodoreBasic

/-- Shows the events after the first `seen`. -/
def showEvents (console : Console) (seen : Nat) : IO Unit := do
  let out ← IO.getStdout
  for event in console.events.toList.drop seen do
    out.putStr (CommandLine.display event)
  out.flush

/-- Reads a program file. -/
def readSource (file : String) : IO (Except CommandLine.FileError String) := do
  try
    let bytes ←
      if file == "-" then (← IO.getStdin).readBinToEnd else IO.FS.readBinFile file
    return CommandLine.decode bytes
  catch
    | .noFileOrDirectory .. => return .error .notFound
    | .inappropriateType _ code _ =>
      return .error (if code == 21 then .isDirectory else .notDirectory)
    | e => return .error (.other (toString e))

/-- Reads a line of input, if there is one. -/
def readReply : IO (Option Reply) := do
  try
    let line ← (← IO.getStdin).getLine
    return if line.isEmpty then none else some (CommandLine.reply line.toUTF8)
  catch _ => return some .unreadable

/-- The program waits for input. -/
def isWaiting : Except Error Unit → Bool
  | .error e => e.kind == .inputPastEnd
  | .ok () => false

/-- A clock that shows the present time, the machine having been started at `since` milliseconds. -/
def readClock (since : Nat) : IO Clock := do
  let ticks := ((← IO.monoMsNow) - since) * 60 / 1000
  let seconds := (← Std.Time.Timestamp.now).toSecondsSinceUnixEpoch.val
  return { now := { ticks, secondOfDay := (seconds % 86400).toNat } }

/-- A generator that nobody can foresee. -/
def seedRandom : IO Random := do
  return Random.ofSeed (← IO.getRandomBytes 8).toUInt64LE!

/-- Runs the machine, started at `since` milliseconds, to the end of its program. The first `seen`
events of the next turn have been shown. -/
partial def drive (since : Nat) (m : Machine) (seen : Nat) : IO (Except Error Unit) := do
  let clock ← readClock since
  let m := { m with memory := { m.memory with clock } }
  let before := if m.asksNext then some m else none
  match m.turn with
  | .running m => do
    showEvents m.console seen
    drive since { m with console := { m.console with events := #[] } } 0
  | .finished result m => do
    showEvents m.console seen
    match before, isWaiting result with
    | some before, true => do
      match ← readReply with
      | none => return result
      | some reply =>
        let replies := before.console.replies ++ [reply]
        let console := { before.console with replies }
        drive since { before with console } m.console.events.size
    | _, _ => return result

/-- Prints an error. -/
def complainOnTerminal (message : String) : IO UInt32 := do
  (← IO.getStderr).putStr (CommandLine.bold message)
  return 1

/-- Does what the arguments ask for. -/
def runCommand (environment : CommandLine.Environment) (arguments : List String) : IO UInt32 := do
  match CommandLine.readArguments? {} true arguments with
  | none => return 2
  | some .help => do
    (← IO.getStdout).putStr (CommandLine.help environment)
    return 0
  | some (.choice c) =>
    match c.order? environment with
    | none => return 2
    | some order =>
      match CommandLine.start order (← readSource order.file) [] with
      | .error message => complainOnTerminal message
      | .ok m =>
        let m := { m with random := ← seedRandom }
        match ← drive (← IO.monoMsNow) m 0 with
        | .ok () => return 0
        | .error e => complainOnTerminal e.message

end CommodoreBasic

/-- The entry point of the command. -/
def main (arguments : List String) : IO UInt32 := do
  let steps ← IO.getEnv CommodoreBasic.CommandLine.Limit.steps.environmentName
  let stack ← IO.getEnv CommodoreBasic.CommandLine.Limit.stack.environmentName
  let environment (name : String) : Option String :=
    if name == CommodoreBasic.CommandLine.Limit.steps.environmentName then steps else stack
  CommodoreBasic.runCommand environment arguments
