import CommodoreBasic.Action

/-!
# The console

All output of a program and all input to it pass through the console, which keeps a transcript. Its
input is given beforehand as a list of replies. The device may be absent during some calls, and the
BREAK key may be pressed during some; both are told by the number of the call, counted from one.
-/

namespace CommodoreBasic

/-- A line of input: a text, or bytes that are none. -/
inductive Reply where
  | line (text : String)
  | unreadable

/-- What passed through the console. -/
inductive Event where
  | print (text : String)
  | printLine (text : String)
  /-- A question and the reply, if there was one. -/
  | ask (prompt : String) (reply : Option String)
  | clear
  /-- A call while the device was absent. -/
  | failed
deriving DecidableEq, Repr

namespace Event

/-- The text that an event puts on the page, a new line included. -/
def output? : Event → Option String
  | print s => some s
  | printLine s => some (s ++ "\n")
  | _ => none

/-- The question that an event asks. -/
def prompt? : Event → Option String
  | ask prompt _ => some prompt
  | _ => none

end Event

/-- A console: the replies still to be given, the number of calls so far, their transcript, and what
happens during which calls. -/
structure Console where
  replies : List Reply := []
  calls : Nat := 0
  events : Array Event := #[]
  absent : Nat → Bool := fun _ => false
  pressesBreak : Nat → Bool := fun _ => false

namespace Console

instance : Inhabited Console := ⟨{}⟩

/-- A console with these lines as replies. -/
def ofLines (lines : List String) : Console := { replies := lines.map .line }

/-- Notes what happens in a call, or that the device was absent. -/
def call {α : Type} (act : List Reply → Event × Except Error α × List Reply) :
    Action Console α := fun c =>
  let calls := c.calls + 1
  if c.absent calls then
    (raise .deviceNotPresent, { c with calls, events := c.events.push .failed })
  else
    let (event, result, replies) := act c.replies
    (result, { c with calls, replies, events := c.events.push event })

/-- Prints a text. -/
def print (s : String) : Action Console Unit :=
  call fun replies => (.print s, .ok (), replies)

/-- Prints a text and ends the line. -/
def printLine (s : String) : Action Console Unit :=
  call fun replies => (.printLine s, .ok (), replies)

/-- Clears the screen. -/
def clear : Action Console Unit :=
  call fun replies => (.clear, .ok (), replies)

/-- Prints a question and takes the next reply. -/
def ask (prompt : String) : Action Console String :=
  call fun replies => match replies with
    | .line s :: rest => (.ask prompt (some s), .ok s, rest)
    | .unreadable :: rest => (.ask prompt none, raise .deviceNotPresent, rest)
    | [] => (.ask prompt none, raise .inputPastEnd, [])

/-- What was printed, call by call. -/
def outputs (c : Console) : List String := c.events.toList.filterMap Event.output?

/-- What was printed. -/
def output (c : Console) : String := String.join c.outputs

/-- What was asked, call by call. -/
def prompts (c : Console) : List String := c.events.toList.filterMap Event.prompt?

/-- How often the screen was cleared. -/
def clears (c : Console) : Nat := c.events.toList.countP (· == .clear)

/-- The console with new replies and an empty transcript. -/
def reload (c : Console) (lines : List String) : Console :=
  { c with replies := lines.map .line, events := #[] }

end Console

end CommodoreBasic
