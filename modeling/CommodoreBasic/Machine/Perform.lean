import CommodoreBasic.Expr.Eval
import CommodoreBasic.Machine

/-!
# What the machine does with requests

`Machine.perform` is the handler of the machine. Built-in functions and memory do their own work; the
control requests are here. The body of a user function is evaluated by a handler with less room for
calls, so that recursion ends.
-/

namespace CommodoreBasic.Machine

variable {α : Type}

/-- An action on the memory. -/
def onMemory (act : Action Memory α) : Action Machine α := fun m =>
  let memory := m.memory
  let m := { m with memory := {} }
  let (result, memory) := act memory
  (result, { m with memory })

/-- An action on the random generator. -/
def onRandom (act : Action Random α) : Action Machine α := fun m =>
  let (result, random) := act m.random
  (result, { m with random })

/-- A call of the console, during which the BREAK key may be pressed. -/
def onConsole (act : Action Console α) : Action Machine α := fun m =>
  let console := m.console
  let pressed := console.pressesBreak (console.calls + 1)
  let m := { m with console := {}, interrupted := m.interrupted || pressed }
  let (result, console) := act console
  (result, { m with console })

/-- Where a line stands that is jumped to by its number. -/
def findLine (n : LineNumber) : Action Machine Nat := fun m =>
  match m.program.indexOf? n with
  | some i => (.ok i, m)
  | none => (raise .undefinedStatement, m)

/-- Takes the next DATA item. -/
def readData : Action Machine Value := fun m =>
  match m.data.read? with
  | some (v, data) => (.ok v, { m with data })
  | none => (raise .outOfData, m)

/-- Lets DATA be read from the start, or from a line on. -/
def restoreData (line : Option LineNumber) : Action Machine Unit :=
  Action.modify fun m =>
    { m with data := match line with
      | some n => m.data.restore n
      | none => m.data.rewind }

/-- Goes on at a line. -/
def goto (n : LineNumber) : Action Machine Unit := do
  let i ← findLine n
  Action.modify (·.jumpToLine i)

/-- Goes on at the line with index `i`, to come back to the line after this one. -/
def enterSubroutine (i : Nat) : Action Machine Unit := fun m =>
  match m.returns.push (m.cursor.line + 1) with
  | .ok returns => (.ok (), { m with returns }.jumpToLine i)
  | .error e => (.error e, m)

/-- Goes on at a line, to come back to the line after this one. -/
def gosub (n : LineNumber) : Action Machine Unit := do
  let i ← findLine n
  enterSubroutine i

/-- Comes back from a subroutine. -/
def comeBack : Action Machine Unit := fun m =>
  match m.returns.pop? with
  | some (i, returns) => (.ok (), { m with returns }.jumpToLine i)
  | none => (raise .returnWithoutGosub, m)

/-- Ends the program. -/
def finish : Action Machine Unit := Action.modify ({ · with flow := .halted })

/-- What STOP prints. -/
def stopMessage (m : Machine) : String :=
  match m.program.lines[m.cursor.line]? with
  | some line => "BREAK IN " ++ toString line.number
  | none => "BREAK"

/-- Ends the program and says where. -/
def stop : Action Machine Unit := do
  fun m => onConsole (Console.printLine m.stopMessage) m
  finish

/-- Clears the machine and goes on at a line, or at the start. -/
def run (line : Option LineNumber) : Action Machine Unit := do
  let i ← match line with
    | some n => findLine n
    | none => pure 0
  Action.modify fun m => m.clear.jumpToLine i

/-- Passes over the rest of the line. -/
def skipLine : Action Machine Unit := Action.modify fun m => m.jumpToLine (m.cursor.line + 1)

/-- Where a loop over `counter`, a folded name, runs. -/
def loopOver? (m : Machine) (counter : Name) : Option Nat :=
  m.loops.topmost? (·.counter == counter)

/-- Leaves the loop over `counter` and all loops in it, if it runs. -/
def leaveLoop (m : Machine) (counter : Name) : Machine :=
  match m.loopOver? counter with
  | some i => { m with loops := m.loops.truncate i }
  | none => m

/-- Starts a loop at the cursor, or passes it over if its counter starts beyond the limit. -/
def enterLoop (counter : Name) (start limit step : Float) : Action Machine Unit := fun m =>
  let resume := { m.cursor with statement := m.cursor.statement + 1 }
  let loop : Loop := { counter, limit, step, resume }
  if loop.continues start then
    match m.loops.push loop with
    | .ok loops => (.ok (), { m with loops })
    | .error e => (.error e, m)
  else match m.program.loopExit? m.cursor with
    | some pos => (.ok (), m.jumpTo pos)
    | none => (raise .forWithoutNext, m)

/-- Sets the counter of a loop and enters the loop. A loop that runs over the same counter is left. -/
def beginLoop (counter : Name) (start limit step : Float) : Action Machine Unit := do
  if step == 0 then raise .illegalQuantity
  let counter := counter.fold
  Action.modify (·.leaveLoop counter)
  onMemory (Memory.store counter (.number start))
  enterLoop counter start limit step

/-- Makes the loop over a counter, or the innermost if none is named, the innermost. -/
def selectLoop (counter : Option Name) : Action Machine Loop := fun m =>
  let index := match counter with
    | some n => m.loopOver? n.fold
    | none => if m.loops.size = 0 then none else some (m.loops.size - 1)
  match index with
  | some i =>
    let loops := m.loops.truncate (i + 1)
    match loops.top? with
    | some loop => (.ok loop, { m with loops })
    | none => (raise .nextWithoutFor, m)
  | none => (raise .nextWithoutFor, m)

/-- Ends the innermost loop. -/
def endLoop (m : Machine) : Machine := { m with loops := m.loops.truncate (m.loops.size - 1) }

/-- Steps the innermost loop, which is `loop`. The counter keeps its last value within the limit when
the loop ends. -/
def stepLoop (loop : Loop) : Action Machine Unit := fun m =>
  match m.memory.fetch loop.counter with
  | .text _ => (raise .typeMismatch, m)
  | .number x =>
    let x := x + loop.step
    if loop.continues x then
      let act : Action Machine Unit := do
        onMemory (Memory.store loop.counter (.number x))
        Action.modify (·.jumpTo loop.resume)
      act m
    else (.ok (), m.endLoop)

/-- Steps a loop and leaves the loops in it. -/
def nextLoop (counter : Option Name) : Action Machine Unit := do
  let loop ← selectLoop counter
  stepLoop loop

/-- Defines a function, also over one of the same name. -/
def define (function : String) (parameter : Name) (body : Expr) : Action Machine Unit :=
  Action.modify fun m =>
    { m with functions := m.functions.insert function { parameter, body } }

/-- What the machine does with a request, if `callUser` is how it calls user functions. -/
def answer (callUser : String → List Value → Action Machine Value) : Handler Machine
  | _, .fetch n => fun m => (.ok (m.memory.fetch n), m)
  | _, .store n v => onMemory (Memory.store n v)
  | _, .dimension n sizes => onMemory (Memory.dimension n sizes)
  | _, .fetchElement n subscripts => onMemory (Memory.fetchElement n subscripts)
  | _, .storeElement n subscripts v => onMemory (Memory.storeElement n subscripts v)
  | _, .read => readData
  | _, .restore line => restoreData line
  | _, .print s => onConsole (Console.print s)
  | _, .printLine s => onConsole (Console.printLine s)
  | _, .ask prompt => onConsole (Console.ask prompt)
  | _, .clearScreen => onConsole Console.clear
  | _, .jump .goto n => goto n
  | _, .jump .gosub n => gosub n
  | _, .comeBack => comeBack
  | _, .finish => finish
  | _, .stop => stop
  | _, .run line => run line
  | _, .skipLine => skipLine
  | _, .beginLoop counter start limit step => beginLoop counter start limit step
  | _, .nextLoop counter => nextLoop counter
  | _, .define f parameter body => define f parameter body
  | _, .call (.builtin f) arguments => onRandom (f.apply arguments)
  | _, .call (.user f) arguments => callUser f arguments

/-- The function with this name and the argument for it, if they suit each other. -/
def resolveCall (function : String) (arguments : List Value) : Action Machine (UserFunction × Value) :=
  fun m =>
    match m.functions[function]?, arguments with
    | none, _ => (raise .undefinedFunction, m)
    | some f, [v] => if v.fits f.parameter then (.ok (f, v), m) else (raise .typeMismatch, m)
    | some _, _ => (raise .syntaxError, m)

/-- Evaluates with a variable set for the time being. If the variable cannot be set back, that is the
error. -/
def withVariable (n : Name) (v : Value) (act : Action Machine α) : Action Machine α := fun m =>
  let saved := m.memory.fetch n
  match onMemory (Memory.store n v) m with
  | (.error e, m) => (.error e, m)
  | (.ok (), m) =>
    let (result, m) := act m
    match onMemory (Memory.store n saved) m with
    | (.ok (), m) => (result, m)
    | (.error e, m) => (.error e, m)

/-- Evaluates with one more user function being called. -/
def nested (act : Action Machine α) : Action Machine α := fun m =>
  let (result, m) := act { m with depth := m.depth + 1 }
  (result, { m with depth := m.depth - 1 })

/-- Calls a user function, with room for `room` calls in one another. -/
def callUser : (room : Nat) → (function : String) → List Value → Action Machine Value
  | 0, function, arguments => do
    let _ ← resolveCall function arguments
    raise .stackOverflow
  | room + 1, function, arguments => do
    let (f, v) ← resolveCall function arguments
    withVariable f.parameter v (nested (f.body.eval (answer (callUser room))))

/-- What the machine does with a request. There is room for as many calls in one another as the stack
limit allows beyond those that are going on. -/
def perform : Handler Machine := fun a r m => answer (callUser (m.returns.limit - m.depth)) a r m

/-- Calls a function by its name. -/
def callByName (name : String) (arguments : List Value) : Action Machine Value :=
  match Callee.ofName? name with
  | some callee => perform .value (.call callee arguments)
  | none => raise .undefinedFunction

end CommodoreBasic.Machine
