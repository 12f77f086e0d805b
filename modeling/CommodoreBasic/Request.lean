import CommodoreBasic.Action
import CommodoreBasic.Statement

/-!
# Requests

Statements and expressions reach variables, control flow and the console only through requests to
the machine that runs them. A handler says what a machine does with each request, so one definition
of the statements serves every machine, among them one that records what it was asked.
-/

namespace CommodoreBasic

/-- What a request is answered with: nothing, a value, or a line of input. -/
inductive Answer where
  | done
  | value
  | line
deriving DecidableEq, Repr

/-- The type of an answer. -/
abbrev Answer.Carrier : Answer → Type
  | done => Unit
  | value => Value
  | line => String

/-- What a statement may ask of the machine. -/
inductive Request : Answer → Type where
  | fetch (name : Name) : Request .value
  | store (name : Name) (value : Value) : Request .done
  | dimension (name : Name) (sizes : List Value) : Request .done
  | fetchElement (name : Name) (subscripts : List Value) : Request .value
  | storeElement (name : Name) (subscripts : List Value) (value : Value) : Request .done
  | read : Request .value
  | restore (line : Option LineNumber) : Request .done
  | print (text : String) : Request .done
  | printLine (text : String) : Request .done
  | ask (prompt : String) : Request .line
  | clearScreen : Request .done
  | jump (jump : Jump) (line : LineNumber) : Request .done
  | comeBack : Request .done
  | finish : Request .done
  | stop : Request .done
  | run (line : Option LineNumber) : Request .done
  | skipLine : Request .done
  | beginLoop (counter : Name) (start limit step : Float) : Request .done
  | nextLoop (counter : Option Name) : Request .done
  | define (function : String) (parameter : Name) (body : Expr) : Request .done
  | call (callee : Callee) (arguments : List Value) : Request .value

/-- What a machine with states `σ` does with each request. -/
abbrev Handler (σ : Type) : Type := (a : Answer) → Request a → Action σ a.Carrier

/-- A request together with its result. -/
structure Entry where
  answer : Answer
  request : Request answer
  result : Except Error answer.Carrier

/-- The handler that does what `h` does and keeps a record of it. -/
def Handler.recording {σ : Type} (h : Handler σ) : Handler (σ × Array Entry) :=
  fun answer request (s, entries) =>
    let (result, s) := h answer request s
    (result, (s, entries.push { answer, request, result }))

/-- Recording changes neither the result nor the state. -/
theorem Handler.recording_apply {σ : Type} (h : Handler σ) (a : Answer) (r : Request a) (s : σ)
    (entries : Array Entry) :
    let (result, (s', _)) := h.recording a r (s, entries)
    (result, s') = h a r s := rfl

end CommodoreBasic
