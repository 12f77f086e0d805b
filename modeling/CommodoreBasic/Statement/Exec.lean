import CommodoreBasic.Statement.Input
import CommodoreBasic.Statement.Print

/-!
# What statements do

`Statement.exec` gives the meaning of a statement as requests to the machine. Control flow is
requested too: a statement never fails in order to jump.
-/

namespace CommodoreBasic

namespace Statement

/-- The line that ON chooses: `x` without its fraction counts from one, and zero or more than there
are lines chooses none. -/
def chosen (x : Float) (lines : List LineNumber) : Except Error (Option LineNumber) :=
  if x.isNaN then .ok none
  else match Number.truncate? x with
    | some n =>
      if n < 0 ∨ 255 < n then raise .illegalQuantity
      else match n.toNat with
        | 0 => .ok none
        | i + 1 => .ok lines[i]?
    | none => raise .illegalQuantity

variable {σ : Type}

/-- Carries out a statement. INPUT takes at most `patience` replies. -/
def exec (h : Handler σ) (patience : Nat) : Statement → Action σ Unit
  | assign (.scalar n) e => do
    let v ← e.eval h
    h .done (.store n v)
  | assign (.element n es) e => do
    let vs ← Expr.evalAll h es
    let v ← e.eval h
    h .done (.storeElement n vs v)
  | data _ => pure ()
  | define f parameter body => h .done (.define f parameter body)
  | dimension arrays => arrays.forM fun (n, es) => do
    let vs ← Expr.evalAll h es
    h .done (.dimension n vs)
  | finish => h .done .finish
  | loop counter start limit step => do
    let a ← start.evalNumber h
    let b ← limit.evalNumber h
    let s ← match step with
      | some e => e.evalNumber h
      | none => pure 1
    h .done (.beginLoop counter a b s)
  | jump j line => h .done (.jump j line)
  | ifThen condition s => do
    let v ← condition.eval h
    if v.isTrue then s.exec h patience else h .done .skipLine
  | input prompt targets => inputAll h patience prompt targets
  | next counter => h .done (.nextLoop counter)
  | on selector j lines => do
    let x ← selector.evalNumber h
    match ← Action.ofExcept (chosen x lines) with
    | some line => h .done (.jump j line)
    | none => pure ()
  | print items newline => printFrom h newline "" none items
  | read targets => targets.forM fun t => do
    let v ← h .value .read
    t.store h v
  | remark => pure ()
  | restore line => h .done (.restore line)
  | comeBack => h .done .comeBack
  | run line => h .done (.run line)
  | stop => h .done .stop

/-- Carries out statements one after the other, up to the first that fails. Jumps among them have no
effect on which comes next. -/
def execAll (h : Handler σ) (patience : σ → Nat) (ss : List Statement) : Action σ Unit :=
  ss.forM fun s state => s.exec h (patience state) state

end Statement

end CommodoreBasic
