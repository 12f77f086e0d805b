import CommodoreBasic.Error

/-!
# Stacks with a limit

A stack of at most `limit` entries. Positions in it are counted from the bottom, so that they stay
the same while entries come and go above them.
-/

namespace CommodoreBasic

/-- Entries, topmost first, and how many of them there may be. -/
structure Stack (α : Type) where
  limit : Nat
  items : List α := []

namespace Stack

variable {α : Type}

/-- The number of entries. -/
def size (s : Stack α) : Nat := s.items.length

/-- Puts an entry on top, unless the stack is full. -/
def push (s : Stack α) (a : α) : Except Error (Stack α) :=
  if s.size < s.limit then .ok { s with items := a :: s.items } else raise .stackOverflow

/-- The topmost entry. -/
def top? (s : Stack α) : Option α := s.items.head?

/-- The topmost entry, and the stack without it. -/
def pop? (s : Stack α) : Option (α × Stack α) :=
  match s.items with
  | [] => none
  | a :: rest => some (a, { s with items := rest })

/-- The stack without its entries. -/
def clear (s : Stack α) : Stack α := { s with items := [] }

/-- The lowest `n` entries. -/
def truncate (s : Stack α) (n : Nat) : Stack α :=
  { s with items := s.items.drop (s.size - n) }

/-- The position of the topmost entry with property `p`. -/
def topmost? (s : Stack α) (p : α → Bool) : Option Nat :=
  (s.items.findIdx? p).map fun i => s.size - 1 - i

/-- The entries from the bottom up. -/
def toList (s : Stack α) : List α := s.items.reverse

/-- A stack stays within its limit. -/
theorem size_le_of_push {s t : Stack α} {a : α} (h : s.push a = .ok t) : t.size ≤ t.limit := by
  unfold push at h
  split at h
  case isTrue hroom =>
    cases h
    exact hroom
  case isFalse => cases h

end Stack

end CommodoreBasic
