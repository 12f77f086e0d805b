import Mathlib.Data.List.TakeWhile
import CommodoreBasic.Machine.Perform
import CommodoreBasic.Proofs.Agreement

/-!
# The stack of loops

FOR and NEXT find a loop by its counter through positions in the stack. Here the same is said of the
list of loops, innermost first: FOR drops the loop over its counter with all loops in it, and NEXT
goes on with the first loop that has its counter, or with the innermost.
-/

namespace CommodoreBasic

/-- The loops around the one over `counter`, a folded name; all of them if there is no such loop. -/
def Loop.around (counter : Name) (loops : List Loop) : List Loop :=
  match loops.dropWhile (·.counter != counter) with
  | [] => loops
  | _ :: outer => outer

/-- The loops from the one that NEXT steps outward, if there is one. -/
def Loop.steppedBy : Option Name → List Loop → List Loop
  | some n, loops => loops.dropWhile (·.counter != n.fold)
  | none, loops => loops

namespace Loop

/-- Entering a loop drops loops and adds none. -/
theorem around_sublist (counter : Name) (loops : List Loop) :
    (around counter loops).Sublist loops := by
  unfold around
  split
  · exact List.Sublist.refl loops
  case h_2 l outer hdrop =>
    have hsub : (l :: outer).Sublist loops := hdrop ▸ List.dropWhile_sublist _
    exact (List.sublist_cons_self l outer).trans hsub

/-- FOR leaves no loop if none runs over its counter. -/
theorem around_of_notMem {counter : Name} {loops : List Loop}
    (h : counter ∉ loops.map Loop.counter) : around counter loops = loops := by
  have hdrop : loops.dropWhile (·.counter != counter) = [] := by
    refine List.dropWhile_eq_nil_iff.mpr fun l hl => bne_iff_ne.mpr fun heq => h ?_
    exact heq ▸ List.mem_map_of_mem hl
  unfold around
  rw [hdrop]

/-- If no two loops have one counter, none is left over the counter that FOR starts over. -/
theorem counter_notMem_around (counter : Name) {loops : List Loop}
    (hnodup : (loops.map Loop.counter).Nodup) :
    counter ∉ (around counter loops).map Loop.counter := by
  unfold around
  split
  case h_1 hdrop =>
    intro hmem
    obtain ⟨l, hl, rfl⟩ := List.mem_map.mp hmem
    exact bne_iff_ne.mp (List.dropWhile_eq_nil_iff.mp hdrop l hl) rfl
  case h_2 l outer hdrop =>
    have hsub : ((l :: outer).map Loop.counter).Sublist (loops.map Loop.counter) :=
      (hdrop ▸ List.dropWhile_sublist _ : (l :: outer).Sublist loops).map _
    have hl : l.counter = counter := by
      have := List.head_dropWhile_not (fun l : Loop => l.counter != counter) (l := loops)
        (by rw [hdrop]; exact List.cons_ne_nil l outer)
      simpa [hdrop] using this
    have hhead := (List.nodup_cons.mp (hnodup.sublist hsub)).1
    rwa [hl] at hhead

/-- NEXT drops loops and adds none. -/
theorem steppedBy_sublist (counter : Option Name) (loops : List Loop) :
    (steppedBy counter loops).Sublist loops := by
  cases counter with
  | none => exact List.Sublist.refl loops
  | some n => exact List.dropWhile_sublist _

end Loop

namespace Stack

variable {α : Type}

/-- A new entry is the first of the stack. -/
theorem items_of_push {s t : Stack α} {a : α} (h : s.push a = .ok t) :
    t.items = a :: s.items := by
  unfold push at h
  split at h <;> cases h
  rfl

/-- Cutting at a height keeps as many of the lowest entries. -/
theorem truncate_of_append {s : Stack α} {upper lower : List α} (h : s.items = upper ++ lower) :
    s.truncate lower.length = { s with items := lower } := by
  simp only [truncate, size, h, List.length_append, Nat.add_sub_cancel, List.drop_left]

/-- The topmost entry with a property, in terms of the entries from the top down. -/
theorem topmost?_eq (s : Stack α) (p : α → Bool) :
    s.topmost? p = (s.items.dropWhile (fun a => !p a)).tail?.map List.length := by
  unfold topmost? size
  induction s.items with
  | nil => rfl
  | cons a as ih =>
    cases hp : p a
    · rw [List.findIdx?_cons, hp, List.dropWhile_cons_of_pos (by simp [hp]), ← ih]
      cases as.findIdx? p with
      | none => simp
      | some i =>
        have hsub : as.length - (i + 1) = as.length - 1 - i := by omega
        simp [hsub]
    · simp [List.findIdx?_cons, hp]

end Stack

namespace Machine

variable {m : Machine} {counter : Name}

/-- A loop over the counter is looked for from the innermost on. -/
theorem loopOver?_eq (m : Machine) (counter : Name) :
    m.loopOver? counter =
      (m.loops.items.dropWhile (·.counter != counter)).tail?.map List.length :=
  Stack.topmost?_eq m.loops (·.counter == counter)

/-- FOR leaves the loop over its counter. -/
theorem leaveLoop_eq (m : Machine) (counter : Name) :
    m.leaveLoop counter =
      { m with loops := { m.loops with items := Loop.around counter m.loops.items } } := by
  unfold leaveLoop Loop.around
  rw [loopOver?_eq]
  cases hdrop : m.loops.items.dropWhile (·.counter != counter) with
  | nil => rfl
  | cons l outer =>
    have hsplit : m.loops.items =
        (m.loops.items.takeWhile (·.counter != counter) ++ [l]) ++ outer := by
      rw [List.append_assoc, List.singleton_append, ← hdrop, List.takeWhile_append_dropWhile]
    rw [List.tail?_cons, Option.map_some]
    dsimp only
    rw [Stack.truncate_of_append hsplit]

/-- NEXT goes on with a loop that runs over its counter, or with the innermost loop. -/
theorem selectLoop_eq (counter : Option Name) (m : Machine) :
    selectLoop counter m = match Loop.steppedBy counter m.loops.items with
      | [] => (raise .nextWithoutFor, m)
      | l :: outer => (.ok l, { m with loops := { m.loops with items := l :: outer } }) := by
  cases counter with
  | none =>
    unfold selectLoop Loop.steppedBy
    cases hitems : m.loops.items with
    | nil => simp [Stack.size, hitems]
    | cons l outer =>
      have hsize : m.loops.size = outer.length + 1 := by rw [Stack.size, hitems, List.length_cons]
      have htruncate : m.loops.truncate (outer.length + 1) = m.loops := by
        rw [← hsize, Stack.truncate, Nat.sub_self, List.drop_zero]
      simp only [hsize, if_neg (Nat.succ_ne_zero outer.length), Nat.add_sub_cancel, htruncate,
        Stack.top?, hitems, List.head?_cons]
      rw [← hitems]
  | some n =>
    unfold selectLoop Loop.steppedBy
    dsimp only
    rw [loopOver?_eq]
    cases hdrop : m.loops.items.dropWhile (·.counter != n.fold) with
    | nil => rfl
    | cons l outer =>
      have hsplit : m.loops.items =
          m.loops.items.takeWhile (·.counter != n.fold) ++ (l :: outer) := by
        rw [← hdrop, List.takeWhile_append_dropWhile]
      have htruncate := Stack.truncate_of_append hsplit
      rw [List.length_cons] at htruncate
      rw [List.tail?_cons, Option.map_some]
      dsimp only
      rw [htruncate]
      rfl

/-- The machine that has left the loop over a counter, with new contents of its memory. -/
def outsideLoop (m : Machine) (counter : Name) (memory : Memory) : Machine :=
  { m with
    memory
    loops := { m.loops with items := Loop.around counter.fold m.loops.items } }

/-- FOR with the search for its loop written out. -/
theorem beginLoop_eq (counter : Name) (start limit step : Float) (m : Machine) :
    beginLoop counter start limit step m =
      if step == 0 then (raise .illegalQuantity, m)
      else match Memory.store counter.fold (.number start) m.memory with
        | (.error e, memory) => (.error e, m.outsideLoop counter memory)
        | (.ok (), memory) =>
          enterLoop counter.fold start limit step (m.outsideLoop counter memory) := by
  unfold beginLoop
  cases hstep : step == 0
  · simp only [Bool.false_eq_true, ↓reduceIte, Action.bind_apply, Action.modify, leaveLoop_eq,
      onMemory]
    rcases Memory.store counter.fold (.number start) m.memory with ⟨_ | ⟨⟨⟩⟩, memory⟩ <;> rfl
  · rfl

/-- Stepping the innermost loop, with what becomes of the stack. -/
theorem stepLoop_eq {l : Loop} {outer : List Loop} (h : m.loops.items = l :: outer) :
    stepLoop l m = match m.memory.fetch l.counter with
      | .text _ => (raise .typeMismatch, m)
      | .number x =>
        if l.continues (x + l.step) then
          match Memory.store l.counter (.number (x + l.step)) m.memory with
          | (.error e, memory) => (.error e, { m with memory })
          | (.ok (), memory) => (.ok (), { m with memory }.jumpTo l.resume)
        else (.ok (), { m with loops := { m.loops with items := outer } }) := by
  have htruncate : m.loops.truncate (m.loops.size - 1) = { m.loops with items := outer } := by
    have hsplit : m.loops.items = [l] ++ outer := h
    rw [← Stack.truncate_of_append hsplit, Stack.size, h, List.length_cons, Nat.add_sub_cancel]
  unfold stepLoop
  cases m.memory.fetch l.counter with
  | text s => rfl
  | number x =>
    simp only [Action.bind_apply, onMemory, Action.modify, endLoop, htruncate]
    split
    · rcases Memory.store l.counter (.number (x + l.step)) m.memory with ⟨_ | ⟨⟨⟩⟩, memory⟩ <;> rfl
    · rfl

/-- NEXT with the search for its loop written out. -/
theorem nextLoop_eq (counter : Option Name) (m : Machine) :
    nextLoop counter m = match Loop.steppedBy counter m.loops.items with
      | [] => (raise .nextWithoutFor, m)
      | l :: outer => stepLoop l { m with loops := { m.loops with items := l :: outer } } := by
  unfold nextLoop
  rw [Action.bind_apply, selectLoop_eq]
  cases Loop.steppedBy counter m.loops.items <;> rfl

/-! What FOR and NEXT leave alone, whether they fail or not. -/

/-- Entering a loop touches the loops, the cursor and the flow only. -/
theorem enterLoop_state (counter : Name) (start limit step : Float) (m : Machine) :
    ∃ loops cursor flow,
      (enterLoop counter start limit step m).2 = { m with loops, cursor, flow } := by
  unfold enterLoop
  dsimp only
  split <;> split <;> exact ⟨_, _, _, rfl⟩

/-- FOR also stores its counter. -/
theorem beginLoop_state (counter : Name) (start limit step : Float) (m : Machine) :
    ∃ memory loops cursor flow,
      (beginLoop counter start limit step m).2 = { m with memory, loops, cursor, flow } := by
  rw [beginLoop_eq]
  split
  · exact ⟨_, _, _, _, rfl⟩
  · split
    · exact ⟨_, _, _, _, rfl⟩
    case h_2 memory _ =>
      obtain ⟨loops, cursor, flow, hstate⟩ :=
        enterLoop_state counter.fold start limit step (m.outsideLoop counter memory)
      exact ⟨memory, loops, cursor, flow, hstate⟩

/-- So does NEXT. -/
theorem nextLoop_state (counter : Option Name) (m : Machine) :
    ∃ memory loops cursor flow,
      (nextLoop counter m).2 = { m with memory, loops, cursor, flow } := by
  rw [nextLoop_eq]
  cases Loop.steppedBy counter m.loops.items with
  | nil => exact ⟨_, _, _, _, rfl⟩
  | cons l outer =>
    dsimp only
    rw [stepLoop_eq rfl]
    split
    · exact ⟨_, _, _, _, rfl⟩
    · split
      · split <;> exact ⟨_, _, _, _, rfl⟩
      · exact ⟨_, _, _, _, rfl⟩

end Machine

end CommodoreBasic
