import CommodoreBasic.Proofs.Positions

/-!
# The NEXT of a loop

Where a loop ends is found by reading on from its FOR. A NEXT that names the counter ends the search at
any depth, one without a name only if no loop on the way is open. So the NEXT that is found need not
close the loop in general. It does if the statements in between are well-nested and no loop among them
runs over the same counter: then every loop on the way raises the depth by one and lowers it again,
whether its NEXT names its counter or not.
-/

namespace CommodoreBasic

/-- FOR and NEXT, the statements on which it depends where a loop ends. -/
def Statement.isLoopPart : Statement → Bool
  | loop .. | next _ => true
  | _ => false

/-- Statements without loop parts, and loops that are closed within them, none of these over `counter`,
a folded name. A loop may name its counter again at its end, in any spelling. -/
inductive WellNested (counter : Name) : List Statement → Prop where
  | nil : WellNested counter []
  | plain {s : Statement} {rest : List Statement} (hs : s.isLoopPart = false)
      (hrest : WellNested counter rest) : WellNested counter (s :: rest)
  | loop {inner : Name} {start limit : Expr} {step : Option Expr} {closing : Option Name}
      {body rest : List Statement} (hinner : inner.fold ≠ counter)
      (hclosing : ∀ n ∈ closing, n.fold = inner.fold) (hbody : WellNested counter body)
      (hrest : WellNested counter rest) :
      WellNested counter (.loop inner start limit step :: (body ++ .next closing :: rest))

namespace Program

variable {counter : Name}

/-- A statement that is no part of a loop is passed over. -/
theorem closingNext?_plain {s : Statement} (hs : s.isLoopPart = false) (depth : Nat) (pos : Position)
    (rest : List (Position × Statement)) :
    closingNext? counter depth ((pos, s) :: rest) = closingNext? counter depth rest := by
  cases s <;> first | rfl | cases hs

/-- A NEXT that does not name the counter closes one of the loops that are open. -/
theorem closingNext?_next {closing : Option Name} (hclosing : ∀ n ∈ closing, n.fold ≠ counter)
    (depth : Nat) (pos : Position) (rest : List (Position × Statement)) :
    closingNext? counter (depth + 1) ((pos, .next closing) :: rest) =
      closingNext? counter depth rest := by
  cases closing with
  | none => rfl
  | some n => rw [closingNext?, if_neg (hclosing n rfl), Nat.add_sub_cancel]

/-- Outside of all loops on the way the search ends at a NEXT without a name or with that of the
counter. -/
theorem closingNext?_close {closing : Option Name} (hclosing : ∀ n ∈ closing, n.fold = counter)
    (pos : Position) (rest : List (Position × Statement)) :
    closingNext? counter 0 ((pos, .next closing) :: rest) = some pos := by
  cases closing with
  | none => rfl
  | some n => rw [closingNext?, if_pos (hclosing n rfl)]

/-- The search passes over well-nested statements at any depth. -/
theorem closingNext?_wellNested {ss : List Statement} (h : WellNested counter ss) (depth : Nat)
    {segment : List (Position × Statement)} (hsegment : segment.map Prod.snd = ss)
    (after : List (Position × Statement)) :
    closingNext? counter depth (segment ++ after) = closingNext? counter depth after := by
  induction h generalizing depth segment after with
  | nil =>
    obtain rfl := List.map_eq_nil_iff.mp hsegment
    rfl
  | plain hs _ ih =>
    obtain ⟨⟨pos, s⟩, tail, rfl, rfl, htail⟩ := List.map_eq_cons_iff.mp hsegment
    exact (closingNext?_plain hs depth pos _).trans (ih depth htail after)
  | @loop _ _ _ _ closing _ _ hinner hclosing _ _ ihBody ihRest =>
    obtain ⟨⟨start, _⟩, tail, rfl, rfl, htail⟩ := List.map_eq_cons_iff.mp hsegment
    obtain ⟨body, second, rfl, hbody, hsecond⟩ := List.map_eq_append_iff.mp htail
    obtain ⟨⟨close, _⟩, rest, rfl, rfl, hrest⟩ := List.map_eq_cons_iff.mp hsecond
    have hother : ∀ n ∈ closing, n.fold ≠ counter := fun n hn => by rw [hclosing n hn]; exact hinner
    calc closingNext? counter depth _
        = closingNext? counter (depth + 1) (body ++ ((close, .next closing) :: (rest ++ after))) := by
          simp only [List.cons_append, List.append_assoc, closingNext?]
      _ = closingNext? counter (depth + 1) ((close, .next closing) :: (rest ++ after)) :=
          ihBody (depth + 1) hbody _
      _ = closingNext? counter depth (rest ++ after) := closingNext?_next hother depth close _
      _ = closingNext? counter depth after := ihRest depth hrest after

/-- The NEXT behind a well-nested body is the one that is found. -/
theorem closingNext?_body {body after : List (Position × Statement)} {close : Position}
    {closing : Option Name} (hbody : WellNested counter (body.map Prod.snd))
    (hclosing : ∀ n ∈ closing, n.fold = counter) :
    closingNext? counter 0 (body ++ (close, .next closing) :: after) = some close := by
  rw [closingNext?_wellNested hbody 0 rfl, closingNext?_close hclosing]

/-- Only a NEXT is found. -/
theorem closingNext?_eq_none {rest : List (Position × Statement)}
    (h : ∀ x ∈ rest, ∀ closing, x.2 ≠ .next closing) (depth : Nat) :
    closingNext? counter depth rest = none := by
  induction rest generalizing depth with
  | nil => rfl
  | cons x rest ih =>
    obtain ⟨pos, s⟩ := x
    obtain ⟨hs, hrest⟩ := List.forall_mem_cons.mp h
    cases s with
    | next closing => exact absurd rfl (hs closing)
    | _ => exact ih hrest _

/-- Where a loop of the program goes on if it does not run. If the statements behind its FOR, without
the IFs they stand under, are a well-nested body and a NEXT that has no name or that of the counter, it
goes on just behind this NEXT. If no NEXT comes after its FOR, it cannot go on. -/
theorem loopExit?_matching (p : Program) (before rest : List (Position × Statement)) (pos : Position)
    (counter : Name) (start limit : Expr) (step : Option Expr)
    (hflatten : p.flatten = before ++ (pos, .loop counter start limit step) :: rest) :
    (∀ (body : List (Position × Statement)) (close : Position) (closing : Option Name)
        (after : List (Position × Statement)),
        rest = body ++ (close, .next closing) :: after →
        WellNested counter.fold (body.map Prod.snd) → (∀ n ∈ closing, n.fold = counter.fold) →
        p.loopExit? pos = some { line := close.line, statement := close.statement + 1 }) ∧
      ((∀ x ∈ rest, ∀ closing, x.2 ≠ .next closing) → p.loopExit? pos = none) := by
  have hpos : p.flatten[before.length]? = some (pos, .loop counter start limit step) := by
    rw [hflatten, List.getElem?_append_right (Nat.le_refl _), Nat.sub_self]
    rfl
  have hexit : p.loopExit? pos = (closingNext? counter.fold 0 rest).map Position.next := by
    have hrest : p.flatten.drop (before.length + 1) = rest := by
      rw [hflatten, ← List.drop_drop, List.drop_left]
      rfl
    rw [loopExit?_eq hpos, hrest]
  refine ⟨?_, fun hnone => ?_⟩
  · rintro body close closing after rfl hbody hclosing
    rw [hexit, closingNext?_body hbody hclosing]
    rfl
  · rw [hexit, closingNext?_eq_none hnone, Option.map_none]

/-- A loop with another in it that stands under an IF and names its counter in another spelling at its
end, and behind them a loop without a NEXT. -/
def nestedLoops : Program where
  lines := [
    { number := 10
      statements := [.loop "I" (.scalar "A") (.scalar "B") none,
        .ifThen (.scalar "A") (.loop "COUNT" (.scalar "A") (.scalar "B") none)] },
    { number := 20, statements := [.print [] true, .next (some "COLOUR"), .next none] },
    { number := 30, statements := [.loop "I" (.scalar "A") (.scalar "B") none, .finish] }]

/-- The unnamed NEXT on the second line closes the loop on the first, and the loop on the third line is
not closed. -/
theorem loopExit?_matching_nestedLoops :
    nestedLoops.loopExit? { line := 0, statement := 0 } = some { line := 1, statement := 3 } ∧
      nestedLoops.loopExit? { line := 2, statement := 0 } = none := by
  constructor
  · refine (loopExit?_matching nestedLoops [] _ _ "I" (.scalar "A") (.scalar "B") none rfl).1
      [(⟨0, 1⟩, .loop "COUNT" (.scalar "A") (.scalar "B") none), (⟨1, 0⟩, .print [] true),
        (⟨1, 1⟩, .next (some "COLOUR"))] ⟨1, 2⟩ none _ rfl ?_ ?_
    · have hinner : WellNested (Name.fold "I") (.loop "COUNT" (.scalar "A") (.scalar "B") none ::
          ([.print [] true] ++ .next (some "COLOUR") :: [])) := by
        refine .loop (by decide) ?_ (.plain rfl .nil) .nil
        rintro n ⟨⟩
        rfl
      exact hinner
    · intro n hn
      cases hn
  · refine (loopExit?_matching nestedLoops (nestedLoops.flatten.take 5) [(⟨2, 1⟩, .finish)] _ "I"
      (.scalar "A") (.scalar "B") none rfl).2 (List.forall_mem_singleton.mpr ?_)
    intro closing hfinish
    cases hfinish

end Program

end CommodoreBasic
