import CommodoreBasic.Proofs.Agreement
import CommodoreBasic.Proofs.LoopMatching

/-!
# Blocks

A block is a program by its structure: simple statements and loops, each loop with the block that is
its body. Written down in textual order, a block gives a list of statements, and a program holds the
block if these statements stand in it one after the other, on whatever lines.

The main statement is that the NEXT which closes a loop in the text is the one at the end of its
body: a block is well-nested, so reading on from a FOR passes over it without any effect on the search.
-/

namespace CommodoreBasic

/-- A sequence of simple statements and loops. A loop may name its counter again at its end. -/
inductive Block where
  | done
  | simple (s : Statement) (rest : Block)
  | loop (counter : Name) (start limit : Expr) (step : Option Expr) (body : Block)
      (closing : Option Name) (rest : Block)

namespace Block

/-- The statements in textual order. -/
def statements : Block → List Statement
  | done => []
  | simple s rest => s :: rest.statements
  | loop counter start limit step body closing rest =>
    .loop counter start limit step :: (body.statements ++ .next closing :: rest.statements)

/-- What stands for simple statements are such, a counter that is named again at the end of a loop
is that of the loop, and no loop runs over the folded name of a loop around it; `enclosing` are those
of the loops around the block. -/
def isStructured (enclosing : List Name) : Block → Bool
  | done => true
  | simple s rest => s.isSimple && rest.isStructured enclosing
  | loop counter _ _ _ body closing rest =>
    !enclosing.contains counter.fold && closing.all (·.fold == counter.fold) &&
      body.isStructured (counter.fold :: enclosing) && rest.isStructured enclosing

/-- How many loops stand in one another. -/
def nesting : Block → Nat
  | done => 0
  | simple _ rest => rest.nesting
  | loop _ _ _ _ body _ rest => max (body.nesting + 1) rest.nesting

/-- The items of the block's DATA statements. -/
def dataItems (b : Block) : List Value := b.statements.flatMap Statement.dataItems

variable {b rest : Block} {enclosing : List Name} {s : Statement}

/-- A simple statement stands anywhere before what is structured. -/
theorem isStructured_simple :
    (simple s rest).isStructured enclosing = true ↔
      s.isSimple = true ∧ rest.isStructured enclosing = true := by
  simp only [isStructured, Bool.and_eq_true]

/-- A loop is structured if its counter is new, its NEXT names it and its body is structured. -/
theorem isStructured_loop {counter : Name} {start limit : Expr} {step : Option Expr}
    {body : Block} {closing : Option Name} :
    (loop counter start limit step body closing rest).isStructured enclosing = true ↔
      counter.fold ∉ enclosing ∧ (∀ n ∈ closing, n.fold = counter.fold) ∧
        body.isStructured (counter.fold :: enclosing) = true ∧
          rest.isStructured enclosing = true := by
  simp only [isStructured, Bool.and_eq_true, Bool.not_eq_true', List.contains_eq_mem,
    decide_eq_false_iff_not, Option.all_eq_true, beq_iff_eq, Option.mem_def, and_assoc]

/-- No simple statement begins or ends a loop. -/
theorem isLoopPart_of_isSimple (h : s.isSimple = true) : s.isLoopPart = false := by
  cases s <;> first | rfl | cases h

/-- In a block no loop runs over the counter of a loop around it. -/
theorem wellNested {counter : Name} (hb : b.isStructured enclosing = true)
    (hcounter : counter ∈ enclosing) : WellNested counter b.statements := by
  induction b generalizing enclosing with
  | done => exact .nil
  | simple s rest ih =>
    obtain ⟨hs, hrest⟩ := isStructured_simple.mp hb
    exact .plain (isLoopPart_of_isSimple hs) (ih hrest hcounter)
  | loop inner start limit step body closing rest ihBody ihRest =>
    obtain ⟨hinner, hclosing, hbody, hrest⟩ := isStructured_loop.mp hb
    exact .loop (fun heq => hinner (heq ▸ hcounter)) hclosing
      (ihBody hbody (List.mem_cons_of_mem _ hcounter)) (ihRest hrest hcounter)

/-- No simple statement is an IF. -/
theorem stripIfs_of_isSimple (h : s.isSimple = true) : s.stripIfs = s := by
  cases s <;> first | rfl | cases h

/-- No statement of a block stands under an IF. -/
theorem stripIfs_of_mem (hb : b.isStructured enclosing = true) (hs : s ∈ b.statements) :
    s.stripIfs = s := by
  induction b generalizing enclosing with
  | done => cases hs
  | simple t rest ih =>
    obtain ⟨ht, hrest⟩ := isStructured_simple.mp hb
    rcases List.mem_cons.mp hs with rfl | hs
    · exact stripIfs_of_isSimple ht
    · exact ih hrest hs
  | loop counter start limit step body closing rest ihBody ihRest =>
    obtain ⟨-, -, hbody, hrest⟩ := isStructured_loop.mp hb
    rcases List.mem_cons.mp hs with rfl | hs
    · rfl
    rcases List.mem_append.mp hs with hs | hs
    · exact ihBody hbody hs
    rcases List.mem_cons.mp hs with rfl | hs
    · rfl
    · exact ihRest hrest hs

end Block

namespace Program

/-- The statements stand in the program from the `k`-th on. -/
def Holds (p : Program) (k : Nat) (ss : List Statement) : Prop :=
  ∃ before segment after, p.flatten = before ++ (segment ++ after) ∧ before.length = k ∧
    segment.map Prod.snd = ss

variable {p : Program} {k : Nat} {s : Statement} {ss ts : List Statement}

/-- A program that holds two rows of statements holds each at its own place. -/
theorem Holds.append (h : p.Holds k (ss ++ ts)) :
    p.Holds k ss ∧ p.Holds (k + ss.length) ts := by
  obtain ⟨before, segment, after, hflatten, rfl, hsegment⟩ := h
  obtain ⟨first, second, rfl, rfl, rfl⟩ := List.map_eq_append_iff.mp hsegment
  refine ⟨⟨before, first, second ++ after, ?_, rfl, rfl⟩,
    ⟨before ++ first, second, after, ?_, ?_, rfl⟩⟩
  · rw [hflatten, List.append_assoc]
  · rw [hflatten, List.append_assoc, List.append_assoc]
  · rw [List.length_append, List.length_map]

/-- Behind the first statement the others follow. -/
theorem Holds.tail (h : p.Holds k (s :: ss)) : p.Holds (k + 1) ss := by
  have hsplit : p.Holds k ([s] ++ ss) := h
  exact hsplit.append.2

/-- The first statement has a position. -/
theorem Holds.head (h : p.Holds k (s :: ss)) : ∃ pos, p.flatten[k]? = some (pos, s) := by
  obtain ⟨before, segment, after, hflatten, rfl, hsegment⟩ := h
  obtain ⟨⟨pos, _⟩, rest, rfl, rfl, -⟩ := List.map_eq_cons_iff.mp hsegment
  exact ⟨pos, by rw [hflatten, List.getElem?_append_right (Nat.le_refl _), Nat.sub_self]; rfl⟩

/-- A program that consists of the statements of a block holds it. -/
theorem holds_of_layout {b : Block} (hb : b.isStructured [] = true)
    (hlayout : p.lines.flatMap Line.statements = b.statements) : p.Holds 0 b.statements := by
  refine ⟨[], p.flatten, [], ?_, rfl, ?_⟩
  · rw [List.nil_append, List.append_nil]
  · rw [flatten_map_snd, hlayout]
    exact (List.map_congr_left fun s hs => Block.stripIfs_of_mem hb hs).trans (List.map_id _)

/-- The exit of a loop is behind the NEXT at the end of its body. -/
theorem loopExit?_block {counter : Name} {start limit : Expr} {step : Option Expr} {body : Block}
    {closing : Option Name} {enclosing : List Name} {pos : Position}
    (hbody : body.isStructured (counter.fold :: enclosing) = true)
    (hclosing : ∀ n ∈ closing, n.fold = counter.fold)
    (hpos : p.flatten[k]? = some (pos, .loop counter start limit step))
    (h : p.Holds (k + 1) (body.statements ++ .next closing :: ss)) :
    ∃ exit, p.loopExit? pos = some exit ∧
      p.settle exit = p.place (k + 1 + body.statements.length + 1) := by
  obtain ⟨close, hclose⟩ := h.append.2.head
  refine ⟨close.next, ?_, settle_next hclose⟩
  rw [loopExit?_eq hpos]
  obtain ⟨before, segment, after, hflatten, hlength, hsegment⟩ := h
  obtain ⟨first, second, rfl, hfirst, hsecond⟩ := List.map_eq_append_iff.mp hsegment
  obtain ⟨⟨close', _⟩, last, rfl, rfl, -⟩ := List.map_eq_cons_iff.mp hsecond
  have hdrop : p.flatten.drop (k + 1) = first ++ ((close', .next closing) :: (last ++ after)) := by
    rw [hflatten, ← hlength, List.drop_left, List.append_assoc]
    rfl
  have heq : close' = close := by
    rw [hflatten, ← hlength, ← hfirst] at hclose
    simpa using hclose
  have hnested : WellNested counter.fold (first.map Prod.snd) :=
    hfirst ▸ Block.wellNested hbody List.mem_cons_self
  rw [hdrop, closingNext?_body hnested hclosing, heq, Option.map_some]

end Program

end CommodoreBasic
