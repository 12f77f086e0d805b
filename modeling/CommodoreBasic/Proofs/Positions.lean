import CommodoreBasic.Program.Loops

/-!
# Positions of a program

The statements of a program are numbered through in textual order, whatever lines they stand on:
`Program.index` is the number of a position and `Program.place` the position of a number. Settling
a position that lies within the program finds the statement of its index. So the three ways to go on
at a statement (falling through to it, going back behind a FOR and leaving a loop behind its NEXT)
meet in one equation, `Program.settle_next`.
-/

namespace CommodoreBasic

/-- The position behind this one on the same line. -/
def Position.next (pos : Position) : Position := { pos with statement := pos.statement + 1 }

namespace Program

/-- The line exists or is the one behind the last, and the statement exists on it or is the one
behind its last. -/
def Within (p : Program) (pos : Position) : Prop :=
  pos.line ≤ p.lines.length ∧
    ∀ line, p.lines[pos.line]? = some line → pos.statement ≤ line.statements.length

/-- How many statements precede the position in the text. -/
def index (p : Program) (pos : Position) : Nat :=
  ((p.lines.take pos.line).flatMap Line.statements).length + pos.statement

/-- The position of the `k`-th statement, or the one behind the program. -/
def place (p : Program) (k : Nat) : Position :=
  (p.flatten[k]?.map Prod.fst).getD { line := p.lines.length }

/-- A position is that of a line and of a statement in it. -/
theorem at?_eq_some_iff {p : Program} {pos : Position} {line : Line} {s : Statement} :
    p.at? pos = some (line, s) ↔
      p.lines[pos.line]? = some line ∧ line.statements[pos.statement]? = some s := by
  simp only [at?, Option.bind_eq_bind, Option.bind_eq_some_iff, Option.pure_def, Option.some.injEq,
    Prod.mk.injEq]
  constructor
  · rintro ⟨_, hline, _, hs, rfl, rfl⟩
    exact ⟨hline, hs⟩
  · rintro ⟨hline, hs⟩
    exact ⟨line, hline, s, hs, rfl, rfl⟩

/-- The statements of the program with their positions are those that can be fetched. -/
theorem mem_flatten_iff {p : Program} {pos : Position} {s : Statement} :
    (pos, s) ∈ p.flatten ↔ ∃ line s₀, p.at? pos = some (line, s₀) ∧ s₀.stripIfs = s := by
  simp only [flatten, List.mem_flatMap, List.mem_map, Prod.exists, Prod.mk.injEq,
    List.mem_zipIdx_iff_getElem?, at?_eq_some_iff]
  constructor
  · rintro ⟨line, i, hline, s₀, j, hs, rfl, rfl⟩
    exact ⟨line, s₀, ⟨hline, hs⟩, rfl⟩
  · rintro ⟨line, s₀, ⟨hline, hs⟩, rfl⟩
    exact ⟨line, pos.line, hline, s₀, pos.statement, hs, rfl, rfl⟩

/-- A position with a statement lies within the program. -/
theorem within_of_at? {p : Program} {pos : Position} {line : Line} {s : Statement}
    (h : p.at? pos = some (line, s)) : p.Within pos ∧ p.Within pos.next := by
  obtain ⟨hline, hs⟩ := at?_eq_some_iff.mp h
  obtain ⟨hlt, -⟩ := List.getElem?_eq_some_iff.mp hline
  obtain ⟨hlt', -⟩ := List.getElem?_eq_some_iff.mp hs
  refine ⟨⟨Nat.le_of_lt hlt, fun l hl => ?_⟩, ⟨Nat.le_of_lt hlt, fun l hl => ?_⟩⟩ <;>
    (obtain rfl := Option.some.inj (hline.symm.trans hl))
  · exact Nat.le_of_lt hlt'
  · exact hlt'

/-- A position with a statement is settled. -/
theorem settle_of_at? {p : Program} {pos : Position} {line : Line} {s : Statement}
    (h : p.at? pos = some (line, s)) : p.settle pos = pos := by
  obtain ⟨hline, hs⟩ := at?_eq_some_iff.mp h
  obtain ⟨hlt, rfl⟩ := List.getElem?_eq_some_iff.mp hline
  obtain ⟨hlt', -⟩ := List.getElem?_eq_some_iff.mp hs
  rw [settle, List.drop_eq_getElem_cons hlt, settleIn, if_pos hlt']

/-- A position behind the last line is settled. -/
theorem settle_of_line_none {p : Program} {pos : Position} (h : p.lines[pos.line]? = none) :
    p.settle pos = pos := by
  rw [settle, List.drop_eq_nil_of_le (List.getElem?_eq_none_iff.mp h), settleIn]

/-- Behind the last statement of a line the next line follows. -/
theorem settle_of_statement_none {p : Program} {pos : Position} {line : Line}
    (hline : p.lines[pos.line]? = some line) (hs : line.statements[pos.statement]? = none) :
    p.settle pos = p.settle { line := pos.line + 1 } := by
  obtain ⟨hlt, rfl⟩ := List.getElem?_eq_some_iff.mp hline
  have hge := List.getElem?_eq_none_iff.mp hs
  rw [settle, List.drop_eq_getElem_cons hlt, settleIn, if_neg (Nat.not_lt.mpr hge)]
  rfl

section Numbering

/-- The statements of lines with their positions, the first of them being line `i`. -/
private abbrev flattenFrom (i : Nat) (lines : List Line) : List (Position × Statement) :=
  (lines.zipIdx i).flatMap fun (line, i) =>
    line.statements.zipIdx.map fun (s, j) => (⟨i, j⟩, s.stripIfs)

/-- The statements of the first line come first. -/
private theorem flattenFrom_cons (i : Nat) (line : Line) (lines : List Line) :
    flattenFrom i (line :: lines) =
      (line.statements.zipIdx.map fun (s, j) => (⟨i, j⟩, s.stripIfs)) ++
        flattenFrom (i + 1) lines := by
  simp only [flattenFrom, List.zipIdx_cons, List.flatMap_cons]

/-- The numbering, of lines that begin with line `i`. -/
private theorem index_of_flattenFrom {i k : Nat} {lines : List Line} {pos : Position}
    {s : Statement} (h : (flattenFrom i lines)[k]? = some (pos, s)) :
    i ≤ pos.line ∧
      ((lines.take (pos.line - i)).flatMap Line.statements).length + pos.statement = k := by
  induction lines generalizing i k with
  | nil => simp [flattenFrom] at h
  | cons line lines ih =>
    rw [flattenFrom_cons] at h
    by_cases hk : k < line.statements.length
    · rw [List.getElem?_append_left (by simpa using hk)] at h
      simp only [List.getElem?_map, List.getElem?_zipIdx, Option.map_eq_some_iff, Prod.exists,
        Prod.mk.injEq] at h
      obtain ⟨_, _, ⟨_, _, _, rfl⟩, rfl, _⟩ := h
      simp
    · rw [List.getElem?_append_right (by simpa using hk)] at h
      obtain ⟨hle, hcount⟩ := ih h
      simp only [List.length_map, List.length_zipIdx] at hcount
      refine ⟨by omega, ?_⟩
      rw [show pos.line - i = (pos.line - (i + 1)) + 1 by omega, List.take_succ_cons,
        List.flatMap_cons, List.length_append]
      omega

/-- The `k`-th statement has the index `k`. -/
theorem index_of_flatten {p : Program} {k : Nat} {pos : Position} {s : Statement}
    (h : p.flatten[k]? = some (pos, s)) : p.index pos = k :=
  (index_of_flattenFrom (i := 0) h).2

/-- Settling at the start of lines finds their first statement. -/
private theorem settleIn_zero (i : Nat) (lines : List Line) :
    settleIn i 0 lines =
      ((flattenFrom i lines)[0]?.map Prod.fst).getD { line := i + lines.length } := by
  induction lines generalizing i with
  | nil => simp [settleIn, flattenFrom]
  | cons line lines ih =>
    rw [settleIn, flattenFrom_cons]
    split
    case isTrue hlt =>
      rw [List.getElem?_append_left (by simpa using hlt)]
      simp [hlt]
    case isFalse hge =>
      rw [List.getElem?_append_right (by simpa using hge), ih]
      simp only [List.length_map, List.length_zipIdx, List.length_cons, Nat.zero_sub]
      congr 2
      omega

/-- Settling on a line finds the statement of that number, counted from the start of the line. -/
private theorem settleIn_eq (i j : Nat) (line : Line) (lines : List Line)
    (hj : j ≤ line.statements.length) :
    settleIn i j (line :: lines) =
      ((flattenFrom i (line :: lines))[j]?.map Prod.fst).getD
        { line := i + (lines.length + 1) } := by
  rw [settleIn, flattenFrom_cons]
  split
  case isTrue hlt =>
    rw [List.getElem?_append_left (by simpa using hlt)]
    simp [hlt]
  case isFalse hge =>
    rw [List.getElem?_append_right (by simpa using hge), settleIn_zero]
    simp only [List.length_map, List.length_zipIdx, show j - line.statements.length = 0 by omega]
    congr 2
    omega

/-- The statements of some lines are followed by those of the others. -/
private theorem flattenFrom_append (i : Nat) (ls ms : List Line) :
    flattenFrom i (ls ++ ms) = flattenFrom i ls ++ flattenFrom (i + ls.length) ms := by
  simp only [flattenFrom, List.zipIdx_append, List.flatMap_append]

/-- There are as many positions as statements. -/
private theorem length_flattenFrom (i : Nat) (lines : List Line) :
    (flattenFrom i lines).length = (lines.flatMap Line.statements).length := by
  induction lines generalizing i with
  | nil => rfl
  | cons line lines ih =>
    rw [flattenFrom_cons, List.length_append, ih, List.flatMap_cons, List.length_append,
      List.length_map, List.length_zipIdx]

/-- Settling a position finds the statement of its index. -/
theorem settle_eq_place {p : Program} {pos : Position} (hline : pos.line < p.lines.length)
    (hwithin : p.Within pos) : p.settle pos = p.place (p.index pos) := by
  have hsplit : p.lines = p.lines.take pos.line ++ p.lines.drop pos.line :=
    (List.take_append_drop _ _).symm
  have hdrop : p.lines.drop pos.line = p.lines[pos.line] :: p.lines.drop (pos.line + 1) :=
    List.drop_eq_getElem_cons hline
  have hflatten : p.flatten =
      flattenFrom 0 (p.lines.take pos.line) ++ flattenFrom pos.line (p.lines.drop pos.line) := by
    have := flattenFrom_append 0 (p.lines.take pos.line) (p.lines.drop pos.line)
    rwa [← hsplit, List.length_take, Nat.zero_add, Nat.min_eq_left (Nat.le_of_lt hline)] at this
  unfold settle place index
  rw [hflatten, List.getElem?_append_right (by rw [length_flattenFrom]; omega), length_flattenFrom,
    Nat.add_sub_cancel_left, hdrop,
    settleIn_eq _ _ _ _ (hwithin.2 _ (List.getElem?_eq_getElem hline)), List.length_drop]
  congr 2
  omega

/-- Before anything is done the cursor is at the first statement. -/
theorem settle_start (p : Program) : p.settle {} = p.place 0 := by
  unfold settle place
  rw [List.drop_zero, settleIn_zero, Nat.zero_add]
  rfl

/-- Behind a statement the next one in the text follows, on whatever line it stands. -/
theorem settle_next {p : Program} {k : Nat} {pos : Position} {s : Statement}
    (h : p.flatten[k]? = some (pos, s)) : p.settle pos.next = p.place (k + 1) := by
  obtain ⟨line, s₀, hat, -⟩ := mem_flatten_iff.mp (List.mem_of_getElem? h)
  have hline : pos.next.line < p.lines.length :=
    (List.getElem?_eq_some_iff.mp (at?_eq_some_iff.mp hat).1).1
  rw [settle_eq_place hline (within_of_at? hat).2, ← index_of_flatten h]
  rfl

/-- The statements in textual order are those of the lines, without their IFs. -/
theorem flatten_map_snd (p : Program) :
    p.flatten.map Prod.snd = (p.lines.flatMap Line.statements).map Statement.stripIfs := by
  have hlines (i : Nat) (lines : List Line) : (flattenFrom i lines).map Prod.snd =
      (lines.flatMap Line.statements).map Statement.stripIfs := by
    induction lines generalizing i with
    | nil => rfl
    | cons line lines ih =>
      rw [flattenFrom_cons, List.map_append, ih, List.flatMap_cons, List.map_append, List.map_map]
      congr 1
      have hfst := congrArg (List.map Statement.stripIfs) (List.zipIdx_map_fst 0 line.statements)
      rw [← hfst, List.map_map]
      rfl
  exact hlines 0 p.lines

/-- The `k`-th statement is found by its position. -/
theorem dropWhile_flatten {p : Program} {k : Nat} {pos : Position} {s : Statement}
    (h : p.flatten[k]? = some (pos, s)) :
    p.flatten.dropWhile (·.1 != pos) = (pos, s) :: p.flatten.drop (k + 1) := by
  obtain ⟨hk, hget⟩ := List.getElem?_eq_some_iff.mp h
  have hbefore : ∀ x ∈ p.flatten.take k, (x.1 != pos) = true := by
    intro x hx
    obtain ⟨j, hj, rfl⟩ := List.mem_take_iff_getElem.mp hx
    refine bne_iff_ne.mpr fun heq => ?_
    have hget' : p.flatten[j]? = some (pos, p.flatten[j].2) := by
      rw [List.getElem?_eq_getElem, ← heq]
    have hindex := (index_of_flatten hget').symm.trans (index_of_flatten h)
    omega
  calc p.flatten.dropWhile (·.1 != pos)
      = (p.flatten.take k ++ p.flatten.drop k).dropWhile (·.1 != pos) := by
        rw [List.take_append_drop]
    _ = (pos, s) :: p.flatten.drop (k + 1) := by
        rw [List.dropWhile_append_of_pos hbefore, List.drop_eq_getElem_cons hk, hget,
          List.dropWhile_cons_of_neg (by simp)]

end Numbering

/-- A NEXT that closes a loop is one of the statements read. -/
theorem mem_of_closingNext? {counter : Name} {depth : Nat} {rest : List (Position × Statement)}
    {pos : Position} (h : closingNext? counter depth rest = some pos) :
    ∃ s, (pos, s) ∈ rest := by
  fun_induction closingNext? counter depth rest <;> grind

/-- The exit of a loop is behind the NEXT that the statements after its FOR give. -/
theorem loopExit?_eq {p : Program} {k : Nat} {pos : Position} {counter : Name} {a b : Expr}
    {s : Option Expr} (h : p.flatten[k]? = some (pos, .loop counter a b s)) :
    p.loopExit? pos =
      (closingNext? counter.fold 0 (p.flatten.drop (k + 1))).map Position.next := by
  unfold loopExit?
  rw [dropWhile_flatten h]
  rfl

/-- The exit of a loop lies within the program. -/
theorem within_of_loopExit? {p : Program} {pos exit : Position} (h : p.loopExit? pos = some exit) :
    p.Within exit := by
  unfold loopExit? at h
  split at h
  case h_1 _ counter _ _ _ rest heq =>
    obtain ⟨q, hq, rfl⟩ := Option.map_eq_some_iff.mp h
    obtain ⟨s, hs⟩ := mem_of_closingNext? hq
    have hmem : (q, s) ∈ p.flatten.dropWhile (·.1 != pos) := by
      rw [heq]
      exact List.mem_cons_of_mem _ hs
    obtain ⟨line, s₀, hat, -⟩ := mem_flatten_iff.mp ((List.dropWhile_sublist _).subset hmem)
    exact (within_of_at? hat).2
  case h_2 => cases h

end Program

end CommodoreBasic
