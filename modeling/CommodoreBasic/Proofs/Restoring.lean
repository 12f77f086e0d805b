import CommodoreBasic.Proofs.DataReading

/-!
# Restoring DATA to a line

RESTORE with a number looks for a line in the order of the text. Reading goes on at the first line that
has DATA and a number of at least the one given. If the numbers ascend, that is the line with the
number itself if it has DATA. In any other order a line with a greater number may stand before it, and
then its items are read instead.
-/

namespace CommodoreBasic

/-- The line has DATA, and its number is at least `n`. -/
def Line.suppliesFrom (n : LineNumber) (l : Line) : Bool := n ≤ l.number && !l.dataItems.isEmpty

/-- A line supplies an item from a number on if it is not before it and has DATA. -/
theorem Line.suppliesFrom_eq_true_iff {n : LineNumber} {l : Line} :
    l.suppliesFrom n = true ↔ n ≤ l.number ∧ l.dataItems ≠ [] := by
  simp [suppliesFrom]

/-- The first item of the first line in the text that has DATA and a number of at least `n`. -/
def Program.itemFrom? (p : Program) (n : LineNumber) : Option Value :=
  (p.lines.find? (·.suppliesFrom n)).bind (·.dataItems.head?)

namespace Program

variable {p : Program} {n : LineNumber}

/-- The first item of the first such line is found. -/
theorem itemFrom?_eq_some {earlier later : List Line} {l : Line} {v : Value}
    (hlines : p.lines = earlier ++ l :: later) (hnumber : n ≤ l.number)
    (hitem : l.dataItems.head? = some v)
    (hearlier : ∀ l' ∈ earlier, n ≤ l'.number → l'.dataItems = []) :
    p.itemFrom? n = some v := by
  have hnone : earlier.find? (·.suppliesFrom n) = none := by
    refine List.find?_eq_none.mpr fun l' hl' hsupplies => ?_
    obtain ⟨hle, hne⟩ := Line.suppliesFrom_eq_true_iff.mp hsupplies
    exact hne (hearlier l' hl' hle)
  have hl : l.suppliesFrom n = true := by
    refine Line.suppliesFrom_eq_true_iff.mpr ⟨hnumber, fun hempty => ?_⟩
    rw [hempty] at hitem
    cases hitem
  rw [itemFrom?, hlines, List.find?_append, hnone, List.find?_cons_of_pos hl]
  exact hitem

/-- A line that supplies the next item, if there is any. -/
theorem itemFrom?_cases (p : Program) (n : LineNumber) :
    (∃ l ∈ p.lines, n ≤ l.number ∧ ∃ v, l.dataItems.head? = some v ∧ p.itemFrom? n = some v) ∨
      (∀ l ∈ p.lines, n ≤ l.number → l.dataItems = []) ∧ p.itemFrom? n = none := by
  unfold itemFrom?
  cases hfind : p.lines.find? (·.suppliesFrom n) with
  | some l =>
    obtain ⟨hnumber, hne⟩ := Line.suppliesFrom_eq_true_iff.mp (List.find?_some hfind)
    obtain ⟨v, vs, hitems⟩ := List.exists_cons_of_ne_nil hne
    refine .inl ⟨l, List.mem_of_find?_eq_some hfind, hnumber, v, ?_⟩
    simp [hitems]
  | none =>
    refine .inr ⟨fun l hl hnumber => ?_, rfl⟩
    by_contra hne
    exact List.find?_eq_none.mp hfind l hl (Line.suppliesFrom_eq_true_iff.mpr ⟨hnumber, hne⟩)

end Program

namespace DataPool

/-- The table of lines leads to the first item of the line that is looked for. The items `before` are
those of lines that have been passed. -/
theorem getElem?_restore (before : List Value) (lines : List Line) (next : Nat) (n : LineNumber) :
    let d : DataPool :=
      ⟨(before ++ lines.flatMap Line.dataItems).toArray, startsFrom before.length lines, next⟩
    d.items[(d.restore n).next]? =
      (lines.find? (·.suppliesFrom n)).bind (·.dataItems.head?) := by
  induction lines generalizing before with
  | nil => simp [restore, startsFrom]
  | cons l lines ih =>
    dsimp only [restore]
    rw [startsFrom, List.flatMap_cons]
    by_cases hempty : l.dataItems.isEmpty = true
    · have hskip : l.suppliesFrom n = false := by simp [Line.suppliesFrom, hempty]
      rw [if_pos hempty, List.find?_cons_of_neg (by simp [hskip]), List.isEmpty_iff.mp hempty]
      exact ih before
    · rw [if_neg hempty]
      by_cases hnumber : n ≤ l.number
      · have hfound : l.suppliesFrom n = true := by simp [Line.suppliesFrom, hnumber, hempty]
        obtain ⟨v, vs, hitems⟩ := List.exists_cons_of_ne_nil (mt List.isEmpty_iff.mpr hempty)
        rw [List.find?_cons_of_pos (by simpa using hnumber), List.find?_cons_of_pos hfound]
        simp [hitems]
      · have hskip : l.suppliesFrom n = false := by simp [Line.suppliesFrom, hnumber]
        rw [List.find?_cons_of_neg (by simpa using hnumber), List.find?_cons_of_neg (by simp [hskip]),
          ← List.length_append, ← List.append_assoc]
        exact ih (before ++ l.dataItems)

/-- After RESTORE the pool of a program supplies the item that is looked for. -/
theorem take_restore {d : DataPool} {p : Program} (hd : d.rewind = ofProgram p) (n : LineNumber) :
    (d.restore n).take.1 = (p.itemFrom? n).elim (raise .outOfData) .ok := by
  obtain ⟨items, starts, next⟩ := d
  cases hd
  have hitem := getElem?_restore [] p.lines next n
  dsimp only [List.nil_append, List.length_nil] at hitem
  cases hfound : p.itemFrom? n with
  | none => exact congrArg Prod.fst (take_of_none (hitem.trans hfound))
  | some v => exact congrArg Prod.fst (take_of_some (hitem.trans hfound))

end DataPool

namespace Machine

/-- After RESTORE with a number the next item is that of the line that is looked for. -/
theorem read_of_restored (m : Machine) (p : Program) (turns : Nat) (n : LineNumber)
    {before between after : List Entry} {restored : Except Error Unit} {result : Except Error Value}
    (hrun : requests turns (m.load p) = before ++
      ⟨.done, .restore (some n), restored⟩ :: (between ++ ⟨.value, .read, result⟩ :: after))
    (hbetween : ∀ e ∈ between, e.request.concernsData = false) :
    result = (p.itemFrom? n).elim (raise .outOfData) .ok := by
  have htrace := runFor_trace turns (m.load p)
  rw [hrun] at htrace
  obtain ⟨d, hbefore, d₁, hrestore, hrest⟩ := DataPool.trace_append.mp htrace
  obtain ⟨d₂, hpassed, d₃, hread, -⟩ := DataPool.trace_append.mp hrest
  obtain rfl := hpassed.eq_of_not_concernsData hbetween
  have hd : d.rewind = DataPool.ofProgram p := hbefore.rewind_eq
  cases hrestore with
  | other h => cases h
  | restore =>
    cases hread with
    | other h => cases h
    | read => exact DataPool.take_restore hd n

/-- RESTORE with a number lets reading go on at the first line of the text that has DATA and a number
of at least that. Let the run of a program contain such a request and, behind it, the next one for an
item. It gets the first item of that line. So where the numbers ascend, it gets the first item of the
first line with the number itself, if that has DATA. Whatever the order of the lines, if no line with
the number has DATA, it gets the first item of a line with a greater number, or fails if there is none. -/
theorem read_after_restore (m : Machine) (p : Program) (turns : Nat) (n : LineNumber)
    {before between after : List Entry} {restored : Except Error Unit} {result : Except Error Value}
    (hrun : requests turns (m.load p) = before ++
      ⟨.done, .restore (some n), restored⟩ :: (between ++ ⟨.value, .read, result⟩ :: after))
    (hbetween : ∀ e ∈ between, e.request.concernsData = false) :
    (∀ earlier l later v, p.lines = earlier ++ l :: later → n ≤ l.number →
      l.dataItems.head? = some v → (∀ l' ∈ earlier, n ≤ l'.number → l'.dataItems = []) →
      result = .ok v) ∧
    ((p.lines.Pairwise fun l l' => l.number ≤ l'.number) →
      ∀ earlier l later v, p.lines = earlier ++ l :: later → l.number = n →
        l.dataItems.head? = some v → (∀ l' ∈ earlier, l'.number = n → l'.dataItems = []) →
        result = .ok v) ∧
    ((∀ l ∈ p.lines, l.number = n → l.dataItems = []) →
      (∃ l ∈ p.lines, n < l.number ∧ ∃ v, l.dataItems.head? = some v ∧ result = .ok v) ∨
        (∀ l ∈ p.lines, n < l.number → l.dataItems = []) ∧ result = raise .outOfData) := by
  have hresult := read_of_restored m p turns n hrun hbetween
  have hfirst {earlier later : List Line} {l : Line} {v : Value}
      (hlines : p.lines = earlier ++ l :: later) (hnumber : n ≤ l.number)
      (hitem : l.dataItems.head? = some v)
      (hearlier : ∀ l' ∈ earlier, n ≤ l'.number → l'.dataItems = []) : result = .ok v := by
    rw [hresult, Program.itemFrom?_eq_some hlines hnumber hitem hearlier, Option.elim_some]
  refine ⟨fun earlier l later v => hfirst, ?_, fun hnone => ?_⟩
  · intro hsorted earlier l later v hlines hnumber hitem hearlier
    refine hfirst hlines (Nat.le_of_eq hnumber.symm) hitem fun l' hl' hle => ?_
    rw [hlines] at hsorted
    have hle' := (List.pairwise_append.mp hsorted).2.2 l' hl' l List.mem_cons_self
    exact hearlier l' hl' (Nat.le_antisymm (hnumber ▸ hle') hle)
  · obtain ⟨l, hl, hnumber, v, hitem, hfound⟩ | ⟨hempty, hfound⟩ := p.itemFrom?_cases n
    · rw [hfound, Option.elim_some] at hresult
      refine .inl ⟨l, hl, Nat.lt_of_le_of_ne hnumber fun heq => ?_, v, hitem, hresult⟩
      rw [hnone l hl heq.symm] at hitem
      cases hitem
    · rw [hfound, Option.elim_none] at hresult
      exact .inr ⟨fun l hl hlt => hempty l hl (Nat.le_of_lt hlt), hresult⟩

/-- A program that restores DATA to the line 20 and reads an item, with the given lines behind that. -/
def restoring (lines : List Line) : Program where
  lines := { number := 10, statements := [.restore (some 20), .read [.scalar "A$"]] } :: lines

/-- The machine that runs it between the two statements. -/
def inRestoring (lines : List Line) (next : Nat) : Machine :=
  { (new {} 0 10).load (restoring lines) with
    data := { DataPool.ofProgram (restoring lines) with next }
    cursor := { statement := 1 }
    steps := 1 }

/-- Two lines with the number 20, of which the second has DATA, between others. -/
def ascendingLines : List Line :=
  [⟨15, [.data [.text "A"]]⟩, ⟨20, [.remark]⟩,
    ⟨20, [.ifThen (.scalar "A") (.data [.text "B", .text "C"])]⟩, ⟨30, [.data [.text "D"]]⟩]

/-- After RESTORE to a line without DATA the next line supplies the item. -/
theorem read_after_restore_ascendingLines :
    ((restoring ascendingLines).lines.Pairwise fun l l' => l.number ≤ l'.number) ∧
      ∃ result after, requests 2 ((new {} 0 10).load (restoring ascendingLines)) =
        ⟨.done, .restore (some 20), .ok ()⟩ :: ⟨.value, .read, result⟩ :: after ∧
        result = .ok (.text "B") := by
  have hsorted : (restoring ascendingLines).lines.Pairwise fun l l' => l.number ≤ l'.number := by
    simp [restoring, ascendingLines]
  have hrestore : ((new {} 0 10).load (restoring ascendingLines)).turn =
      .running (inRestoring ascendingLines 1) := rfl
  have hasked : ∃ result after, (inRestoring ascendingLines 1).asked =
      ⟨.value, .read, result⟩ :: after := ⟨_, _, rfl⟩
  obtain ⟨result, after, hasked⟩ := hasked
  obtain ⟨u, hread⟩ : ∃ u, (inRestoring ascendingLines 1).turn = .running u := ⟨_, rfl⟩
  have hrun : requests 2 ((new {} 0 10).load (restoring ascendingLines)) =
      [] ++ ⟨.done, .restore (some 20), .ok ()⟩ ::
        ([] ++ ⟨.value, .read, result⟩ :: (after ++ [])) := by
    rw [requests, hrestore]
    dsimp only
    rw [requests, hread]
    dsimp only
    rw [hasked]
    rfl
  refine ⟨hsorted, result, _, hrun, ?_⟩
  have hfirst := (read_after_restore (new {} 0 10) (restoring ascendingLines) 2 20 hrun (by simp)).2.1
    hsorted
  exact hfirst [_, _, _] _ _ _ rfl rfl rfl (by simp [Line.dataItems, Statement.dataItems])

/-- A line with the number 30 stands before the line 20, and both have DATA. -/
def descendingLines : List Line :=
  [⟨30, [.data [.text "A"]]⟩, ⟨20, [.data [.text "B"]]⟩]

/-- Reading goes on at the line 30. -/
theorem restore_descendingLines :
    (⟨20, [.data [.text "B"]]⟩ : Line) ∈ (restoring descendingLines).lines ∧
      (requests 2 ((new {} 0 10).load (restoring descendingLines))).filterMap Entry.read? =
        [.ok (.text "A")] := by
  have hrestore : ((new {} 0 10).load (restoring descendingLines)).turn =
      .running (inRestoring descendingLines 0) := rfl
  obtain ⟨u, hread⟩ : ∃ u, (inRestoring descendingLines 0).turn = .running u := ⟨_, rfl⟩
  refine ⟨by simp [restoring, descendingLines], ?_⟩
  rw [requests, hrestore]
  dsimp only
  rw [requests, hread]
  rfl

end Machine

end CommodoreBasic
