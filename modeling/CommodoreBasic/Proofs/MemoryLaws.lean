import CommodoreBasic.Memory
import CommodoreBasic.Proofs.Agreement

/-!
# Laws of memory

What each operation on memory can do, so that later proofs need not open it: storing either fails and
changes nothing or puts one entry in place, and using an element of an array first makes the array if
there is none.
-/

namespace CommodoreBasic.Memory

open CommodoreBasic.Action

variable {m : Memory}

/-- Storing is refused for a reserved name, a value of the wrong type and a full memory, and then
nothing is changed; else the folded name has the value. -/
theorem store_cases (n : Name) (v : Value) (m : Memory) :
    (∃ e, store n v m = (.error e, m)) ∨
      n.fold.isReserved = false ∧ v.fits n.fold = true ∧ m.scalars.size < scalarCapacity ∧
        store n v m = (.ok (), { m with scalars := m.scalars.insert n.fold v }) := by
  unfold store
  dsimp only
  split
  · exact .inl ⟨_, rfl⟩
  case isFalse hreserved =>
    split
    · exact .inl ⟨_, rfl⟩
    case isFalse hfits =>
      split
      · exact .inl ⟨_, rfl⟩
      case isFalse hroom =>
        exact .inr ⟨by simpa using hreserved, by simpa using hfits, by omega, rfl⟩

/-- An array that is added is found under its own name, and all others under theirs. -/
theorem getElem?_addTable (m : Memory) (key : Name) (t : Table) (k : Name) :
    (m.addTable key t).tables[k]? = if key = k then some t else m.tables[k]? := by
  rw [addTable, Std.HashMap.getElem?_insert]
  simp only [beq_iff_eq]

/-- Makes an array with `count` dimensions unless there is one of that name. -/
def provide (key : Name) (count : Nat) : Action Memory Unit := fun m =>
  if m.tables.contains key then (.ok (), m) else allocate key (List.replicate count 10) m

/-- The place of an element in the array with a folded name, which must exist. -/
def offset (key : Name) (subscripts : List Nat) : Action Memory Nat := fun m =>
  match (m.tables[key]?).bind fun t => offsetFrom 0 subscripts t.bounds with
  | some offset => (.ok offset, m)
  | none => (raise .badSubscript, m)

/-- An element is located in three steps, of which only the second can change the memory. -/
theorem locate_eq (key : Name) (subscripts : List Value) :
    locate key subscripts = (do
      let is ← Action.ofExcept (subscripts.mapM Value.toSubscript)
      provide key is.length
      offset key is) := by
  unfold locate
  refine congrArg _ (funext fun is => funext fun m => ?_)
  rcases hmade : provide key is.length m with ⟨_ | ⟨⟨⟩⟩, m'⟩
  · rw [bind_of_error hmade]
    unfold provide at hmade
    rw [hmade]
  · rw [bind_of_ok hmade]
    unfold provide at hmade
    rw [hmade]
    rfl

/-- The array that is made when it is used with `count` subscripts before it is dimensioned. -/
def implicitTable (key : Name) (count : Nat) : Table where
  bounds := List.replicate count 10
  cells := Array.replicate (Nat.pow 11 count) (.zeroFor key)

/-- An array that is made on its first use has eleven elements in each direction. -/
theorem size_of_sizeBeside {used size total : Nat} (count : Nat)
    (h : sizeBeside used size (List.replicate count 10) = some total) :
    total = size * Nat.pow 11 count := by
  induction count generalizing size with
  | zero =>
    cases h
    exact (Nat.mul_one total).symm
  | succ count ih =>
    rw [List.replicate_succ, sizeBeside] at h
    split at h
    · rw [ih h, Nat.mul_assoc, Nat.mul_comm (10 + 1)]
      rfl
    · cases h

/-- Making an array on its first use leaves everything else alone. -/
theorem provide_state (key : Name) (count : Nat) (m : Memory) :
    (provide key count m).2 = m ∨ m.tables[key]? = none ∧
      (provide key count m).2 = m.addTable key (implicitTable key count) := by
  unfold provide
  split
  · exact .inl rfl
  case isFalse hnew =>
    unfold allocate
    cases hsize : sizeBeside m.slots 1 (List.replicate count 10) with
    | none => exact .inl rfl
    | some size =>
      have htotal := size_of_sizeBeside count hsize
      rw [Nat.one_mul] at htotal
      subst htotal
      exact .inr ⟨by simpa using hnew, rfl⟩

/-- Looking for an element changes nothing, but that its array may be made. -/
theorem locate_state (key : Name) (subscripts : List Value) (m : Memory) :
    (locate key subscripts m).2 = m ∨ m.tables[key]? = none ∧ ∃ count,
      (locate key subscripts m).2 = m.addTable key (implicitTable key count) := by
  rw [locate_eq]
  cases his : subscripts.mapM Value.toSubscript with
  | error e => exact .inl rfl
  | ok is =>
    have hoffset (u : Unit) (m' : Memory) : (offset key is m').2 = m' := by
      unfold offset
      split <;> rfl
    have hstate : ((provide key is.length >>= fun _ => offset key is) m).2 =
        (provide key is.length m).2 := bind_state hoffset m
    have hok : Action.ofExcept (.ok is) m = (.ok is, m) := rfl
    rw [bind_of_ok hok, hstate]
    exact (provide_state key is.length m).imp_right fun h => ⟨h.1, is.length, h.2⟩

/-- So does the use of an element. -/
theorem fetchElement_state (n : Name) (subscripts : List Value) (m : Memory) :
    (fetchElement n subscripts m).2 = m ∨ m.tables[n.fold]? = none ∧ ∃ count,
      (fetchElement n subscripts m).2 = m.addTable n.fold (implicitTable n.fold count) := by
  have hstate : (fetchElement n subscripts m).2 = (locate n.fold subscripts m).2 := by
    refine bind_state (fun offset m' => ?_) m
    split <;> rfl
  rw [hstate]
  exact locate_state n.fold subscripts m

end CommodoreBasic.Memory
