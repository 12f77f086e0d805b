import CommodoreBasic.Proofs.TypedMemory

/-!
# Room for arrays

All arrays together have a greatest number of elements. An array without dimensions is never looked at,
and its one element is made where there is no room for it. Arrays with dimensions alone keep within the
bound, whatever was done before, and one that does not fit is refused before anything is changed.
-/

namespace CommodoreBasic

open CommodoreBasic.Action

namespace Memory

variable {m : Memory} {key : Name}

/-- A use that finds no room for the array fails before anything is changed. -/
theorem locate_of_not_hasRoom (hnew : m.tables[key]? = none) {subscripts : List Value}
    {bounds : List Nat} (hbounds : implicitBounds? subscripts = some bounds)
    (hroom : ¬ m.shape.HasRoom bounds) : locate key subscripts m = (raise .outOfMemory, m) := by
  rw [locate_eq]
  unfold implicitBounds? at hbounds
  cases his : subscripts.mapM Value.toSubscript <;> rw [his] at hbounds <;> cases hbounds
  next is =>
    have hok : Action.ofExcept (.ok is) m = (.ok is, m) := rfl
    have hthere : ¬ m.tables.contains key = true := by simpa using hnew
    have hfails : provide key is.length m = (raise .outOfMemory, m) := by
      rw [provide, if_neg hthere, allocate_eq, if_neg hroom]
    exact (bind_of_ok hok).trans (bind_of_error hfails)

namespace Operation

variable {h : List Operation} {op : Operation} {bounds : List Nat}

/-- The sizes or subscripts that the operation has for an array. -/
def subscripts? : Operation → Option (List Value)
  | dimension _ subscripts | fetchElement _ subscripts | storeElement _ subscripts _ => some subscripts
  | store .. | clear => none

/-- The bounds of the array that the operation is about to make, there being none of its name. -/
def wanted? (op : Operation) (m : Memory) : Option (List Nat) := do
  let key ← op.array?
  if m.tables.contains key then none else op.bounds?

/-- The array that an operation is about to make is not there. -/
theorem of_wanted? (hwanted : op.wanted? m = some bounds) :
    ∃ key, op.array? = some key ∧ m.tables[key]? = none ∧ op.bounds? = some bounds := by
  unfold wanted? at hwanted
  cases hkey : op.array? with
  | none =>
    rw [hkey] at hwanted
    cases hwanted
  | some key =>
    rw [hkey, Option.bind_eq_bind, Option.bind_some] at hwanted
    split at hwanted
    · cases hwanted
    case isFalse hthere => exact ⟨key, rfl, by simpa using hthere, hwanted⟩

/-- An operation that finds no room for its array fails and changes nothing. -/
theorem apply_of_not_hasRoom (hwanted : op.wanted? m = some bounds) (hroom : ¬ m.shape.HasRoom bounds) :
    op.apply m = (raise .outOfMemory, m) := by
  obtain ⟨key, hkey, hnew, hbounds⟩ := of_wanted? hwanted
  cases op with
  | store n v => cases hkey
  | clear => cases hkey
  | dimension n sizes =>
    cases hkey
    rw [bounds?] at hbounds
    cases hsizes : sizes.mapM Value.toSubscript <;> rw [hsizes] at hbounds <;> cases hbounds
    exact (dimension_of_new hnew hsizes).trans ((allocate_eq ..).trans (if_neg hroom))
  | fetchElement n subscripts =>
    cases hkey
    have hfails : Memory.fetchElement n subscripts m = (raise .outOfMemory, m) :=
      bind_of_error (locate_of_not_hasRoom hnew hbounds hroom)
    exact bind_of_error hfails
  | storeElement n subscripts v =>
    cases hkey
    rw [bounds?] at hbounds
    split at hbounds
    case isTrue hv =>
      change Memory.storeElement n subscripts v m = _
      rw [storeElement_eq hv]
      exact bind_of_error (locate_of_not_hasRoom hnew hbounds hroom)
    case isFalse => cases hbounds

/-- The operation has no size or subscript for its array. -/
def lacksSubscripts (op : Operation) : Bool := op.subscripts?.any List.isEmpty

/-- Only no subscripts at all give an array no dimensions. -/
theorem eq_nil_of_mapM {vs : List Value} (hvs : vs.mapM Value.toSubscript = .ok []) : vs = [] := by
  cases vs with
  | nil => rfl
  | cons v vs =>
    rw [List.mapM_cons] at hvs
    cases hv : v.toSubscript <;> rw [hv] at hvs
    · cases hvs
    · cases hrest : vs.mapM Value.toSubscript <;> rw [hrest] at hvs <;> cases hvs

/-- So it is where an array is made on its first use. -/
theorem eq_nil_of_implicitBounds? {vs : List Value} (hvs : implicitBounds? vs = some []) :
    vs = [] := by
  obtain ⟨is, his, hempty⟩ := Option.map_eq_some_iff.mp hvs
  obtain rfl : is = [] := by simpa using hempty
  cases hmap : vs.mapM Value.toSubscript <;> rw [hmap] at his <;> cases his
  exact eq_nil_of_mapM hmap

/-- An array without dimensions is made by an operation without subscripts. -/
theorem lacksSubscripts_of_bounds? (hbounds : op.bounds? = some []) : op.lacksSubscripts = true := by
  cases op with
  | store n v => cases hbounds
  | clear => cases hbounds
  | dimension n sizes =>
    rw [bounds?] at hbounds
    cases hsizes : sizes.mapM Value.toSubscript <;> rw [hsizes] at hbounds <;> cases hbounds
    rw [eq_nil_of_mapM hsizes]
    rfl
  | fetchElement n subscripts =>
    rw [eq_nil_of_implicitBounds? hbounds]
    rfl
  | storeElement n subscripts v =>
    rw [bounds?] at hbounds
    split at hbounds
    · rw [eq_nil_of_implicitBounds? hbounds]
      rfl
    · cases hbounds

/-- The number of elements is what was counted as the arrays were made. -/
theorem elementCount_after (h : List Operation) : (after h).elementCount = (arrays h).count :=
  (faithful_after h).wellFormed.slots.symm.trans (congrArg Shape.count (faithful_after h).shape)

/-- One operation goes beyond the bound by no more than the element of an array without dimensions. -/
theorem count_supply_le (op : Operation) (s : Shape) :
    (op.supply s).count ≤ greatestSlots ∨
      (op.supply s).count ≤ s.count + op.lacksSubscripts.toNat := by
  unfold supply
  cases op.array? with
  | none => exact .inr (Nat.le_add_right _ _)
  | some key =>
    cases hbounds : op.bounds? with
    | none => exact .inr (Nat.le_add_right _ _)
    | some bounds =>
      simp only [Option.elim_some, Shape.supply]
      split
      case isFalse => exact .inr (Nat.le_add_right _ _)
      case isTrue hmade =>
        obtain ⟨-, rfl | hfits⟩ := hmade
        · rw [lacksSubscripts_of_bounds? hbounds]
          exact .inr (Nat.le_refl _)
        · exact .inl hfits

/-- So a sequence of operations goes beyond it by no more than there are operations without
subscripts. -/
theorem count_arrays_le (h : List Operation) :
    (arrays h).count ≤ greatestSlots + h.countP lacksSubscripts := by
  induction h with
  | nil => exact Nat.zero_le _
  | cons op h ih =>
    by_cases hop : op = clear
    · subst hop
      exact Nat.zero_le _
    have hcount : (op :: h).countP lacksSubscripts =
        h.countP lacksSubscripts + op.lacksSubscripts.toNat := by
      cases hop : op.lacksSubscripts <;> simp [hop]
    rw [arrays_cons hop]
    rcases count_supply_le op (arrays h) with hle | hle <;> omega

/-- An array for which there is room is made with all its elements. -/
theorem count_arrays_of_room (hwanted : op.wanted? (after h) = some bounds)
    (hroom : (arrays h).HasRoom bounds) :
    (arrays (op :: h)).count = (arrays h).count + Table.volume bounds := by
  have hop : op ≠ clear := by
    rintro rfl
    cases hwanted
  obtain ⟨key, hkey, hnew, hbounds⟩ := of_wanted? hwanted
  have hnew' : (arrays h).bounds key = none := by
    rw [← (faithful_after h).shape]
    exact bounds_shape_eq_none.mpr hnew
  have hsupply : (arrays h).supply key bounds = _ := if_pos ⟨hnew', hroom⟩
  rw [arrays_cons hop, supply, hkey, hbounds, Option.elim_some, Option.elim_some, hsupply]

/-- Arrays with dimensions keep within the bound. After any operations, failed ones included, of which
none was without subscripts, all arrays together have at most `greatestSlots` elements; each operation
without subscripts can add one element to that and no more. An operation that is about to make an array
with dimensions for which there is no room fails for lack of memory and changes nothing. One for which
there is room, or that has no dimensions, is made with all its elements. -/
theorem after_slots_bounded (h : List Operation) :
    ((∀ op ∈ h, op.lacksSubscripts = false) → (after h).elementCount ≤ greatestSlots) ∧
    (after h).elementCount ≤ greatestSlots + h.countP lacksSubscripts ∧
    ∀ (op : Operation) (bounds : List Nat), op.wanted? (after h) = some bounds →
      (bounds ≠ [] ∧ greatestSlots < (after h).elementCount + Table.volume bounds →
        op.apply (after h) = (raise .outOfMemory, after h)) ∧
      (bounds = [] ∨ (after h).elementCount + Table.volume bounds ≤ greatestSlots →
        (after (op :: h)).elementCount = (after h).elementCount + Table.volume bounds) := by
  rw [elementCount_after]
  refine ⟨fun hall => ?_, count_arrays_le h, fun op bounds hwanted => ⟨fun hfull => ?_, ?_⟩⟩
  · have hcount : h.countP lacksSubscripts = 0 :=
      List.countP_eq_zero.mpr fun op hop => by simp [hall op hop]
    have hle := count_arrays_le h
    rwa [hcount] at hle
  · refine apply_of_not_hasRoom hwanted fun hroom => ?_
    rw [(faithful_after h).shape] at hroom
    rcases hroom with hnil | hfits
    · exact hfull.1 hnil
    · omega
  · rw [elementCount_after]
    exact count_arrays_of_room hwanted

/-- The operation that takes all room for one array. -/
def filling : Operation := dimension "A" [.number 65535]

/-- The first array takes all the elements there are. -/
theorem apply_filling :
    filling.apply (after []) = (.ok (), (after []).addTable "A" (.zeros "A" [65535])) := by
  have hsizes : [Value.number 65535].mapM Value.toSubscript = .ok [65535] := by decide +kernel
  have hnew : (after []).tables[Name.fold "A"]? = none := Std.HashMap.getElem?_empty
  have hroom : (after []).shape.HasRoom [65535] := .inr (Nat.le_refl _)
  exact (dimension_of_new hnew hsizes).trans ((allocate_eq ..).trans (if_pos hroom))

/-- Then no element is left. -/
theorem elementCount_after_filling : (after [filling]).elementCount = greatestSlots := by
  rw [elementCount_after]
  decide +kernel

/-- And there is no other array. -/
theorem getElem?_after_filling : (after [filling]).tables[Name.fold "B"]? = none := by
  rw [after, apply_filling, getElem?_addTable, if_neg (by decide)]
  exact Std.HashMap.getElem?_empty

/-- Storing in an element of a second array is refused, and makes no array. -/
theorem after_slots_bounded_full :
    apply (storeElement "B" [.number 3] (.number 1)) (after [filling]) =
      (raise .outOfMemory, after [filling]) := by
  have hthere : ¬ (after [filling]).tables.contains (Name.fold "B") = true := by
    simpa using getElem?_after_filling
  have hbounds : bounds? (storeElement "B" [.number 3] (.number 1)) = some [10] := by decide +kernel
  have hwanted : wanted? (storeElement "B" [.number 3] (.number 1)) (after [filling]) = some [10] :=
    (if_neg hthere).trans hbounds
  refine ((after_slots_bounded [filling]).2.2 _ _ hwanted).1 ⟨List.cons_ne_nil _ _, ?_⟩
  rw [elementCount_after_filling]
  decide

/-- An array without dimensions is made also when all room is taken. -/
theorem after_slots_dimensionless :
    (apply (dimension "B" []) (after [filling])).1 = .ok () ∧
      (after [dimension "B" [], filling]).elementCount = greatestSlots + 1 := by
  have hnone : ([] : List Value).mapM Value.toSubscript = .ok [] := rfl
  have hmade : apply (dimension "B" []) (after [filling]) = _ :=
    (dimension_of_new getElem?_after_filling hnone).trans
      ((allocate_eq ..).trans (if_pos (.inl rfl)))
  refine ⟨?_, ?_⟩
  · rw [hmade]
  · rw [elementCount_after]
    decide +kernel

end Operation

end Memory

end CommodoreBasic
