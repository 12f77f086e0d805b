import CommodoreBasic.Proofs.MemoryLaws
import CommodoreBasic.Proofs.Reachable
import Mathlib.Algebra.Order.Ring.Nat
import Mathlib.Data.List.Forall2

/-!
# How arrays are stored

Elements of an array are stored one behind the other, the last subscript running fastest. The place of
an element is within the array, and no two elements share a place, however many dimensions there are.

Arrays come into being when they are dimensioned or on their first use, also where that use then fails.
There must be room for a new array beside the others, or it must have no dimensions. The room is looked
at one dimension after the other, on the product of the dimensions so far. No dimension makes the
product smaller, so all these looks together say no more than the last: whether the whole array fits.
What arrays there are and how many elements they have is the shape of memory, and what an operation
does to the shape is read off the shape alone.
-/

namespace CommodoreBasic

open CommodoreBasic.Action

namespace Table

/-- How many elements an array with these bounds has. -/
def volume : (bounds : List Nat) → Nat
  | [] => 1
  | b :: bs => (b + 1) * volume bs

/-- No array is without elements. -/
theorem volume_pos (bounds : List Nat) : 0 < volume bounds := by
  induction bounds with
  | nil => exact Nat.one_pos
  | cons b bs ih => exact Nat.mul_pos (Nat.succ_pos b) ih

/-- An array of zeros. -/
def zeros (key : Name) (bounds : List Nat) : Table where
  bounds
  cells := Array.replicate (volume bounds) (.zeroFor key)

/-- The array has as many elements as its bounds say, all of the type of its name. -/
structure WellFormed (key : Name) (t : Table) : Prop where
  size : t.cells.size = volume t.bounds
  typed : ∀ v ∈ t.cells, v.fits key = true

/-- An array of zeros is in order. -/
theorem wellFormed_zeros (key : Name) (bounds : List Nat) : (zeros key bounds).WellFormed key where
  size := Array.size_replicate
  typed v hv := by
    rw [(Array.mem_replicate.mp hv).2]
    exact Value.zeroFor_fits key

/-- So it is after a value of its type was stored in it. -/
theorem WellFormed.set {key : Name} {t : Table} (ht : t.WellFormed key) {v : Value}
    (hv : v.fits key = true) (offset : Nat) :
    WellFormed key { t with cells := t.cells.setIfInBounds offset v } where
  size := by simpa using ht.size
  typed w hw := by
    rcases Array.mem_or_eq_of_mem_setIfInBounds hw with hw | rfl
    · exact ht.typed w hw
    · exact hv

end Table

namespace Memory

variable {m m' : Memory} {key : Name} {o o' p : Nat} {is js bs : List Nat}

/-! ## Places of elements -/

/-- Subscripts within the bounds have a place. -/
theorem exists_offsetFrom (h : List.Forall₂ (· ≤ ·) is bs) (o : Nat) :
    ∃ p, offsetFrom o is bs = some p := by
  induction h generalizing o with
  | nil => exact ⟨o, rfl⟩
  | cons hle _ ih =>
    rw [offsetFrom, if_pos hle]
    exact ih _

/-- Only they have one. -/
theorem forall₂_of_offsetFrom (h : offsetFrom o is bs = some p) : List.Forall₂ (· ≤ ·) is bs := by
  induction bs generalizing o is with
  | nil =>
    cases is with
    | nil => exact .nil
    | cons => cases h
  | cons b bs ih =>
    cases is with
    | nil => cases h
    | cons i is =>
      rw [offsetFrom] at h
      split at h
      case isTrue hle => exact .cons hle (ih h)
      case isFalse => cases h

/-- A place is behind those of all smaller leading subscripts and before those of greater ones. -/
theorem offsetFrom_lt (h : offsetFrom o is bs = some p) : p < (o + 1) * Table.volume bs := by
  induction bs generalizing o is with
  | nil =>
    cases is with
    | nil =>
      cases h
      rw [Table.volume]
      omega
    | cons => cases h
  | cons b bs ih =>
    cases is with
    | nil => cases h
    | cons i is =>
      rw [offsetFrom] at h
      split at h
      case isTrue hle =>
        have hstep : o * (b + 1) + i + 1 ≤ (o + 1) * (b + 1) := by
          rw [Nat.succ_mul]
          omega
        calc p < (o * (b + 1) + i + 1) * Table.volume bs := ih h
          _ ≤ (o + 1) * (b + 1) * Table.volume bs := Nat.mul_le_mul_right _ hstep
          _ = (o + 1) * Table.volume (b :: bs) := Nat.mul_assoc ..
      case isFalse => cases h

/-- No two elements share a place. The subscripts are recovered from the last to the first, each as
the remainder of a division by the number of subscripts in its dimension. -/
theorem offsetFrom_injective (h : offsetFrom o is bs = some p) (h' : offsetFrom o' js bs = some p) :
    o = o' ∧ is = js := by
  induction bs generalizing o o' is js with
  | nil =>
    cases is <;> cases js <;> cases h <;> cases h'
    exact ⟨rfl, rfl⟩
  | cons b bs ih =>
    cases is with
    | nil => cases h
    | cons i is =>
      cases js with
      | nil => cases h'
      | cons j js =>
        rw [offsetFrom] at h h'
        split at h
        case isFalse => cases h
        case isTrue hi =>
          split at h'
          case isFalse => cases h'
          case isTrue hj =>
            obtain ⟨heq, rfl⟩ := ih h h'
            have hpos : 0 < b + 1 := Nat.succ_pos b
            have hdiv := congrArg (· / (b + 1)) heq
            have hmod := congrArg (· % (b + 1)) heq
            simp only [Nat.mul_comm _ (b + 1), Nat.mul_add_div hpos, Nat.mul_add_mod,
              Nat.div_eq_of_lt (Nat.lt_succ_of_le hi), Nat.div_eq_of_lt (Nat.lt_succ_of_le hj),
              Nat.mod_eq_of_lt (Nat.lt_succ_of_le hi), Nat.mod_eq_of_lt (Nat.lt_succ_of_le hj),
              Nat.add_zero] at hdiv hmod
            exact ⟨hdiv, by rw [hmod]⟩

/-! ## The shape of memory -/

/-- What arrays there are, by the greatest subscripts of their dimensions, and how many elements they
have together. -/
structure Shape where
  bounds : Name → Option (List Nat) := fun _ => none
  count : Nat := 0

namespace Shape

/-- There is room for an array with these bounds, or it has no dimensions and needs none. -/
def HasRoom (s : Shape) (bounds : List Nat) : Prop :=
  bounds = [] ∨ s.count + Table.volume bounds ≤ greatestSlots

/-- Whether there is room can be computed. -/
instance (s : Shape) (bounds : List Nat) : Decidable (s.HasRoom bounds) :=
  inferInstanceAs (Decidable (bounds = [] ∨ _))

/-- The shape with one more array if there is none of that name and there is room for it. -/
def supply (s : Shape) (key : Name) (bounds : List Nat) : Shape :=
  if s.bounds key = none ∧ s.HasRoom bounds then
    { bounds := fun k => if k = key then some bounds else s.bounds k
      count := s.count + Table.volume bounds }
  else s

/-- An array that is there keeps its bounds. -/
theorem bounds_supply {s : Shape} {k key : Name} {bs bounds : List Nat} (h : s.bounds k = some bs) :
    (s.supply key bounds).bounds k = some bs := by
  unfold supply
  split
  case isTrue hmade =>
    refine (if_neg ?_).trans h
    rintro rfl
    rw [h] at hmade
    cases hmade.1
  case isFalse => exact h

/-- The element is within the bounds of its array, or its array is made for it with 10 as the greatest
subscript of each dimension. -/
def Reaches (s : Shape) (key : Name) (is : List Nat) : Prop :=
  match s.bounds key with
  | some bounds => List.Forall₂ (· ≤ ·) is bounds
  | none => s.HasRoom (List.replicate is.length 10) ∧ ∀ i ∈ is, i ≤ 10

/-- Whether an element is reached can be computed. -/
instance (s : Shape) (key : Name) (is : List Nat) : Decidable (s.Reaches key is) :=
  match h : s.bounds key with
  | some bounds => decidable_of_iff (List.Forall₂ (· ≤ ·) is bounds) (by rw [Reaches, h])
  | none => decidable_of_iff (s.HasRoom (List.replicate is.length 10) ∧ ∀ i ∈ is, i ≤ 10)
      (by rw [Reaches, h])

end Shape

/-- The shape that memory has. -/
def shape (m : Memory) : Shape where
  bounds key := m.tables[key]?.map Table.bounds
  count := m.slots

/-- The shape knows of no array exactly if the memory has none. -/
theorem bounds_shape_eq_none : m.shape.bounds key = none ↔ m.tables[key]? = none :=
  Option.map_eq_none_iff

/-- Makes an array of zeros if there is none of that name and there is room for it. -/
def supply (m : Memory) (key : Name) (bounds : List Nat) : Memory :=
  if m.shape.bounds key = none ∧ m.shape.HasRoom bounds then m.addTable key (.zeros key bounds)
  else m

section Supply

variable {bounds : List Nat} {t : Table}

/-- An array that is there is not made again. -/
theorem supply_of_some (ht : m.tables[key]? = some t) (bounds : List Nat) :
    m.supply key bounds = m := by
  refine if_neg fun h => ?_
  have hnone := bounds_shape_eq_none.mp h.1
  rw [ht] at hnone
  cases hnone

/-- A new array is made where there is room. -/
theorem supply_of_room (hnew : m.tables[key]? = none) (hroom : m.shape.HasRoom bounds) :
    m.supply key bounds = m.addTable key (.zeros key bounds) :=
  if_pos ⟨bounds_shape_eq_none.mpr hnew, hroom⟩

/-- Where there is no room nothing is made. -/
theorem supply_of_full (hfull : ¬ m.shape.HasRoom bounds) : m.supply key bounds = m :=
  if_neg fun h => hfull h.2

/-- A new array has its own bounds, and all others keep theirs. -/
theorem bounds_shape_addTable (m : Memory) (key : Name) (t : Table) (k : Name) :
    (m.addTable key t).shape.bounds k = if k = key then some t.bounds else m.shape.bounds k := by
  change (m.addTable key t).tables[k]?.map Table.bounds = _
  rw [getElem?_addTable]
  by_cases hk : k = key
  · rw [if_pos hk.symm, if_pos hk]
    rfl
  · rw [if_neg (Ne.symm hk), if_neg hk]
    rfl

/-- What arrays are made and how many elements are counted is seen from the shape. -/
theorem shape_supply (m : Memory) (key : Name) (bounds : List Nat) :
    (m.supply key bounds).shape = m.shape.supply key bounds := by
  unfold supply Shape.supply
  split
  · refine congrArg₂ Shape.mk (funext fun k => bounds_shape_addTable m key (.zeros key bounds) k) ?_
    exact congrArg (m.slots + ·) Array.size_replicate
  · rfl

end Supply

/-! ## What operations do -/

/-- The second memory is the first, or the first with an array of zeros made that was not there. -/
inductive Supplied (key : Name) (m : Memory) : Memory → Prop
  | same : Supplied key m m
  | made (bounds : List Nat) (hnew : m.tables[key]? = none) :
    Supplied key m (m.addTable key (.zeros key bounds))

/-- What is supplied is at most the array that was missing. -/
theorem supplied_supply (m : Memory) (key : Name) (bounds : List Nat) :
    Supplied key m (m.supply key bounds) := by
  unfold supply
  split
  case isTrue h => exact .made bounds (bounds_shape_eq_none.mp h.1)
  case isFalse => exact .same

/-- An array with dimensions is made if it fits as a whole. -/
theorem sizeBeside_cons (used size b : Nat) (bs : List Nat) :
    sizeBeside used size (b :: bs) =
      if used + size * Table.volume (b :: bs) ≤ greatestSlots then
        some (size * Table.volume (b :: bs))
      else none := by
  induction bs generalizing size b with
  | nil => simp only [sizeBeside, Table.volume, Nat.mul_one]
  | cons b' bs ih =>
    have hvolume : size * (b + 1) * Table.volume (b' :: bs) = size * Table.volume (b :: b' :: bs) :=
      Nat.mul_assoc ..
    rw [sizeBeside]
    split
    case isTrue => rw [ih, hvolume]
    case isFalse hfirst =>
      have hgrows : size * (b + 1) ≤ size * Table.volume (b :: b' :: bs) :=
        hvolume ▸ Nat.le_mul_of_pos_right _ (Table.volume_pos _)
      rw [if_neg (by omega)]

/-- An array is made if there is room for it. -/
theorem allocate_eq (key : Name) (bounds : List Nat) (m : Memory) :
    allocate key bounds m =
      if m.shape.HasRoom bounds then (.ok (), m.addTable key (.zeros key bounds))
      else (raise .outOfMemory, m) := by
  cases bounds with
  | nil => exact (if_pos (Or.inl rfl)).symm
  | cons b bs =>
    have hroom : m.shape.HasRoom (b :: bs) ↔ m.slots + Table.volume (b :: bs) ≤ greatestSlots :=
      or_iff_right (List.cons_ne_nil b bs)
    simp only [allocate, sizeBeside_cons, Nat.one_mul, hroom]
    by_cases hfits : m.slots + Table.volume (b :: bs) ≤ greatestSlots
    · rw [if_pos hfits, if_pos hfits]
      rfl
    · rw [if_neg hfits, if_neg hfits]

/-- DIM makes an array that is not there, with the bounds that it is given, if there is room. -/
theorem dimension_of_new {n : Name} {sizes : List Value} {bounds : List Nat}
    (hnew : m.tables[n.fold]? = none) (hsizes : sizes.mapM Value.toSubscript = .ok bounds) :
    dimension n sizes m = allocate n.fold bounds m := by
  have hthere : ¬ m.tables.contains n.fold = true := by simpa using hnew
  rw [dimension, if_neg hthere, hsizes]

/-- DIM fails and changes nothing, or it makes an array of zeros that was not there. -/
theorem dimension_cases (n : Name) (sizes : List Value) (m : Memory) :
    (∃ e, dimension n sizes m = (.error e, m)) ∨
      ∃ bounds, sizes.mapM Value.toSubscript = .ok bounds ∧ m.tables[n.fold]? = none ∧
        m.shape.HasRoom bounds ∧
        dimension n sizes m = (.ok (), m.addTable n.fold (.zeros n.fold bounds)) := by
  by_cases hthere : m.tables.contains n.fold = true
  · exact .inl ⟨_, if_pos hthere⟩
  have hnew : m.tables[n.fold]? = none := by simpa using hthere
  cases hsizes : sizes.mapM Value.toSubscript with
  | error e =>
    refine .inl ⟨e, ?_⟩
    rw [dimension, if_neg hthere, hsizes]
  | ok bounds =>
    rw [dimension_of_new hnew hsizes, allocate_eq]
    by_cases hroom : m.shape.HasRoom bounds
    · exact .inr ⟨bounds, rfl, hnew, hroom, if_pos hroom⟩
    · exact .inl ⟨_, if_neg hroom⟩

/-- DIM makes no other array than its own. -/
theorem supplied_dimension (n : Name) (sizes : List Value) (m : Memory) :
    Supplied n.fold m (dimension n sizes m).2 := by
  obtain ⟨e, hfails⟩ | ⟨bounds, -, hnew, -, hmade⟩ := dimension_cases n sizes m
  · rw [hfails]
    exact .same
  · rw [hmade]
    exact .made bounds hnew

/-- What DIM leaves. -/
theorem dimension_snd {n : Name} {sizes : List Value} {bounds : List Nat}
    (hsizes : sizes.mapM Value.toSubscript = .ok bounds) (m : Memory) :
    (dimension n sizes m).2 = m.supply n.fold bounds := by
  cases ht : m.tables[n.fold]? with
  | some t =>
    have hthere : m.tables.contains n.fold = true := by
      rw [← Std.HashMap.isSome_getElem?_eq_contains, ht]
      rfl
    rw [supply_of_some ht, dimension, if_pos hthere]
  | none =>
    rw [dimension_of_new ht hsizes, allocate_eq]
    by_cases hroom : m.shape.HasRoom bounds
    · rw [if_pos hroom, supply_of_room ht hroom]
    · rw [if_neg hroom, supply_of_full hroom]

/-- Before an element is looked for its array is made, if it can be. -/
theorem provide_cases (key : Name) (count : Nat) (m : Memory) :
    (∃ e, provide key count m = (.error e, m.supply key (List.replicate count 10)) ∧
        (m.supply key (List.replicate count 10)).tables[key]? = none) ∨
      ∃ t, provide key count m = (.ok (), m.supply key (List.replicate count 10)) ∧
        (m.supply key (List.replicate count 10)).tables[key]? = some t := by
  cases ht : m.tables[key]? with
  | some t =>
    have hthere : m.tables.contains key = true := by
      rw [← Std.HashMap.isSome_getElem?_eq_contains, ht]
      rfl
    rw [supply_of_some ht]
    exact .inr ⟨t, if_pos hthere, ht⟩
  | none =>
    have hthere : ¬ m.tables.contains key = true := by simpa using ht
    rw [provide, if_neg hthere, allocate_eq]
    by_cases hroom : m.shape.HasRoom (List.replicate count 10)
    · rw [if_pos hroom, supply_of_room ht hroom, getElem?_addTable, if_pos rfl]
      exact .inr ⟨_, rfl, rfl⟩
    · rw [if_neg hroom, supply_of_full hroom]
      exact .inl ⟨_, rfl, ht⟩

/-- Subscripts that are no numbers lead nowhere. -/
theorem locate_of_error {subscripts : List Value} {e : Error}
    (his : subscripts.mapM Value.toSubscript = .error e) (key : Name) (m : Memory) :
    locate key subscripts m = (.error e, m) := by
  rw [locate_eq, his]
  rfl

/-- The array of an element is made before the element is looked for. An element that is found has a
place in its array. One that is not found has none: the array is missing, or the subscripts do not suit
its bounds. -/
theorem locate_cases {subscripts : List Value} (his : subscripts.mapM Value.toSubscript = .ok is)
    (key : Name) (m : Memory) :
    (∃ e, locate key subscripts m = (.error e, m.supply key (List.replicate is.length 10)) ∧
        ∀ t, (m.supply key (List.replicate is.length 10)).tables[key]? = some t →
          offsetFrom 0 is t.bounds = none) ∨
      ∃ t p, locate key subscripts m = (.ok p, m.supply key (List.replicate is.length 10)) ∧
        (m.supply key (List.replicate is.length 10)).tables[key]? = some t ∧
        offsetFrom 0 is t.bounds = some p := by
  have hok : Action.ofExcept (.ok is) m = (.ok is, m) := rfl
  rw [locate_eq, his, bind_of_ok hok]
  obtain ⟨e, hmade, hnone⟩ | ⟨t, hmade, ht⟩ := provide_cases key is.length m
  · rw [bind_of_error hmade]
    refine .inl ⟨e, rfl, fun t ht => ?_⟩
    rw [hnone] at ht
    cases ht
  · rw [bind_of_ok hmade, offset, ht, Option.bind_some]
    cases hplace : offsetFrom 0 is t.bounds with
    | none =>
      refine .inl ⟨_, rfl, fun t' ht' => ?_⟩
      cases ht'
      exact hplace
    | some p => exact .inr ⟨t, p, rfl, rfl, hplace⟩

/-- Looking for an element leaves its array made, if that was possible. -/
theorem locate_snd {subscripts : List Value} (his : subscripts.mapM Value.toSubscript = .ok is)
    (key : Name) (m : Memory) :
    (locate key subscripts m).2 = m.supply key (List.replicate is.length 10) := by
  obtain ⟨e, hlocate, -⟩ | ⟨t, p, hlocate, -⟩ := locate_cases his key m <;> rw [hlocate]

/-- What an element that is found is known to be. -/
theorem located {subscripts : List Value} (h : locate key subscripts m = (.ok p, m')) :
    Supplied key m m' ∧ ∃ is t, subscripts.mapM Value.toSubscript = .ok is ∧
      m'.tables[key]? = some t ∧ offsetFrom 0 is t.bounds = some p := by
  cases his : subscripts.mapM Value.toSubscript with
  | error e =>
    rw [locate_of_error his] at h
    cases h
  | ok is =>
    obtain ⟨e, hlocate, -⟩ | ⟨t, p', hlocate, ht, hplace⟩ := locate_cases his key m <;>
      cases hlocate.symm.trans h
    exact ⟨supplied_supply m key _, is, t, rfl, ht, hplace⟩

/-- Finding the place of an element makes no other array than its own. -/
theorem supplied_locate (key : Name) (subscripts : List Value) (m : Memory) :
    Supplied key m (locate key subscripts m).2 := by
  cases his : subscripts.mapM Value.toSubscript with
  | error e =>
    rw [locate_of_error his]
    exact .same
  | ok is =>
    rw [locate_snd his]
    exact supplied_supply m key _

/-- Reading an element changes no more than looking for it. -/
theorem fetchElement_snd (n : Name) (subscripts : List Value) (m : Memory) :
    (fetchElement n subscripts m).2 = (locate n.fold subscripts m).2 := by
  refine bind_state (fun p m' => ?_) m
  split <;> rfl

/-- Neither does fetching the element. -/
theorem supplied_fetchElement (n : Name) (subscripts : List Value) (m : Memory) :
    Supplied n.fold m (fetchElement n subscripts m).2 :=
  fetchElement_snd n subscripts m ▸ supplied_locate n.fold subscripts m

/-- The memory with a value stored at a place of an array. -/
def put (m : Memory) (key : Name) (p : Nat) (v : Value) : Memory :=
  { m with tables := m.tables.modify key fun t => { t with cells := t.cells.setIfInBounds p v } }

/-- Stores a value at a place of an array. -/
def putAt (key : Name) (v : Value) (p : Nat) : Action Memory Unit := fun m =>
  match m.tables[key]?.map (·.cells.size) with
  | some size => if p < size then (.ok (), m.put key p v) else (raise .badSubscript, m)
  | none => (raise .badSubscript, m)

/-- A value of the right type is stored at the place of its element. -/
theorem storeElement_eq {n : Name} {v : Value} (hv : v.fits n.fold = true) (subscripts : List Value) :
    storeElement n subscripts v = locate n.fold subscripts >>= putAt n.fold v := by
  unfold storeElement
  rw [hv]
  rfl

/-- One cell of one array is written, if the array has it. -/
theorem getElem?_put (m : Memory) (key : Name) (p : Nat) (v : Value) (k : Name) :
    (m.put key p v).tables[k]? =
      if key = k then
        m.tables[k]?.map fun t => { t with cells := t.cells.setIfInBounds p v }
      else m.tables[k]? := by
  rw [put, Std.HashMap.getElem?_modify]
  by_cases hkey : key = k
  · rw [if_pos hkey, if_pos (beq_iff_eq.mpr hkey), hkey]
  · rw [if_neg hkey, if_neg (by simpa using hkey)]

/-- Storing in an element leaves the shape as it is. -/
theorem shape_put (m : Memory) (key : Name) (p : Nat) (v : Value) :
    (m.put key p v).shape = m.shape := by
  refine congrArg₂ Shape.mk (funext fun k => ?_) rfl
  rw [getElem?_put]
  split
  · rw [Option.map_map]
    rfl
  · rfl

/-- A value of the wrong type is refused before the element is looked for. -/
theorem storeElement_of_not_fits {n : Name} {v : Value} (hv : v.fits n.fold = false)
    (subscripts : List Value) (m : Memory) :
    storeElement n subscripts v m = (raise .typeMismatch, m) := by
  unfold storeElement
  rw [hv]
  rfl

/-- What is left by storing in an element has the shape that looking for it has left. -/
theorem shape_storeElement {n : Name} {v : Value} (hv : v.fits n.fold = true)
    (subscripts : List Value) (m : Memory) :
    (storeElement n subscripts v m).2.shape = (locate n.fold subscripts m).2.shape := by
  rw [storeElement_eq hv, bind_apply]
  rcases locate n.fold subscripts m with ⟨_ | p, m'⟩
  · rfl
  · change (putAt n.fold v p m').2.shape = m'.shape
    unfold putAt
    split
    · split
      · exact shape_put m' n.fold p v
      · rfl
    · rfl

/-- An array that is there afterwards was there before, or is new and has zeros. -/
theorem getElem?_supplied (h : Supplied key m m') {k : Name} {t : Table}
    (ht : m'.tables[k]? = some t) :
    m.tables[k]? = some t ∨ m.tables[k]? = none ∧ ∃ bounds, t = .zeros k bounds := by
  cases h with
  | same => exact .inl ht
  | made bounds hnew =>
    rw [getElem?_addTable] at ht
    by_cases hkey : key = k
    · subst hkey
      rw [if_pos rfl] at ht
      cases ht
      exact .inr ⟨hnew, bounds, rfl⟩
    · rw [if_neg hkey] at ht
      exact .inl ht

/-- An array that was there is not made again. -/
theorem getElem?_of_supplied (h : Supplied key m m') {k : Name} {t : Table}
    (ht : m.tables[k]? = some t) : m'.tables[k]? = some t := by
  cases h with
  | same => exact ht
  | made bounds hnew =>
    have hkey : ¬ key = k := by
      rintro rfl
      rw [hnew] at ht
      cases ht
    rw [getElem?_addTable, if_neg hkey]
    exact ht

/-! ## The number of elements -/

/-- How many elements the arrays have together. -/
def elementCount (m : Memory) : Nat := (m.tables.toList.map fun entry => entry.2.cells.size).sum

/-- Without arrays there are no elements. -/
theorem elementCount_of_tables_eq_empty (h : m.tables = {}) : m.elementCount = 0 := by
  rw [elementCount, h, Std.HashMap.toList_empty]
  rfl

/-- Memories with equivalent tables have as many elements. -/
theorem elementCount_congr (h : m.tables.Equiv m'.tables) : m.elementCount = m'.elementCount := by
  have hperm := h.toList_perm.map fun entry => entry.2.cells.size
  exact hperm.sum_nat

/-- An array under a name counts with its own elements beside those of the other names. -/
theorem elementCount_insert (m : Memory) (key : Name) (t : Table) :
    elementCount { m with tables := m.tables.insert key t } =
      t.cells.size + ((m.tables.toList.filter fun entry => ¬ (key == entry.1) = true).map
        fun entry => entry.2.cells.size).sum := by
  have hperm := (Std.HashMap.toList_insert_perm (m := m.tables) (k := key) (v := t)).map
    fun entry => entry.2.cells.size
  rw [elementCount, hperm.sum_nat, List.map_cons, List.sum_cons]

/-- Making an array adds its elements. -/
theorem elementCount_addTable (hnew : m.tables[key]? = none) (t : Table) :
    (m.addTable key t).elementCount = m.elementCount + t.cells.size := by
  have hothers : (m.tables.toList.filter fun entry => ¬ (key == entry.1) = true) =
      m.tables.toList := by
    refine List.filter_eq_self.mpr fun entry hentry => ?_
    have hget := Std.HashMap.mem_toList_iff_getElem?_eq_some.mp hentry
    simp only [beq_iff_eq, decide_not, Bool.not_eq_eq_eq_not, Bool.not_true, decide_eq_false_iff_not]
    rintro rfl
    rw [hnew] at hget
    cases hget
  have hinsert := elementCount_insert m key t
  rw [hothers, Nat.add_comm] at hinsert
  exact hinsert

/-- Storing in an array leaves the number of elements as it is. -/
theorem elementCount_put {t : Table} (ht : m.tables[key]? = some t) (p : Nat) (v : Value) :
    (m.put key p v).elementCount = m.elementCount := by
  have hbefore : m.tables.Equiv (m.tables.insert key t) := by
    refine Std.HashMap.Equiv.of_forall_getElem?_eq fun k => ?_
    rw [Std.HashMap.getElem?_insert]
    split
    case isTrue hkey => rw [← beq_iff_eq.mp hkey, ht]
    case isFalse => rfl
  have hafter : (m.put key p v).tables.Equiv
      (m.tables.insert key { t with cells := t.cells.setIfInBounds p v }) := by
    refine Std.HashMap.Equiv.of_forall_getElem?_eq fun k => ?_
    rw [getElem?_put, Std.HashMap.getElem?_insert]
    by_cases hkey : key = k
    · rw [if_pos hkey, if_pos (beq_iff_eq.mpr hkey), ← hkey, ht, Option.map_some]
    · rw [if_neg hkey, if_neg (by simpa using hkey)]
  calc (m.put key p v).elementCount
      = elementCount { m with
          tables := m.tables.insert key { t with cells := t.cells.setIfInBounds p v } } :=
        elementCount_congr hafter
    _ = elementCount { m with tables := m.tables.insert key t } := by
        rw [elementCount_insert, elementCount_insert, Array.size_setIfInBounds]
    _ = m.elementCount := elementCount_congr hbefore.symm

/-! ## Well-formed memory -/

/-- Every variable and every element has a value of its own type, every array has as many elements as
its bounds say, and all elements are counted. -/
structure WellFormed (m : Memory) : Prop where
  scalars : m.Typed
  tables : ∀ (key : Name) (t : Table), m.tables[key]? = some t → t.WellFormed key
  slots : m.slots = m.elementCount

/-- Memory without variables and arrays is in order. -/
theorem wellFormed_of_empty (hscalars : m.scalars = {}) (htables : m.tables = {})
    (hslots : m.slots = 0) : m.WellFormed where
  scalars key v hv := by
    rw [hscalars] at hv
    cases hv.symm.trans Std.HashMap.getElem?_empty
  tables key t ht := by
    rw [htables] at ht
    cases ht.symm.trans Std.HashMap.getElem?_empty
  slots := by rw [hslots, elementCount_of_tables_eq_empty htables]

namespace WellFormed

/-- A variable may get a value of its type. -/
theorem insert (hm : m.WellFormed) {v : Value} (hv : v.fits key = true) :
    WellFormed { m with scalars := m.scalars.insert key v } where
  scalars := typed_insert hm.scalars hv
  tables := hm.tables
  slots := hm.slots

/-- The clock has nothing to do with the arrays. -/
theorem advanceClock (hm : m.WellFormed) : m.advanceClock.WellFormed where
  scalars := typed_advanceClock hm.scalars
  tables := hm.tables
  slots := hm.slots

/-- An array may be made. -/
theorem supplied (hm : m.WellFormed) (h : Supplied key m m') : m'.WellFormed where
  scalars := by
    cases h with
    | same => exact hm.scalars
    | made => exact hm.scalars
  tables k t ht := by
    obtain ht | ⟨-, bounds, rfl⟩ := getElem?_supplied h ht
    · exact hm.tables k t ht
    · exact Table.wellFormed_zeros k bounds
  slots := by
    cases h with
    | same => exact hm.slots
    | made bounds hnew =>
      rw [elementCount_addTable hnew, ← hm.slots]
      rfl

/-- An element may get a value of its type. -/
theorem put (hm : m.WellFormed) {t : Table} (ht : m.tables[key]? = some t) {v : Value}
    (hv : v.fits key = true) (p : Nat) : (m.put key p v).WellFormed where
  scalars := hm.scalars
  tables k t' ht' := by
    rw [getElem?_put] at ht'
    by_cases hkey : key = k
    · rw [if_pos hkey] at ht'
      obtain ⟨t, ht, rfl⟩ := Option.map_eq_some_iff.mp ht'
      exact (hm.tables k t ht).set (hkey ▸ hv) p
    · rw [if_neg hkey] at ht'
      exact hm.tables k t' ht'
  slots := by
    rw [elementCount_put ht, ← hm.slots]
    rfl

/-- A place is among the elements of its array. -/
theorem lt_size (hm : m.WellFormed) {t : Table} (ht : m.tables[key]? = some t)
    (hplace : offsetFrom 0 is t.bounds = some p) : p < t.cells.size := by
  rw [(hm.tables key t ht).size]
  simpa using offsetFrom_lt hplace

/-- An element that is found can be read. -/
theorem fetchElement (hm : m.WellFormed) {n : Name} {subscripts : List Value}
    (h : locate n.fold subscripts m = (.ok p, m')) :
    ∃ t v, m'.tables[n.fold]? = some t ∧ t.cells[p]? = some v ∧
      Memory.fetchElement n subscripts m = (.ok v, m') := by
  obtain ⟨hsupplied, is, t, -, ht, hplace⟩ := located h
  have hlt := (hm.supplied hsupplied).lt_size ht hplace
  refine ⟨t, t.cells[p], ht, Array.getElem?_eq_getElem hlt, ?_⟩
  refine (bind_of_ok h).trans ?_
  rw [ht, Option.bind_some, Array.getElem?_eq_getElem hlt]

/-- An element that is found can be stored in. -/
theorem storeElement (hm : m.WellFormed) {n : Name} {subscripts : List Value}
    (h : locate n.fold subscripts m = (.ok p, m')) {v : Value} (hv : v.fits n.fold = true) :
    Memory.storeElement n subscripts v m = (.ok (), m'.put n.fold p v) := by
  obtain ⟨hsupplied, is, t, -, ht, hplace⟩ := located h
  have hlt := (hm.supplied hsupplied).lt_size ht hplace
  rw [storeElement_eq hv, bind_of_ok h, putAt, ht, Option.map_some]
  exact if_pos hlt

end WellFormed

/-- Storing in an element is refused for a value of the wrong type, before the element is looked for, or
because it is not found; then no more has happened than that its array was made. -/
theorem storeElement_cases (hm : m.WellFormed) (n : Name) (subscripts : List Value) (v : Value) :
    (∃ e m', storeElement n subscripts v m = (.error e, m') ∧ Supplied n.fold m m') ∨
      ∃ is p m' t, v.fits n.fold = true ∧ subscripts.mapM Value.toSubscript = .ok is ∧
        Supplied n.fold m m' ∧ m'.tables[n.fold]? = some t ∧ offsetFrom 0 is t.bounds = some p ∧
        storeElement n subscripts v m = (.ok (), m'.put n.fold p v) := by
  cases hv : v.fits n.fold with
  | false => exact .inl ⟨_, m, storeElement_of_not_fits hv subscripts m, .same⟩
  | true =>
    rcases hlocate : locate n.fold subscripts m with ⟨e | p, m'⟩
    · have hsupplied := supplied_locate n.fold subscripts m
      rw [hlocate] at hsupplied
      refine .inl ⟨e, m', ?_, hsupplied⟩
      rw [storeElement_eq hv, bind_of_error hlocate]
    · obtain ⟨hsupplied, is, t, his, ht, hplace⟩ := located hlocate
      exact .inr ⟨is, p, m', t, rfl, his, hsupplied, ht, hplace, hm.storeElement hlocate hv⟩

/-! ## Elements that can be used -/

/-- Subscripts are within equal bounds exactly if none is greater. -/
theorem forall₂_replicate (b : Nat) :
    List.Forall₂ (· ≤ ·) is (List.replicate is.length b) ↔ ∀ i ∈ is, i ≤ b := by
  induction is with
  | nil => simp
  | cons i is ih => simp [List.replicate_succ, ih]

/-- An element can be used exactly if it has a place once its array is made. -/
theorem reaches_iff (m : Memory) (key : Name) (is : List Nat) :
    m.shape.Reaches key is ↔ ∃ t p,
      (m.supply key (List.replicate is.length 10)).tables[key]? = some t ∧
        offsetFrom 0 is t.bounds = some p := by
  have hplace (bounds : List Nat) :
      List.Forall₂ (· ≤ ·) is bounds ↔ ∃ p, offsetFrom 0 is bounds = some p :=
    ⟨fun h => exists_offsetFrom h 0, fun ⟨_, h⟩ => forall₂_of_offsetFrom h⟩
  cases ht : m.tables[key]? with
  | some t =>
    have hbounds : m.shape.bounds key = some t.bounds := congrArg (Option.map Table.bounds) ht
    rw [supply_of_some ht, ht, Shape.Reaches, hbounds]
    simp only [hplace, Option.some.injEq, exists_and_left, exists_eq_left']
  | none =>
    have hbounds := bounds_shape_eq_none.mpr ht
    rw [Shape.Reaches, hbounds]
    by_cases hroom : m.shape.HasRoom (List.replicate is.length 10)
    · rw [supply_of_room ht hroom, getElem?_addTable, if_pos rfl]
      simp only [hroom, true_and, ← forall₂_replicate, hplace, Option.some.injEq, exists_and_left,
        exists_eq_left']
      rfl
    · rw [supply_of_full hroom, ht]
      simp [hroom]

/-- It is read then, and else there is an error. -/
theorem WellFormed.fetchElement_cases (hm : m.WellFormed) {subscripts : List Value}
    (his : subscripts.mapM Value.toSubscript = .ok is) (n : Name) :
    (¬ m.shape.Reaches n.fold is ∧ ∃ e, (Memory.fetchElement n subscripts m).1 = .error e) ∨
      m.shape.Reaches n.fold is ∧ ∃ t p v,
        (m.supply n.fold (List.replicate is.length 10)).tables[n.fold]? = some t ∧
        offsetFrom 0 is t.bounds = some p ∧ t.cells[p]? = some v ∧
        (Memory.fetchElement n subscripts m).1 = .ok v := by
  rw [reaches_iff]
  obtain ⟨e, hlocate, hnone⟩ | ⟨t, p, hlocate, ht, hplace⟩ := locate_cases his n.fold m
  · refine .inl ⟨?_, e, ?_⟩
    · rintro ⟨t, p, ht, hplace⟩
      rw [hnone t ht] at hplace
      cases hplace
    · have hfails : Memory.fetchElement n subscripts m = (.error e, _) := bind_of_error hlocate
      rw [hfails]
  · obtain ⟨t', v, ht', hv, hfetch⟩ := hm.fetchElement hlocate
    cases ht.symm.trans ht'
    exact .inr ⟨⟨t, p, ht, hplace⟩, t, p, v, ht, hplace, hv, by rw [hfetch]⟩

/-- A value can be stored in it exactly if it has the right type. -/
theorem WellFormed.storeElement_eq_ok_iff (hm : m.WellFormed) {subscripts : List Value}
    (his : subscripts.mapM Value.toSubscript = .ok is) (n : Name) (v : Value) :
    (Memory.storeElement n subscripts v m).1 = .ok () ↔
      v.fits n.fold = true ∧ m.shape.Reaches n.fold is := by
  cases hv : v.fits n.fold with
  | false =>
    rw [storeElement_of_not_fits hv]
    exact iff_of_false (fun h => by cases h) fun h => Bool.false_ne_true h.1
  | true =>
    rw [reaches_iff, eq_self_iff_true, true_and]
    obtain ⟨e, hlocate, hnone⟩ | ⟨t, p, hlocate, ht, hplace⟩ := locate_cases his n.fold m
    · rw [Memory.storeElement_eq hv, bind_of_error hlocate]
      refine iff_of_false (fun h => by cases h) ?_
      rintro ⟨t, p, ht, hplace⟩
      rw [hnone t ht] at hplace
      cases hplace
    · rw [hm.storeElement hlocate hv]
      exact iff_of_true rfl ⟨t, p, ht, hplace⟩

end Memory

end CommodoreBasic
