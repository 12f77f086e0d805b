import CommodoreBasic.Proofs.ArrayStorage

/-!
# Memory is a map from names and subscripts to values of the right type

An array is a map from lists of subscripts to values, and memory holds one for each folded name. What
memory is after a sequence of operations is read off the sequence. An array has the bounds that it was
dimensioned with, or 10 in each dimension if it was used before, and it stays until memory is cleared.
An element has the value that was last stored in it since then, and else the zero of its type. One step
lemma for each kind of operation carries the induction over the sequence.
-/

namespace CommodoreBasic

open CommodoreBasic.Action

namespace Memory

variable {m m' : Memory} {key : Name} {p : Nat} {is : List Nat}

/-! ## The map that memory holds -/

/-- The elements of the arrays are the values of the map. Where there is no array yet, the map has
zeros. -/
structure Holds (m : Memory) (values : Name → List Nat → Value) : Prop where
  element {key : Name} {is : List Nat} {t : Table} {p : Nat} (ht : m.tables[key]? = some t)
    (hplace : offsetFrom 0 is t.bounds = some p) : t.cells[p]? = some (values key is)
  zero {key : Name} (hnew : m.tables[key]? = none) (is : List Nat) : values key is = .zeroFor key

namespace Holds

variable {values : Name → List Nat → Value}

/-- Making an array changes no value of the map. -/
theorem supplied (h : m.Holds values) (hsupplied : Supplied key m m') : m'.Holds values where
  element {k is t p} ht hplace := by
    obtain ht | ⟨hnew, bounds, rfl⟩ := getElem?_supplied hsupplied ht
    · exact h.element ht hplace
    · have hlt : p < Table.volume bounds := by simpa [Table.zeros] using offsetFrom_lt hplace
      rw [h.zero hnew is, Table.zeros, Array.getElem?_replicate, if_pos hlt]
  zero {k} hnew is := by
    refine h.zero ?_ is
    by_contra hthere
    obtain ⟨t, ht⟩ := Option.ne_none_iff_exists'.mp hthere
    rw [getElem?_of_supplied hsupplied ht] at hnew
    cases hnew

/-- Storing at the place of an element changes the value there and no other. -/
theorem put (h : m.Holds values) (hm : m.WellFormed) {t : Table} (ht : m.tables[key]? = some t)
    (hplace : offsetFrom 0 is t.bounds = some p) (v : Value) :
    (m.put key p v).Holds fun k js => if k = key ∧ js = is then v else values k js where
  element {k js t' q} ht' hplace' := by
    rw [getElem?_put] at ht'
    by_cases hkey : key = k
    · subst hkey
      rw [if_pos rfl, ht, Option.map_some, Option.some.injEq] at ht'
      subst ht'
      have hlt := hm.lt_size ht hplace
      by_cases hjs : js = is
      · subst hjs
        cases hplace.symm.trans hplace'
        rw [if_pos ⟨rfl, rfl⟩]
        exact Array.getElem?_setIfInBounds_self_of_lt hlt
      · have hne : p ≠ q := by
          rintro rfl
          exact hjs (offsetFrom_injective hplace' hplace).2
        rw [if_neg fun heq => hjs heq.2, Array.getElem?_setIfInBounds_ne hne]
        exact h.element ht hplace'
    · rw [if_neg hkey] at ht'
      rw [if_neg fun heq => hkey heq.1.symm]
      exact h.element ht' hplace'
  zero {k} hnew js := by
    rw [getElem?_put] at hnew
    by_cases hkey : key = k
    · subst hkey
      rw [if_pos rfl, ht] at hnew
      cases hnew
    · rw [if_neg hkey] at hnew
      rw [if_neg fun heq => hkey heq.1.symm]
      exact h.zero hnew js

end Holds

/-- Empty memory holds the map of zeros. -/
theorem holds_of_tables_eq_empty (h : m.tables = {}) : m.Holds fun key _ => .zeroFor key where
  element ht _ := by
    rw [h] at ht
    cases ht.symm.trans Std.HashMap.getElem?_empty
  zero _ _ := rfl

/-! ## Sequences of operations -/

/-- An operation on memory. -/
inductive Operation where
  | store (n : Name) (v : Value)
  | dimension (n : Name) (sizes : List Value)
  | fetchElement (n : Name) (subscripts : List Value)
  | storeElement (n : Name) (subscripts : List Value) (v : Value)
  | clear

/-- The bounds of the array that is made when it is used with these subscripts. -/
def implicitBounds? (subscripts : List Value) : Option (List Nat) :=
  (subscripts.mapM Value.toSubscript).toOption.map fun is => List.replicate is.length 10

/-- Looking for an element makes its array, if the subscripts are numbers. -/
theorem shape_locate (key : Name) (subscripts : List Value) (m : Memory) :
    (locate key subscripts m).2.shape =
      (implicitBounds? subscripts).elim m.shape (m.shape.supply key) := by
  unfold implicitBounds?
  cases his : subscripts.mapM Value.toSubscript with
  | error e =>
    rw [locate_of_error his]
    rfl
  | ok is =>
    rw [locate_snd his]
    exact shape_supply m key _

namespace Operation

/-- What the operation does to memory, and whether it fails. -/
def apply : Operation → Action Memory Unit
  | store n v => Memory.store n v
  | dimension n sizes => Memory.dimension n sizes
  | fetchElement n subscripts => do let _ ← Memory.fetchElement n subscripts
  | storeElement n subscripts v => Memory.storeElement n subscripts v
  | clear => Action.modify Memory.clear

/-- Memory after operations, the last of which stands first. Those that fail count too. -/
def after : List Operation → Memory
  | [] => {}
  | op :: earlier => (op.apply (after earlier)).2

/-- The folded name of the array that the operation uses. -/
def array? : Operation → Option Name
  | dimension n _ | fetchElement n _ | storeElement n _ _ => some n.fold
  | store .. | clear => none

/-- The bounds that an array would have if the operation made it. -/
def bounds? : Operation → Option (List Nat)
  | dimension _ sizes => (sizes.mapM Value.toSubscript).toOption
  | fetchElement _ subscripts => implicitBounds? subscripts
  | storeElement n subscripts v => if v.fits n.fold then implicitBounds? subscripts else none
  | store .. | clear => none

/-- The shape after an operation that is not `clear`: there may be one more array. -/
def supply (op : Operation) (s : Shape) : Shape :=
  op.array?.elim s fun key => op.bounds?.elim s (s.supply key)

/-- What arrays the operations leave. -/
def arrays : List Operation → Shape
  | [] => {}
  | clear :: _ => {}
  | op :: earlier => op.supply (arrays earlier)

/-- The map that the operations leave: an element has the value that was last stored in it since memory
was cleared, and else the zero of its type. -/
def values : List Operation → Name → List Nat → Value
  | [], key, _ => .zeroFor key
  | clear :: _, key, _ => .zeroFor key
  | storeElement n subscripts v :: earlier, key, is =>
    if key = n.fold ∧ (subscripts.mapM Value.toSubscript).toOption = some is ∧
        v.fits n.fold = true ∧ (arrays earlier).Reaches n.fold is then v
    else values earlier key is
  | _ :: earlier, key, is => values earlier key is

/-- Values that can be read as subscripts are some. -/
theorem toOption_eq_some {vs : List Value} (hvs : vs.mapM Value.toSubscript = .ok is) :
    (vs.mapM Value.toSubscript).toOption = some is := by
  rw [hvs]
  rfl

/-- What arrays there are after an operation depends on what arrays there were. -/
theorem shape_apply {op : Operation} (hop : op ≠ clear) (m : Memory) :
    (op.apply m).2.shape = op.supply m.shape := by
  cases op with
  | store n v =>
    change (Memory.store n v m).2.shape = m.shape
    obtain ⟨e, hstore⟩ | ⟨-, -, -, hstore⟩ := store_cases n v m <;> rw [hstore]
    rfl
  | dimension n sizes =>
    change (Memory.dimension n sizes m).2.shape = _
    rw [supply, bounds?]
    cases hsizes : sizes.mapM Value.toSubscript with
    | error e =>
      obtain ⟨e', hfails⟩ | ⟨bounds, hok, -⟩ := dimension_cases n sizes m
      · rw [hfails]
        rfl
      · cases hsizes.symm.trans hok
    | ok bounds =>
      rw [dimension_snd hsizes]
      exact shape_supply m n.fold bounds
  | fetchElement n subscripts =>
    have hstate : (apply (fetchElement n subscripts) m).2 = (locate n.fold subscripts m).2 :=
      (bind_state (fun _ _ => rfl) m).trans (fetchElement_snd n subscripts m)
    rw [hstate]
    exact shape_locate n.fold subscripts m
  | storeElement n subscripts v =>
    change (Memory.storeElement n subscripts v m).2.shape = _
    cases hv : v.fits n.fold with
    | false =>
      rw [storeElement_of_not_fits hv, supply, bounds?, hv]
      rfl
    | true =>
      rw [shape_storeElement hv, supply, bounds?, hv]
      exact shape_locate n.fold subscripts m
  | clear => exact absurd rfl hop

/-- An operation other than CLEAR adds to the arrays that there were before it. -/
theorem arrays_cons {op : Operation} (hop : op ≠ clear) (h : List Operation) :
    arrays (op :: h) = op.supply (arrays h) := by
  cases op with
  | clear => exact absurd rfl hop
  | _ => rfl

variable {h : List Operation}

/-- Memory is in order after the operations, and holds the arrays and the map that they leave. -/
structure Faithful (h : List Operation) (m : Memory) : Prop where
  wellFormed : m.WellFormed
  shape : m.shape = arrays h
  holds : m.Holds (values h)

/-- Empty memory is what no operations leave, and what is left when memory is cleared. -/
theorem Faithful.of_empty (hscalars : m.scalars = {}) (htables : m.tables = {}) (hslots : m.slots = 0)
    (harrays : arrays h = {}) (hvalues : values h = fun key _ => .zeroFor key) : Faithful h m where
  wellFormed := wellFormed_of_empty hscalars htables hslots
  shape := by
    rw [harrays]
    refine congrArg₂ Shape.mk (funext fun key => ?_) hslots
    rw [htables, Std.HashMap.getElem?_empty]
    rfl
  holds := by
    rw [hvalues]
    exact holds_of_tables_eq_empty htables

/-- An operation that at most makes an array leaves the map as it is. -/
theorem Faithful.supplied {op : Operation} (hm : Faithful h (after h)) (hop : op ≠ clear)
    (hvalues : values (op :: h) = values h)
    (hsupplied : Supplied key (after h) (after (op :: h))) : Faithful (op :: h) (after (op :: h)) where
  wellFormed := hm.wellFormed.supplied hsupplied
  shape := by
    rw [arrays_cons hop, ← hm.shape]
    exact shape_apply hop (after h)
  holds := by
    rw [hvalues]
    exact hm.holds.supplied hsupplied

/-- An element that is stored in changes the map at its own name and subscripts. -/
theorem Faithful.stored {n : Name} {subscripts : List Value} {v : Value} {t : Table}
    (hm : Faithful h (after h)) (hv : v.fits n.fold = true)
    (his : subscripts.mapM Value.toSubscript = .ok is) (hsupplied : Supplied n.fold (after h) m')
    (ht : m'.tables[n.fold]? = some t) (hplace : offsetFrom 0 is t.bounds = some p)
    (hstore : Memory.storeElement n subscripts v (after h) = (.ok (), m'.put n.fold p v)) :
    Faithful (storeElement n subscripts v :: h) (m'.put n.fold p v) where
  wellFormed := (hm.wellFormed.supplied hsupplied).put ht hv p
  shape := by
    have hop : storeElement n subscripts v ≠ clear := fun heq => by cases heq
    have hshape := shape_apply hop (after h)
    rw [arrays_cons hop, ← hm.shape, ← hshape]
    exact congrArg (·.2.shape) hstore.symm
  holds := by
    have hreaches : (arrays h).Reaches n.fold is := by
      rw [← hm.shape]
      exact ((hm.wellFormed.storeElement_eq_ok_iff his n v).mp (congrArg Prod.fst hstore)).2
    have hvalues : values (storeElement n subscripts v :: h) =
        fun key js => if key = n.fold ∧ js = is then v else values h key js := by
      funext key js
      rw [values, toOption_eq_some his]
      refine if_congr ⟨fun hstored => ⟨hstored.1, (Option.some.inj hstored.2.1).symm⟩, ?_⟩ rfl rfl
      rintro ⟨hkey, rfl⟩
      exact ⟨hkey, rfl, hv, hreaches⟩
    rw [hvalues]
    exact (hm.holds.supplied hsupplied).put (hm.wellFormed.supplied hsupplied) ht hplace v

/-- A store that fails does not count. -/
theorem values_of_error {n : Name} {subscripts : List Value} {v : Value} {e : Error}
    (hm : Faithful h (after h)) (hstore : (Memory.storeElement n subscripts v (after h)).1 = .error e) :
    values (storeElement n subscripts v :: h) = values h := by
  funext key is
  refine if_neg fun ⟨_, his, hv, hreaches⟩ => ?_
  cases hmap : subscripts.mapM Value.toSubscript with
  | error e' =>
    rw [hmap] at his
    cases his
  | ok is' =>
    cases (toOption_eq_some hmap).symm.trans his
    rw [← hm.shape] at hreaches
    have hok := (hm.wellFormed.storeElement_eq_ok_iff hmap n v).mpr ⟨hv, hreaches⟩
    rw [hstore] at hok
    cases hok

/-- Whatever the operations were, memory is in order. Each of them keeps it so. -/
theorem faithful_after (h : List Operation) : Faithful h (after h) := by
  induction h with
  | nil => exact .of_empty rfl rfl rfl rfl rfl
  | cons op h ih =>
    cases op with
    | store n v =>
      have hstate : after (store n v :: h) = (Memory.store n v (after h)).2 := rfl
      rw [hstate]
      obtain ⟨e, hstore⟩ | ⟨-, hfits, -, hstore⟩ := store_cases n v (after h) <;> rw [hstore]
      · exact ⟨ih.wellFormed, ih.shape, ih.holds⟩
      · exact ⟨ih.wellFormed.insert hfits, ih.shape, ih.holds.element, ih.holds.zero⟩
    | dimension n sizes =>
      exact ih.supplied (fun heq => by cases heq) rfl (supplied_dimension n sizes (after h))
    | fetchElement n subscripts =>
      have hstate : after (fetchElement n subscripts :: h) =
          (Memory.fetchElement n subscripts (after h)).2 := bind_state (fun _ _ => rfl) (after h)
      have hsupplied := supplied_fetchElement n subscripts (after h)
      rw [← hstate] at hsupplied
      exact ih.supplied (fun heq => by cases heq) rfl hsupplied
    | storeElement n subscripts v =>
      have hstate : after (storeElement n subscripts v :: h) =
          (Memory.storeElement n subscripts v (after h)).2 := rfl
      obtain ⟨e, m', hstore, hsupplied⟩ | ⟨is, p, m', t, hv, his, hsupplied, ht, hplace, hstore⟩ :=
        storeElement_cases ih.wellFormed n subscripts v
      · have hvalues := values_of_error ih (congrArg Prod.fst hstore)
        have hleft : after (storeElement n subscripts v :: h) = m' := by rw [hstate, hstore]
        rw [← hleft] at hsupplied
        exact ih.supplied (fun heq => by cases heq) hvalues hsupplied
      · rw [hstate, hstore]
        exact ih.stored hv his hsupplied ht hplace hstore
    | clear => exact .of_empty rfl rfl rfl rfl rfl

/-- An operation that fails changes no variable and no array that there is. -/
theorem apply_of_error (hm : m.WellFormed) {op : Operation} {e : Error}
    (hfails : op.apply m = (.error e, m')) :
    m'.scalars = m.scalars ∧ ∀ (key : Name) (t : Table), m.tables[key]? = some t →
      m'.tables[key]? = some t := by
  have hsame {key : Name} (hsupplied : Supplied key m m') : m'.scalars = m.scalars ∧
      ∀ (key : Name) (t : Table), m.tables[key]? = some t → m'.tables[key]? = some t := by
    refine ⟨?_, fun k t ht => getElem?_of_supplied hsupplied ht⟩
    cases hsupplied <;> rfl
  cases op with
  | store n v =>
    obtain ⟨e', hstore⟩ | ⟨-, -, -, hstore⟩ := store_cases n v m <;>
      cases hstore.symm.trans hfails
    exact ⟨rfl, fun _ _ ht => ht⟩
  | dimension n sizes =>
    obtain ⟨e', hdimension⟩ | ⟨_, -, -, -, hdimension⟩ := dimension_cases n sizes m <;>
      cases hdimension.symm.trans hfails
    exact ⟨rfl, fun _ _ ht => ht⟩
  | fetchElement n subscripts =>
    have hstate : (apply (fetchElement n subscripts) m).2 = (Memory.fetchElement n subscripts m).2 :=
      bind_state (fun _ _ => rfl) m
    rw [hfails] at hstate
    exact hsame (hstate ▸ supplied_fetchElement n subscripts m)
  | storeElement n subscripts v =>
    obtain ⟨e', m'', hstore, hsupplied⟩ | ⟨_, _, _, _, _, _, _, _, _, hstore⟩ :=
      storeElement_cases hm n subscripts v <;> cases hstore.symm.trans hfails
    exact hsame hsupplied
  | clear => cases hfails

/-- No operation but `clear` takes an array away or gives it other bounds. -/
theorem bounds_apply {op : Operation} (hop : op ≠ clear) {t : Table}
    (ht : m.tables[key]? = some t) :
    ∃ t', (op.apply m).2.tables[key]? = some t' ∧ t'.bounds = t.bounds := by
  have hbefore : m.shape.bounds key = some t.bounds := congrArg (Option.map Table.bounds) ht
  have hafter : (op.apply m).2.shape.bounds key = some t.bounds := by
    rw [shape_apply hop, supply]
    cases op.array? with
    | none => exact hbefore
    | some key =>
      cases op.bounds? with
      | none => exact hbefore
      | some bounds => exact Shape.bounds_supply hbefore
  obtain ⟨t', ht', hbounds⟩ := Option.map_eq_some_iff.mp hafter
  exact ⟨t', ht', hbounds⟩

/-- An element that can be used has its value in the map. -/
theorem fetchElement_of_reaches (hm : Faithful h m) {subscripts : List Value}
    (his : subscripts.mapM Value.toSubscript = .ok is) (n : Name) :
    ((arrays h).Reaches n.fold is →
      (Memory.fetchElement n subscripts m).1 = .ok (values h n.fold is)) ∧
    (¬ (arrays h).Reaches n.fold is → ∃ e, (Memory.fetchElement n subscripts m).1 = .error e) := by
  rw [← hm.shape]
  obtain ⟨hnot, hfails⟩ | ⟨hreaches, t, p, v, ht, hplace, hv, hfetch⟩ :=
    hm.wellFormed.fetchElement_cases his n
  · exact ⟨fun hreaches => absurd hreaches hnot, fun _ => hfails⟩
  · have helement := (hm.holds.supplied (supplied_supply m n.fold _)).element ht hplace
    refine ⟨fun _ => ?_, fun hnot => absurd hreaches hnot⟩
    rw [hfetch, ← Option.some.inj (hv.symm.trans helement)]

/-- Memory is a typed map as the operations have left it. -/
structure TypedMap (h : List Operation) (m : Memory) : Prop where
  /-- Every variable has a value of its own type. -/
  scalars : ∀ (key : Name) (v : Value), m.scalars[key]? = some v → v.fits key = true
  /-- Every array has as many elements as its bounds say, all of its own type. -/
  tables : ∀ (key : Name) (t : Table), m.tables[key]? = some t →
    t.cells.size = Table.volume t.bounds ∧ ∀ v ∈ t.cells, v.fits key = true
  /-- The elements of all arrays are counted. -/
  slots : m.slots = (m.tables.toList.map fun entry => entry.2.cells.size).sum
  /-- There are the arrays that the operations have made, with the bounds that they were made with. -/
  bounds : ∀ key : Name, m.tables[key]?.map Table.bounds = (arrays h).bounds key
  /-- So the counter is what was counted as they were made. -/
  count : m.slots = (arrays h).count
  /-- DIM succeeds exactly if there is no array of that name and there is room, or no room is needed,
  and then makes an array of zeros with the bounds asked for. -/
  dimension : ∀ (n : Name) (sizes : List Value) (m' : Memory),
    Memory.dimension n sizes m = (.ok (), m') ↔ ∃ bounds, sizes.mapM Value.toSubscript = .ok bounds ∧
      m.tables[n.fold]? = none ∧
      (bounds = [] ∨ m.slots + Table.volume bounds ≤ greatestSlots) ∧
      m' = m.addTable n.fold (.zeros n.fold bounds)
  /-- The first use of an array makes it with 10 as the greatest subscript of each dimension, if there is
  room, whether the element is then found or not. -/
  firstUse : ∀ (n : Name) (subscripts : List Value) (is : List Nat),
    subscripts.mapM Value.toSubscript = .ok is → m.tables[n.fold]? = none →
    (is = [] ∨ m.slots + Table.volume (List.replicate is.length 10) ≤ greatestSlots) →
    (Memory.fetchElement n subscripts m).2 =
      m.addTable n.fold (.zeros n.fold (List.replicate is.length 10))
  /-- An array stays until memory is cleared. -/
  kept : ∀ (op : Operation) (key : Name) (t : Table), op ≠ clear → m.tables[key]? = some t →
    ∃ t', (op.apply m).2.tables[key]? = some t' ∧ t'.bounds = t.bounds
  /-- An element that is within the bounds of its array, or would be within those of the array that is
  made for it, has the value that was last stored at its folded name and its subscripts. Any other is not
  found. -/
  fetched : ∀ (n : Name) (subscripts : List Value) (is : List Nat),
    subscripts.mapM Value.toSubscript = .ok is →
    ((arrays h).Reaches n.fold is →
      (Memory.fetchElement n subscripts m).1 = .ok (values h n.fold is)) ∧
    (¬ (arrays h).Reaches n.fold is → ∃ e, (Memory.fetchElement n subscripts m).1 = .error e)
  /-- In the same elements values of the right type can be stored, and no others. -/
  stored : ∀ (n : Name) (subscripts : List Value) (is : List Nat) (v : Value),
    subscripts.mapM Value.toSubscript = .ok is →
    ((Memory.storeElement n subscripts v m).1 = .ok () ↔
      v.fits n.fold = true ∧ (arrays h).Reaches n.fold is)
  /-- An element for which a place was found is there: it can be read and stored in. -/
  found : ∀ (n : Name) (subscripts : List Value) (p : Nat) (m' : Memory),
    locate n.fold subscripts m = (.ok p, m') →
    (∃ v, Memory.fetchElement n subscripts m = (.ok v, m')) ∧
      ∀ v : Value, v.fits n.fold = true →
        ∃ m'', Memory.storeElement n subscripts v m = (.ok (), m'')
  /-- An operation that fails changes no variable and no array that there is. -/
  failed : ∀ (op : Operation) (e : Error) (m' : Memory), op.apply m = (.error e, m') →
    m'.scalars = m.scalars ∧ ∀ (key : Name) (t : Table), m.tables[key]? = some t →
      m'.tables[key]? = some t

/-- After any operations, failed ones included, memory is a typed map: what is read off the operations
is what it holds, and what the next operation comes to. -/
theorem after_typedMap (h : List Operation) : TypedMap h (after h) where
  scalars := (faithful_after h).wellFormed.scalars
  tables key t ht :=
    ⟨((faithful_after h).wellFormed.tables key t ht).size,
      ((faithful_after h).wellFormed.tables key t ht).typed⟩
  slots := (faithful_after h).wellFormed.slots
  bounds key := congrArg (·.bounds key) (faithful_after h).shape
  count := congrArg Shape.count (faithful_after h).shape
  dimension n sizes m' := by
    refine ⟨fun hmade => ?_, fun ⟨bounds, hsizes, hnew, hroom, hm'⟩ => ?_⟩
    · obtain ⟨e, hfails⟩ | ⟨bounds, hsizes, hnew, hroom, hok⟩ := dimension_cases n sizes (after h)
      · cases hfails.symm.trans hmade
      · cases hok.symm.trans hmade
        exact ⟨bounds, hsizes, hnew, hroom, rfl⟩
    · rw [dimension_of_new hnew hsizes, allocate_eq, hm']
      exact if_pos hroom
  firstUse n subscripts is his hnew hroom := by
    have hroom' : (after h).shape.HasRoom (List.replicate is.length 10) :=
      hroom.imp_left fun hnil => by rw [hnil]; rfl
    rw [fetchElement_snd, locate_snd his, supply_of_room hnew hroom']
  kept op key t hop ht := bounds_apply hop ht
  fetched n subscripts is his := fetchElement_of_reaches (faithful_after h) his n
  stored n subscripts is v his := by
    rw [← (faithful_after h).shape]
    exact (faithful_after h).wellFormed.storeElement_eq_ok_iff his n v
  found n subscripts p m' hlocate := by
    obtain ⟨t, v, -, -, hfetch⟩ := (faithful_after h).wellFormed.fetchElement hlocate
    exact ⟨⟨v, hfetch⟩, fun v hv => ⟨_, (faithful_after h).wellFormed.storeElement hlocate hv⟩⟩
  failed op e m' hfails := apply_of_error (faithful_after h).wellFormed hfails

/-- Two stores in an array with two dimensions, by two names that are folded to the same. -/
def grid : List Operation :=
  [storeElement "ABX" [.number 2, .number 1] (.number 5),
    storeElement "ABY" [.number 1, .number 2] (.number 7),
    dimension "AB" [.number 3, .number 4]]

/-- The two elements are apart, the others are zero, subscripts beyond the bounds are refused, and an
array that nobody has dimensioned can be read up to 10. -/
theorem after_typedMap_grid :
    (after grid).tables[Name.fold "AB"]?.map Table.bounds = some [3, 4] ∧
    (Memory.fetchElement "ABZ" [.number 1, .number 2] (after grid)).1 = .ok (.number 7) ∧
    (Memory.fetchElement "ABZ" [.number 2, .number 1] (after grid)).1 = .ok (.number 5) ∧
    (Memory.fetchElement "ABZ" [.number 3, .number 4] (after grid)).1 = .ok (.zeroFor "AB") ∧
    (∃ e, (Memory.fetchElement "ABZ" [.number 4, .number 0] (after grid)).1 = .error e) ∧
    (Memory.fetchElement "C" [.number 10] (after grid)).1 = .ok (.zeroFor "C") := by
  have hmap := after_typedMap grid
  refine ⟨(hmap.bounds _).trans (by decide +kernel), ?_, ?_, ?_, ?_, ?_⟩
  · exact ((hmap.fetched _ _ [1, 2] (by decide +kernel)).1 (by decide +kernel)).trans (by rfl)
  · exact ((hmap.fetched _ _ [2, 1] (by decide +kernel)).1 (by decide +kernel)).trans (by rfl)
  · exact ((hmap.fetched _ _ [3, 4] (by decide +kernel)).1 (by decide +kernel)).trans (by rfl)
  · exact (hmap.fetched _ _ [4, 0] (by decide +kernel)).2 (by decide +kernel)
  · exact ((hmap.fetched _ _ [10] (by decide +kernel)).1 (by decide +kernel)).trans (by rfl)

end Operation

end Memory

end CommodoreBasic
