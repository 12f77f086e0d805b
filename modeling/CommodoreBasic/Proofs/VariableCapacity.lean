import CommodoreBasic.Proofs.EvaluationFrame
import CommodoreBasic.Proofs.TypedMemory

/-!
# Room for variables

There is a greatest number of variables. Whenever one is stored, it is looked at whether that number is
reached, before it is known whether the variable is a new one. So no sequence of operations goes beyond
the bound. But once the bound is reached, no variable can be overwritten any more, though that takes no
room.

A call of a user function sets its parameter and sets it back. If the parameter is the last variable for
which there is room, it can be set and cannot be set back: the call fails then, and the argument stays
in the variable.
-/

namespace CommodoreBasic

open CommodoreBasic.Action

namespace Memory

variable {m m' : Memory} {n : Name} {v : Value}

/-- No value is stored in a full memory. -/
theorem store_of_full (hn : n.fold.isReserved = false) (hv : v.fits n.fold = true)
    (hfull : scalarCapacity ≤ m.scalars.size) : store n v m = (raise .outOfMemory, m) := by
  unfold store
  dsimp only
  rw [hn, hv, if_neg Bool.false_ne_true, Bool.not_true, if_neg Bool.false_ne_true, if_pos hfull]

/-- The second memory has the value `v` under `key`, a folded name, and is else the first. -/
structure Overwritten (key : Name) (v : Value) (m m' : Memory) : Prop where
  scalars (k : Name) : m'.scalars[k]? = if k = key then some v else m.scalars[k]?
  size : m'.scalars.size = m.scalars.size
  tables : m'.tables = m.tables
  slots : m'.slots = m.slots
  clock : m'.clock = m.clock

/-- A variable that has a value is overwritten if memory is not full. -/
theorem store_overwrites (hn : n.fold.isReserved = false) (hv : v.fits n.fold = true)
    (hstored : n.fold ∈ m.scalars) (hroom : m.scalars.size < scalarCapacity) :
    ∃ m', store n v m = (.ok (), m') ∧ m.Overwritten n.fold v m' := by
  refine ⟨_, store_of_room hn hv hroom, fun k => ?_, ?_, rfl, rfl, rfl⟩
  · rw [Std.HashMap.getElem?_insert]
    simp only [beq_iff_eq, eq_comm (a := k)]
  · rw [Std.HashMap.size_insert, if_pos hstored]

namespace Operation

/-- An operation that is no store leaves the variables alone, or forgets them all. -/
theorem scalars_apply (op : Operation) (m : Memory) :
    (op.apply m).2.scalars = m.scalars ∨ (op.apply m).2.scalars = {} ∨
      ∃ n v, op = store n v := by
  cases op with
  | store n v => exact .inr (.inr ⟨n, v, rfl⟩)
  | dimension n sizes => exact .inl (keeps_scalars_dimension n sizes m)
  | fetchElement n subscripts =>
    exact .inl ((keeps_scalars_fetchElement n subscripts).bind (fun _ _ => rfl) m)
  | storeElement n subscripts v => exact .inl (keeps_scalars_storeElement n subscripts v m)
  | clear => exact .inr (.inl rfl)

/-- One operation keeps within the bound: a store that is not refused finds room for one more. -/
theorem size_apply_le (op : Operation) (h : m.scalars.size ≤ scalarCapacity) :
    (op.apply m).2.scalars.size ≤ scalarCapacity := by
  obtain hkept | hcleared | ⟨n, v, rfl⟩ := scalars_apply op m
  · rwa [hkept]
  · rw [hcleared, Std.HashMap.size_empty]
    exact Nat.zero_le _
  · rw [apply]
    obtain ⟨e, hstore⟩ | ⟨-, -, hroom, hstore⟩ := store_cases n v m <;> rw [hstore]
    · exact h
    · exact Std.HashMap.size_insert_le.trans hroom

/-- There are no more variables than operations. -/
theorem size_after_le_length (h : List Operation) : (after h).scalars.size ≤ h.length := by
  induction h with
  | nil => exact Nat.zero_le _
  | cons op h ih =>
    rw [after, List.length_cons]
    obtain hkept | hcleared | ⟨n, v, rfl⟩ := scalars_apply op (after h)
    · rw [hkept]
      exact ih.trans (Nat.le_succ _)
    · rw [hcleared, Std.HashMap.size_empty]
      exact Nat.zero_le _
    · rw [apply]
      obtain ⟨e, hstore⟩ | ⟨-, -, -, hstore⟩ := store_cases n v (after h) <;> rw [hstore]
      · exact ih.trans (Nat.le_succ _)
      · exact Std.HashMap.size_insert_le.trans (Nat.succ_le_succ ih)

/-- A store in a memory that is not full changes one variable. -/
theorem after_store {h : List Operation} (hn : n.fold.isReserved = false) (hv : v.fits n.fold = true)
    (hroom : h.length < scalarCapacity) :
    after (store n v :: h) = { after h with scalars := (after h).scalars.insert n.fold v } :=
  congrArg Prod.snd (store_of_room hn hv ((size_after_le_length h).trans_lt hroom))

/-- That variable has the value then, and every other the value that it had. -/
theorem fetch_after_store {h : List Operation} (hn : n.fold.isReserved = false)
    (hv : v.fits n.fold = true) (hroom : h.length < scalarCapacity) (n' : Name) :
    (after (store n v :: h)).fetch n' = if n'.fold = n.fold then v else (after h).fetch n' := by
  rw [after_store hn hv hroom]
  exact fetch_insert hn n'

/-- Every sequence of operations keeps within the bound. -/
theorem size_after_le (h : List Operation) : (after h).scalars.size ≤ scalarCapacity := by
  induction h with
  | nil => exact Nat.zero_le _
  | cons op h ih => exact size_apply_le op ih

end Operation

end Memory

namespace Machine

variable {α : Type} {m : Machine} {f : String} {g : UserFunction} {n : Name} {v : Value}

/-- In a full memory no variable is set for the time being. -/
theorem withVariable_of_full (hfull : Memory.scalarCapacity ≤ m.memory.scalars.size) (n : Name)
    (v : Value) (act : Action Machine α) : (withVariable n v act m).2 = m := by
  unfold withVariable
  rw [onMemory_apply]
  obtain ⟨e, hstore⟩ | ⟨-, -, hroom, -⟩ := Memory.store_cases n v m.memory
  · rw [hstore]
  · omega

/-- So calls leave everything as it is there. -/
theorem callUser_of_full (hfull : Memory.scalarCapacity ≤ m.memory.scalars.size) (room : Nat)
    (f : String) (arguments : List Value) : (callUser room f arguments m).2 = m := by
  cases room with
  | zero =>
    rw [callUser]
    obtain ⟨e, hcall⟩ | ⟨g, v, -, hcall⟩ := resolveCall_cases f arguments m
    · rw [bind_of_error hcall]
    · rw [bind_of_ok hcall]
      rfl
  | succ room =>
    rw [callUser]
    obtain ⟨e, hcall⟩ | ⟨g, v, -, hcall⟩ := resolveCall_cases f arguments m
    · rw [bind_of_error hcall]
    · rw [bind_of_ok hcall]
      exact withVariable_of_full hfull g.parameter v _

/-- In a full memory evaluation changes no variable. -/
theorem eval_scalars_of_full (hfull : Memory.scalarCapacity ≤ m.memory.scalars.size) (room : Nat)
    (e : Expr) : (e.eval (answer (callUser room)) m).2.memory.scalars = m.memory.scalars := by
  have hask : Handler.AgreeOn Request.isEvaluation
      (fun s t => s = t ∧ s.memory.scalars = m.memory.scalars)
      (answer (callUser room)) (answer (callUser room)) := by
    intro a r hr
    apply Agree.invariant
    intro s hs
    cases r with
    | fetch n => exact hs
    | fetchElement n subscripts =>
      exact (Memory.keeps_scalars_fetchElement n subscripts s.memory).trans hs
    | call callee arguments =>
      cases callee with
      | builtin f => exact hs
      | user f =>
        have hcall := callUser_of_full (m := s) (by rwa [hs]) room f arguments
        exact (congrArg (·.memory.scalars) hcall).trans hs
    | _ => cases hr
  exact (Expr.eval_agree hask e m m ⟨rfl, rfl⟩).2.2

/-- A variable for which there is room and behind which there is none is set for the time being and not
set back, if no other variable is changed in between. -/
theorem withVariable_of_last {act : Action Machine α} (hn : n.fold.isReserved = false)
    (hv : v.fits n.fold = true) (hnew : n.fold ∉ m.memory.scalars)
    (hlast : m.memory.scalars.size + 1 = Memory.scalarCapacity)
    (hact : ∀ m', Memory.scalarCapacity ≤ m'.memory.scalars.size →
      (act m').2.memory.scalars = m'.memory.scalars) :
    ∃ m', withVariable n v act m = (raise .outOfMemory, m') ∧ m'.memory.fetch n = v := by
  have hset := Memory.store_of_room hn hv (m := m.memory) (by omega)
  unfold withVariable
  rw [onMemory_apply, hset]
  dsimp only
  generalize hfilled : ({ m with memory := { m.memory with
    scalars := m.memory.scalars.insert n.fold v } } : Machine) = filled
  have hfull : Memory.scalarCapacity ≤ filled.memory.scalars.size := by
    rw [← hfilled, Std.HashMap.size_insert, if_neg hnew]
    omega
  have hkept := hact filled hfull
  generalize act filled = done at hkept ⊢
  obtain ⟨result, m'⟩ := done
  have hsaved : (m.memory.fetch n).fits n.fold = true := by
    rw [Memory.fetch_of_not_reserved hn, Std.HashMap.getElem?_eq_none hnew, Option.getD_none,
      Value.zeroFor_fits]
  dsimp only at hkept ⊢
  rw [onMemory_apply, Memory.store_of_full hn hsaved (hkept ▸ hfull)]
  refine ⟨m', rfl, ?_⟩
  rw [Memory.fetch_of_not_reserved hn, hkept, ← hfilled, Std.HashMap.getElem?_insert_self,
    Option.getD_some]

/-- A call whose parameter is the last variable that there is room for fails, whatever its body, and
leaves the argument in the variable. -/
theorem callUser_of_last (hg : m.functions[f]? = some g) (hv : v.fits g.parameter = true)
    (hfits : v.fits g.parameter.fold = true) (hn : g.parameter.fold.isReserved = false)
    (hnew : g.parameter.fold ∉ m.memory.scalars)
    (hlast : m.memory.scalars.size + 1 = Memory.scalarCapacity) (room : Nat) :
    ∃ m', callUser (room + 1) f [v] m = (raise .outOfMemory, m') ∧
      m'.memory.fetch g.parameter = v := by
  have hcall : resolveCall f [v] m = (.ok (g, v), m) := by
    unfold resolveCall
    rw [hg]
    exact if_pos hv
  have hbody (m' : Machine) (hfull : Memory.scalarCapacity ≤ m'.memory.scalars.size) :
      (nested (g.body.eval (answer (callUser room))) m').2.memory.scalars = m'.memory.scalars :=
    eval_scalars_of_full (m := { m' with depth := m'.depth + 1 }) hfull room g.body
  rw [callUser, bind_of_ok hcall]
  exact withVariable_of_last hn hfits hnew hlast hbody

end Machine

namespace Memory.Operation

/-! ## Full memories -/

/-- Names of two ideographs, a different one for each number below `scalarCapacity`. -/
def ideographs (i : Nat) : Name :=
  String.ofList [Char.ofNat (0x4E00 + i / 256), Char.ofNat (0x4E00 + i % 256)]

/-- Stores a number in as many variables. -/
def storesTo (x : Float) : Nat → List Operation
  | 0 => []
  | k + 1 => store (ideographs k) (.number x) :: storesTo x k

variable {i j k : Nat}

/-- An ideograph has the code it is made from. -/
theorem toNat_ideograph (hi : i < 256) : (Char.ofNat (0x4E00 + i)).toNat = 0x4E00 + i := by
  have hvalid : (0x4E00 + i).isValidChar := .inl (by omega)
  rw [Char.ofNat, dif_pos hvalid]
  rfl

/-- There is no dollar sign among ideographs. -/
theorem dollar_not_mem_ideographs (hi : i < scalarCapacity) :
    '$' ∉ [Char.ofNat (0x4E00 + i / 256), Char.ofNat (0x4E00 + i % 256)] := by
  have hne {j : Nat} (hj : j < 256) : '$' ≠ Char.ofNat (0x4E00 + j) := by
    intro heq
    have hmark : '$'.toNat = 0x4E00 + j := (congrArg Char.toNat heq).trans (toNat_ideograph hj)
    have hcode : '$'.toNat = 0x24 := rfl
    omega
  have hhigh : i / 256 < 256 := Nat.div_lt_of_lt_mul hi
  have hlow : i % 256 < 256 := Nat.mod_lt i (by decide)
  simp only [List.mem_cons, List.not_mem_nil, or_false, not_or]
  exact ⟨hne hhigh, hne hlow⟩

/-- Two ideographs are not cut short. -/
theorem fold_ideographs (hi : i < scalarCapacity) : (ideographs i).fold = ideographs i :=
  Name.fold_ofList (dollar_not_mem_ideographs hi)

/-- No two pairs are the same. -/
theorem ideographs_injective (hi : i < scalarCapacity) (hj : j < scalarCapacity)
    (heq : ideographs i = ideographs j) : i = j := by
  have hchars := String.ofList_injective heq
  simp only [List.cons.injEq, and_true] at hchars
  have hhigh := congrArg Char.toNat hchars.1
  have hlow := congrArg Char.toNat hchars.2
  have hmod (k : Nat) : k % 256 < 256 := Nat.mod_lt k (by decide)
  rw [toNat_ideograph (Nat.div_lt_of_lt_mul hi), toNat_ideograph (Nat.div_lt_of_lt_mul hj)] at hhigh
  rw [toNat_ideograph (hmod i), toNat_ideograph (hmod j)] at hlow
  omega

/-- None of them is reserved. -/
theorem isReserved_ideographs (hi : i < scalarCapacity) : (ideographs i).isReserved = false := by
  have hlength : (ideographs i).toList.length = 2 := by
    rw [ideographs, String.toList_ofList]
    rfl
  have hhead : (ideographs i).toList.head? = some (Char.ofNat (0x4E00 + i / 256)) := by
    rw [ideographs, String.toList_ofList]
    rfl
  have hne : ideographs i ≠ "TI" := by
    intro heq
    rw [heq] at hhead
    have hletter : 'T'.toNat = 0x4E00 + i / 256 :=
      (congrArg Char.toNat (Option.some.inj hhead)).trans
        (toNat_ideograph (Nat.div_lt_of_lt_mul hi))
    have hcode : 'T'.toNat = 0x54 := rfl
    omega
  have hne' : ideographs i ≠ "TI$" := by
    intro heq
    rw [heq] at hlength
    cases hlength
  rw [Name.isReserved, beq_false_of_ne hne, beq_false_of_ne hne']
  rfl

/-- Any number may be stored under them. -/
theorem fits_ideographs (hi : i < scalarCapacity) (x : Float) :
    (Value.number x).fits (ideographs i) = true := by
  rw [Value.fits, ideographs, Name.isText_ofList (dollar_not_mem_ideographs hi)]
  rfl

/-- The variables are those that were stored in. -/
theorem scalars_after_storesTo (x : Float) (hk : k ≤ scalarCapacity) :
    (after (storesTo x k)).scalars.size = k ∧
      ∀ key, key ∈ (after (storesTo x k)).scalars ↔ ∃ i < k, ideographs i = key := by
  induction k with
  | zero =>
    refine ⟨rfl, fun key => iff_of_false Std.HashMap.not_mem_empty ?_⟩
    rintro ⟨i, hi, -⟩
    exact Nat.not_lt_zero i hi
  | succ k ih =>
    obtain ⟨hsize, hmem⟩ := ih (Nat.le_of_succ_le hk)
    have hnew : ideographs k ∉ (after (storesTo x k)).scalars := by
      rw [hmem]
      rintro ⟨i, hi, heq⟩
      exact hi.ne (ideographs_injective (hi.trans hk) hk heq)
    have hfold := fold_ideographs hk
    have hstore := store_of_room (m := after (storesTo x k)) (n := ideographs k) (v := .number x)
      (by rw [hfold, isReserved_ideographs hk]) (by rw [hfold, fits_ideographs hk])
      (by rwa [hsize])
    rw [hfold] at hstore
    rw [storesTo, after, apply, hstore]
    refine ⟨?_, fun key => ?_⟩
    · rw [Std.HashMap.size_insert, if_neg hnew, hsize]
    · rw [Std.HashMap.mem_insert, beq_iff_eq, hmem, Nat.exists_lt_succ_right, or_comm]

/-! ## Storing and calling -/

/-- After any operations, failed ones included, there are at most `scalarCapacity` variables. Storing a
value of the right type in a variable that has one succeeds exactly if there are fewer, and then changes
that variable and nothing else; if there are as many, it fails for lack of memory and changes nothing.
That is met by calls of user functions: where the parameter is the last variable that there is room for,
a call sets it, cannot set it back and fails. -/
theorem after_overwriting (h : List Operation) :
    (after h).scalars.size ≤ scalarCapacity ∧
    (∀ (n : Name) (v : Value), n.fold.isReserved = false → v.fits n.fold = true →
      n.fold ∈ (after h).scalars →
      ((after h).scalars.size < scalarCapacity ↔
        ∃ m, Memory.store n v (after h) = (.ok (), m) ∧ (after h).Overwritten n.fold v m) ∧
      ((after h).scalars.size = scalarCapacity ↔
        Memory.store n v (after h) = (raise .outOfMemory, after h))) ∧
    ∀ (m : Machine) (f : String) (g : UserFunction) (v : Value), m.memory = after h →
      m.depth < m.returns.limit → m.functions[f]? = some g → v.fits g.parameter = true →
      v.fits g.parameter.fold = true → g.parameter.fold.isReserved = false →
      g.parameter.fold ∉ (after h).scalars → (after h).scalars.size + 1 = scalarCapacity →
      ∃ m', Machine.perform .value (.call (.user f) [v]) m = (raise .outOfMemory, m') ∧
        m'.memory.fetch g.parameter = v := by
  have hbound := size_after_le h
  refine ⟨hbound, fun n v hn hv hstored => ⟨⟨store_overwrites hn hv hstored, ?_⟩,
    fun hfull => store_of_full hn hv hfull.ge, ?_⟩, ?_⟩
  · rintro ⟨m, hstore, -⟩
    by_contra hfull
    rw [store_of_full hn hv (Nat.le_of_not_lt hfull)] at hstore
    cases hstore
  · intro hrefused
    by_contra hsize
    rw [store_of_room hn hv (Nat.lt_of_le_of_ne hbound hsize)] at hrefused
    cases hrefused
  · intro m f g v hm hdepth hg hv hfits hn hnew hlast
    obtain ⟨room, hroom⟩ := Nat.exists_eq_add_of_lt hdepth
    have hperform : Machine.perform .value (.call (.user f) [v]) m =
        Machine.callUser (room + 1) f [v] m := by
      have hleft : m.returns.limit - m.depth = room + 1 := by omega
      rw [← hleft]
      rfl
    rw [hperform]
    rw [← hm] at hnew hlast
    exact Machine.callUser_of_last hg hv hfits hn hnew hlast room

/-- The function that gives its argument back. -/
def identity : UserFunction where
  parameter := "X"
  body := .scalar "X"

/-- A machine that knows this function. -/
def withIdentity (memory : Memory) : Machine :=
  { Machine.new {} 0 10 with memory, functions := Std.HashMap.insert {} "F" identity }

/-- It holds the memory that it is given. -/
theorem memory_withIdentity (memory : Memory) : (withIdentity memory).memory = memory := rfl

/-- Two stores, in two variables. -/
def pair : List Operation := [store "B" (.number 5), store "A" (.number 1)]

/-- One of two variables is overwritten and the other is as before. A call whose parameter takes the last
variable that is to be had fails with the argument in it. -/
theorem after_overwriting_pair_and_last :
    (∃ m, Memory.store "A" (.number 2) (after pair) = (.ok (), m) ∧
      m.scalars[Name.fold "A"]? = some (.number 2) ∧
      m.scalars[Name.fold "B"]? = some (.number 5)) ∧
    ∃ m', Machine.perform .value (.call (.user "F") [.number 7])
          (withIdentity (after (storesTo 0 65535))) = (raise .outOfMemory, m') ∧
        m'.memory.fetch "X" = .number 7 := by
  have hfirst := after_store (h := []) (n := "A") (v := .number 1) rfl rfl (by decide)
  have hpair : after pair = _ := after_store (n := "B") (v := .number 5) rfl rfl (by decide)
  have hstored : Name.fold "A" ∈ (after pair).scalars := by
    rw [hpair, hfirst]
    exact Std.HashMap.mem_insert.mpr (.inr Std.HashMap.mem_insert_self)
  have hother : (after pair).scalars[Name.fold "B"]? = some (.number 5) := by
    rw [hpair]
    exact Std.HashMap.getElem?_insert_self
  obtain ⟨hcount, hmem⟩ := scalars_after_storesTo 0 (k := 65535) (by decide)
  refine ⟨?_, ?_⟩
  · obtain ⟨m, hstore, hover⟩ := ((after_overwriting pair).2.1 "A" (.number 2) rfl rfl hstored).1.mp
      ((size_after_le_length pair).trans_lt (by decide))
    refine ⟨m, hstore, (hover.scalars _).trans (if_pos rfl), ?_⟩
    exact (hover.scalars _).trans ((if_neg (by decide)).trans hother)
  · have hnew : Name.fold "X" ∉ (after (storesTo 0 65535)).scalars := by
      rw [hmem]
      rintro ⟨i, -, heq⟩
      have hlength := congrArg (·.toList.length) heq
      simp only [ideographs, String.toList_ofList] at hlength
      cases hlength
    have hlast : (after (storesTo 0 65535)).scalars.size + 1 = scalarCapacity := by rw [hcount]; decide
    exact (after_overwriting (storesTo 0 65535)).2.2 _ "F" identity (.number 7)
      (memory_withIdentity _) (Nat.zero_lt_succ 9) Std.HashMap.getElem?_insert_self rfl rfl rfl hnew
      hlast

/-- A variable of a full memory cannot be overwritten. -/
theorem store_full_variable :
    (ideographs 0).fold.isReserved = false ∧ (Value.number 5).fits (ideographs 0).fold = true ∧
      (ideographs 0).fold ∈ (after (storesTo 0 65536)).scalars ∧
      Memory.store (ideographs 0) (.number 5) (after (storesTo 0 65536)) =
        (raise .outOfMemory, after (storesTo 0 65536)) := by
  have hzero : 0 < scalarCapacity := by decide
  obtain ⟨hsize, hmem⟩ := scalars_after_storesTo 0 (k := 65536) (Nat.le_refl _)
  have hreserved := isReserved_ideographs hzero
  have hfits := fits_ideographs hzero 5
  rw [← fold_ideographs hzero] at hreserved hfits
  refine ⟨hreserved, hfits, ?_, store_of_full hreserved hfits hsize.ge⟩
  rw [fold_ideographs hzero]
  exact (hmem _).mpr ⟨0, by decide, rfl⟩

end Memory.Operation

end CommodoreBasic
