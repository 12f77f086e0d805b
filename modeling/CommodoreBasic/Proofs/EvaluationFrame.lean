import Mathlib.Data.List.Perm.Subperm
import CommodoreBasic.Proofs.Reachable

/-!
# Evaluation leaves the machine alone

The value of an expression may call functions of the program, and a call sets a variable that the rest
of the program uses too. The variable is set back on every way out of the call, so evaluation is not
noticed afterwards, whether it ends with a value or an error: but for the random generator, and arrays
that were used before they were dimensioned, everything is as before.

Setting back could fail only if the variable's old value had the wrong type or no variable could be
stored any more. The first is excluded in reachable machines. For the second, all variables that
evaluation can ever store are listed beforehand: those that exist, and the parameters of the functions.
The proof is an induction on the room for calls, with the list as its invariant.
-/

namespace CommodoreBasic

open CommodoreBasic.Action

namespace Memory

variable {m m' m'' : Memory} {n : Name} {v : Value}

/-- Variables and arrays are as they were, but that arrays may have been made by their first use. -/
structure Undisturbed (m m' : Memory) : Prop where
  fetch : ∀ n, m'.fetch n = m.fetch n
  tables : ∀ (key : Name) (t : Table), m.tables[key]? = some t → m'.tables[key]? = some t
  appeared : ∀ (key : Name) (t : Table), m.tables[key]? = none → m'.tables[key]? = some t →
    ∃ count, t = implicitTable key count

namespace Undisturbed

/-- A memory is not disturbed by doing nothing. -/
theorem refl (m : Memory) : m.Undisturbed m where
  fetch _ := rfl
  tables _ _ h := h
  appeared key t hnone hsome := by
    rw [hnone] at hsome
    cases hsome

/-- Two steps that do not disturb a memory do not disturb it together. -/
theorem trans (h : m.Undisturbed m') (h' : m'.Undisturbed m'') : m.Undisturbed m'' where
  fetch n := (h'.fetch n).trans (h.fetch n)
  tables key t ht := h'.tables key t (h.tables key t ht)
  appeared key t hnone hsome := by
    cases hmiddle : m'.tables[key]? with
    | none => exact h'.appeared key t hmiddle hsome
    | some t' =>
      rw [h'.tables key t' hmiddle] at hsome
      cases hsome
      exact h.appeared key t hnone hmiddle

/-- Only one array can appear by one use. -/
theorem fetchElement (n : Name) (subscripts : List Value) (m : Memory) :
    m.Undisturbed (Memory.fetchElement n subscripts m).2 := by
  obtain h | ⟨hnew, count, h⟩ := fetchElement_state n subscripts m <;> rw [h]
  · exact refl m
  · refine ⟨fun _ => rfl, fun key t ht => ?_, fun key t hnone hsome => ?_⟩
    · have hne : n.fold ≠ key := by
        rintro rfl
        rw [hnew] at ht
        cases ht
      rw [getElem?_addTable, if_neg hne, ht]
    · rw [getElem?_addTable] at hsome
      split at hsome
      case isTrue heq =>
        cases hsome
        exact ⟨count, by rw [heq]⟩
      case isFalse =>
        rw [hnone] at hsome
        cases hsome

end Undisturbed

/-- The clock aside, a variable has the value that is stored under its folded name. -/
theorem fetch_of_not_reserved (hn : n.fold.isReserved = false) (m : Memory) :
    m.fetch n = m.scalars[n.fold]?.getD (.zeroFor n.fold) := by
  obtain ⟨hticks, htext⟩ : (n.fold == "TI") = false ∧ (n.fold == "TI$") = false :=
    Bool.or_eq_false_iff.mp hn
  unfold fetch
  dsimp only
  rw [hticks, htext, if_neg Bool.false_ne_true, if_neg Bool.false_ne_true]

/-- Storing is noticed under the names that stand for the variable, and under no others. -/
theorem fetch_insert (hn : n.fold.isReserved = false) (n' : Name) :
    fetch { m with scalars := m.scalars.insert n.fold v } n' =
      if n'.fold = n.fold then v else m.fetch n' := by
  by_cases heq : n'.fold = n.fold
  · rw [if_pos heq, fetch_congr heq, fetch_of_not_reserved hn, Std.HashMap.getElem?_insert_self,
      Option.getD_some]
  · have hne : ¬ (n.fold == n'.fold) = true := by
      simpa using Ne.symm heq
    rw [if_neg heq]
    unfold fetch
    dsimp only
    rw [Std.HashMap.getElem?_insert, if_neg hne]

/-- The value of a variable has its type. -/
theorem fetch_fits (hm : m.Typed) (hn : n.fold.isReserved = false) :
    (m.fetch n).fits n.fold = true := by
  rw [fetch_of_not_reserved hn]
  cases hstored : m.scalars[n.fold]? with
  | none =>
    rw [Option.getD_none]
    exact Value.zeroFor_fits n.fold
  | some v => exact hm n.fold v hstored

/-- With room for it, a value that fits a variable is stored there. -/
theorem store_of_room (hn : n.fold.isReserved = false) (hv : v.fits n.fold = true)
    (hroom : m.scalars.size < scalarCapacity) :
    store n v m = (.ok (), { m with scalars := m.scalars.insert n.fold v }) := by
  unfold store
  dsimp only
  rw [hn, hv, if_neg Bool.false_ne_true, Bool.not_true, if_neg Bool.false_ne_true,
    if_neg (Nat.not_le_of_lt hroom)]

/-- There are no more variables than names that they may have. -/
theorem size_le_of_subset {keys : List Name} (h : ∀ key ∈ m.scalars, key ∈ keys) :
    m.scalars.size ≤ keys.length := by
  have hsub : m.scalars.keys ⊆ keys := fun key hkey => h key (Std.HashMap.mem_keys.mp hkey)
  have hnodup : m.scalars.keys.Nodup := Std.HashMap.nodup_keys
  rw [← Std.HashMap.length_keys]
  exact (List.subperm_of_subset hnodup hsub).length_le

end Memory

namespace Machine

variable {α β : Type} {m m' m'' : Machine} {keys : List Name}

/-- The machine is as it was, but for the random generator and arrays that appeared. -/
structure Undisturbed (m m' : Machine) : Prop where
  machine : m' = { m with memory := m'.memory, random := m'.random }
  memory : m.memory.Undisturbed m'.memory

namespace Undisturbed

/-- A machine is not disturbed by doing nothing. -/
theorem refl (m : Machine) : m.Undisturbed m := ⟨rfl, .refl m.memory⟩

/-- Two steps that do not disturb a machine do not disturb it together. -/
theorem trans (h : m.Undisturbed m') (h' : m'.Undisturbed m'') : m.Undisturbed m'' := by
  refine ⟨?_, h.memory.trans h'.memory⟩
  rw [h'.machine, h.machine]

end Undisturbed

/-- The variables have values of their types, and their names and those of all parameters are among
the given ones. -/
structure Roomy (keys : List Name) (m : Machine) : Prop where
  typed : m.memory.Typed
  scalars : ∀ key ∈ m.memory.scalars, key ∈ keys
  parameters : ∀ (f : String) (g : UserFunction), m.functions[f]? = some g → g.parameter.fold ∈ keys

/-- A value of its type may be stored in a variable that is among the given ones. -/
theorem Roomy.insert (h : Roomy keys m) {key : Name} {v : Value} (hkey : key ∈ keys)
    (hv : v.fits key = true) :
    Roomy keys { m with memory := { m.memory with scalars := m.memory.scalars.insert key v } } where
  typed := Memory.typed_insert h.typed hv
  scalars := by
    intro key' hmem
    rcases Std.HashMap.mem_insert.mp hmem with heq | hmem
    · exact beq_iff_eq.mp heq ▸ hkey
    · exact h.scalars key' hmem
  parameters := h.parameters

/-- The action leaves a machine with room for all its variables undisturbed, and there is still room. -/
def Harmless (keys : List Name) (x : Action Machine α) : Prop :=
  ∀ m, Roomy keys m → m.Undisturbed (x m).2 ∧ Roomy keys (x m).2

namespace Harmless

/-- Evaluation is harmless if the requests are that it makes. -/
theorem eval {h : Handler Machine}
    (hask : ∀ (a : Answer) (r : Request a), r.isEvaluation = true → Harmless keys (h a r)) (e : Expr) :
    Harmless keys (e.eval h) := by
  intro m hm
  have hagree : Handler.AgreeOn Request.isEvaluation
      (fun s t => s = t ∧ m.Undisturbed s ∧ Roomy keys s) h h := by
    intro a r hr
    apply Agree.invariant
    intro s hs
    have hstep := hask a r hr s hs.2
    exact ⟨hs.1.trans hstep.1, hstep.2⟩
  exact (Expr.eval_agree hagree e m m ⟨rfl, .refl m, hm⟩).2.2

/-- An action is harmless in a nested call if it is harmless outside of it. -/
theorem nested {x : Action Machine α} (hx : Harmless keys x) : Harmless keys (nested x) := by
  intro m hm
  obtain ⟨hundisturbed, hroomy⟩ := hx { m with depth := m.depth + 1 }
    ⟨hm.typed, hm.scalars, hm.parameters⟩
  have hmachine := hundisturbed.machine
  refine ⟨⟨?_, hundisturbed.memory⟩, hroomy.typed, hroomy.scalars, hroomy.parameters⟩
  unfold Machine.nested
  dsimp only
  rw [hmachine]
  rfl

/-- A variable that an action finds set is set back after it. -/
theorem withVariable (hkeys : keys.length < Memory.scalarCapacity) {n : Name} (hn : n.fold ∈ keys)
    (v : Value) {x : Action Machine α} (hx : Harmless keys x) :
    Harmless keys (withVariable n v x) := by
  intro m hm
  unfold Machine.withVariable
  rw [onMemory_apply]
  obtain ⟨e, hstore⟩ | ⟨hreserved, hfits, -, hstore⟩ := Memory.store_cases n v m.memory
  · rw [hstore]
    exact ⟨.refl m, hm⟩
  rw [hstore]
  dsimp only
  obtain ⟨hundisturbed, hroomy⟩ := hx _ (hm.insert hn hfits)
  have hmachine := hundisturbed.machine
  have hmemory := hundisturbed.memory
  generalize x _ = result at hundisturbed hroomy hmachine hmemory ⊢
  obtain ⟨result, m'⟩ := result
  have hsaved := Memory.fetch_fits hm.typed hreserved
  have hroom : m'.memory.scalars.size < Memory.scalarCapacity :=
    (Memory.size_le_of_subset hroomy.scalars).trans_lt hkeys
  dsimp only
  rw [onMemory_apply, Memory.store_of_room hreserved hsaved hroom]
  refine ⟨⟨?_, ?_, hmemory.tables, hmemory.appeared⟩, hroomy.insert hn hsaved⟩
  · dsimp only at hmachine ⊢
    rw [hmachine]
  · intro n'
    dsimp only
    rw [Memory.fetch_insert hreserved]
    split
    case isTrue heq => rw [Memory.fetch_congr heq]
    case isFalse hne =>
      rw [hmemory.fetch n', Memory.fetch_insert hreserved, if_neg hne]

/-- Requests for values are harmless if calls of user functions are. -/
theorem answer {call : String → List Value → Action Machine Value}
    (hcall : ∀ f arguments, Harmless keys (call f arguments)) (a : Answer) (r : Request a)
    (hr : r.isEvaluation = true) : Harmless keys (answer call a r) := by
  intro m hm
  cases r with
  | fetch n => exact ⟨.refl m, hm⟩
  | fetchElement n subscripts =>
    have hscalars := Memory.keeps_scalars_fetchElement n subscripts m.memory
    refine ⟨⟨rfl, .fetchElement n subscripts m.memory⟩, ?_, ?_, hm.parameters⟩
    · exact Memory.typed_of_scalars_eq hm.typed hscalars
    · intro key hkey
      exact hm.scalars key (hscalars ▸ hkey)
  | call callee arguments =>
    cases callee with
    | builtin f => exact ⟨⟨rfl, .refl m.memory⟩, hm.typed, hm.scalars, hm.parameters⟩
    | user f => exact hcall f arguments m hm
  | _ => cases hr

end Harmless

/-- A call is refused, or there is a function of that name. -/
theorem resolveCall_cases (f : String) (arguments : List Value) (m : Machine) :
    (∃ e, resolveCall f arguments m = (.error e, m)) ∨
      ∃ g v, m.functions[f]? = some g ∧ resolveCall f arguments m = (.ok (g, v), m) := by
  unfold resolveCall
  split
  · exact .inl ⟨_, rfl⟩
  case h_2 g v hg =>
    split
    · exact .inr ⟨g, v, hg, rfl⟩
    · exact .inl ⟨_, rfl⟩
  · exact .inl ⟨_, rfl⟩

/-- Calls of user functions are harmless, however they are nested. -/
theorem harmless_callUser (hkeys : keys.length < Memory.scalarCapacity) (room : Nat) (f : String)
    (arguments : List Value) : Harmless keys (callUser room f arguments) := by
  induction room generalizing f arguments with
  | zero =>
    intro m hm
    rw [callUser]
    obtain ⟨e, hcall⟩ | ⟨g, v, -, hcall⟩ := resolveCall_cases f arguments m
    · rw [bind_of_error hcall]
      exact ⟨.refl m, hm⟩
    · rw [bind_of_ok hcall]
      exact ⟨.refl m, hm⟩
  | succ room ih =>
    intro m hm
    rw [callUser]
    obtain ⟨e, hcall⟩ | ⟨g, v, hg, hcall⟩ := resolveCall_cases f arguments m
    · rw [bind_of_error hcall]
      exact ⟨.refl m, hm⟩
    · rw [bind_of_ok hcall]
      have hbody := Harmless.eval (Harmless.answer ih) g.body
      exact hbody.nested.withVariable hkeys (hm.parameters f g hg) v m hm

/-- The names of the variables and of the parameters, as many as there are variables and functions. -/
def variableKeys (m : Machine) : List Name :=
  m.memory.scalars.keys ++ m.functions.toList.map fun f => f.2.parameter.fold

/-- The keys are those of the variables and of the parameters. -/
theorem length_variableKeys (m : Machine) :
    m.variableKeys.length = m.memory.scalars.size + m.functions.size := by
  rw [variableKeys, List.length_append, List.length_map, Std.HashMap.length_keys,
    Std.HashMap.length_toList]

/-- A machine that a run has reached has room for all parameters. -/
theorem Reachable.roomy (hm : m.Reachable) : Roomy m.variableKeys m where
  typed := hm.typed
  scalars key hkey := List.mem_append_left _ (Std.HashMap.mem_keys.mpr hkey)
  parameters f g hg := by
    apply List.mem_append_right
    exact List.mem_map.mpr ⟨(f, g), Std.HashMap.mem_toList_iff_getElem?_eq_some.mpr hg, rfl⟩

/-- Evaluating an expression never disturbs the program, whether it ends with a value or an error and
however deep in calls of user functions: as long as there is room for all variables and parameters, the
machine is as before, but for the random generator and arrays that appeared by their first use, and
these hold nothing but zeros. -/
theorem eval_undisturbed (hm : m.Reachable)
    (hroom : m.memory.scalars.size + m.functions.size ≤ 65535) (e : Expr) :
    m.Undisturbed (e.eval perform m).2 := by
  have hkeys : m.variableKeys.length < Memory.scalarCapacity := by
    rw [length_variableKeys, Memory.scalarCapacity]
    omega
  have hask (a : Answer) (r : Request a) (hr : r.isEvaluation = true) :
      Harmless m.variableKeys (perform a r) := by
    intro m'
    exact Harmless.answer (harmless_callUser hkeys (m'.returns.limit - m'.depth)) a r hr m'
  exact (Harmless.eval hask e m hm.roomy).1

/-- Two functions that call each other without end, with parameters that stand for one variable. -/
def mutualCalls : Program where
  lines := [
    { number := 10
      statements := [
        .define "FNA" "COUNT" (.binary .add (.scalar "COLOUR") (.call (.user "FNB") [.scalar "CO"])),
        .define "FNB" "COST" (.call (.user "FNA") [.element "T" [.scalar "COAL"]])] }]

/-- Two functions that call one another leave the variables as they were. -/
theorem eval_undisturbed_mutualCalls :
    let m := ((new {} 0 10).execute mutualCalls 2).machine
    m.Reachable ∧ m.memory.scalars.size + m.functions.size ≤ 65535 ∧
      m.Undisturbed ((Expr.call (.user "FNA") [.literal (.number 1)]).eval perform m).2 := by
  intro m
  have hm : m.Reachable := (Reachable.new {} 0 10 default {}).execute mutualCalls 2
  have hscalars : m.memory.scalars = {} := rfl
  have hfunctions : ∃ f g, m.functions = (Std.HashMap.insert {} "FNA" f).insert "FNB" g :=
    ⟨_, _, rfl⟩
  have hsize : m.functions.size ≤ 2 := by
    obtain ⟨f, g, hfunctions⟩ := hfunctions
    rw [hfunctions]
    apply Std.HashMap.size_insert_le.trans
    apply Nat.succ_le_succ
    exact Std.HashMap.size_insert_le
  have hroom : m.memory.scalars.size + m.functions.size ≤ 65535 := by
    rw [hscalars, Std.HashMap.size_empty]
    omega
  exact ⟨hm, hroom, eval_undisturbed hm hroom _⟩

end Machine

end CommodoreBasic
