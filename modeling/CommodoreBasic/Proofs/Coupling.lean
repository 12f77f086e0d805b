import CommodoreBasic.Machine.Perform
import CommodoreBasic.Proofs.Agreement
import CommodoreBasic.Proofs.Renaming

/-!
# Coupled machines

A coupling relates machines that evaluate alike: they agree on what expressions can see, up to the
spelling of variables in user functions and up to differences of memory that cannot be read, and stay
related when memory, random generator and depth of calls are set alike on both. Two coupled machines
answer every evaluation request alike, also when one of them is asked with a variable spelled
differently, and after it both are as deep in user functions as before. The induction is on the room
left for calls; a call that fails inside a nested body still gives back its depth.

A full coupling also carries the console, DATA and definitions along, and then all simple requests
are answered alike.
-/

namespace CommodoreBasic

open CommodoreBasic.Action

/-- A renaming that no machine can notice: the folded name and the type stay. -/
def Name.Respelling (ρ : Name → Name) : Prop :=
  ∀ n, (ρ n).fold = n.fold ∧ (ρ n).isText = n.isText

/-- Names may stay as they are. -/
theorem Name.Respelling.id : Name.Respelling id := fun _ => ⟨rfl, rfl⟩

/-- A user function with its variables renamed. -/
def UserFunction.rename (ρ : Name → Name) (f : UserFunction) : UserFunction :=
  { parameter := ρ f.parameter, body := f.body.rename ρ }

/-- The second function is the first with other spellings of its variables. -/
def UserFunction.Respelled (f g : UserFunction) : Prop :=
  ∃ ρ, Name.Respelling ρ ∧ g = f.rename ρ

/-- A function is itself in another spelling. -/
theorem UserFunction.Respelled.refl (f : UserFunction) : f.Respelled f :=
  ⟨id, Name.Respelling.id, by simp only [UserFunction.rename, Expr.rename_id, id_eq]⟩

/-- So is a function that may not be there. -/
theorem UserFunction.Respelled.rel_self (f : Option UserFunction) :
    Option.Rel UserFunction.Respelled f f := by
  cases f with
  | none => exact .none
  | some f => exact .some (UserFunction.Respelled.refl f)

namespace Memory

variable {n n' : Name}

/-- Names that fold alike are fetched alike. -/
theorem fetch_congr (hfold : n'.fold = n.fold) (m : Memory) : m.fetch n' = m.fetch n := by
  unfold fetch
  rw [hfold]

/-- Names that fold alike are stored in alike. -/
theorem store_congr (hfold : n'.fold = n.fold) (v : Value) : store n' v = store n v := by
  unfold store
  rw [hfold]

/-- Names that fold alike are dimensioned alike. -/
theorem dimension_congr (hfold : n'.fold = n.fold) (sizes : List Value) :
    dimension n' sizes = dimension n sizes := by
  unfold dimension
  rw [hfold]

/-- The elements of arrays whose names fold alike are fetched alike. -/
theorem fetchElement_congr (hfold : n'.fold = n.fold) (subscripts : List Value) :
    fetchElement n' subscripts = fetchElement n subscripts := by
  unfold fetchElement
  rw [hfold]

/-- The elements of arrays whose names fold alike are stored in alike. -/
theorem storeElement_congr (hfold : n'.fold = n.fold) (subscripts : List Value) (v : Value) :
    storeElement n' subscripts v = storeElement n subscripts v := by
  unfold storeElement
  rw [hfold]

/-- A relation between memories that cannot be noticed by reading, storing or dimensioning, now or
during later statements. -/
structure Congruence (M : Memory → Memory → Prop) : Prop where
  fetch {m m' : Memory} : M m m' → ∀ n : Name, m.fetch n = m'.fetch n
  clear {m m' : Memory} : M m m' → M m.clear m'.clear
  advanceClock {m m' : Memory} : M m m' → M m.advanceClock m'.advanceClock
  store (n : Name) (v : Value) : Agree M (store n v) (store n v)
  dimension (n : Name) (sizes : List Value) : Agree M (dimension n sizes) (dimension n sizes)
  fetchElement (n : Name) (subscripts : List Value) :
    Agree M (fetchElement n subscripts) (fetchElement n subscripts)
  storeElement (n : Name) (subscripts : List Value) (v : Value) :
    Agree M (storeElement n subscripts v) (storeElement n subscripts v)

/-- Equal memories are treated alike. -/
theorem Congruence.eq : Congruence Eq where
  fetch h _ := h ▸ rfl
  clear h := h ▸ rfl
  advanceClock h := h ▸ rfl
  store _ _ := Agree.eq _
  dimension _ _ := Agree.eq _
  fetchElement _ _ := Agree.eq _
  storeElement _ _ _ := Agree.eq _

end Memory

namespace Machine

variable {α : Type} {M : Memory → Memory → Prop} {R : Machine → Machine → Prop} {ρ : Name → Name}

/-- Related machines evaluate alike; their memories are related by `M`. -/
structure Coupling (M : Memory → Memory → Prop) (R : Machine → Machine → Prop) : Prop where
  congruence : Memory.Congruence M
  memory {s t : Machine} : R s t → M s.memory t.memory
  random {s t : Machine} : R s t → s.random = t.random
  depth {s t : Machine} : R s t → s.depth = t.depth
  limit {s t : Machine} : R s t → s.returns.limit = t.returns.limit
  functions {s t : Machine} : R s t → ∀ f : String,
    Option.Rel UserFunction.Respelled s.functions[f]? t.functions[f]?
  setMemory {s t : Machine} : R s t → ∀ {m m' : Memory}, M m m' →
    R { s with memory := m } { t with memory := m' }
  setRandom {s t : Machine} : R s t → ∀ random : Random, R { s with random } { t with random }
  setDepth {s t : Machine} : R s t → ∀ depth : Nat, R { s with depth } { t with depth }

/-- Related machines that are both `d` deep in user functions. -/
def AtDepth (R : Machine → Machine → Prop) (d : Nat) (s t : Machine) : Prop :=
  R s t ∧ s.depth = d

/-- An agreement that leaves the depth alone holds at each depth. -/
theorem agree_atDepth {x y : Action Machine α} (d : Nat) (hxy : Agree R x y)
    (hdepth : Keeps Machine.depth x) : Agree (AtDepth R d) x y := by
  rintro s t ⟨hst, rfl⟩
  obtain ⟨hresult, hstate⟩ := hxy s t hst
  exact ⟨hresult, hstate, hdepth s⟩

/-- An agreement at each depth is one without depths. -/
theorem agree_of_atDepth {x y : Action Machine α} (hxy : ∀ d, Agree (AtDepth R d) x y) :
    Agree R x y := by
  intro s t hst
  obtain ⟨hresult, hstate, -⟩ := hxy s.depth s t ⟨hst, rfl⟩
  exact ⟨hresult, hstate⟩

/-- An action on the memory changes nothing else. -/
theorem onMemory_apply (act : Action Memory α) (m : Machine) :
    onMemory act m = ((act m.memory).1, { m with memory := (act m.memory).2 }) := rfl

/-- An action on the generator changes nothing else. -/
theorem onRandom_apply (act : Action Random α) (m : Machine) :
    onRandom act m = ((act m.random).1, { m with random := (act m.random).2 }) := rfl

/-- Parameters whose names fold alike are bound alike. -/
theorem withVariable_congr {n n' : Name} (hfold : n'.fold = n.fold) (v : Value)
    (act : Action Machine α) : withVariable n' v act = withVariable n v act := by
  funext m
  simp only [withVariable, Memory.fetch_congr hfold, Memory.store_congr hfold]

namespace Coupling

variable (hR : Coupling M R)
include hR

/-- Actions on related memories agree on coupled machines. -/
theorem onMemory_agree {act : Action Memory α} (hact : Agree M act act) (d : Nat) :
    Agree (AtDepth R d) (onMemory act) (onMemory act) := by
  refine agree_atDepth d (fun s t hst => ?_) fun _ => rfl
  obtain ⟨hresult, hmemory⟩ := hact s.memory t.memory (hR.memory hst)
  rw [onMemory_apply, onMemory_apply]
  exact ⟨hresult, hR.setMemory hst hmemory⟩

/-- So do actions on the generator, which coupled machines share. -/
theorem onRandom_agree (act : Action Random α) (d : Nat) :
    Agree (AtDepth R d) (onRandom act) (onRandom act) := by
  refine agree_atDepth d (fun s t hst => ?_) fun _ => rfl
  rw [onRandom_apply, onRandom_apply, hR.random hst]
  exact ⟨rfl, hR.setRandom hst _⟩

/-- One call more is one call less again, whatever came of it. -/
theorem nested_agree {x y : Action Machine α} {d : Nat} (hxy : Agree (AtDepth R (d + 1)) x y) :
    Agree (AtDepth R d) (nested x) (nested y) := by
  rintro s t ⟨hst, rfl⟩
  have hdeeper : AtDepth R (s.depth + 1) { s with depth := s.depth + 1 }
      { t with depth := t.depth + 1 } :=
    ⟨hR.depth hst ▸ hR.setDepth hst (s.depth + 1), rfl⟩
  obtain ⟨hresult, hstate, hdepth⟩ := hxy _ _ hdeeper
  have hback := hR.setDepth hstate s.depth
  have htdepth := (hR.depth hstate).symm.trans hdepth
  refine ⟨hresult, ?_, ?_⟩
  · simpa only [nested, hdepth, htdepth, Nat.add_sub_cancel] using hback
  · simp only [nested, hdepth, Nat.add_sub_cancel]

/-- So do actions under a parameter that is bound in both. -/
theorem withVariable_agree {x y : Action Machine α} {d : Nat} (n : Name) (v : Value)
    (hxy : Agree (AtDepth R d) x y) :
    Agree (AtDepth R d) (withVariable n v x) (withVariable n v y) := by
  intro s t hst
  have hstore (w : Value) := hR.onMemory_agree (hR.congruence.store n w) d
  obtain ⟨hset, hstate⟩ := hstore v s t hst
  simp only [withVariable, ← hR.congruence.fetch (hR.memory hst.1)]
  generalize onMemory (Memory.store n v) s = xs, onMemory (Memory.store n v) t = yt at hset hstate ⊢
  obtain ⟨_ | ⟨⟨⟩⟩, s'⟩ := xs
  · obtain ⟨_, t'⟩ := yt
    cases hset
    exact ⟨rfl, hstate⟩
  · obtain ⟨_, t'⟩ := yt
    cases hset
    obtain ⟨hresult, hdone⟩ := hxy s' t' hstate
    obtain ⟨hreset, hend⟩ := hstore (s.memory.fetch n) _ _ hdone
    dsimp only
    generalize onMemory (Memory.store n (s.memory.fetch n)) (x s').2 = xs,
      onMemory (Memory.store n (s.memory.fetch n)) (y t').2 = yt at hreset hend ⊢
    obtain ⟨_ | ⟨⟨⟩⟩, s''⟩ := xs <;> obtain ⟨_, t''⟩ := yt <;> cases hreset
    · exact ⟨rfl, hend⟩
    · exact ⟨hresult, hend⟩

/-- Evaluation requests are answered alike if calls of user functions are. -/
theorem answer_agree (hρ : Name.Respelling ρ) {d : Nat}
    {call call' : String → List Value → Action Machine Value}
    (hcall : ∀ f arguments, Agree (AtDepth R d) (call f arguments) (call' f arguments)) :
    Handler.AgreeOn Request.isEvaluation (AtDepth R d) (answer call)
      ((answer call').renamed ρ) := by
  intro a r hr
  cases r with
  | fetch n =>
    rintro s t ⟨hst, hdepth⟩
    refine ⟨?_, hst, hdepth⟩
    change Except.ok (s.memory.fetch n) = Except.ok (t.memory.fetch (ρ n))
    rw [Memory.fetch_congr (hρ n).1, hR.congruence.fetch (hR.memory hst)]
  | fetchElement n subscripts =>
    change Agree _ (onMemory (Memory.fetchElement n subscripts))
      (onMemory (Memory.fetchElement (ρ n) subscripts))
    rw [Memory.fetchElement_congr (hρ n).1]
    exact hR.onMemory_agree (hR.congruence.fetchElement n subscripts) d
  | call c arguments =>
    cases c with
    | builtin f => exact hR.onRandom_agree _ d
    | user f => exact hcall f arguments
  | _ => cases hr

/-- Both machines find the same function up to spelling, or refuse the call for the same reason. -/
theorem resolveCall_cases {s t : Machine} (hst : R s t) (f : String) (arguments : List Value) :
    (∃ e, resolveCall f arguments s = (.error e, s) ∧ resolveCall f arguments t = (.error e, t)) ∨
    ∃ g g' v, UserFunction.Respelled g g' ∧ resolveCall f arguments s = (.ok (g, v), s) ∧
      resolveCall f arguments t = (.ok (g', v), t) := by
  unfold resolveCall
  cases hs : s.functions[f]? <;> cases ht : t.functions[f]? <;>
    have hrel := hR.functions hst f <;> rw [hs, ht] at hrel <;> cases hrel
  case none.none => exact .inl ⟨_, rfl, rfl⟩
  case some.some.some g g' hrespelled =>
    match arguments with
    | [] => exact .inl ⟨_, rfl, rfl⟩
    | [v] =>
      have hfits : v.fits g'.parameter = v.fits g.parameter := by
        obtain ⟨ρ, hρ, rfl⟩ := hrespelled
        simp only [Value.fits, UserFunction.rename, (hρ g.parameter).2]
      cases h : v.fits g.parameter
      · exact .inl ⟨_, by simp [h]; rfl, by simp [hfits, h]; rfl⟩
      · exact .inr ⟨g, g', v, hrespelled, by simp [h], by simp [hfits, h]⟩
    | _ :: _ :: _ => exact .inl ⟨_, rfl, rfl⟩

/-- Calls of user functions agree. The induction is on the room for calls, as the body may call any
function, itself included. -/
theorem callUser_agree (room d : Nat) (f : String) (arguments : List Value) :
    Agree (AtDepth R d) (callUser room f arguments) (callUser room f arguments) := by
  induction room generalizing d f arguments with
  | zero =>
    intro s t hst
    rw [callUser, bind_apply, bind_apply]
    obtain ⟨e, hs, ht⟩ | ⟨g, g', v, -, hs, ht⟩ := hR.resolveCall_cases hst.1 f arguments <;>
      rw [hs, ht] <;> exact ⟨rfl, hst⟩
  | succ room ih =>
    intro s t hst
    rw [callUser, bind_apply, bind_apply]
    obtain ⟨e, hs, ht⟩ | ⟨g, _, v, ⟨ρ, hρ, rfl⟩, hs, ht⟩ := hR.resolveCall_cases hst.1 f arguments <;>
      rw [hs, ht]
    · exact ⟨rfl, hst⟩
    · dsimp only [UserFunction.rename]
      rw [withVariable_congr (hρ g.parameter).1, Expr.eval_rename]
      exact hR.withVariable_agree g.parameter v (hR.nested_agree
        (Expr.eval_agree (hR.answer_agree hρ (ih (d + 1))) g.body)) s t hst

/-- Coupled machines answer evaluation requests alike, whatever the spelling of the variables, and
are as deep in user functions afterwards as before. -/
theorem perform_evaluation (hρ : Name.Respelling ρ) (d : Nat) :
    Handler.AgreeOn Request.isEvaluation (AtDepth R d) perform (perform.renamed ρ) := by
  intro a r hr s t hst
  have hroom : t.returns.limit - t.depth = s.returns.limit - s.depth := by
    rw [hR.limit hst.1, hR.depth hst.1]
  change (answer (callUser (s.returns.limit - s.depth)) a r s).1 =
      (answer (callUser (t.returns.limit - t.depth)) a (r.rename ρ) t).1 ∧
    AtDepth R d (answer (callUser (s.returns.limit - s.depth)) a r s).2
      (answer (callUser (t.returns.limit - t.depth)) a (r.rename ρ) t).2
  rw [hroom]
  exact hR.answer_agree hρ (hR.callUser_agree (s.returns.limit - s.depth) d) a r hr s t hst

end Coupling

/-- Without a change of names the machine answers as it did. -/
theorem perform_renamed_id : perform.renamed id = perform := by
  funext a r
  rw [Handler.renamed, Request.rename_id]

/-- Without a renaming, coupled machines do the same with a request of an evaluation. -/
theorem Coupling.perform_agree (hR : Coupling M R) (d : Nat) :
    Handler.AgreeOn Request.isEvaluation (AtDepth R d) perform perform := by
  have hask := hR.perform_evaluation Name.Respelling.id d
  rwa [perform_renamed_id] at hask

/-- Coupled machines find the same number. -/
theorem Coupling.evalNumber_agree (hR : Coupling M R) (e : Expr) (d : Nat) :
    Agree (AtDepth R d) (e.evalNumber perform) (e.evalNumber perform) :=
  Expr.evalNumber_agree (hR.perform_agree d) e

/-- A coupling that also carries the console, DATA and definitions along, where the second machine's
requests are respelled by `ρ`. -/
structure FullCoupling (M : Memory → Memory → Prop) (ρ : Name → Name)
    (R : Machine → Machine → Prop) : Prop extends Coupling M R where
  respelling : Name.Respelling ρ
  console {α : Type} (act : List Reply → Event × Except Error α × List Reply) :
    Agree R (onConsole (Console.call act)) (onConsole (Console.call act))
  read : Agree R readData readData
  define (f : String) (parameter : Name) (body : Expr) :
    Agree R (define f parameter body) (define f (ρ parameter) (body.rename ρ))

namespace FullCoupling

variable (hR : FullCoupling M ρ R)
include hR

/-- Fully coupled machines answer all simple requests alike. -/
theorem perform_simple (d : Nat) :
    Handler.AgreeOn Request.isSimple (AtDepth R d) perform (perform.renamed ρ) := by
  have hρ := hR.respelling
  intro a r hr
  cases r with
  | fetch | fetchElement | call => exact hR.perform_evaluation hρ d _ _ rfl
  | store n v =>
    change Agree _ (onMemory (Memory.store n v)) (onMemory (Memory.store (ρ n) v))
    rw [Memory.store_congr (hρ n).1]
    exact hR.onMemory_agree (hR.congruence.store n v) d
  | dimension n sizes =>
    change Agree _ (onMemory (Memory.dimension n sizes)) (onMemory (Memory.dimension (ρ n) sizes))
    rw [Memory.dimension_congr (hρ n).1]
    exact hR.onMemory_agree (hR.congruence.dimension n sizes) d
  | storeElement n subscripts v =>
    change Agree _ (onMemory (Memory.storeElement n subscripts v))
      (onMemory (Memory.storeElement (ρ n) subscripts v))
    rw [Memory.storeElement_congr (hρ n).1]
    exact hR.onMemory_agree (hR.congruence.storeElement n subscripts v) d
  | read =>
    refine agree_atDepth d hR.read fun m => ?_
    change (readData m).2.depth = m.depth
    unfold readData
    split <;> rfl
  | print | printLine | ask | clearScreen =>
    exact agree_atDepth d (hR.console _) fun _ => rfl
  | define f parameter body => exact agree_atDepth d (hR.define f parameter body) fun _ => rfl
  | _ => cases hr

end FullCoupling

/-- Without a renaming, fully coupled machines carry a simple statement out alike. -/
theorem FullCoupling.exec_agree (hR : FullCoupling M id R) {s : Statement} (hs : s.isSimple = true)
    (patience d : Nat) :
    Agree (AtDepth R d) (s.exec perform patience) (s.exec perform patience) := by
  have hask := hR.perform_simple d
  rw [perform_renamed_id] at hask
  exact Statement.exec_agree s patience fun a r hr =>
    hask a r (by simpa [Statement.mayAsk, hs] using hr)

/-- Evaluation does not concern the property `P`, nor do console, DATA and definitions. -/
structure Insensitive (P : Machine → Prop) : Prop where
  setMemory {m : Machine} : P m → ∀ memory : Memory, P { m with memory }
  setRandom {m : Machine} : P m → ∀ random : Random, P { m with random }
  setDepth {m : Machine} : P m → ∀ depth : Nat, P { m with depth }
  setFunctions {m : Machine} : P m → ∀ functions, P { m with functions }
  setConsole {m : Machine} : P m → ∀ console interrupted, P { m with console, interrupted }
  read {m : Machine} : P m → P (readData m).2

namespace Insensitive

variable {P : Machine → Prop} (hP : Insensitive P)
include hP

/-- A machine with an insensitive property is coupled with itself. -/
theorem fullCoupling : FullCoupling Eq id fun s t => s = t ∧ P s where
  congruence := Memory.Congruence.eq
  respelling := Name.Respelling.id
  memory := fun ⟨h, _⟩ => h ▸ rfl
  random := fun ⟨h, _⟩ => h ▸ rfl
  depth := fun ⟨h, _⟩ => h ▸ rfl
  limit := fun ⟨h, _⟩ => h ▸ rfl
  functions := by
    rintro s _ ⟨rfl, -⟩ f
    exact UserFunction.Respelled.rel_self s.functions[f]?
  setMemory := fun ⟨h, hs⟩ _ _ hmemory => ⟨hmemory ▸ h ▸ rfl, hP.setMemory hs _⟩
  setRandom := fun ⟨h, hs⟩ random => ⟨h ▸ rfl, hP.setRandom hs random⟩
  setDepth := fun ⟨h, hs⟩ depth => ⟨h ▸ rfl, hP.setDepth hs depth⟩
  console := by
    rintro α act s _ ⟨rfl, hs⟩
    exact ⟨rfl, rfl, hP.setConsole hs _ _⟩
  read := by
    rintro s _ ⟨rfl, hs⟩
    exact ⟨rfl, rfl, hP.read hs⟩
  define := by
    rintro f parameter body s _ ⟨rfl, hs⟩
    rw [Expr.rename_id]
    exact ⟨rfl, rfl, hP.setFunctions hs _⟩

end Insensitive

/-- The action preserves every insensitive property and the depth of calls, also if it fails. -/
def Quiet (x : Action Machine α) : Prop :=
  ∀ P : Machine → Prop, Insensitive P → ∀ m, P m → P (x m).2 ∧ (x m).2.depth = m.depth

/-- An action is quiet if every machine coupled with itself runs it alike twice. -/
theorem quiet_of_agree {x : Action Machine α}
    (hx : ∀ (P : Machine → Prop) (d : Nat), Insensitive P →
      Agree (AtDepth (fun s t => s = t ∧ P s) d) x x) : Quiet x := by
  intro P hP m hm
  obtain ⟨-, ⟨-, hend⟩, hdepth⟩ := hx P m.depth hP m m ⟨⟨rfl, hm⟩, rfl⟩
  exact ⟨hend, hdepth⟩

namespace Quiet

variable {β : Type}

/-- A result that does not depend on the machine says nothing. -/
theorem ofExcept (r : Except Error α) : Quiet (Action.ofExcept r) := fun _ _ _ hm => ⟨hm, rfl⟩

/-- Sequences of quiet actions are quiet. -/
theorem bind {x : Action Machine α} {f : α → Action Machine β} (hx : Quiet x)
    (hf : ∀ a, Quiet (f a)) : Quiet (x >>= f) := by
  intro P hP m hm
  obtain ⟨hm', hdepth⟩ := hx P hP m hm
  rw [bind_apply]
  rcases hxm : x m with ⟨_ | a, m'⟩ <;> rw [hxm] at hm' hdepth
  · exact ⟨hm', hdepth⟩
  · obtain ⟨hend, hdepth'⟩ := hf a P hP m' hm'
    exact ⟨hend, hdepth'.trans hdepth⟩

/-- Evaluation is quiet. -/
theorem eval (e : Expr) : Quiet (e.eval perform) :=
  quiet_of_agree fun _ d hP => Expr.eval_agree (hP.fullCoupling.perform_agree d) e

/-- An expression whose value must be a number is evaluated quietly. -/
theorem evalNumber (e : Expr) : Quiet (e.evalNumber perform) :=
  (eval e).bind fun _ => ofExcept _

/-- Simple requests are quiet. -/
theorem request {a : Answer} {r : Request a} (hr : r.isSimple = true) :
    Quiet (perform a r) := by
  refine quiet_of_agree fun P d hP => ?_
  simpa only [perform_renamed_id] using hP.fullCoupling.perform_simple d a r hr

/-- Simple statements are quiet. -/
theorem exec {s : Statement} (hs : s.isSimple = true) (patience : Nat) :
    Quiet (s.exec perform patience) :=
  quiet_of_agree fun _ d hP => hP.fullCoupling.exec_agree hs patience d

end Quiet

/-! ## What evaluation leaves alone -/

/-- The second machine differs from the first in memory, random generator and depth of calls at most. -/
def Beside (m m' : Machine) : Prop :=
  m' = { m with memory := m'.memory, random := m'.random, depth := m'.depth }

/-- A machine beside another is coupled with itself. -/
theorem coupling_beside (m : Machine) : Coupling Eq fun s t => s = t ∧ m.Beside s where
  congruence := Memory.Congruence.eq
  memory := fun h => congrArg Machine.memory h.1
  random := fun h => congrArg Machine.random h.1
  depth := fun h => congrArg Machine.depth h.1
  limit := fun h => congrArg (fun m => m.returns.limit) h.1
  functions := by
    rintro s _ ⟨rfl, -⟩ f
    exact UserFunction.Respelled.rel_self s.functions[f]?
  setMemory := by
    rintro s _ ⟨rfl, hs⟩ memory _ rfl
    refine ⟨rfl, ?_⟩
    rw [Beside] at hs ⊢
    rw [hs]
  setRandom := by
    rintro s _ ⟨rfl, hs⟩ random
    refine ⟨rfl, ?_⟩
    rw [Beside] at hs ⊢
    rw [hs]
  setDepth := by
    rintro s _ ⟨rfl, hs⟩ depth
    refine ⟨rfl, ?_⟩
    rw [Beside] at hs ⊢
    rw [hs]

/-- A request of an evaluation leads from machines beside `m` at its depth to such machines. -/
theorem perform_beside (m : Machine) :
    Handler.AgreeOn Request.isEvaluation (AtDepth (fun s t => s = t ∧ m.Beside s) m.depth)
      perform perform :=
  (coupling_beside m).perform_agree m.depth

/-- Evaluation changes nothing but memory and the random generator, whether it fails or not. -/
theorem eval_beside (e : Expr) (m : Machine) :
    ∃ memory random, (e.eval perform m).2 = { m with memory, random } := by
  obtain ⟨-, ⟨-, hbeside⟩, hdepth⟩ := Expr.eval_agree (perform_beside m) e m m ⟨⟨rfl, rfl⟩, rfl⟩
  refine ⟨(e.eval perform m).2.memory, (e.eval perform m).2.random, ?_⟩
  rw [Beside, hdepth] at hbeside
  exact hbeside

/-- So does the evaluation of several expressions. -/
theorem evalAll_beside (es : List Expr) (m : Machine) :
    ∃ memory random, (Expr.evalAll perform es m).2 = { m with memory, random } := by
  obtain ⟨-, ⟨-, hbeside⟩, hdepth⟩ := Expr.evalAll_agree (perform_beside m) es m m ⟨⟨rfl, rfl⟩, rfl⟩
  refine ⟨(Expr.evalAll perform es m).2.memory, (Expr.evalAll perform es m).2.random, ?_⟩
  rw [Beside, hdepth] at hbeside
  exact hbeside

end Machine

end CommodoreBasic
