import CommodoreBasic.Statement.Nodes
import CommodoreBasic.Proofs.Subroutines

/-!
# Reading DATA

The pool of DATA items is made from the text of a program before it starts. Three requests concern it:
READ takes the next item, and RESTORE and RUN choose which item is next. A run is looked at through the
record of its requests. Each of them moves the pool by one step, so that the record tells which item
every READ got, whatever lines the program went through.

A request that fails is the last one of its run. So without RESTORE and RUN the items that were read
are an initial part of the items in the text, with a failure behind them if there were too few.
-/

namespace CommodoreBasic

open CommodoreBasic.Action

/-! ## DATA in the text -/

/-- The nodes of a program in the order of its text. -/
def Program.nodes (p : Program) : List Node :=
  p.lines.flatMap fun l => l.statements.flatMap Statement.nodes

/-- The items of a node that is a DATA statement. -/
def Node.dataItems : Node → List Value
  | statement (.data items) => items
  | _ => []

mutual

/-- No expression has items of DATA. -/
theorem Expr.dataItems_nodes : (e : Expr) → e.nodes.flatMap Node.dataItems = []
  | .literal _ | .scalar _ => rfl
  | .element _ es | .call _ es => by
    simp [Expr.nodes, Node.dataItems, Expr.dataItems_nodesOfAll es]
  | .unary _ e => by simp [Expr.nodes, Node.dataItems, Expr.dataItems_nodes e]
  | .binary _ l r | .comparison _ l r => by
    simp [Expr.nodes, Node.dataItems, Expr.dataItems_nodes l, Expr.dataItems_nodes r]

/-- Neither has a list of expressions. -/
theorem Expr.dataItems_nodesOfAll :
    (es : List Expr) → (Expr.nodesOfAll es).flatMap Node.dataItems = []
  | [] => rfl
  | e :: es => by
    simp [Expr.nodesOfAll, Expr.dataItems_nodes e, Expr.dataItems_nodesOfAll es]

end

/-- Neither has a target. -/
theorem Target.dataItems_nodes (t : Target) : t.nodes.flatMap Node.dataItems = [] := by
  cases t <;> simp [Target.nodes, Node.dataItems, Expr.dataItems_nodesOfAll]

/-- The items of a statement are those of the DATA statements among its nodes. -/
theorem Statement.dataItems_nodes (s : Statement) :
    s.nodes.flatMap Node.dataItems = s.dataItems := by
  induction s with
  | assign t e =>
    cases t <;> simp [nodes, Node.dataItems, dataItems, Expr.dataItems_nodes,
      Expr.dataItems_nodesOfAll]
  | data items => simp [nodes, Node.dataItems, dataItems, List.flatMap_map]
  | ifThen e s ih => simp [nodes, Node.dataItems, dataItems, Expr.dataItems_nodes, ih]
  | loop _ start limit step =>
    cases step <;> simp [nodes, Node.dataItems, dataItems, Expr.dataItems_nodes]
  | _ =>
    simp [nodes, Node.dataItems, dataItems, Expr.dataItems_nodes, Expr.dataItems_nodesOfAll,
      List.flatMap_assoc, Target.dataItems_nodes]

/-- So are those of a program. -/
theorem Program.dataItems_nodes (p : Program) : p.nodes.flatMap Node.dataItems = p.dataItems := by
  have hline (l : Line) : l.statements.flatMap Statement.dataItems = l.dataItems := rfl
  simp [nodes, dataItems, List.flatMap_assoc, Statement.dataItems_nodes, hline]

/-! ## Steps of the pool -/

namespace Request

/-- The requests that choose which item is the next one. -/
def repositions {a : Answer} : Request a → Bool
  | .restore _ | .run _ => true
  | _ => false

/-- The requests that concern the pool. -/
def concernsData {a : Answer} : Request a → Bool
  | .read | .restore _ | .run _ => true
  | _ => false

end Request

namespace Entry

/-- What a request for an item was answered with. -/
def read? : Entry → Option (Except Error Value)
  | ⟨_, .read, result⟩ => some result
  | _ => none

/-- The request did not fail. -/
def Succeeded (e : Entry) : Prop := ∃ a, e.result = .ok a

/-- A request for the next item is recorded with its result. -/
theorem read?_read (result : Except Error Value) :
    read? ⟨.value, .read, result⟩ = some result := rfl

/-- Other requests are not counted among those for items. -/
theorem read?_of_not_concernsData {e : Entry} (h : e.request.concernsData = false) :
    e.read? = none := by
  obtain ⟨a, r, result⟩ := e
  cases r <;> first | rfl | cases h

end Entry

namespace DataPool

/-- The next item, or the failure if there is none, and the pool after that. -/
def take (d : DataPool) : Except Error Value × DataPool :=
  match d.read? with
  | some (v, d') => (.ok v, d')
  | none => (raise .outOfData, d)

/-- The next item is given, and the one behind it comes next. -/
theorem take_of_some {d : DataPool} {v : Value} (h : d.items[d.next]? = some v) :
    d.take = (.ok v, { d with next := d.next + 1 }) := by
  rw [take, read?, h]
  rfl

/-- Without a next item the pool is left as it is. -/
theorem take_of_none {d : DataPool} (h : d.items[d.next]? = none) :
    d.take = (raise .outOfData, d) := by
  rw [take, read?, h]
  rfl

/-- What a request with its result does to the pool. -/
inductive Step (d : DataPool) : Entry → DataPool → Prop where
  | read : Step d ⟨.value, .read, d.take.1⟩ d.take.2
  | restore (n : LineNumber) (result : Except Error Unit) :
    Step d ⟨.done, .restore (some n), result⟩ (d.restore n)
  | rewind (result : Except Error Unit) : Step d ⟨.done, .restore none, result⟩ d.rewind
  | run (n : Option LineNumber) : Step d ⟨.done, .run n, .ok ()⟩ d.rewind
  | runFailed (n : Option LineNumber) (e : Error) : Step d ⟨.done, .run n, .error e⟩ d
  | other {e : Entry} (h : e.request.concernsData = false) : Step d e d

/-- What requests do to the pool one after the other. -/
def Trace : DataPool → List Entry → DataPool → Prop
  | d, [], d' => d' = d
  | d, e :: es, d' => ∃ d₁, Step d e d₁ ∧ Trace d₁ es d'

variable {d d' : DataPool} {e : Entry} {es es' : List Entry}

/-- Two traces follow one another exactly if they meet. -/
theorem trace_append : Trace d (es ++ es') d' ↔ ∃ d₁, Trace d es d₁ ∧ Trace d₁ es' d' := by
  induction es generalizing d with
  | nil => simp [Trace]
  | cons e es ih =>
    simp only [List.cons_append, Trace, ih]
    grind

/-- Only which item is next can change. -/
theorem Step.rewind_eq (h : Step d e d') : d'.rewind = d.rewind := by
  cases h with
  | read =>
    cases hitem : d.items[d.next]? with
    | none => rw [take_of_none hitem]
    | some v => rw [take_of_some hitem]; rfl
  | _ => rfl

/-- Rewinding undoes whatever has been taken. -/
theorem Trace.rewind_eq (h : Trace d es d') : d'.rewind = d.rewind := by
  induction es generalizing d with
  | nil => rw [h]
  | cons e es ih =>
    obtain ⟨d₁, hstep, hrest⟩ := h
    exact (ih hrest).trans hstep.rewind_eq

/-- The other requests leave the pool as it is. -/
theorem Trace.eq_of_not_concernsData (h : Trace d es d')
    (hes : ∀ e ∈ es, e.request.concernsData = false) : d' = d := by
  induction es generalizing d with
  | nil => exact h
  | cons e es ih =>
    obtain ⟨d₁, hstep, hrest⟩ := h
    have he := hes e List.mem_cons_self
    have hd : d₁ = d := by
      cases hstep with
      | other => rfl
      | _ => cases he
    exact (ih hrest fun e' he' => hes e' (List.mem_cons_of_mem e he')).trans hd

/-- If nothing else chooses the next item, items are read in their order, up to the first failure. -/
theorem Trace.reads (h : Trace d es d') (hes : ∀ e ∈ es, e.request.repositions = false)
    (horder : es.Pairwise fun e _ => e.Succeeded) :
    es.filterMap Entry.read? <+: (d.items.toList.drop d.next).map .ok ++ [raise .outOfData] := by
  induction es generalizing d with
  | nil => exact List.nil_prefix
  | cons e es ih =>
    obtain ⟨d₁, hstep, hrest⟩ := h
    obtain ⟨hfirst, horder⟩ := List.pairwise_cons.mp horder
    have he := hes e List.mem_cons_self
    have ih' := ih hrest (fun e' he' => hes e' (List.mem_cons_of_mem e he')) horder
    cases hstep with
    | read =>
      rw [List.filterMap_cons_some (Entry.read?_read _)]
      cases hitem : d.items[d.next]? with
      | some v =>
        rw [take_of_some hitem] at ih' ⊢
        rw [← Array.getElem?_toList] at hitem
        obtain ⟨hlt, hv⟩ := List.getElem?_eq_some_iff.mp hitem
        rw [List.drop_eq_getElem_cons hlt, hv, List.map_cons, List.cons_append]
        exact List.prefix_cons_inj _ |>.mpr ih'
      | none =>
        rw [take_of_none hitem] at hfirst ⊢
        cases es with
        | nil =>
          rw [← Array.getElem?_toList, List.getElem?_eq_none_iff] at hitem
          rw [List.drop_eq_nil_of_le hitem]
          exact List.prefix_rfl
        | cons e' es =>
          obtain ⟨_, hok⟩ := hfirst e' List.mem_cons_self
          cases hok
    | other hother =>
      rw [List.filterMap_cons_none (Entry.read?_of_not_concernsData hother)]
      exact ih'
    | _ => cases he

end DataPool

/-! ## Failures -/

section Failures

variable {σ : Type}

/-- All requests on the record succeeded. -/
def AllSucceeded (x : σ × Array Entry) : Prop :=
  ∀ e ∈ x.2.toList, e.Succeeded

/-- All requests on the record succeeded but perhaps the last. -/
def StoppedAtFailure (x : σ × Array Entry) : Prop :=
  x.2.toList.Pairwise fun e _ => e.Succeeded

/-- If all requests have succeeded none came behind a failure. -/
theorem AllSucceeded.stopped {x : σ × Array Entry} (h : AllSucceeded x) : StoppedAtFailure x :=
  List.pairwise_of_forall_mem_list fun e he _ _ => h e he

/-- The action ends at the first request that fails, and then fails itself. -/
def StopsAtFailure {α : Type} (x : Action (σ × Array Entry) α) : Prop :=
  ∀ s, AllSucceeded s → StoppedAtFailure (x s).2 ∧ ∀ a, (x s).1 = .ok a → AllSucceeded (x s).2

/-- Stopping at a failure is a property that whole statements inherit from single requests. -/
theorem compositional_stopsAtFailure :
    Compositional fun {α} (x _ : Action (σ × Array Entry) α) => StopsAtFailure x where
  ofExcept _ _ hs := ⟨hs.stopped, fun _ _ => hs⟩
  bind {_ _ x _ f _} hx hf s hs := by
    obtain ⟨hstopped, hall⟩ := hx s hs
    rw [bind_apply]
    rcases hxs : x s with ⟨_ | a, s'⟩ <;> rw [hxs] at hstopped hall
    · exact ⟨hstopped, fun b hb => by cases hb⟩
    · exact hf a s' (hall a rfl)

/-- A single request is the last one if it fails. -/
theorem Handler.recording_stopsAtFailure (h : Handler σ) (a : Answer) (r : Request a) :
    StopsAtFailure (h.recording a r) := by
  rintro ⟨s, entries⟩ hs
  have hlist : ((h.recording a r (s, entries)).2.2).toList =
      entries.toList ++ [⟨a, r, (h a r s).1⟩] := Array.toList_push
  refine ⟨?_, fun v hv e he => ?_⟩
  · rw [StoppedAtFailure, hlist, List.pairwise_append]
    exact ⟨AllSucceeded.stopped hs, List.pairwise_singleton _ _, fun e he _ _ => hs e he⟩
  · rw [hlist] at he
    obtain he | he := List.mem_append.mp he
    · exact hs e he
    · rw [List.mem_singleton.mp he]
      exact ⟨v, hv⟩

/-- A statement ends at the first of its requests that fails. -/
theorem Statement.exec_stopsAtFailure (h : Handler σ) (s : Statement) (patience : Nat) :
    StopsAtFailure (s.exec h.recording patience) :=
  s.exec_related (compositional_stopsAtFailure (σ := σ)) (k := h.recording) patience
    fun a r _ => h.recording_stopsAtFailure a r

end Failures

/-! ## Targets -/

/-- The requests store the value in the target, after its subscripts are evaluated. -/
def Target.Stored (v : Value) : Target → List Entry → Prop
  | .scalar n, es => es = [⟨.done, .store n v, .ok ()⟩]
  | .element n _, es => ∃ evaluation subscripts,
      (∀ e ∈ evaluation, e.request.isEvaluation = true) ∧
        es = evaluation ++ [⟨.done, .storeElement n subscripts v, .ok ()⟩]

/-- For each of the targets the requests take an item and store it there. -/
inductive Delivered : List Target → List Entry → Prop where
  | nil : Delivered [] []
  | cons {t : Target} {ts : List Target} {v : Value} {es es' : List Entry} (h : t.Stored v es)
    (hrest : Delivered ts es') : Delivered (t :: ts) (⟨.value, .read, .ok v⟩ :: (es ++ es'))

section Targets

variable {σ : Type} {h : Handler σ} {x x' : σ × Array Entry}

/-- Only evaluation has been asked for since the record was `entries`. -/
def EvaluatedSince (entries : List Entry) (x : σ × Array Entry) : Prop :=
  ∃ es, x.2.toList = entries ++ es ∧ ∀ e ∈ es, e.request.isEvaluation = true

/-- While an expression is evaluated, only the requests of evaluations are recorded. -/
theorem Handler.recording_evaluation (h : Handler σ) (entries : List Entry) :
    Handler.AgreeOn Request.isEvaluation (fun x y => x = y ∧ EvaluatedSince entries x)
      h.recording h.recording := by
  intro a r hr
  refine Agree.invariant fun ⟨s, record⟩ ⟨es, hrecord, hes⟩ => ?_
  have hlist : (h.recording a r (s, record)).2.2.toList =
      record.toList ++ [⟨a, r, (h a r s).1⟩] := Array.toList_push
  refine ⟨es ++ [⟨a, r, (h a r s).1⟩], ?_, ?_⟩
  · rw [hlist, hrecord, List.append_assoc]
  · exact List.forall_mem_append.mpr ⟨hes, List.forall_mem_singleton.mpr hr⟩

/-- At first nothing has been recorded. -/
theorem EvaluatedSince.refl (x : σ × Array Entry) : EvaluatedSince x.2.toList x :=
  ⟨[], (List.append_nil _).symm, List.forall_mem_nil _⟩

/-- A request that succeeds is put on the record as such. -/
theorem Handler.recording_ok {a : Answer} {r : Request a} {v : a.Carrier}
    (hok : h.recording a r x = (.ok v, x')) : x'.2.toList = x.2.toList ++ [⟨a, r, .ok v⟩] := by
  have hlist : (h.recording a r x).2.2.toList = x.2.toList ++ [⟨a, r, (h.recording a r x).1⟩] :=
    Array.toList_push
  rw [hok] at hlist
  exact hlist

/-- A value that has been stored in a target is recorded as such. -/
theorem Target.store_stored {t : Target} {v : Value} (hok : t.store h.recording v x = (.ok (), x')) :
    ∃ es, x'.2.toList = x.2.toList ++ es ∧ t.Stored v es := by
  cases t with
  | scalar n => exact ⟨_, Handler.recording_ok hok, rfl⟩
  | element n subscripts =>
    obtain ⟨vs, u, hevaluated, hstore⟩ := Action.of_bind_eq_ok hok
    obtain ⟨-, -, evaluation, hrecord, hall⟩ := Expr.evalAll_agree
      (h.recording_evaluation x.2.toList) subscripts x x ⟨rfl, .refl x⟩
    rw [hevaluated] at hrecord
    refine ⟨_, ?_, evaluation, vs, hall, rfl⟩
    rw [Handler.recording_ok hstore, hrecord, List.append_assoc]

/-- READ delivers an item to each of its targets, from left to right. -/
theorem Statement.read_delivered {targets : List Target} {patience : Nat}
    (hok : (Statement.read targets).exec h.recording patience x = (.ok (), x')) :
    ∃ es, x'.2.toList = x.2.toList ++ es ∧ Delivered targets es := by
  induction targets generalizing x with
  | nil =>
    cases hok
    exact ⟨[], (List.append_nil _).symm, .nil⟩
  | cons t ts ih =>
    obtain ⟨⟨⟩, u, hfirst, hrest⟩ := Action.of_bind_eq_ok hok
    obtain ⟨v, w, hread, hstore⟩ := Action.of_bind_eq_ok hfirst
    obtain ⟨es, hes, hstored⟩ := Target.store_stored hstore
    obtain ⟨es', hes', hdelivered⟩ := ih hrest
    refine ⟨_, ?_, .cons hstored hdelivered⟩
    rw [hes', hes, Handler.recording_ok hread]
    simp

/-- The conditions of IFs are evaluated first. If one fails, the rest of the line is passed over. -/
theorem Statement.stripIfs_read_delivered {s : Statement} {targets : List Target} {patience : Nat}
    (hs : s.stripIfs = .read targets) (hok : s.exec h.recording patience x = (.ok (), x')) :
    ∃ conditions es, x'.2.toList = x.2.toList ++ (conditions ++ es) ∧
      (∀ e ∈ conditions, e.request.isEvaluation = true) ∧
      (es = [⟨.done, .skipLine, .ok ()⟩] ∨ Delivered targets es) := by
  induction s generalizing x with
  | ifThen condition s ih =>
    obtain ⟨v, u, hcondition, hrest⟩ := Action.of_bind_eq_ok hok
    obtain ⟨-, -, evaluation, hrecord, hall⟩ := Expr.eval_agree
      (h.recording_evaluation x.2.toList) condition x x ⟨rfl, .refl x⟩
    rw [hcondition] at hrecord
    split at hrest
    · obtain ⟨conditions, es, hes, hconditions, hcases⟩ := ih hs hrest
      refine ⟨evaluation ++ conditions, es, ?_, List.forall_mem_append.mpr ⟨hall, hconditions⟩,
        hcases⟩
      rw [hes, hrecord]
      simp
    · refine ⟨evaluation, _, ?_, hall, .inl rfl⟩
      rw [Handler.recording_ok hrest, hrecord, List.append_assoc]
  | read =>
    cases hs
    obtain ⟨es, hes, hdelivered⟩ := Statement.read_delivered hok
    exact ⟨[], es, hes, List.forall_mem_nil _, .inr hdelivered⟩
  | _ => cases hs

end Targets

namespace Machine

variable {m : Machine}

/-! ## Turns -/

/-- READ takes an item from the pool and changes nothing else. -/
theorem readData_eq (m : Machine) :
    readData m = (m.data.take.1, { m with data := m.data.take.2 }) := by
  unfold readData DataPool.take
  cases m.data.read? <;> rfl

/-- Nothing but the three requests changes the pool. -/
theorem keeps_data_perform {a : Answer} {r : Request a} (hr : r.concernsData = false) :
    Keeps Machine.data (perform a r) := by
  intro m
  by_cases heval : r.isEvaluation = true
  · obtain ⟨-, ⟨-, hbeside⟩, -⟩ := perform_beside m a r heval m m ⟨⟨rfl, rfl⟩, rfl⟩
    rw [hbeside]
  cases r with
  | fetch | fetchElement | call => exact absurd rfl heval
  | jump j n =>
    cases j with
    | goto =>
      change (goto n m).2.data = m.data
      unfold goto
      obtain ⟨i, hfind⟩ | hfind := findLine_cases n m
      · rw [bind_of_ok hfind]
        rfl
      · rw [bind_of_error hfind]
    | gosub =>
      change (gosub n m).2.data = m.data
      obtain ⟨e, h⟩ | ⟨i, returns, -, h⟩ := gosub_cases n m <;> rw [h]
      rfl
  | comeBack =>
    change (comeBack m).2.data = m.data
    obtain ⟨-, h⟩ | ⟨i, rest, -, h⟩ := comeBack_cases m <;> rw [h]
    rfl
  | stop => exact Keeps.bind (fun _ => rfl) (fun _ _ => rfl) m
  | beginLoop counter start limit step =>
    obtain ⟨_, _, _, _, hstate⟩ := beginLoop_state counter start limit step m
    change (beginLoop counter start limit step m).2.data = m.data
    rw [hstate]
  | nextLoop counter =>
    obtain ⟨_, _, _, _, hstate⟩ := nextLoop_state counter m
    change (nextLoop counter m).2.data = m.data
    rw [hstate]
  | read | restore | run => cases hr
  | _ => rfl

/-- Every request moves the pool by one step. -/
theorem perform_step {a : Answer} (r : Request a) (m : Machine) :
    m.data.Step ⟨a, r, (perform a r m).1⟩ (perform a r m).2.data := by
  cases hr : r.concernsData with
  | false =>
    rw [keeps_data_perform hr m]
    exact .other hr
  | true =>
    cases r with
    | read =>
      have hperform : perform .value .read m = readData m := rfl
      rw [hperform, readData_eq]
      exact .read
    | restore n =>
      cases n with
      | none => exact .rewind _
      | some n => exact .restore n _
    | run n =>
      have hperform : perform .done (.run n) m = run n m := rfl
      rw [hperform]
      obtain ⟨e, h⟩ | ⟨i, h⟩ := run_cases n m <;> rw [h]
      · exact .runFailed n e
      · exact .run n
    | _ => cases hr

/-- A turn that fetches nothing asks for nothing and is the last. -/
theorem turn_of_fetch?_none (h : m.fetch? = none) :
    ∃ result interrupted, m.turn = .finished result { m.settle with interrupted } := by
  unfold fetch? at h
  rw [turn_eq]
  cases hat : m.settle.program.at? m.settle.cursor with
  | none => exact ⟨.ok (), m.settle.interrupted, rfl⟩
  | some fetched =>
    have hbreak : m.interrupted = true := by
      by_contra hfree
      rw [if_neg hfree, hat] at h
      cases h
    have hbegin : beginStep m.settle =
        (raise .breakPressed, { m.settle with interrupted := false }) := if_pos hbreak
    dsimp only
    rw [step_apply, hbegin]
    exact ⟨_, false, rfl⟩

/-- A turn is over before it asks for anything, or it carries out a statement. -/
theorem turn_asked (m : Machine) :
    (m.asked = [] ∧ ∃ result u, m.turn = .finished result u ∧ u.data = m.data) ∨
      ∃ (line : Line) (s : Statement), m.fetch? = some (line, s) ∧
        m.asked = (s.exec perform.recording m.counted.patience (m.counted, #[])).2.2.toList ∧
        m.turn = conclude line (s.exec perform m.counted.patience m.counted) := by
  unfold asked
  cases hfetch : m.fetch? with
  | none =>
    obtain ⟨result, interrupted, hturn⟩ := turn_of_fetch?_none hfetch
    exact .inl ⟨rfl, _, _, hturn, rfl⟩
  | some fetched =>
    obtain ⟨line, s⟩ := fetched
    rw [turn_of_fetch?_eq_some hfetch]
    dsimp only
    split
    · exact .inl ⟨rfl, _, _, rfl, rfl⟩
    · exact .inr ⟨line, s, rfl, rfl, rfl⟩

/-- The program goes on only after a statement that succeeded. -/
theorem eq_ok_of_conclude {line : Line} {x : Except Error Unit × Machine} {u : Machine}
    (h : conclude line x = .running u) : x.1 = .ok () := by
  obtain ⟨_ | ⟨⟨⟩⟩, v⟩ := x
  · cases h
  · rfl

/-- What a statement comes to has no influence on the pool. -/
theorem data_conclude (line : Line) (x : Except Error Unit × Machine) :
    (conclude line x).machine.data = x.2.data := by
  obtain ⟨_ | ⟨⟨⟩⟩, u⟩ := x
  · rfl
  · unfold conclude proceed
    dsimp only
    cases u.flow <;> rfl

/-- The requests of a turn move the pool. -/
theorem turn_trace (m : Machine) : m.data.Trace m.asked m.turn.machine.data := by
  obtain ⟨hasked, result, u, hturn, hdata⟩ | ⟨line, s, -, hasked, hturn⟩ := turn_asked m
  · rw [hasked, hturn]
    exact hdata
  · have hask : Handler.AgreeOn s.mayAsk
        (fun x y => x = y ∧ m.data.Trace x.2.toList x.1.data) perform.recording
        perform.recording := by
      intro a r _
      refine Agree.invariant fun ⟨u, entries⟩ hx => ?_
      have hlist : (perform.recording a r (u, entries)).2.2.toList =
          entries.toList ++ [⟨a, r, (perform a r u).1⟩] := Array.toList_push
      rw [hlist, DataPool.trace_append]
      exact ⟨_, hx, _, perform_step r u, rfl⟩
    obtain ⟨-, -, htrace⟩ := s.exec_agree m.counted.patience hask (m.counted, #[])
      (m.counted, #[]) ⟨rfl, rfl⟩
    rw [hasked, hturn, data_conclude, s.exec_recording perform m.counted.patience m.counted #[]]
    exact htrace

/-- A turn ends at the first of its requests that fails, and then the program is over. -/
theorem asked_stopped (m : Machine) :
    (m.asked.Pairwise fun e _ => e.Succeeded) ∧
      ∀ u, m.turn = .running u → ∀ e ∈ m.asked, e.Succeeded := by
  obtain ⟨hasked, result, u, hturn, -⟩ | ⟨line, s, -, hasked, hturn⟩ := turn_asked m
  · rw [hasked, hturn]
    exact ⟨.nil, fun u hu => by cases hu⟩
  · rw [hasked, hturn, s.exec_recording perform m.counted.patience m.counted #[]]
    obtain ⟨hstopped, hall⟩ := s.exec_stopsAtFailure perform m.counted.patience (m.counted, #[])
      (by simp [AllSucceeded])
    exact ⟨hstopped, fun u hu => hall () (eq_ok_of_conclude hu)⟩

/-- A turn with a READ statement that succeeds delivers items to its targets, unless a condition in
front of it fails. -/
theorem asked_delivered {line : Line} {s : Statement} {targets : List Target} {u : Machine}
    (hfetch : m.fetch? = some (line, s)) (hs : s.stripIfs = .read targets)
    (hrun : m.turn = .running u) :
    ∃ conditions es, m.asked = conditions ++ es ∧
      (∀ e ∈ conditions, e.request.isEvaluation = true) ∧
      (es = [⟨.done, .skipLine, .ok ()⟩] ∨ Delivered targets es) := by
  obtain ⟨-, result, v, hturn, -⟩ | ⟨line', s', hfetch', hasked, hturn⟩ := turn_asked m
  · rw [hturn] at hrun
    cases hrun
  · cases hfetch.symm.trans hfetch'
    rw [hturn, s.exec_recording perform m.counted.patience m.counted #[]] at hrun
    have hok := eq_ok_of_conclude hrun
    obtain ⟨conditions, es, hes, hcases⟩ :=
      s.stripIfs_read_delivered hs (Prod.ext hok rfl : s.exec perform.recording
        m.counted.patience (m.counted, #[]) = (.ok (), _))
    exact ⟨conditions, es, hasked.trans hes, hcases⟩

/-! ## Runs -/

/-- The requests of at most `n` turns. -/
def requests : Nat → Machine → List Entry
  | 0, _ => []
  | n + 1, m =>
    match m.turn with
    | .running u => m.asked ++ requests n u
    | .finished _ _ => m.asked

/-- The requests of a run move the pool. -/
theorem runFor_trace (n : Nat) (m : Machine) :
    m.data.Trace (requests n m) (m.runFor n).machine.data := by
  induction n generalizing m with
  | zero => rfl
  | succ n ih =>
    have hturn := turn_trace m
    rw [requests, runFor]
    cases h : m.turn with
    | finished result u =>
      rw [h] at hturn
      exact hturn
    | running u =>
      rw [h] at hturn
      exact DataPool.trace_append.mpr ⟨_, hturn, ih u⟩

/-- A request that fails is the last of its run. -/
theorem requests_stopped (n : Nat) (m : Machine) :
    (requests n m).Pairwise fun e _ => e.Succeeded := by
  induction n generalizing m with
  | zero => exact .nil
  | succ n ih =>
    obtain ⟨hstopped, hall⟩ := asked_stopped m
    rw [requests]
    cases h : m.turn with
    | finished result u => exact hstopped
    | running u => exact List.pairwise_append.mpr ⟨hstopped, ih u, fun e he _ _ => hall u h e he⟩

/-- READ gets the items of the text in its order, whatever lines a program goes through. The items are
those of all DATA statements, under IFs or not and carried out or not, and stay the same. Without
RESTORE and RUN the first request for an item gets the first of them, the next one the second, and a
request after the last item fails for want of data. Every READ statement makes such a request for each
of its targets, from left to right, and stores the item there. -/
theorem execute_reads (m : Machine) (p : Program) :
    (m.load p).data.items.toList = p.nodes.flatMap Node.dataItems ∧
      (∀ n, (m.execute p n).machine.data.items.toList = p.nodes.flatMap Node.dataItems) ∧
      (∀ n, (∀ e ∈ requests n (m.load p), e.request.repositions = false) →
        (requests n (m.load p)).filterMap Entry.read? <+:
          (p.nodes.flatMap Node.dataItems).map .ok ++ [raise .outOfData]) ∧
      ∀ n u v line s targets, m.execute p n = .running u → u.fetch? = some (line, s) →
        s.stripIfs = .read targets → u.turn = .running v →
        ∃ conditions es, u.asked = conditions ++ es ∧
          (∀ e ∈ conditions, e.request.isEvaluation = true) ∧
          (es = [⟨.done, .skipLine, .ok ()⟩] ∨ Delivered targets es) := by
  rw [p.dataItems_nodes]
  refine ⟨rfl, fun n => ?_, fun n hrequests => ?_, fun n u v line s targets _ hfetch hs hturn => ?_⟩
  · have hpool := congrArg DataPool.items (runFor_trace n (m.load p)).rewind_eq
    exact congrArg Array.toList hpool
  · exact (runFor_trace n (m.load p)).reads hrequests (requests_stopped n (m.load p))
  · exact asked_delivered hfetch hs hturn

/-- A program that reads the only item of its DATA, which it never reaches, and then one more. -/
def readsTwice : Program where
  lines := [
    { number := 10, statements := [.read [.scalar "A$"]] },
    { number := 20, statements := [.jump .goto 10] },
    { number := 30, statements := [.ifThen (.scalar "A") (.data [.text "ONE"])] }]

/-- The machine that runs it, once it has the item. -/
def inReadsTwice (steps : Nat) (cursor : Position) : Machine :=
  { (new {} 0 10).load readsTwice with
    memory := (Memory.store "A$" (.text "ONE") {}).2
    data := { DataPool.ofProgram readsTwice with next := 1 }
    cursor
    steps }

/-- One item is taken, and then READ fails. -/
theorem execute_reads_readsTwice :
    (∀ e ∈ requests 3 ((new {} 0 10).load readsTwice), e.request.repositions = false) ∧
      (requests 3 ((new {} 0 10).load readsTwice)).filterMap Entry.read? =
        [.ok (.text "ONE"), raise .outOfData] ∧
      (requests 3 ((new {} 0 10).load readsTwice)).filterMap Entry.read? <+:
        [Value.text "ONE"].map .ok ++ [raise .outOfData] := by
  have hread : ((new {} 0 10).load readsTwice).turn = .running (inReadsTwice 1 ⟨0, 1⟩) := rfl
  have hjump : (inReadsTwice 1 ⟨0, 1⟩).turn = .running (inReadsTwice 2 ⟨0, 0⟩) := rfl
  have hfail : (inReadsTwice 2 ⟨0, 0⟩).turn =
      .finished (.error { kind := .outOfData, line := some 10 }) (inReadsTwice 3 ⟨0, 0⟩) := rfl
  have hrequests : requests 3 ((new {} 0 10).load readsTwice) =
      [⟨.value, .read, .ok (.text "ONE")⟩, ⟨.done, .store "A$" (.text "ONE"), .ok ()⟩,
        ⟨.done, .jump .goto 10, .ok ()⟩, ⟨.value, .read, raise .outOfData⟩] := by
    rw [requests, hread]
    dsimp only
    rw [requests, hjump]
    dsimp only
    rw [requests, hfail]
    rfl
  have hkept : ∀ e ∈ requests 3 ((new {} 0 10).load readsTwice), e.request.repositions = false := by
    rw [hrequests]
    simp [Request.repositions]
  refine ⟨hkept, ?_, (execute_reads (new {} 0 10) readsTwice).2.2.1 3 hkept⟩
  rw [hrequests]
  rfl

end Machine

end CommodoreBasic
