import CommodoreBasic.Proofs.ArrayStorage
import CommodoreBasic.Proofs.StackLimit

/-!
# Elements that are found are there

Memory finds an element in two steps. The subscripts are made a place, and at that place the array is
looked at. If nothing were there, an error would be the fallback. In a well-formed memory every place
that is found is within its array. So it makes no difference what the fallback is, however deep in
calls of user functions the element is used.

Two machines are compared that differ in the fallback only. The judgement that carries the comparison
also says that the machine stays well-formed and that errors are plain, since all three are shown by the
same walk through the requests.
-/

namespace CommodoreBasic

open CommodoreBasic.Action

namespace Action

variable {σ α β : Type} {P : σ → Prop}

/-- From states with the property `P` both actions do the same. The property is kept, and no error says
more than its kind. -/
structure Matches (P : σ → Prop) (x y : Action σ α) : Prop where
  same : ∀ s, P s → y s = x s
  keeps : ∀ s, P s → P (x s).2
  plain : ∀ s, P s → Plain (x s).1

namespace Matches

/-- Two actions match if from each state with the property they do the same, keep it and fail plainly.
-/
theorem intro {x y : Action σ α} (h : ∀ s, P s → y s = x s ∧ P (x s).2 ∧ Plain (x s).1) :
    Matches P x y :=
  ⟨fun s hs => (h s hs).1, fun s hs => (h s hs).2.1, fun s hs => (h s hs).2.2⟩

/-- An action matches itself. -/
theorem self {x : Action σ α} (h : ∀ s, P s → P (x s).2 ∧ Plain (x s).1) : Matches P x x :=
  intro fun s hs => ⟨rfl, h s hs⟩

/-- A change of the state that keeps the property matches itself. -/
theorem modify {f : σ → σ} (h : ∀ s, P s → P (f s)) : Matches P (modify f) (modify f) :=
  self fun s hs => ⟨h s hs, .ok ()⟩

/-- What is done may depend on the state. -/
theorem atState {x y : σ → Action σ α} (h : ∀ s, Matches P (x s) (y s)) :
    Matches P (fun s => x s s) (fun s => y s s) :=
  ⟨fun s => (h s).same s, fun s => (h s).keeps s, fun s => (h s).plain s⟩

/-- Sequences of matching actions match. -/
theorem bind {x y : Action σ α} {f g : α → Action σ β} (hxy : Matches P x y)
    (hfg : ∀ a, Matches P (f a) (g a)) : Matches P (x >>= f) (y >>= g) := by
  refine intro fun s hs => ?_
  have hkeeps := hxy.keeps s hs
  have hplain := hxy.plain s hs
  rw [bind_apply, bind_apply, hxy.same s hs]
  rcases hxs : x s with ⟨e | a, s'⟩ <;> rw [hxs] at hkeeps hplain
  · exact ⟨rfl, hkeeps, hplain.cast⟩
  · exact ⟨(hfg a).same s' hkeeps, (hfg a).keeps s' hkeeps, (hfg a).plain s' hkeeps⟩

end Matches

/-- Matching is one of the relations that whole statements inherit from single requests. -/
theorem compositional_matches : Compositional (Matches P) where
  ofExcept hr := .self fun _ hs => ⟨hs, hr⟩
  bind := Matches.bind

end Action

/-! ## Memory -/

/-- What is done where an element has been found and is not there after all. -/
structure Fallback where
  fetching : Action Memory Value
  storing : Action Memory Unit

namespace Memory

variable {m : Memory}

/-- The value of an element, with a fallback of choice. -/
def fetchElementOr (o : Fallback) (n : Name) (subscripts : List Value) : Action Memory Value := do
  let offset ← locate n.fold subscripts
  fun m => ((m.tables[n.fold]?).bind fun t => t.cells[offset]?).elim (o.fetching m) fun v => (.ok v, m)

/-- Stores a value at a place of an array, with a fallback of choice. -/
def putAtOr (o : Fallback) (key : Name) (v : Value) (p : Nat) : Action Memory Unit := fun m =>
  if (m.tables[key]?).any (p < ·.cells.size) then (.ok (), m.put key p v) else o.storing m

/-- Stores a value in an element, with a fallback of choice. -/
def storeElementOr (o : Fallback) (n : Name) (subscripts : List Value) (v : Value) :
    Action Memory Unit := do
  if !v.fits n.fold then raise .typeMismatch
  let offset ← locate n.fold subscripts
  putAtOr o n.fold v offset

/-- The fallback of memory: an error. -/
def badSubscript : Fallback := ⟨raise .badSubscript, raise .badSubscript⟩

/-- With the error for a bad subscript in place the element is fetched as it is. -/
theorem fetchElementOr_badSubscript (n : Name) (subscripts : List Value) :
    fetchElementOr badSubscript n subscripts = fetchElement n subscripts := by
  unfold fetchElementOr fetchElement
  congr 1
  funext offset m
  cases (m.tables[n.fold]?).bind fun t => t.cells[offset]? <;> rfl

/-- If the value fits, the element is found first and then written. -/
theorem storeElementOr_eq {n : Name} {v : Value} (hv : v.fits n.fold = true) (o : Fallback)
    (subscripts : List Value) :
    storeElementOr o n subscripts v = locate n.fold subscripts >>= putAtOr o n.fold v := by
  unfold storeElementOr
  rw [hv]
  rfl

/-- With the error for a bad subscript in place the element is stored as it is. -/
theorem storeElementOr_badSubscript (n : Name) (subscripts : List Value) (v : Value) :
    storeElementOr badSubscript n subscripts v = storeElement n subscripts v := by
  have hput : putAtOr badSubscript n.fold v = putAt n.fold v := by
    funext p m
    unfold putAtOr putAt
    cases m.tables[n.fold]? with
    | none => rfl
    | some t =>
      rw [Option.any_some, Option.map_some]
      by_cases hlt : p < t.cells.size
      · rw [if_pos (decide_eq_true hlt)]
        exact (if_pos hlt).symm
      · rw [if_neg (by simpa using hlt)]
        exact (if_neg hlt).symm
  cases hv : v.fits n.fold with
  | false =>
    unfold storeElementOr storeElement
    rw [hv]
    rfl
  | true => rw [storeElementOr_eq hv, storeElement_eq hv, hput]

/-- The value of a variable has the type of the name that stands for it. -/
theorem isText_fetch (hm : m.Typed) (n : Name) : (m.fetch n).isText = n.fold.isText := by
  cases hn : n.fold.isReserved with
  | false => exact beq_iff_eq.mp (fetch_fits hm hn)
  | true =>
    unfold fetch
    rw [Name.isReserved, Bool.or_eq_true, beq_iff_eq, beq_iff_eq] at hn
    rcases hn with hn | hn <;> rw [hn] <;> rfl

/-- Storing in a variable involves no element. -/
theorem store_matches (n : Name) (v : Value) : Matches WellFormed (store n v) (store n v) := by
  refine .self fun m hm => ?_
  unfold store
  dsimp only
  split
  · exact ⟨hm, .throw⟩
  split
  · exact ⟨hm, .throw⟩
  next hfits =>
  split
  · exact ⟨hm, .throw⟩
  · exact ⟨hm.insert (by simpa using hfits), .ok ()⟩

/-- An array that cannot be made is an error without a line. -/
theorem plain_allocate (key : Name) (bounds : List Nat) (m : Memory) :
    Plain (allocate key bounds m).1 := by
  unfold allocate
  split
  · exact .ok ()
  · exact .throw

/-- DIM involves no element either. -/
theorem dimension_matches (n : Name) (sizes : List Value) :
    Matches WellFormed (dimension n sizes) (dimension n sizes) := by
  refine .self fun m hm => ⟨hm.supplied (supplied_dimension n sizes m), ?_⟩
  have hsizes := Plain.mapM Value.plain_toSubscript sizes
  unfold dimension
  split
  · exact .throw
  · split
    · exact plain_allocate n.fold _ m
    · next e he => exact (he ▸ hsizes).cast

/-- An array is provided in the same way for both. -/
theorem provide_matches (key : Name) (count : Nat) :
    Matches WellFormed (provide key count) (provide key count) := by
  refine .self fun m hm => ⟨?_, ?_⟩
  · have hkeeps := hm.supplied (supplied_supply m key (List.replicate count 10))
    obtain ⟨e, h, -⟩ | ⟨t, h, -⟩ := provide_cases key count m <;> rw [h] <;> exact hkeeps
  · unfold provide
    split
    · exact .ok ()
    · exact plain_allocate key _ m

/-- So is the place of an element. -/
theorem locate_matches (key : Name) (subscripts : List Value) :
    Matches WellFormed (locate key subscripts) (locate key subscripts) := by
  have hoffset (is : List Nat) : Matches WellFormed (offset key is) (offset key is) := by
    refine .self fun m hm => ?_
    unfold offset
    split
    · exact ⟨hm, .ok _⟩
    · exact ⟨hm, .throw⟩
  rw [locate_eq]
  refine Matches.bind (compositional_matches.ofExcept ?_) fun is => ?_
  · exact Plain.mapM Value.plain_toSubscript subscripts
  · exact (provide_matches key is.length).bind fun _ => hoffset is

/-- An element that has been found is there, so the fallback does not matter. -/
theorem fetchElement_matches (o : Fallback) (n : Name) (subscripts : List Value) :
    Matches WellFormed (fetchElement n subscripts) (fetchElementOr o n subscripts) := by
  refine .intro fun m hm => ?_
  have hkeeps := hm.supplied (supplied_fetchElement n subscripts m)
  have hplain := (locate_matches n.fold subscripts).plain m hm
  rcases h : locate n.fold subscripts m with ⟨e | p, m'⟩
  · have hfetch : fetchElement n subscripts m = (.error e, m') := bind_of_error h
    rw [h] at hplain
    rw [hfetch] at hkeeps ⊢
    exact ⟨bind_of_error h, hkeeps, hplain.cast⟩
  · obtain ⟨t, v, ht, hv, hfetch⟩ := hm.fetchElement h
    rw [hfetch] at hkeeps ⊢
    refine ⟨(bind_of_ok h).trans ?_, hkeeps, .ok v⟩
    rw [ht, Option.bind_some, hv, Option.elim_some]

/-- An element that has been found can be stored in. -/
theorem storeElement_matches (o : Fallback) (n : Name) (subscripts : List Value) (v : Value) :
    Matches WellFormed (storeElement n subscripts v) (storeElementOr o n subscripts v) := by
  cases hv : v.fits n.fold with
  | false =>
    unfold storeElement storeElementOr
    rw [hv]
    exact compositional_matches.raise .typeMismatch
  | true =>
    refine .intro fun m hm => ?_
    have hkeeps := (locate_matches n.fold subscripts).keeps m hm
    have hplain := (locate_matches n.fold subscripts).plain m hm
    rcases h : locate n.fold subscripts m with ⟨e | p, m'⟩ <;> rw [h] at hkeeps hplain
    · rw [storeElementOr_eq hv, storeElement_eq hv, bind_of_error h, bind_of_error h]
      exact ⟨rfl, hkeeps, hplain.cast⟩
    · obtain ⟨-, is, t, -, ht, hplace⟩ := located h
      have hlt : p < t.cells.size := hkeeps.lt_size ht hplace
      rw [hm.storeElement h hv, storeElementOr_eq hv, bind_of_ok h, putAtOr, ht, Option.any_some,
        if_pos (decide_eq_true hlt)]
      exact ⟨rfl, hkeeps.put ht hv p, .ok ()⟩

/-- A value of the right type is refused for other reasons. -/
theorem kind_of_store {n : Name} {v : Value} {e : Error} (hv : v.fits n.fold = true)
    (h : (store n v m).1 = .error e) : e.kind ≠ .typeMismatch := by
  unfold store at h
  dsimp only at h
  rw [hv] at h
  split at h
  · cases h
    decide
  split at h
  · next hfalse => cases hfalse
  split at h
  · cases h
    decide
  · cases h

end Memory

/-- A stack that is full is an error without a line. -/
theorem Stack.plain_push {α : Type} (s : Stack α) (a : α) : Plain (s.push a) := .ite (.ok _) .throw

/-- A call of the console fails plainly if the action on its replies does. -/
theorem Console.plain_call {α : Type} {act : List Reply → Event × Except Error α × List Reply}
    (h : ∀ replies, Plain (act replies).2.1) (c : Console) : Plain (call act c).1 := by
  unfold call
  dsimp only
  split
  · exact .throw
  · exact h c.replies

/-- What is printed is only noted. -/
theorem Console.plain_note (event : Event) (c : Console) :
    Plain (call (fun replies => (event, .ok (), replies)) c).1 := plain_call (fun _ => .ok ()) c

/-- Asking for a reply fails plainly. -/
theorem Console.plain_ask (prompt : String) (c : Console) : Plain (ask prompt c).1 := by
  refine plain_call (fun replies => ?_) c
  split
  · exact .ok _
  · exact .throw
  · exact .throw

/-! ## Machines -/

namespace Machine

variable {α : Type} {m : Machine}

/-- Memory is well-formed, and no loop counts with texts. -/
structure WellFormed (m : Machine) : Prop where
  memory : m.memory.WellFormed
  counters : ∀ l ∈ m.loops.items, l.counter.fold.isText = false

/-- Loops may be left. -/
theorem WellFormed.setLoops (hm : m.WellFormed) {memory : Memory} (hmemory : memory.WellFormed)
    {items : List Loop} (h : items.Sublist m.loops.items) :
    WellFormed { m with memory, loops := { m.loops with items } } :=
  ⟨hmemory, fun l hl => hm.counters l (h.subset hl)⟩

/-- What matches on memories matches on machines, which keep everything else. -/
theorem onMemory_matches {x y : Action Memory α} (h : Matches Memory.WellFormed x y) :
    Matches WellFormed (onMemory x) (onMemory y) where
  same m hm := by rw [onMemory_apply, onMemory_apply, h.same m.memory hm.memory]
  keeps m hm := ⟨h.keeps m.memory hm.memory, hm.counters⟩
  plain m hm := h.plain m.memory hm.memory

/-- The console has nothing to do with the arrays. -/
theorem onConsole_matches {act : Action Console α} (h : ∀ c, Plain (act c).1) :
    Matches WellFormed (onConsole act) (onConsole act) :=
  .self fun m hm => ⟨⟨hm.memory, hm.counters⟩, h m.console⟩

/-- Neither has the next item of DATA. -/
theorem readData_matches : Matches WellFormed readData readData := by
  refine .self fun m hm => ?_
  unfold readData
  split
  · exact ⟨⟨hm.memory, hm.counters⟩, .ok _⟩
  · exact ⟨hm, .throw⟩

/-- Neither has the search for a line. -/
theorem findLine_matches (n : LineNumber) : Matches WellFormed (findLine n) (findLine n) := by
  refine .self fun m hm => ?_
  obtain ⟨i, h⟩ | h := findLine_cases n m <;> rw [h]
  · exact ⟨hm, .ok i⟩
  · exact ⟨hm, .throw⟩

/-- Neither has the stack of subroutines, when one is entered. -/
theorem enterSubroutine_matches (i : Nat) :
    Matches WellFormed (enterSubroutine i) (enterSubroutine i) := by
  refine .self fun m hm => ?_
  have hplain := m.returns.plain_push (m.cursor.line + 1)
  unfold enterSubroutine
  split
  · exact ⟨⟨hm.memory, hm.counters⟩, .ok ()⟩
  · next e he => exact ⟨hm, (he ▸ hplain : Plain (.error e)).cast⟩

/-- Nor when one is left. -/
theorem comeBack_matches : Matches WellFormed comeBack comeBack := by
  refine .self fun m hm => ?_
  obtain ⟨-, h⟩ | ⟨i, rest, -, h⟩ := comeBack_cases m <;> rw [h]
  · exact ⟨hm, .throw⟩
  · exact ⟨⟨hm.memory, hm.counters⟩, .ok ()⟩

/-- A cleared machine has no arrays. -/
theorem wellFormed_clear (m : Machine) : m.clear.WellFormed where
  memory := Memory.wellFormed_of_empty rfl rfl rfl
  counters := List.forall_mem_nil _

/-- RUN clears the machine and finds a line. -/
theorem run_matches (n : Option LineNumber) : Matches WellFormed (run n) (run n) := by
  have hrest (i : Nat) : Matches WellFormed (modify fun m => m.clear.jumpToLine i)
      (modify fun m => m.clear.jumpToLine i) :=
    .modify fun m _ => ⟨(wellFormed_clear m).memory, (wellFormed_clear m).counters⟩
  cases n with
  | none => exact hrest 0
  | some n => exact (findLine_matches n).bind hrest

/-- A loop is entered with a counter in which a number has been stored. -/
theorem enterLoop_wellFormed (hm : m.WellFormed) {counter : Name}
    (hcounter : counter.fold.isText = false) (start limit step : Float) :
    (enterLoop counter start limit step m).2.WellFormed ∧
      Plain (enterLoop counter start limit step m).1 := by
  unfold enterLoop
  dsimp only
  split
  · next hcontinues =>
    generalize hloop : Loop.mk counter limit step _ = loop
    have hplain := m.loops.plain_push loop
    split
    · next loops hpush =>
      refine ⟨⟨hm.memory, ?_⟩, .ok ()⟩
      rw [Stack.items_of_push hpush, ← hloop]
      exact List.forall_mem_cons.mpr ⟨hcounter, hm.counters⟩
    · next e he => exact ⟨hm, (he ▸ hplain : Plain (.error e)).cast⟩
  · split
    · exact ⟨⟨hm.memory, hm.counters⟩, .ok ()⟩
    · exact ⟨hm, .throw⟩

/-- FOR stores its counter and remembers the loop. -/
theorem beginLoop_matches (counter : Name) (start limit step : Float) :
    Matches WellFormed (beginLoop counter start limit step) (beginLoop counter start limit step) := by
  refine .self fun m hm => ?_
  rw [beginLoop_eq]
  split
  · exact ⟨hm, .throw⟩
  have hstore := Memory.store_matches counter.fold (.number start)
  have hkeeps := hstore.keeps m.memory hm.memory
  have hplain := hstore.plain m.memory hm.memory
  have hleft {memory : Memory} (hmemory : memory.WellFormed) :
      (m.outsideLoop counter memory).WellFormed := hm.setLoops hmemory (Loop.around_sublist _ _)
  obtain ⟨e, h⟩ | ⟨-, hfits, -, h⟩ := Memory.store_cases counter.fold (.number start) m.memory <;>
    rw [h] at hkeeps hplain ⊢
  · exact ⟨hleft hkeeps, hplain.cast⟩
  · exact enterLoop_wellFormed (hleft hkeeps) (beq_iff_eq.mp hfits).symm start limit step

/-- NEXT finds a number in the counter, and stores one. -/
theorem nextLoop_wellFormed (hm : m.WellFormed) (counter : Option Name) :
    (nextLoop counter m).2.WellFormed ∧ Plain (nextLoop counter m).1 ∧
      ∀ e, (nextLoop counter m).1 = .error e → e.kind ≠ .typeMismatch := by
  rw [nextLoop_eq]
  have hsublist := Loop.steppedBy_sublist counter m.loops.items
  cases hstepped : Loop.steppedBy counter m.loops.items with
  | nil =>
    refine ⟨hm, .throw, ?_⟩
    rintro e ⟨⟩
    decide
  | cons l outer =>
    rw [hstepped] at hsublist
    have hnumber := hm.counters l (hsublist.subset List.mem_cons_self)
    have hfetch := Memory.isText_fetch hm.memory.scalars l.counter
    have hleft := hm.setLoops hm.memory hsublist
    dsimp only
    rw [stepLoop_eq rfl]
    dsimp only
    split
    -- A text in the counter would contradict the name under which the loop was entered.
    · next s hs =>
      rw [hs, hnumber] at hfetch
      cases hfetch
    · next x hx =>
      have hfits : (Value.number (x + l.step)).fits l.counter.fold = true := by
        rw [Value.fits, hnumber]
        rfl
      split
      · have hstore := Memory.store_matches l.counter (.number (x + l.step))
        have hkeeps := hstore.keeps m.memory hm.memory
        have hplain := hstore.plain m.memory hm.memory
        have hkind := fun e => Memory.kind_of_store (m := m.memory) (e := e) hfits
        split
        · next e memory h =>
          rw [h] at hkeeps hplain hkind
          exact ⟨⟨hkeeps, hleft.counters⟩, hplain, hkind⟩
        · next memory h =>
          rw [h] at hkeeps
          exact ⟨⟨hkeeps, hleft.counters⟩, .ok (), by simp⟩
      · have houter := (List.sublist_cons_self l outer).trans hsublist
        exact ⟨hm.setLoops hm.memory houter, .ok (), by simp⟩

/-- NEXT finds its loop and takes it on. -/
theorem nextLoop_matches (counter : Option Name) :
    Matches WellFormed (nextLoop counter) (nextLoop counter) :=
  .self fun _ hm => ⟨(nextLoop_wellFormed hm counter).1, (nextLoop_wellFormed hm counter).2.1⟩

/-! ## User functions and requests -/

/-- What the machine does with a request, with a fallback of choice. -/
def answerOr (o : Fallback) (call : String → List Value → Action Machine Value) : Handler Machine
  | _, .fetchElement n subscripts => onMemory (Memory.fetchElementOr o n subscripts)
  | _, .storeElement n subscripts v => onMemory (Memory.storeElementOr o n subscripts v)
  | a, r => answer call a r

/-- Calls a user function, with a fallback of choice also in its body. -/
def callUserOr (o : Fallback) : (room : Nat) → String → List Value → Action Machine Value
  | 0, f, arguments => callUser 0 f arguments
  | room + 1, f, arguments => resolveCall f arguments >>= fun c =>
    withVariable c.1.parameter c.2 (nested (c.1.body.eval (answerOr o (callUserOr o room))))

/-- What the machine does with a request, with a fallback of choice wherever an element is used. -/
def performOr (o : Fallback) : Handler Machine :=
  fun a r m => answerOr o (callUserOr o (m.returns.limit - m.depth)) a r m

/-- With the fallback of memory the machine is what it was. -/
theorem performOr_badSubscript : performOr Memory.badSubscript = perform := by
  have hanswer (call : String → List Value → Action Machine Value) :
      answerOr Memory.badSubscript call = answer call := by
    funext a r
    cases r with
    | fetchElement n subscripts =>
      exact congrArg onMemory (Memory.fetchElementOr_badSubscript n subscripts)
    | storeElement n subscripts v =>
      exact congrArg onMemory (Memory.storeElementOr_badSubscript n subscripts v)
    | _ => rfl
  have hcall (room : Nat) : callUserOr Memory.badSubscript room = callUser room := by
    induction room with
    | zero => rfl
    | succ room ih =>
      funext f arguments
      rw [callUserOr, ih, hanswer]
      rfl
  funext a r m
  rw [performOr, hcall, hanswer]
  rfl

/-- An action in a nested call matches if it matches outside of it. -/
theorem nested_matches {x y : Action Machine α} (h : Matches WellFormed x y) :
    Matches WellFormed (nested x) (nested y) where
  same m hm := by
    unfold nested
    rw [h.same { m with depth := m.depth + 1 } ⟨hm.memory, hm.counters⟩]
  keeps m hm := by
    have hkeeps := h.keeps { m with depth := m.depth + 1 } ⟨hm.memory, hm.counters⟩
    exact ⟨hkeeps.memory, hkeeps.counters⟩
  plain m hm := h.plain { m with depth := m.depth + 1 } ⟨hm.memory, hm.counters⟩

/-- A variable that is set back leaves memory well-formed. -/
theorem setBack_wellFormed (n : Name) (saved : Value) {x : Except Error α × Machine}
    (hx : x.2.WellFormed) (hplain : Plain x.1) :
    (setBack n saved x).2.WellFormed ∧ Plain (setBack n saved x).1 := by
  obtain ⟨r, m⟩ := x
  have hstored := (Memory.store_matches n saved).keeps m.memory hx.memory
  have hrefused := (Memory.store_matches n saved).plain m.memory hx.memory
  rcases hstore : Memory.store n saved m.memory with ⟨e | ⟨⟨⟩⟩, memory⟩ <;>
    rw [hstore] at hstored hrefused
  · rw [setBack_of_error hstore]
    exact ⟨⟨hstored, hx.counters⟩, hrefused.cast⟩
  · rw [setBack_of_ok hstore]
    exact ⟨⟨hstored, hx.counters⟩, hplain⟩

/-- The parameter of a function is put back in both. -/
theorem withVariable_matches (n : Name) (v : Value) {x y : Action Machine α}
    (h : Matches WellFormed x y) :
    Matches WellFormed (withVariable n v x) (withVariable n v y) := by
  refine .intro fun m hm => ?_
  have hstored := (Memory.store_matches n v).keeps m.memory hm.memory
  have hrefused := (Memory.store_matches n v).plain m.memory hm.memory
  rcases hstore : Memory.store n v m.memory with ⟨e | ⟨⟨⟩⟩, memory⟩ <;>
    rw [hstore] at hstored hrefused
  · rw [withVariable_of_error hstore, withVariable_of_error hstore]
    exact ⟨rfl, ⟨hstored, hm.counters⟩, hrefused.cast⟩
  · have hset : WellFormed { m with memory } := ⟨hstored, hm.counters⟩
    rw [withVariable_of_ok hstore, withVariable_of_ok hstore, h.same _ hset]
    exact ⟨rfl, setBack_wellFormed n _ (h.keeps _ hset) (h.plain _ hset)⟩

/-- A call finds its function in the same way for both. -/
theorem resolveCall_matches (f : String) (arguments : List Value) :
    Matches WellFormed (resolveCall f arguments) (resolveCall f arguments) := by
  refine .self fun m hm => ?_
  unfold resolveCall
  split
  · exact ⟨hm, .throw⟩
  · split
    · exact ⟨hm, .ok _⟩
    · exact ⟨hm, .throw⟩
  · exact ⟨hm, .throw⟩

/-- Requests are answered alike if calls of user functions are. -/
theorem answer_matches (o : Fallback) {call call' : String → List Value → Action Machine Value}
    (hcall : ∀ f arguments, Matches WellFormed (call f arguments) (call' f arguments)) (a : Answer)
    (r : Request a) : Matches WellFormed (answer call a r) (answerOr o call' a r) := by
  have hfinish : Matches WellFormed finish finish := .modify fun m hm => ⟨hm.memory, hm.counters⟩
  cases r with
  | fetch n => exact .self fun m hm => ⟨hm, .ok _⟩
  | store n v =>
    have hstore := onMemory_matches (Memory.store_matches n v)
    exact hstore
  | dimension n sizes => exact onMemory_matches (Memory.dimension_matches n sizes)
  | fetchElement n subscripts => exact onMemory_matches (Memory.fetchElement_matches o n subscripts)
  | storeElement n subscripts v =>
    exact onMemory_matches (Memory.storeElement_matches o n subscripts v)
  | read => exact readData_matches
  | restore line => exact .modify fun m hm => ⟨hm.memory, hm.counters⟩
  | print s => exact onConsole_matches (Console.plain_note (.print s))
  | printLine s => exact onConsole_matches (Console.plain_note (.printLine s))
  | clearScreen => exact onConsole_matches (Console.plain_note .clear)
  | ask prompt => exact onConsole_matches (Console.plain_ask prompt)
  | jump j n =>
    cases j with
    | goto => exact (findLine_matches n).bind fun i => .modify fun m hm => ⟨hm.memory, hm.counters⟩
    | gosub => exact (findLine_matches n).bind fun i => enterSubroutine_matches i
  | comeBack => exact comeBack_matches
  | finish => exact hfinish
  | stop =>
    refine Matches.bind (.self fun m hm => ?_) fun _ => hfinish
    exact ⟨⟨hm.memory, hm.counters⟩, Console.plain_note (.printLine m.stopMessage) m.console⟩
  | run line => exact run_matches line
  | skipLine => exact .modify fun m hm => ⟨hm.memory, hm.counters⟩
  | beginLoop counter start limit step => exact beginLoop_matches counter start limit step
  | nextLoop counter => exact nextLoop_matches counter
  | define f parameter body => exact .modify fun m hm => ⟨hm.memory, hm.counters⟩
  | call c arguments =>
    cases c with
    | builtin f =>
      exact .self fun m hm => ⟨⟨hm.memory, hm.counters⟩, f.plain_apply arguments m.random⟩
    | user f => exact hcall f arguments

/-- The bodies of user functions are evaluated alike, however calls are nested. -/
theorem callUser_matches (o : Fallback) (room : Nat) (f : String) (arguments : List Value) :
    Matches WellFormed (callUser room f arguments) (callUserOr o room f arguments) := by
  -- On the room that is left for calls: a body is evaluated with less of it.
  induction room generalizing f arguments with
  | zero => exact (resolveCall_matches f arguments).bind fun _ => compositional_matches.raise _
  | succ room ih =>
    refine (resolveCall_matches f arguments).bind fun c => withVariable_matches _ _ (nested_matches ?_)
    exact Expr.eval_related compositional_matches (fun a r _ => answer_matches o ih a r) c.1.body

/-- Every request is answered alike, whatever takes the place of an element that is not there. -/
theorem perform_matches (o : Fallback) (a : Answer) (r : Request a) :
    Matches WellFormed (perform a r) (performOr o a r) := by
  have hroom := Matches.atState fun m : Machine =>
    answer_matches o (callUser_matches o (m.returns.limit - m.depth)) a r
  exact hroom

/-- A statement does the same whatever the fallback is. -/
theorem exec_matches (o : Fallback) (s : Statement) (patience : Nat) :
    Matches WellFormed (s.exec perform patience) (s.exec (performOr o) patience) :=
  s.exec_related compositional_matches patience fun a r _ => perform_matches o a r

end Machine

end CommodoreBasic
