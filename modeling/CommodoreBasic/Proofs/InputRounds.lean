import CommodoreBasic.Machine.Run
import CommodoreBasic.Proofs.VariableCapacity

/-!
# The rounds of INPUT

A round of INPUT takes the least number of replies that have a field for each target. The first round
whose fields suit the targets is accepted: its fields are stored from left to right, so that a subscript
sees the targets before it, and one too many is complained of. Every round before that is rejected as a
whole, and nothing is stored of it. If the replies come to an end before a round is accepted, INPUT fails
and nothing has been stored.

What passes through the console is told by the replies alone. So the replies are first cut into rounds,
without regard to the machine, and INPUT is then followed along a given cut. Since every list of replies
can be cut, this says what INPUT does with all of them.
-/

namespace CommodoreBasic

open CommodoreBasic.Action

/-! ## Fields for targets -/

namespace Field

/-- The field has this value for the variable `n`: text takes every field, and a number takes one that
is empty, or that reads as a finite number. -/
inductive Suits (f : Field) (n : Name) : Value → Prop where
  | text (h : n.isText = true) : Suits f n (.text f.text)
  | nothing (h : n.isText = false) (hempty : Text.trim f.text.toList = []) : Suits f n (.number 0)
  | number {x : Float} (h : n.isText = false) (hne : Text.trim f.text.toList ≠ [])
    (hx : Number.readFinite? (Text.trim f.text.toList) = some x) : Suits f n (.number x)

/-- A field suits a variable exactly if it has a value for it. -/
theorem valueFor?_eq_some_iff {f : Field} {n : Name} {v : Value} :
    f.valueFor? n = some v ↔ f.Suits n v := by
  unfold valueFor?
  constructor
  · intro h
    split at h
    · next htext =>
      cases h
      exact .text htext
    · next htext =>
      have hnumber : n.isText = false := Bool.eq_false_iff.mpr htext
      dsimp only at h
      split at h
      · next hempty =>
        cases h
        exact .nothing hnumber (List.isEmpty_iff.mp hempty)
      · next hne =>
        obtain ⟨x, hx, rfl⟩ := Option.map_eq_some_iff.mp h
        exact .number hnumber (mt List.isEmpty_iff.mpr hne) hx
  · intro h
    cases h with
    | text h => rw [if_pos h]
    | nothing h hempty => simp [h, hempty]
    | number h hne hx => simp [h, hne, hx]

/-- The first fields suit the targets, each its own, and have these values. -/
def AllSuit (targets : List Target) (fields : List Field) (vs : List Value) : Prop :=
  List.Forall₂ (fun pair v => Suits pair.2 (Target.name pair.1) v) (targets.zip fields) vs

/-- Fields have values for all targets exactly if they suit them one by one. -/
theorem valuesFor?_eq_some_iff {targets : List Target} {fields : List Field} {vs : List Value} :
    valuesFor? targets fields = some vs ↔ AllSuit targets fields vs := by
  unfold AllSuit
  induction targets generalizing fields vs with
  | nil => simp [valuesFor?, eq_comm]
  | cons t ts ih =>
    cases fields with
    | nil => simp [valuesFor?, eq_comm]
    | cons f fs =>
      rw [List.zip_cons_cons, List.forall₂_cons_left_iff]
      simp only [valuesFor?, Option.bind_eq_bind, Option.bind_eq_some_iff, Option.pure_def,
        Option.some.injEq, valueFor?_eq_some_iff, ih]
      grind

end Field

/-! ## Cutting replies into rounds -/

/-- The fields of replies. -/
def fieldsOf (replies : List String) : List Field := replies.flatMap Field.split

/-- The replies are the least number of them that have `n` fields, after `count` fields before them. -/
def CompletesRound (n count : Nat) (replies : List String) : Prop :=
  n ≤ count + (fieldsOf replies).length ∧
    ∀ k < replies.length, count + (fieldsOf (replies.take k)).length < n

/-- The replies are a round for `n` targets. -/
def IsRound (n : Nat) (replies : List String) : Prop := CompletesRound n 0 replies

/-- The fields of replies are those of the first, then those of the others. -/
theorem fieldsOf_cons (s : String) (r : List String) :
    fieldsOf (s :: r) = Field.split s ++ fieldsOf r := List.flatMap_cons

/-- Without further replies a round is complete if it has enough fields. -/
theorem completesRound_nil_iff {n count : Nat} : CompletesRound n count [] ↔ n ≤ count := by
  simp [CompletesRound, fieldsOf]

/-- Another reply is asked for exactly as long as fields are missing. -/
theorem completesRound_cons_iff {n count : Nat} {s : String} {r : List String} :
    CompletesRound n count (s :: r) ↔
      count < n ∧ CompletesRound n (count + (Field.split s).length) r := by
  have hshift (us : List String) : count + (fieldsOf (s :: us)).length =
      count + (Field.split s).length + (fieldsOf us).length := by
    rw [fieldsOf_cons, List.length_append, Nat.add_assoc]
  constructor
  · rintro ⟨henough, hfew⟩
    refine ⟨hfew 0 (Nat.succ_pos _), hshift r ▸ henough, fun k hk => ?_⟩
    rw [← hshift]
    exact hfew (k + 1) (Nat.succ_lt_succ hk)
  · rintro ⟨hcount, henough, hfew⟩
    refine ⟨(hshift r).symm ▸ henough, fun k hk => ?_⟩
    cases k with
    | zero => exact hcount
    | succ k =>
      rw [List.take_succ_cons, hshift]
      exact hfew k (Nat.lt_of_succ_lt_succ hk)

/-- Replies that have enough fields begin with a round. -/
theorem exists_completesRound (n count : Nat) (lines : List String) :
    count + (fieldsOf lines).length < n ∨
      ∃ r rest, lines = r ++ rest ∧ CompletesRound n count r := by
  induction lines generalizing count with
  | nil =>
    rcases Nat.lt_or_ge count n with hfew | henough
    · exact .inl hfew
    · exact .inr ⟨[], [], rfl, completesRound_nil_iff.mpr henough⟩
  | cons s lines ih =>
    rcases Nat.lt_or_ge count n with hfew | henough
    · obtain hlater | ⟨r, rest, rfl, hr⟩ := ih (count + (Field.split s).length)
      · rw [fieldsOf_cons, List.length_append]
        exact .inl (by omega)
      · exact .inr ⟨s :: r, rest, rfl, completesRound_cons_iff.mpr ⟨hfew, hr⟩⟩
    · exact .inr ⟨[], s :: lines, rfl, completesRound_nil_iff.mpr henough⟩

/-- The questions of a round and the replies to them. -/
def asks : (question : String) → (replies : List String) → List Event
  | _, [] => []
  | q, s :: r => .ask q (some s) :: asks furtherQuestion r

/-- The question that finds no reply left, after these. -/
def unanswered (first : String) (replies : List String) : Event :=
  .ask (if replies.isEmpty then first else furtherQuestion) none

/-- What passes through the console in a round that is rejected. -/
def rejection (first : String) (replies : List String) : List Event :=
  asks first replies ++ [.printLine "?REDO FROM START"]

/-- The replies are a round whose fields do not suit the targets. -/
def IsRejected (targets : List Target) (replies : List String) : Prop :=
  IsRound targets.length replies ∧ ¬ ∃ vs, Field.AllSuit targets (fieldsOf replies) vs

/-- A round for some targets takes at least one reply. -/
theorem IsRound.ne_nil {targets : List Target} {r : List String} (h : IsRound targets.length r)
    (htargets : targets ≠ []) : r ≠ [] := by
  rintro rfl
  exact htargets (List.length_eq_zero_iff.mp (Nat.le_zero.mp (completesRound_nil_iff.mp h)))

/-- Replies are some rounds that are rejected, and behind them too few for another or a round that is
accepted. -/
theorem exists_rounds {targets : List Target} (htargets : targets ≠ []) (lines : List String) :
    ∃ (rejected : List (List String)) (rest : List String), lines = rejected.flatten ++ rest ∧
      (∀ r ∈ rejected, IsRejected targets r) ∧
      ((fieldsOf rest).length < targets.length ∨ ∃ round later vs, rest = round ++ later ∧
        IsRound targets.length round ∧ Field.AllSuit targets (fieldsOf round) vs) := by
  induction hlength : lines.length using Nat.strongRecOn generalizing lines with
  | ind length ih =>
    obtain hfew | ⟨r, rest, rfl, hround⟩ := exists_completesRound targets.length 0 lines
    · rw [Nat.zero_add] at hfew
      exact ⟨[], lines, rfl, List.forall_mem_nil _, .inl hfew⟩
    · by_cases hsuit : ∃ vs, Field.AllSuit targets (fieldsOf r) vs
      · obtain ⟨vs, hvs⟩ := hsuit
        exact ⟨[], r ++ rest, rfl, List.forall_mem_nil _, .inr ⟨r, rest, vs, rfl, hround, hvs⟩⟩
      · have hpos := List.length_pos_iff.mpr (IsRound.ne_nil hround htargets)
        rw [List.length_append] at hlength
        obtain ⟨rejected, rest', rfl, hrejected, hrest⟩ := ih rest.length (by omega) rest rfl
        refine ⟨r :: rejected, rest', ?_, List.forall_mem_cons.mpr ⟨⟨hround, hsuit⟩, hrejected⟩, hrest⟩
        rw [List.flatten_cons, List.append_assoc]

namespace Machine

/-- The machine after these events at its console, with these replies left. -/
def hears (m : Machine) (events : List Event) (replies : List Reply) : Machine :=
  { m with
    console := { m.console with
      replies
      calls := m.console.calls + events.length
      events := m.console.events ++ events.toArray }
    interrupted := m.interrupted ||
      (List.range' (m.console.calls + 1) events.length).any m.console.pressesBreak }

/-- What is heard in two parts is heard in their order. -/
theorem hears_hears (m : Machine) (es es' : List Event) (replies replies' : List Reply) :
    (m.hears es replies).hears es' replies' = m.hears (es ++ es') replies' := by
  have hcalls : List.range' (m.console.calls + 1) es.length ++
      List.range' (m.console.calls + es.length + 1) es'.length =
      List.range' (m.console.calls + 1) (es.length + es'.length) := by
    rw [Nat.add_right_comm]
    exact List.range'_append_1
  simp [hears, ← hcalls, Bool.or_assoc, Nat.add_assoc]

/-- Where the console is present, a call of it is one event. -/
theorem onConsole_call {α : Type} {m : Machine} (h : m.console.absent (m.console.calls + 1) = false)
    (act : List Reply → Event × Except Error α × List Reply) :
    onConsole (Console.call act) m =
      ((act m.console.replies).2.1,
        m.hears [(act m.console.replies).1] (act m.console.replies).2.2) := by
  simp [onConsole, Console.call, h, hears]

section Present

variable {m : Machine} {lines : List String} {rest : List Reply}

/-- The device is present during all calls. -/
def Present (m : Machine) : Prop := ∀ k, m.console.absent k = false

/-- A console that is present stays so. -/
theorem Present.hears (h : m.Present) (es : List Event) (replies : List Reply) :
    (m.hears es replies).Present := h

variable (hpresent : m.Present)
include hpresent

/-- A question takes the next reply. -/
theorem perform_ask {s : String} (hreplies : m.console.replies = .line s :: rest) (q : String) :
    perform .line (.ask q) m = (.ok s, m.hears [.ask q (some s)] rest) := by
  change onConsole (Console.ask q) m = _
  rw [Console.ask, onConsole_call (hpresent _), hreplies]

/-- Without a reply a question fails. -/
theorem perform_ask_nil (hreplies : m.console.replies = []) (q : String) :
    perform .line (.ask q) m = (raise .inputPastEnd, m.hears [.ask q none] []) := by
  change onConsole (Console.ask q) m = _
  rw [Console.ask, onConsole_call (hpresent _), hreplies]

/-- A line is printed without a reply. -/
theorem perform_printLine (s : String) :
    perform .done (.printLine s) m = (.ok (), m.hears [.printLine s] m.console.replies) := by
  change onConsole (Console.printLine s) m = _
  rw [Console.printLine, onConsole_call (hpresent _)]

end Present

/-! ## Storing in targets -/

/-- What comes of storing values in targets, from left to right: each value gets into its own target,
where the subscripts of an element are evaluated after the stores before it. The first store that fails
is the last. -/
inductive Stores : List Target → List Value → Machine → Except Error Unit × Machine → Prop where
  | nothing (m : Machine) : Stores [] [] m (.ok (), m)
  | scalar {n : Name} {v : Value} {ts : List Target} {vs : List Value} {m : Machine}
    {x : Except Error Unit × Machine} (hreserved : n.fold.isReserved = false)
    (hfits : v.fits n.fold = true) (hroom : m.memory.scalars.size < Memory.scalarCapacity)
    (hrest : Stores ts vs
      { m with memory := { m.memory with scalars := m.memory.scalars.insert n.fold v } } x) :
    Stores (.scalar n :: ts) (v :: vs) m x
  | element {n : Name} {es : List Expr} {subscripts : List Value} {v : Value} {ts : List Target}
    {vs : List Value} {m m' : Machine} {memory : Memory} {x : Except Error Unit × Machine}
    (hsubscripts : Expr.evalAll perform es m = (.ok subscripts, m'))
    (hstore : Memory.storeElement n subscripts v m'.memory = (.ok (), memory))
    (hrest : Stores ts vs { m' with memory } x) : Stores (.element n es :: ts) (v :: vs) m x
  | scalarRefused {n : Name} {v : Value} {ts : List Target} {vs : List Value} {m : Machine} {e : Error}
    (hstore : Memory.store n v m.memory = (.error e, m.memory)) :
    Stores (.scalar n :: ts) (v :: vs) m (.error e, m)
  | subscriptFails {n : Name} {es : List Expr} {v : Value} {ts : List Target} {vs : List Value}
    {m m' : Machine} {e : Error} (hsubscripts : Expr.evalAll perform es m = (.error e, m')) :
    Stores (.element n es :: ts) (v :: vs) m (.error e, m')
  | elementRefused {n : Name} {es : List Expr} {subscripts : List Value} {v : Value}
    {ts : List Target} {vs : List Value} {m m' : Machine} {memory : Memory} {e : Error}
    (hsubscripts : Expr.evalAll perform es m = (.ok subscripts, m'))
    (hstore : Memory.storeElement n subscripts v m'.memory = (.error e, memory)) :
    Stores (.element n es :: ts) (v :: vs) m (.error e, { m' with memory })

section Stores

variable {ts : List Target} {vs : List Value} {m : Machine}

/-- Where every target has a value, the stores come to something. -/
theorem stores_storeAll (hlength : ts.length = vs.length) (m : Machine) :
    Stores ts vs m (Target.storeAll perform ts vs m) := by
  induction ts generalizing vs m with
  | nil =>
    obtain rfl := List.length_eq_zero_iff.mp hlength.symm
    exact .nothing m
  | cons t ts ih =>
    obtain ⟨v, vs, rfl⟩ := List.exists_cons_of_length_eq_add_one hlength.symm
    have hrest := ih (Nat.succ.inj hlength)
    rw [Target.storeAll]
    cases t with
    | scalar n =>
      have hasked : (Target.scalar n).store perform v m = onMemory (Memory.store n v) m := rfl
      rw [onMemory_apply] at hasked
      obtain ⟨e, hstore⟩ | ⟨hreserved, hfits, hroom, hstore⟩ := Memory.store_cases n v m.memory <;>
        rw [hstore] at hasked
      · rw [bind_of_error hasked]
        exact .scalarRefused hstore
      · rw [bind_of_ok hasked]
        exact .scalar hreserved hfits hroom (hrest _)
    | element n es =>
      rcases hes : Expr.evalAll perform es m with ⟨e | subscripts, m'⟩
      · have hasked : (Target.element n es).store perform v m = (.error e, m') := bind_of_error hes
        rw [bind_of_error hasked]
        exact .subscriptFails hes
      · have hasked : (Target.element n es).store perform v m =
            onMemory (Memory.storeElement n subscripts v) m' := bind_of_ok hes
        rw [onMemory_apply] at hasked
        rcases hstore : Memory.storeElement n subscripts v m'.memory with ⟨e | ⟨⟨⟩⟩, memory⟩ <;>
          rw [hstore] at hasked
        · rw [bind_of_error hasked]
          exact .elementRefused hes hstore
        · rw [bind_of_ok hasked]
          exact .element hes hstore (hrest _)

/-- The stores come to one thing only. -/
theorem Stores.unique {x y : Except Error Unit × Machine} (hx : Stores ts vs m x)
    (hy : Stores ts vs m y) : x = y := by
  induction hx with
  | nothing => cases hy; rfl
  | scalar hreserved hfits hroom hrest ih =>
    cases hy with
    | scalar _ _ _ hrest' => exact ih hrest'
    | scalarRefused hstore => cases (Memory.store_of_room hreserved hfits hroom).symm.trans hstore
  | element hes hstore hrest ih =>
    cases hy with
    | element hes' hstore' hrest' =>
      cases hes.symm.trans hes'
      cases hstore.symm.trans hstore'
      exact ih hrest'
    | subscriptFails hes' => cases hes.symm.trans hes'
    | elementRefused hes' hstore' =>
      cases hes.symm.trans hes'
      cases hstore.symm.trans hstore'
  | scalarRefused hstore =>
    cases hy with
    | scalar hreserved hfits hroom =>
      cases (Memory.store_of_room hreserved hfits hroom).symm.trans hstore
    | scalarRefused hstore' =>
      cases hstore.symm.trans hstore'
      rfl
  | subscriptFails hes =>
    cases hy with
    | element hes' => cases hes.symm.trans hes'
    | subscriptFails hes' =>
      cases hes.symm.trans hes'
      rfl
    | elementRefused hes' => cases hes.symm.trans hes'
  | elementRefused hes hstore =>
    cases hy with
    | element hes' hstore' =>
      cases hes.symm.trans hes'
      cases hstore.symm.trans hstore'
    | subscriptFails hes' => cases hes.symm.trans hes'
    | elementRefused hes' hstore' =>
      cases hes.symm.trans hes'
      cases hstore.symm.trans hstore'
      rfl

/-- Storing changes nothing but memory and the random generator. -/
theorem Stores.beside {x : Except Error Unit × Machine} (h : Stores ts vs m x) :
    ∃ memory random, x.2 = { m with memory, random } := by
  induction h with
  | nothing m => exact ⟨m.memory, m.random, rfl⟩
  | scalar _ _ _ _ ih => exact ih
  | scalarRefused => exact ⟨_, _, rfl⟩
  | @element _ es _ _ _ _ m _ _ _ hes _ _ ih =>
    obtain ⟨memory, random, heval⟩ := evalAll_beside es m
    rw [hes] at heval
    subst heval
    exact ih
  | @subscriptFails _ es _ _ _ m _ _ hes =>
    obtain ⟨memory, random, heval⟩ := evalAll_beside es m
    rw [hes] at heval
    exact ⟨memory, random, heval⟩
  | @elementRefused _ es _ _ _ _ m _ _ _ hes =>
    obtain ⟨memory, random, heval⟩ := evalAll_beside es m
    rw [hes] at heval
    subst heval
    exact ⟨_, random, rfl⟩

end Stores

/-! ## INPUT along a cut -/

/-- The complaint about an accepted round that had more fields than targets. -/
def extra (targets : List Target) (round : List String) : List Event :=
  if targets.length < (fieldsOf round).length then [.printLine "?EXTRA IGNORED"] else []

/-- Stores the values of an accepted round and complains if it had more fields than targets. -/
def accept (targets : List Target) (vs : List Value) (fields : Nat) : Action Machine Unit := do
  Target.storeAll perform targets vs
  if targets.length < fields then perform .done (.printLine "?EXTRA IGNORED")

/-- What INPUT does at the end of a round: it starts over if the fields do not suit the targets. -/
def judge (targets : List Target) (first : String) (patience : Nat) (fields : List Field) :
    Action Machine Unit :=
  match Field.valuesFor? targets fields with
  | none => do
    perform .done (.printLine "?REDO FROM START")
    inputFrom perform targets first patience first []
  | some vs => accept targets vs fields.length

section Rounds

variable {targets : List Target} {first : String} {m : Machine} {rest : List Reply}

/-- A reply leads to the end of the round, or to a further question. -/
theorem inputFrom_reply (hpresent : m.Present) {s : String}
    (hreplies : m.console.replies = .line s :: rest) (patience : Nat) (asked : String)
    (fields : List Field) :
    inputFrom perform targets first (patience + 1) asked fields m =
      if (fields ++ Field.split s).length < targets.length then
        inputFrom perform targets first patience furtherQuestion (fields ++ Field.split s)
          (m.hears [.ask asked (some s)] rest)
      else judge targets first patience (fields ++ Field.split s)
          (m.hears [.ask asked (some s)] rest) := by
  rw [inputFrom, bind_of_ok (perform_ask hpresent hreplies asked)]
  by_cases hfew : (fields ++ Field.split s).length < targets.length
  · rw [if_pos hfew, if_pos hfew]
  · rw [if_neg hfew, if_neg hfew, judge]
    cases Field.valuesFor? targets (fields ++ Field.split s) <;> rfl

/-- The replies that complete a round lead to its end. -/
theorem inputFrom_completesRound (hpresent : m.Present) {s : String} {r : List String}
    {fields : List Field} (hround : CompletesRound targets.length fields.length (s :: r))
    (hreplies : m.console.replies = (s :: r).map .line ++ rest) (patience : Nat) (asked : String) :
    inputFrom perform targets first ((s :: r).length + patience) asked fields m =
      judge targets first patience (fields ++ fieldsOf (s :: r))
        (m.hears (asks asked (s :: r)) rest) := by
  induction r generalizing s fields asked m with
  | nil =>
    obtain ⟨-, hround⟩ := completesRound_cons_iff.mp hround
    have henough := completesRound_nil_iff.mp hround
    rw [List.length_singleton, Nat.add_comm, inputFrom_reply hpresent hreplies, if_neg, fieldsOf_cons]
    · simp [fieldsOf, asks]
    · rw [List.length_append]
      omega
  | cons s' r ih =>
    obtain ⟨-, hround⟩ := completesRound_cons_iff.mp hround
    have hfew := (completesRound_cons_iff.mp hround).1
    rw [← List.length_append] at hround hfew
    have hnext : m.console.replies = .line s :: ((s' :: r).map .line ++ rest) := hreplies
    rw [List.length_cons, Nat.add_right_comm, inputFrom_reply hpresent hnext, if_pos hfew,
      ih (hpresent.hears _ _) hround rfl, hears_hears, fieldsOf_cons s, List.append_assoc]
    rfl

/-- Too few replies lead to a question without an answer. -/
theorem inputFrom_ranOut (hpresent : m.Present) {r : List String} {fields : List Field}
    (hfew : (fields ++ fieldsOf r).length < targets.length)
    (hreplies : m.console.replies = r.map .line) (patience : Nat) (asked : String) :
    inputFrom perform targets first (r.length + patience + 1) asked fields m =
      (raise .inputPastEnd, m.hears (asks asked r ++ [unanswered asked r]) []) := by
  induction r generalizing fields asked m with
  | nil =>
    rw [inputFrom, bind_of_error (perform_ask_nil hpresent hreplies asked)]
    rfl
  | cons s r ih =>
    rw [fieldsOf_cons, ← List.append_assoc] at hfew
    have hfirst : (fields ++ Field.split s).length < targets.length := by
      rw [List.length_append] at hfew
      omega
    have hlast : unanswered furtherQuestion r = unanswered asked (s :: r) := by
      simp [unanswered]
    rw [inputFrom_reply hpresent hreplies, if_pos hfirst, List.length_cons, Nat.add_right_comm,
      ih (hpresent.hears _ _) hfew rfl, hears_hears, hlast]
    rfl

/-- Hearing nothing changes nothing. -/
theorem hears_nil (h : m.console.replies = rest) : m.hears [] rest = m := by
  subst h
  simp [hears]

/-- After rounds that are rejected INPUT starts over with the replies that are left. -/
theorem inputFrom_rejected (htargets : targets ≠ []) (hpresent : m.Present)
    {rejected : List (List String)} (hrejected : ∀ r ∈ rejected, IsRejected targets r)
    (hreplies : m.console.replies = rejected.flatten.map .line ++ rest) (patience : Nat) :
    inputFrom perform targets first (rejected.flatten.length + patience) first [] m =
      inputFrom perform targets first patience first []
        (m.hears (rejected.flatMap (rejection first)) rest) := by
  induction rejected generalizing m with
  | nil =>
    have hrest : m.console.replies = rest := hreplies
    rw [List.flatMap_nil, hears_nil hrest, List.flatten_nil, List.length_nil, Nat.zero_add]
  | cons r rejected ih =>
    obtain ⟨⟨hround, hsuit⟩, hlater⟩ := List.forall_mem_cons.mp hrejected
    obtain ⟨s, r, rfl⟩ := List.exists_cons_of_ne_nil (IsRound.ne_nil hround htargets)
    have hnone : Field.valuesFor? targets (fieldsOf (s :: r)) = none :=
      Option.eq_none_iff_forall_ne_some.mpr fun vs hvs =>
        hsuit ⟨vs, Field.valuesFor?_eq_some_iff.mp hvs⟩
    have hnext : m.console.replies = (s :: r).map .line ++ (rejected.flatten.map .line ++ rest) := by
      rw [hreplies, List.flatten_cons, List.map_append, List.append_assoc]
    have hcompletes : CompletesRound targets.length ([] : List Field).length (s :: r) := hround
    rw [List.flatten_cons, List.length_append, Nat.add_assoc,
      inputFrom_completesRound hpresent hcompletes hnext, List.nil_append, judge, hnone]
    dsimp only
    rw [bind_of_ok (perform_printLine (hpresent.hears _ _) _), hears_hears]
    refine (ih (hpresent.hears _ _) hlater rfl).trans ?_
    rw [hears_hears]
    rfl

end Rounds

/-- What comes of INPUT if the replies are `lines`: a round is accepted after others that are rejected,
and its values are stored or cannot be stored, or the replies come to an end. -/
inductive InputLeads (targets : List Target) (first : String) (m : Machine) (lines : List String) :
    Except Error Unit × Machine → Prop where
  | accepted {rejected : List (List String)} {round rest : List String} {vs : List Value} {m' : Machine}
    (hlines : lines = rejected.flatten ++ (round ++ rest))
    (hrejected : ∀ r ∈ rejected, IsRejected targets r) (hround : IsRound targets.length round)
    (hsuit : Field.AllSuit targets (fieldsOf round) vs)
    (hstores : Stores targets vs
      (m.hears (rejected.flatMap (rejection first) ++ asks first round) (rest.map .line)) (.ok (), m')) :
    InputLeads targets first m lines (.ok (), m'.hears (extra targets round) (rest.map .line))
  | refused {rejected : List (List String)} {round rest : List String} {vs : List Value} {m' : Machine}
    {e : Error} (hlines : lines = rejected.flatten ++ (round ++ rest))
    (hrejected : ∀ r ∈ rejected, IsRejected targets r) (hround : IsRound targets.length round)
    (hsuit : Field.AllSuit targets (fieldsOf round) vs)
    (hstores : Stores targets vs
      (m.hears (rejected.flatMap (rejection first) ++ asks first round) (rest.map .line)) (.error e, m')) :
    InputLeads targets first m lines (.error e, m')
  | ranOut {rejected : List (List String)} {rest : List String}
    (hlines : lines = rejected.flatten ++ rest) (hrejected : ∀ r ∈ rejected, IsRejected targets r)
    (hfew : (fieldsOf rest).length < targets.length) :
    InputLeads targets first m lines (raise .inputPastEnd,
      m.hears (rejected.flatMap (rejection first) ++ (asks first rest ++ [unanswered first rest])) [])

section Statements

variable {targets : List Target} {first : String} {m : Machine} {lines : List String}
  {x : Except Error Unit × Machine}

/-- A round that is accepted has a value for every target. -/
theorem length_of_allSuit {round : List String} {vs : List Value} (hround : IsRound targets.length round)
    (hsuit : Field.AllSuit targets (fieldsOf round) vs) : targets.length = vs.length := by
  have hlength := List.Forall₂.length_eq hsuit
  have henough := hround.1
  rw [List.length_zip] at hlength
  omega

/-- A round that is accepted comes to what its stores come to, and then to the complaint. -/
theorem accept_of_stores {round rest : List String} {vs : List Value} (hpresent : m.Present)
    (hreplies : m.console.replies = rest.map .line) {m' : Machine} (h : Stores targets vs m (.ok (), m'))
    (hlength : targets.length = vs.length) :
    accept targets vs (fieldsOf round).length m =
      (.ok (), m'.hears (extra targets round) (rest.map .line)) := by
  have hstored : Target.storeAll perform targets vs m = (.ok (), m') :=
    (stores_storeAll hlength m).unique h
  obtain ⟨memory, random, hbeside⟩ := h.beside
  dsimp only at hbeside
  subst hbeside
  rw [accept, bind_of_ok hstored, extra]
  split
  · rw [perform_printLine (m := { m with memory, random }) hpresent, hreplies]
  · rw [hears_nil (m := { m with memory, random }) hreplies]
    rfl

/-- INPUT comes to what its cut leads to, if a round is accepted in it. -/
theorem inputFrom_of_accepted (htargets : targets ≠ []) (hpresent : m.Present)
    (hreplies : m.console.replies = lines.map .line) {rejected : List (List String)}
    {round rest : List String} {vs : List Value} (hlines : lines = rejected.flatten ++ (round ++ rest))
    (hrejected : ∀ r ∈ rejected, IsRejected targets r) (hround : IsRound targets.length round)
    (hsuit : Field.AllSuit targets (fieldsOf round) vs) :
    inputFrom perform targets first m.patience first [] m =
      accept targets vs (fieldsOf round).length
        (m.hears (rejected.flatMap (rejection first) ++ asks first round) (rest.map .line)) := by
  have hpatience : m.patience = lines.length + 1 := by
    rw [patience, hreplies, List.length_map]
  obtain ⟨s, r, rfl⟩ := List.exists_cons_of_ne_nil (IsRound.ne_nil hround htargets)
  have hcompletes : CompletesRound targets.length ([] : List Field).length (s :: r) := hround
  rw [hlines, List.map_append, List.map_append] at hreplies
  rw [hpatience, hlines, List.length_append, List.length_append, Nat.add_assoc, Nat.add_assoc,
    inputFrom_rejected htargets hpresent hrejected hreplies,
    inputFrom_completesRound (hpresent.hears _ _) hcompletes rfl, List.nil_append, judge,
    Field.valuesFor?_eq_some_iff.mpr hsuit, hears_hears]

/-- INPUT follows every cut of the replies into rounds. -/
theorem inputFrom_of_leads (htargets : targets ≠ []) (hpresent : m.Present)
    (hreplies : m.console.replies = lines.map .line) (h : InputLeads targets first m lines x) :
    inputFrom perform targets first m.patience first [] m = x := by
  cases h with
  | @accepted rejected round rest vs m' hlines hrejected hround hsuit hstores =>
    rw [inputFrom_of_accepted htargets hpresent hreplies hlines hrejected hround hsuit]
    exact accept_of_stores (hpresent.hears _ _) rfl hstores (length_of_allSuit hround hsuit)
  | @refused rejected round rest vs m' e hlines hrejected hround hsuit hstores =>
    have hstored := (stores_storeAll (length_of_allSuit hround hsuit) _).unique hstores
    rw [inputFrom_of_accepted htargets hpresent hreplies hlines hrejected hround hsuit, accept,
      bind_of_error hstored]
  | @ranOut rejected rest hlines hrejected hfew =>
    have hpatience : m.patience = lines.length + 1 := by
      rw [patience, hreplies, List.length_map]
    rw [hlines, List.map_append] at hreplies
    rw [hpatience, hlines, List.length_append, Nat.add_assoc,
      inputFrom_rejected htargets hpresent hrejected hreplies]
    refine (inputFrom_ranOut (hpresent.hears _ _) hfew rfl 0 first).trans ?_
    rw [hears_hears]

/-- Every list of replies leads somewhere. -/
theorem exists_leads (htargets : targets ≠ []) (first : String) (m : Machine) (lines : List String) :
    ∃ x, InputLeads targets first m lines x := by
  obtain ⟨rejected, rest, rfl, hrejected, hfew | ⟨round, later, vs, rfl, hround, hsuit⟩⟩ :=
    exists_rounds htargets lines
  · exact ⟨_, .ranOut rfl hrejected hfew⟩
  · have hstores := stores_storeAll (length_of_allSuit hround hsuit)
      (m.hears (rejected.flatMap (rejection first) ++ asks first round) (later.map .line))
    generalize Target.storeAll perform targets vs _ = x at hstores
    obtain ⟨e | ⟨⟨⟩⟩, m'⟩ := x
    · exact ⟨_, .refused rfl hrejected hround hsuit hstores⟩
    · exact ⟨_, .accepted rfl hrejected hround hsuit hstores⟩

/-- INPUT takes whole rounds and stores only a valid one. With a reply list for a console it comes to
exactly what the cut of the replies into rounds leads to: each round that is rejected has its questions
and one complaint in the transcript and leaves no other trace; the fields of the first round that suits
the targets are stored from left to right, before the complaint about a field too many; and if the
replies come to an end before that, INPUT fails and has changed nothing but the console. -/
theorem exec_input_iff (prompt : Option String) (htargets : targets ≠ []) (hpresent : m.Present)
    (hreplies : m.console.replies = lines.map .line) :
    (Statement.input prompt targets).exec perform m.patience m = x ↔
      InputLeads targets (question prompt) m lines x := by
  obtain ⟨t, ts, rfl⟩ := List.exists_cons_of_ne_nil htargets
  change inputFrom perform (t :: ts) (question prompt) m.patience (question prompt) [] m = x ↔ _
  constructor
  · rintro rfl
    obtain ⟨x, hx⟩ := exists_leads htargets (question prompt) m lines
    rw [inputFrom_of_leads htargets hpresent hreplies hx]
    exact hx
  · exact inputFrom_of_leads htargets hpresent hreplies

end Statements

/-- A machine whose replies make a round with a bad field and then one with a field too many. -/
def retrying : Machine := new (.ofLines ["X", "Y,1,1", ",Q,2,7,Z"]) 0 10

/-- The machine after all questions, when nothing is stored yet. -/
def afterReplies : Machine :=
  retrying.hears (rejection "N? " ["X", "Y,1,1"] ++ asks "N? " [",Q,2,7,Z"]) []

/-- Three variables, and an element whose subscript is the third. -/
def fourTargets : List Target := [.scalar "A", .scalar "B$", .scalar "D", .element "C" [.scalar "D"]]

/-- The stores in the variables that the second round comes to, the last of them first. -/
def threeStores : List Memory.Operation :=
  [.store "D" (.number 2), .store "B$" (.text "Q"), .store "A" (.number 0)]

/-- A store in a variable, on a memory that is known by its operations. -/
theorem Stores.scalar_after {h : List Memory.Operation} {n : Name} {v : Value} {ts : List Target}
    {vs : List Value} {m : Machine} {x : Except Error Unit × Machine}
    (hm : m.memory = Memory.Operation.after h) (hlength : h.length < Memory.scalarCapacity)
    (hreserved : n.fold.isReserved = false) (hfits : v.fits n.fold = true)
    (hrest : Stores ts vs { m with memory := Memory.Operation.after (.store n v :: h) } x) :
    Stores (.scalar n :: ts) (v :: vs) m x := by
  have hroom := (Memory.Operation.size_after_le_length h).trans_lt hlength
  refine .scalar hreserved hfits (hm ▸ hroom) ?_
  rwa [hm, ← Memory.Operation.after_store hreserved hfits hlength]

/-- The variables after these stores. -/
theorem fetch_threeStores :
    (Memory.Operation.after threeStores).fetch "A" = .number 0 ∧
      (Memory.Operation.after threeStores).fetch "B$" = .text "Q" ∧
      (Memory.Operation.after threeStores).fetch "D" = .number 2 := by
  have hfirst := Memory.Operation.fetch_after_store (h := []) (n := "A") (v := .number 0) rfl rfl
    (by decide)
  have hsecond := Memory.Operation.fetch_after_store (h := [.store "A" (.number 0)]) (n := "B$")
    (v := .text "Q") rfl rfl (by decide)
  have hthird := Memory.Operation.fetch_after_store
    (h := [.store "B$" (.text "Q"), .store "A" (.number 0)]) (n := "D") (v := .number 2) rfl rfl
    (by decide)
  refine ⟨?_, ?_, (hthird "D").trans (if_pos rfl)⟩
  · refine (hthird "A").trans ((if_neg (by decide)).trans ?_)
    exact (hsecond "A").trans ((if_neg (by decide)).trans ((hfirst "A").trans (if_pos rfl)))
  · exact (hthird "B$").trans ((if_neg (by decide)).trans ((hsecond "B$").trans (if_pos rfl)))

/-- The store in the element is behind them. -/
def fourStores : List Memory.Operation := .storeElement "C" [.number 2] (.number 7) :: threeStores

/-- The fourth value goes to the element that the third one chooses. -/
theorem storeElement_threeStores :
    Memory.storeElement "C" [.number 2] (.number 7) (Memory.Operation.after threeStores) =
      (.ok (), Memory.Operation.after fourStores) := by
  have hthree := Memory.Operation.faithful_after threeStores
  have his : [Value.number 2].mapM Value.toSubscript = .ok [2] := by decide +kernel
  have hreaches : (Memory.Operation.after threeStores).shape.Reaches (Name.fold "C") [2] := by
    rw [hthree.shape]
    decide +kernel
  have hok := (hthree.wellFormed.storeElement_eq_ok_iff his "C" (.number 7)).mpr ⟨rfl, hreaches⟩
  exact Prod.ext hok rfl

/-- The first round is rejected as a whole, and the second is stored, with one field too many. -/
theorem exec_input_iff_retrying :
    retrying.Present ∧ ∃ m', (Statement.input (some "N") fourTargets).exec perform retrying.patience
        retrying = (.ok (), m') ∧
      m'.console.events = #[.ask "N? " (some "X"), .ask "?? " (some "Y,1,1"),
        .printLine "?REDO FROM START", .ask "N? " (some ",Q,2,7,Z"), .printLine "?EXTRA IGNORED"] ∧
      m'.memory.fetch "A" = .number 0 ∧ m'.memory.fetch "B$" = .text "Q" ∧
      m'.memory.fetch "D" = .number 2 ∧
      (Memory.fetchElement "C" [.number 2] m'.memory).1 = .ok (.number 7) := by
  have hpresent : retrying.Present := fun _ => rfl
  have hunsuited : Field.valuesFor? fourTargets (fieldsOf ["X", "Y,1,1"]) = none := rfl
  have hsuited : Field.valuesFor? fourTargets (fieldsOf [",Q,2,7,Z"]) =
      some [.number 0, .text "Q", .number 2, .number 7] := rfl
  have hfirst : IsRound 4 ["X", "Y,1,1"] := completesRound_cons_iff.mpr
    ⟨by decide, completesRound_cons_iff.mpr ⟨by decide, completesRound_nil_iff.mpr (by decide)⟩⟩
  have hsecond : IsRound 4 [",Q,2,7,Z"] := completesRound_cons_iff.mpr
    ⟨by decide, completesRound_nil_iff.mpr (by decide)⟩
  have hrejected : IsRejected fourTargets ["X", "Y,1,1"] := by
    refine ⟨hfirst, fun ⟨vs, hvs⟩ => ?_⟩
    cases hunsuited.symm.trans (Field.valuesFor?_eq_some_iff.mpr hvs)
  have hcut : ["X", "Y,1,1", ",Q,2,7,Z"] = [["X", "Y,1,1"]].flatten ++ ([",Q,2,7,Z"] ++ []) := rfl
  obtain ⟨hA, hB, hD⟩ := fetch_threeStores
  have hkept (n : Name) (hn : n.fold.isReserved = false) :
      (Memory.Operation.after fourStores).fetch n = (Memory.Operation.after threeStores).fetch n := by
    have hscalars := Memory.keeps_scalars_storeElement "C" [.number 2] (.number 7)
      (Memory.Operation.after threeStores)
    rw [Memory.fetch_of_not_reserved hn, Memory.fetch_of_not_reserved hn, ← hscalars]
    rfl
  have hsubscripts : Expr.evalAll perform [.scalar "D"]
      { afterReplies with memory := Memory.Operation.after threeStores } =
      (.ok [.number 2], { afterReplies with memory := Memory.Operation.after threeStores }) := by
    rw [← hD]
    rfl
  have hstores : Stores fourTargets [.number 0, .text "Q", .number 2, .number 7] afterReplies
      (.ok (), { afterReplies with memory := Memory.Operation.after fourStores }) :=
    .scalar_after (h := []) rfl (by decide) rfl rfl
      (.scalar_after rfl (by decide) rfl rfl (.scalar_after rfl (by decide) rfl rfl
        (.element hsubscripts storeElement_threeStores (.nothing _))))
  have hfour := Memory.Operation.faithful_after fourStores
  have helement : (Memory.fetchElement "C" [.number 2] (Memory.Operation.after fourStores)).1 =
      .ok (.number 7) :=
    ((Memory.Operation.fetchElement_of_reaches hfour (by decide +kernel : _ = Except.ok [2]) "C").1
      (by decide +kernel)).trans (by rfl)
  refine ⟨hpresent, _, (exec_input_iff (some "N") (List.cons_ne_nil _ _) hpresent rfl).mpr
    (.accepted hcut (List.forall_mem_singleton.mpr hrejected) hsecond
      (Field.valuesFor?_eq_some_iff.mp hsuited) hstores), rfl, ?_⟩
  exact ⟨(hkept "A" rfl).trans hA, (hkept "B$" rfl).trans hB, (hkept "D" rfl).trans hD, helement⟩

end Machine

end CommodoreBasic
