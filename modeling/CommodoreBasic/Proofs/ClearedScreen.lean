import CommodoreBasic.Proofs.Coupling
import CommodoreBasic.Proofs.InputRounds

/-!
# The screen after PRINT

PRINT collects its items and hands them to the console when it ends. An item with a clear-screen
character in it has the text so far printed and the screen cleared before anything of the item is
collected. So what the console receives after the screen was last cleared is the item that cleared it,
without its clear-screen characters, and the items behind it. Characters of that item that stand before
its last clear-screen character are among them, though they should have been erased.

Evaluation does not look at the console, so the items have the values that they have if nothing is
printed between them.
-/

namespace CommodoreBasic

open CommodoreBasic.Action

/-! ## Evaluation and the console -/

namespace Machine

variable {α : Type} {m m' : Machine}

/-- A machine and the same with more events at its console evaluate alike. -/
theorem coupling_hears (console : Console) (events : List Event) (replies : List Reply) :
    Coupling Eq fun s t => s.console = console ∧ t = s.hears events replies where
  congruence := Memory.Congruence.eq
  memory := by rintro s _ ⟨-, rfl⟩; rfl
  random := by rintro s _ ⟨-, rfl⟩; rfl
  depth := by rintro s _ ⟨-, rfl⟩; rfl
  limit := by rintro s _ ⟨-, rfl⟩; rfl
  functions := by
    rintro s _ ⟨-, rfl⟩ f
    exact UserFunction.Respelled.rel_self s.functions[f]?
  setMemory := by
    rintro s _ ⟨hconsole, rfl⟩ memory _ rfl
    exact ⟨hconsole, rfl⟩
  setRandom := by
    rintro s _ ⟨hconsole, rfl⟩ random
    exact ⟨hconsole, rfl⟩
  setDepth := by
    rintro s _ ⟨hconsole, rfl⟩ depth
    exact ⟨hconsole, rfl⟩

/-- An action that coupled machines carry out alike neither sees nor changes the console. -/
theorem hears_of_agree {x : Action Machine α}
    (hx : ∀ R, Coupling Eq R → ∀ d, Agree (AtDepth R d) x x) (m : Machine) (events : List Event)
    (replies : List Reply) :
    x (m.hears events replies) = ((x m).1, (x m).2.hears events replies) ∧
      (x m).2.console = m.console := by
  obtain ⟨hresult, ⟨hconsole, hstate⟩, -⟩ :=
    hx _ (coupling_hears m.console events replies) m.depth m _ ⟨⟨rfl, rfl⟩, rfl⟩
  exact ⟨Prod.ext hresult.symm hstate, hconsole⟩

/-- The same of a list of expressions. -/
theorem evalAll_hears {es : List Expr} {vs : List Value}
    (h : Expr.evalAll perform es m = (.ok vs, m')) (events : List Event) (replies : List Reply) :
    Expr.evalAll perform es (m.hears events replies) = (.ok vs, m'.hears events replies) ∧
      m'.console = m.console := by
  have hhears := hears_of_agree (fun _ hR d => Expr.evalAll_agree (hR.perform_agree d) es) m events
    replies
  rw [h] at hhears
  exact hhears

/-- The values of items are found one after the other. -/
theorem evalAll_cons {e : Expr} {es : List Expr} {vs : List Value}
    (h : Expr.evalAll perform (e :: es) m = (.ok vs, m')) :
    ∃ v vs' m₁, vs = v :: vs' ∧ e.eval perform m = (.ok v, m₁) ∧ m₁.console = m.console ∧
      Expr.evalAll perform es m₁ = (.ok vs', m') := by
  obtain ⟨v, vs', m₁, hvs, hv, hrest⟩ := Expr.of_evalAll_cons h
  have hconsole :=
    (hears_of_agree (fun _ hR d => Expr.eval_agree (hR.perform_agree d) e) m [] []).2
  rw [hv] at hconsole
  exact ⟨v, vs', m₁, hvs, hv, hconsole, hrest⟩

end Machine

/-! ## What PRINT sends to the console -/

/-- The characters that an event prints; the end of a line is none of them. -/
def Event.printed : Event → List Char
  | print s | printLine s => s.toList
  | _ => []

/-- The characters that are printed by events. -/
def received (events : List Event) : List Char := events.flatMap Event.printed

/-- The characters of texts one after the other. -/
def characters (texts : List String) : List Char := texts.flatMap String.toList

namespace Piece

/-- The characters without those that clear the screen. -/
def visible (cs : List Char) : List Char := cs.filter (· != clearScreen)

/-- Nothing is visible of a text exactly if it is made of clear-screen characters. -/
theorem visible_eq_nil_iff {cs : List Char} : visible cs = [] ↔ ∀ c ∈ cs, c = clearScreen := by
  simp [visible]

/-- Behind the last clear-screen character everything is visible. -/
theorem visible_append_cons (front : List Char) {back : List Char} (hback : clearScreen ∉ back) :
    visible (front ++ clearScreen :: back) = visible front ++ back := by
  have hsame : back.filter (· != clearScreen) = back := by
    refine List.filter_eq_self.mpr fun c hc => bne_iff_ne.mpr ?_
    rintro rfl
    exact hback hc
  rw [visible, List.filter_append, List.filter_cons_of_neg (by simp), hsame, visible]

/-- A text clears the screen exactly if it holds such a character. -/
theorem clears_ofValue (t : String) :
    (ofValue (.text t)).clears = true ↔ clearScreen ∈ t.toList := List.contains_iff_mem

/-- No blank stands before a text, unless a number comes before it. -/
theorem between_ofValue {q : Piece} (hq : q.isNumber = false) (t : String) :
    q.between (ofValue (.text t)) = "" := by
  simp [between, hq, ofValue, Value.isText]

end Piece

open Piece (clearScreen visible)

/-- The event that prints what was collected, if there is anything. -/
def flushed (text : String) : List Event := if text = "" then [] else [.print text]

/-- The events of items with these texts, after those that were collected into `text`. -/
def screenEvents (newline : Bool) (text : String) : (texts : List String) → List Event
  | [] => if newline then [.printLine text] else flushed text
  | t :: ts =>
    if clearScreen ∈ t.toList then
      flushed text ++ .clear :: screenEvents newline (String.ofList (visible t.toList)) ts
    else screenEvents newline (text ++ t) ts

/-- What is flushed is received as it is. -/
theorem received_flushed (text : String) : received (flushed text) = text.toList := by
  unfold flushed
  split
  case isTrue h => rw [h]; rfl
  case isFalse => exact List.flatMap_singleton ..

/-- Flushing does not clear the screen. -/
theorem clear_notMem_flushed (text : String) : Event.clear ∉ flushed text := by
  unfold flushed
  split <;> simp

/-- Without a clear-screen character all is printed when PRINT ends. -/
theorem screenEvents_plain (newline : Bool) (text : String) {texts : List String}
    (h : ∀ t ∈ texts, clearScreen ∉ t.toList) :
    Event.clear ∉ screenEvents newline text texts ∧
      received (screenEvents newline text texts) = text.toList ++ characters texts := by
  induction texts generalizing text with
  | nil =>
    cases newline with
    | false =>
      refine ⟨clear_notMem_flushed text, ?_⟩
      rw [characters, List.flatMap_nil, List.append_nil]
      exact received_flushed text
    | true => simp [screenEvents, received, Event.printed, characters]
  | cons t ts ih =>
    obtain ⟨ht, hts⟩ := List.forall_mem_cons.mp h
    have hrest := ih (text ++ t) hts
    rw [String.toList_append, List.append_assoc] at hrest
    rw [screenEvents, if_neg ht]
    exact hrest

/-- Behind an item that clears the screen PRINT goes on with what is visible of the item. -/
theorem exists_screenEvents (newline : Bool) (text : String) (earlier : List String) {t : String}
    (ht : clearScreen ∈ t.toList) (later : List String) :
    ∃ before, screenEvents newline text (earlier ++ t :: later) =
      before ++ .clear :: screenEvents newline (String.ofList (visible t.toList)) later := by
  induction earlier generalizing text with
  | nil =>
    rw [List.nil_append, screenEvents, if_pos ht]
    exact ⟨flushed text, rfl⟩
  | cons u us ih =>
    rw [List.cons_append, screenEvents]
    split
    · obtain ⟨before, hbefore⟩ := ih (String.ofList (visible u.toList))
      exact ⟨flushed text ++ .clear :: before, by rw [hbefore, List.append_assoc, List.cons_append]⟩
    · exact ih (text ++ u)

namespace Machine

variable {m m' : Machine}

/-- Where a console is present, printing is one event. -/
theorem perform_print (hpresent : m.Present) (s : String) :
    perform .done (.print s) m = (.ok (), m.hears [.print s] m.console.replies) := by
  change onConsole (Console.print s) m = _
  rw [Console.print, onConsole_call (hpresent _)]

/-- So is clearing the screen. -/
theorem perform_clearScreen (hpresent : m.Present) :
    perform .done .clearScreen m = (.ok (), m.hears [.clear] m.console.replies) := by
  change onConsole Console.clear m = _
  rw [Console.clear, onConsole_call (hpresent _)]

/-- What is pending is printed as one event, or none if it is empty. -/
theorem printUnlessEmpty_perform (hpresent : m.Present) (text : String) :
    printUnlessEmpty perform text m = (.ok (), m.hears (flushed text) m.console.replies) := by
  unfold printUnlessEmpty flushed
  split
  · rw [hears_nil rfl]
    rfl
  · exact perform_print hpresent text

/-- PRINT makes the events of its items' texts. The induction is on the items: their evaluation is
carried over the events that were made in between. -/
theorem printFrom_texts (hpresent : m.Present) {items : List Expr} {texts : List String}
    (heval : Expr.evalAll perform items m = (.ok (texts.map .text), m')) (newline : Bool) (text : String)
    {previous : Option Piece} (hprevious : ∀ q ∈ previous, q.isNumber = false) :
    printFrom perform newline text previous items m =
      (.ok (), m'.hears (screenEvents newline text texts) m.console.replies) := by
  induction items generalizing m m' text texts previous with
  | nil =>
    obtain ⟨hnil, rfl⟩ := Prod.ext_iff.mp heval
    obtain rfl : texts = [] := List.map_eq_nil_iff.mp (Except.ok.inj hnil).symm
    cases newline with
    | false => exact printUnlessEmpty_perform hpresent text
    | true => exact perform_printLine hpresent text
  | cons e es ih =>
    obtain ⟨v, vs, m₁, hvs, hv, hconsole, hrest⟩ := evalAll_cons heval
    obtain ⟨t, ts, rfl, rfl, rfl⟩ := List.map_eq_cons_iff.mp hvs
    have hpresent₁ : m₁.Present := by
      rw [Present, hconsole]
      exact hpresent
    have hpiece (p : Piece) (hp : p.isNumber = false) : ∀ q ∈ some p, q.isNumber = false := by
      rintro q ⟨⟩
      exact hp
    rw [printFrom, bind_of_ok hv, screenEvents, ← hconsole]
    by_cases hclears : clearScreen ∈ t.toList
    · have hlater := (evalAll_hears hrest (flushed text ++ [.clear]) m₁.console.replies).1
      rw [if_pos ((Piece.clears_ofValue t).mpr hclears), if_pos hclears,
        bind_of_ok (printUnlessEmpty_perform hpresent₁ text),
        bind_of_ok (perform_clearScreen (hpresent₁.hears _ _)), hears_hears]
      refine (ih (hpresent₁.hears _ _) hlater _ (hpiece _ rfl)).trans ?_
      rw [hears_hears, List.append_assoc]
      rfl
    · have hnext := ih hpresent₁ hrest (text ++ t) (hpiece (.ofValue (.text t)) rfl)
      rw [if_neg (mt (Piece.clears_ofValue t).mp hclears), if_neg hclears]
      cases previous with
      | none =>
        dsimp only
        rw [String.append_empty]
        exact hnext
      | some q =>
        dsimp only
        rw [Piece.between_ofValue (hprevious q rfl), String.append_empty]
        exact hnext

/-- What the console receives from PRINT, if its items are texts. Without a clear-screen character the
screen is not cleared and the console receives all of the items. Else let the last clear-screen character
stand between `front` and `back` in its item. After the screen was last cleared the console receives
`back` and the later items, as it should, but before them also what is visible of `front`; so it receives
what it should if and only if nothing in `front` is visible. -/
theorem exec_print_texts (hpresent : m.Present) {items : List Expr} {texts : List String}
    (heval : Expr.evalAll perform items m = (.ok (texts.map .text), m')) (newline : Bool)
    (patience : Nat) :
    ∃ events, (Statement.print items newline).exec perform patience m =
        (.ok (), m'.hears events m.console.replies) ∧ m'.console = m.console ∧
      ((∀ t ∈ texts, clearScreen ∉ t.toList) →
        Event.clear ∉ events ∧ received events = characters texts) ∧
      ∀ (earlier : List String) (front back : List Char) (later : List String),
        texts = earlier ++ String.ofList (front ++ clearScreen :: back) :: later →
        clearScreen ∉ back → (∀ t ∈ later, clearScreen ∉ t.toList) →
        ∃ before after, events = before ++ .clear :: after ∧ Event.clear ∉ after ∧
          received after = visible front ++ (back ++ characters later) ∧
          (received after = back ++ characters later ↔ ∀ c ∈ front, c = clearScreen) := by
  refine ⟨screenEvents newline "" texts, ?_, (evalAll_hears heval [] []).2, ?_, ?_⟩
  · exact printFrom_texts hpresent heval newline "" fun q hq => by cases hq
  · exact screenEvents_plain newline ""
  · rintro earlier front back later rfl hback hlater
    obtain ⟨before, hevents⟩ := exists_screenEvents newline "" earlier
      (t := String.ofList (front ++ clearScreen :: back)) (by simp) later
    obtain ⟨hclear, hreceived⟩ := screenEvents_plain newline
      (String.ofList (visible (front ++ clearScreen :: back))) hlater
    rw [String.toList_ofList] at hevents hreceived
    rw [Piece.visible_append_cons front hback, List.append_assoc] at hreceived
    refine ⟨before, _, hevents, hclear, ?_, ?_⟩
    all_goals rw [Piece.visible_append_cons front hback, hreceived]
    rw [List.append_left_eq_self]
    exact Piece.visible_eq_nil_iff

/-- A machine with nothing to reply. -/
def silent : Machine := new (.ofLines []) 0 10

/-- An item that clears the screen twice before its text, between two others. -/
theorem exec_print_texts_twice :
    silent.Present ∧ ∃ before after,
      (Statement.print [.literal (.text "X"), .literal (.text "\u0093\u0093HI"), .literal (.text "!")]
          true).exec perform 0 silent = (.ok (), silent.hears (before ++ .clear :: after) []) ∧
        Event.clear ∉ after ∧ received after = "HI!".toList := by
  have hpresent : silent.Present := fun _ => rfl
  have heval : Expr.evalAll perform
      [.literal (.text "X"), .literal (.text "\u0093\u0093HI"), .literal (.text "!")] silent =
      (.ok (["X", "\u0093\u0093HI", "!"].map .text), silent) := rfl
  obtain ⟨events, hexec, -, -, hcleared⟩ := exec_print_texts hpresent heval true 0
  obtain ⟨before, after, rfl, hclear, -, hreceived⟩ :=
    hcleared ["X"] ['\u0093'] ['H', 'I'] ["!"] rfl (by decide)
      (List.forall_mem_singleton.mpr (by decide))
  exact ⟨hpresent, before, after, hexec, hclear, hreceived.mpr (List.forall_mem_singleton.mpr rfl)⟩

/-- The text before a clear-screen character is printed after the screen was cleared, if both are in one
item. -/
theorem exec_print_innerClear :
    (Statement.print [.binary .add (.binary .add (.literal (.text "A"))
        (.call (.builtin .chr) [.literal (.number 147)])) (.literal (.text "B"))] true).exec perform 0
        silent = (.ok (), silent.hears [.clear, .printLine "AB"] []) ∧
      received [.printLine "AB"] ≠ "B".toList := by
  have heval : Expr.evalAll perform [.binary .add (.binary .add (.literal (.text "A"))
      (.call (.builtin .chr) [.literal (.number 147)])) (.literal (.text "B"))] silent =
      (.ok (["A\u0093B"].map .text), silent) := rfl
  refine ⟨?_, by decide⟩
  exact printFrom_texts (fun _ => rfl) heval true "" fun q hq => by cases hq

end Machine

end CommodoreBasic
