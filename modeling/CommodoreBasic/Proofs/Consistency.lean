import CommodoreBasic.Proofs.ArrayFallback
import CommodoreBasic.Proofs.ParsedStatements

/-!
# Parsed programs are consistent

The machine has branches for inconsistent programs and states: constants that cannot be evaluated,
a declaration of something that is no array, a loop that counts with texts, a value of the wrong type
for a variable that was asked for, and an element that was found and is not there. No program that
could be read takes any of them. The reasons differ. Constants and declarations are so by the grammar.
The names of a line are identifiers, and so keep their type when they are folded. Loops are only
entered once a number has been stored in the counter, and arrays have as many elements as their bounds
say.

An error that ends a program says in which line of the program it happened, and nothing else.
-/

namespace CommodoreBasic

open CommodoreBasic.Action

/-! ## The values of INPUT -/

/-- A value that is to be stored has the type of its variable or array. -/
def Request.Fits {a : Answer} : Request a → Prop
  | .store n v => v.fits n.fold = true
  | .storeElement n _ v => v.fits n.fold = true
  | _ => True

/-- The requests of an evaluation store nothing. -/
theorem Request.fits_of_isEvaluation {a : Answer} {r : Request a} (hr : r.isEvaluation = true) :
    r.Fits := by
  cases r with
  | store | storeElement => cases hr
  | _ => trivial

section Input

variable {σ : Type} (h : Handler σ)

/-- So far only values of the right types have been stored. -/
def AllFit (x y : σ × Array Entry) : Prop := x = y ∧ ∀ entry ∈ x.2, entry.request.Fits

/-- A request that fits is recorded as one that fits. -/
theorem recording_allFit {a : Answer} {r : Request a} (hr : r.Fits) :
    Agree AllFit (h.recording a r) (h.recording a r) := by
  refine Agree.invariant fun x hx entry hentry => ?_
  obtain hentry | rfl := Array.mem_push.mp hentry
  · exact hx entry hentry
  · exact hr

/-- So every evaluation records only what fits. -/
theorem evaluation_allFit : Handler.AgreeOn Request.isEvaluation AllFit h.recording h.recording :=
  fun _ _ hr => recording_allFit h (Request.fits_of_isEvaluation hr)

/-- A value that fits a target is stored by requests that fit. -/
theorem Target.store_allFit {t : Target} {v : Value} (hv : v.fits t.name.fold = true) :
    Agree AllFit (t.store h.recording v) (t.store h.recording v) := by
  cases t with
  | scalar n => exact recording_allFit h (r := .store n v) hv
  | element n es =>
    exact (Expr.evalAll_agree (evaluation_allFit h) es).bind fun vs =>
      recording_allFit h (r := .storeElement n vs v) hv

/-- The fields of a reply are stored as values of the right types. -/
theorem Target.storeAll_allFit {targets : List Target} {fields : List Field} {vs : List Value}
    (hnames : ∀ t ∈ targets, t.name.isIdentifier = true)
    (hvs : Field.valuesFor? targets fields = some vs) :
    Agree AllFit (storeAll h.recording targets vs) (storeAll h.recording targets vs) := by
  induction targets generalizing fields vs with
  | nil => exact Agree.pure ()
  | cons t targets ih =>
    rw [List.forall_mem_cons] at hnames
    cases fields with
    | nil =>
      cases hvs
      exact Agree.pure ()
    | cons f fields =>
      rw [Field.valuesFor?] at hvs
      obtain ⟨v, hv, hvs⟩ := Option.bind_eq_some_iff.mp hvs
      obtain ⟨rest, hrest, heq⟩ := Option.bind_eq_some_iff.mp hvs
      cases heq
      refine (store_allFit h (Field.fits_valueFor? hnames.1 hv)).bind fun _ => ?_
      exact ih hnames.2 hrest

/-- INPUT asks for nothing to be stored but values of the right types. -/
theorem Statement.input_allFit {s : Statement} {prompt : Option String} {targets : List Target}
    (hs : s.stripIfs = .input prompt targets) (hnames : ∀ t ∈ targets, t.name.isIdentifier = true)
    (patience : Nat) :
    Agree AllFit (s.exec h.recording patience) (s.exec h.recording patience) := by
  induction s with
  | ifThen condition s ih =>
    refine (Expr.eval_agree (evaluation_allFit h) condition).bind fun v => ?_
    split
    · exact ih hs
    · exact recording_allFit h (r := .skipLine) trivial
  | input prompt' targets' =>
    cases hs
    cases targets with
    | nil => exact Agree.pure ()
    | cons t ts =>
      exact inputFrom_related compositional_agree (fun s => recording_allFit h (r := .ask s) trivial)
        (fun s => recording_allFit h (r := .printLine s) trivial)
        (fun _ _ hvs => Target.storeAll_allFit h hnames hvs) _ patience _ []
  | _ => cases hs

end Input

/-! ## Turns -/

namespace Machine

variable {m u : Machine} {line : Line} {s : Statement}

/-- The next turn of the machine takes none of the branches for inconsistent states. -/
structure Consistent (m : Machine) : Prop where
  /-- NEXT does not find a text in the counter of its loop. -/
  next : ∀ counter e, ⟨.done, .nextLoop counter, .error e⟩ ∈ m.asked → e.kind ≠ .typeMismatch
  /-- INPUT only stores values of the right types. -/
  input : ∀ line s prompt targets, m.fetch? = some (line, s) → s.stripIfs = .input prompt targets →
    ∀ entry ∈ m.asked, entry.request.Fits
  /-- Elements that have been found are there, also where a user function looks for them. So it makes
  no difference what would be done otherwise. -/
  arrays : ∀ line s o, m.fetch? = some (line, s) →
    s.exec (performOr o) m.counted.patience m.counted = s.exec perform m.counted.patience m.counted

/-- The statement that is fetched stands where the cursor settles. -/
theorem at?_of_fetch? (h : m.fetch? = some (line, s)) :
    m.program.at? m.settle.cursor = some (line, s) := by
  unfold fetch? at h
  split at h
  · cases h
  · exact h

/-- Counting a step concerns no array. -/
theorem WellFormed.counted (hm : m.WellFormed) : m.counted.WellFormed :=
  ⟨hm.memory.advanceClock, hm.counters⟩

/-- What the turn asks for is what its statement asks for, if it comes to that. -/
theorem asked_of_fetch? (h : m.fetch? = some (line, s)) {entry : Entry} (hentry : entry ∈ m.asked) :
    entry ∈ (s.exec perform.recording m.counted.patience (m.counted, #[])).2.2 := by
  unfold asked at hentry
  rw [h] at hentry
  dsimp only at hentry
  split at hentry
  · cases hentry
  · exact Array.mem_toList_iff.mp hentry

/-- Every request of a turn is made to a well-formed machine. -/
theorem exists_of_asked (hm : m.WellFormed) {entry : Entry} (hentry : entry ∈ m.asked) :
    ∃ v : Machine, v.WellFormed ∧ entry.result = (perform entry.answer entry.request v).1 := by
  cases hfetch : m.fetch? with
  | none =>
    unfold asked at hentry
    rw [hfetch] at hentry
    cases hentry
  | some fetched =>
    obtain ⟨line, s⟩ := fetched
    -- The recording machine is compared with itself, so the relation is an invariant of it.
    have hask : Handler.AgreeOn s.mayAsk (fun x y => x = y ∧ x.1.WellFormed ∧ ∀ entry ∈ x.2,
        ∃ v : Machine, v.WellFormed ∧ entry.result = (perform entry.answer entry.request v).1)
        perform.recording perform.recording := by
      intro a r _
      refine Agree.invariant fun x hx => ⟨?_, fun entry hentry => ?_⟩
      · exact (perform_matches Memory.badSubscript a r).keeps x.1 hx.1
      · obtain hentry | rfl := Array.mem_push.mp hentry
        · exact hx.2 entry hentry
        · exact ⟨x.1, hx.1, rfl⟩
    obtain ⟨-, -, -, hall⟩ := s.exec_agree m.counted.patience hask (m.counted, #[])
      (m.counted, #[]) ⟨rfl, hm.counted, by simp⟩
    exact hall entry (asked_of_fetch? hfetch hentry)

/-- A machine that is well-formed is consistent if the targets of INPUT have identifiers for names. -/
theorem WellFormed.consistent (hm : m.WellFormed)
    (hnames : ∀ line s prompt targets, m.fetch? = some (line, s) →
      s.stripIfs = .input prompt targets → ∀ t ∈ targets, t.name.isIdentifier = true) :
    m.Consistent where
  next counter e h := by
    obtain ⟨v, hv, hresult⟩ := exists_of_asked hm h
    exact (nextLoop_wellFormed hv counter).2.2 e hresult.symm
  input line s prompt targets hfetch hs entry hentry := by
    have htargets := hnames line s prompt targets hfetch hs
    have hfit := s.input_allFit perform hs htargets m.counted.patience
    obtain ⟨-, -, hall⟩ := hfit (m.counted, #[]) (m.counted, #[]) ⟨rfl, by simp⟩
    exact hall entry (asked_of_fetch? hfetch hentry)
  arrays _ s o _ := (exec_matches o s m.counted.patience).same m.counted hm.counted

/-- Neither does what comes before a statement. -/
theorem beginStep_matches : Matches WellFormed beginStep beginStep := by
  refine .self fun m hm => ?_
  unfold beginStep
  split
  · exact ⟨⟨hm.memory, hm.counters⟩, .throw⟩
  · dsimp only
    split
    · exact ⟨⟨hm.memory, hm.counters⟩, .throw⟩
    · exact ⟨⟨hm.memory.advanceClock, hm.counters⟩, .ok ()⟩

/-- Every turn keeps the arrays well-formed. -/
theorem keptByTurns_wellFormed : KeptByTurns WellFormed where
  settle hm := ⟨hm.memory, hm.counters⟩
  beginStep hm := beginStep_matches.keeps _ hm
  exec hm _ patience := (exec_matches Memory.badSubscript _ patience).keeps _ hm
  proceed {m} hm := by
    unfold proceed
    cases m.flow <;> exact ⟨hm.memory, hm.counters⟩

/-- A turn that fails says in which line of the program, and no more. -/
theorem turn_error (hm : m.WellFormed) {e : Error} (h : m.turn = .finished (.error e) u) :
    (∃ line ∈ m.program.lines, e.line = some line.number) ∧ e.detail = "" := by
  rw [turn_eq] at h
  cases hat : m.settle.program.at? m.settle.cursor with
  | none =>
    rw [hat] at h
    cases h
  | some fetched =>
    obtain ⟨line, s⟩ := fetched
    rw [hat] at h
    have hline : line ∈ m.program.lines := List.mem_of_getElem? (Program.at?_eq_some_iff.mp hat).1
    have hexec := Matches.atState fun m : Machine => exec_matches Memory.badSubscript s m.patience
    have hplain : Plain (step s m.settle).1 :=
      (beginStep_matches.bind fun _ => hexec).plain m.settle ⟨hm.memory, hm.counters⟩
    dsimp only at h
    rcases hstep : step s m.settle with ⟨e' | ⟨⟨⟩⟩, m'⟩ <;> rw [hstep] at h hplain
    · cases h
      obtain ⟨hnone, hdetail⟩ := hplain e' rfl
      refine ⟨⟨line, hline, ?_⟩, ?_⟩
      · rw [Error.inLine, hnone]
      · rw [Error.inLine_detail, hdetail]
    · unfold conclude proceed at h
      dsimp only at h
      split at h <;> cases h

/-- A run that is over had a last turn. -/
theorem exists_last_turn {turns : Nat} {result : Except Error Unit}
    (h : m.runFor turns = .finished result u) :
    ∃ k v, m.runFor k = .running v ∧ v.turn = .finished result u := by
  induction turns generalizing m with
  | zero => cases h
  | succ turns ih =>
    rw [runFor] at h
    cases hturn : m.turn with
    | running m' =>
      rw [hturn] at h
      obtain ⟨k, v, hk, hv⟩ := ih h
      refine ⟨k + 1, v, ?_, hv⟩
      rw [runFor, hturn]
      exact hk
    | finished r m' =>
      rw [hturn] at h
      cases h
      exact ⟨0, m, rfl, hturn⟩

/-- Loading a program leaves no loop to go on with. -/
theorem wellFormed_load (hm : m.memory.WellFormed) (p : Program) : (m.load p).WellFormed where
  memory := hm
  counters := List.forall_mem_nil _

/-- Every machine on the way of a run is well-formed. -/
theorem wellFormed_of_execute (hm : m.memory.WellFormed) {p : Program} {turns : Nat}
    (h : m.execute p turns = .running u) : u.WellFormed := by
  have hkept : (m.execute p turns).machine.WellFormed :=
    keptByTurns_wellFormed.runFor (wellFormed_load hm p) turns
  rw [h] at hkept
  exact hkept

/-- Constants have the values that they are. -/
theorem evalAll_literals {σ : Type} (h : Handler σ) (vs : List Value) (s : σ) :
    Expr.evalAll h (vs.map .literal) s = (.ok vs, s) := by
  induction vs with
  | nil => rfl
  | cons v vs ih =>
    change (Expr.evalAll h (vs.map .literal) >>= fun rest => pure (v :: rest)) s = _
    rw [bind_of_ok ih]
    rfl

/-- However a program that could be read is run, its constants are loaded, everything that DIM declares
is an array, each turn is consistent, and an error that ends the program has the number of one of its
lines and no detail. The machine may be new, with any limits, any generator and any clock, or have run
before, as long as its memory is well-formed. It is one with a fallback of choice, whose choice makes no
difference. -/
theorem execute_consistent {source : String} {p : Program} (hparse : Program.parse source = .ok p) :
    performOr Memory.badSubscript = perform ∧
    (∀ start m : Machine, Expr.evalAll perform (p.dataItems.map .literal) m =
      (.ok (start.load p).data.items.toList, m)) ∧
    (∀ line ∈ p.lines, ∃ cs ∈ Program.splitLines source.toList,
      Line.parse (String.ofList cs) = .ok line ∧
        ∀ s ∈ line.statements, s.stripIfs.ReadFrom (Token.ofLine cs)) ∧
    (∀ (console : Console) (stepLimit stackLimit : Nat) (random : Random) (clock : Clock),
      (new console stepLimit stackLimit random clock).memory.WellFormed) ∧
    ∀ (start : Machine) (turns : Nat), start.memory.WellFormed →
      (∀ u, start.execute p turns = .running u → u.Consistent) ∧
      ∀ e u, start.execute p turns = .finished (.error e) u →
        (∃ line ∈ p.lines, e.line = some line.number) ∧ e.detail = "" := by
  have hread := Program.readFrom_parse hparse
  refine ⟨performOr_badSubscript, fun _ => evalAll_literals perform p.dataItems, hread,
    fun _ _ _ _ _ => Memory.wellFormed_of_empty rfl rfl rfl,
    fun start turns hstart => ⟨fun u hu => ?_, fun e u hu => ?_⟩⟩
  · refine (wellFormed_of_execute hstart hu).consistent fun line s prompt targets hfetch hs => ?_
    have hat := at?_of_fetch? hfetch
    rw [(sound_of_execute hu).program] at hat
    obtain ⟨hline, hs'⟩ := Program.at?_eq_some_iff.mp hat
    obtain ⟨cs, -, -, hstatements⟩ := hread line (List.mem_of_getElem? hline)
    have hfrom := hstatements s (List.mem_of_getElem? hs')
    rw [hs] at hfrom
    exact Statement.isIdentifier_of_readFrom hfrom
  · obtain ⟨k, v, hk, hv⟩ := exists_last_turn hu
    have herror := turn_error (wellFormed_of_execute hstart hk) hv
    rw [(sound_of_execute hk).program] at herror
    exact herror

/-- A declaration that is passed over, and a NEXT for which no loop runs. -/
def strayNext : Program where
  lines := [
    { number := 10
      statements := [.ifThen (.literal (.text "")) (.dimension [("A", [.literal (.number 3)])])] },
    { number := 20, statements := [.next none] }]

/-- The program is read as it is meant. -/
theorem parse_strayNext : Program.parse "10 IF \"\" THEN DIM A(3)\n20 NEXT" = .ok strayNext := by
  have hlines : (Program.splitLines "10 IF \"\" THEN DIM A(3)\n20 NEXT".toList).filter
      (! ·.all Text.isWhiteSpace) = ["10 IF \"\" THEN DIM A(3)".toList, "20 NEXT".toList] := by
    decide +kernel
  have hnumber : (Token.scanLine "10 IF \"\" THEN DIM A(3)".toList).number = some 10 := by
    decide +kernel
  have htokens : (Token.scanLine "10 IF \"\" THEN DIM A(3)".toList).tokens =
      [.keyword .IF, .blanks 1, .quoted "", .blanks 1, .keyword .THEN, .blanks 1, .keyword .DIM,
        .blanks 1, .name "A", .leftParenthesis, .numeral "3", .rightParenthesis] := by
    decide +kernel
  have hnumber' : (Token.scanLine "20 NEXT".toList).number = some 20 := by
    decide +kernel
  have htokens' : (Token.scanLine "20 NEXT".toList).tokens = [.keyword .NEXT] := by
    decide +kernel
  have hfirst := Line.parse_of_parseAll hnumber htokens rfl
  have hsecond := Line.parse_of_parseAll hnumber' htokens' rfl
  unfold Program.parse
  rw [hlines]
  dsimp only
  rw [List.mapM_cons, List.mapM_cons, List.mapM_nil, String.ofList_toList, String.ofList_toList,
    hfirst, hsecond]
  rfl

/-- The machine that has passed over the declaration. -/
def beforeStrayNext : Machine :=
  { (new {} 0 10).load strayNext with cursor := { line := 1 }, steps := 1 }

/-- DIM stands under an IF that text decides, and NEXT has no loop. -/
theorem execute_consistent_strayNext :
    Program.parse "10 IF \"\" THEN DIM A(3)\n20 NEXT" = .ok strayNext ∧
      ∃ e u, (new {} 0 10).execute strayNext 2 = .finished (.error e) u ∧
        (∃ line ∈ strayNext.lines, e.line = some line.number) ∧ e.detail = "" := by
  have hpassed : ((new {} 0 10).load strayNext).turn = .running beforeStrayNext := rfl
  have hfailed : beforeStrayNext.turn =
      .finished (.error { kind := .nextWithoutFor, line := some 20 })
        { beforeStrayNext with steps := 2 } := rfl
  have hrun : (new {} 0 10).execute strayNext 2 = beforeStrayNext.turn := by
    rw [execute, runFor, hpassed]
    dsimp only
    rw [runFor, hfailed]
  rw [hfailed] at hrun
  obtain ⟨-, -, -, hnew, hrest⟩ := execute_consistent parse_strayNext
  obtain ⟨-, herror⟩ := hrest (new {} 0 10) 2 (hnew {} 0 10 default {})
  exact ⟨parse_strayNext, _, _, hrun, herror _ _ hrun⟩

end Machine

end CommodoreBasic
