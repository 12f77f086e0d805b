import CommodoreBasic.Proofs.ComparedReadings

/-!
# Statements side by side

Two readings of a line are followed from statement to statement. Behind the tokens of the first line
there may be a colon and more tokens in the second, as long as no REM takes them along. What is
known of a statement is said in terms of its expressions and targets, of the statement under it if it
is an IF, and of the tokens it was read from.

A line is read up to its end in the first reading. The second goes on from there, and what it gives
in addition is what it gives for the tokens behind the colon alone.
-/

namespace CommodoreBasic

open CommodoreBasic.Parser

/-! ## The parts of a statement -/

/-- The subscripts of a target. -/
def Target.subscripts : Target → List Expr
  | .scalar _ => []
  | .element _ es => es

namespace Statement

/-- The expressions that belong to a statement itself, and not to a target or to a statement under it. -/
def expressions : Statement → List Expr
  | assign _ e | define _ _ e | ifThen e _ | on e _ _ => [e]
  | loop _ start limit step => start :: limit :: step.toList
  | print es _ => es
  | _ => []

/-- What the statement stores in or makes room for. -/
def targets : Statement → List Target
  | assign t _ => [t]
  | dimension arrays => arrays.map fun a => .element a.1 a.2
  | input _ targets | read targets => targets
  | _ => []

/-- The statement under an IF. -/
def consequent? : Statement → Option Statement
  | ifThen _ s => some s
  | _ => none

/-- What is known of DATA, DIM and INPUT that have been read from the tokens `ts`. DATA has the constants
of its fields, and one empty text if there are none. Behind DIM stands a list of targets none of which is
a variable, and INPUT has a list of targets too. -/
def ReadFrom (ts : List Token) : Statement → Prop
  | .data items => items = [.text ""] ∨
    ∃ raw, .unknown raw ∈ ts ∧ items = (Field.split raw).map Field.constant
  | .dimension arrays => ∃ us rest, .keyword .DIM :: us <:+ ts ∧
    Target.parseList us = .ok (arrays.map fun a => .element a.1 a.2, rest)
  | .input _ targets => ∃ us rest, us <:+ ts ∧ Target.parseList us = .ok (targets, rest)
  | _ => True

end Statement

namespace ReadingPair

variable {c : ReadingPair}

/-- What the parser of statements needs of two readings. -/
structure FairLine (c : ReadingPair) : Prop extends Fair c where
  /-- Behind the tokens there is nothing, or a colon. -/
  closes : Closes c.more
  /-- Numerals in the same place are the same line number, or none. -/
  lineNumber {s s' : String} (hs : c.numerals s s') :
    lineNumberOf (.numeral s) = lineNumberOf (.numeral s')
  /-- A line number is missing at the end of a line, and a colon is not a valid one. -/
  missing : c.more = [] ∨ c.fails (.complain .expectedLineNumber) (.complain .invalidLineNumber)
  /-- REM is the only word that takes the colon and what follows it. -/
  remark : c.more = [] ∨ .keyword .REM ∉ c.whole
  /-- The property of targets follows from their names and subscripts. -/
  target {t : Target} (hname : .name t.name ∈ c.whole) (h : ∀ e ∈ t.subscripts, c.expr e) : c.target t
  /-- The property of statements follows from their parts and from the tokens. -/
  statement {s : Statement} (hread : s.ReadFrom c.whole) (hexpressions : ∀ e ∈ s.expressions, c.expr e)
    (htargets : ∀ t ∈ s.targets, c.target t) (hconsequent : ∀ s' ∈ s.consequent?, c.statement s') :
    c.statement s

/-- A computation that takes no token leaves all of them over. -/
theorem Outcome.keep {α γ : Type} {Q : γ → Prop} {x y : Except Error α} (hxy : c.Outcome Eq x y)
    {f : α → γ} (hf : ∀ a, Q (f a)) {ts us : List Token} (h : c.Paired ts us) :
    c.Reads Q (ts.length + 1) (x >>= fun a => .ok (f a, ts)) (y >>= fun a => .ok (f a, us)) := by
  refine hxy.bind ?_
  rintro a _ rfl
  exact .stop (hf a) h

variable (hc : c.FairLine) {ts us : List Token}
include hc

/-- A statement that is made of nothing but words, names and line numbers. -/
theorem FairLine.word (s : Statement) (hread : s.ReadFrom c.whole) (hexpressions : s.expressions = [])
    (htargets : s.targets = []) (hconsequent : s.consequent? = none) : c.statement s := by
  refine hc.statement hread ?_ ?_ ?_
  · rw [hexpressions]
    exact List.forall_mem_nil _
  · rw [htargets]
    exact List.forall_mem_nil _
  · rw [hconsequent]
    simp

/-- A statement of one expression. -/
theorem FairLine.one (s : Statement) {e : Expr} (he : c.expr e) (hread : s.ReadFrom c.whole)
    (hexpressions : s.expressions = [e]) (htargets : s.targets = [])
    (hconsequent : s.consequent? = none) : c.statement s := by
  refine hc.statement hread ?_ ?_ ?_
  · rw [hexpressions]
    exact List.forall_mem_singleton.mpr he
  · rw [htargets]
    exact List.forall_mem_nil _
  · rw [hconsequent]
    simp

/-! ## Targets -/

/-- A target begins with a name. -/
theorem reads_target (hts : c.Paired ts us) :
    c.Reads c.target ts.length (Target.parse ts) (Target.parse us) := by
  cases hts with
  | done => obtain hmore | ⟨_, hmore⟩ := hc.closes.cases <;> rw [hmore] <;> exact hc.complain rfl
  | numeral => exact hc.complain rfl
  | @token t ts us hwhole _ hts =>
    cases t with
    | name n =>
      have hname : .name n ∈ c.whole := hwhole.mem List.mem_cons_self
      have hstop := Outcome.stop (hc.target (t := .scalar n) hname (List.forall_mem_nil _)) hts
      cases hts with
      | done =>
        obtain hmore | ⟨_, hmore⟩ := hc.closes.cases <;> rw [hmore] at hstop ⊢ <;> exact hstop
      | numeral => exact hstop
      | @token t ts us _ _ hts =>
        cases t with
        | leftParenthesis =>
          refine Outcome.mono ?_ (Nat.le_add_right ts.length 2)
          refine (reads_exprList hc.toFair hts).andThen fun es rest rest' hes hrest => ?_
          exact .stop (hc.target (t := .element n es) hname hes) hrest
        | _ => exact hstop
    | _ => exact hc.complain rfl

/-- Targets stand between commas. -/
theorem reads_upTo {count count' : Nat} (h : ts.length < count) (h' : ts.length < count')
    (hts : c.Paired ts us) :
    c.Reads (fun targets => ∀ t ∈ targets, c.target t) ts.length (Target.parseUpTo count ts)
      (Target.parseUpTo count' us) := by
  induction count generalizing count' ts us with
  | zero => omega
  | succ count ih =>
    obtain ⟨count', rfl⟩ : ∃ k, count' = k + 1 := ⟨count' - 1, by omega⟩
    rw [Target.parseUpTo, Target.parseUpTo]
    refine (reads_target hc hts).bindOk fun t rest rest' _ ht hlength hrest => ?_
    refine Outcome.mono ?_ hlength
    have hstop : c.Reads (fun targets => ∀ t ∈ targets, c.target t) (rest.length + 1)
        (.ok ([t], rest)) (.ok ([t], rest')) := .stop (List.forall_mem_singleton.mpr ht) hrest
    cases hrest with
    | done =>
      obtain hmore | ⟨_, hmore⟩ := hc.closes.cases <;> rw [hmore] at hstop ⊢ <;> exact hstop
    | numeral => exact hstop
    | @token u rest rest' _ _ hrest =>
      cases u with
      | comma =>
        rw [List.length_cons] at hlength
        refine Outcome.mono ?_ (Nat.le_add_right rest.length 2)
        exact (ih (by omega) (by omega) hrest).andThen fun targets rest rest' htargets hrest =>
          .stop (List.forall_mem_cons.mpr ⟨ht, htargets⟩) hrest
      | _ => exact hstop

/-- Lists of targets are read alike. -/
theorem reads_targets (hts : c.Paired ts us) :
    c.Reads (fun targets => ∀ t ∈ targets, c.target t) ts.length (Target.parseList ts)
      (Target.parseList us) := by
  have hlength := hts.length_eq
  exact reads_upTo hc (Nat.lt_succ_self _) (by omega) hts

/-! ## Line numbers, counters and items -/

omit hc in
/-- What is no line number is none for another reason than that it is no number. -/
theorem Fair.lineNumberOf (hc : c.Fair) (t : Token) :
    c.Outcome Eq (lineNumberOf t) (lineNumberOf t) := by
  cases t with
  | numeral s =>
    rw [Parser.lineNumberOf]
    split
    · exact .ok rfl
    · exact hc.complain rfl
  | _ => exact hc.complain rfl

/-- The first tokens of both readings are the same line number, or none. -/
theorem Paired.uncons {t : Token} (hts : c.Paired (t :: ts) us) :
    ∃ t' us', us = t' :: us' ∧ lineNumberOf t = lineNumberOf t' ∧ c.Paired ts us' := by
  cases hts with
  | token _ _ hts => exact ⟨_, _, rfl, rfl, hts⟩
  | numeral _ hs hts => exact ⟨_, _, rfl, hc.lineNumber hs, hts⟩

/-- A line number is missing at the end of a line, and behind it if there is a colon. -/
theorem reads_missing {α : Type} {Q : α → Prop} {n : Nat} {p : Parser α}
    (hnil : p [] = .error (.complain .expectedLineNumber))
    (hcolon : ∀ rest, p (.colon :: rest) = .error (.complain .invalidLineNumber)) :
    c.Reads Q n (p []) (p c.more) := by
  rcases hc.missing with hmore | hfails
  · rw [hmore, hnil]
    exact hc.complain rfl
  · obtain hmore | ⟨rest, hmore⟩ := hc.closes.cases
    · rw [hmore, hnil]
      exact hc.complain rfl
    · rw [hmore, hnil, hcolon]
      exact .error hfails

/-- Line numbers are read alike. -/
theorem reads_lineNumber (hts : c.Paired ts us) :
    c.Reads (fun _ => True) ts.length (lineNumber ts) (lineNumber us) := by
  cases ts with
  | nil =>
    cases hts with
    | done => exact reads_missing hc rfl fun _ => rfl
  | cons t ts =>
    obtain ⟨t', us, rfl, heq, hts⟩ := Paired.uncons hc hts
    rw [lineNumber, lineNumber, ← heq]
    exact (hc.lineNumberOf t).keep (fun _ => trivial) hts

omit hc in
/-- A list of line numbers ends where no comma follows. -/
theorem lineNumbers_last {t : Token} (h : ts.head? ≠ some .comma) :
    lineNumbers (t :: ts) = lineNumberOf t >>= fun n => .ok ([n], ts) := by
  cases ts with
  | nil => rfl
  | cons u ts =>
    cases u with
    | comma => exact absurd rfl h
    | _ => rfl

omit hc in
/-- A colon is no line number, whatever follows it. -/
theorem lineNumbers_colon (rest : List Token) :
    lineNumbers (.colon :: rest) = .error (.complain .invalidLineNumber) := by
  cases rest with
  | nil => rfl
  | cons u rest => cases u <;> rfl

/-- Lists of line numbers are read alike. -/
theorem reads_lineNumbers (hts : c.Paired ts us) :
    c.Reads (fun _ => True) ts.length (lineNumbers ts) (lineNumbers us) := by
  fun_induction lineNumbers ts generalizing us with
  | case1 =>
    cases hts with
    | done => exact reads_missing hc rfl lineNumbers_colon
  | case2 t ts ih =>
    obtain ⟨t', us, rfl, heq, hrest⟩ := Paired.uncons hc hts
    cases hrest with
    | token _ _ hrest =>
      rw [lineNumbers, ← heq]
      refine (hc.lineNumberOf t).bind ?_
      rintro n _ rfl
      refine Outcome.mono ?_ (Nat.le_add_right ts.length 2)
      exact (ih hrest).andThen fun ns rest rest' _ hrest => .stop trivial hrest
  | case3 t ts hcomma =>
    obtain ⟨t', us, rfl, heq, hts⟩ := Paired.uncons hc hts
    have hmore : c.more.head? ≠ some .comma := fun hhead => by cases hc.closes _ hhead
    have hlast : us.head? ≠ some .comma := by
      rw [ne_eq, ← hts.head?_eq_some_iff (by simp) hmore, List.head?_eq_some_iff]
      rintro ⟨ts, rfl⟩
      exact hcomma ts rfl
    rw [lineNumbers_last hlast, ← heq]
    exact (hc.lineNumberOf t).keep (fun _ => trivial) hts

/-- A line number that may be missing is read alike. -/
theorem reads_lineNumber? (hts : c.Paired ts us) :
    c.Reads (fun _ => True) (ts.length + 1) (lineNumber? ts) (lineNumber? us) := by
  have hnone : c.Reads (fun _ : Option LineNumber => True) (ts.length + 1) (.ok (none, ts))
      (.ok (none, us)) := .stop trivial hts
  cases hts with
  | done => obtain hmore | ⟨_, hmore⟩ := hc.closes.cases <;> rw [hmore] at hnone ⊢ <;> exact hnone
  | numeral _ hs hts =>
    rw [lineNumber?, lineNumber?, ← hc.lineNumber hs]
    exact ((hc.lineNumberOf _).keep (fun _ => trivial) hts).le
  | @token t ts us _ ht hts =>
    cases t with
    | numeral s => exact absurd rfl (ht s)
    | quoted s => exact hc.complain rfl
    | _ => exact hnone

/-- Names between commas are read alike. -/
theorem reads_names (hts : c.Paired ts us) :
    c.Reads (fun _ => True) ts.length (names ts) (names us) := by
  fun_induction names ts generalizing us with
  | case1 n ts ih =>
    cases hts with
    | token _ _ hts =>
      cases hts with
      | token _ _ hts =>
        refine Outcome.mono ?_ (Nat.le_add_right ts.length 2)
        exact (ih hts).andThen fun ns rest rest' _ hrest => .stop trivial hrest
  | case2 n ts hcomma =>
    cases hts with
    | token _ _ hts =>
      have hlast : c.Reads (fun _ : List Name => True) (ts.length + 1) (.ok ([n], ts))
        (.ok ([n], _)) := .stop trivial hts
      cases hts with
      | done =>
        obtain hmore | ⟨_, hmore⟩ := hc.closes.cases <;> rw [hmore] at hlast ⊢ <;> exact hlast
      | numeral => exact hlast
      | @token t ts us _ _ hts =>
        cases t with
        | comma => exact absurd rfl (hcomma ts)
        | _ => exact hlast
  | case3 ts _ hname =>
    cases hts with
    | done => obtain hmore | ⟨_, hmore⟩ := hc.closes.cases <;> rw [hmore] <;> exact hc.complain rfl
    | numeral => exact hc.complain rfl
    | @token t ts us _ _ hts =>
      cases t with
      | name n => exact absurd rfl (hname n ts)
      | _ => exact hc.complain rfl

/-- The counters of NEXT are read alike. -/
theorem reads_counters (hts : c.Paired ts us) :
    c.Reads (fun _ => True) (ts.length + 1) (counters ts) (counters us) := by
  have hnone : c.Reads (fun _ : List (Option Name) => True) (ts.length + 1) (.ok ([none], ts))
      (.ok ([none], us)) := .stop trivial hts
  cases hts with
  | done => obtain hmore | ⟨_, hmore⟩ := hc.closes.cases <;> rw [hmore] at hnone ⊢ <;> exact hnone
  | numeral => exact hnone
  | @token t ts us hwhole ht hts =>
    cases t with
    | name n =>
      refine Outcome.le ?_
      exact (reads_names hc (.token hwhole ht hts)).andThen fun ns rest rest' _ hrest =>
        .stop trivial hrest
    | _ => exact hnone

/-- The items of PRINT are read alike up to the colon or the end. -/
theorem reads_printItems {count count' : Nat} (h : ts.length < count) (h' : ts.length < count')
    (newline : Bool) (hts : c.Paired ts us) :
    c.Reads (fun r => ∀ e ∈ r.1, c.expr e) (ts.length + 1) (printItems count newline ts)
      (printItems count' newline us) := by
  induction count generalizing count' ts us newline with
  | zero => omega
  | succ count ih =>
    obtain ⟨count', rfl⟩ : ∃ k, count' = k + 1 := ⟨count' - 1, by omega⟩
    have hstop : c.Reads (fun r : List Expr × Bool => ∀ e ∈ r.1, c.expr e) (ts.length + 1)
        (.ok (([], newline), ts)) (.ok (([], newline), us)) := .stop (List.forall_mem_nil _) hts
    have hitem : c.Reads (fun r => ∀ e ∈ r.1, c.expr e) (ts.length + 1)
        (Expr.parse ts >>= fun r => printItems count true r.2 >>= fun p =>
          .ok ((r.1 :: p.1.1, p.1.2), p.2))
        (Expr.parse us >>= fun r => printItems count' true r.2 >>= fun p =>
          .ok ((r.1 :: p.1.1, p.1.2), p.2)) := by
      refine (reads_expr hc.toFair hts).bindOk fun e rest rest' _ he hlength hrest => ?_
      have hcount : rest.length < count := by omega
      have hcount' : rest.length < count' := by omega
      refine ((ih hcount hcount' true hrest).andThen fun p rest rest' hp hrest => ?_).mono (by omega)
      exact .stop (List.forall_mem_cons.mpr ⟨he, hp⟩) hrest
    cases hts with
    | done => obtain hmore | ⟨_, hmore⟩ := hc.closes.cases <;> rw [hmore] at hstop ⊢ <;> exact hstop
    | numeral => exact hitem
    | @token t ts us _ _ hts =>
      rw [List.length_cons] at h h'
      cases t with
      | colon => exact hstop
      | semicolon | comma => exact (ih (by omega) (by omega) false hts).le
      | _ => exact hitem

/-! ## Statements -/

/-- DEF is read alike. -/
theorem reads_define (hts : c.Paired ts us) :
    c.Reads c.statement ts.length (Statement.parseDefine ts) (Statement.parseDefine us) := by
  refine (reads_expect hc.toFair (by simp) (by simp) rfl hts).andThen fun _ ts us _ hts => ?_
  refine (reads_variableName hc.toFair hts).le.andThen fun function ts us _ hts => ?_
  dsimp only
  split
  · exact hc.complain rfl
  refine (reads_expect hc.toFair (by simp) (by simp) rfl hts).le.andThen fun _ ts us _ hts => ?_
  refine (reads_variableName hc.toFair hts).le.andThen fun parameter ts us _ hts => ?_
  dsimp only
  split
  · exact hc.complain rfl
  refine (reads_expect hc.toFair (by simp) (by simp) rfl hts).le.andThen fun _ ts us _ hts => ?_
  refine (reads_expect hc.toFair (by simp) (by simp) rfl hts).le.andThen fun _ ts us _ hts => ?_
  refine (reads_expr hc.toFair hts).le.andThen fun body ts us hbody hts => ?_
  exact .stop (hc.one (.define _ parameter body) hbody trivial rfl rfl rfl) hts

omit hc in
/-- DIM takes targets that are all arrays, and complains of others. -/
theorem Fair.arraysOf (hc : c.Fair) (targets : List Target) :
    c.Outcome (fun arrays arrays' => arrays = arrays' ∧ (arrays.map fun a => .element a.1 a.2) = targets)
      (arraysOf targets) (arraysOf targets) := by
  induction targets with
  | nil => exact .ok ⟨rfl, rfl⟩
  | cons t targets ih =>
    cases t with
    | scalar n => exact hc.complain rfl
    | element n es =>
      rw [Parser.arraysOf]
      refine ih.bind ?_
      rintro arrays _ ⟨rfl, hmap⟩
      exact .ok ⟨rfl, congrArg (List.cons (Target.element n es)) hmap⟩

/-- DIM is read alike, and its arrays are the targets behind it. -/
theorem reads_dimension (hword : .keyword .DIM :: ts <:+ c.whole) (hts : c.Paired ts us) :
    c.Reads c.statement ts.length (Statement.parseDimension ts) (Statement.parseDimension us) := by
  refine (reads_targets hc hts).bindOk fun targets rest rest' hparse htargets hlength hrest => ?_
  refine (hc.arraysOf targets).bind ?_
  rintro arrays _ ⟨rfl, rfl⟩
  have hread : (Statement.dimension arrays).ReadFrom c.whole := ⟨ts, rest, hword, hparse⟩
  refine .ok ⟨rfl, hc.statement hread (List.forall_mem_nil _) htargets ?_, hlength, hrest⟩
  simp [Statement.consequent?]

/-- FOR is read alike, with STEP or without it. -/
theorem reads_loop (hts : c.Paired ts us) :
    c.Reads c.statement ts.length (Statement.parseLoop ts) (Statement.parseLoop us) := by
  refine (reads_variableName hc.toFair hts).andThen fun counter ts us _ hts => ?_
  dsimp only
  split
  · exact .error (hc.same (by decide))
  refine (reads_expect hc.toFair (by simp) (by simp) rfl hts).le.andThen fun _ ts us _ hts => ?_
  refine (reads_expr hc.toFair hts).le.andThen fun start ts us hstart hts => ?_
  refine (reads_expect hc.toFair (by simp) (by simp) rfl hts).le.andThen fun _ ts us _ hts => ?_
  refine (reads_expr hc.toFair hts).le.andThen fun limit ts us hlimit hts => ?_
  have hloop (step : Option Expr) (hstep : ∀ e ∈ step.toList, c.expr e) :
      c.statement (.loop counter start limit step) := by
    refine hc.statement trivial ?_ (List.forall_mem_nil _) (by simp [Statement.consequent?])
    exact List.forall_mem_cons.mpr ⟨hstart, List.forall_mem_cons.mpr ⟨hlimit, hstep⟩⟩
  have hplain := Outcome.stop (hloop none (List.forall_mem_nil _)) hts
  cases hts with
  | done => obtain hmore | ⟨_, hmore⟩ := hc.closes.cases <;> rw [hmore] at hplain ⊢ <;> exact hplain
  | numeral => exact hplain
  | @token t ts us _ _ hts =>
    cases t with
    | keyword k =>
      cases k with
      | STEP =>
        refine ((reads_expr hc.toFair hts).andThen fun step rest rest' hstep hrest => ?_).le.le
        exact .stop (hloop (some step) (List.forall_mem_singleton.mpr hstep)) hrest
      | _ => exact hplain
    | _ => exact hplain

/-- INPUT is read alike, with a prompt or without it. -/
theorem reads_input (hts : c.Paired ts us) :
    c.Reads c.statement ts.length (Statement.parseInput ts) (Statement.parseInput us) := by
  have htargets (prompt : Option String) {ts us : List Token} (hts : c.Paired ts us) :
      c.Reads c.statement ts.length
        (Target.parseList ts >>= fun r => .ok (.input prompt r.1, r.2))
        (Target.parseList us >>= fun r => .ok (.input prompt r.1, r.2)) := by
    refine (reads_targets hc hts).bindOk fun targets rest rest' hparse htargets hlength hrest => ?_
    have hread : (Statement.input prompt targets).ReadFrom c.whole := ⟨ts, rest, hts.suffix, hparse⟩
    refine .ok ⟨rfl, hc.statement hread (List.forall_mem_nil _) htargets ?_, hlength, hrest⟩
    simp [Statement.consequent?]
  have hnone := htargets none hts
  cases hts with
  | done => obtain hmore | ⟨_, hmore⟩ := hc.closes.cases <;> rw [hmore] at hnone ⊢ <;> exact hnone
  | numeral => exact hnone
  | @token t ts us _ _ hts =>
    cases t with
    | quoted prompt =>
      refine Outcome.le ?_
      exact (reads_expect hc.toFair (by simp) (by simp) rfl hts).andThen fun _ ts us _ hts =>
        (htargets (some prompt) hts).le
    | _ => exact hnone

/-- An assignment is read alike. -/
theorem reads_assign (hts : c.Paired ts us) :
    c.Reads c.statement ts.length (Statement.parseAssign ts) (Statement.parseAssign us) := by
  refine (reads_target hc hts).andThen fun target ts us htarget hts => ?_
  refine (reads_expect hc.toFair (by simp) (by simp) rfl hts).le.andThen fun _ ts us _ hts => ?_
  refine (reads_expr hc.toFair hts).le.andThen fun value ts us hvalue hts => .stop ?_ hts
  exact hc.statement trivial (List.forall_mem_singleton.mpr hvalue)
    (List.forall_mem_singleton.mpr htarget) (by simp [Statement.consequent?])

/-- ON is read alike. -/
theorem reads_on (hts : c.Paired ts us) :
    c.Reads c.statement ts.length (Statement.parseOn ts) (Statement.parseOn us) := by
  refine (reads_expr hc.toFair hts).andThen fun selector ts us hselector hts => ?_
  have hlines (j : Jump) {ts us : List Token} (hts : c.Paired ts us) :
      c.Reads c.statement ts.length (lineNumbers ts >>= fun r => .ok (.on selector j r.1, r.2))
        (lineNumbers us >>= fun r => .ok (.on selector j r.1, r.2)) :=
    (reads_lineNumbers hc hts).andThen fun lines rest rest' _ hrest =>
      .stop (hc.one (.on selector j lines) hselector trivial rfl rfl rfl) hrest
  cases hts with
  | done => obtain hmore | ⟨_, hmore⟩ := hc.closes.cases <;> rw [hmore] <;> exact hc.complain rfl
  | numeral => exact hc.complain rfl
  | @token t ts us _ _ hts =>
    cases t with
    | keyword k =>
      cases k with
      | GOTO => exact (hlines .goto hts).le.le
      | GOSUB => exact (hlines .gosub hts).le.le
      | _ => exact hc.complain rfl
    | _ => exact hc.complain rfl

/-- PRINT is read alike. -/
theorem reads_print (hts : c.Paired ts us) :
    c.Reads c.statement (ts.length + 1) (Statement.parsePrint ts) (Statement.parsePrint us) := by
  have hlength := hts.length_eq
  refine (reads_printItems hc (Nat.lt_succ_self _) (by omega) true hts).andThen
    fun r rest rest' hr hrest => .stop ?_ hrest
  exact hc.statement trivial hr (List.forall_mem_nil _) (by simp [Statement.consequent?])

/-- DATA is read alike. Its text is one of the tokens. -/
theorem reads_data (hts : c.Paired ts us) :
    c.Reads c.statement (ts.length + 1) (Statement.parseData ts) (Statement.parseData us) := by
  have hempty : c.Reads c.statement (ts.length + 1) (.ok (.data [.text ""], ts))
      (.ok (.data [.text ""], us)) := .stop (hc.word (.data _) (.inl rfl) rfl rfl rfl) hts
  cases hts with
  | done => obtain hmore | ⟨_, hmore⟩ := hc.closes.cases <;> rw [hmore] at hempty ⊢ <;> exact hempty
  | numeral => exact hempty
  | @token t ts us hwhole _ hts =>
    cases t with
    | unknown raw =>
      have hraw : .unknown raw ∈ c.whole := hwhole.mem List.mem_cons_self
      exact (Outcome.stop (hc.word (.data _) (.inr ⟨raw, hraw, rfl⟩) rfl rfl rfl) hts).le
    | _ => exact hempty

/-- A jump is read alike. -/
theorem reads_jump (j : Jump) (hts : c.Paired ts us) :
    c.Reads c.statement ts.length (Statement.parseJump j ts) (Statement.parseJump j us) :=
  (reads_lineNumber hc hts).andThen fun line _ _ _ hrest =>
    .stop (hc.word (.jump j line) trivial rfl rfl rfl) hrest

/-- Every statement but IF is read alike after its word. -/
theorem reads_after {word : Keyword} (hword : .keyword word :: ts <:+ c.whole)
    (hts : c.Paired ts us) :
    c.Reads c.statement (ts.length + 1) (Statement.parseAfter word ts)
      (Statement.parseAfter word us) := by
  cases word with
  | DATA => exact reads_data hc hts
  | DEF => exact (reads_define hc hts).le
  | DIM => exact (reads_dimension hc hword hts).le
  | FOR => exact (reads_loop hc hts).le
  | GO =>
    exact ((reads_expect hc.toFair (by simp) (by simp) rfl hts).andThen fun _ ts us _ hts =>
      (reads_jump hc .goto hts).le).le
  | GOSUB => exact (reads_jump hc .gosub hts).le
  | GOTO => exact (reads_jump hc .goto hts).le
  | INPUT => exact (reads_input hc hts).le
  | LET => exact (reads_assign hc hts).le
  | NEXT =>
    refine (reads_counters hc hts).andThen fun ns rest rest' _ hrest => ?_
    match ns with
    | [] => exact hc.complain rfl
    | [n] => exact .stop (hc.word (.next n) trivial rfl rfl rfl) hrest
    | _ :: _ :: _ => exact hc.complain rfl
  | ON => exact (reads_on hc hts).le
  | PRINT | QUESTION => exact reads_print hc hts
  | READ =>
    refine ((reads_targets hc hts).andThen fun targets rest rest' htargets hrest => ?_).le
    exact .stop (hc.statement (s := .read targets) trivial (List.forall_mem_nil _) htargets
      (by simp [Statement.consequent?])) hrest
  | REM =>
    have hmore := hc.remark.resolve_right fun h => h (hword.mem List.mem_cons_self)
    have hdone : c.Paired [] c.more := .done
    rw [hmore] at hdone
    refine Outcome.mono ?_ (Nat.succ_le_succ (Nat.zero_le ts.length))
    exact .stop (hc.word .remark trivial rfl rfl rfl) hdone
  | RESTORE =>
    exact (reads_lineNumber? hc hts).andThen fun line rest rest' _ hrest =>
      .stop (hc.word (.restore line) trivial rfl rfl rfl) hrest
  | RUN =>
    exact (reads_lineNumber? hc hts).andThen fun line rest rest' _ hrest =>
      .stop (hc.word (.run line) trivial rfl rfl rfl) hrest
  | END => exact .stop (hc.word .finish trivial rfl rfl rfl) hts
  | RETURN => exact .stop (hc.word .comeBack trivial rfl rfl rfl) hts
  | STOP => exact .stop (hc.word .stop trivial rfl rfl rfl) hts
  | FN | IF | STEP | THEN | TO => exact hc.complain rfl

/-- IF is read alike if the statement under it is. -/
theorem reads_if {depth depth' : Nat} (hts : c.Paired ts us)
    (hunder : ∀ {rest rest'}, rest.length < ts.length → c.Paired rest rest' →
      c.Reads c.statement rest.length (Statement.parseUnder depth rest)
        (Statement.parseUnder depth' rest')) :
    c.Reads c.statement (ts.length + 1) (Statement.parseUnder (depth + 1) (.keyword .IF :: ts))
      (Statement.parseUnder (depth' + 1) (.keyword .IF :: us)) := by
  refine Outcome.le ?_
  refine (reads_expr hc.toFair hts).bindOk fun condition rest rest' _ hcondition hlength hrest => ?_
  refine Outcome.mono ?_ hlength
  have hthen {n : Nat} {x y : Except Error (Statement × List Token)}
      (hxy : c.Reads c.statement n x y) :
      c.Reads c.statement n (x >>= fun r => .ok (.ifThen condition r.1, r.2))
        (y >>= fun r => .ok (.ifThen condition r.1, r.2)) := by
    refine hxy.andThen fun consequent rest rest' hconsequent hrest => .stop ?_ hrest
    exact hc.statement trivial (List.forall_mem_singleton.mpr hcondition)
      (List.forall_mem_nil _) (by simpa [Statement.consequent?] using hconsequent)
  cases hrest with
  | done => obtain hmore | ⟨_, hmore⟩ := hc.closes.cases <;> rw [hmore] <;> exact hc.complain rfl
  | numeral => exact hc.complain rfl
  | @token t rest rest' _ _ hrest =>
    rw [List.length_cons] at hlength
    cases t with
    | keyword k =>
      cases k with
      | THEN =>
        have hstatement := (hthen (hunder (by omega) hrest)).le.le
        have hjump := (hthen (reads_jump hc .goto hrest)).le.le
        cases hrest with
        | done =>
          obtain hmore | ⟨_, hmore⟩ := hc.closes.cases <;> rw [hmore] at hstatement ⊢ <;>
            exact hstatement
        | numeral => exact hjump
        | @token t rest rest' _ ht _ =>
          cases t with
          | numeral s => exact absurd rfl (ht s)
          | _ => exact hstatement
      | GOTO => exact (hthen (reads_jump hc .goto hrest)).le.le
      | _ => exact hc.complain rfl
    | _ => exact hc.complain rfl

/-- Statements are read alike, also under IFs. The induction is on the bound for these. -/
theorem reads_under {depth depth' : Nat} (h : ts.length < depth) (h' : ts.length < depth')
    (hts : c.Paired ts us) :
    c.Reads c.statement ts.length (Statement.parseUnder depth ts)
      (Statement.parseUnder depth' us) := by
  induction depth generalizing depth' ts us with
  | zero => omega
  | succ depth ih =>
    obtain ⟨depth', rfl⟩ : ∃ k, depth' = k + 1 := ⟨depth' - 1, by omega⟩
    cases hts with
    | done => obtain hmore | ⟨_, hmore⟩ := hc.closes.cases <;> rw [hmore] <;> exact hc.complain rfl
    | numeral => exact hc.complain rfl
    | @token t ts us hwhole ht hts =>
      rw [List.length_cons] at h h'
      cases t with
      | name n => exact reads_assign hc (.token hwhole ht hts)
      | keyword k =>
        have hafter := reads_after hc hwhole hts
        cases k with
        | IF => exact reads_if hc hts fun hless hrest => ih (by omega) (by omega) hrest
        | _ => exact hafter
      | _ => exact hc.complain rfl

/-- What stands between two colons is read alike. -/
theorem reads_part (hts : c.Paired ts us) :
    c.Reads (fun ss => ∀ s ∈ ss, c.statement s) ts.length (Statement.parsePart ts)
      (Statement.parsePart us) := by
  have hlength := hts.length_eq
  have hsingle : c.Reads (fun ss => ∀ s ∈ ss, c.statement s) ts.length
      (Statement.parse ts >>= fun r => .ok ([r.1], r.2))
      (Statement.parse us >>= fun r => .ok ([r.1], r.2)) := by
    refine (reads_under hc (Nat.lt_succ_self _) (by omega) hts).andThen fun s rest rest' hs hrest => ?_
    exact .stop (List.forall_mem_singleton.mpr hs) hrest
  cases hts with
  | done => obtain hmore | ⟨_, hmore⟩ := hc.closes.cases <;> rw [hmore] at hsingle ⊢ <;> exact hsingle
  | numeral => exact hsingle
  | @token t ts us _ _ hts =>
    cases t with
    | keyword k =>
      cases k with
      | NEXT =>
        refine (reads_counters hc hts).andThen fun ns rest rest' _ hrest => .stop ?_ hrest
        intro s hs
        obtain ⟨counter, -, rfl⟩ := List.mem_map.mp hs
        exact hc.word (.next counter) trivial rfl rfl rfl
      | _ => exact hsingle
    | _ => exact hsingle

end ReadingPair

/-! ## Lines -/

namespace Statement

/-- How a line is read on, once its first part has been. -/
def afterPart (count : Nat) (r : List Statement × List Token) : Except Error (List Statement) :=
  match r.2 with
  | [] => .ok r.1
  | .colon :: ts => parseParts count ts >>= fun ss => .ok (r.1 ++ ss)
  | _ => throw (.complain .expectedEndOfStatement)

/-- A line that does not begin with a colon begins with a part. -/
theorem parseParts_cons {count : Nat} {t : Token} {ts : List Token} (ht : t ≠ .colon) :
    parseParts (count + 1) (t :: ts) = parsePart (t :: ts) >>= afterPart count := by
  cases t with
  | colon => exact absurd rfl ht
  | _ => rfl

end Statement

namespace ReadingPair

variable {c : ReadingPair}

/-- What comes of two lines if `z` comes of what stands behind the colon in the second: statements
with the property, followed by those of `z` in the second line, or errors that go together, or an error
that excuses the second line. -/
inductive Continued (c : ReadingPair) (z : Except Error (List Statement)) :
    Except Error (List Statement) → Except Error (List Statement) → Prop where
  | ok {ss : List Statement} (h : ∀ s ∈ ss, c.statement s) :
    Continued c z (.ok ss) (z >>= fun b => .ok (ss ++ b))
  | error {e e' : Error} (h : c.fails e e') : Continued c z (.error e) (.error e')
  | excused {e : Error} (h : c.excuses e) (y : Except Error (List Statement)) :
    Continued c z (.error e) y

/-- The tokens behind the first line lead to `z`, however many parts they may have. -/
def LeadsTo (more : List Token) (z : Except Error (List Statement)) : Prop :=
  more = [] ∧ z = .ok [] ∨
    ∃ vs, more = .colon :: vs ∧ ∀ count, vs.length ≤ count → Statement.parseParts count vs = z

/-- No statements are followed by those of `z`. -/
theorem Continued.nil (z : Except Error (List Statement)) : Continued c z (.ok []) z := by
  cases z with
  | error e => exact .ok (List.forall_mem_nil _)
  | ok b => exact .ok (List.forall_mem_nil _)

/-- A line goes on behind a part that both readings have in common. -/
theorem Continued.bind {z : Except Error (List Statement)} {α : Type} {Q : α → Prop} {n : Nat}
    {x y : Except Error (α × List Token)} {f g : α × List Token → Except Error (List Statement)}
    (hxy : c.Reads Q n x y) (hfg : ∀ a ts us, Q a → ts.length < n → c.Paired ts us →
      Continued c z (f (a, ts)) (g (a, us))) : Continued c z (x >>= f) (y >>= g) := by
  cases hxy with
  | @ok r r' h =>
    obtain ⟨a, ts⟩ := r
    obtain ⟨_, us⟩ := r'
    obtain ⟨rfl, ha, hlength, hpaired⟩ := h
    exact hfg a ts us ha hlength hpaired
  | error h => exact .error h
  | excused h y => exact .excused h _

/-- A first line that is read is followed by what stands behind it. -/
theorem Continued.of_ok {y z : Except Error (List Statement)} {ss : List Statement}
    (h : Continued c z (.ok ss) y) : y = z >>= fun b => .ok (ss ++ b) := by
  cases h with
  | ok => rfl

/-- Where the first line fails the second does, unless it is excused. -/
theorem Continued.of_error {y z : Except Error (List Statement)} {e : Error}
    (h : Continued c z (.error e) y) (he : ¬ c.excuses e) : ∃ e', y = .error e' ∧ c.fails e e' := by
  cases h with
  | error h => exact ⟨_, rfl, h⟩
  | excused h => exact absurd h he

/-- More statements may stand before those of the first line. -/
theorem Continued.prepend {x y z : Except Error (List Statement)} (h : Continued c z x y)
    {part : List Statement} (hpart : ∀ s ∈ part, c.statement s) :
    Continued c z (x >>= fun b => .ok (part ++ b)) (y >>= fun b => .ok (part ++ b)) := by
  cases h with
  | error h => exact .error h
  | excused h y => exact .excused h _
  | @ok ss h =>
    have hassoc : (z >>= fun b => .ok (ss ++ b)) >>= (fun b => .ok (part ++ b)) =
        z >>= fun b => .ok (part ++ ss ++ b) := by
      cases z with
      | error e => rfl
      | ok b => exact congrArg Except.ok (List.append_assoc part ss b).symm
    rw [hassoc]
    exact .ok (List.forall_mem_append.mpr ⟨hpart, h⟩)

variable (hc : c.FairLine) {ts us : List Token} {z : Except Error (List Statement)}
include hc

omit hc in
/-- At the end of the first line the second goes on behind the colon. -/
theorem continued_end (hz : LeadsTo c.more z) (count : Nat) {count' : Nat}
    (h' : c.more.length ≤ count') :
    Continued c z (Statement.parseParts count []) (Statement.parseParts count' c.more) := by
  rw [Statement.parseParts]
  rcases hz with ⟨hmore, rfl⟩ | ⟨vs, hmore, hvs⟩
  · rw [hmore, Statement.parseParts]
    exact .nil _
  · rw [hmore, List.length_cons] at h'
    obtain ⟨count', rfl⟩ : ∃ k, count' = k + 1 := ⟨count' - 1, by omega⟩
    rw [hmore, Statement.parseParts, hvs count' (by omega)]
    exact .nil z

/-- Behind a part both lines go on alike if they do so behind the next colon. -/
theorem continued_afterPart (hz : LeadsTo c.more z) {count count' : Nat} {part : List Statement}
    (hpart : ∀ s ∈ part, c.statement s) (h' : us.length ≤ count' + 1) (hts : c.Paired ts us)
    (hnext : ∀ {rest rest'}, rest.length < ts.length → rest'.length < us.length →
      c.Paired rest rest' →
      Continued c z (Statement.parseParts count rest) (Statement.parseParts count' rest')) :
    Continued c z (Statement.afterPart count (part, ts)) (Statement.afterPart count' (part, us)) := by
  cases hts with
  | done =>
    rcases hz with ⟨hmore, rfl⟩ | ⟨vs, hmore, hvs⟩
    · rw [hmore]
      have heq : Statement.afterPart count' (part, []) =
          ((.ok [] : Except Error (List Statement)) >>= fun b => .ok (part ++ b)) :=
        congrArg Except.ok (List.append_nil part).symm
      rw [heq]
      exact .ok hpart
    · rw [hmore, List.length_cons] at h'
      rw [hmore, ← hvs count' (by omega)]
      exact .ok hpart
  | numeral => exact .error (hc.same (Error.complain_ne (by decide)))
  | @token t ts us _ _ hts =>
    cases t with
    | colon => exact (hnext (Nat.lt_succ_self _) (Nat.lt_succ_self _) hts).prepend hpart
    | _ => exact .error (hc.same (Error.complain_ne (by decide)))

/-- The parts of a line compose. The induction follows the parts of the first line. -/
theorem continued_parseParts (hz : LeadsTo c.more z) {count count' : Nat} (h : ts.length ≤ count)
    (h' : us.length ≤ count') (hts : c.Paired ts us) :
    Continued c z (Statement.parseParts count ts) (Statement.parseParts count' us) := by
  induction count generalizing count' ts us with
  | zero =>
    obtain rfl := List.eq_nil_of_length_eq_zero (Nat.le_zero.mp h)
    cases hts with
    | done => exact continued_end hz 0 h'
  | succ count ih =>
    have hpart {t t' : Token} {ts us : List Token} (ht : t ≠ .colon) (ht' : t' ≠ .colon)
        (h : ts.length ≤ count) {count' : Nat} (h' : us.length ≤ count')
        (hts : c.Paired (t :: ts) (t' :: us)) :
        Continued c z (Statement.parseParts (count + 1) (t :: ts))
          (Statement.parseParts (count' + 1) (t' :: us)) := by
      have hlength := hts.length_eq
      rw [List.length_cons, List.length_cons] at hlength
      rw [Statement.parseParts_cons ht, Statement.parseParts_cons ht']
      refine .bind (reads_part hc hts) fun part rest rest' hpart hrest hpaired => ?_
      rw [List.length_cons] at hrest
      have hlength' := hpaired.length_eq
      exact continued_afterPart hc hz hpart (by omega) hpaired fun hless hless' hpaired =>
        ih (by omega) (by omega) hpaired
    cases hts with
    | done => exact continued_end hz (count + 1) h'
    | numeral hwhole hs hts =>
      rw [List.length_cons] at h h'
      obtain ⟨count', rfl⟩ : ∃ k, count' = k + 1 := ⟨count' - 1, by omega⟩
      exact hpart (by simp) (by simp) (by omega) (by omega) (.numeral hwhole hs hts)
    | @token t ts us hwhole ht hts =>
      rw [List.length_cons] at h h'
      obtain ⟨count', rfl⟩ : ∃ k, count' = k + 1 := ⟨count' - 1, by omega⟩
      by_cases hcolon : t = .colon
      · rw [hcolon, Statement.parseParts, Statement.parseParts]
        exact ih (by omega) (by omega) hts
      · exact hpart hcolon hcolon (by omega) (by omega) (.token hwhole ht hts)

/-- Two lines with nothing behind the second are read alike. -/
theorem outcome_parseParts (hmore : c.more = []) {count count' : Nat} (h : ts.length ≤ count)
    (h' : us.length ≤ count') (hts : c.Paired ts us) :
    c.Outcome (fun ss ss' => ss = ss' ∧ ∀ s ∈ ss, c.statement s) (Statement.parseParts count ts)
      (Statement.parseParts count' us) := by
  generalize hx : Statement.parseParts count ts = x
  generalize hy : Statement.parseParts count' us = y
  have hcontinued := continued_parseParts hc (.inl ⟨hmore, rfl⟩) h h' hts
  rw [hx, hy] at hcontinued
  cases hcontinued with
  | @ok ss hss => exact .ok ⟨(List.append_nil ss).symm, hss⟩
  | error h => exact .error h
  | excused h y => exact .excused h y

/-- So are two lines with their blanks. -/
theorem outcome_parseAll (hmore : c.more = [])
    (hts : c.Paired (ts.filter (! ·.isBlanks)) (us.filter (! ·.isBlanks))) :
    c.Outcome (fun ss ss' => ss = ss' ∧ ∀ s ∈ ss, c.statement s) (Statement.parseAll ts)
      (Statement.parseAll us) :=
  outcome_parseParts hc hmore (Nat.le_succ _) (Nat.le_succ _) hts

omit hc in
/-- The same tokens with nothing or a colon behind them are fair if REM does not take the colon along. -/
theorem fairLine_extended {more : List Token} {fails : Error → Error → Prop} {excuses : Error → Prop}
    (hcloses : Closes more) (hfails : ∀ e, fails e e)
    (hmissing : more = [] ∨ fails (.complain .expectedLineNumber) (.complain .invalidLineNumber))
    (hremark : more = [] ∨ .keyword .REM ∉ ts) : (extended ts more fails excuses).FairLine where
  toFair := fair_extended hcloses.follows_zero (.inl hcloses) hfails
  closes := hcloses
  lineNumber hs := congrArg (fun s => lineNumberOf (.numeral s)) hs
  missing := hmissing
  remark := hremark
  target _ _ := trivial
  statement _ _ _ _ := trivial

end ReadingPair

/-! ## What holds of everything that is read -/

/-- Properties of expressions, targets and statements that hold of all that is read from the tokens
`ts`, since they hold of literals and pass from the parts to the whole. -/
structure Inherited (ts : List Token) (P : Expr → Prop) (Q : Target → Prop) (R : Statement → Prop) :
    Prop where
  text (s : String) : P (.literal (.text s))
  numeral {s : String} {e : Expr} (h : Expr.ofNumeral s = .ok e) : P e
  expr {e : Expr} (hliteral : ∀ v, e ≠ .literal v) (h : ∀ d ∈ e.operands, P d) : P e
  target {t : Target} (hname : .name t.name ∈ ts) (h : ∀ e ∈ t.subscripts, P e) : Q t
  statement {s : Statement} (hread : s.ReadFrom ts) (hexpressions : ∀ e ∈ s.expressions, P e)
    (htargets : ∀ t ∈ s.targets, Q t) (hconsequent : ∀ s' ∈ s.consequent?, R s') : R s

namespace Inherited

variable {ts : List Token} {P : Expr → Prop} {Q : Target → Prop} {R : Statement → Prop}

/-- A reading beside itself, where failures do not matter. -/
def alone (_ : Inherited ts P Q R) : ReadingPair where
  whole := ts
  more := []
  numerals := Eq
  fails _ _ := True
  excuses _ := True
  expr := P
  target := Q
  statement := R

variable (h : Inherited ts P Q R)

/-- What is inherited is fair to ask of a reading. -/
theorem fairLine : h.alone.FairLine where
  follows := closes_nil.follows_zero
  ends := .inl closes_nil
  same _ := trivial
  numeral {s _} hs := by
    subst hs
    cases hnumeral : Expr.ofNumeral s with
    | error e => exact .excused trivial _
    | ok e => exact .ok ⟨rfl, h.numeral hnumeral⟩
  text := h.text
  expr := h.expr
  closes := closes_nil
  lineNumber hs := congrArg (fun s => lineNumberOf (.numeral s)) hs
  missing := .inl rfl
  remark := .inl rfl
  target := h.target
  statement := h.statement

/-- A reading takes the same tokens as itself. -/
theorem paired_alone : h.alone.Paired ts ts := by
  have hpaired : h.alone.Paired ts (ts ++ []) :=
    ReadingPair.paired_append (fun _ _ => rfl) List.suffix_rfl
  rwa [List.append_nil] at hpaired

include h

/-- The property holds of all targets that are read from the tokens. -/
theorem of_targets {targets : List Target} {rest : List Token}
    (hparse : Target.parseList ts = .ok (targets, rest)) : ∀ t ∈ targets, Q t :=
  ((ReadingPair.reads_targets h.fairLine h.paired_alone).of_ok hparse).1

/-- The property holds of all statements that are read from a line of the tokens. -/
theorem of_parseParts {count : Nat} {ss : List Statement} (hcount : ts.length ≤ count)
    (hparse : Statement.parseParts count ts = .ok ss) : ∀ s ∈ ss, R s := by
  have hparts := ReadingPair.outcome_parseParts h.fairLine rfl hcount hcount h.paired_alone
  rw [hparse] at hparts
  cases hparts with
  | ok hss => exact hss.2

end Inherited

end CommodoreBasic
