import CommodoreBasic.DataPool
import CommodoreBasic.Program.Loops
import CommodoreBasic.Statement.Exec

/-!
# Renaming variables

A renaming changes the names of variables, arrays, loop counters and parameters throughout a
program; the names of user functions are no variables and stay. Running renamed syntax is the same
as running the original with every request renamed on its way to the machine (`Expr.eval_rename`,
`Statement.exec_rename`). INPUT alone looks at the spelling of a name itself, to tell text from
number, so there the renaming has to keep the `$`. What is found in the text of a program, the closing
NEXT of a loop included, is found where it was as long as the folded names stay.
-/

namespace CommodoreBasic

variable (ρ : Name → Name)

mutual

/-- The expression with its variables renamed. -/
def Expr.rename : Expr → Expr
  | .literal v => .literal v
  | .scalar n => .scalar (ρ n)
  | .element n es => .element (ρ n) (Expr.renameAll es)
  | .unary op e => .unary op e.rename
  | .binary op l r => .binary op l.rename r.rename
  | .comparison rel l r => .comparison rel l.rename r.rename
  | .call c es => .call c (Expr.renameAll es)

/-- The expressions with their variables renamed. -/
def Expr.renameAll : List Expr → List Expr
  | [] => []
  | e :: es => e.rename :: Expr.renameAll es

end

/-- The target with its variables renamed. -/
def Target.rename : Target → Target
  | .scalar n => .scalar (ρ n)
  | .element n es => .element (ρ n) (Expr.renameAll ρ es)

/-- The statement with its variables renamed. -/
def Statement.rename : Statement → Statement
  | .assign t e => .assign (t.rename ρ) (e.rename ρ)
  | .define f parameter body => .define f (ρ parameter) (body.rename ρ)
  | .dimension arrays => .dimension (arrays.map fun (n, es) => (ρ n, Expr.renameAll ρ es))
  | .loop counter start limit step =>
    .loop (ρ counter) (start.rename ρ) (limit.rename ρ) (step.map (Expr.rename ρ))
  | .ifThen condition s => .ifThen (condition.rename ρ) s.rename
  | .input prompt targets => .input prompt (targets.map (Target.rename ρ))
  | .next counter => .next (counter.map ρ)
  | .on selector j lines => .on (selector.rename ρ) j lines
  | .print items newline => .print (Expr.renameAll ρ items) newline
  | .read targets => .read (targets.map (Target.rename ρ))
  | s => s

/-- The line with its variables renamed. -/
def Line.rename (l : Line) : Line := { l with statements := l.statements.map (Statement.rename ρ) }

/-- The program with its variables renamed. -/
def Program.rename (p : Program) : Program := { lines := p.lines.map (Line.rename ρ) }

/-- The request with its variables renamed. -/
def Request.rename {a : Answer} : Request a → Request a
  | .fetch n => .fetch (ρ n)
  | .store n v => .store (ρ n) v
  | .dimension n sizes => .dimension (ρ n) sizes
  | .fetchElement n subscripts => .fetchElement (ρ n) subscripts
  | .storeElement n subscripts v => .storeElement (ρ n) subscripts v
  | .beginLoop counter start limit step => .beginLoop (ρ counter) start limit step
  | .nextLoop counter => .nextLoop (counter.map ρ)
  | .define f parameter body => .define f (ρ parameter) (body.rename ρ)
  | r => r

/-- The handler that renames each request before `h` sees it. -/
def Handler.renamed {σ : Type} (h : Handler σ) : Handler σ := fun a r => h a (r.rename ρ)

section Names

mutual

/-- The names of the variables in an expression. -/
def Expr.names : Expr → List Name
  | .literal _ => []
  | .scalar n => [n]
  | .element n es => n :: Expr.namesOfAll es
  | .unary _ e => e.names
  | .binary _ l r | .comparison _ l r => l.names ++ r.names
  | .call _ es => Expr.namesOfAll es

/-- The names of the variables in expressions. -/
def Expr.namesOfAll : List Expr → List Name
  | [] => []
  | e :: es => e.names ++ Expr.namesOfAll es

end

/-- The names of the variables in a target. -/
def Target.names : Target → List Name
  | .scalar n => [n]
  | .element n es => n :: Expr.namesOfAll es

/-- The names of the variables in a statement: scalars, arrays, counters and parameters. -/
def Statement.names : Statement → List Name
  | .assign t e => t.names ++ e.names
  | .define _ parameter body => parameter :: body.names
  | .dimension arrays => arrays.flatMap fun (n, es) => n :: Expr.namesOfAll es
  | .loop counter start limit step =>
    counter :: (start.names ++ limit.names ++ (step.map Expr.names).getD [])
  | .ifThen condition s => condition.names ++ s.names
  | .input _ targets | .read targets => targets.flatMap Target.names
  | .next counter => counter.toList
  | .on selector _ _ => selector.names
  | .print items _ => Expr.namesOfAll items
  | _ => []

/-- The names of the variables in a program. -/
def Program.names (p : Program) : List Name :=
  p.lines.flatMap fun l => l.statements.flatMap Statement.names

end Names

variable {ρ}

section Congruence

variable {ρ' : Name → Name}

mutual

/-- A renaming matters only at the names that occur. -/
theorem Expr.rename_congr (e : Expr) (hnames : ∀ n ∈ e.names, ρ n = ρ' n) :
    e.rename ρ = e.rename ρ' := by
  match e with
  | .literal v => rfl
  | .scalar n => simp only [Expr.rename, hnames n (by simp [Expr.names])]
  | .element n es =>
    simp only [Expr.names, List.mem_cons, forall_eq_or_imp] at hnames
    simp only [Expr.rename, hnames.1, Expr.renameAll_congr es hnames.2]
  | .unary op e =>
    simp only [Expr.rename, Expr.rename_congr e (by simpa only [Expr.names] using hnames)]
  | .binary op l r =>
    simp only [Expr.names, List.mem_append] at hnames
    simp only [Expr.rename, Expr.rename_congr l fun n hn => hnames n (.inl hn),
      Expr.rename_congr r fun n hn => hnames n (.inr hn)]
  | .comparison rel l r =>
    simp only [Expr.names, List.mem_append] at hnames
    simp only [Expr.rename, Expr.rename_congr l fun n hn => hnames n (.inl hn),
      Expr.rename_congr r fun n hn => hnames n (.inr hn)]
  | .call c es =>
    simp only [Expr.rename, Expr.renameAll_congr es (by simpa only [Expr.names] using hnames)]

/-- The same of a list of expressions. -/
theorem Expr.renameAll_congr (es : List Expr) (hnames : ∀ n ∈ Expr.namesOfAll es, ρ n = ρ' n) :
    Expr.renameAll ρ es = Expr.renameAll ρ' es := by
  match es with
  | [] => rfl
  | e :: es =>
    simp only [Expr.namesOfAll, List.mem_append] at hnames
    simp only [Expr.renameAll, Expr.rename_congr e fun n hn => hnames n (.inl hn),
      Expr.renameAll_congr es fun n hn => hnames n (.inr hn)]

end

/-- The same of a target. -/
theorem Target.rename_congr (t : Target) (hnames : ∀ n ∈ t.names, ρ n = ρ' n) :
    t.rename ρ = t.rename ρ' := by
  cases t with
  | scalar n => simp only [Target.rename, hnames n (by simp [Target.names])]
  | element n es =>
    simp only [Target.names, List.mem_cons, forall_eq_or_imp] at hnames
    simp only [Target.rename, hnames.1, Expr.renameAll_congr es hnames.2]

/-- The same of a list of targets. -/
private theorem targets_rename_congr (ts : List Target)
    (hnames : ∀ n ∈ ts.flatMap Target.names, ρ n = ρ' n) :
    ts.map (Target.rename ρ) = ts.map (Target.rename ρ') := by
  refine List.map_congr_left fun t ht => Target.rename_congr t fun n hn => hnames n ?_
  exact List.mem_flatMap.mpr ⟨t, ht, hn⟩

/-- The same of a statement. -/
theorem Statement.rename_congr (s : Statement) (hnames : ∀ n ∈ s.names, ρ n = ρ' n) :
    s.rename ρ = s.rename ρ' := by
  induction s with
  | assign t e =>
    simp only [Statement.names, List.mem_append] at hnames
    simp only [Statement.rename, Target.rename_congr t fun n hn => hnames n (.inl hn),
      Expr.rename_congr e fun n hn => hnames n (.inr hn)]
  | define f parameter body =>
    simp only [Statement.names, List.mem_cons, forall_eq_or_imp] at hnames
    simp only [Statement.rename, hnames.1, Expr.rename_congr body hnames.2]
  | dimension arrays =>
    simp only [Statement.rename, Statement.dimension.injEq]
    refine List.map_congr_left fun ⟨n, es⟩ hmem => ?_
    have harray : ∀ m ∈ n :: Expr.namesOfAll es, ρ m = ρ' m := fun m hm =>
      hnames m (List.mem_flatMap.mpr ⟨(n, es), hmem, hm⟩)
    simp only [List.mem_cons, forall_eq_or_imp] at harray
    simp only [harray.1, Expr.renameAll_congr es harray.2]
  | loop counter start limit step =>
    simp only [Statement.names, List.mem_cons, List.mem_append, forall_eq_or_imp] at hnames
    obtain ⟨hcounter, hrest⟩ := hnames
    have hstep : step.map (Expr.rename ρ) = step.map (Expr.rename ρ') := by
      cases step with
      | none => rfl
      | some e =>
        exact congrArg some (Expr.rename_congr e fun n hn => hrest n (.inr (by simpa using hn)))
    simp only [Statement.rename, hcounter, hstep,
      Expr.rename_congr start fun n hn => hrest n (.inl (.inl hn)),
      Expr.rename_congr limit fun n hn => hrest n (.inl (.inr hn))]
  | ifThen condition s ih =>
    simp only [Statement.names, List.mem_append] at hnames
    simp only [Statement.rename, Expr.rename_congr condition fun n hn => hnames n (.inl hn),
      ih fun n hn => hnames n (.inr hn)]
  | input prompt targets =>
    simp only [Statement.rename, targets_rename_congr targets hnames]
  | next counter =>
    cases counter with
    | none => rfl
    | some n => simp only [Statement.rename, Option.map_some, hnames n (by simp [Statement.names])]
  | on selector j lines =>
    simp only [Statement.rename, Expr.rename_congr selector hnames]
  | print items newline =>
    simp only [Statement.rename, Expr.renameAll_congr items hnames]
  | read targets =>
    simp only [Statement.rename, targets_rename_congr targets hnames]
  | _ => rfl

/-- The same of a program. -/
theorem Program.rename_congr (p : Program) (hnames : ∀ n ∈ p.names, ρ n = ρ' n) :
    p.rename ρ = p.rename ρ' := by
  simp only [Program.rename, Program.mk.injEq]
  refine List.map_congr_left fun l hl => ?_
  simp only [Line.rename, Line.mk.injEq, true_and]
  refine List.map_congr_left fun s hs => Statement.rename_congr s fun n hn => hnames n ?_
  exact List.mem_flatMap.mpr ⟨l, hl, List.mem_flatMap.mpr ⟨s, hs, hn⟩⟩

end Congruence

section Identity

mutual

/-- An expression whose names all stay is the same. -/
theorem Expr.rename_id (e : Expr) : e.rename id = e := by
  match e with
  | .literal v => rfl
  | .scalar n => rfl
  | .element n es => simp only [Expr.rename, Expr.renameAll_id es, id_eq]
  | .unary op e => simp only [Expr.rename, Expr.rename_id e]
  | .binary op l r => simp only [Expr.rename, Expr.rename_id l, Expr.rename_id r]
  | .comparison rel l r => simp only [Expr.rename, Expr.rename_id l, Expr.rename_id r]
  | .call c es => simp only [Expr.rename, Expr.renameAll_id es]

/-- So is a list of expressions. -/
theorem Expr.renameAll_id (es : List Expr) : Expr.renameAll id es = es := by
  match es with
  | [] => rfl
  | e :: es => simp only [Expr.renameAll, Expr.rename_id e, Expr.renameAll_id es]

end

/-- So is a request. -/
theorem Request.rename_id {a : Answer} (r : Request a) : r.rename id = r := by
  cases r <;> simp only [Request.rename, Expr.rename_id, Option.map_id, id_eq]

/-- So is a target. -/
theorem Target.rename_id (t : Target) : t.rename id = t := by
  cases t <;> simp only [Target.rename, Expr.renameAll_id, id_eq]

/-- So is a statement. -/
theorem Statement.rename_id (s : Statement) : s.rename id = s := by
  have htarget : Target.rename id = id := funext Target.rename_id
  induction s with
  | dimension arrays =>
    simp only [Statement.rename, Expr.renameAll_id, id_eq, Statement.dimension.injEq]
    exact List.map_id' arrays
  | loop counter start limit step =>
    cases step <;>
      simp only [Statement.rename, Expr.rename_id, Option.map_some, Option.map_none, id_eq]
  | ifThen condition s ih => simp only [Statement.rename, Expr.rename_id, ih]
  | _ =>
    simp only [Statement.rename, htarget, Expr.rename_id, Expr.renameAll_id, List.map_id,
      Option.map_id, id_eq]

/-- So is a line. -/
theorem Line.rename_id (l : Line) : l.rename id = l := by
  have hstatement : Statement.rename id = id := funext Statement.rename_id
  simp only [Line.rename, hstatement, List.map_id]

/-- So is a program. -/
theorem Program.rename_id (p : Program) : p.rename id = p := by
  have hline : Line.rename id = id := funext Line.rename_id
  simp only [Program.rename, hline, List.map_id]

end Identity

section Requests

variable {σ : Type} (h : Handler σ)

mutual

/-- A renamed expression is evaluated like the original with its requests renamed. -/
theorem Expr.eval_rename (e : Expr) : (e.rename ρ).eval h = e.eval (h.renamed ρ) := by
  match e with
  | .literal v => rfl
  | .scalar n => rfl
  | .element n es => simp only [Expr.rename, Expr.eval, Expr.evalAll_rename es]; rfl
  | .unary op e => simp only [Expr.rename, Expr.eval, Expr.eval_rename e]
  | .binary op l r => simp only [Expr.rename, Expr.eval, Expr.eval_rename l, Expr.eval_rename r]
  | .comparison rel l r =>
    simp only [Expr.rename, Expr.eval, Expr.eval_rename l, Expr.eval_rename r]
  | .call c es => simp only [Expr.rename, Expr.eval, Expr.evalAll_rename es]; rfl

/-- The same of a list of expressions. -/
theorem Expr.evalAll_rename (es : List Expr) :
    Expr.evalAll h (Expr.renameAll ρ es) = Expr.evalAll (h.renamed ρ) es := by
  match es with
  | [] => rfl
  | e :: es =>
    simp only [Expr.renameAll, Expr.evalAll, Expr.eval_rename e, Expr.evalAll_rename es]

end

/-- The same of an expression whose value must be a number. -/
theorem Expr.evalNumber_rename (e : Expr) :
    (e.rename ρ).evalNumber h = e.evalNumber (h.renamed ρ) := by
  simp only [Expr.evalNumber, Expr.eval_rename]

/-- A renamed target is stored in as a handler that renames would store in it. -/
theorem Target.store_rename (v : Value) (t : Target) :
    (t.rename ρ).store h v = t.store (h.renamed ρ) v := by
  cases t with
  | scalar n => rfl
  | element n es => simp only [Target.rename, Target.store, Expr.evalAll_rename]; rfl

/-- So are renamed targets. -/
theorem Target.storeAll_rename (ts : List Target) (vs : List Value) :
    Target.storeAll h (ts.map (Target.rename ρ)) vs = Target.storeAll (h.renamed ρ) ts vs := by
  induction ts generalizing vs with
  | nil => rfl
  | cons t ts ih =>
    cases vs with
    | nil => rfl
    | cons v vs => simp only [List.map_cons, Target.storeAll, Target.store_rename, ih]

/-- The items of PRINT come to the same. -/
theorem printFrom_rename (newline : Bool) (items : List Expr) (text : String)
    (previous : Option Piece) :
    printFrom h newline text previous (Expr.renameAll ρ items) =
      printFrom (h.renamed ρ) newline text previous items := by
  induction items generalizing text previous with
  | nil => rfl
  | cons e es ih => simp only [Expr.renameAll, printFrom, Expr.eval_rename, ih]; rfl

/-- INPUT sees of a target whether it holds text. -/
theorem Field.valuesFor?_rename (htext : ∀ n, (ρ n).isText = n.isText) (ts : List Target)
    (fs : List Field) :
    Field.valuesFor? (ts.map (Target.rename ρ)) fs = Field.valuesFor? ts fs := by
  have hname (t : Target) : (t.rename ρ).name.isText = t.name.isText := by
    cases t <;> exact htext _
  induction ts generalizing fs with
  | nil => rfl
  | cons t ts ih =>
    cases fs with
    | nil => rfl
    | cons f fs =>
      simp only [List.map_cons, Field.valuesFor?, Field.valueFor?, hname, ih]

/-- INPUT comes to the same if types are kept. -/
theorem inputFrom_rename (htext : ∀ n, (ρ n).isText = n.isText) (targets : List Target)
    (first : String) (patience : Nat) (asked : String) (fields : List Field) :
    inputFrom h (targets.map (Target.rename ρ)) first patience asked fields =
      inputFrom (h.renamed ρ) targets first patience asked fields := by
  induction patience generalizing asked fields with
  | zero => rfl
  | succ patience ih =>
    simp only [inputFrom, List.length_map, Field.valuesFor?_rename htext, Target.storeAll_rename, ih]
    rfl

/-- A renamed statement is carried out like the original with its requests renamed. -/
theorem Statement.exec_rename (htext : ∀ n, (ρ n).isText = n.isText) (s : Statement)
    (patience : Nat) : (s.rename ρ).exec h patience = s.exec (h.renamed ρ) patience := by
  induction s with
  | assign t e =>
    cases t with
    | scalar n => simp only [Statement.rename, Target.rename, Statement.exec, Expr.eval_rename]; rfl
    | element n es =>
      simp only [Statement.rename, Target.rename, Statement.exec, Expr.eval_rename,
        Expr.evalAll_rename]
      rfl
  | dimension arrays =>
    simp only [Statement.rename, Statement.exec, List.forM_eq_forM, List.forM_map,
      Expr.evalAll_rename]
    rfl
  | loop counter start limit step =>
    cases step <;>
      simp only [Statement.rename, Statement.exec, Expr.evalNumber_rename, Option.map_some,
        Option.map_none] <;> rfl
  | ifThen condition s ih => simp only [Statement.rename, Statement.exec, Expr.eval_rename, ih]; rfl
  | input prompt targets =>
    cases targets with
    | nil => rfl
    | cons t ts => exact inputFrom_rename h htext (t :: ts) _ patience _ []
  | on selector j lines =>
    simp only [Statement.rename, Statement.exec, Expr.evalNumber_rename]
    rfl
  | print items newline => exact printFrom_rename h newline items "" none
  | read targets =>
    simp only [Statement.rename, Statement.exec, List.forM_eq_forM, List.forM_map,
      Target.store_rename]
    rfl
  | _ => rfl

end Requests

section Text

/-- Names do not matter to IFs. -/
theorem Statement.stripIfs_rename (s : Statement) :
    (s.rename ρ).stripIfs = s.stripIfs.rename ρ := by
  induction s with
  | ifThen condition s ih => exact ih
  | _ => rfl

/-- Nor to the items of DATA. -/
theorem Statement.dataItems_rename (s : Statement) : (s.rename ρ).dataItems = s.dataItems := by
  induction s with
  | ifThen condition s ih => exact ih
  | _ => rfl

/-- Nor to those of a line. -/
theorem Line.dataItems_rename (l : Line) : (l.rename ρ).dataItems = l.dataItems := by
  simp only [Line.dataItems, Line.rename, List.flatMap_map, Statement.dataItems_rename]

/-- Nor to those of a program. -/
theorem DataPool.ofProgram_rename (p : Program) : ofProgram (p.rename ρ) = ofProgram p := by
  have hstarts (count : Nat) (lines : List Line) :
      startsFrom count (lines.map (Line.rename ρ)) = startsFrom count lines := by
    induction lines generalizing count with
    | nil => rfl
    | cons l lines ih =>
      simp only [List.map_cons, startsFrom, Line.dataItems_rename, ih]
      rfl
  simp only [ofProgram, Program.dataItems, Program.rename, hstarts, List.flatMap_map,
    Line.dataItems_rename]

namespace Program

/-- The statement at a position is the renamed one. -/
theorem at?_rename (p : Program) (pos : Position) :
    (p.rename ρ).at? pos = (p.at? pos).map fun (line, s) => (line.rename ρ, s.rename ρ) := by
  simp only [at?, rename, List.getElem?_map]
  cases p.lines[pos.line]? with
  | none => rfl
  | some line =>
    simp only [Option.map_some, Option.bind_eq_bind, Option.bind_some, Line.rename,
      List.getElem?_map]
    cases line.statements[pos.statement]? <;> rfl

/-- Names do not matter to where the next statement is. -/
theorem settle_rename (p : Program) (pos : Position) :
    (p.rename ρ).settle pos = p.settle pos := by
  have hlines (line statement : Nat) (lines : List Line) :
      settleIn line statement (lines.map (Line.rename ρ)) = settleIn line statement lines := by
    induction lines generalizing line statement with
    | nil => rfl
    | cons l lines ih => simp only [List.map_cons, settleIn, Line.rename, List.length_map, ih]
  simp only [settle, rename, ← List.map_drop, hlines]

/-- Nor to where a line is. -/
theorem indexOf?_rename (p : Program) (n : LineNumber) :
    (p.rename ρ).indexOf? n = p.indexOf? n := by
  simp only [indexOf?, rename, List.findIdx?_map]
  rfl

/-- The renamed statements stand at the same positions. -/
theorem flatten_rename (p : Program) :
    (p.rename ρ).flatten = p.flatten.map fun x => (x.1, x.2.rename ρ) := by
  simp only [flatten, rename, List.zipIdx_map, List.flatMap_map, List.map_flatMap, List.map_map]
  refine congrArg (List.flatMap · p.lines.zipIdx) (funext fun x => ?_)
  obtain ⟨line, i⟩ := x
  simp only [Prod.map, Line.rename, List.zipIdx_map, List.map_map]
  refine List.map_congr_left fun x _ => ?_
  obtain ⟨s, j⟩ := x
  simp only [Function.comp, Prod.map, id_eq, Statement.stripIfs_rename]

/-- The NEXT that closes a loop is found by folded names. -/
theorem closingNext?_rename (hfold : ∀ n, (ρ n).fold = n.fold) (counter : Name) (depth : Nat)
    (rest : List (Position × Statement)) :
    closingNext? counter depth (rest.map fun x => (x.1, x.2.rename ρ)) =
      closingNext? counter depth rest := by
  induction rest generalizing depth with
  | nil => rfl
  | cons head rest ih =>
    obtain ⟨pos, s⟩ := head
    rw [List.map_cons]
    cases s with
    | next n =>
      cases n with
      | none =>
        cases depth with
        | zero => rfl
        | succ depth => exact ih depth
      | some n => simp only [Statement.rename, Option.map_some, closingNext?, hfold, ih]
    | _ => exact ih _

/-- A loop ends at the same NEXT if names fold as before. -/
theorem loopExit?_rename (hfold : ∀ n, (ρ n).fold = n.fold) (p : Program) (pos : Position) :
    (p.rename ρ).loopExit? pos = p.loopExit? pos := by
  unfold loopExit?
  rw [flatten_rename, List.dropWhile_map]
  have hcomp : ((fun x : Position × Statement => x.1 != pos) ∘
      fun x : Position × Statement => (x.1, x.2.rename ρ)) = fun x => x.1 != pos := rfl
  rw [hcomp]
  cases p.flatten.dropWhile (·.1 != pos) with
  | nil => rfl
  | cons head rest =>
    obtain ⟨pos', s⟩ := head
    cases s with
    | loop counter a b step =>
      simp only [List.map_cons, Statement.rename, hfold, closingNext?_rename hfold]
    | _ => rfl

end Program

end Text

end CommodoreBasic
