import CommodoreBasic.Program
import CommodoreBasic.Proofs.ComparedStatements

/-!
# The constants of a program are finite

Numerals that are too great are errors where an expression is read, and text where DATA is read. So every
constant in the syntax tree of a program that could be read is finite. Nodes are safe if no constant
among them is infinite, and being safe is inherited from the parts of what is read by the whole.
-/

namespace CommodoreBasic

/-- What the computation gives, if it does not fail, has the property. -/
def IfOk {α : Type} (Q : α → Prop) : Except Error α → Prop
  | .ok a => Q a
  | .error _ => True

namespace IfOk

variable {α β : Type} {Q : α → Prop} {R : β → Prop} {x : Except Error α}

/-- What follows may use what is known of the value. -/
theorem bind {f : α → Except Error β} (hx : IfOk Q x) (hf : ∀ a, Q a → IfOk R (f a)) :
    IfOk R (x >>= f) := by
  cases x with
  | error e => trivial
  | ok a => exact hf a hx

/-- A value that has the property is given. -/
theorem pure {a : α} (h : Q a) : IfOk Q (pure a) := h

/-- Whatever comes first, the rest decides. -/
theorem after {f : α → Except Error β} (hf : ∀ a, IfOk R (f a)) : IfOk R (x >>= f) := by
  cases x with
  | error e => trivial
  | ok a => exact hf a

/-- It may be used what the computation is. -/
theorem intro (h : ∀ a, x = .ok a → Q a) : IfOk Q x := by
  cases x with
  | error e => trivial
  | ok a => exact h a rfl

/-- A list of computations gives a list of values with the property. -/
theorem mapM {f : α → Except Error β} (as : List α) (hf : ∀ a ∈ as, IfOk R (f a)) :
    IfOk (fun bs => ∀ b ∈ bs, R b) (as.mapM f) := by
  induction as with
  | nil => exact List.forall_mem_nil R
  | cons a as ih =>
    rw [List.mapM_cons]
    refine bind (hf a List.mem_cons_self) fun b hb => ?_
    refine bind (ih fun c hc => hf c (List.mem_cons_of_mem a hc)) fun bs hbs => ?_
    exact List.forall_mem_cons.mpr ⟨hb, hbs⟩

end IfOk

/-- The value is text or a finite number. -/
def Value.isFinite : Value → Bool
  | .number x => x.isFinite
  | .text _ => true

/-- A finite number is a finite value. -/
theorem Value.isFinite_number {x : Float} (h : x.isFinite = true) : (number x).isFinite = true := h

/-- The node is no constant, or it is a finite one. -/
def Node.Safe : Node → Prop
  | .expression (.literal v) => v.isFinite = true
  | _ => True

/-- All constants among the nodes are finite. -/
def AllSafe (ns : List Node) : Prop := ∀ n ∈ ns, n.Safe

/-- No nodes are safe. -/
@[simp] theorem allSafe_nil : AllSafe [] := List.forall_mem_nil _

/-- Nodes are safe if the first is and the others are. -/
@[simp] theorem allSafe_cons {n : Node} {ns : List Node} :
    AllSafe (n :: ns) ↔ n.Safe ∧ AllSafe ns := List.forall_mem_cons

/-- Two rows of nodes are safe together if each is. -/
@[simp] theorem allSafe_append {ns ns' : List Node} :
    AllSafe (ns ++ ns') ↔ AllSafe ns ∧ AllSafe ns' := List.forall_mem_append

/-- A node that is no constant may come after others. -/
theorem allSafe_snoc {ns : List Node} {n : Node} (hn : n.Safe) :
    AllSafe (ns ++ [n]) ↔ AllSafe ns := by
  rw [allSafe_append, allSafe_cons]
  exact and_iff_left ⟨hn, allSafe_nil⟩

/-- Rows of nodes are safe one after the other if each is. -/
@[simp] theorem allSafe_flatMap {α : Type} {f : α → List Node} {as : List α} :
    AllSafe (as.flatMap f) ↔ ∀ a ∈ as, AllSafe (f a) := by
  constructor
  · exact fun h a ha n hn => h n (List.mem_flatMap.mpr ⟨a, ha, hn⟩)
  · intro h n hn
    obtain ⟨a, ha, hn⟩ := List.mem_flatMap.mp hn
    exact h a ha n hn

/-- The nodes of an expression are those of its operands, and then the expression itself. -/
theorem Expr.nodes_eq (e : Expr) : e.nodes = nodesOfAll e.operands ++ [.expression e] := by
  cases e <;> simp [nodes, operands, nodesOfAll]

/-- The nodes of a target are those of its subscripts, and then the target itself. -/
theorem Target.nodes_eq (t : Target) : t.nodes = Expr.nodesOfAll t.subscripts ++ [.target t] := by
  cases t with
  | scalar n => rfl
  | element n es => rfl

/-- Expressions are safe together if each of them is. -/
@[simp] theorem Expr.allSafe_nodesOfAll {es : List Expr} :
    AllSafe (nodesOfAll es) ↔ ∀ e ∈ es, AllSafe e.nodes := by
  induction es with
  | nil => simp [nodesOfAll]
  | cons e es ih => simp [nodesOfAll, ih]

/-- A constant is safe if it is finite. -/
theorem Expr.allSafe_literal {v : Value} : AllSafe (literal v).nodes ↔ v.isFinite = true :=
  List.forall_mem_singleton

/-! ## Constants that are read -/

/-- The constants of DATA are finite. -/
theorem Field.isFinite_constant (f : Field) : f.constant.isFinite = true := by
  cases f with
  | quoted s => rfl
  | bare s =>
    rw [constant]
    split
    · next x h => exact (Option.filter_eq_some_iff.mp h).2
    · rfl

namespace Expr

/-- A numeral that is too great is refused. -/
theorem allSafe_ofNumeral {s : String} {e : Expr} (h : ofNumeral s = .ok e) : AllSafe e.nodes := by
  rw [ofNumeral] at h
  split at h
  · split at h
    · next hfinite =>
      cases h
      exact allSafe_literal.mpr hfinite
    · cases h
  · cases h

/-- An expression that is no constant is safe if its operands are. -/
theorem allSafe_of_operands {e : Expr} (hliteral : ∀ v, e ≠ literal v)
    (h : ∀ d ∈ e.operands, AllSafe d.nodes) : AllSafe e.nodes := by
  have hsafe : (Node.expression e).Safe := by
    cases e with
    | literal v => exact absurd rfl (hliteral v)
    | _ => trivial
  rw [nodes_eq, allSafe_snoc hsafe]
  exact allSafe_nodesOfAll.mpr h

end Expr

/-- A target is safe exactly if its subscripts are. -/
theorem Target.allSafe_iff {t : Target} :
    AllSafe t.nodes ↔ ∀ e ∈ t.subscripts, AllSafe e.nodes := by
  rw [nodes_eq, allSafe_snoc (n := .target t) trivial, Expr.allSafe_nodesOfAll]

namespace Statement

/-- A statement comes after the nodes of its parts. -/
theorem allSafe_nodes {ns : List Node} (h : AllSafe ns) (s : Statement) :
    AllSafe (ns ++ [.statement s]) := (allSafe_snoc (n := .statement s) trivial).mpr h

/-- The items of DATA that has been read are safe. -/
theorem allSafe_data {ts : List Token} {items : List Value} (hread : (data items).ReadFrom ts) :
    AllSafe (data items).nodes := by
  have hitems : ∀ v ∈ items, v.isFinite = true := by
    rcases hread with rfl | ⟨raw, -, rfl⟩
    · exact List.forall_mem_singleton.mpr rfl
    · intro v hv
      obtain ⟨field, -, rfl⟩ := List.mem_map.mp hv
      exact field.isFinite_constant
  refine allSafe_nodes (fun n hn => ?_) _
  obtain ⟨v, hv, rfl⟩ := List.mem_map.mp hn
  exact hitems v hv

/-- A statement that has been read is safe if its parts are. -/
theorem allSafe_of_parts {ts : List Token} {s : Statement} (hread : s.ReadFrom ts)
    (hexpressions : ∀ e ∈ s.expressions, AllSafe e.nodes)
    (htargets : ∀ t ∈ s.targets, AllSafe t.nodes)
    (hconsequent : ∀ s' ∈ s.consequent?, AllSafe s'.nodes) : AllSafe s.nodes := by
  cases s with
  | assign t e =>
    have he := hexpressions e List.mem_cons_self
    have ht := htargets t List.mem_cons_self
    cases t with
    | scalar n => exact allSafe_nodes he _
    | element n es =>
      have hes := Expr.allSafe_nodesOfAll.mpr (Target.allSafe_iff.mp ht)
      exact allSafe_nodes (allSafe_append.mpr ⟨hes, he⟩) _
  | data items => exact allSafe_data hread
  | define f parameter body => exact allSafe_nodes (hexpressions body List.mem_cons_self) _
  | dimension arrays =>
    refine allSafe_nodes (allSafe_flatMap.mpr fun a ha => ?_) _
    exact htargets _ (List.mem_map_of_mem ha)
  | loop counter start limit step =>
    obtain ⟨hstart, hrest⟩ := List.forall_mem_cons.mp hexpressions
    obtain ⟨hlimit, hstep⟩ := List.forall_mem_cons.mp hrest
    refine allSafe_nodes (allSafe_append.mpr ⟨allSafe_append.mpr ⟨hstart, hlimit⟩, ?_⟩) _
    cases step with
    | none => exact allSafe_nil
    | some e => exact hstep e List.mem_cons_self
  | ifThen condition s =>
    exact allSafe_nodes (allSafe_append.mpr
      ⟨hexpressions condition List.mem_cons_self, hconsequent s rfl⟩) _
  | input prompt targets | read targets =>
    exact allSafe_nodes (allSafe_flatMap.mpr htargets) _
  | on selector j lines => exact allSafe_nodes (hexpressions selector List.mem_cons_self) _
  | print items newline => exact allSafe_nodes (Expr.allSafe_nodesOfAll.mpr hexpressions) _
  | _ => exact allSafe_nodes allSafe_nil _

/-- Whatever the tokens are, what is read from them is safe. -/
theorem inherited_allSafe (ts : List Token) :
    Inherited ts (fun e => AllSafe e.nodes) (fun t => AllSafe t.nodes) fun s => AllSafe s.nodes where
  text _ := Expr.allSafe_literal.mpr rfl
  numeral := Expr.allSafe_ofNumeral
  expr := Expr.allSafe_of_operands
  target _ := Target.allSafe_iff.mpr
  statement := allSafe_of_parts

/-- The statements of a line that could be read are safe. -/
theorem safe_parseAll (ts : List Token) :
    IfOk (fun ss => ∀ s ∈ ss, AllSafe s.nodes) (parseAll ts) :=
  .intro fun _ hparse => (inherited_allSafe _).of_parseParts (Nat.le_succ _) hparse

end Statement

/-- The statements of a line are what its tokens are read as. -/
theorem Line.parseAll_of_parse {text : String} {line : Line} (h : Line.parse text = .ok line) :
    Statement.parseAll (Token.scanLine text.toList).tokens = .ok line.statements := by
  rw [Line.parse, Statement.parseText] at h
  cases hnumber : (Token.scanLine text.toList).number with
  | none =>
    rw [hnumber] at h
    cases h
  | some number =>
    rw [hnumber] at h
    cases hparse : Statement.parseAll (Token.scanLine text.toList).tokens with
    | error e =>
      rw [hparse] at h
      cases h
    | ok ss =>
      rw [hparse] at h
      cases h
      rfl

/-- A numbered line whose tokens are read as statements. -/
theorem Line.parse_of_parseAll {text : String} {number : LineNumber} {ts : List Token}
    {ss : List Statement} (hnumber : (Token.scanLine text.toList).number = some number)
    (htokens : (Token.scanLine text.toList).tokens = ts) (h : Statement.parseAll ts = .ok ss) :
    Line.parse text = .ok { number, statements := ss } := by
  rw [Line.parse, Statement.parseText, hnumber, htokens, h]
  rfl

/-- The statements of a line that could be read are safe. -/
theorem Line.safe_parse (text : String) :
    IfOk (fun line => ∀ s ∈ line.statements, AllSafe s.nodes) (Line.parse text) := by
  refine .intro fun line hline => ?_
  have hall := Statement.safe_parseAll (Token.scanLine text.toList).tokens
  rw [Line.parseAll_of_parse hline] at hall
  exact hall

/-- Every constant of a program that could be read is finite. -/
theorem Program.safe_parse (source : String) :
    IfOk (fun p => ∀ line ∈ p.lines, ∀ s ∈ line.statements, AllSafe s.nodes)
      (Program.parse source) := by
  rw [Program.parse]
  exact (IfOk.mapM _ fun cs _ => Line.safe_parse (String.ofList cs)).bind fun lines hlines => .pure hlines

end CommodoreBasic
