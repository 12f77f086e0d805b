import CommodoreBasic.Proofs.WrittenStatements
import CommodoreBasic.Statement.Nodes

/-!
# Readings side by side

What holds of the parser as a whole is shown here once, for two readings that are followed side by
side. The second reads what the first reads, with other numerals in some places and with more tokens
behind. Both take the same way: they give the same, or they fail alike, or the first fails in a way
that excuses the second. What they give is made of parts that have a property each.

A `ReadingPair` names all this. It is fair if numerals, ends and parts are as the parser needs them, and
then every parser respects it. Numerals that are refused, tokens behind a colon, the constants of a
program and the places that its statements come from are four pairs of this kind.

The tokens left over are counted along, since the fuel has to be enough for them.
-/

namespace CommodoreBasic

/-- What follows a statement is nothing, or begins with a colon. -/
theorem Closes.cases {more : List Token} (h : Closes more) :
    more = [] ∨ ∃ rest, more = .colon :: rest := by
  cases more with
  | nil => exact .inl rfl
  | cons t rest =>
    obtain rfl := h t rfl
    exact .inr ⟨rest, rfl⟩

/-- The end of a line closes a statement. -/
theorem closes_nil : Closes [] := by simp [Closes]

/-- So does a colon. -/
theorem closes_colon (rest : List Token) : Closes (.colon :: rest) := by simp [Closes]

/-- Where a statement may end an expression may end too. -/
theorem Closes.follows_zero {more : List Token} (h : Closes more) : Expr.Follows 0 more where
  notCall hhead := (h.follows _ hhead).1 rfl
  loose op _ hhead := absurd rfl ((h.follows _ hhead).2 op)

/-- The levels of operators count from one. -/
theorem Operator.level?_pos {op : Operator} {l : Nat} (h : op.level? = some l) : 0 < l := by
  cases op <;> simp only [level?, Option.some.injEq, reduceCtorEq] at h <;> omega

/-- Other complaints are told from that about a number. -/
theorem Error.complain_ne {k : Complaint} (h : k ≠ .invalidNumber) :
    complain k ≠ complain .invalidNumber := by
  cases k with
  | invalidNumber => exact absurd rfl h
  | _ => decide

/-- Two readings, and what is to be shown of them. -/
structure ReadingPair where
  /-- The tokens of the first reading. -/
  whole : List Token
  /-- What stands behind them in the second reading. -/
  more : List Token
  /-- A numeral of the first reading and the one in its place in the second. -/
  numerals : String → String → Prop
  /-- Errors with which both readings may fail. -/
  fails : Error → Error → Prop
  /-- Errors of the first reading after which the second is free. -/
  excuses : Error → Prop
  /-- What is to hold of the expressions that are read. -/
  expr : Expr → Prop
  /-- What is to hold of the targets that are read. -/
  target : Target → Prop
  /-- What is to hold of the statements that are read. -/
  statement : Statement → Prop

namespace ReadingPair

variable {c : ReadingPair}

/-- Tokens that both readings have come to at the same time. The first are an end of the whole, and the
second are the same but for the numerals, with more tokens behind. -/
inductive Paired (c : ReadingPair) : List Token → List Token → Prop where
  | done : Paired c [] c.more
  | token {t : Token} {ts us : List Token} (hwhole : t :: ts <:+ c.whole)
    (ht : ∀ s, t ≠ .numeral s) (h : Paired c ts us) : Paired c (t :: ts) (t :: us)
  | numeral {s s' : String} {ts us : List Token} (hwhole : .numeral s :: ts <:+ c.whole)
    (hs : c.numerals s s') (h : Paired c ts us) : Paired c (.numeral s :: ts) (.numeral s' :: us)

/-- How two computations end: with values that are related, with errors that go together, or the first
with an error that excuses the second. -/
inductive Outcome (c : ReadingPair) {α β : Type} (R : α → β → Prop) :
    Except Error α → Except Error β → Prop where
  | ok {a : α} {b : β} (h : R a b) : Outcome c R (.ok a) (.ok b)
  | error {e e' : Error} (h : c.fails e e') : Outcome c R (.error e) (.error e')
  | excused {e : Error} (h : c.excuses e) (y : Except Error β) : Outcome c R (.error e) y

/-- The same was read, with the property `Q`, and less than `n` tokens are left over. -/
structure SameRead (c : ReadingPair) {α : Type} (Q : α → Prop) (n : Nat) (r r' : α × List Token) :
    Prop where
  value : r.1 = r'.1
  holds : Q r.1
  length : r.2.length < n
  paired : c.Paired r.2 r'.2

/-- Two parsers end alike, as they do if they read the same. -/
abbrev Reads (c : ReadingPair) {α : Type} (Q : α → Prop) (n : Nat)
    (x y : Except Error (α × List Token)) : Prop := c.Outcome (c.SameRead Q n) x y

/-- What the parser of expressions needs of two readings. -/
structure Fair (c : ReadingPair) : Prop where
  /-- What stands behind the tokens does not continue an expression. -/
  follows : Expr.Follows 0 c.more
  /-- It supplies nothing that an expression lacks, unless failures do not matter. -/
  ends : Closes c.more ∨ ∀ e, c.excuses e
  /-- Only the complaint about a number has to be looked at. -/
  same {e : Error} (he : e ≠ .complain .invalidNumber) : c.fails e e
  /-- Numerals in the same place have the same value. -/
  numeral {s s' : String} (hs : c.numerals s s') :
    c.Outcome (fun e e' => e = e' ∧ c.expr e) (Expr.ofNumeral s) (Expr.ofNumeral s')
  text (s : String) : c.expr (.literal (.text s))
  /-- The property of expressions holds of the whole if it holds of its parts. -/
  expr {e : Expr} (hliteral : ∀ v, e ≠ .literal v) (h : ∀ d ∈ e.operands, c.expr d) : c.expr e

/-! ## Tokens that go together -/

namespace Paired

variable {ts us : List Token}

/-- The tokens of the first reading are an end of the whole. -/
theorem suffix (h : c.Paired ts us) : ts <:+ c.whole := by
  cases h with
  | done => exact List.nil_suffix
  | token hwhole => exact hwhole
  | numeral hwhole => exact hwhole

/-- The second reading has only the tokens behind the whole in addition. -/
theorem length_eq (h : c.Paired ts us) : us.length = ts.length + c.more.length := by
  induction h with
  | done => exact (Nat.zero_add _).symm
  | token _ _ _ ih => rw [List.length_cons, List.length_cons, ih, Nat.add_right_comm]
  | numeral _ _ _ ih => rw [List.length_cons, List.length_cons, ih, Nat.add_right_comm]

/-- A token that is no numeral comes first in both or in none, unless it is found behind the whole. -/
theorem head?_eq_some_iff (h : c.Paired ts us) {t : Token} (ht : ∀ s, t ≠ .numeral s)
    (hmore : c.more.head? ≠ some t) : ts.head? = some t ↔ us.head? = some t := by
  cases h with
  | done => exact iff_of_false (by simp) hmore
  | token => rfl
  | numeral => simp [(ht _).symm]

end Paired

/-- With the same numerals the second reading is that of the tokens with more behind them. -/
theorem paired_append {ts : List Token} (hnumerals : ∀ s, .numeral s ∈ ts → c.numerals s s)
    (hsuffix : ts <:+ c.whole) : c.Paired ts (ts ++ c.more) := by
  induction ts with
  | nil => exact .done
  | cons t ts ih =>
    have ih := ih (fun s hs => hnumerals s (List.mem_cons_of_mem t hs))
      ((List.suffix_cons t ts).trans hsuffix)
    by_cases ht : ∃ s, t = .numeral s
    · obtain ⟨s, rfl⟩ := ht
      exact .numeral hsuffix (hnumerals s List.mem_cons_self) ih
    · exact .token hsuffix (fun s hs => ht ⟨s, hs⟩) ih

/-! ## Composition -/

namespace Outcome

variable {α β γ δ : Type} {R : α → β → Prop} {S : γ → δ → Prop} {Q : α → Prop} {P : γ → Prop}
  {n k : Nat}

/-- After a failure neither computation goes on, or it does not matter. -/
theorem bind {x : Except Error α} {y : Except Error β} {f : α → Except Error γ}
    {g : β → Except Error δ} (hxy : c.Outcome R x y) (hfg : ∀ a b, R a b → c.Outcome S (f a) (g b)) :
    c.Outcome S (x >>= f) (y >>= g) := by
  cases hxy with
  | ok h => exact hfg _ _ h
  | error h => exact .error h
  | excused h y => exact .excused h _

/-- What follows may depend on what the first parser has read. -/
theorem bindOk {x y : Except Error (α × List Token)} {f : α × List Token → Except Error γ}
    {g : α × List Token → Except Error δ} (hxy : c.Reads Q n x y)
    (hfg : ∀ a ts us, x = .ok (a, ts) → Q a → ts.length < n → c.Paired ts us →
      c.Outcome S (f (a, ts)) (g (a, us))) : c.Outcome S (x >>= f) (y >>= g) := by
  cases hxy with
  | @ok r r' h =>
    obtain ⟨a, ts⟩ := r
    obtain ⟨_, us⟩ := r'
    obtain ⟨rfl, ha, hlength, hpaired⟩ := h
    exact hfg a ts us rfl ha hlength hpaired
  | error h => exact .error h
  | excused h y => exact .excused h _

/-- A greater bound on what is left over. -/
theorem mono {x y : Except Error (α × List Token)} (hxy : c.Reads Q n x y) (hn : n ≤ k) :
    c.Reads Q k x y := by
  cases hxy with
  | ok h => exact .ok ⟨h.value, h.holds, Nat.lt_of_lt_of_le h.length hn, h.paired⟩
  | error h => exact .error h
  | excused h y => exact .excused h y

/-- What was read goes on with the tokens that are left over. -/
theorem andThen {x y : Except Error (α × List Token)}
    {f g : α × List Token → Except Error (γ × List Token)} (hxy : c.Reads Q n x y)
    (hfg : ∀ a ts us, Q a → c.Paired ts us → c.Reads P (ts.length + 1) (f (a, ts)) (g (a, us))) :
    c.Reads P n (x >>= f) (y >>= g) :=
  hxy.bindOk fun a ts us _ ha hlength hpaired => (hfg a ts us ha hpaired).mono hlength

/-- What has taken a token has left no more than there were. -/
theorem le {x y : Except Error (α × List Token)} (hxy : c.Reads Q n x y) : c.Reads Q (n + 1) x y :=
  hxy.mono (Nat.le_succ n)

/-- Nothing more is read. -/
theorem stop {a : α} (ha : Q a) {ts us : List Token} (h : c.Paired ts us) :
    c.Reads Q (ts.length + 1) (.ok (a, ts)) (.ok (a, us)) := .ok ⟨rfl, ha, Nat.lt_succ_self _, h⟩

/-- What the first parser has read the second has read too. -/
theorem of_ok {x y : Except Error (α × List Token)} (hxy : c.Reads Q n x y) {a : α} {ts : List Token}
    (hx : x = .ok (a, ts)) : Q a ∧ ∃ us, y = .ok (a, us) ∧ c.Paired ts us := by
  cases hxy with
  | @ok r r' h =>
    cases hx
    obtain ⟨_, us⟩ := r'
    obtain ⟨rfl, ha, -, hpaired⟩ := h
    exact ⟨ha, us, rfl, hpaired⟩
  | error => cases hx
  | excused => cases hx

end Outcome

namespace Fair

variable {α β : Type} {R : α → β → Prop} (hc : c.Fair)
include hc

/-- Both complain of the same. -/
theorem complain {k : Complaint} (hk : (k == .invalidNumber) = false) :
    c.Outcome R (.error (.complain k)) (.error (.complain k)) :=
  .error (hc.same (Error.complain_ne (beq_eq_false_iff_ne.mp hk)))

/-- The first complains at its end, and so does the second before a colon. -/
theorem atEnd {k : Complaint} (hk : (k == .invalidNumber) = false) {y : Except Error β}
    (hy : Closes c.more → y = .error (.complain k)) : c.Outcome R (.error (.complain k)) y := by
  rcases hc.ends with hcloses | hexcused
  · rw [hy hcloses]
    exact hc.complain hk
  · exact .excused (hexcused _) y

end Fair

variable (hc : c.Fair) {ts us : List Token}
include hc

/-- A token that is neither a numeral nor a colon is expected by both. -/
theorem reads_expect {t : Token} (ht : ∀ s, t ≠ .numeral s) (hcolon : t ≠ .colon) {k : Complaint}
    (hk : (k == .invalidNumber) = false) (h : c.Paired ts us) :
    c.Reads (fun _ => True) ts.length (Parser.expect t k ts) (Parser.expect t k us) := by
  cases h with
  | done =>
    refine hc.atEnd hk fun hcloses => ?_
    obtain hmore | ⟨rest, hmore⟩ := hcloses.cases
    · rw [hmore]
      rfl
    · rw [hmore, Parser.expect, if_neg hcolon.symm]
      rfl
  | token _ _ h =>
    rw [Parser.expect, Parser.expect]
    split
    · exact .stop trivial h
    · exact hc.complain hk
  | numeral =>
    rw [Parser.expect, Parser.expect, if_neg (ht _).symm, if_neg (ht _).symm]
    exact hc.complain hk

/-- A name is read by both. It is one of the tokens. -/
theorem reads_variableName (h : c.Paired ts us) :
    c.Reads (fun _ => True) ts.length (Parser.variableName ts) (Parser.variableName us) := by
  cases h with
  | done =>
    refine hc.atEnd rfl fun hcloses => ?_
    obtain hmore | ⟨rest, hmore⟩ := hcloses.cases <;> rw [hmore] <;> rfl
  | numeral => exact hc.complain rfl
  | @token t ts us hwhole ht h =>
    cases t with
    | name n => exact .stop trivial h
    | _ => exact hc.complain rfl

end ReadingPair

/-! ## Expressions -/

namespace Expr

variable {more : List Token} {fuel fuel' : Nat}

/-- A minus sign right after `^` is read with what binds more tightly than `^`. -/
theorem parseOperators_caret_minus {q : Nat} (hq : q ≤ 8) (left : Expr) (ts : List Token) :
    parseOperators (fuel + 1) q left (.operator .power :: .operator .minus :: ts) = (do
      let (right, ts) ← parseLevel fuel 9 ts
      parseOperators fuel q (.binary .power left (.unary .negate right)) ts) := by
  rw [parseOperators]
  simp only [Operator.level?, if_neg (Nat.not_lt.mpr hq)]
  rfl

/-- An operator that binds too loosely is left over. -/
theorem parseOperators_loose {q : Nat} {op : Operator} (h : ∀ l, op.level? = some l → l < q)
    (left : Expr) (ts : List Token) :
    parseOperators (fuel + 1) q left (.operator op :: ts) = .ok (left, .operator op :: ts) := by
  rw [parseOperators]
  cases hlevel : op.level? with
  | none => rfl
  | some l => exact if_pos (h l hlevel)

/-- Behind an expression no operator is read. -/
theorem parseOperators_end (hmore : Follows 0 more) (fuel q : Nat) (left : Expr) :
    parseOperators (fuel + 1) q left more = .ok (left, more) := by
  cases more with
  | nil => rfl
  | cons t more =>
    cases t with
    | operator op =>
      refine parseOperators_loose (fun l hop => ?_) left more
      exact absurd (hmore.loose op l rfl hop) (Nat.not_le.mpr (Operator.level?_pos hop))
    | _ => rfl

/-- At the end of a statement there is no operand. -/
theorem parseOperand_of_closes (h : Closes more) (fuel : Nat) :
    parseOperand fuel more = .error (.complain .expectedExpression) := by
  cases fuel with
  | zero => rfl
  | succ fuel => obtain rfl | ⟨rest, rfl⟩ := h.cases <;> rfl

/-- A name before the end of an expression is a variable. -/
theorem parseOperand_name (hmore : Follows 0 more) (fuel : Nat) (n : Name) :
    parseOperand (fuel + 1) (.name n :: more) = .ok (.scalar n, more) := by
  cases more with
  | nil => rfl
  | cons t more => cases t <;> first | rfl | exact absurd rfl hmore.notCall

end Expr

namespace ReadingPair

variable {c : ReadingPair} {fuel fuel' : Nat} {ts us : List Token}

/-- With this much fuel, and enough of it for the tokens, expressions are read alike. -/
structure ReadsExpressions (c : ReadingPair) (fuel : Nat) : Prop where
  level {fuel' : Nat} {ts us : List Token} (q : Nat) (h : 2 * ts.length + 1 ≤ fuel)
    (h' : 2 * ts.length + 1 ≤ fuel') (hts : c.Paired ts us) :
    c.Reads c.expr ts.length (Expr.parseLevel fuel q ts) (Expr.parseLevel fuel' q us)
  operand {fuel' : Nat} {ts us : List Token} (h : 2 * ts.length ≤ fuel) (h' : 2 * ts.length ≤ fuel')
    (hts : c.Paired ts us) :
    c.Reads c.expr ts.length (Expr.parseOperand fuel ts) (Expr.parseOperand fuel' us)
  operators {fuel' : Nat} {ts us : List Token} (q : Nat) {left : Expr} (hleft : c.expr left)
    (h : 2 * ts.length + 1 ≤ fuel) (h' : 2 * ts.length + 1 ≤ fuel') (hts : c.Paired ts us) :
    c.Reads c.expr (ts.length + 1) (Expr.parseOperators fuel q left ts)
      (Expr.parseOperators fuel' q left us)
  arguments {fuel' : Nat} {ts us : List Token} (h : 2 * ts.length + 2 ≤ fuel)
    (h' : 2 * ts.length + 2 ≤ fuel') (hts : c.Paired ts us) :
    c.Reads (fun es => ∀ e ∈ es, c.expr e) ts.length (Expr.parseArguments fuel ts)
      (Expr.parseArguments fuel' us)

/-- An expression of two others, with an operator between them. -/
theorem Fair.combine (hc : c.Fair) {l r : Expr} (hl : c.expr l) (hr : c.expr r) (op : Operator) :
    c.expr (op.combine l r) := by
  have hpair : ∀ d ∈ [l, r], c.expr d :=
    List.forall_mem_cons.mpr ⟨hl, List.forall_mem_singleton.mpr hr⟩
  cases op with
  | not => exact hl
  | _ => exact hc.expr (by simp [Operator.combine]) hpair

/-- An expression of one other, with a sign or NOT in front of it. -/
theorem Fair.unary (hc : c.Fair) {e : Expr} (he : c.expr e) (op : UnaryOp) :
    c.expr (.unary op e) := hc.expr (by simp) (List.forall_mem_singleton.mpr he)

namespace ReadsExpressions

variable (ih : c.ReadsExpressions fuel) (hc : c.Fair)
include ih

/-- An operand and the operators behind it. -/
theorem rightOperand (q l : Nat) (combine : Expr → Expr)
    (hcombine : ∀ e, c.expr e → c.expr (combine e)) (h : 2 * ts.length + 1 ≤ fuel)
    (h' : 2 * ts.length + 1 ≤ fuel') (hts : c.Paired ts us) :
    c.Reads c.expr ts.length
      (Expr.parseLevel fuel l ts >>= fun r => Expr.parseOperators fuel q (combine r.1) r.2)
      (Expr.parseLevel fuel' l us >>= fun r => Expr.parseOperators fuel' q (combine r.1) r.2) := by
  refine (ih.level l h h' hts).bindOk fun right rest rest' _ hright hlength hrest => ?_
  exact (ih.operators q (hcombine right hright) (by omega) (by omega) hrest).mono hlength

/-- An operand is followed by operators. -/
theorem parseLevel (q : Nat) (h : 2 * ts.length + 1 ≤ fuel + 1) (h' : 2 * ts.length + 1 ≤ fuel' + 1)
    (hts : c.Paired ts us) :
    c.Reads c.expr ts.length (Expr.parseLevel (fuel + 1) q ts) (Expr.parseLevel (fuel' + 1) q us) := by
  rw [Expr.parseLevel, Expr.parseLevel]
  refine (ih.operand (by omega) (by omega) hts).bindOk fun left rest rest' _ hleft hlength hrest => ?_
  exact (ih.operators q hleft (by omega) (by omega) hrest).mono hlength

include hc

/-- Arguments stand between commas, up to the right parenthesis. -/
theorem parseArguments (h : 2 * ts.length + 2 ≤ fuel + 1) (h' : 2 * ts.length + 2 ≤ fuel' + 1)
    (hts : c.Paired ts us) :
    c.Reads (fun es => ∀ e ∈ es, c.expr e) ts.length (Expr.parseArguments (fuel + 1) ts)
      (Expr.parseArguments (fuel' + 1) us) := by
  rw [Expr.parseArguments, Expr.parseArguments]
  refine (ih.level Expr.lowestLevel (by omega) (by omega) hts).bindOk
    fun e rest rest' _ he hlength hrest => ?_
  cases hrest with
  | done =>
    refine hc.atEnd rfl fun hcloses => ?_
    obtain hmore | ⟨_, hmore⟩ := hcloses.cases <;> rw [hmore] <;> rfl
  | numeral => exact hc.complain rfl
  | @token t rest rest' _ _ hrest =>
    rw [List.length_cons] at hlength
    cases t with
    | rightParenthesis =>
      exact (Outcome.stop (List.forall_mem_singleton.mpr he) hrest).mono (by omega)
    | comma =>
      have hfuel : 2 * rest.length + 2 ≤ fuel := by omega
      have hfuel' : 2 * rest.length + 2 ≤ fuel' := by omega
      refine Outcome.mono ?_ (Nat.le_of_lt (Nat.lt_of_succ_lt hlength))
      exact (ih.arguments hfuel hfuel' hrest).andThen fun es rest rest' hes hrest =>
        .stop (List.forall_mem_cons.mpr ⟨he, hes⟩) hrest
    | _ => exact hc.complain rfl

/-- Operators are read with their right operands as long as they bind tightly enough. -/
theorem parseOperators (q : Nat) {left : Expr} (hleft : c.expr left)
    (h : 2 * ts.length + 1 ≤ fuel + 1) (h' : 2 * ts.length + 1 ≤ fuel' + 1) (hts : c.Paired ts us) :
    c.Reads c.expr (ts.length + 1) (Expr.parseOperators (fuel + 1) q left ts)
      (Expr.parseOperators (fuel' + 1) q left us) := by
  have hstop := Outcome.stop hleft hts
  cases hts with
  | done =>
    rw [Expr.parseOperators_end hc.follows]
    exact hstop
  | numeral => exact hstop
  | @token t ts us _ ht hts =>
    rw [List.length_cons] at h h'
    cases t with
    | operator op =>
      by_cases hop : ∃ l, op.level? = some l ∧ q ≤ l
      · obtain ⟨l, hop, hl⟩ := hop
        have hhead := hts.head?_eq_some_iff (t := .operator .minus) (by simp) fun hhead => by
          exact absurd (hc.follows.loose _ _ hhead rfl) (by decide)
        by_cases hminus : op = .power ∧ ts.head? = some (.operator .minus)
        · obtain ⟨rfl, hminus⟩ := hminus
          obtain ⟨ts, rfl⟩ := List.head?_eq_some_iff.mp hminus
          cases hop
          cases hts with
          | token _ _ hts =>
            rw [List.length_cons] at h h'
            rw [Expr.parseOperators_caret_minus hl, Expr.parseOperators_caret_minus hl]
            refine Outcome.mono ?_ (Nat.le_add_right ts.length 3)
            refine ih.rightOperand q 9 (fun r => .binary .power left (.unary .negate r))
              (fun r hr => ?_) (by omega) (by omega) hts
            exact hc.combine hleft (hc.unary hr .negate) .power
        · rw [Expr.parseOperators_operator hop hl fun heq hfirst => hminus ⟨heq, hfirst⟩,
            Expr.parseOperators_operator hop hl fun heq hfirst => hminus ⟨heq, hhead.mpr hfirst⟩]
          refine Outcome.mono ?_ (Nat.le_add_right ts.length 2)
          exact ih.rightOperand q (l + 1) (op.combine left ·) (fun r hr => hc.combine hleft hr op)
            (by omega) (by omega) hts
      · have hloose (l : Nat) (hlevel : op.level? = some l) : l < q :=
          Nat.lt_of_not_le fun hl => hop ⟨l, hlevel, hl⟩
        rw [Expr.parseOperators_loose hloose, Expr.parseOperators_loose hloose]
        exact hstop
    | _ => exact hstop

/-- Arguments in parentheses, and what is made of them. -/
theorem call {f : List Expr → Expr} (hf : ∀ es, (∀ e ∈ es, c.expr e) → c.expr (f es))
    (h : 2 * ts.length ≤ fuel) (h' : 2 * ts.length ≤ fuel') (hts : c.Paired ts us) :
    c.Reads c.expr ts.length
      (Parser.expect .leftParenthesis .expectedLeftParenthesis ts >>= fun r =>
        Expr.parseArguments fuel r.2 >>= fun r => .ok (f r.1, r.2))
      (Parser.expect .leftParenthesis .expectedLeftParenthesis us >>= fun r =>
        Expr.parseArguments fuel' r.2 >>= fun r => .ok (f r.1, r.2)) := by
  refine (reads_expect hc (by simp) (by simp) rfl hts).bindOk fun _ rest rest' _ _ hlength hrest => ?_
  refine Outcome.mono ?_ (Nat.le_of_lt hlength)
  exact (ih.arguments (by omega) (by omega) hrest).andThen fun es rest rest' hes hrest =>
    .stop (hf es hes) hrest

/-- An operand begins with its own kind of token. -/
theorem parseOperand (h : 2 * ts.length ≤ fuel + 1) (h' : 2 * ts.length ≤ fuel' + 1)
    (hts : c.Paired ts us) :
    c.Reads c.expr ts.length (Expr.parseOperand (fuel + 1) ts) (Expr.parseOperand (fuel' + 1) us) := by
  cases hts with
  | done => exact hc.atEnd rfl fun hcloses => Expr.parseOperand_of_closes hcloses _
  | numeral _ hs hts =>
    refine (hc.numeral hs).bind ?_
    rintro e _ ⟨rfl, he⟩
    exact .stop he hts
  | @token t ts us _ ht hts =>
    rw [List.length_cons] at h h' ⊢
    have hlevel (l : Nat) : c.Reads c.expr (ts.length + 1) (Expr.parseLevel fuel l ts)
        (Expr.parseLevel fuel' l us) := Outcome.le (ih.level l (by omega) (by omega) hts)
    have hcall (callee : Callee) (es : List Expr) (hes : ∀ e ∈ es, c.expr e) :
        c.expr (.call callee es) := hc.expr (by simp) hes
    have hfuel : 2 * ts.length ≤ fuel := by omega
    have hfuel' : 2 * ts.length ≤ fuel' := by omega
    cases t with
    | leftParenthesis =>
      refine (hlevel Expr.lowestLevel).andThen fun e rest rest' he hrest => ?_
      exact (reads_expect hc (by simp) (by simp) rfl hrest).le.andThen fun _ rest rest' _ hrest =>
        .stop he hrest
    | name n =>
      have hscalar : c.expr (.scalar n) := hc.expr (by simp) (List.forall_mem_nil _)
      have hstop := Outcome.stop hscalar hts
      cases hts with
      | done =>
        rw [Expr.parseOperand_name hc.follows]
        exact hstop
      | numeral => exact hstop
      | @token t ts us _ _ hts =>
        rw [List.length_cons] at hfuel hfuel'
        cases t with
        | leftParenthesis =>
          refine Outcome.mono ?_ (Nat.le_succ_of_le (Nat.le_succ ts.length))
          refine (ih.arguments (by omega) (by omega) hts).andThen fun es rest rest' hes hrest => ?_
          exact .stop (hc.expr (e := .element n es) (by simp) hes) hrest
        | _ => exact hstop
    | builtin f => exact (ih.call hc (hcall _) hfuel hfuel' hts).le
    | keyword k =>
      cases k with
      | FN =>
        refine (reads_variableName hc hts).bindOk fun n rest rest' _ _ hlength hrest => ?_
        refine (ih.call hc (hcall _) ?_ ?_ hrest).mono (by omega) <;> omega
      | _ => exact hc.complain rfl
    | numeral s => exact absurd rfl (ht s)
    | quoted s => exact .stop (hc.text s) hts
    | operator op =>
      cases op with
      | minus =>
        exact (hlevel Expr.signLevel).andThen fun e rest rest' he hrest => .stop (hc.unary he _) hrest
      | plus => exact hlevel Expr.signLevel
      | not =>
        exact (hlevel Expr.complementLevel).andThen fun e rest rest' he hrest =>
          .stop (hc.unary he _) hrest
      | _ => exact hc.complain rfl
    | _ => exact hc.complain rfl

end ReadsExpressions

variable (hc : c.Fair)
include hc

/-- Nothing is read from no tokens. -/
theorem reads_parseOperand_nil (fuel fuel' : Nat) :
    c.Reads c.expr 0 (Expr.parseOperand fuel []) (Expr.parseOperand fuel' c.more) := by
  rw [Expr.parseOperand_of_closes closes_nil fuel]
  exact hc.atEnd rfl fun hcloses => Expr.parseOperand_of_closes hcloses fuel'

/-- Expressions are read alike with whatever fuel is enough. -/
theorem readsExpressions (fuel : Nat) : c.ReadsExpressions fuel := by
  induction fuel with
  | zero =>
    constructor
    case operand =>
      intro fuel' ts us h h' hts
      obtain rfl : ts = [] := List.eq_nil_of_length_eq_zero (by omega)
      cases hts with
      | done => exact reads_parseOperand_nil hc 0 fuel'
    all_goals intros; omega
  | succ fuel ih =>
    constructor
    case level =>
      intro fuel' ts us q h h' hts
      obtain ⟨fuel', rfl⟩ : ∃ k, fuel' = k + 1 := ⟨fuel' - 1, by omega⟩
      exact ih.parseLevel q h h' hts
    case operand =>
      intro fuel' ts us h h' hts
      cases fuel' with
      | zero =>
        obtain rfl : ts = [] := List.eq_nil_of_length_eq_zero (by omega)
        cases hts with
        | done => exact reads_parseOperand_nil hc _ 0
      | succ fuel' => exact ih.parseOperand hc h h' hts
    case operators =>
      intro fuel' ts us q left hleft h h' hts
      obtain ⟨fuel', rfl⟩ : ∃ k, fuel' = k + 1 := ⟨fuel' - 1, by omega⟩
      exact ih.parseOperators hc q hleft h h' hts
    case arguments =>
      intro fuel' ts us h h' hts
      obtain ⟨fuel', rfl⟩ : ∃ k, fuel' = k + 1 := ⟨fuel' - 1, by omega⟩
      exact ih.parseArguments hc h h' hts

/-- Expressions are read alike. -/
theorem reads_expr (hts : c.Paired ts us) :
    c.Reads c.expr ts.length (Expr.parse ts) (Expr.parse us) := by
  have hlength := hts.length_eq
  refine (readsExpressions hc _).level Expr.lowestLevel ?_ ?_ hts <;> rw [Expr.fuel] <;> omega

/-- Lists of expressions are read alike. -/
theorem reads_exprList (hts : c.Paired ts us) :
    c.Reads (fun es => ∀ e ∈ es, c.expr e) ts.length (Expr.parseList ts) (Expr.parseList us) := by
  have hlength := hts.length_eq
  refine (readsExpressions hc _).arguments ?_ ?_ hts <;> rw [Expr.fuel] <;> omega

/-! ## The same tokens with more behind them -/

/-- The second reading is that of the same tokens with more behind them. Nothing is asked of what is
read, but that it is the same. -/
def extended (ts more : List Token) (fails : Error → Error → Prop) (excuses : Error → Prop) :
    ReadingPair where
  whole := ts
  more := more
  numerals := Eq
  fails := fails
  excuses := excuses
  expr _ := True
  target _ := True
  statement _ := True

omit hc in
/-- Such readings are fair if more tokens neither continue nor complete an expression. -/
theorem fair_extended {more : List Token} {fails : Error → Error → Prop} {excuses : Error → Prop}
    (hfollows : Expr.Follows 0 more) (hends : Closes more ∨ ∀ e, excuses e) (hfails : ∀ e, fails e e) :
    (extended ts more fails excuses).Fair where
  follows := hfollows
  ends := hends
  same _ := hfails _
  numeral {s _} hs := by
    subst hs
    cases Expr.ofNumeral s with
    | error e => exact .error (hfails e)
    | ok e => exact .ok ⟨rfl, trivial⟩
  text _ := trivial
  expr _ _ := trivial

omit hc in
/-- All tokens of the first reading are read again in the second. -/
theorem paired_extended {more : List Token} {fails : Error → Error → Prop} {excuses : Error → Prop} :
    (extended ts more fails excuses).Paired ts (ts ++ more) :=
  paired_append (fun _ _ => rfl) List.suffix_rfl

end ReadingPair

end CommodoreBasic
