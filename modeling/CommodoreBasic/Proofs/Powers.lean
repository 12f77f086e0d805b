import CommodoreBasic.Proofs.Words
import CommodoreBasic.Proofs.ComparedReadings

/-!
# Chains of powers

Powers group to the left, and an exponent may have signs. The parser treats one minus sign behind `^`
as a part of the exponent. Every other sign there is read as the sign of a whole operand, which takes
the powers behind it along, so that `2^+3^2` is 2 to the power of `3^2`. A chain of powers is therefore
grouped to the left exactly if all of its exponents but the last have no sign or one minus sign.

An expression in parentheses is read as it is read alone, since the parser does not look beyond the
end of an expression.
-/

namespace CommodoreBasic

namespace Expr

/-- What is all of an expression is all of it before more tokens too. -/
theorem readsWhole_of_parse {ts : List Token} {e : Expr} (h : parse ts = .ok (e, [])) :
    ReadsWhole ts e := by
  intro rest hrest fuel hfuel
  rw [List.length_append] at hfuel
  have hfuel' : 2 * ts.length + 1 ≤ Expr.fuel ts := by
    rw [Expr.fuel]
    omega
  have hfair : (ReadingPair.extended ts rest (fun _ _ => True) fun _ => True).Fair :=
    ReadingPair.fair_extended hrest (.inr fun _ => trivial) fun _ => trivial
  have hlevel := (ReadingPair.readsExpressions hfair (Expr.fuel ts)).level lowestLevel hfuel'
    (show 2 * ts.length + 1 ≤ fuel + 1 by omega) ReadingPair.paired_extended
  obtain ⟨-, us, hread, hpaired⟩ := hlevel.of_ok h
  cases hpaired with
  | done => exact hread

/-! ## Atoms -/

/-- The tokens are all of one expression. -/
def IsWhole (e : Expr) (ts : List Token) : Prop :=
  parse ts = .ok (e, [])

/-- The tokens are a literal, a variable or an expression in parentheses. -/
inductive IsAtom : List Token → Expr → Prop where
  | numeral {s : String} {e : Expr} (h : ofNumeral s = .ok e) : IsAtom [.numeral s] e
  | quoted (s : String) : IsAtom [.quoted s] (.literal (.text s))
  | scalar (n : Name) : IsAtom [.name n] (.scalar n)
  | element (n : Name) {es : List Expr} {ts : List Token} (hne : es ≠ [])
    (h : Joined IsWhole .comma es ts) :
    IsAtom (.name n :: .leftParenthesis :: (ts ++ [.rightParenthesis])) (.element n es)
  | parentheses {e : Expr} {ts : List Token} (h : IsWhole e ts) :
    IsAtom (.leftParenthesis :: (ts ++ [.rightParenthesis])) e

/-- Subscripts are read up to the right parenthesis. -/
theorem readsArguments_joined {es : List Expr} {ts : List Token} (h : Joined IsWhole .comma es ts)
    (hne : es ≠ []) (rest : List Token) :
    ReadsArguments (ts ++ .rightParenthesis :: rest) (es, rest) := by
  induction h with
  | nil => exact absurd rfl hne
  | single he => exact readsArguments_singleton (readsWhole_of_parse he) rest
  | cons he _ ih =>
    rw [List.append_assoc, List.cons_append]
    exact readsArguments_cons (readsWhole_of_parse he) (ih (List.cons_ne_nil _ _))

namespace IsAtom

variable {ts : List Token} {e : Expr}

/-- An atom fits every place. -/
theorem readsAs (h : IsAtom ts e) : ReadsAs 9 ts e := by
  cases h with
  | numeral hs => exact readsAs_atom (fun _ _ _ => by simp only [parseOperand, hs]; rfl) 9
  | quoted s => exact readsAs_written (.literal (.text s)) _ rfl
  | scalar n => exact readsAs_written (.scalar n) _ rfl
  | element n hne hes =>
    refine readsAs_applied [.name n] (.element n) (List.cons_ne_nil _ _) (fun _ _ => rfl)
      (fun rest => ?_) 9
    rw [List.append_assoc, List.singleton_append]
    exact readsArguments_joined hes hne rest
  | parentheses he => exact readsAs_parentheses 9 (readsWhole_of_parse he)

/-- No atom begins with a sign. -/
theorem head?_ne_operator (h : IsAtom ts e) (op : Operator) (rest : List Token) :
    (ts ++ rest).head? ≠ some (.operator op) := by
  cases h <;> simp

end IsAtom

/-- An atom with its tokens. -/
structure Atom where
  tokens : List Token
  expr : Expr
  valid : IsAtom tokens expr

/-! ## Signs -/

/-- A sign in front of an operand. -/
inductive Sign where
  | plus
  | minus
deriving DecidableEq

namespace Sign

/-- The token of a sign. -/
def token : Sign → Token
  | plus => .operator .plus
  | minus => .operator .minus

/-- A minus sign negates and a plus sign does nothing. -/
def apply : Sign → Expr → Expr
  | plus, e => e
  | minus, e => .unary .negate e

end Sign

/-- An operand behind a row of signs. -/
def signed (signs : List Sign) (e : Expr) : Expr :=
  signs.foldr Sign.apply e

/-- No operator is read at the end of an expression. -/
theorem readsOperators_end {q : Nat} (hq : lowestLevel ≤ q) (e : Expr) {rest : List Token}
    (hrest : Follows 0 rest) : ReadsOperators q e rest (e, rest) :=
  readsOperators_stop fun op l hop hl =>
    Nat.lt_of_lt_of_le (Nat.lt_succ_of_le (hrest.loose op l hop hl)) hq

/-- A sign is read with all of the powers behind it, also at a place that takes no powers. -/
theorem readsLevel_sign {q : Nat} (hq : lowestLevel ≤ q) (s : Sign) {e : Expr}
    {ts rest : List Token} (h : ReadsLevel signLevel ts (e, rest)) (hlength : rest.length ≤ ts.length)
    (hrest : Follows 0 rest) : ReadsLevel q (s.token :: ts) (s.apply e, rest) := by
  have hoperand : Reads parseOperand (s.token :: ts) (s.apply e, rest) := by
    intro fuel hfuel
    rw [List.length_cons] at hfuel
    obtain ⟨fuel, rfl⟩ : ∃ n, fuel = n + 2 := ⟨fuel - 2, by omega⟩
    have hread : parseLevel (fuel + 1) signLevel ts = .ok (e, rest) := h fuel (by omega)
    cases s with
    | plus => exact hread
    | minus =>
      rw [Sign.token, parseOperand, hread]
      rfl
  refine readsLevel_of_operand hoperand ?_ (readsOperators_end hq _ hrest)
  rw [List.length_cons]
  exact Nat.lt_succ_of_le hlength

/-- So is a row of signs. -/
theorem readsLevel_signed (signs : List Sign) {e : Expr} {ts rest : List Token}
    (h : ReadsLevel signLevel ts (e, rest)) (hlength : rest.length ≤ ts.length)
    (hrest : Follows 0 rest) :
    ReadsLevel signLevel (signs.map Sign.token ++ ts) (signed signs e, rest) := by
  induction signs with
  | nil => exact h
  | cons s signs ih =>
    have hsigns : rest.length ≤ (signs.map Sign.token ++ ts).length := by
      rw [List.length_append]
      omega
    exact readsLevel_sign (by decide) s ih hsigns hrest

/-! ## Chains -/

/-- An exponent: an atom behind a row of signs. -/
structure Exponent where
  signs : List Sign
  atom : Atom

namespace Exponent

/-- The exponent with the caret in front of it. -/
def tokens (x : Exponent) : List Token :=
  .operator .power :: (x.signs.map Sign.token ++ x.atom.tokens)

/-- The exponent as it is written. -/
def expr (x : Exponent) : Expr :=
  signed x.signs x.atom.expr

/-- The exponent has no sign or one minus sign. -/
def IsPlain (x : Exponent) : Prop :=
  x.signs = [] ∨ x.signs = [.minus]

/-- Whether an exponent is plain can be computed. -/
instance (x : Exponent) : Decidable x.IsPlain :=
  inferInstanceAs (Decidable (_ ∨ _))

end Exponent

/-- The tokens of a chain of powers. -/
def powerTokens (base : Atom) (xs : List Exponent) : List Token :=
  base.tokens ++ xs.flatMap Exponent.tokens

/-- Powers grouped to the left. -/
def leftPowers (left : Expr) (xs : List Exponent) : Expr :=
  xs.foldl (fun l x => .binary .power l x.expr) left

/-- Powers as the parser groups them: the signs of an exponent that is not plain are those of the whole
chain that begins there. -/
def parsedPowers : Expr → List Exponent → Expr
  | left, [] => left
  | left, x :: xs =>
    if x.IsPlain then parsedPowers (.binary .power left x.expr) xs
    else .binary .power left (signed x.signs (parsedPowers x.atom.expr xs))

section Chain

variable {q : Nat} {left right : Expr} {ts us rest : List Token} {out : Expr × List Token}

/-- After an operator and its right operand come the operators behind it. -/
theorem readsOperators_of_right {t : Token} {vs : List Token} (combine : Expr → Expr)
    (hstep : ∀ fuel, parseOperators (fuel + 1) q left (t :: vs) = (do
      let (right, us) ← parseLevel fuel 9 ts
      parseOperators fuel q (combine right) us))
    (hts : ts.length ≤ vs.length) (hright : ReadsLevel 9 ts (right, us))
    (hlength : us.length ≤ ts.length) (hops : ReadsOperators q (combine right) us out) :
    ReadsOperators q left (t :: vs) out := by
  intro fuel hfuel
  rw [List.length_cons] at hfuel
  obtain ⟨fuel, rfl⟩ : ∃ n, fuel = n + 1 := ⟨fuel - 1, by omega⟩
  have hread : parseLevel (fuel + 1) 9 ts = .ok (right, us) := hright fuel (by omega)
  have hnext : parseOperators (fuel + 1) q (combine right) us = .ok out := hops fuel (by omega)
  change parseOperators (fuel + 1 + 1) q left (t :: vs) = .ok out
  rw [hstep, hread]
  exact hnext

/-- A caret is read with the exponent behind it. -/
theorem readsOperators_caret (hq : q ≤ 8) (hhead : ts.head? ≠ some (.operator .minus))
    (hright : ReadsLevel 9 ts (right, us)) (hlength : us.length ≤ ts.length)
    (hops : ReadsOperators q (.binary .power left right) us out) :
    ReadsOperators q left (.operator .power :: ts) out :=
  readsOperators_of_right (.binary .power left)
    (fun _ => parseOperators_operator rfl hq fun _ => hhead) (Nat.le_refl _) hright hlength hops

/-- A caret and a minus sign are read with the exponent, which the sign negates. -/
theorem readsOperators_caret_minus (hq : q ≤ 8) (hright : ReadsLevel 9 ts (right, us))
    (hlength : us.length ≤ ts.length)
    (hops : ReadsOperators q (.binary .power left (.unary .negate right)) us out) :
    ReadsOperators q left (.operator .power :: .operator .minus :: ts) out :=
  readsOperators_of_right (fun r => .binary .power left (.unary .negate r))
    (fun _ => parseOperators_caret_minus hq left ts) (Nat.le_succ _) hright hlength hops

/-- Only carets stand between the atoms of a chain. -/
theorem follows_exponents (xs : List Exponent) (hrest : Follows 0 rest) :
    Follows 8 (xs.flatMap Exponent.tokens ++ rest) := by
  cases xs with
  | nil => exact ⟨hrest.notCall, fun op l hop hl => Nat.le_trans (hrest.loose op l hop hl) (by decide)⟩
  | cons x xs =>
    refine ⟨by simp [Exponent.tokens], fun op l hop hl => ?_⟩
    obtain rfl : Operator.power = op := by simpa [Exponent.tokens] using hop
    exact Nat.le_of_eq (Option.some.inj hl.symm)

/-- An atom with the powers behind it, as an operand of a sign or a whole expression. -/
theorem Atom.readsLevel (a : Atom) (hq : q ≤ 8) {xs : List Exponent} (hrest : Follows 0 rest)
    (hops : ReadsOperators q a.expr (xs.flatMap Exponent.tokens ++ rest) out) :
    ReadsLevel q (powerTokens a xs ++ rest) out := by
  rw [powerTokens, List.append_assoc]
  exact a.valid.readsAs (by decide) hq (follows_exponents xs hrest) hops

/-- An atom as an exponent, which takes no powers. -/
theorem Atom.readsExponent (a : Atom) (xs : List Exponent) (hrest : Follows 0 rest) :
    ReadsLevel 9 (a.tokens ++ (xs.flatMap Exponent.tokens ++ rest))
      (a.expr, xs.flatMap Exponent.tokens ++ rest) := by
  have hfollows := follows_exponents xs hrest
  exact a.valid.readsAs.readsLevel (Nat.le_refl 9) hfollows.notCall fun op l hop hl =>
    Nat.lt_succ_of_le (hfollows.loose op l hop hl)

/-- The operators of a chain are grouped as the parser does, up to its end. -/
theorem readsOperators_powers (hlow : lowestLevel ≤ q) (hq : q ≤ 8) (xs : List Exponent)
    (hrest : Follows 0 rest) :
    ReadsOperators q left (xs.flatMap Exponent.tokens ++ rest) (parsedPowers left xs, rest) := by
  induction xs generalizing q left with
  | nil => exact readsOperators_end hlow left hrest
  | cons x xs ih =>
    obtain ⟨signs, a⟩ := x
    have hexponent := a.readsExponent xs hrest
    have hbehind : (xs.flatMap Exponent.tokens ++ rest).length ≤
        (a.tokens ++ (xs.flatMap Exponent.tokens ++ rest)).length :=
      (List.suffix_append a.tokens _).length_le
    -- where the signs belong to all of the chain, it is read at the level of a sign
    have hchain : ReadsLevel signLevel (powerTokens a xs ++ rest) (parsedPowers a.expr xs, rest) :=
      a.readsLevel (by decide) hrest (ih (by decide) (by decide))
    rw [powerTokens, List.append_assoc] at hchain
    have hlength (us : List Token) :
        rest.length ≤ (us ++ (a.tokens ++ (xs.flatMap Exponent.tokens ++ rest))).length := by
      simp only [List.length_append]
      omega
    have hwhole (signs : List Sign) := readsLevel_signed signs hchain (hlength []) hrest
    have htokens : List.flatMap Exponent.tokens (⟨signs, a⟩ :: xs) ++ rest =
        .operator .power ::
          (signs.map Sign.token ++ (a.tokens ++ (xs.flatMap Exponent.tokens ++ rest))) := by
      simp [Exponent.tokens]
    rw [htokens, parsedPowers]
    match signs with
    | [] =>
      rw [if_pos (.inl rfl)]
      exact readsOperators_caret hq (a.valid.head?_ne_operator _ _) hexponent hbehind (ih hlow hq)
    | [.minus] =>
      rw [if_pos (.inr rfl)]
      exact readsOperators_caret_minus hq hexponent hbehind (ih hlow hq)
    | .plus :: signs =>
      rw [if_neg (by simp [Exponent.IsPlain])]
      have hsign := readsLevel_sign (q := 9) (by decide) .plus (hwhole signs) (hlength _) hrest
      exact readsOperators_caret hq (by simp [Sign.token]) hsign (Nat.le_succ_of_le (hlength _))
        (readsOperators_end hlow _ hrest)
    | .minus :: s :: signs =>
      rw [if_neg (by simp [Exponent.IsPlain])]
      have hsign := readsLevel_sign (q := 9) (by decide) s (hwhole signs) (hlength _) hrest
      exact readsOperators_caret_minus hq hsign (Nat.le_succ_of_le (hlength _))
        (readsOperators_end hlow _ hrest)

end Chain

/-! ## Groups to the left -/

/-- The number of powers that stand one inside the other on the left. -/
def leftDepth : Expr → Nat
  | binary .power l _ => leftDepth l + 1
  | _ => 0

/-- Every exponent makes powers that are grouped to the left one deeper. -/
theorem leftDepth_leftPowers (left : Expr) (xs : List Exponent) :
    leftDepth (leftPowers left xs) = leftDepth left + xs.length := by
  induction xs generalizing left with
  | nil => rfl
  | cons x xs ih =>
    have hnext := ih (.binary .power left x.expr)
    rw [leftDepth] at hnext
    rw [List.length_cons, Nat.add_comm xs.length, ← Nat.add_assoc]
    exact hnext

/-- The parser groups a chain to the left exactly if all of its exponents but the last are plain. -/
theorem parsedPowers_eq_leftPowers_iff (left : Expr) (xs : List Exponent) :
    parsedPowers left xs = leftPowers left xs ↔ ∀ x ∈ xs.dropLast, x.IsPlain := by
  induction xs generalizing left with
  | nil => simp [parsedPowers, leftPowers]
  | cons x xs ih =>
    cases xs with
    | nil => simp [parsedPowers, leftPowers, Exponent.expr]
    | cons y ys =>
      rw [parsedPowers, List.dropLast_cons_cons, List.forall_mem_cons]
      by_cases hx : x.IsPlain
      · rw [if_pos hx, and_iff_right hx]
        exact ih (.binary .power left x.expr)
      · -- one power has taken the rest of the chain as its exponent, so the left side is less deep
        rw [if_neg hx]
        refine iff_of_false (fun heq => ?_) fun h => hx h.1
        have hdepth := congrArg leftDepth heq
        rw [leftDepth_leftPowers, leftDepth, List.length_cons, List.length_cons] at hdepth
        omega

/-- A chain of powers with signed exponents is read to its end. It is grouped to the left exactly if
all of its exponents but the last have no sign or one minus sign. -/
theorem parse_powers (base : Atom) (xs : List Exponent) {rest : List Token}
    (hrest : Follows 0 rest) :
    parse (powerTokens base xs ++ rest) = .ok (parsedPowers base.expr xs, rest) ∧
      (parsedPowers base.expr xs = leftPowers base.expr xs ↔ ∀ x ∈ xs.dropLast, x.IsPlain) := by
  refine ⟨?_, parsedPowers_eq_leftPowers_iff base.expr xs⟩
  have hread : ReadsLevel lowestLevel (powerTokens base xs ++ rest)
      (parsedPowers base.expr xs, rest) :=
    base.readsLevel (by decide) hrest (readsOperators_powers (by decide) (by decide) xs hrest)
  exact hread (3 * (powerTokens base xs ++ rest).length + 2) (by omega)

/-- `A^-B(I,2)^+(C)^2` before a comma: the plus sign takes the last power along, and the minus sign
does not. -/
theorem parse_powers_signed :
    parse [.name "A", .operator .power, .operator .minus, .name "B", .leftParenthesis, .name "I",
        .comma, .numeral "2", .rightParenthesis, .operator .power, .operator .plus,
        .leftParenthesis, .name "C", .rightParenthesis, .operator .power, .numeral "2", .comma] =
      .ok (.binary .power
        (.binary .power (.scalar "A")
          (.unary .negate (.element "B" [.scalar "I", .literal (.number 2)])))
        (.binary .power (.scalar "C") (.literal (.number 2))), [.comma]) := by
  have hname (n : Name) : IsWhole (.scalar n) [.name n] := rfl
  have htwo : ofNumeral "2" = .ok (.literal (.number 2)) := rfl
  have hsubscripts : Joined IsWhole .comma [.scalar "I", .literal (.number 2)]
      [.name "I", .comma, .numeral "2"] := .cons (hname "I") (.single rfl)
  have hend : Follows 0 [Token.comma] := ⟨by simp, by simp⟩
  exact (parse_powers ⟨[.name "A"], _, .scalar "A"⟩
    [⟨[.minus], _, _, .element "B" (List.cons_ne_nil _ _) hsubscripts⟩,
      ⟨[.plus], _, _, .parentheses (hname "C")⟩, ⟨[], _, _, .numeral htwo⟩] hend).1

/-- `2^+3^2` is not grouped to the left. -/
theorem parse_plus_exponent :
    parse [.numeral "2", .operator .power, .operator .plus, .numeral "3", .operator .power,
        .numeral "2"] =
      .ok (.binary .power (.literal (.number 2))
        (.binary .power (.literal (.number 3)) (.literal (.number 2))), []) ∧
    Expr.binary .power (.literal (.number 2))
        (.binary .power (.literal (.number 3)) (.literal (.number 2))) ≠
      .binary .power (.binary .power (.literal (.number 2)) (.literal (.number 3)))
        (.literal (.number 2)) := by
  refine ⟨rfl, fun heq => ?_⟩
  cases heq

end Expr

end CommodoreBasic
