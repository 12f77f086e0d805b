import CommodoreBasic.Expr.Parse

/-!
# Expressions with the fewest parentheses

Every expression has a level, and every place in a larger expression asks for one. Written down with
parentheses exactly where an expression falls short of its place, an expression is read back as it
was, whatever follows it, unless that is an operator or a left parenthesis.

The induction is over the expression. It says that reading an expression of a level leads to the
point where the whole expression has been read and the operators behind it are still to be looked
at. Since these are looked at with the level of the outermost call, an operator that belongs to an
expression further out must not be taken by one further in: it has at most the level of the place,
and no operator has the level of a sign or of NOT.
-/

namespace CommodoreBasic

/-- The token of an operator with one operand. -/
def UnaryOp.token : UnaryOp → Operator
  | negate => .minus
  | complement => .not

/-- The level of an operator with one operand. -/
def UnaryOp.level : UnaryOp → Nat
  | complement => 3
  | negate => 7

/-- The token of an operator with two operands. -/
def BinaryOp.token : BinaryOp → Operator
  | add => .plus
  | subtract => .minus
  | multiply => .times
  | divide => .divide
  | power => .power
  | conjoin => .and
  | disjoin => .or

/-- The level of an operator with two operands. -/
def BinaryOp.level : BinaryOp → Nat
  | disjoin => 1
  | conjoin => 2
  | add | subtract => 5
  | multiply | divide => 6
  | power => 8

/-- The token of a comparison. -/
def Relation.token : Relation → Operator
  | equal => .equal
  | notEqual => .notEqual
  | less => .less
  | lessOrEqual => .lessOrEqual
  | greater => .greater
  | greaterOrEqual => .greaterOrEqual

/-- Only runs of blanks are skipped. -/
theorem Token.isBlanks_of_ne {t : Token} (h : ∀ n, t ≠ .blanks n) : t.isBlanks = false := by
  cases t <;> first | rfl | simp at h

/-- The parser gives the operators between two operands their levels. -/
theorem BinaryOp.level?_token (op : BinaryOp) : op.token.level? = some op.level := by
  cases op <;> rfl

/-- The parser makes of an operator's token that operator. -/
theorem BinaryOp.combine_token (op : BinaryOp) (l r : Expr) :
    op.token.combine l r = .binary op l r := by
  cases op <;> rfl

/-- The parser gives all comparisons one level. -/
theorem Relation.level?_token (rel : Relation) : rel.token.level? = some 4 := by
  cases rel <;> rfl

/-- The parser makes of a comparison's token that comparison. -/
theorem Relation.combine_token (rel : Relation) (l r : Expr) :
    rel.token.combine l r = .comparison rel l r := by
  cases rel <;> rfl

/-- No operator between two operands has the level of a sign or of NOT. -/
theorem Operator.level?_ne_unary {op : Operator} {l : Nat} (h : op.level? = some l) (u : UnaryOp) :
    l ≠ u.level := by
  rintro rfl
  cases op <;> cases u <;> simp [level?, UnaryOp.level] at h

/-- The tokens in front of the arguments of a call. The name of a user function goes on behind FN. -/
def Callee.tokens : Callee → List Token
  | builtin f => [.builtin f]
  | user n => [.keyword .FN, .name (String.ofList (n.toList.drop 2))]

/-- FN and the name behind it are two tokens. -/
theorem Callee.tokens_user (n : Name) :
    (user ("FN" ++ n)).tokens = [.keyword .FN, .name n] := by
  simp [tokens]

namespace Expr

/-- How tightly the outermost operator binds. -/
def level : Expr → Nat
  | unary op _ => op.level
  | binary op _ _ => op.level
  | comparison .. => 4
  | _ => 9

/-- The tokens `ts` of an expression of some level at a place that requires another. -/
def atPlace (required level : Nat) (ts : List Token) : List Token :=
  if level < required then .leftParenthesis :: (ts ++ [.rightParenthesis]) else ts

section Render

variable (spell : Float → String)

mutual

/-- The tokens of an expression, with parentheses only where they are needed; `spell` gives the
numerals. -/
def render : Expr → List Token
  | literal (.number x) => [.numeral (spell x)]
  | literal (.text s) => [.quoted s]
  | scalar n => [.name n]
  | element n es => .name n :: .leftParenthesis :: renderAll es
  | unary op e => .operator op.token :: atPlace op.level e.level (render e)
  | binary op l r =>
    atPlace op.level l.level (render l) ++
      .operator op.token :: atPlace (op.level + 1) r.level (render r)
  | comparison rel l r =>
    atPlace 4 l.level (render l) ++ .operator rel.token :: atPlace 5 r.level (render r)
  | call c es => c.tokens ++ .leftParenthesis :: renderAll es

/-- The tokens of arguments or subscripts up to the right parenthesis. -/
def renderAll : List Expr → List Token
  | [] => [.rightParenthesis]
  | e :: es =>
    atPlace 1 e.level (render e) ++
      match es with
      | [] => [.rightParenthesis]
      | _ :: _ => .comma :: renderAll es

end

mutual

/-- The expression can be written down: `spell` gives a numeral for each of its numbers, lists of
arguments and subscripts are not empty, and the names of user functions begin with FN. -/
def Writable : Expr → Prop
  | literal (.number x) => ofNumeral (spell x) = .ok (literal (.number x))
  | literal (.text _) => True
  | scalar _ => True
  | element _ es => es ≠ [] ∧ WritableAll es
  | unary _ e => e.Writable
  | binary _ l r => l.Writable ∧ r.Writable
  | comparison _ l r => l.Writable ∧ r.Writable
  | call c es => (∀ n, c = .user n → ∃ n', n = "FN" ++ n') ∧ es ≠ [] ∧ WritableAll es

/-- All of the expressions can be written down. -/
def WritableAll : List Expr → Prop
  | [] => True
  | e :: es => e.Writable ∧ WritableAll es

end

end Render

mutual

/-- The tokens write the expression down, each number by any of its numerals and with parentheses only
where they are needed. -/
def Written : Expr → List Token → Prop
  | literal (.number x), ts => ∃ s, ofNumeral s = .ok (literal (.number x)) ∧ ts = [.numeral s]
  | literal (.text s), ts => ts = [.quoted s]
  | scalar n, ts => ts = [.name n]
  | element n es, ts => ∃ us, WrittenAll es us ∧ ts = .name n :: .leftParenthesis :: us
  | unary op e, ts => ∃ us, Written e us ∧ ts = .operator op.token :: atPlace op.level e.level us
  | binary op l r, ts => ∃ us vs, Written l us ∧ Written r vs ∧
      ts = atPlace op.level l.level us ++ .operator op.token :: atPlace (op.level + 1) r.level vs
  | comparison rel l r, ts => ∃ us vs, Written l us ∧ Written r vs ∧
      ts = atPlace 4 l.level us ++ .operator rel.token :: atPlace 5 r.level vs
  | call (.builtin f) es, ts => ∃ us, WrittenAll es us ∧ ts = .builtin f :: .leftParenthesis :: us
  | call (.user f) es, ts => ∃ n us, f = "FN" ++ n ∧ WrittenAll es us ∧
      ts = .keyword .FN :: .name n :: .leftParenthesis :: us

/-- The tokens write arguments or subscripts down, which must not be none, up to the right
parenthesis. -/
def WrittenAll : List Expr → List Token → Prop
  | [], _ => False
  | [e], ts => ∃ us, Written e us ∧ ts = us ++ [.rightParenthesis]
  | e :: e' :: es, ts => ∃ us vs, Written e us ∧ WrittenAll (e' :: es) vs ∧ ts = us ++ .comma :: vs

end

/-! ## Reading with enough fuel -/

/-- With two steps of fuel for each token, the parser reads `out` from `ts`. -/
def Reads {α : Type} (parser : Nat → Parser α) (ts : List Token) (out : α × List Token) : Prop :=
  ∀ fuel, 2 * ts.length ≤ fuel → parser fuel ts = .ok out

/-- An expression of level `q` is read from `ts`. -/
def ReadsLevel (q : Nat) : List Token → Expr × List Token → Prop :=
  Reads fun fuel => parseLevel (fuel + 1) q

/-- The operators of level `q` behind `e` are read from `ts`. -/
def ReadsOperators (q : Nat) (e : Expr) : List Token → Expr × List Token → Prop :=
  Reads fun fuel => parseOperators (fuel + 1) q e

/-- Arguments are read from `ts`. -/
def ReadsArguments : List Token → List Expr × List Token → Prop :=
  Reads fun fuel => parseArguments (fuel + 2)

/-- What may follow an expression at a place that requires level `p`. -/
structure Follows (p : Nat) (rest : List Token) : Prop where
  notCall : rest.head? ≠ some .leftParenthesis
  loose : ∀ op l, rest.head? = some (.operator op) → op.level? = some l → l ≤ p

/-- Reading `ts` as a part of an expression comes to the same as having read `e`, at every place
that requires at most `level`. -/
def ReadsAs (level : Nat) (ts : List Token) (e : Expr) : Prop :=
  ∀ ⦃p q rest out⦄, p ≤ level → q ≤ p → Follows p rest → ReadsOperators q e rest out →
    ReadsLevel q (ts ++ rest) out

/-- Where all that follows binds less than `q`, no operator is read. -/
theorem readsOperators_stop {q : Nat} {e : Expr} {rest : List Token}
    (h : ∀ op l, rest.head? = some (.operator op) → op.level? = some l → l < q) :
    ReadsOperators q e rest (e, rest) := by
  intro fuel _
  match rest with
  | [] => simp [parseOperators]; rfl
  | t :: ts =>
    by_cases hop : ∃ op, t = .operator op
    · obtain ⟨op, rfl⟩ := hop
      cases hl : op.level? with
      | none => simp only [parseOperators, hl]; rfl
      | some l =>
        have hlt : l < q := h op l rfl hl
        simp only [parseOperators, hl, if_pos hlt]
        rfl
    · cases t <;> first | rfl | simp at hop

/-- An expression is read to its end if all that follows binds less. -/
theorem ReadsAs.readsLevel {level q : Nat} {e : Expr} {ts rest : List Token}
    (h : ReadsAs level ts e) (hq : q ≤ level) (hcall : rest.head? ≠ some .leftParenthesis)
    (hbelow : ∀ op l, rest.head? = some (.operator op) → op.level? = some l → l < q) :
    ReadsLevel q (ts ++ rest) (e, rest) := by
  have hrest : Follows q rest :=
    ⟨hcall, fun op l hop hl => Nat.le_of_lt (hbelow op l hop hl)⟩
  exact h hq (Nat.le_refl q) hrest (readsOperators_stop hbelow)

/-- The tokens are read as an expression to their end, before anything that cannot go on with it. -/
def ReadsWhole (ts : List Token) (e : Expr) : Prop :=
  ∀ ⦃rest⦄, Follows 0 rest → ReadsLevel lowestLevel (ts ++ rest) (e, rest)

/-- What fits a place is read to its end there. -/
theorem ReadsAs.whole {level : Nat} {e : Expr} {ts : List Token} (h : ReadsAs level ts e)
    (hlevel : lowestLevel ≤ level) : ReadsWhole ts e := fun _ hrest =>
  h.readsLevel hlevel hrest.notCall fun op l hop hl => Nat.lt_succ_of_le (hrest.loose op l hop hl)

/-- After an operand come the operators behind it. -/
theorem readsLevel_of_operand {q : Nat} {e : Expr} {ts rest : List Token}
    {out : Expr × List Token} (hoperand : Reads parseOperand ts (e, rest))
    (hlength : rest.length < ts.length) (hops : ReadsOperators q e rest out) :
    ReadsLevel q ts out := by
  intro fuel hfuel
  obtain ⟨fuel, rfl⟩ : ∃ n, fuel = n + 1 := ⟨fuel - 1, by omega⟩
  simp only [parseLevel, hoperand (fuel + 1) hfuel]
  exact hops fuel (by omega)

/-- An operator that is not below `q` is read with its right operand. -/
theorem parseOperators_operator {fuel q l : Nat} {op : Operator} {left : Expr} {ts : List Token}
    (hop : op.level? = some l) (hq : q ≤ l)
    (hminus : op = .power → ts.head? ≠ some (.operator .minus)) :
    parseOperators (fuel + 1) q left (.operator op :: ts) = (do
      let (right, ts) ← parseLevel fuel (l + 1) ts
      parseOperators fuel q (op.combine left right) ts) := by
  simp only [parseOperators, hop, if_neg (Nat.not_lt.mpr hq)]
  split
  · simp at hminus
  · rfl

/-- Two operands that fit their places, with an operator between them, read as it applied to them. -/
theorem readsAs_infix {op : Operator} {l : Nat} {left right : Expr} {ls rs : List Token}
    (hop : op.level? = some l) (hleft : ReadsAs l ls left) (hright : ReadsAs (l + 1) rs right)
    (hminus : op = .power → ∀ rest, (rs ++ rest).head? ≠ some (.operator .minus)) :
    ReadsAs l (ls ++ .operator op :: rs) (op.combine left right) := by
  intro p q rest out hp hq hrest hops
  rw [List.append_assoc]
  refine hleft (Nat.le_refl l) (Nat.le_trans hq hp) ?_ ?_
  · refine ⟨by simp, fun op' l' hop' hl' => ?_⟩
    obtain rfl : op = op' := by simpa using hop'
    rw [hop] at hl'
    exact Nat.le_of_eq (Option.some.inj hl'.symm)
  · intro fuel hfuel
    -- the right operand takes no operator of its own level, so it ends where the tree ends
    have hend : ReadsLevel (l + 1) (rs ++ rest) (right, rest) :=
      hright.readsLevel (Nat.le_refl _) hrest.notCall fun op' l' hop' hl' =>
        Nat.lt_succ_of_le (Nat.le_trans (hrest.loose op' l' hop' hl') hp)
    simp only [List.cons_append, List.length_cons, List.length_append] at hfuel
    obtain ⟨fuel, rfl⟩ : ∃ n, fuel = n + 1 := ⟨fuel - 1, by omega⟩
    simp only [List.cons_append,
      parseOperators_operator hop (Nat.le_trans hq hp) fun h => hminus h rest,
      hend fuel (by rw [List.length_append]; omega)]
    exact hops fuel (by omega)

/-- A sign or NOT is read with an operand of its own level. -/
theorem parseOperand_unary (fuel : Nat) (op : UnaryOp) (ts : List Token) :
    parseOperand (fuel + 1) (.operator op.token :: ts) = (do
      let (e, ts) ← parseLevel fuel op.level ts
      return (.unary op e, ts)) := by
  cases op <;> rfl

/-- A sign or NOT in front of its operand reads as the operator applied to it. -/
theorem readsAs_unary (op : UnaryOp) {e : Expr} {ts : List Token} (h : ReadsAs op.level ts e) :
    ReadsAs op.level (.operator op.token :: ts) (.unary op e) := by
  intro p q rest out hp hq hrest hops
  -- what follows has another level than the operator, so it binds less
  have hend : ReadsLevel op.level (ts ++ rest) (e, rest) :=
    h.readsLevel (Nat.le_refl _) hrest.notCall fun op' l' hop' hl' =>
      Nat.lt_of_le_of_ne (Nat.le_trans (hrest.loose op' l' hop' hl') hp)
        (Operator.level?_ne_unary hl' op)
  refine readsLevel_of_operand ?_ (by grind) hops
  intro fuel hfuel
  simp only [List.cons_append, List.length_cons] at hfuel
  obtain ⟨fuel, rfl⟩ : ∃ n, fuel = n + 2 := ⟨fuel - 2, by omega⟩
  simp only [List.cons_append, parseOperand_unary, hend fuel (by omega)]
  rfl

/-- In parentheses an expression reads the same at every place. -/
theorem readsAs_parentheses (level : Nat) {e : Expr} {ts : List Token} (h : ReadsWhole ts e) :
    ReadsAs level (.leftParenthesis :: (ts ++ [.rightParenthesis])) e := by
  intro p q rest out _ _ _ hops
  have hend : ReadsLevel lowestLevel (ts ++ .rightParenthesis :: rest)
      (e, .rightParenthesis :: rest) :=
    h ⟨by simp, by simp⟩
  refine readsLevel_of_operand ?_ (by grind) hops
  intro fuel hfuel
  simp only [List.cons_append, List.append_assoc, List.nil_append, List.length_cons] at hfuel ⊢
  obtain ⟨fuel, rfl⟩ : ∃ n, fuel = n + 2 := ⟨fuel - 2, by omega⟩
  simp only [parseOperand, hend fuel (by omega)]
  rfl

/-- An expression fits every place that requires less. -/
theorem ReadsAs.mono {l p : Nat} {e : Expr} {ts : List Token} (h : ReadsAs l ts e) (hp : p ≤ l) :
    ReadsAs p ts e := by
  intro p' q rest out hp'
  exact h (Nat.le_trans hp' hp)

/-- Parentheses where they are needed make an expression fit its place. -/
theorem readsAs_atPlace (p : Nat) {l : Nat} {e : Expr} {ts : List Token} (hl : lowestLevel ≤ l)
    (h : ReadsAs l ts e) : ReadsAs p (atPlace p l ts) e := by
  unfold atPlace
  split
  case isTrue => exact readsAs_parentheses p (h.whole hl)
  case isFalse hp => exact h.mono (Nat.not_lt.mp hp)

/-- A single token that is an operand reads as it. -/
theorem readsAs_atom {t : Token} {e : Expr}
    (h : ∀ fuel rest, rest.head? ≠ some .leftParenthesis →
      parseOperand (fuel + 1) (t :: rest) = .ok (e, rest)) (level : Nat) :
    ReadsAs level [t] e := by
  intro p q rest out _ _ hrest hops
  refine readsLevel_of_operand ?_ (by simp) hops
  intro fuel hfuel
  obtain ⟨fuel, rfl⟩ : ∃ n, fuel = n + 1 := ⟨fuel - 1, by simp at hfuel; omega⟩
  exact h fuel rest hrest.notCall

/-- Tokens in front of arguments read as what the parser makes of the arguments. -/
theorem readsAs_applied (front : List Token) (make : List Expr → Expr) {ts : List Token}
    {es : List Expr} (hfront : front ≠ [])
    (h : ∀ fuel ts, parseOperand (fuel + 1) (front ++ .leftParenthesis :: ts) = (do
      let (es, ts) ← parseArguments fuel ts
      return (make es, ts)))
    (hes : ∀ rest, ReadsArguments (ts ++ rest) (es, rest)) (level : Nat) :
    ReadsAs level (front ++ .leftParenthesis :: ts) (make es) := by
  intro p q rest out _ _ _ hops
  have hlength := List.length_pos_iff.mpr hfront
  refine readsLevel_of_operand ?_ (by grind) hops
  intro fuel hfuel
  simp only [List.length_append, List.length_cons] at hfuel
  obtain ⟨fuel, rfl⟩ : ∃ n, fuel = n + 3 := ⟨fuel - 3, by omega⟩
  simp only [List.append_assoc, List.cons_append, h,
    hes rest fuel (by rw [List.length_append]; omega)]
  rfl

/-- The last argument is followed by the right parenthesis. -/
theorem readsArguments_singleton {ts : List Token} {e : Expr} (h : ReadsWhole ts e)
    (rest : List Token) :
    ReadsArguments (ts ++ .rightParenthesis :: rest) ([e], rest) := by
  have hend : ReadsLevel lowestLevel (ts ++ .rightParenthesis :: rest)
      (e, .rightParenthesis :: rest) :=
    h ⟨by simp, by simp⟩
  intro fuel hfuel
  simp only [parseArguments, hend fuel hfuel]
  rfl

/-- Every other argument is followed by a comma. -/
theorem readsArguments_cons {ts us : List Token} {e : Expr} {es : List Expr}
    (h : ReadsWhole ts e) {rest : List Token} (hes : ReadsArguments us (es, rest)) :
    ReadsArguments (ts ++ .comma :: us) (e :: es, rest) := by
  have hend : ReadsLevel lowestLevel (ts ++ .comma :: us) (e, .comma :: us) :=
    h ⟨by simp, by simp⟩
  intro fuel hfuel
  have hus : 2 * us.length + 2 ≤ fuel := by
    simp only [List.length_append, List.length_cons] at hfuel
    omega
  obtain ⟨n, rfl⟩ : ∃ n, fuel = n + 1 := ⟨fuel - 1, by omega⟩
  change parseArguments (n + 3) (ts ++ .comma :: us) = .ok (e :: es, rest)
  have hlevel : parseLevel (n + 2) lowestLevel (ts ++ .comma :: us) = .ok (e, .comma :: us) :=
    hend (n + 1) hfuel
  have hrest : parseArguments (n + 2) us = .ok (es, rest) := hes n (by omega)
  rw [parseArguments, hlevel]
  change (parseArguments (n + 2) us >>= _) = _
  rw [hrest]
  rfl

/-- Every expression fits the places that require the lowest level. -/
theorem lowestLevel_le_level (e : Expr) : lowestLevel ≤ e.level := by
  cases e with
  | unary op _ => cases op <;> simp [lowestLevel, level, UnaryOp.level]
  | binary op _ _ => cases op <;> simp [lowestLevel, level, BinaryOp.level]
  | _ => simp [lowestLevel, level]

/-- No expression that fits the right of `^` begins with a minus sign. -/
theorem head?_atPlace_written {e : Expr} {ts : List Token} (he : e.Written ts) (rest : List Token) :
    (atPlace 9 e.level ts ++ rest).head? ≠ some (.operator .minus) := by
  unfold atPlace
  split
  case isTrue => simp
  case isFalse h =>
    cases e with
    | literal v =>
      cases v with
      | number x =>
        rw [Written] at he
        obtain ⟨s, -, rfl⟩ := he
        simp
      | text s =>
        rw [Written] at he
        simp [he]
    | scalar n =>
      rw [Written] at he
      simp [he]
    | element n es =>
      rw [Written] at he
      obtain ⟨us, -, rfl⟩ := he
      simp
    | unary op _ => cases op <;> simp [level, UnaryOp.level] at h
    | binary op _ _ => cases op <;> simp [level, BinaryOp.level] at h
    | comparison => simp [level] at h
    | call c es =>
      cases c <;> rw [Written] at he
      · obtain ⟨us, -, rfl⟩ := he
        simp
      · obtain ⟨n, us, -, -, rfl⟩ := he
        simp

mutual

/-- The tokens of an expression read as it. -/
theorem readsAs_written : (e : Expr) → (ts : List Token) → e.Written ts → ReadsAs e.level ts e
  | literal (.number x), ts, h => by
    rw [Written] at h
    obtain ⟨s, hs, rfl⟩ := h
    refine readsAs_atom (fun fuel rest _ => ?_) _
    simp only [parseOperand, hs]
    rfl
  | literal (.text s), ts, h => by
    rw [Written] at h
    subst h
    exact readsAs_atom (fun _ _ _ => by simp only [parseOperand]; rfl) _
  | scalar n, ts, h => by
    rw [Written] at h
    subst h
    refine readsAs_atom (fun fuel rest hrest => ?_) _
    match rest with
    | [] => rfl
    | t :: ts => cases t <;> first | rfl | simp at hrest
  | element n es, ts, h => by
    rw [Written] at h
    obtain ⟨us, hus, rfl⟩ := h
    exact readsAs_applied [.name n] (.element n) (by simp) (fun _ _ => rfl)
      (readsArguments_written es us hus) _
  | unary op e, ts, h => by
    rw [Written] at h
    obtain ⟨us, hus, rfl⟩ := h
    exact readsAs_unary op (readsAs_atPlace _ (lowestLevel_le_level e) (readsAs_written e us hus))
  | binary op l r, ts, h => by
    rw [Written] at h
    obtain ⟨us, vs, hus, hvs, rfl⟩ := h
    have hl := readsAs_atPlace op.level (lowestLevel_le_level l) (readsAs_written l us hus)
    have hr := readsAs_atPlace (op.level + 1) (lowestLevel_le_level r) (readsAs_written r vs hvs)
    have hinfix := readsAs_infix op.level?_token hl hr fun hpower rest => by
      obtain rfl : op = .power := by cases op <;> first | rfl | nomatch hpower
      exact head?_atPlace_written hvs rest
    rw [op.combine_token] at hinfix
    exact hinfix
  | comparison rel l r, ts, h => by
    rw [Written] at h
    obtain ⟨us, vs, hus, hvs, rfl⟩ := h
    have hl := readsAs_atPlace 4 (lowestLevel_le_level l) (readsAs_written l us hus)
    have hr := readsAs_atPlace 5 (lowestLevel_le_level r) (readsAs_written r vs hvs)
    have hinfix := readsAs_infix rel.level?_token hl hr fun hpower => by
      cases rel <;> nomatch hpower
    rw [rel.combine_token] at hinfix
    exact hinfix
  | call (.builtin f) es, ts, h => by
    rw [Written] at h
    obtain ⟨us, hus, rfl⟩ := h
    exact readsAs_applied [.builtin f] (.call (.builtin f)) (by simp) (fun _ _ => rfl)
      (readsArguments_written es us hus) _
  | call (.user f) es, ts, h => by
    rw [Written] at h
    obtain ⟨n, us, rfl, hus, rfl⟩ := h
    exact readsAs_applied [.keyword .FN, .name n] (.call (.user ("FN" ++ n))) (by simp)
      (fun _ _ => rfl) (readsArguments_written es us hus) _

/-- The tokens of arguments read as them. -/
theorem readsArguments_written : (es : List Expr) → (ts : List Token) → WrittenAll es ts →
    ∀ rest, ReadsArguments (ts ++ rest) (es, rest)
  | [], ts, h, rest => by
    rw [WrittenAll] at h
    cases h
  | [e], ts, h, rest => by
    rw [WrittenAll] at h
    obtain ⟨us, hus, rfl⟩ := h
    have hread := (readsAs_written e us hus).whole (lowestLevel_le_level e)
    rw [List.append_assoc, List.singleton_append]
    exact readsArguments_singleton hread rest
  | e :: e' :: es, ts, h, rest => by
    rw [WrittenAll] at h
    obtain ⟨us, vs, hus, hvs, rfl⟩ := h
    have hread := (readsAs_written e us hus).whole (lowestLevel_le_level e)
    rw [List.append_assoc, List.cons_append]
    exact readsArguments_cons hread (readsArguments_written (e' :: es) vs hvs rest)

end

/-- An expression is read to its end, whatever follows, unless that is an operator or a left
parenthesis. -/
theorem parse_written {e : Expr} {ts rest : List Token} (h : e.Written ts)
    (hrest : ∀ t, rest.head? = some t → t ≠ .leftParenthesis ∧ ∀ op, t ≠ .operator op) :
    parse (ts ++ rest) = .ok (e, rest) := by
  have hlevel : ReadsLevel lowestLevel (ts ++ rest) (e, rest) :=
    (readsAs_written e ts h).readsLevel (lowestLevel_le_level e) (fun h => (hrest _ h).1 rfl)
      fun op _ h => absurd rfl ((hrest _ h).2 op)
  exact hlevel (3 * (ts ++ rest).length + 2) (by omega)

section Render

variable {spell : Float → String}

/-- At the lowest level there are no parentheses. -/
theorem atPlace_lowestLevel (e : Expr) (ts : List Token) : atPlace 1 e.level ts = ts :=
  if_neg (Nat.not_lt.mpr (lowestLevel_le_level e))

mutual

/-- An expression is written with numerals that are chosen by their values. -/
theorem written_render : (e : Expr) → e.Writable spell → e.Written (e.render spell)
  | literal (.number x), he => by
    rw [Writable] at he
    rw [render, Written]
    exact ⟨spell x, he, rfl⟩
  | literal (.text s), _ => by rw [render, Written]
  | scalar n, _ => by rw [render, Written]
  | element n es, he => by
    rw [Writable] at he
    rw [render, Written]
    exact ⟨_, writtenAll_renderAll es he.1 he.2, rfl⟩
  | unary op e, he => by
    rw [Writable] at he
    rw [render, Written]
    exact ⟨_, written_render e he, rfl⟩
  | binary op l r, he => by
    rw [Writable] at he
    rw [render, Written]
    exact ⟨_, _, written_render l he.1, written_render r he.2, rfl⟩
  | comparison rel l r, he => by
    rw [Writable] at he
    rw [render, Written]
    exact ⟨_, _, written_render l he.1, written_render r he.2, rfl⟩
  | call (.builtin f) es, he => by
    rw [Writable] at he
    rw [render, Written]
    exact ⟨_, writtenAll_renderAll es he.2.1 he.2.2, rfl⟩
  | call (.user n) es, he => by
    rw [Writable] at he
    obtain ⟨n', rfl⟩ := he.1 n rfl
    rw [render, Callee.tokens_user, Written]
    exact ⟨n', _, rfl, writtenAll_renderAll es he.2.1 he.2.2, rfl⟩

/-- Arguments are written with numerals that are chosen by their values. -/
theorem writtenAll_renderAll : (es : List Expr) → es ≠ [] → WritableAll spell es →
    WrittenAll es (renderAll spell es)
  | [e], _, hes => by
    rw [WritableAll] at hes
    rw [renderAll, atPlace_lowestLevel, WrittenAll]
    exact ⟨_, written_render e hes.1, rfl⟩
  | e :: e' :: es, _, hes => by
    rw [WritableAll] at hes
    rw [renderAll, atPlace_lowestLevel, WrittenAll]
    exact ⟨_, _, written_render e hes.1, writtenAll_renderAll (e' :: es) (by simp) hes.2, rfl⟩

end

/-- Leaving out the blanks leaves out no parentheses. -/
theorem filter_atPlace (p l : Nat) (ts : List Token) :
    (atPlace p l ts).filter (! ·.isBlanks) = atPlace p l (ts.filter (! ·.isBlanks)) := by
  unfold atPlace
  split <;> simp [Token.isBlanks_of_ne]

mutual

/-- An expression is written without blanks. -/
theorem filter_render : (e : Expr) → (e.render spell).filter (! ·.isBlanks) = e.render spell
  | literal (.number _) | literal (.text _) | scalar _ => by simp [render, Token.isBlanks_of_ne]
  | element _ es => by simp [render, Token.isBlanks_of_ne, filter_renderAll es]
  | unary _ e => by simp [render, Token.isBlanks_of_ne, filter_atPlace, filter_render e]
  | binary _ l r | comparison _ l r => by
    simp [render, Token.isBlanks_of_ne, filter_atPlace, filter_render l, filter_render r]
  | call c es => by
    cases c <;> simp [render, Callee.tokens, Token.isBlanks_of_ne, filter_renderAll es]

/-- Arguments are written without blanks. -/
theorem filter_renderAll : (es : List Expr) →
    (renderAll spell es).filter (! ·.isBlanks) = renderAll spell es
  | [] => by simp [renderAll, Token.isBlanks_of_ne]
  | [e] => by simp [renderAll, Token.isBlanks_of_ne, filter_atPlace, filter_render e]
  | e :: e' :: es => by
    rw [renderAll]
    simp [Token.isBlanks_of_ne, filter_atPlace, filter_render e, filter_renderAll (e' :: es)]

end

/-- An expression written with the fewest parentheses is read back as it was, and what follows it is
left. The parser sees no blanks, so these may stand anywhere in what follows. -/
theorem parse_render (e : Expr) (rest : List Token) (he : e.Writable spell)
    (hrest : ∀ t, rest.find? (! ·.isBlanks) = some t →
      t ≠ .leftParenthesis ∧ ∀ op, t ≠ .operator op) :
    parse ((e.render spell ++ rest).filter (! ·.isBlanks)) =
      .ok (e, rest.filter (! ·.isBlanks)) := by
  simp only [← List.head?_filter] at hrest
  rw [List.filter_append, filter_render]
  exact parse_written (written_render e he) hrest

end Render

/-- `X AND NOT A-(B(I,J)--C^(-2))<FNF(Y OR Z)`: both prefix operators stand in right operands. -/
def nestedPrefixes : Expr :=
  .binary .conjoin (.scalar "X") <| .unary .complement <| .comparison .less
    (.binary .subtract (.scalar "A") <|
      .binary .subtract (.element "B" [.scalar "I", .scalar "J"]) <|
        .unary .negate (.binary .power (.scalar "C") (.unary .negate (.literal (.number 2)))))
    (.call (.user "FNF") [.binary .disjoin (.scalar "Y") (.scalar "Z")])

/-- The expression is read up to a blank and THEN. -/
theorem parse_render_nestedPrefixes :
    nestedPrefixes.render (fun _ => "2") =
        [.name "X", .operator .and, .operator .not, .name "A", .operator .minus, .leftParenthesis,
          .name "B", .leftParenthesis, .name "I", .comma, .name "J", .rightParenthesis,
          .operator .minus, .operator .minus, .name "C", .operator .power, .leftParenthesis,
          .operator .minus, .numeral "2", .rightParenthesis, .rightParenthesis, .operator .less,
          .keyword .FN, .name "F", .leftParenthesis, .name "Y", .operator .or, .name "Z",
          .rightParenthesis] ∧
      parse ((nestedPrefixes.render (fun _ => "2") ++ [Token.blanks 1, .keyword .THEN]).filter
          (! ·.isBlanks)) =
        .ok (nestedPrefixes, [.keyword .THEN]) := by
  have hnumber : ofNumeral "2" = .ok (.literal (.number 2)) := rfl
  have hname : ∃ n, "FNF" = "FN" ++ n := ⟨"F", rfl⟩
  refine ⟨?_, parse_render nestedPrefixes [.blanks 1, .keyword .THEN] ?_ ?_⟩
  · simp [nestedPrefixes, render, renderAll, atPlace, level, UnaryOp.level, BinaryOp.level,
      UnaryOp.token, BinaryOp.token, Relation.token, Callee.tokens]
  · simp [nestedPrefixes, Writable, WritableAll, hnumber, hname]
  · simp [Token.isBlanks]

end Expr

end CommodoreBasic
