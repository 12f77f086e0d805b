import CommodoreBasic.Proofs.DataText
import CommodoreBasic.Proofs.DecimalTexts
import CommodoreBasic.Proofs.MinimalParentheses

/-!
# Statements written down

A statement is written with the words that the language has for it, its expressions with the fewest
parentheses. Where there is a choice it is left open: LET may be left out, GOTO may be two words, `?`
may stand for PRINT, either separator may stand between printed items, a jump after a condition may be
abbreviated, and REM may have a text. Every form is read back as the statement, up to the colon or the
end behind it, and so are statements with colons between them.

REM takes the rest of its line with it, so nothing may follow it.
-/

namespace CommodoreBasic

open CommodoreBasic.Parser

/-! ## The forms of statements -/

/-- The tokens write the target down. -/
def Target.Written : Target → List Token → Prop
  | scalar n, ts => ts = [.name n]
  | element n es, ts => ∃ us, Expr.WrittenAll es us ∧ ts = .name n :: .leftParenthesis :: us

/-- The numeral of a line number. -/
def LineNumber.token (n : LineNumber) : Token := .numeral (toString n)

/-- The word of a jump. -/
def Jump.word : Jump → Keyword
  | goto => .GOTO
  | gosub => .GOSUB

/-- What stands between printed items. -/
inductive Separator : Token → Prop where
  | semicolon : Separator .semicolon
  | comma : Separator .comma

/-- The tokens write down the items that are printed after others, or the separator at the end that
keeps the line open. -/
inductive Printed : List Expr → (newline : Bool) → List Token → Prop where
  | closed : Printed [] true []
  | opened {t : Token} (ht : Separator t) : Printed [] false [t]
  | cons {t : Token} {e : Expr} {es : List Expr} {newline : Bool} {us vs : List Token}
    (ht : Separator t) (he : e.Written us) (hes : Printed es newline vs) :
    Printed (e :: es) newline (t :: (us ++ vs))

/-- The tokens write the statement down. -/
inductive Statement.Written : Statement → List Token → Prop where
  | assign {t : Target} {e : Expr} {us vs : List Token} (ht : t.Written us) (he : e.Written vs) :
    Written (.assign t e) (us ++ .operator .equal :: vs)
  | letAssign {t : Target} {e : Expr} {us vs : List Token} (ht : t.Written us) (he : e.Written vs) :
    Written (.assign t e) (.keyword .LET :: (us ++ .operator .equal :: vs))
  | data {items : List Value} {w : List Char} (h : Joined Value.Spelled ',' items w) :
    Written (.data items) [.keyword .DATA, .unknown (String.ofList (' ' :: w))]
  | define {f : String} {parameter : Name} {body : Expr} {us : List Token} (he : body.Written us) :
    Written (.define ("FN" ++ f) parameter body)
      (.keyword .DEF :: .keyword .FN :: .name f :: .leftParenthesis :: .name parameter ::
        .rightParenthesis :: .operator .equal :: us)
  | dimension {arrays : List (Name × List Expr)} {us : List Token}
    (h : Joined Target.Written .comma (arrays.map fun a => .element a.1 a.2) us) :
    Written (.dimension arrays) (.keyword .DIM :: us)
  | finish : Written .finish [.keyword .END]
  | loop {counter : Name} {start limit : Expr} {us vs : List Token} (hstart : start.Written us)
    (hlimit : limit.Written vs) :
    Written (.loop counter start limit none)
      (.keyword .FOR :: .name counter :: .operator .equal :: (us ++ .keyword .TO :: vs))
  | loopStep {counter : Name} {start limit step : Expr} {us vs ws : List Token}
    (hstart : start.Written us) (hlimit : limit.Written vs) (hstep : step.Written ws) :
    Written (.loop counter start limit (some step))
      (.keyword .FOR :: .name counter :: .operator .equal ::
        (us ++ .keyword .TO :: (vs ++ .keyword .STEP :: ws)))
  | jump (j : Jump) (n : LineNumber) : Written (.jump j n) [.keyword j.word, n.token]
  | goTo (n : LineNumber) : Written (.jump .goto n) [.keyword .GO, .keyword .TO, n.token]
  | ifThen {condition : Expr} {s : Statement} {us vs : List Token} (hc : condition.Written us)
    (hs : s.Written vs) : Written (.ifThen condition s) (.keyword .IF :: (us ++ .keyword .THEN :: vs))
  | ifThenLine {condition : Expr} {us : List Token} (hc : condition.Written us) (n : LineNumber) :
    Written (.ifThen condition (.jump .goto n)) (.keyword .IF :: (us ++ [.keyword .THEN, n.token]))
  | ifGoto {condition : Expr} {us : List Token} (hc : condition.Written us) (n : LineNumber) :
    Written (.ifThen condition (.jump .goto n)) (.keyword .IF :: (us ++ [.keyword .GOTO, n.token]))
  | input {targets : List Target} {us : List Token} (h : Joined Target.Written .comma targets us) :
    Written (.input none targets) (.keyword .INPUT :: us)
  | inputPrompt {prompt : String} {targets : List Target} {us : List Token}
    (h : Joined Target.Written .comma targets us) :
    Written (.input (some prompt) targets) (.keyword .INPUT :: .quoted prompt :: .semicolon :: us)
  | next : Written (.next none) [.keyword .NEXT]
  | nextCounter (n : Name) : Written (.next (some n)) [.keyword .NEXT, .name n]
  | on {selector : Expr} {us vs : List Token} (j : Jump) {lines : List LineNumber}
    (he : selector.Written us) (h : Joined (fun n ts => ts = [LineNumber.token n]) .comma lines vs) :
    Written (.on selector j lines) (.keyword .ON :: (us ++ .keyword j.word :: vs))
  | printNothing {word : Keyword} {newline : Bool} {us : List Token}
    (hword : word = .PRINT ∨ word = .QUESTION) (h : Printed [] newline us) :
    Written (.print [] newline) (.keyword word :: us)
  | print {word : Keyword} {e : Expr} {es : List Expr} {newline : Bool} {us vs : List Token}
    (hword : word = .PRINT ∨ word = .QUESTION) (he : e.Written us) (h : Printed es newline vs) :
    Written (.print (e :: es) newline) (.keyword word :: (us ++ vs))
  | read {targets : List Target} {us : List Token} (h : Joined Target.Written .comma targets us) :
    Written (.read targets) (.keyword .READ :: us)
  | remark : Written .remark [.keyword .REM]
  | remarkText {w : List Char} (hw : ∀ c ∈ w, Text.isLineEnd c = false) :
    Written .remark [.keyword .REM, .unknown (String.ofList (' ' :: w))]
  | restore (line : Option LineNumber) :
    Written (.restore line) (.keyword .RESTORE :: (line.map LineNumber.token).toList)
  | comeBack : Written .comeBack [.keyword .RETURN]
  | run (line : Option LineNumber) :
    Written (.run line) (.keyword .RUN :: (line.map LineNumber.token).toList)
  | stop : Written .stop [.keyword .STOP]

/-! ## Well-formed statements -/

/-- Names of user functions differ behind FN. -/
theorem Name.eq_of_function_eq {n n' : Name} (h : "FN" ++ n = "FN" ++ n') : n = n' := by
  have htail := congrArg String.toList h
  exact String.toList_inj.mp (by simpa using htail)

namespace Expr

mutual

/-- The expression can be listed: names are plain, texts hold no quotation mark, numbers have numerals,
lists are not empty and the names of user functions begin with FN. -/
def WellFormed : Expr → Prop
  | literal (.number x) =>
    ∃ w, Token.IsNumeral w ∧ ofNumeral (Token.capitals w) = .ok (literal (.number x))
  | literal (.text s) => Text.quotationMark ∉ s.toList
  | scalar n => n.isPlain = true
  | element n es => n.isPlain = true ∧ es ≠ [] ∧ WellFormedAll es
  | unary _ e => e.WellFormed
  | binary _ l r => l.WellFormed ∧ r.WellFormed
  | comparison _ l r => l.WellFormed ∧ r.WellFormed
  | call (.builtin _) es => es ≠ [] ∧ WellFormedAll es
  | call (.user f) es => (∃ n : Name, f = "FN" ++ n ∧ n.isPlain = true) ∧ es ≠ [] ∧ WellFormedAll es

/-- All of the expressions can be listed. -/
def WellFormedAll : List Expr → Prop
  | [] => True
  | e :: es => e.WellFormed ∧ WellFormedAll es

end

end Expr

/-- The target can be listed. -/
def Target.WellFormed : Target → Prop
  | scalar n => n.isPlain = true
  | element n es => n.isPlain = true ∧ es ≠ [] ∧ Expr.WellFormedAll es

/-- The constant can be listed in DATA. -/
def Value.WellFormed : Value → Prop
  | number x => ∃ w, Number.readFinite? w = some x
  | text s => Text.quotationMark ∉ s.toList

/-- The statement can be listed: what it is made of can, its lists are not empty, line numbers are in
their range, and the counter of a loop, a function that is defined and its parameter are numeric. -/
def Statement.WellFormed : Statement → Prop
  | assign t e => t.WellFormed ∧ e.WellFormed
  | data items => items ≠ [] ∧ ∀ v ∈ items, v.WellFormed
  | define f parameter body =>
    (∃ n : Name, f = "FN" ++ n ∧ n.isPlain = true ∧ n.isText = false) ∧
      parameter.isPlain = true ∧ parameter.isText = false ∧ body.WellFormed
  | dimension arrays => arrays ≠ [] ∧ ∀ a ∈ arrays, (Target.element a.1 a.2).WellFormed
  | loop counter start limit step =>
    counter.isPlain = true ∧ counter.isText = false ∧ start.WellFormed ∧ limit.WellFormed ∧
      ∀ e ∈ step, e.WellFormed
  | jump _ line => line ≤ LineNumber.greatest
  | ifThen condition s => condition.WellFormed ∧ s.WellFormed
  | input prompt targets =>
    (∀ s ∈ prompt, Text.quotationMark ∉ s.toList) ∧ targets ≠ [] ∧ ∀ t ∈ targets, t.WellFormed
  | next counter => ∀ n ∈ counter, n.isPlain = true
  | on selector _ lines =>
    selector.WellFormed ∧ lines ≠ [] ∧ ∀ n ∈ lines, n ≤ LineNumber.greatest
  | print items _ => ∀ e ∈ items, e.WellFormed
  | read targets => targets ≠ [] ∧ ∀ t ∈ targets, t.WellFormed
  | restore line => ∀ n ∈ line, n ≤ LineNumber.greatest
  | run line => ∀ n ∈ line, n ≤ LineNumber.greatest
  | finish | remark | comeBack | stop => True

/-! ## Reading the parts of statements -/

/-- What follows a statement: nothing, or a colon. -/
def Closes (rest : List Token) : Prop := ∀ t, rest.head? = some t → t = .colon

variable {rest : List Token}

/-- A written list of expressions is parsed back. -/
theorem Expr.parseList_written {es : List Expr} {ts : List Token} (h : WrittenAll es ts)
    (rest : List Token) : parseList (ts ++ rest) = .ok (es, rest) :=
  readsArguments_written es ts h rest (3 * (ts ++ rest).length + 1) (by omega)

/-- So is a target with no parenthesis behind it. -/
theorem Target.parse_written {t : Target} {ts : List Token} (h : t.Written ts)
    (hrest : rest.head? ≠ some .leftParenthesis) : Target.parse (ts ++ rest) = .ok (t, rest) := by
  cases t with
  | scalar n =>
    rw [Written] at h
    subst h
    cases rest with
    | nil => rfl
    | cons u rest => cases u <;> first | rfl | simp at hrest
  | element n es =>
    rw [Written] at h
    obtain ⟨us, hus, rfl⟩ := h
    rw [List.cons_append, List.cons_append, Target.parse, Expr.parseList_written hus]
    rfl

/-- A target begins with its name. -/
theorem Target.Written.head {t : Target} {ts : List Token} (h : t.Written ts) :
    ∃ n us, ts = .name n :: us := by
  cases t with
  | scalar n =>
    rw [Target.Written] at h
    exact ⟨n, [], h⟩
  | element n es =>
    rw [Target.Written] at h
    obtain ⟨us, -, rfl⟩ := h
    exact ⟨n, _, rfl⟩

/-- A parser goes on with what the one before it has read. -/
theorem ok_bind {α β : Type} (a : α) (f : α → Except Error β) : (Except.ok a >>= f) = f a := rfl

/-- Targets with commas between them are read up to the first token that is none. -/
theorem Target.parseUpTo_joined {targets : List Target} {ts : List Token}
    (h : Joined Target.Written .comma targets ts) (hne : targets ≠ [])
    (hrest : Closes rest) (count : Nat) (hcount : ts.length < count) :
    parseUpTo count (ts ++ rest) = .ok (targets, rest) := by
  induction h generalizing count with
  | nil => exact absurd rfl hne
  | @single t us h =>
    obtain ⟨count, rfl⟩ : ∃ n, count = n + 1 := ⟨count - 1, by omega⟩
    have hparse := Target.parse_written h fun hhead => nomatch hrest _ hhead
    rw [parseUpTo, hparse, ok_bind]
    cases rest with
    | nil => rfl
    | cons u rest =>
      obtain rfl := hrest u rfl
      rfl
  | @cons t t' ts us vs h _ ih =>
    obtain ⟨count, rfl⟩ : ∃ n, count = n + 1 := ⟨count - 1, by omega⟩
    have hparse : Target.parse (us ++ .comma :: (vs ++ rest)) = .ok (t, .comma :: (vs ++ rest)) :=
      Target.parse_written h (by simp)
    have hvs : vs.length < count := by
      simp only [List.length_append, List.length_cons] at hcount
      omega
    rw [List.append_assoc, List.cons_append, parseUpTo, hparse, ok_bind]
    dsimp only
    rw [ih (by simp) count hvs]
    rfl

/-- A written list of targets is parsed back. -/
theorem Target.parseList_joined {targets : List Target} {ts : List Token}
    (h : Joined Target.Written .comma targets ts) (hne : targets ≠ []) (hrest : Closes rest) :
    Target.parseList (ts ++ rest) = .ok (targets, rest) :=
  parseUpTo_joined h hne hrest _ (by simp only [List.length_append]; omega)

namespace LineNumber

/-- A line number is shown by its digits. -/
theorem toList_toString (n : LineNumber) : (toString n).toList = Nat.toDigits 10 n := by
  rw [Nat.toString_eq_ofList_toDigits, String.toList_ofList]

/-- Nothing but digits is shown. -/
theorem isDigits_toString (n : LineNumber) : Decimal.IsDigits (toString n).toList := by
  rw [toList_toString]
  exact Decimal.isDigits_toDigits n

/-- So every character is a digit. -/
theorem isDigit_of_mem_toString {n : LineNumber} {c : Char} (hc : c ∈ (toString n).toList) :
    c.isDigit = true := (isDigits_toString n).isDigit c hc

/-- There is one at least. -/
theorem toList_toString_ne_nil (n : LineNumber) : (toString n).toList ≠ [] :=
  (isDigits_toString n).ne_nil

/-- The digits of a line number make it up. -/
theorem ofDigits_toString (n : LineNumber) : Decimal.ofDigits (toString n).toList = n := by
  rw [toList_toString, Decimal.ofDigits_toDigits]

/-- It is spelled out as a decimal. -/
theorem spelled_toString (n : LineNumber) : Decimal.Spelled ⟨n, 0⟩ (toString n).toList := by
  have hspelled := Decimal.Spelled.whole (isDigits_toString n)
  rwa [ofDigits_toString] at hspelled

end LineNumber

/-- The numeral of a line number is read as it. -/
theorem lineNumberOf_token {n : LineNumber} (hn : n ≤ LineNumber.greatest) :
    lineNumberOf n.token = .ok n := by
  have hall : (toString n).toList.all Char.isDigit = true :=
    List.all_eq_true.mpr fun c hc => LineNumber.isDigit_of_mem_toString hc
  rw [LineNumber.token, lineNumberOf, LineNumber.ofDigits_toString, hall]
  simp [hn]

/-- The token of a line number is parsed back. -/
theorem lineNumber_token {n : LineNumber} (hn : n ≤ LineNumber.greatest) (rest : List Token) :
    lineNumber (n.token :: rest) = .ok (n, rest) := by
  rw [lineNumber, lineNumberOf_token hn, ok_bind]
  rfl

/-- So is a list of them. -/
theorem lineNumbers_joined {lines : List LineNumber} {ts : List Token}
    (h : Joined (fun n ts => ts = [LineNumber.token n]) .comma lines ts) (hne : lines ≠ [])
    (hlines : ∀ n ∈ lines, n ≤ LineNumber.greatest) (hrest : Closes rest) :
    lineNumbers (ts ++ rest) = .ok (lines, rest) := by
  induction h with
  | nil => exact absurd rfl hne
  | @single n us h =>
    subst h
    have hn := lineNumberOf_token (hlines n (by simp))
    have hlast : lineNumbers (n.token :: rest) = (do return ([← lineNumberOf n.token], rest)) := by
      cases rest with
      | nil => rfl
      | cons t rest =>
        obtain rfl := hrest t rfl
        rfl
    rw [List.singleton_append, hlast, hn]
    rfl
  | @cons n n' ns us vs h _ ih =>
    subst h
    have hn := lineNumberOf_token (hlines n (by simp))
    have htail := ih (by simp) fun m hm => hlines m (List.mem_cons_of_mem n hm)
    simp only [List.cons_append, List.nil_append, lineNumbers, hn, htail, ok_bind]
    rfl

/-- So is one that may be missing. -/
theorem lineNumber?_token {line : Option LineNumber} (hline : ∀ n ∈ line, n ≤ LineNumber.greatest)
    (hrest : Closes rest) :
    lineNumber? ((line.map LineNumber.token).toList ++ rest) = .ok (line, rest) := by
  cases line with
  | none =>
    cases rest with
    | nil => rfl
    | cons t rest =>
      obtain rfl := hrest t rfl
      rfl
  | some n =>
    have hn := lineNumberOf_token (hline n rfl)
    rw [LineNumber.token] at hn
    simp only [Option.map_some, Option.toList_some, List.singleton_append, LineNumber.token,
      lineNumber?, hn, ok_bind]
    rfl

/-- An expression is written with one token at least. -/
theorem Expr.Written.ne_nil {e : Expr} {us : List Token} (he : e.Written us) : us ≠ [] := by
  rintro rfl
  have hparse : Expr.parse ([] ++ []) = .ok (e, []) := Expr.parse_written he (by simp)
  cases hparse

/-- An expression among printed items is read as one, since none begins with a separator. -/
theorem printItems_written {e : Expr} {us : List Token} (he : e.Written us)
    (hrest : ∀ t, rest.head? = some t → t ≠ .leftParenthesis ∧ ∀ op, t ≠ .operator op)
    {count : Nat} {es : List Expr} {opened newline : Bool} {out : List Token}
    (hitems : printItems count true rest = .ok ((es, newline), out)) :
    printItems (count + 1) opened (us ++ rest) = .ok ((e :: es, newline), out) := by
  have hparse := Expr.parse_written he hrest
  generalize us ++ rest = ts at hparse ⊢
  have hitem : printItems (count + 1) opened ts =
      Expr.parse ts >>= fun r => printItems count true r.2 >>= fun p =>
        return ((r.1 :: p.1.1, p.1.2), p.2) := by
    cases ts with
    | nil => cases hparse
    | cons t ts => cases t <;> first | rfl | cases hparse
  rw [hitem, hparse, ok_bind, hitems]
  rfl

/-- The items of PRINT do not go on with what would belong to the one before. -/
theorem Printed.follows {es : List Expr} {newline : Bool} {ts : List Token}
    (h : Printed es newline ts) (hrest : Closes rest) (t : Token)
    (ht : (ts ++ rest).head? = some t) : t ≠ .leftParenthesis ∧ ∀ op, t ≠ .operator op := by
  have hseparator {t : Token} (ht : Separator t) : t ≠ .leftParenthesis ∧ ∀ op, t ≠ .operator op := by
    cases ht <;> simp
  cases h with
  | closed =>
    obtain rfl := hrest t ht
    simp
  | opened hs =>
    cases ht
    exact hseparator hs
  | cons hs =>
    cases ht
    exact hseparator hs

/-- Printed items are read to the end of the statement. -/
theorem printItems_printed {es : List Expr} {newline : Bool} {ts : List Token}
    (h : Printed es newline ts) (hrest : Closes rest) (count : Nat) (hcount : ts.length < count) :
    printItems count true (ts ++ rest) = .ok ((es, newline), rest) := by
  have hend (count : Nat) (newline : Bool) :
      printItems (count + 1) newline rest = .ok (([], newline), rest) := by
    cases rest with
    | nil => rfl
    | cons t rest =>
      obtain rfl := hrest t rfl
      rfl
  have hskip (count : Nat) {t : Token} (ht : Separator t) (ts : List Token) :
      printItems (count + 1) true (t :: ts) = printItems count false ts := by
    cases ht <;> rfl
  induction h generalizing count with
  | closed =>
    obtain ⟨count, rfl⟩ : ∃ n, count = n + 1 := ⟨count - 1, by omega⟩
    exact hend count true
  | opened ht =>
    obtain ⟨count, rfl⟩ : ∃ n, count = n + 2 := ⟨count - 2, by simp at hcount; omega⟩
    rw [List.singleton_append, hskip _ ht, hend]
  | @cons t e es newline us vs ht he hes ih =>
    simp only [List.length_cons, List.length_append] at hcount
    obtain ⟨count, rfl⟩ : ∃ n, count = n + 2 := ⟨count - 2, by omega⟩
    have hus := List.length_pos_iff.mpr he.ne_nil
    rw [List.cons_append, hskip _ ht, List.append_assoc]
    exact printItems_written he (hes.follows hrest) (ih count (by omega))

/-! ## Reading statements -/

/-- A colon or the end does not continue an expression. -/
theorem Closes.follows (hrest : Closes rest) (t : Token) (ht : rest.head? = some t) :
    t ≠ .leftParenthesis ∧ ∀ op, t ≠ .operator op := by
  obtain rfl := hrest t ht
  simp

/-- Neither does a reserved word. -/
theorem keyword_follows (k : Keyword) (rest : List Token) (t : Token)
    (ht : (Token.keyword k :: rest).head? = some t) :
    t ≠ .leftParenthesis ∧ ∀ op, t ≠ .operator op := by
  cases ht
  simp

/-- A token that is expected is taken. -/
theorem expect_self (t : Token) (c : Complaint) (ts : List Token) :
    expect t c (t :: ts) = .ok ((), ts) := if_pos rfl

/-- Elements are the arrays that DIM asks for. -/
theorem arraysOf_elements (arrays : List (Name × List Expr)) :
    arraysOf (arrays.map fun a => .element a.1 a.2) = .ok arrays := by
  induction arrays with
  | nil => rfl
  | cons a arrays ih =>
    rw [List.map_cons, arraysOf, ih]
    rfl

namespace Statement

/-- A written assignment is parsed back. -/
theorem parseAssign_written {t : Target} {e : Expr} {us vs : List Token} (ht : t.Written us)
    (he : e.Written vs) (hrest : Closes rest) :
    parseAssign (us ++ .operator .equal :: vs ++ rest) = .ok (.assign t e, rest) := by
  have htarget : Target.parse (us ++ .operator .equal :: (vs ++ rest)) =
      .ok (t, .operator .equal :: (vs ++ rest)) := Target.parse_written ht (by simp)
  rw [List.append_assoc, List.cons_append, parseAssign, htarget, ok_bind]
  dsimp only
  rw [expect_self, ok_bind]
  dsimp only
  rw [Expr.parse_written he hrest.follows]
  rfl

/-- So is the definition of a function. -/
theorem parseDefine_written {f : Name} {parameter : Name} {body : Expr} {us : List Token}
    (he : body.Written us) (hf : f.isText = false) (hparameter : parameter.isText = false)
    (hrest : Closes rest) :
    parseDefine (.keyword .FN :: .name f :: .leftParenthesis :: .name parameter ::
        .rightParenthesis :: .operator .equal :: (us ++ rest)) =
      .ok (.define ("FN" ++ f) parameter body, rest) := by
  simp only [parseDefine, expect_self, variableName, ok_bind, hf, hparameter,
    Expr.parse_written he hrest.follows]
  rfl

/-- So is FOR without STEP. -/
theorem parseLoop_written {counter : Name} {start limit : Expr} {us vs : List Token}
    (hcounter : counter.isText = false) (hstart : start.Written us) (hlimit : limit.Written vs)
    (hrest : Closes rest) :
    parseLoop (.name counter :: .operator .equal :: (us ++ .keyword .TO :: (vs ++ rest))) =
      .ok (.loop counter start limit none, rest) := by
  have hto := Expr.parse_written hstart (keyword_follows .TO (vs ++ rest))
  simp only [parseLoop, expect_self, variableName, ok_bind, hcounter, hto,
    Expr.parse_written hlimit hrest.follows]
  cases rest with
  | nil => rfl
  | cons t rest =>
    obtain rfl := hrest t rfl
    rfl

/-- So is FOR with STEP. -/
theorem parseLoop_written_step {counter : Name} {start limit step : Expr} {us vs ws : List Token}
    (hcounter : counter.isText = false) (hstart : start.Written us) (hlimit : limit.Written vs)
    (hstep : step.Written ws) (hrest : Closes rest) :
    parseLoop (.name counter :: .operator .equal ::
        (us ++ .keyword .TO :: (vs ++ .keyword .STEP :: (ws ++ rest)))) =
      .ok (.loop counter start limit (some step), rest) := by
  have hto := Expr.parse_written hstart (keyword_follows .TO (vs ++ .keyword .STEP :: (ws ++ rest)))
  have hword := Expr.parse_written hlimit (keyword_follows .STEP (ws ++ rest))
  simp only [parseLoop, expect_self, variableName, ok_bind, hcounter, hto, hword,
    Expr.parse_written hstep hrest.follows]
  rfl

/-- So is ON. -/
theorem parseOn_written {selector : Expr} {us vs : List Token} {lines : List LineNumber} (j : Jump)
    (he : selector.Written us) (h : Joined (fun n ts => ts = [LineNumber.token n]) .comma lines vs)
    (hne : lines ≠ []) (hlines : ∀ n ∈ lines, n ≤ LineNumber.greatest) (hrest : Closes rest) :
    parseOn (us ++ .keyword j.word :: (vs ++ rest)) = .ok (.on selector j lines, rest) := by
  have hword := Expr.parse_written he (keyword_follows j.word (vs ++ rest))
  simp only [parseOn, hword, ok_bind]
  cases j <;> simp only [Jump.word, lineNumbers_joined h hne hlines hrest, ok_bind] <;> rfl

/-- So is INPUT without a prompt. -/
theorem parseInput_written {targets : List Target} {us : List Token}
    (h : Joined Target.Written .comma targets us) (hne : targets ≠ []) (hrest : Closes rest) :
    parseInput (us ++ rest) = .ok (.input none targets, rest) := by
  have hlist := Target.parseList_joined h hne hrest
  generalize us ++ rest = ts at hlist ⊢
  have hplain : parseInput ts =
      Target.parseList ts >>= fun r => return (.input none r.1, r.2) := by
    cases ts with
    | nil => rfl
    | cons t ts => cases t <;> first | rfl | cases hlist
  rw [hplain, hlist]
  rfl

/-- So is PRINT with items. -/
theorem parsePrint_written {e : Expr} {es : List Expr} {newline : Bool} {us vs : List Token}
    (he : e.Written us) (h : Printed es newline vs) (hrest : Closes rest) :
    parsePrint (us ++ vs ++ rest) = .ok (.print (e :: es) newline, rest) := by
  have hus := List.length_pos_iff.mpr he.ne_nil
  have hitems := printItems_printed h hrest (us ++ (vs ++ rest)).length (by
    simp only [List.length_append]
    omega)
  rw [parsePrint, List.append_assoc, printItems_written he (h.follows hrest) hitems]
  rfl

/-- So is PRINT without items. -/
theorem parsePrint_nothing {newline : Bool} {us : List Token} (h : Printed [] newline us)
    (hrest : Closes rest) : parsePrint (us ++ rest) = .ok (.print [] newline, rest) := by
  have hitems := printItems_printed h hrest ((us ++ rest).length + 1) (by
    simp only [List.length_append]
    omega)
  rw [parsePrint, hitems]
  rfl

/-- NEXT without a counter has none. -/
theorem counters_none (hrest : Closes rest) : counters rest = .ok ([none], rest) := by
  cases rest with
  | nil => rfl
  | cons t rest =>
    obtain rfl := hrest t rfl
    rfl

/-- NEXT with a counter has that one. -/
theorem counters_some (n : Name) (hrest : Closes rest) :
    counters (.name n :: rest) = .ok ([some n], rest) := by
  cases rest with
  | nil => rfl
  | cons t rest =>
    obtain rfl := hrest t rfl
    rfl

/-- A jump to a line is parsed back. -/
theorem parseJump_token (j : Jump) {n : LineNumber} (hn : n ≤ LineNumber.greatest)
    (rest : List Token) : parseJump j (n.token :: rest) = .ok (.jump j n, rest) := by
  rw [parseJump, lineNumber_token hn]
  rfl

/-- Behind THEN, a statement is told from a line number by its first token. -/
theorem Written.head {s : Statement} {ts : List Token} (h : s.Written ts) :
    ∃ t us, ts = t :: us ∧ ((∃ k, t = .keyword k) ∨ ∃ n, t = .name n) := by
  cases h with
  | assign ht he =>
    obtain ⟨n, us, rfl⟩ := ht.head
    exact ⟨_, _, rfl, .inr ⟨n, rfl⟩⟩
  | _ => exact ⟨_, _, rfl, .inl ⟨_, rfl⟩⟩

/-- A written statement is read to its end. The induction is for the statements under IFs. -/
theorem parseUnder_written {s : Statement} {ts : List Token} (h : s.Written ts) (hs : s.WellFormed)
    (hrest : Closes rest) (hremark : s.stripIfs = .remark → rest = []) (depth : Nat)
    (hdepth : ts.length < depth) : parseUnder depth (ts ++ rest) = .ok (s, rest) := by
  obtain ⟨depth, rfl⟩ : ∃ n, depth = n + 1 := ⟨depth - 1, by omega⟩
  induction h generalizing depth with
  | assign ht he =>
    have hassign := parseAssign_written ht he hrest
    obtain ⟨n, us, rfl⟩ := ht.head
    exact hassign
  | letAssign ht he => exact parseAssign_written ht he hrest
  | data h =>
    simp only [List.cons_append, List.nil_append, parseUnder, parseAfter, parseData,
      constants_split h hs.1]
    rfl
  | @define f parameter body us he =>
    obtain ⟨⟨n, hn, -, hf⟩, -, hparameter, -⟩ := hs
    obtain rfl := Name.eq_of_function_eq hn
    exact parseDefine_written he hf hparameter hrest
  | dimension h =>
    have hlist := Target.parseList_joined h (by simpa using hs.1) hrest
    simp only [List.cons_append, parseUnder, parseAfter, parseDimension, hlist, ok_bind,
      arraysOf_elements]
    rfl
  | finish => rfl
  | loop hstart hlimit =>
    simp only [List.cons_append, List.append_assoc]
    exact parseLoop_written hs.2.1 hstart hlimit hrest
  | loopStep hstart hlimit hstep =>
    simp only [List.cons_append, List.append_assoc]
    exact parseLoop_written_step hs.2.1 hstart hlimit hstep hrest
  | jump j n =>
    cases j
    · exact parseJump_token .goto hs rest
    · exact parseJump_token .gosub hs rest
  | goTo n => exact parseJump_token .goto hs rest
  | @ifThen condition s us vs hc hwritten ih =>
    simp only [List.length_cons, List.length_append] at hdepth
    obtain ⟨depth, rfl⟩ : ∃ n, depth = n + 1 := ⟨depth - 1, by omega⟩
    have hcondition := Expr.parse_written hc (keyword_follows .THEN (vs ++ rest))
    have hconsequent := ih hs.2 hremark depth (by omega)
    obtain ⟨t, vs, rfl, ht⟩ := hwritten.head
    simp only [List.cons_append, List.append_assoc] at hcondition hconsequent ⊢
    rw [parseUnder, hcondition, ok_bind]
    rcases ht with ⟨k, rfl⟩ | ⟨n, rfl⟩ <;> dsimp only <;> rw [hconsequent] <;> rfl
  | @ifThenLine condition us hc n =>
    have hcondition := Expr.parse_written hc (keyword_follows .THEN (n.token :: rest))
    simp only [List.cons_append, List.append_assoc, List.nil_append, parseUnder, hcondition, ok_bind]
    change (parseJump .goto (n.token :: rest) >>= _) = _
    rw [parseJump_token .goto hs.2 rest]
    rfl
  | @ifGoto condition us hc n =>
    have hcondition := Expr.parse_written hc (keyword_follows .GOTO (n.token :: rest))
    simp only [List.cons_append, List.append_assoc, List.nil_append, parseUnder, hcondition, ok_bind,
      parseJump_token .goto hs.2 rest]
    rfl
  | input h => exact parseInput_written h hs.2.1 hrest
  | inputPrompt h =>
    have hlist := Target.parseList_joined h hs.2.1 hrest
    simp only [List.cons_append, parseUnder, parseAfter, parseInput, expect_self, hlist, ok_bind]
    rfl
  | next =>
    simp only [List.cons_append, List.nil_append, parseUnder, parseAfter, counters_none hrest, ok_bind]
    rfl
  | nextCounter n =>
    simp only [List.cons_append, List.nil_append, parseUnder, parseAfter, counters_some n hrest,
      ok_bind]
    rfl
  | on j he h =>
    simp only [List.cons_append, List.append_assoc]
    exact parseOn_written j he h hs.2.1 hs.2.2 hrest
  | printNothing hword h =>
    rcases hword with rfl | rfl <;> exact parsePrint_nothing h hrest
  | print hword he h =>
    rcases hword with rfl | rfl <;> exact parsePrint_written he h hrest
  | read h =>
    have hlist := Target.parseList_joined h hs.1 hrest
    simp only [List.cons_append, parseUnder, parseAfter, hlist, ok_bind]
    rfl
  | remark | remarkText =>
    obtain rfl := hremark rfl
    rfl
  | restore line =>
    simp only [List.cons_append, parseUnder, parseAfter, lineNumber?_token hs hrest, ok_bind]
    rfl
  | comeBack => rfl
  | run line =>
    simp only [List.cons_append, parseUnder, parseAfter, lineNumber?_token hs hrest, ok_bind]
    rfl
  | stop => rfl

/-- A statement is all that stands before the next colon. -/
theorem parsePart_written {s : Statement} {ts : List Token} (h : s.Written ts) (hs : s.WellFormed)
    (hrest : Closes rest) (hremark : s.stripIfs = .remark → rest = []) :
    parsePart (ts ++ rest) = .ok ([s], rest) := by
  have hparse : Statement.parse (ts ++ rest) = .ok (s, rest) :=
    parseUnder_written h hs hrest hremark _ (by simp only [List.length_append]; omega)
  have hother (t : Token) (us : List Token) (ht : t ≠ .keyword .NEXT) :
      parsePart (t :: us) = Statement.parse (t :: us) >>= fun r => return ([r.1], r.2) := by
    cases t with
    | keyword k => cases k <;> first | rfl | exact absurd rfl ht
    | _ => rfl
  cases h with
  | next =>
    simp only [List.cons_append, List.nil_append, parsePart, counters_none hrest, ok_bind]
    rfl
  | nextCounter n =>
    simp only [List.cons_append, List.nil_append, parsePart, counters_some n hrest, ok_bind]
    rfl
  | assign ht he =>
    obtain ⟨n, us, rfl⟩ := ht.head
    simp only [List.cons_append] at hparse ⊢
    rw [hother _ _ (by simp), hparse]
    rfl
  | jump j n =>
    simp only [List.cons_append] at hparse ⊢
    rw [hother _ _ (by cases j <;> simp [Jump.word]), hparse]
    rfl
  | printNothing hword h =>
    rw [List.cons_append] at hparse ⊢
    rw [hother _ _ (by rcases hword with rfl | rfl <;> simp), hparse]
    rfl
  | print hword he h =>
    rw [List.cons_append] at hparse ⊢
    rw [hother _ _ (by rcases hword with rfl | rfl <;> simp), hparse]
    rfl
  | _ =>
    rw [List.cons_append] at hparse ⊢
    rw [hother _ _ (by simp), hparse]
    rfl

/-- Statements with colons between them are read back. -/
theorem parseParts_joined {statements : List Statement} {ts : List Token}
    (h : Joined Written .colon statements ts) (hs : ∀ s ∈ statements, s.WellFormed)
    (hremark : ∀ s ∈ statements.dropLast, s.stripIfs ≠ .remark) (count : Nat)
    (hcount : ts.length < count) : parseParts count ts = .ok statements := by
  obtain ⟨count, rfl⟩ : ∃ n, count = n + 1 := ⟨count - 1, by omega⟩
  have hlast {t : Token} {us : List Token} {part : List Statement} (count : Nat)
      (ht : (∃ k, t = .keyword k) ∨ ∃ n, t = .name n) (hread : parsePart (t :: us) = .ok (part, [])) :
      parseParts (count + 1) (t :: us) = .ok part := by
    rcases ht with ⟨k, rfl⟩ | ⟨n, rfl⟩ <;> change (parsePart _ >>= _) = _ <;> rw [hread] <;> rfl
  have hnext {t : Token} {us vs : List Token} {part tail : List Statement} {count : Nat}
      (ht : (∃ k, t = .keyword k) ∨ ∃ n, t = .name n)
      (hread : parsePart (t :: us) = .ok (part, .colon :: vs))
      (htail : parseParts count vs = .ok tail) :
      parseParts (count + 1) (t :: us) = .ok (part ++ tail) := by
    rcases ht with ⟨k, rfl⟩ | ⟨n, rfl⟩ <;> change (parsePart _ >>= _) = _ <;> rw [hread] <;>
      change (parseParts count vs >>= _) = _ <;> rw [htail] <;> rfl
  induction h generalizing count with
  | nil => rfl
  | @single s us h =>
    have hread : parsePart (us ++ []) = .ok ([s], []) :=
      parsePart_written h (hs s (by simp)) (by simp [Closes]) fun _ => rfl
    obtain ⟨t, us, rfl, ht⟩ := h.head
    rw [List.append_nil] at hread
    exact hlast count ht hread
  | @cons s s' ss us vs h _ ih =>
    have hread : parsePart (us ++ .colon :: vs) = .ok ([s], .colon :: vs) :=
      parsePart_written h (hs s (by simp)) (by simp [Closes])
        fun hr => absurd hr (hremark s (by simp))
    have hus : 0 < us.length := by
      obtain ⟨t, us, rfl, -⟩ := h.head
      simp
    simp only [List.length_append, List.length_cons] at hcount
    obtain ⟨count, rfl⟩ : ∃ n, count = n + 1 := ⟨count - 1, by omega⟩
    have htail := ih (fun s hmem => hs s (List.mem_cons_of_mem _ hmem))
      (fun s hmem => hremark s (by simp [hmem])) count (by omega)
    obtain ⟨t, us, rfl, ht⟩ := h.head
    exact hnext ht hread htail

end Statement

end CommodoreBasic
