import CommodoreBasic.Proofs.ComparedStatements

/-!
# Colons compose

Every part of the grammar takes a colon for the end of the line, whether the tokens before it can be
read or not. So a line that is given more tokens behind a colon is read as it was without them, and
then read on behind the colon. Where it failed, it fails with an error of the same kind, though it may
complain of something else: behind GOTO a line number is missing at the end of the line and invalid at a
colon.

Two pairs of readings say this. With nothing behind the tokens, a line is compared with itself under
another bound on the number of its parts. With a colon behind them, REM must not be among the tokens,
since it is the only word that does not end at a colon.
-/

namespace CommodoreBasic

namespace Statement

open CommodoreBasic.ReadingPair

/-- Beyond one for each token, the bound on the number of parts does not matter. -/
theorem parseParts_eq {count count' : Nat} {ts : List Token} (h : ts.length ≤ count)
    (h' : ts.length ≤ count') : parseParts count ts = parseParts count' ts := by
  have hfair : (extended ts [] Eq fun _ => False).FairLine :=
    fairLine_extended closes_nil (fun _ => rfl) (.inl rfl) (.inl rfl)
  have hpaired : (extended ts [] Eq fun _ => False).Paired ts (ts ++ []) := paired_extended
  rw [List.append_nil] at hpaired
  have hparts := outcome_parseParts hfair rfl h h' hpaired
  generalize parseParts count ts = x at hparts
  generalize parseParts count' ts = y at hparts
  cases hparts with
  | ok hss => exact congrArg Except.ok hss.1
  | error he => exact congrArg Except.error he
  | excused hfalse => exact hfalse.elim

/-- A line beside the same line with a colon and more tokens behind it. Errors keep their kind. -/
def beforeColon (ts us : List Token) : ReadingPair :=
  extended ts (.colon :: us) (fun e e' => e'.kind = e.kind) fun _ => False

/-- The statements before a colon are followed by those behind it, and an error before the colon keeps
its kind. -/
theorem continued_parseAll {ts : List Token} (hrem : .keyword .REM ∉ ts) (us : List Token) :
    (beforeColon (ts.filter (! ·.isBlanks)) (us.filter (! ·.isBlanks))).Continued (parseAll us)
      (parseAll ts) (parseAll (ts ++ .colon :: us)) := by
  have hfilter : (ts ++ Token.colon :: us).filter (! ·.isBlanks) =
      ts.filter (! ·.isBlanks) ++ .colon :: us.filter (! ·.isBlanks) := by
    rw [List.filter_append]
    rfl
  have hrem : .keyword .REM ∉ ts.filter (! ·.isBlanks) := fun hmem => hrem (List.mem_filter.mp hmem).1
  have hleads : LeadsTo (.colon :: us.filter (! ·.isBlanks)) (parseAll us) :=
    .inr ⟨_, rfl, fun count hcount => parseParts_eq hcount (Nat.le_succ _)⟩
  have hfair : (beforeColon (ts.filter (! ·.isBlanks)) (us.filter (! ·.isBlanks))).FairLine :=
    fairLine_extended (closes_colon _) (fun _ => rfl) (.inr rfl) (.inr hrem)
  unfold parseAll at hleads ⊢
  rw [hfilter]
  exact continued_parseParts hfair hleads (Nat.le_succ _) (Nat.le_succ _) paired_extended

/-- Colons compose. A line up to a colon and the rest behind it are read as they are read alone: the
statements of both in their order, or else the error of the rest, or an error of the kind that the
first has. Only REM must not stand before the colon. Blanks do not matter. -/
theorem parseAll_colon {ts : List Token} (hrem : .keyword .REM ∉ ts) (us : List Token) :
    (∀ a, parseAll ts = .ok a →
      (∀ b, parseAll us = .ok b → parseAll (ts ++ .colon :: us) = .ok (a ++ b)) ∧
      ∀ e, parseAll us = .error e → parseAll (ts ++ .colon :: us) = .error e) ∧
    (∀ e, parseAll ts = .error e →
      ∃ e', parseAll (ts ++ .colon :: us) = .error e' ∧ e'.kind = e.kind) ∧
    ∀ vs : List Token, parseAll (vs.filter (! ·.isBlanks)) = parseAll vs := by
  have hcontinued := continued_parseAll hrem us
  refine ⟨fun a ha => ?_, fun e he => ?_, fun vs => ?_⟩
  · rw [ha] at hcontinued
    have hline := hcontinued.of_ok
    refine ⟨fun b hb => ?_, fun e he => ?_⟩
    · rw [hline, hb]
      rfl
    · rw [hline, he]
      rfl
  · rw [he] at hcontinued
    exact hcontinued.of_error id
  · unfold parseAll
    rw [List.filter_filter]
    simp only [Bool.and_self]

/-- PRINT whose last separator stands right before the colon. -/
def openPrint : List Token := [.keyword .PRINT, .blanks 1, .name "A", .semicolon]

/-- A separator right before the colon keeps PRINT on its line, and NEXT behind it has two counters. -/
theorem parseAll_colon_openPrint :
    .keyword .REM ∉ openPrint ∧
      parseAll (openPrint ++ .colon :: [.keyword .NEXT, .name "I", .comma, .blanks 2, .name "J"]) =
        .ok [.print [.scalar "A"] false, .next (some "I"), .next (some "J")] :=
  have hrem : .keyword .REM ∉ openPrint := by decide
  ⟨hrem, ((parseAll_colon hrem _).1 [.print [.scalar "A"] false] rfl).1
    [.next (some "I"), .next (some "J")] rfl⟩

end Statement

end CommodoreBasic
