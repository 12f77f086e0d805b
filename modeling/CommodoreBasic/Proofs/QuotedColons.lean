import Mathlib.Algebra.Group.Nat.Even
import CommodoreBasic.Proofs.JoinedFields
import CommodoreBasic.Token.Scan

/-!
# Colons in the text of DATA

The text of DATA ends at the first colon outside quotation marks. The scanner that looks for it takes
every quotation mark as the beginning or the end of a quotation. The reader of the fields does not: a
mark begins a quotation only at the start of a field, and behind other characters of the field or
behind a closed quotation it is stray. Each stray mark turns the scanner's opinion over and leaves the
reader's as it is, so the two agree on a colon exactly if an even number of stray marks stands before
it.
-/

namespace CommodoreBasic

open CommodoreBasic.Text
open CommodoreBasic.Field (Reader)

/-! ## Stray quotation marks -/

namespace Field.Reader

/-- The reader behind the characters. -/
def after (r : Reader) (cs : List Char) : Reader := cs.foldl read r

/-- The reader is between quotation marks. -/
def isInside (r : Reader) : Bool := r.place == .inside

/-- At first no quotation is open. -/
theorem isInside_start : start.isInside = false := rfl

/-- The character is a quotation mark that neither begins nor ends a quotation. -/
def isStray (r : Reader) (c : Char) : Bool := c == quotationMark && !r.isInside && !r.opens

/-- The number of stray quotation marks that the reader meets. -/
def strayMarks (r : Reader) : List Char → Nat
  | [] => 0
  | c :: cs => (r.isStray c).toNat + (r.read c).strayMarks cs

/-- The fields that are finished in a first part of the text do not depend on the rest, which is split
by the reader behind it. -/
theorem exists_split_append (r : Reader) (cs : List Char) :
    ∃ fs, ∀ rest, r.split (cs ++ rest) = fs ++ (r.after cs).split rest := by
  induction cs generalizing r with
  | nil => exact ⟨[], fun rest => rfl⟩
  | cons c cs ih =>
    obtain ⟨fs, hfs⟩ := ih (r.read c)
    refine ⟨r.finished c ++ fs, fun rest => ?_⟩
    rw [List.cons_append, split_cons, hfs, List.append_assoc]
    rfl

/-- Quotation marks take the reader into a quotation or out of it, unless they are stray. -/
theorem isInside_read (r : Reader) (c : Char) :
    (r.read c).isInside = (r.isInside ^^ (c == quotationMark) ^^ r.isStray c) := by
  obtain ⟨place, reversed⟩ := r
  cases place <;> grind [read, isInside, isStray, opens, start, quotationMark]

end Field.Reader

/-! ## The scanner -/

namespace Token

/-- What the scanner thinks behind the characters: it is between quotation marks. -/
def quotedAfter (quoted : Bool) (cs : List Char) : Bool :=
  cs.foldl (fun quoted c => quoted != (c == quotationMark)) quoted

/-- The text of DATA ends at a colon that it reaches if the scanner is not between quotation marks
there. -/
theorem dataLength_eq_iff_quotedAfter {quoted : Bool} {before rest : List Char}
    (hreached : before.length ≤ dataLength quoted (before ++ ':' :: rest)) :
    dataLength quoted (before ++ ':' :: rest) = before.length ↔ quotedAfter quoted before = false := by
  induction before generalizing quoted with
  | nil => cases quoted <;> simp [dataLength, quotedAfter]
  | cons c before ih =>
    rw [List.cons_append, dataLength, List.length_cons] at hreached ⊢
    split at hreached
    case isTrue => omega
    case isFalse hgoes =>
      rw [if_neg hgoes, Nat.add_right_cancel_iff, ih (Nat.le_of_succ_le_succ hreached)]
      rfl

/-- Behind the characters the scanner and a reader agree as they did before, but for one change of mind
of the scanner for each stray mark. -/
theorem quotedAfter_eq (r : Reader) (differ : Bool) (cs : List Char) :
    quotedAfter (r.isInside ^^ differ) cs =
      ((r.after cs).isInside ^^ (differ ^^ !decide (Even (r.strayMarks cs)))) := by
  induction cs generalizing r differ with
  | nil => simp [quotedAfter, Reader.after, Reader.strayMarks]
  | cons c cs ih =>
    have hstep : ((r.isInside ^^ differ) != (c == quotationMark)) =
        ((r.read c).isInside ^^ (differ ^^ r.isStray c)) := by
      rw [Reader.isInside_read]
      cases r.isInside <;> cases differ <;> cases c == quotationMark <;> cases r.isStray c <;> rfl
    have hparity : (r.isStray c ^^ !decide (Even ((r.read c).strayMarks cs))) =
        !decide (Even (r.strayMarks (c :: cs))) := by
      rw [Reader.strayMarks]
      cases r.isStray c with
      | false => rw [Bool.toNat_false, Nat.zero_add, Bool.false_xor]
      | true =>
        simp only [Bool.toNat_true, Nat.add_comm 1, Nat.even_add_one, decide_not, Bool.not_not,
          Bool.true_xor]
    calc quotedAfter (r.isInside ^^ differ) (c :: cs)
      _ = quotedAfter ((r.read c).isInside ^^ (differ ^^ r.isStray c)) cs := by rw [← hstep]; rfl
      _ = _ := by rw [ih, ← hparity, Bool.xor_assoc]; rfl

/-- The text behind the word DATA is scanned up to its end, and the rest as a text of its own. -/
theorem scan_data (text : List Char) :
    scan ("DATA".toList ++ text) = keyword .DATA ::
      (rawData (text.take (dataLength false text)) ++ scan (text.drop (dataLength false text))) := by
  have hcrunch : crunch? ('D' :: 'A' :: 'T' :: 'A' :: text) = some (4, keyword .DATA) := rfl
  have hnext : next 'D' ('A' :: 'T' :: 'A' :: text) = (keyword .DATA, 3) := by
    rw [next, hcrunch]
    rfl
  have hword : "DATA".toList ++ text = 'D' :: 'A' :: 'T' :: 'A' :: text := rfl
  rw [hword, scan, hnext]
  rfl

/-- The text behind the word DATA is scanned up to its end, and its fields are found by a reader. At a
colon that the text reaches, the two agree, which is to say that the text ends there exactly if the
reader is outside quotation marks there, if and only if the stray marks before the colon are even in
number. -/
theorem dataLength_colon_iff (before rest : List Char)
    (hreached : before.length ≤ dataLength false (before ++ ':' :: rest)) :
    (∀ text, scan ("DATA".toList ++ text) = keyword .DATA ::
        (rawData (text.take (dataLength false text)) ++ scan (text.drop (dataLength false text)))) ∧
      (∃ fs, ∀ more, Field.split (String.ofList (before ++ more)) =
        fs ++ (Reader.start.after before).split more) ∧
      ((dataLength false (before ++ ':' :: rest) = before.length ↔
          (Reader.start.after before).place ≠ .inside) ↔
        Even (Reader.start.strayMarks before)) := by
  refine ⟨scan_data, ?_, ?_⟩
  · obtain ⟨fs, hfs⟩ := Reader.start.exists_split_append before
    refine ⟨fs, fun more => ?_⟩
    rw [Field.split, String.toList_ofList]
    exact hfs more
  · have hquoted : quotedAfter false before = ((Reader.start.after before).isInside ^^
        !decide (Even (Reader.start.strayMarks before))) := by
      simpa [Reader.isInside_start] using quotedAfter_eq Reader.start false before
    have hinside : (Reader.start.after before).place ≠ .inside ↔
        (Reader.start.after before).isInside = false := by simp [Reader.isInside]
    rw [dataLength_eq_iff_quotedAfter hreached, hinside, hquoted]
    by_cases heven : Even (Reader.start.strayMarks before) <;>
      cases (Reader.start.after before).isInside <;> simp [heven]

/-- Two stray marks cancel out: behind them a colon in a quoted field is part of the text again. -/
theorem dataLength_colon_iff_twoStrays :
    Reader.start.strayMarks " 5\" BY 3\" PIPE,\"A".toList = 2 ∧
      (dataLength false (" 5\" BY 3\" PIPE,\"A".toList ++ ':' :: "B\"".toList) =
          " 5\" BY 3\" PIPE,\"A".toList.length ↔
        (Reader.start.after " 5\" BY 3\" PIPE,\"A".toList).place ≠ .inside) := by
  have hstrays : Reader.start.strayMarks " 5\" BY 3\" PIPE,\"A".toList = 2 := by decide
  have hiff := (dataLength_colon_iff " 5\" BY 3\" PIPE,\"A".toList "B\"".toList (by decide)).2.2
  exact ⟨hstrays, hiff.mpr (by rw [hstrays]; decide)⟩

/-- A stray mark turns a quoted field inside out: the text ends at a colon that the reader finds
between quotation marks. -/
theorem dataLength_strayMark :
    dataLength false (" 5\" PIPE,\"A".toList ++ ':' :: "B\"".toList) = " 5\" PIPE,\"A".toList.length ∧
      (Reader.start.after " 5\" PIPE,\"A".toList).place = .inside ∧
      Field.split " 5\" PIPE,\"A:B\"" = [.bare "5\" PIPE", .quoted "A:B"] := by
  decide

end Token

end CommodoreBasic
