import CommodoreBasic.Proofs.DataText
import CommodoreBasic.Proofs.InputRounds
import CommodoreBasic.Proofs.ScannedWords

/-!
# The readers of numbers

A numeral is read in four ways: as a literal in an expression, by VAL, as an item of DATA and as a reply
to INPUT. A numeral that has been scanned and is a literal with some value has the same value for VAL.
Unless it is a point alone it also has this value for DATA and INPUT.

VAL skips blanks and takes a sign and as much of a numeral as it finds, DATA and INPUT trim a field and
read all of it. None of this makes a difference on a numeral: it has no blanks, no commas and no
quotation marks, it begins with a digit or a point, and it reaches to its own end. What is left is a
point alone, which literals and VAL take as zero before they read a number, while DATA and INPUT only
read.
-/

namespace CommodoreBasic

open CommodoreBasic.Action

/-! ## Numerals that have been scanned -/

namespace Token

/-- A numeral that the scanner takes is all numeral. -/
theorem isNumeral_of_next {c : Char} {cs : List Char} {s : String} (h : (next c cs).1 = numeral s) :
    IsNumeral s.toList := by
  revert h
  fun_cases next c cs with
  | case1 hblank => intro h; cases h
  | case2 hblank hdigit =>
    intro h
    cases h
    rw [capitals, String.toList_ofList]
    exact isNumeral_capitals hdigit cs
  | case3 hblank hdigit hquote => intro h; cases h
  | case4 hblank hdigit hquote k t hcrunch =>
    rintro rfl
    obtain ⟨word, hmem, -⟩ := exists_spelling_of_crunch? hcrunch
    cases (shown_of_mem_crunchTable _ hmem).1
  | case5 hblank hdigit hquote hcrunch halpha => intro h; cases h
  | case6 hblank hdigit hquote hcrunch halpha => intro h; cases h

/-- The numerals of a line are numerals all through. -/
theorem isNumeral_of_mem_scanLine {cs : List Char} {s : String}
    (h : numeral s ∈ (scanLine cs).tokens) : IsNumeral s.toList := by
  have hline : numeral s ∈ ofLine cs := List.mem_filter.mpr ⟨h, rfl⟩
  rw [ofLine_eq_lex] at hline
  rcases exists_next_of_mem_scan (List.mem_filter.mp hline).1 with ⟨c, us, -, hnext⟩ | ⟨-, s, hs⟩
  · exact isNumeral_of_next hnext
  · cases hs

end Token

/-! ## Literals and VAL -/

namespace Numeral

/-- The numeral `t` is a literal with the value `x`. -/
def IsLiteral (t : String) (x : Float) : Prop :=
  Expr.parse [.numeral t] = .ok (.literal (.number x), [])

variable {t : String} {x : Float}

/-- A numeral on its own is an expression. -/
theorem parse_numeral (t : String) :
    Expr.parse [.numeral t] = (Expr.ofNumeral t).map fun e => (e, []) := by
  have hparse : Expr.parse [.numeral t] = (do
      let r ← (do
        let e ← Expr.ofNumeral t
        return (e, []))
      Expr.parseOperators 5 Expr.lowestLevel r.1 r.2) := rfl
  rw [hparse]
  cases Expr.ofNumeral t <;> rfl

/-- A literal has its value, which is finite. -/
theorem IsLiteral.value? (h : IsLiteral t x) : value? t.toList = some x ∧ x.isFinite = true := by
  rw [IsLiteral, parse_numeral, Expr.ofNumeral] at h
  split at h
  case h_1 y hy =>
    split at h
    case isTrue hfinite =>
      cases h
      exact ⟨hy, hfinite⟩
    case isFalse => cases h
  case h_2 => cases h

/-- A literal other than a point alone reads as a finite number. -/
theorem IsLiteral.readFinite? (h : IsLiteral t x) (hpoint : t ≠ ".") :
    Number.readFinite? t.toList = some x := by
  have hlist : (t.toList == ['.']) = false := by
    rw [beq_eq_false_iff_ne]
    exact fun heq => hpoint (String.toList_inj.mp heq)
  have hvalue := h.value?
  rw [Numeral.value?, hlist, if_neg Bool.false_ne_true] at hvalue
  exact Option.filter_eq_some_iff.mpr hvalue

/-- There are no blanks in a literal. -/
theorem IsLiteral.ne_blank (h : IsLiteral t x) : ∀ c ∈ t.toList, c ≠ ' ' ∧ c ≠ '\t' := by
  by_cases hpoint : t = "."
  · subst hpoint
    have hlist : ".".toList = ['.'] := rfl
    rw [hlist]
    exact List.forall_mem_singleton.mpr ⟨by decide, by decide⟩
  · intro c hc
    have hnumeric := Number.isNumeric_readFinite? (h.readFinite? hpoint) c hc
    constructor <;> (rintro rfl; cases hnumeric)

/-- VAL reads all of a numeral without blanks. -/
theorem leading?_of_isNumeral {cs : List Char} (h : Token.IsNumeral cs)
    (hblank : ∀ c ∈ cs, c ≠ ' ' ∧ c ≠ '\t') : leading? cs = value? cs := by
  have hfilter : (cs.filter fun c => c != ' ' && c != '\t') = cs :=
    List.filter_eq_self.mpr fun c hc => by simpa using hblank c hc
  cases cs with
  | nil => exact absurd rfl h.1
  | cons c cs =>
    have hstart := h.start
    unfold leading?
    rw [hfilter]
    split
    · next heq =>
      obtain ⟨rfl, -⟩ := List.cons.inj heq
      cases hstart
    · next heq =>
      obtain ⟨rfl, -⟩ := List.cons.inj heq
      cases hstart
    · dsimp only
      rw [h.2]
      exact congrArg value? List.take_length

/-- VAL takes the number at the start of a text, or zero. -/
theorem apply_val (t : String) (g : Random) :
    Builtin.apply .val [.text t] g = (.ok (.number ((leading? t.toList).getD 0)), g) := rfl

/-- VAL takes all of a literal. -/
theorem IsLiteral.apply_val (h : IsLiteral t x) (hnumeral : Token.IsNumeral t.toList) (g : Random) :
    Builtin.apply .val [.text t] g = (.ok (.number x), g) := by
  have hleading : leading? t.toList = some x :=
    (leading?_of_isNumeral hnumeral h.ne_blank).trans h.value?.1
  rw [Numeral.apply_val, hleading, Option.getD_some]

end Numeral

/-! ## DATA -/

/-- Wherever `t` is a field of the text of DATA, it is read as `v`. -/
def ReadByData (t : String) (v : Value) : Prop :=
  ∀ (raw : String) (rest : List Token) (i : Nat), (Field.split raw)[i]? = some (.bare t) →
    ∃ items, Statement.parse (.keyword .DATA :: .unknown raw :: rest) = .ok (.data items, rest) ∧
      items[i]? = some v

/-- DATA takes a bare field for a number if it reads as one. -/
theorem readByData_constant (t : String) : ReadByData t (Field.bare t).constant := by
  intro raw rest i hfield
  refine ⟨(Field.split raw).map Field.constant, rfl, ?_⟩
  rw [List.getElem?_map, hfield, Option.map_some]

/-! ## INPUT -/

/-- The reply `t` to INPUT of one number stores `x`. -/
def StoredByInput (t : String) (x : Float) : Prop :=
  ∀ (σ : Type) (h : Handler σ) (patience : Nat) (prompt : Option String) (target : Target) (s s' : σ),
    target.name.isText = false → h .line (.ask (question prompt)) s = (.ok t, s') →
      (Statement.input prompt [target]).exec h (patience + 1) s = target.store h (.number x) s'

/-- The reply `t` to INPUT of one number is complained of, and INPUT starts over. -/
def RefusedByInput (t : String) : Prop :=
  ∀ (σ : Type) (h : Handler σ) (patience : Nat) (prompt : Option String) (target : Target) (s s' : σ),
    target.name.isText = false → h .line (.ask (question prompt)) s = (.ok t, s') →
      (Statement.input prompt [target]).exec h (patience + 1) s = (do
        h .done (.printLine "?REDO FROM START")
        (Statement.input prompt [target]).exec h patience) s'

/-- A reply of one field to INPUT of one target is stored if it suits the target, else INPUT starts
over. -/
theorem exec_input_reply {σ : Type} {h : Handler σ} {prompt : Option String} {target : Target}
    {t : String} {f : Field} {s s' : σ} (patience : Nat)
    (hask : h .line (.ask (question prompt)) s = (.ok t, s')) (hsplit : Field.split t = [f]) :
    (Statement.input prompt [target]).exec h (patience + 1) s =
      (f.valueFor? target.name).elim (do
        h .done (.printLine "?REDO FROM START")
        (Statement.input prompt [target]).exec h patience) (target.store h) s' := by
  have hexec (patience : Nat) : (Statement.input prompt [target]).exec h patience =
      inputFrom h [target] (question prompt) patience (question prompt) [] := rfl
  rw [hexec, hexec, inputFrom, bind_of_ok hask, List.nil_append, hsplit]
  cases hvalue : f.valueFor? target.name <;> simp [Field.valuesFor?, hvalue, Target.storeAll]

/-- INPUT stores a field that reads as a finite number. -/
theorem storedByInput_of_readFinite? {t : String} {x : Float}
    (h : Number.readFinite? t.toList = some x) : StoredByInput t x := by
  intro σ handler patience prompt target s s' hnumber hask
  have hbare := Number.isBare_of_readFinite? h
  have hsplit : Field.split t = [.bare t] :=
    Field.splitFrom_joined (.single (.bare hbare)) (List.cons_ne_nil _ _) (List.forall_mem_nil _)
  have htrim : Text.trim (Field.bare t).text.toList = t.toList := hbare.trimmed
  have hsuits : (Field.bare t).Suits target.name (.number x) :=
    .number hnumber (by rw [htrim]; exact hbare.ne_nil) (by rw [htrim]; exact h)
  rw [exec_input_reply patience hask hsplit, Field.valueFor?_eq_some_iff.mpr hsuits, Option.elim_some]

/-- INPUT refuses a bare point. -/
theorem refusedByInput_point : RefusedByInput "." := by
  intro σ handler patience prompt target s s' hnumber hask
  have hsplit : Field.split "." = [.bare "."] := rfl
  have hvalue : (Field.bare ".").valueFor? target.name = none := by
    rw [Field.valueFor?, hnumber]
    rfl
  rw [exec_input_reply patience hask hsplit, hvalue, Option.elim_none]

/-! ## The four readers -/

/-- A numeral of a line that is a literal with the value `x` is `x` for VAL, and unless it is a point
alone for DATA and INPUT as well. A point alone is zero as a literal, but a text for DATA, and INPUT
does not take it. -/
theorem readers_agree {line : List Char} {t : String} {x : Float}
    (hscan : Token.numeral t ∈ (Token.scanLine line).tokens) (hliteral : Numeral.IsLiteral t x) :
    (∀ g : Random, Builtin.apply .val [.text t] g = (.ok (.number x), g)) ∧
      (t ≠ "." → ReadByData t (.number x) ∧ StoredByInput t x) ∧
      (t = "." → x = 0 ∧ ReadByData t (.text t) ∧ RefusedByInput t) := by
  refine ⟨hliteral.apply_val (Token.isNumeral_of_mem_scanLine hscan), fun hpoint => ?_, ?_⟩
  · have hread := hliteral.readFinite? hpoint
    have hconstant : (Field.bare t).constant = .number x := by
      rw [Field.constant, hread]
    exact ⟨hconstant ▸ readByData_constant t, storedByInput_of_readFinite? hread⟩
  · rintro rfl
    exact ⟨(Option.some.inj hliteral.value?.1).symm, readByData_constant ".", refusedByInput_point⟩

/-- A numeral with a point in front and an exponent, which was written with a small letter. -/
theorem readers_agree_exponent :
    Token.numeral ".5E1" ∈ (Token.scanLine "10 X=.5e1".toList).tokens ∧ Numeral.IsLiteral ".5E1" 5 ∧
      (∀ g : Random, Builtin.apply .val [.text ".5E1"] g = (.ok (.number 5), g)) ∧
      ReadByData ".5E1" (.number 5) ∧ StoredByInput ".5E1" 5 := by
  have hscan : Token.numeral ".5E1" ∈ (Token.scanLine "10 X=.5e1".toList).tokens := by decide +kernel
  have hliteral : Numeral.IsLiteral ".5E1" 5 := rfl
  obtain ⟨hval, hother, -⟩ := readers_agree hscan hliteral
  exact ⟨hscan, hliteral, hval, hother (by decide)⟩

/-- A point alone is the literal zero, but no number for DATA. -/
theorem readers_disagree_point :
    Token.numeral "." ∈ (Token.scanLine "10 X=.".toList).tokens ∧ Numeral.IsLiteral "." 0 ∧
      ¬ ReadByData "." (.number 0) := by
  refine ⟨by decide +kernel, rfl, fun hread => ?_⟩
  obtain ⟨items, hparse, hitem⟩ := hread " ." [] 0 rfl
  have htext : Statement.parse [.keyword .DATA, .unknown " ."] = .ok (.data [.text "."], []) := rfl
  rw [htext] at hparse
  cases hparse
  cases hitem

end CommodoreBasic
