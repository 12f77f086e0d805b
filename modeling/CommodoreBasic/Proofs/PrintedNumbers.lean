import CommodoreBasic.Proofs.ClearedScreen
import CommodoreBasic.Proofs.Consistency
import CommodoreBasic.Proofs.DecimalTexts
import CommodoreBasic.Proofs.FiniteFloats

/-!
# Numbers in a PRINT statement

A finite number is shown as the text of a decimal, with a minus in front of it if it is below zero.
Behind another number stands a blank before it, unless it has a minus. Neither of the two is part of the
text of a decimal, so the number before ends there, and a row of numbers can be taken apart again.
-/

namespace CommodoreBasic

open CommodoreBasic.Action

/-! ## The texts of numbers -/

namespace Decimal

/-- The text of a decimal, or a minus and the text of a decimal. -/
inductive Signed : List Char → Prop where
  | plain {d : Decimal} {cs : List Char} (h : Spelled d cs) : Signed cs
  | minus {d : Decimal} {cs : List Char} (h : Spelled d cs) : Signed ('-' :: cs)

/-- The text of a decimal spells out a decimal. -/
theorem exists_spelled_text (d : Decimal) : ∃ d', Spelled d' d.text.toList := by
  obtain h | ⟨-, h⟩ := spelled_text d <;> exact ⟨_, h⟩

/-- A character of the text of a decimal. -/
def isPart (c : Char) : Bool := c.isDigit || c == '.'

/-- A decimal is made of digits and points. -/
theorem Spelled.forall_isPart {d : Decimal} {cs : List Char} (h : Spelled d cs) :
    ∀ c ∈ cs, isPart c = true := by
  intro c hc
  rcases h.mem c hc with hdigit | rfl
  · rw [isPart, hdigit, Bool.true_or]
  · rfl

/-- A row of digits ends in a digit. -/
theorem IsDigits.getLast? {ds : List Char} (h : IsDigits ds) :
    ds.getLast?.any Char.isDigit = true := by
  rw [List.getLast?_eq_getLast_of_ne_nil h.ne_nil, Option.any_some]
  exact h.isDigit _ (List.getLast_mem h.ne_nil)

/-- The last character is a digit, also behind a point. -/
theorem Spelled.getLast? {d : Decimal} {cs : List Char} (h : Spelled d cs) :
    cs.getLast?.any Char.isDigit = true := by
  cases h with
  | whole hds => exact hds.getLast?
  | @point ds ps hds hps =>
    have hlast : (ds ++ '.' :: ps).getLast? = ps.getLast? := by
      rw [List.getLast?_append_cons, List.getLast?_cons_of_ne_nil hps.ne_nil]
    rw [hlast]
    exact hps.getLast?

/-- So does a decimal with its sign. -/
theorem Signed.getLast? {cs : List Char} (h : Signed cs) : cs.getLast?.any Char.isDigit = true := by
  cases h with
  | plain h => exact h.getLast?
  | minus h =>
    obtain ⟨c, rest, rfl, -⟩ := h.head
    rw [List.getLast?_cons_cons]
    exact h.getLast?

/-- Nothing that may follow the text of a number can be part of it. -/
def Apart (rest : List Char) : Prop := rest.head?.any isPart = false

/-- What stands apart has no part of a number in front. -/
theorem takeWhile_apart {rest : List Char} (h : Apart rest) : rest.takeWhile isPart = [] := by
  cases rest with
  | nil => rfl
  | cons c rest => exact List.takeWhile_cons_of_neg (Bool.eq_false_iff.mp h)

/-- The text of a decimal ends where something else stands. -/
theorem Spelled.append_inj {d d' : Decimal} {cs cs' rest rest' : List Char} (hcs : Spelled d cs)
    (hcs' : Spelled d' cs') (hrest : Apart rest) (hrest' : Apart rest')
    (h : cs ++ rest = cs' ++ rest') : cs = cs' ∧ rest = rest' := by
  have htake := congrArg (List.takeWhile isPart) h
  rw [List.takeWhile_append_of_pos hcs.forall_isPart, List.takeWhile_append_of_pos hcs'.forall_isPart,
    takeWhile_apart hrest, takeWhile_apart hrest', List.append_nil, List.append_nil] at htake
  subst htake
  exact ⟨rfl, List.append_cancel_left h⟩

/-- The text of a number ends where something else stands. A number with a minus and one without differ
in the first character. -/
theorem Signed.append_inj {cs cs' rest rest' : List Char} (hcs : Signed cs) (hcs' : Signed cs')
    (hrest : Apart rest) (hrest' : Apart rest') (h : cs ++ rest = cs' ++ rest') :
    cs = cs' ∧ rest = rest' := by
  have hdiffer {d : Decimal} {cs rest rest' : List Char} (hcs : Spelled d cs)
      (h : cs ++ rest = '-' :: rest') : False := by
    obtain ⟨c, cs, rfl, hc⟩ := hcs.head
    obtain rfl : c = '-' := (List.cons.inj h).1
    cases hc
  cases hcs with
  | plain hcs =>
    cases hcs' with
    | plain hcs' => exact hcs.append_inj hcs' hrest hrest' h
    | minus => exact (hdiffer hcs h).elim
  | minus hcs =>
    cases hcs' with
    | plain hcs' => exact (hdiffer hcs' h.symm).elim
    | minus hcs' =>
      obtain ⟨rfl, htail⟩ := hcs.append_inj hcs' hrest hrest' (List.cons.inj h).2
      exact ⟨rfl, htail⟩

end Decimal

/-- A finite number is shown as an optional minus and the text of a decimal. -/
theorem Value.signed_shown {x : Float} (h : x.isFinite = true) :
    Decimal.Signed (Value.number x).shown.toList := by
  rw [shown]
  split
  · exact .plain Decimal.spelled_zero
  · rw [Number.text]
    obtain ⟨s, hu⟩ | ⟨s, m, e, hm, hu, -⟩ := Number.unpack_cases h <;> rw [hu] <;> cases s <;>
      dsimp only
    case inl.negative => exact .minus Decimal.spelled_zero
    case inl.positive => exact .plain Decimal.spelled_zero
    case inr.negative =>
      obtain ⟨d, hd⟩ := (Number.shortest x.abs m e).exists_spelled_text
      rw [String.toList_append]
      exact .minus hd
    case inr.positive =>
      obtain ⟨d, hd⟩ := (Number.shortest x m e).exists_spelled_text
      exact .plain hd

/-! ## Rows of numbers -/

section Rows

open CommodoreBasic.Decimal (Signed Apart)

/-- The text of a number as it stands behind another: a blank comes first, unless it has a minus. -/
def setOff (cs : List Char) : List Char := if cs.head? = some '-' then cs else ' ' :: cs

/-- The texts of numbers in a row. -/
def numberRow : List (List Char) → List Char
  | [] => []
  | cs :: row => cs ++ row.flatMap setOff

/-- A blank stands before a number without a minus. -/
theorem setOff_spelled {d : Decimal} {cs : List Char} (h : d.Spelled cs) :
    setOff cs = ' ' :: cs := by
  obtain ⟨c, rest, rfl, hc⟩ := h.head
  refine if_neg fun hminus => ?_
  obtain rfl : c = '-' := Option.some.inj hminus
  cases hc

/-- There is none before a minus. -/
theorem setOff_minus (cs : List Char) : setOff ('-' :: cs) = '-' :: cs := if_pos rfl

/-- Numbers that are the same once they are set off were the same before. -/
theorem Decimal.Signed.of_setOff {cs cs' rest rest' : List Char} (hcs : Signed cs)
    (hcs' : Signed cs') (h : setOff cs ++ rest = setOff cs' ++ rest') : cs ++ rest = cs' ++ rest' := by
  cases hcs with
  | plain hcs =>
    rw [setOff_spelled hcs] at h
    cases hcs' with
    | plain hcs' =>
      rw [setOff_spelled hcs'] at h
      exact (List.cons.inj h).2
    | minus => cases h
  | minus =>
    rw [setOff_minus] at h
    cases hcs' with
    | plain hcs' =>
      rw [setOff_spelled hcs'] at h
      cases h
    | minus => exact h

/-- Numbers that are set off stand apart. -/
theorem apart_flatMap_setOff {row : List (List Char)} (h : ∀ cs ∈ row, Signed cs) :
    Apart (row.flatMap setOff) := by
  cases row with
  | nil => rfl
  | cons cs row =>
    rw [List.flatMap_cons]
    cases (List.forall_mem_cons.mp h).1 with
    | plain hcs =>
      rw [setOff_spelled hcs]
      rfl
    | minus =>
      rw [setOff_minus]
      rfl

/-- What is set off is not empty. -/
theorem setOff_ne_nil (cs : List Char) : setOff cs ≠ [] := by
  rw [setOff]
  split
  case isTrue hminus =>
    rintro rfl
    cases hminus
  case isFalse => exact List.cons_ne_nil _ _

/-- A number is not empty. -/
theorem Decimal.Signed.ne_nil {cs : List Char} (h : Signed cs) : cs ≠ [] := by
  rintro rfl
  cases h.getLast?

/-- Numbers behind another can be taken apart. -/
theorem flatMap_setOff_inj {row row' : List (List Char)} (hrow : ∀ cs ∈ row, Signed cs)
    (hrow' : ∀ cs ∈ row', Signed cs) (h : row.flatMap setOff = row'.flatMap setOff) :
    row = row' := by
  induction row generalizing row' with
  | nil =>
    cases row' with
    | nil => rfl
    | cons cs' row' => exact absurd (List.append_eq_nil_iff.mp h.symm).1 (setOff_ne_nil cs')
  | cons cs row ih =>
    cases row' with
    | nil => exact absurd (List.append_eq_nil_iff.mp h).1 (setOff_ne_nil cs)
    | cons cs' row' =>
      obtain ⟨hcs, hlater⟩ := List.forall_mem_cons.mp hrow
      obtain ⟨hcs', hlater'⟩ := List.forall_mem_cons.mp hrow'
      obtain ⟨rfl, htail⟩ := hcs.append_inj hcs' (apart_flatMap_setOff hlater)
        (apart_flatMap_setOff hlater') (hcs.of_setOff hcs' h)
      rw [ih hlater hlater' htail]

/-- What is printed of a row of numbers tells which numbers they are. -/
theorem numberRow_inj {row row' : List (List Char)} (hrow : ∀ cs ∈ row, Signed cs)
    (hrow' : ∀ cs ∈ row', Signed cs) (h : numberRow row = numberRow row') : row = row' := by
  have hne {cs : List Char} {row : List (List Char)} (hrow : ∀ ds ∈ cs :: row, Signed ds) :
      numberRow (cs :: row) ≠ [] :=
    List.append_ne_nil_of_left_ne_nil (List.forall_mem_cons.mp hrow).1.ne_nil _
  cases row with
  | nil =>
    cases row' with
    | nil => rfl
    | cons => exact absurd h.symm (hne hrow')
  | cons cs row =>
    cases row' with
    | nil => exact absurd h (hne hrow)
    | cons cs' row' =>
      obtain ⟨hcs, hlater⟩ := List.forall_mem_cons.mp hrow
      obtain ⟨hcs', hlater'⟩ := List.forall_mem_cons.mp hrow'
      obtain ⟨rfl, htail⟩ := hcs.append_inj hcs' (apart_flatMap_setOff hlater)
        (apart_flatMap_setOff hlater') h
      rw [flatMap_setOff_inj hlater hlater' htail]

end Rows

/-! ## PRINT -/

namespace Piece

/-- A digit runs together with a number behind it. -/
theorem runsTogether_of_isDigit {c : Char} (h : c.isDigit = true) : runsTogether c = true := by
  simp [runsTogether, Text.isWhiteSpace, Text.isPunctuation, Char.isDigit,
    UInt32.le_iff_toNat_le] at h ⊢
  omega

/-- A number does not clear the screen. -/
theorem clears_number {x : Float} (h : x.isFinite = true) : (ofValue (.number x)).clears = false := by
  have hmem {d : Decimal} {cs : List Char} (hcs : d.Spelled cs) : clearScreen ∉ cs := by
    intro hc
    cases hcs.forall_isPart clearScreen hc
  refine Bool.eq_false_iff.mpr fun hclears => ?_
  have hc : clearScreen ∈ (Value.number x).shown.toList := List.contains_iff_mem.mp hclears
  have hsigned := Value.signed_shown h
  generalize (Value.number x).shown.toList = cs at hc hsigned
  cases hsigned with
  | plain hcs => exact hmem hcs hc
  | minus hcs =>
    rcases List.mem_cons.mp hc with hminus | hc
    · cases hminus
    · exact hmem hcs hc

/-- A number behind another is set off. -/
theorem between_numbers {x y : Float} (hx : x.isFinite = true) (hy : y.isFinite = true) :
    ((ofValue (.number x)).between (ofValue (.number y))).toList ++ (Value.number y).shown.toList =
      setOff (Value.number y).shown.toList := by
  have hlast : (ofValue (.number x)).text.toList.getLast?.any runsTogether = true := by
    obtain ⟨c, hc, hdigit⟩ := (Option.any_eq_true _ _).mp (Value.signed_shown hx).getLast?
    exact (Option.any_eq_true _ _).mpr ⟨c, hc, runsTogether_of_isDigit hdigit⟩
  have hbetween : (ofValue (.number x)).between (ofValue (.number y)) =
      if (Value.number y).shown.toList.head?.any runsTogether then " " else "" := by
    rw [between, hlast]
    rfl
  have hsigned := Value.signed_shown hy
  rw [hbetween]
  generalize (Value.number y).shown.toList = cs at hsigned
  cases hsigned with
  | plain hcs =>
    rw [setOff_spelled hcs]
    obtain ⟨c, rest, rfl, hc⟩ := hcs.head
    rw [List.head?_cons, Option.any_some, runsTogether_of_isDigit hc]
    rfl
  | minus =>
    rw [setOff_minus]
    rfl

end Piece

section Print

variable {σ : Type} (h : Handler σ)

/-- The end of a PRINT statement that has collected a text. -/
def sendText (newline : Bool) (text : String) : Action σ Unit :=
  if newline then h .done (.printLine text) else printUnlessEmpty h text

/-- The characters that a number is shown with. -/
def Number.characters (x : Float) : List Char := (Value.number x).shown.toList

variable {h} {s s' : σ} {items : List Expr} {xs : List Float}

/-- An item that is a number is collected. -/
theorem printFrom_cons {e : Expr} {es : List Expr} {x : Float} {s₁ : σ}
    (hv : e.eval h s = (.ok (.number x), s₁)) (hx : x.isFinite = true) (newline : Bool)
    (text : String) (previous : Option Piece) :
    printFrom h newline text previous (e :: es) s =
      printFrom h newline
        (text ++ previous.elim "" (·.between (.ofValue (.number x))) ++ (Value.number x).shown)
        (some (.ofValue (.number x))) es s₁ := by
  have hclears : ¬ (Piece.ofValue (.number x)).clears = true :=
    Bool.eq_false_iff.mp (Piece.clears_number hx)
  rw [printFrom, bind_of_ok hv, if_neg hclears]
  cases previous <;> rfl

/-- PRINT goes on behind a number. The induction is on the items. -/
theorem printFrom_number (heval : Expr.evalAll h items s = (.ok (xs.map .number), s'))
    (hxs : ∀ x ∈ xs, x.isFinite = true) (newline : Bool) (text : String) {x : Float}
    (hx : x.isFinite = true) :
    printFrom h newline text (some (.ofValue (.number x))) items s =
      sendText h newline (text ++ String.ofList ((xs.map Number.characters).flatMap setOff)) s' := by
  induction items generalizing s xs text x with
  | nil =>
    obtain ⟨hnil, rfl⟩ := Prod.ext_iff.mp heval
    obtain rfl : xs = [] := List.map_eq_nil_iff.mp (Except.ok.inj hnil).symm
    exact congrArg (sendText h newline · s) String.append_empty.symm
  | cons e es ih =>
    obtain ⟨v, vs, s₁, hvs, hv, hrest⟩ := Expr.of_evalAll_cons heval
    obtain ⟨y, ys, rfl, rfl, rfl⟩ := List.map_eq_cons_iff.mp hvs
    obtain ⟨hy, hys⟩ := List.forall_mem_cons.mp hxs
    have htext : text ++ (Piece.ofValue (.number x)).between (.ofValue (.number y)) ++
        (Value.number y).shown ++ String.ofList ((ys.map Number.characters).flatMap setOff) =
        text ++ String.ofList (((y :: ys).map Number.characters).flatMap setOff) := by
      rw [List.map_cons, List.flatMap_cons, Number.characters, ← Piece.between_numbers hx hy]
      refine String.toList_injective ?_
      simp only [String.toList_append, String.toList_ofList, List.append_assoc]
    rw [printFrom_cons hv hy, ← htext]
    exact ih hrest hys _ hy

/-- PRINT of numbers sends them in a row. -/
theorem exec_print_numberRow (heval : Expr.evalAll h items s = (.ok (xs.map .number), s'))
    (hxs : ∀ x ∈ xs, x.isFinite = true) (newline : Bool) (patience : Nat) :
    (Statement.print items newline).exec h patience s =
      sendText h newline (String.ofList (numberRow (xs.map Number.characters))) s' := by
  change printFrom h newline "" none items s = _
  cases items with
  | nil =>
    obtain ⟨hnil, rfl⟩ := Prod.ext_iff.mp heval
    obtain rfl : xs = [] := List.map_eq_nil_iff.mp (Except.ok.inj hnil).symm
    rfl
  | cons e es =>
    obtain ⟨v, vs, s₁, hvs, hv, hrest⟩ := Expr.of_evalAll_cons heval
    obtain ⟨y, ys, rfl, rfl, rfl⟩ := List.map_eq_cons_iff.mp hvs
    obtain ⟨hy, hys⟩ := List.forall_mem_cons.mp hxs
    have htext : "" ++ "" ++ (Value.number y).shown ++
        String.ofList ((ys.map Number.characters).flatMap setOff) =
        String.ofList (numberRow ((y :: ys).map Number.characters)) := by
      refine String.toList_injective ?_
      simp only [String.toList_append, String.toList_ofList, List.map_cons, numberRow]
      rfl
    rw [printFrom_cons hv hy, ← htext]
    exact printFrom_number hrest hys newline _ hy

end Print

/-- On every machine a PRINT statement whose items have these values ends with sending this text. -/
def Prints (vs : List Value) (text : String) : Prop :=
  ∀ (σ : Type) (h : Handler σ) (items : List Expr) (newline : Bool) (patience : Nat) (s s' : σ),
    Expr.evalAll h items s = (.ok vs, s') →
      (Statement.print items newline).exec h patience s = sendText h newline text s'

/-- There is one such text at most: a console shows which. -/
theorem Prints.unique {vs : List Value} {text text' : String} (h : Prints vs text)
    (h' : Prints vs text') : text = text' := by
  have hsent (text : String) (h : Prints vs text) :
      (Statement.print (vs.map .literal) true).exec Machine.perform 0 .silent =
        (.ok (), Machine.silent.hears [.printLine text] []) := by
    rw [h _ _ _ true 0 _ _ (Machine.evalAll_literals Machine.perform vs .silent)]
    exact Machine.perform_printLine (m := .silent) (fun _ => rfl) text
  have hsame := (hsent text h).symm.trans (hsent text' h')
  have hevents := congrArg (fun r => r.2.console.events.toList) hsame
  exact Event.printLine.inj (List.cons.inj hevents).1

/-- Numbers that are printed do not run together. PRINT of finite numbers sends one text, and from two
lists it sends the same text only if they have the same length and show the same, number by number. -/
theorem prints_numbers_inj (xs ys : List Float) (hxs : ∀ x ∈ xs, x.isFinite = true)
    (hys : ∀ y ∈ ys, y.isFinite = true) :
    (∃ text, Prints (xs.map .number) text) ∧
      ∀ text, Prints (xs.map .number) text → Prints (ys.map .number) text →
        xs.length = ys.length ∧
          xs.map (fun x => (Value.number x).shown) = ys.map fun y => (Value.number y).shown := by
  have hprints (zs : List Float) (hzs : ∀ z ∈ zs, z.isFinite = true) :
      Prints (zs.map .number) (String.ofList (numberRow (zs.map Number.characters))) :=
    fun _ _ _ newline patience _ _ heval => exec_print_numberRow heval hzs newline patience
  have hsigned (zs : List Float) (hzs : ∀ z ∈ zs, z.isFinite = true) :
      ∀ cs ∈ zs.map Number.characters, Decimal.Signed cs :=
    List.forall_mem_map.mpr fun z hz => Value.signed_shown (hzs z hz)
  refine ⟨⟨_, hprints xs hxs⟩, fun text htext htext' => ?_⟩
  have hrow : numberRow (xs.map Number.characters) = numberRow (ys.map Number.characters) :=
    String.ofList_injective (((hprints xs hxs).unique htext).trans (htext'.unique (hprints ys hys)))
  have hcharacters := numberRow_inj (hsigned xs hxs) (hsigned ys hys) hrow
  refine ⟨?_, ?_⟩
  · have hlength := congrArg List.length hcharacters
    rwa [List.length_map, List.length_map] at hlength
  · have hshown := congrArg (List.map String.ofList) hcharacters
    simpa only [List.map_map, Function.comp_def, Number.characters, String.ofList_toList] using hshown

/-- No text is sent both for two numbers and for three with the same digits. -/
theorem prints_numbers_inj_digits :
    (∀ x ∈ [(12 : Float), -3], x.isFinite = true) ∧
      (∃ text, Prints ([(12 : Float), -3].map .number) text) ∧
      ∀ text, Prints ([(12 : Float), -3].map .number) text →
        ¬ Prints ([(1 : Float), 2, -3].map .number) text := by
  have hwhole (n : Nat) (hn : n < 2 ^ 53) : (Float.ofNat n).isFinite = true :=
    Number.isFinite_ofNat hn
  have htwo : ∀ x ∈ [(12 : Float), -3], x.isFinite = true := by
    refine List.forall_mem_cons.mpr ⟨hwhole 12 (by decide), List.forall_mem_singleton.mpr ?_⟩
    exact Number.isFinite_neg (hwhole 3 (by decide))
  have hthree : ∀ x ∈ [(1 : Float), 2, -3], x.isFinite = true := by
    refine List.forall_mem_cons.mpr ⟨hwhole 1 (by decide), List.forall_mem_cons.mpr ⟨?_, ?_⟩⟩
    · exact hwhole 2 (by decide)
    · exact List.forall_mem_singleton.mpr (Number.isFinite_neg (hwhole 3 (by decide)))
  obtain ⟨hexists, hinj⟩ := prints_numbers_inj _ _ htwo hthree
  refine ⟨htwo, hexists, fun text htext htext' => ?_⟩
  exact absurd (hinj text htext htext').1 (by decide)

end CommodoreBasic
