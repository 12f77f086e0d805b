import CommodoreBasic.Proofs.DecimalTexts
import CommodoreBasic.Proofs.NumberReaders
import CommodoreBasic.Proofs.ShortestDecimals

/-!
# VAL undoes STR$

STR$ writes the decimal of a number with a blank or a minus in front of it. VAL leaves out blanks and tabs
wherever they stand, takes the sign off and finds one numeral that reaches to the end. Its decimal is the
one that was written, so VAL gives the number again. Only the zero below zero comes back as the other zero,
which is equal to it.
-/

namespace CommodoreBasic

/-! ## Blanks and tabs -/

/-- The second text is the first with blanks and tabs put in. -/
inductive BlanksAdded : List Char → List Char → Prop where
  | nil : BlanksAdded [] []
  | keep (c : Char) {cs ds : List Char} (h : BlanksAdded cs ds) : BlanksAdded (c :: cs) (c :: ds)
  | blank {cs ds : List Char} (h : BlanksAdded cs ds) : BlanksAdded cs (' ' :: ds)
  | tab {cs ds : List Char} (h : BlanksAdded cs ds) : BlanksAdded cs ('\t' :: ds)

/-- No blanks need be added. -/
theorem BlanksAdded.refl (cs : List Char) : BlanksAdded cs cs := by
  induction cs with
  | nil => exact .nil
  | cons c cs ih => exact ih.keep c

/-- Without blanks and tabs the texts are the same. -/
theorem BlanksAdded.filter_eq {cs ds : List Char} (h : BlanksAdded cs ds) :
    (ds.filter fun c => c != ' ' && c != '\t') = cs.filter fun c => c != ' ' && c != '\t' := by
  induction h with
  | nil => rfl
  | keep c _ ih => rw [List.filter_cons, List.filter_cons, ih]
  | blank _ ih => exact ih
  | tab _ ih => exact ih

/-- Blanks do not matter to the number at the start of a text. -/
theorem Numeral.leading?_blanksAdded {cs ds : List Char} (h : BlanksAdded cs ds) :
    leading? ds = leading? cs := by
  unfold leading?
  rw [h.filter_eq]

/-! ## Reading the text of a decimal -/

namespace Decimal.Spelled

variable {d : Decimal} {cs : List Char} (h : Spelled d cs)
include h

/-- There are no blanks in a decimal. -/
theorem ne_blank : ∀ c ∈ cs, c ≠ ' ' ∧ c ≠ '\t' := by
  intro c hc
  rcases h.mem c hc with hdigit | rfl
  · constructor <;> (rintro rfl; cases hdigit)
  · decide

/-- A decimal is all number. -/
theorem leading? : Numeral.leading? cs = some d.toFloat :=
  (Numeral.leading?_of_isNumeral h.isNumeral h.ne_blank).trans h.value?

/-- A minus is taken off before the numeral is read. -/
theorem leading?_minus : Numeral.leading? ('-' :: cs) = some (-d.toFloat) := by
  have hblank : ∀ c ∈ cs, (c != ' ' && c != '\t') = true := fun c hc => by
    simpa using h.ne_blank c hc
  have hfilter : (cs.filter fun c => c != ' ' && c != '\t') = cs := List.filter_eq_self.mpr hblank
  have hfilter' : (('-' :: cs).filter fun c => c != ' ' && c != '\t') = '-' :: cs :=
    List.filter_eq_self.mpr (List.forall_mem_cons.mpr ⟨rfl, hblank⟩)
  have hread := h.leading?
  obtain ⟨c, rest, rfl, hc⟩ := h.head
  unfold Numeral.leading? at hread ⊢
  rw [hfilter] at hread
  rw [hfilter']
  split at hread
  · next heq =>
    obtain ⟨rfl, -⟩ := List.cons.inj heq
    cases hc
  · next heq =>
    obtain ⟨rfl, -⟩ := List.cons.inj heq
    cases hc
  · exact congrArg (Option.map (- ·)) hread

end Decimal.Spelled

/-! ## The text of a number -/

namespace Number

variable {x : Float} {m : Nat} {e : Int} {hm : 0 < m}

/-- The text of a number above zero spells a decimal that reads back. -/
theorem exists_spelled_shortest (hx : x.toModel.unpack = .finite .positive m e hm) :
    ∃ d : Decimal, d.Spelled (shortest x m e).text.toList ∧ d.toFloat = x := by
  obtain ⟨hread, hexponent⟩ := toFloat_shortest hx
  obtain hspelled | ⟨hnonneg, hspelled⟩ := (shortest x m e).spelled_text
  · exact ⟨_, hspelled, hread⟩
  · refine ⟨_, hspelled, (toFloat_zeros _ (by omega)).trans ?_⟩
    rw [Int.toNat_of_nonneg hnonneg]
    exact hread

/-- A negative number is its absolute value with a minus. -/
theorem neg_abs (hx : x.toModel.unpack = .finite .negative m e hm) : -x.abs = x :=
  eq_of_unpack (unpack_neg (unpack_abs hx)) hx

/-- What has a mantissa is not zero. -/
theorem beq_zero_of_unpack {s : Float.Model.UnpackedFloat.Sign}
    (hx : x.toModel.unpack = .finite s m e hm) : (x == 0) = false := by
  refine Bool.eq_false_iff.mpr fun hzero => ?_
  rw [beq_iff, hx, unpack_zero] at hzero
  cases s <;> cases hzero

/-- It is equal to itself. -/
theorem beq_self_of_unpack {s : Float.Model.UnpackedFloat.Sign}
    (hx : x.toModel.unpack = .finite s m e hm) : (x == x) = true := by
  have hsame : (compare e e).then (compare m m) = .eq := by
    rw [Ordering.then_eq_eq, Int.compare_eq_eq, Nat.compare_eq_eq]
    exact ⟨rfl, rfl⟩
  rw [beq_iff, hx]
  cases s with
  | negative => exact congrArg (fun o : Ordering => some o.swap) hsame
  | positive => exact congrArg some hsame

/-- STR$ leaves a column for the sign of what is not below zero. -/
theorem signedText_nonneg (h : 0 ≤ x) :
    (Builtin.signedText x).toList = ' ' :: (Value.number x).shown.toList := by
  rw [Builtin.signedText, if_pos h, String.toList_append]
  rfl

/-- A negative number is shown with its minus. -/
theorem signedText_negative (h : ¬ 0 ≤ x) : Builtin.signedText x = (Value.number x).shown :=
  if_neg h

/-- What STR$ writes reads back. -/
theorem leading?_signedText (h : x.isFinite = true) :
    ∃ y, Numeral.leading? (Builtin.signedText x).toList = some y ∧ (y == x) = true ∧
      ((x == 0) = false → y = x) := by
  obtain ⟨s, hx⟩ | ⟨s, m, e, hm, hx, -⟩ := unpack_cases h
  · -- both zeros are written as the one above zero
    have hzero : (x == 0) = true := by
      rw [beq_iff, hx, unpack_zero]
      rfl
    have hsign : 0 ≤ x := by
      rw [le_iff, hx, unpack_zero]
      rfl
    have hshown : (Value.number x).shown.toList = ['0'] := by
      rw [Value.shown, if_pos hzero]
      rfl
    refine ⟨0, ?_, ?_, fun hne => by rw [hzero] at hne; cases hne⟩
    · rw [signedText_nonneg hsign, hshown, Numeral.leading?_blanksAdded (.blank (.refl _)),
        Decimal.spelled_zero.leading?]
      exact congrArg some (toFloat_zero 0)
    · rw [beq_iff, hx, unpack_zero]
      rfl
  · have hshown : (Value.number x).shown = Number.text x := by
      rw [Value.shown, beq_zero_of_unpack hx]
      rfl
    refine ⟨x, ?_, beq_self_of_unpack hx, fun _ => rfl⟩
    cases s with
    | positive =>
      have hsign : 0 ≤ x := by
        rw [le_iff, hx, unpack_zero]
        rfl
      have htext : Number.text x = (shortest x m e).text := by rw [Number.text, hx]
      obtain ⟨d, hspelled, hread⟩ := exists_spelled_shortest hx
      rw [signedText_nonneg hsign, hshown, htext, Numeral.leading?_blanksAdded (.blank (.refl _)),
        hspelled.leading?, hread]
    | negative =>
      have hsign : ¬ 0 ≤ x := by
        rw [le_iff, hx, unpack_zero]
        exact Bool.false_ne_true
      have htext : (Number.text x).toList = '-' :: (shortest x.abs m e).text.toList := by
        rw [Number.text, hx, String.toList_append]
        rfl
      obtain ⟨d, hspelled, hread⟩ := exists_spelled_shortest (unpack_abs hx)
      rw [signedText_negative hsign, hshown, htext, hspelled.leading?_minus, hread, neg_abs hx]

end Number

namespace Builtin

/-- STR$ gives a number as PRINT shows it, with a place for its sign. -/
theorem apply_str (x : Float) (g : Random) :
    apply .str [.number x] g = (.ok (.text (signedText x)), g) := rfl

/-- VAL undoes STR$. From a finite number STR$ makes a text from which VAL makes an equal number, and the
number itself unless it is a zero. VAL makes one number of a text and of the same text with blanks and tabs
put in. -/
theorem val_str (g : Random) :
    (∀ x : Float, x.isFinite = true → ∃ (t : String) (y : Float),
        apply .str [.number x] g = (.ok (.text t), g) ∧
        apply .val [.text t] g = (.ok (.number y), g) ∧
        (y == x) = true ∧ ((x == 0) = false → y = x)) ∧
      ∀ s t : String, BlanksAdded s.toList t.toList → ∃ y : Float,
        apply .val [.text s] g = (.ok (.number y), g) ∧
        apply .val [.text t] g = (.ok (.number y), g) := by
  refine ⟨fun x hx => ?_, fun s t hblanks => ?_⟩
  · obtain ⟨y, hread, hequal⟩ := Number.leading?_signedText hx
    refine ⟨signedText x, y, apply_str x g, ?_, hequal⟩
    rw [Numeral.apply_val, hread, Option.getD_some]
  · refine ⟨_, Numeral.apply_val s g, ?_⟩
    rw [Numeral.apply_val, Numeral.leading?_blanksAdded hblanks]

/-- The least number above zero, which has 1074 places behind the point, comes back, and a numeral may be
spread out. -/
theorem val_str_least :
    (Float.ofBits 1).isFinite = true ∧ BlanksAdded "-12".toList " -\t1 2".toList ∧
      (∃ t, apply .str [.number (Float.ofBits 1)] (.ofSeed 0) = (.ok (.text t), .ofSeed 0) ∧
        apply .val [.text t] (.ofSeed 0) = (.ok (.number (Float.ofBits 1)), .ofSeed 0)) ∧
      ∃ y, apply .val [.text "-12"] (.ofSeed 0) = (.ok (.number y), .ofSeed 0) ∧
        apply .val [.text " -\t1 2"] (.ofSeed 0) = (.ok (.number y), .ofSeed 0) := by
  have hunpack : (Float.ofBits 1).toModel.unpack = .finite .positive 1 (-1074) Nat.one_pos := rfl
  have hfinite : (Float.ofBits 1).isFinite = true := rfl
  have hblanks : BlanksAdded "-12".toList " -\t1 2".toList :=
    .blank (.keep '-' (.tab (.keep '1' (.blank (.keep '2' .nil)))))
  obtain ⟨hback, hspread⟩ := val_str (.ofSeed 0)
  obtain ⟨t, y, hstr, hval, -, hsame⟩ := hback _ hfinite
  obtain rfl := hsame (Number.beq_zero_of_unpack hunpack)
  exact ⟨hfinite, hblanks, ⟨t, hstr, hval⟩, hspread "-12" " -\t1 2" hblanks⟩

end Builtin

end CommodoreBasic
