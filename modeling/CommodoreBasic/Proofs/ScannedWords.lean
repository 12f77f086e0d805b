import CommodoreBasic.Proofs.TokenSlices

/-!
# Scanned words

A token that has been found in a text is found again in the word that it is shown with. What stood
behind it in the text does not matter, nor does it matter that letters were not capitals there: no
spelling appears in a name that was not there before, and a numeral ends where it ended.
-/

namespace CommodoreBasic.Token

open CommodoreBasic.Text

/-! ## Capitals -/

/-- What is no letter has no capital. -/
theorem toUpper_eq_self {c : Char} (h : c.isAlpha = false) : c.toUpper = c := by
  delta Char.isAlpha Char.isUpper Char.isLower at h
  delta Char.toUpper
  split
  · next hlower =>
    simp [UInt32.le_iff_toNat_le] at h hlower
    omega
  · rfl

/-- The capital of a letter is a letter. -/
theorem isAlpha_toUpper {c : Char} (h : c.isAlpha = true) : c.toUpper.isAlpha = true := by
  delta Char.toUpper
  delta Char.isAlpha Char.isUpper Char.isLower at h ⊢
  split
  · next hlower =>
    simp [UInt32.le_iff_toNat_le] at h hlower ⊢
    omega
  · exact h

/-- A capital is its own capital. -/
theorem toUpper_toUpper (c : Char) : c.toUpper.toUpper = c.toUpper := by
  delta Char.toUpper
  split
  · next hlower =>
    rw [dif_neg]
    simp [UInt32.le_iff_toNat_le] at hlower ⊢
    omega
  · rfl

/-- A text in capitals has the same capitals. -/
theorem capitals_map_toUpper (cs : List Char) : capitals (cs.map Char.toUpper) = capitals cs := by
  rw [capitals, List.map_map, capitals]
  congr 2
  exact funext toUpper_toUpper

/-- A property that all letters have, or none of them, does not tell capitals from small letters. -/
theorem apply_toUpper (p : Char → Bool) {b : Bool} (hp : ∀ d : Char, d.isAlpha = true → p d = b)
    (c : Char) : p c.toUpper = p c := by
  cases hc : c.isAlpha with
  | true => rw [hp c hc, hp _ (isAlpha_toUpper hc)]
  | false => rw [toUpper_eq_self hc]

/-- A letter is no digit. -/
theorem isDigit_of_isAlpha {c : Char} (h : c.isAlpha = true) : c.isDigit = false :=
  (Bool.or_eq_false_iff.mp (kind_of_isAlpha h).2.1).1

/-- Capitals make no digits. -/
theorem isDigit_toUpper (c : Char) : c.toUpper.isDigit = c.isDigit :=
  apply_toUpper _ (fun _ => isDigit_of_isAlpha) c

/-- A digit has no capital. -/
theorem toUpper_of_isDigit {c : Char} (h : c.isDigit = true) : c.toUpper = c := by
  cases halpha : c.isAlpha with
  | true =>
    rw [isDigit_of_isAlpha halpha] at h
    cases h
  | false => exact toUpper_eq_self halpha

/-- Capitals make no character but letters. -/
theorem beq_toUpper {d : Char} (hd : d.isAlpha = false) (c : Char) : (c.toUpper == d) = (c == d) := by
  have hletter (e : Char) (he : e.isAlpha = true) : (e == d) = false := by
    rw [beq_eq_false_iff_ne]
    rintro rfl
    rw [he] at hd
    cases hd
  exact apply_toUpper (· == d) hletter c

/-- A character marks an exponent exactly if its capital does. -/
theorem isExponentMark_toUpper (c : Char) :
    (c.toUpper == 'E' || c.toUpper == 'e') = (c == 'E' || c == 'e') := by
  rw [Bool.eq_iff_iff]
  simp only [Bool.or_eq_true, beq_iff_eq, Char.ext_iff, ← UInt32.toNat_inj]
  delta Char.toUpper
  split
  · next hlower =>
    simp [UInt32.le_iff_toNat_le] at hlower ⊢
    omega
  · rfl

/-! ## Reserved words -/

/-- A word that is spelled at the start is spelled there before more characters. -/
theorem isSpelledAt_of_append {word us vs : List Char} (h : isSpelledAt word us = true) :
    isSpelledAt word (us ++ vs) = true := by
  induction word generalizing us with
  | nil => simp [isSpelledAt]
  | cons w word ih =>
    cases us with
    | nil => cases h
    | cons c us =>
      rw [isSpelledAt, Bool.and_eq_true] at h
      rw [List.cons_append, isSpelledAt, Bool.and_eq_true]
      exact ⟨h.1, ih h.2⟩

/-- Where nothing is spelled, nothing is spelled either if less of the text is looked at. -/
theorem crunch?_of_append {us vs : List Char} (h : crunch? (us ++ vs) = none) :
    crunch? us = none := by
  rw [crunch?, Option.map_eq_none_iff, List.find?_eq_none] at h ⊢
  intro spelling hmem hspelled
  exact h spelling hmem (isSpelledAt_of_append hspelled)

/-- A text that begins with no spelling does not begin with one if it is cut short. -/
theorem crunch?_cons_take {c : Char} {cs : List Char} (h : crunch? (c :: cs) = none) (n : Nat) :
    crunch? (c :: cs.take n) = none := by
  apply crunch?_of_append
  rw [List.cons_append, List.take_append_drop]
  exact h

/-- Spellings do not depend on capitals. -/
theorem isSpelledAt_map_toUpper (word cs : List Char) :
    isSpelledAt word (cs.map Char.toUpper) = isSpelledAt word cs := by
  induction word generalizing cs with
  | nil => simp [isSpelledAt]
  | cons w word ih =>
    cases cs with
    | nil => rfl
    | cons c cs => rw [List.map_cons, isSpelledAt, isSpelledAt, toUpper_toUpper, ih]

/-- So the word that is taken does not. -/
theorem crunch?_map_toUpper (cs : List Char) : crunch? (cs.map Char.toUpper) = crunch? cs := by
  unfold crunch?
  congr 1
  apply List.find?_congr
  intro spelling _
  exact isSpelledAt_map_toUpper spelling.1 cs

/-- A token with a spelling is shown by one. -/
theorem shown_mem_spellings {t : Token} (h : t.isCrunched = true) : (t.shown, t) ∈ spellings := by
  cases t with
  | keyword k => exact keyword_mem_spellings k
  | builtin f => exact builtin_mem_spellings f
  | operator op => exact operator_mem_spellings op
  | leftParenthesis | rightParenthesis | comma | colon | semicolon => decide
  | unknown | blanks | numeral | quoted | name => cases h

/-! ## Names -/

/-- The capital of a letter or digit is one. -/
theorem isAlphanum_toUpper {c : Char} (h : c.isAlphanum = true) : c.toUpper.isAlphanum = true := by
  rw [Char.isAlphanum, Bool.or_eq_true] at h ⊢
  exact h.imp isAlpha_toUpper fun hdigit => by rwa [isDigit_toUpper]

/-- A name goes on over letters and digits, and perhaps over one `$`. -/
theorem take_nameLength (cs : List Char) :
    ∃ body, (∀ c ∈ body, c.isAlphanum = true) ∧
      (cs.take (nameLength cs) = body ∨ cs.take (nameLength cs) = body ++ ['$']) := by
  induction cs with
  | nil => exact ⟨[], by simp, .inl rfl⟩
  | cons c cs ih =>
    obtain ⟨body, hbody, htake⟩ := ih
    rw [nameLength]
    split
    · exact ⟨[], by simp, .inl rfl⟩
    · split
      · next hc =>
        refine ⟨c :: body, List.forall_mem_cons.mpr ⟨hc, hbody⟩, ?_⟩
        rw [List.take_succ_cons, List.cons_append]
        exact htake.imp (congrArg _) (congrArg _)
      · split
        · next hc => exact ⟨[], by simp, .inr (by simp [beq_iff_eq.mp hc])⟩
        · exact ⟨[], by simp, .inl rfl⟩

/-- A letter, then letters and digits and perhaps a `$`, is an identifier in capitals too. -/
theorem isIdentifier_capitals {c : Char} {cs body : List Char} (hc : c.isAlpha = true)
    (hbody : ∀ d ∈ body, d.isAlphanum = true) (hcs : cs = body ∨ cs = body ++ ['$']) :
    Name.isIdentifier (capitals (c :: cs)) = true := by
  have hupper : (body.map Char.toUpper).all Char.isAlphanum = true := by
    rw [List.all_map, List.all_eq_true]
    exact fun d hd => isAlphanum_toUpper (hbody d hd)
  have hfree : '$' ∉ c.toUpper :: body.map Char.toUpper := by
    intro hmem
    rcases List.mem_cons.mp hmem with heq | hmem
    · exact absurd (isAlpha_toUpper hc) (heq ▸ by decide)
    · exact absurd (List.all_eq_true.mp hupper '$' hmem) (by decide)
  rw [capitals, List.map_cons]
  unfold Name.isIdentifier
  rcases hcs with rfl | rfl
  · rw [Name.isText_ofList hfree, String.toList_ofList]
    simp [isAlpha_toUpper hc, hupper]
  · have hmap : c.toUpper :: (body ++ ['$']).map Char.toUpper =
        (c.toUpper :: body.map Char.toUpper) ++ ['$'] := by
      rw [List.map_append, List.cons_append]
      rfl
    rw [hmap, Name.isText_ofList_suffix, String.toList_ofList, if_pos rfl, List.dropLast_concat]
    simp [isAlpha_toUpper hc, hupper]

/-- Capitals do not matter to whether anything is spelled in a text. -/
theorem spellNothing_map_toUpper (cs : List Char) :
    spellNothing (cs.map Char.toUpper) = spellNothing cs := by
  induction cs with
  | nil => rfl
  | cons c cs ih =>
    rw [List.map_cons, spellNothing, spellNothing, ih, ← List.map_cons, crunch?_map_toUpper]

/-- Nothing is spelled in a name behind its first letter. -/
theorem spellNothing_take_nameLength (cs : List Char) :
    spellNothing (cs.take (nameLength cs)) = true := by
  induction cs with
  | nil => rfl
  | cons c cs ih =>
    rw [nameLength]
    split
    case isTrue => rfl
    case isFalse hspelled =>
      rw [Bool.not_eq_true, Option.isSome_eq_false_iff, Option.isNone_iff_eq_none] at hspelled
      have hfirst := crunch?_cons_take hspelled
      split
      case isTrue =>
        rw [List.take_succ_cons, spellNothing, hfirst, ih]
        rfl
      case isFalse =>
        split
        case isTrue =>
          rw [List.take_succ_cons, spellNothing, hfirst, List.take_zero]
          rfl
        case isFalse => rfl

/-- A name that is found in a text is plain. -/
theorem isPlain_capitals {c : Char} {cs : List Char} (hc : c.isAlpha = true)
    (hcrunch : crunch? (c :: cs) = none) :
    Name.isPlain (capitals (c :: cs.take (nameLength cs))) = true := by
  obtain ⟨body, hbody, htake⟩ := take_nameLength cs
  have hfirst : crunch? (c :: cs.take (nameLength cs)) = none := crunch?_cons_take hcrunch _
  have hupper (ds : List Char) : (ds.map Char.toUpper).all (fun d => d.toUpper == d) = true := by
    rw [List.all_map, List.all_eq_true]
    exact fun d _ => beq_iff_eq.mpr (toUpper_toUpper d)
  rw [Name.isPlain, isIdentifier_capitals hc hbody htake, capitals, String.toList_ofList, hupper,
    spellNothing_map_toUpper, spellNothing, hfirst, spellNothing_take_nameLength]
  rfl

/-! ## Numerals -/

/-- Capitals do not matter to the length of a mantissa. -/
theorem mantissaLength_map_toUpper (seenPoint : Bool) (cs : List Char) :
    Numeral.mantissaLength seenPoint (cs.map Char.toUpper) = Numeral.mantissaLength seenPoint cs := by
  induction cs generalizing seenPoint with
  | nil => rfl
  | cons c cs ih =>
    rw [List.map_cons, Numeral.mantissaLength, Numeral.mantissaLength, isDigit_toUpper,
      beq_toUpper rfl, ih, ih]

/-- Nor to that of a row of digits. -/
theorem digitsLength_map_toUpper (cs : List Char) :
    Numeral.digitsLength (cs.map Char.toUpper) = Numeral.digitsLength cs := by
  have hdigit : Char.isDigit ∘ Char.toUpper = Char.isDigit := funext isDigit_toUpper
  rw [Numeral.digitsLength, List.takeWhile_map, hdigit, List.length_map, Numeral.digitsLength]

/-- One if the characters begin with a sign, else zero. -/
def signLength (cs : List Char) : Nat := if cs.head? = some '+' ∨ cs.head? = some '-' then 1 else 0

/-- An exponent is its mark, a sign or none, and digits. -/
theorem exponentLength_cons (c : Char) (cs : List Char) :
    Numeral.exponentLength (c :: cs) =
      if (c == 'E' || c == 'e') = true ∧ Numeral.digitsLength (cs.drop (signLength cs)) ≠ 0 then
        1 + signLength cs + Numeral.digitsLength (cs.drop (signLength cs))
      else 0 := by
  cases hmark : c == 'E' || c == 'e' with
  | false => simp [Numeral.exponentLength, hmark]
  | true =>
    cases cs with
    | nil => simp [Numeral.exponentLength, hmark, signLength, Numeral.digitsLength]
    | cons d cs =>
      by_cases hsign : d = '+' ∨ d = '-'
      · have hlength : signLength (d :: cs) = 1 :=
          if_pos (hsign.imp (congrArg some) (congrArg some))
        rw [hlength, List.drop_succ_cons, List.drop_zero]
        cases hdigits : Numeral.digitsLength cs <;> rcases hsign with rfl | rfl <;>
          simp [Numeral.exponentLength, hmark, hdigits]
      · have hlength : signLength (d :: cs) = 0 := if_neg (by simpa using hsign)
        rw [not_or] at hsign
        rw [hlength, List.drop_zero]
        cases hdigits : Numeral.digitsLength (d :: cs) <;>
          simp [Numeral.exponentLength, hmark, hdigits, hsign]

/-- Nor to that of an exponent. -/
theorem exponentLength_map_toUpper (cs : List Char) :
    Numeral.exponentLength (cs.map Char.toUpper) = Numeral.exponentLength cs := by
  cases cs with
  | nil => rfl
  | cons c cs =>
    have hsign : signLength (cs.map Char.toUpper) = signLength cs := by
      cases cs with
      | nil => rfl
      | cons d cs =>
        have hplus := beq_toUpper (d := '+') rfl d
        have hminus := beq_toUpper (d := '-') rfl d
        rw [Bool.eq_iff_iff, beq_iff_eq, beq_iff_eq] at hplus hminus
        simp [signLength, hplus, hminus]
    rw [List.map_cons, exponentLength_cons, exponentLength_cons, hsign, ← List.map_drop,
      digitsLength_map_toUpper, isExponentMark_toUpper]

/-- A numeral is its mantissa and perhaps an exponent. -/
theorem numeralLength_eq (cs : List Char) :
    Numeral.length cs = if Numeral.mantissaLength false cs = 0 then 0
      else Numeral.mantissaLength false cs +
        Numeral.exponentLength (cs.drop (Numeral.mantissaLength false cs)) := by
  unfold Numeral.length
  cases Numeral.mantissaLength false cs <;> rfl

/-- Nor to that of a numeral. -/
theorem numeralLength_map_toUpper (cs : List Char) :
    Numeral.length (cs.map Char.toUpper) = Numeral.length cs := by
  rw [numeralLength_eq, numeralLength_eq, mantissaLength_map_toUpper, ← List.map_drop,
    exponentLength_map_toUpper]

/-- A mantissa is found in a text that is cut short behind it. -/
theorem mantissaLength_take {seenPoint : Bool} {cs : List Char} {k : Nat}
    (hk : Numeral.mantissaLength seenPoint cs ≤ k) :
    Numeral.mantissaLength seenPoint (cs.take k) = Numeral.mantissaLength seenPoint cs := by
  induction cs generalizing seenPoint k with
  | nil => rw [List.take_nil]
  | cons c cs ih =>
    cases k with
    | zero => rw [List.take_zero, Nat.le_zero.mp hk]; rfl
    | succ k =>
      rw [Numeral.mantissaLength] at hk
      rw [List.take_succ_cons, Numeral.mantissaLength, Numeral.mantissaLength]
      split at hk
      · next hdigit => rw [if_pos hdigit, if_pos hdigit, ih (Nat.le_of_succ_le_succ hk)]
      · next hdigit =>
        rw [if_neg hdigit, if_neg hdigit]
        split at hk
        · next hpoint => rw [if_pos hpoint, if_pos hpoint, ih (Nat.le_of_succ_le_succ hk)]
        · next hpoint => rw [if_neg hpoint, if_neg hpoint]

/-- Digits are found as far as the text goes. -/
theorem digitsLength_take (cs : List Char) (k : Nat) :
    Numeral.digitsLength (cs.take k) = min k (Numeral.digitsLength cs) := by
  rw [Numeral.digitsLength, ← List.take_takeWhile, List.length_take, Numeral.digitsLength]

/-- An exponent is found in a text that is cut short behind it. -/
theorem exponentLength_take {cs : List Char} {k : Nat} (hk : Numeral.exponentLength cs ≤ k) :
    Numeral.exponentLength (cs.take k) = Numeral.exponentLength cs := by
  cases cs with
  | nil => rw [List.take_nil]
  | cons c cs =>
    cases k with
    | zero => rw [List.take_zero, Nat.le_zero.mp hk]; rfl
    | succ k =>
      -- Without the characters behind the exponent there are no fewer digits in it, and a sign is cut
      -- off only if no digit follows it.
      have hsign : signLength (cs.take k) = signLength cs ∨ k = 0 := by
        cases k with
        | zero => exact .inr rfl
        | succ k => cases cs <;> exact .inl rfl
      rw [exponentLength_cons] at hk
      rw [List.take_succ_cons, exponentLength_cons, exponentLength_cons, List.drop_take,
        digitsLength_take]
      cases hmark : c == 'E' || c == 'e' with
      | false => simp
      | true =>
        simp only [hmark, true_and] at hk ⊢
        rcases hsign with hsign | rfl
        · rw [hsign]
          split_ifs at hk ⊢ <;> omega
        · split_ifs at hk ⊢ <;> omega

/-- A numeral ends where it ends, also if nothing stands behind it. -/
theorem numeralLength_take (cs : List Char) :
    Numeral.length (cs.take (Numeral.length cs)) = Numeral.length cs := by
  rw [numeralLength_eq cs]
  split
  case isTrue => rfl
  case isFalse hne =>
    rw [numeralLength_eq, mantissaLength_take (Nat.le_add_right _ _), if_neg hne, List.drop_take,
      Nat.add_sub_cancel_left, exponentLength_take (Nat.le_refl _)]

/-! ## Tokens that have been scanned -/

/-- A digit or a point begins a numeral. -/
theorem numeralLength_pos {c : Char} (hc : (c.isDigit || c == '.') = true) (cs : List Char) :
    0 < Numeral.length (c :: cs) := by
  have hmantissa : Numeral.mantissaLength false (c :: cs) ≠ 0 := by
    rw [Numeral.mantissaLength]
    cases hdigit : c.isDigit with
    | true => simp
    | false => simp_all
  rw [numeralLength_eq, if_neg hmantissa]
  omega

/-- A numeral begins with its first character. -/
theorem cons_take_numeralLength {c : Char} (hc : (c.isDigit || c == '.') = true) (cs : List Char) :
    c :: cs.take (Numeral.length (c :: cs) - 1) = (c :: cs).take (Numeral.length (c :: cs)) := by
  conv_rhs => rw [← Nat.sub_add_cancel (numeralLength_pos hc cs)]
  rw [List.take_succ_cons]

/-- The characters of a numeral that has been found are a numeral in capitals too. -/
theorem isNumeral_capitals {c : Char} (hc : (c.isDigit || c == '.') = true) (cs : List Char) :
    IsNumeral ((c :: cs.take (Numeral.length (c :: cs) - 1)).map Char.toUpper) := by
  refine ⟨by simp, ?_⟩
  rw [numeralLength_map_toUpper, List.length_map, cons_take_numeralLength hc, numeralLength_take,
    List.length_take, Nat.min_eq_left (numeralLength_le _)]

/-- A character that begins nothing is a token of its own. -/
theorem reads_unknown {c : Char} (hblank : isBlank c = false)
    (hdigit : (c.isDigit || c == '.') = false) (hquote : (c == quotationMark) = false)
    (hcrunch : crunch? [c] = none) (halpha : c.isAlpha = false) :
    Reads [c] (unknown (String.ofList [c])) := by
  refine ⟨c, [], rfl, fun rest hrest => ?_⟩
  unfold next
  rw [List.nil_append, hblank, hdigit, hquote, ← List.singleton_append, crunch?_append hrest, hcrunch,
    halpha]
  rfl

/-- A token that has been found, unless it is a run of blanks, is found again in the word that it is
shown with. -/
theorem reads_next (c : Char) (cs : List Char) (hblanks : (next c cs).1.isBlanks = false) :
    Reads (next c cs).1.shown.toList (next c cs).1 := by
  have hwritten := writtenIn_next c cs
  revert hblanks hwritten
  fun_cases next c cs with
  | case1 hblank => intro hblanks; cases hblanks
  | case2 hblank hdigit =>
    intro _ _
    have hreads := reads_numeral (isNumeral_capitals hdigit cs)
    rw [capitals_map_toUpper] at hreads
    rw [shown, capitals, String.toList_ofList]
    exact hreads
  | case3 hblank hdigit hquote => intro _ hwritten; exact reads_quoted hwritten.1
  | case4 hblank hdigit hquote n t hcrunch =>
    intro _ _
    obtain ⟨word, hmem, -⟩ := exists_spelling_of_crunch? hcrunch
    exact reads_shown (shown_mem_spellings (shown_of_mem_crunchTable _ hmem).1)
  | case5 hblank hdigit hquote hcrunch halpha =>
    intro _ _
    exact reads_name (isPlain_capitals halpha hcrunch)
  | case6 hblank hdigit hquote hcrunch halpha =>
    intro _ _
    have hfirst : crunch? [c] = none := crunch?_cons_take hcrunch 0
    rw [Bool.not_eq_true] at hblank hdigit hquote halpha
    rw [shown, String.toList_ofList]
    exact reads_unknown hblank hdigit hquote hfirst halpha

/-- The names that the scanner takes are plain. -/
theorem isPlain_of_next {c : Char} {cs : List Char} {n : Name} (h : (next c cs).1 = name n) :
    n.isPlain = true := by
  revert h
  fun_cases next c cs with
  | case1 hblank => intro h; cases h
  | case2 hblank hdigit => intro h; cases h
  | case3 hblank hdigit hquote => intro h; cases h
  | case4 hblank hdigit hquote k t hcrunch =>
    rintro rfl
    obtain ⟨word, hmem, -⟩ := exists_spelling_of_crunch? hcrunch
    cases (shown_of_mem_crunchTable _ hmem).1
  | case5 hblank hdigit hquote hcrunch halpha =>
    intro h
    cases h
    exact isPlain_capitals halpha hcrunch
  | case6 hblank hdigit hquote hcrunch halpha => intro h; cases h

/-- A token of a text begins somewhere in it, unless it is the raw text behind REM or DATA. -/
theorem exists_next_of_mem_scan {cs : List Char} {t : Token} (h : t ∈ scan cs) :
    (∃ c us, c :: us <:+ cs ∧ (next c us).1 = t) ∨
      (keyword .REM ∈ scan cs ∨ keyword .DATA ∈ scan cs) ∧ ∃ s, t = unknown s := by
  fun_induction scan cs with
  | case1 => cases h
  | case2 c cs n rest hempty hnext =>
    obtain rfl := List.mem_singleton.mp h
    exact .inl ⟨c, cs, List.suffix_rfl, congrArg Prod.fst hnext⟩
  | case3 c cs n rest hrest hnext =>
    rcases List.mem_cons.mp h with rfl | h
    · exact .inl ⟨c, cs, List.suffix_rfl, congrArg Prod.fst hnext⟩
    · exact .inr ⟨.inl List.mem_cons_self, _, List.mem_singleton.mp h⟩
  | case4 c cs n rest m hnext hrem ih =>
    rcases List.mem_cons.mp h with rfl | h
    · exact .inl ⟨c, cs, List.suffix_rfl, congrArg Prod.fst hnext⟩
    rcases List.mem_append.mp h with h | h
    · refine .inr ⟨.inr List.mem_cons_self, ?_⟩
      unfold rawData at h
      split at h
      · cases h
      · exact ⟨_, List.mem_singleton.mp h⟩
    · refine (ih h).imp ?_ fun hraw => ⟨.inr List.mem_cons_self, hraw.2⟩
      rintro ⟨d, us, hsuffix, ht⟩
      have hrest : rest.drop m <:+ c :: cs :=
        (List.drop_suffix m _).trans ((List.drop_suffix n cs).trans (List.suffix_cons c cs))
      exact ⟨d, us, hsuffix.trans hrest, ht⟩
  | case5 c cs t' n hnext rest hrem hdata ih =>
    rcases List.mem_cons.mp h with rfl | h
    · exact .inl ⟨c, cs, List.suffix_rfl, congrArg Prod.fst hnext⟩
    · refine (ih h).imp ?_ fun hraw =>
        ⟨hraw.1.imp (List.mem_cons_of_mem _) (List.mem_cons_of_mem _), hraw.2⟩
      rintro ⟨d, us, hsuffix, ht⟩
      exact ⟨d, us, hsuffix.trans ((List.drop_suffix n cs).trans (List.suffix_cons c cs)), ht⟩

/-- The names of a text are plain. -/
theorem isPlain_of_mem_scan {cs : List Char} {n : Name} (h : name n ∈ scan cs) :
    n.isPlain = true := by
  rcases exists_next_of_mem_scan h with ⟨c, us, -, hnext⟩ | ⟨-, s, hs⟩
  · exact isPlain_of_next hnext
  · cases hs

/-- The tokens of a line behind its number, without the runs of blanks. -/
def ofLine (cs : List Char) : List Token := (scanLine cs).tokens.filter (! ·.isBlanks)

/-- The tokens of a line are those behind its number, without line ends. -/
theorem ofLine_eq_lex (cs : List Char) :
    ofLine cs = lex (splitNumber (dropEndWhile isLineEnd cs)).2 := by
  rw [ofLine, scanLine, filter_trimBlanks]
  rfl

end CommodoreBasic.Token
