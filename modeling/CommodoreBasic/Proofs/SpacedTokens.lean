import CommodoreBasic.Proofs.Listing
import CommodoreBasic.Proofs.ScannedWords

/-!
# Tokens with blanks between them

The tokens of a line can run together. Written with single blanks between them, behind the number of the
line if it has one, they are the same tokens of a line with the same number. Every word is scanned as
its token again, and whether there is a number in front depends on the digits that the line begins
with, which are the same in both texts.
-/

namespace CommodoreBasic.Token

open CommodoreBasic.Text

/-! ## Words with blanks between them -/

/-- The words of the tokens with single blanks between them. -/
def spaced (ts : List Token) : List Char := [' '].intercalate (ts.map fun t => t.shown.toList)

/-- What follows a word in front of the tokens. -/
def spacedBehind : List Token → List Char
  | [] => []
  | t :: ts => ' ' :: spaced (t :: ts)

/-- A word stands in front of the tokens behind it, each after a blank. -/
theorem intercalate_cons (w : List Char) (ts : List Token) :
    [' '].intercalate (w :: ts.map fun t => t.shown.toList) = w ++ spacedBehind ts := by
  cases ts with
  | nil => rw [List.map_nil, List.intercalate_singleton, spacedBehind, List.append_nil]
  | cons t ts =>
    rw [List.map_cons, List.intercalate_cons_cons, List.append_assoc, List.singleton_append]
    rfl

/-- So does the first token. -/
theorem spaced_cons (t : Token) (ts : List Token) :
    spaced (t :: ts) = t.shown.toList ++ spacedBehind ts := intercalate_cons t.shown.toList ts

/-- What follows a token ends it. -/
theorem ends_spacedBehind (ts : List Token) : Ends (spacedBehind ts) := by
  cases ts with
  | nil => simp [spacedBehind, Ends]
  | cons t ts => exact ends_blank _

/-- What ends a token does not begin with a digit. -/
theorem Ends.isDigit {rest : List Char} (h : Ends rest) :
    ∀ c, rest.head? = some c → c.isDigit = false := by
  intro c hc
  rcases h c hc with rfl | rfl | rfl | rfl <;> rfl

/-- A blank in front does not matter. -/
theorem lex_spacedBehind (ts : List Token) : lex (spacedBehind ts) = lex (spaced ts) := by
  cases ts with
  | nil => rfl
  | cons t ts => exact lex_blank _

/-- Tokens that are read from their own spelling are read from it with blanks between them. -/
theorem lex_spaced {ts : List Token} (hreads : ∀ t ∈ ts, Reads t.shown.toList t)
    (hblanks : ∀ t ∈ ts, t.isBlanks = false) (hremark : keyword .REM ∉ ts)
    (hdata : keyword .DATA ∉ ts) : lex (spaced ts) = ts := by
  induction ts with
  | nil => exact lex_nil
  | cons t ts ih =>
    rw [List.forall_mem_cons] at hreads hblanks
    rw [List.mem_cons, not_or] at hremark hdata
    rw [spaced_cons, lex_word hreads.1 (ends_spacedBehind ts) hblanks.1 (Ne.symm hremark.1)
      (Ne.symm hdata.1), lex_spacedBehind, ih hreads.2 hblanks.2 hremark.2 hdata.2]

/-- There is no line end between words. -/
theorem isLineEnd_of_mem_spacedBehind {ts : List Token}
    (h : ∀ c ∈ spaced ts, isLineEnd c = false) : ∀ c ∈ spacedBehind ts, isLineEnd c = false := by
  cases ts with
  | nil => exact List.forall_mem_nil _
  | cons t ts => exact List.forall_mem_cons.mpr ⟨rfl, h⟩

/-- Tokens without line ends stand on one line. -/
theorem isLineEnd_of_mem_spaced {ts : List Token}
    (h : ∀ t ∈ ts, ∀ c ∈ t.shown.toList, isLineEnd c = false) :
    ∀ c ∈ spaced ts, isLineEnd c = false := by
  induction ts with
  | nil => exact List.forall_mem_nil _
  | cons t ts ih =>
    rw [List.forall_mem_cons] at h
    rw [spaced_cons]
    exact List.forall_mem_append.mpr ⟨h.1, isLineEnd_of_mem_spacedBehind (ih h.2)⟩

/-! ## The digits in front -/

/-- The digits that a text begins with, apart from white space. -/
def leadingDigits (cs : List Char) : List Char := (trimStart cs).takeWhile Char.isDigit

/-- White space in front of digits does not matter. -/
theorem leadingDigits_append {white cs : List Char} (h : ∀ c ∈ white, isWhiteSpace c = true) :
    leadingDigits (white ++ cs) = leadingDigits cs := by
  rw [leadingDigits, trimStart, List.dropWhile_append_of_pos h]
  rfl

/-- Neither does the blank before the first token. -/
theorem leadingDigits_spacedBehind (ts : List Token) :
    leadingDigits (spacedBehind ts) = leadingDigits (spaced ts) := by
  cases ts with
  | nil => rfl
  | cons t ts =>
    rw [spacedBehind, ← List.singleton_append]
    exact leadingDigits_append (List.forall_mem_singleton.mpr rfl)

/-- The character is neither white space nor a digit. -/
def isSolid (c : Char) : Bool := !isWhiteSpace c && !c.isDigit

/-- A solid character leaves no digits in front. -/
theorem leadingDigits_of_isSolid {c : Char} (hc : isSolid c = true) (cs : List Char) :
    leadingDigits (c :: cs) = [] := by
  rw [isSolid, Bool.and_eq_true, Bool.not_eq_true', Bool.not_eq_true'] at hc
  rw [leadingDigits, trimStart, List.dropWhile_cons_of_neg (by simp [hc.1]),
    List.takeWhile_cons_of_neg (by simp [hc.2])]

/-- Digits at the start are the leading ones. -/
theorem leadingDigits_of_isDigit {c : Char} (hc : c.isDigit = true) (cs : List Char) :
    leadingDigits (c :: cs) = (c :: cs).takeWhile Char.isDigit := by
  have hwhite := (Number.kind_of_isNumeric (Number.isNumeric_of_isDigit hc)).1
  rw [leadingDigits, trimStart, List.dropWhile_cons_of_neg (by simp [hwhite])]

/-- A letter is solid. -/
theorem isSolid_of_isAlpha {c : Char} (hc : c.isAlpha = true) : isSolid c = true := by
  have hnumeric : Number.isNumeric c = true := by simp [Number.isNumeric, Char.isAlphanum, hc]
  rw [isSolid, (Number.kind_of_isNumeric hnumeric).1, isDigit_of_isAlpha hc]
  rfl

/-- A character is solid exactly if its capital is. -/
theorem isSolid_toUpper (c : Char) : isSolid c.toUpper = isSolid c :=
  apply_toUpper isSolid (fun _ => isSolid_of_isAlpha) c

/-- Every spelling begins with a solid character. -/
theorem isSolid_spelling : ∀ spelling ∈ crunchTable, ∃ c cs, spelling.1 = c :: cs ∧
    isSolid c = true := by
  have hhead : ∀ spelling ∈ crunchTable, spelling.1.head?.any isSolid = true := by
    decide +kernel
  rintro ⟨word, t⟩ hmem
  cases word with
  | nil => cases hhead _ hmem
  | cons c cs => exact ⟨c, cs, rfl, hhead _ hmem⟩

/-- The digits at the start belong to the mantissa. -/
theorem digitsLength_le_mantissaLength (seenPoint : Bool) (cs : List Char) :
    Numeral.digitsLength cs ≤ Numeral.mantissaLength seenPoint cs := by
  induction cs with
  | nil => exact Nat.le_refl 0
  | cons c cs ih =>
    rw [Numeral.mantissaLength]
    split
    case isTrue hc =>
      rw [Numeral.digitsLength, List.takeWhile_cons_of_pos hc]
      exact Nat.succ_le_succ ih
    case isFalse hc =>
      rw [Numeral.digitsLength, List.takeWhile_cons_of_neg hc]
      exact Nat.zero_le _

/-- So they belong to the numeral. -/
theorem digitsLength_le_numeralLength (cs : List Char) :
    Numeral.digitsLength cs ≤ Numeral.length cs := by
  have hle := digitsLength_le_mantissaLength false cs
  rw [numeralLength_eq]
  split <;> omega

/-- A numeral keeps its leading digits in capitals. -/
theorem takeWhile_isDigit_capitals (cs : List Char) :
    ((cs.take (Numeral.length cs)).map Char.toUpper).takeWhile Char.isDigit =
      cs.takeWhile Char.isDigit := by
  have hdigit : Char.isDigit ∘ Char.toUpper = Char.isDigit := funext isDigit_toUpper
  have hsame : (cs.takeWhile Char.isDigit).map Char.toUpper = cs.takeWhile Char.isDigit := by
    conv_rhs => rw [← List.map_id (cs.takeWhile Char.isDigit)]
    exact List.map_congr_left fun c hc => toUpper_of_isDigit (List.mem_takeWhile_imp hc)
  rw [List.takeWhile_map, hdigit, ← List.take_takeWhile,
    List.take_of_length_le (digitsLength_le_numeralLength cs), hsame]

/-- A text at the start of which a token is found begins with the same digits as the word of the token,
if what follows them does. -/
theorem leadingDigits_next (c : Char) (cs : List Char) {tail : List Char} (htail : Ends tail)
    (hblanks : (next c cs).1.isBlanks = false)
    (hrest : leadingDigits tail = leadingDigits (cs.drop (next c cs).2)) :
    leadingDigits ((next c cs).1.shown.toList ++ tail) = leadingDigits (c :: cs) := by
  revert hblanks hrest
  fun_cases next c cs with
  | case1 hblank => intro hblanks; cases hblanks
  | case2 hblank hnumeral =>
    intro _ _
    rw [shown, capitals, String.toList_ofList, List.map_cons, List.cons_append]
    cases hdigit : c.isDigit with
    | true =>
      rw [leadingDigits_of_isDigit hdigit, leadingDigits_of_isDigit (by rwa [isDigit_toUpper]),
        ← List.cons_append, ← List.map_cons, takeWhile_isDigit_append htail,
        cons_take_numeralLength hnumeral, takeWhile_isDigit_capitals]
    | false =>
      obtain rfl : c = '.' := by simpa [hdigit] using hnumeral
      rw [leadingDigits_of_isSolid rfl, leadingDigits_of_isSolid rfl]
  | case3 hblank hdigit hquote =>
    intro _ _
    obtain rfl := beq_iff_eq.mp hquote
    rw [toList_shown_quoted, List.cons_append, leadingDigits_of_isSolid rfl,
      leadingDigits_of_isSolid rfl]
  | case4 hblank hdigit hquote n t hcrunch =>
    intro _ _
    obtain ⟨word, hmem, rfl, hword⟩ := exists_spelling_of_crunch? hcrunch
    obtain ⟨w, ws, rfl, hw⟩ := isSolid_spelling _ hmem
    have hc : isSolid c = true := by
      rw [List.length_cons, List.take_succ_cons, List.map_cons] at hword
      rwa [← isSolid_toUpper, (List.cons.inj hword).1]
    have hcrunched := (shown_of_mem_crunchTable _ hmem).1
    have hshown : (t.shown.toList, t) ∈ crunchTable := List.mem_map_of_mem (shown_mem_spellings hcrunched)
    obtain ⟨d, ds, hd, hsolid⟩ := isSolid_spelling _ hshown
    dsimp only at hd
    dsimp only
    rw [hd, List.cons_append, leadingDigits_of_isSolid hsolid, leadingDigits_of_isSolid hc]
  | case5 hblank hdigit hquote hcrunch halpha =>
    intro _ _
    have hsolid := isSolid_of_isAlpha halpha
    rw [shown, capitals, String.toList_ofList, List.map_cons, List.cons_append,
      leadingDigits_of_isSolid hsolid, leadingDigits_of_isSolid (by rwa [isSolid_toUpper])]
  | case6 hblank hdigit hquote hcrunch halpha =>
    intro _ hrest
    rw [shown, String.toList_ofList]
    cases hwhite : isWhiteSpace c with
    | true =>
      have hc : ∀ d ∈ [c], isWhiteSpace d = true := List.forall_mem_singleton.mpr hwhite
      rw [leadingDigits_append hc, ← List.singleton_append, leadingDigits_append hc, hrest,
        List.drop_zero]
    | false =>
      rw [Bool.not_eq_true, Bool.or_eq_false_iff] at hdigit
      have hsolid : isSolid c = true := by rw [isSolid, hwhite, hdigit.1]; rfl
      rw [List.singleton_append, leadingDigits_of_isSolid hsolid, leadingDigits_of_isSolid hsolid]

/-- Blanks are white space. -/
theorem isWhiteSpace_of_writtenIn_blanks {k : Nat} {slice rest : List Char}
    (h : (blanks k).WrittenIn slice rest) : ∀ c ∈ slice, isWhiteSpace c = true := by
  intro c hc
  have hmem : (if c = '\t' then ' ' else c) ∈ (blanks k).shown.toList := by
    rw [h]
    exact List.mem_map_of_mem hc
  rw [shown, String.toList_ofList] at hmem
  have hshown := List.eq_of_mem_replicate hmem
  split at hshown
  case isTrue htab => rw [htab]; rfl
  case isFalse => rw [hshown]; rfl

/-- A text begins with the same digits without the blanks in front. -/
theorem leadingDigits_blanks {c : Char} {cs : List Char}
    (hblanks : (next c cs).1.isBlanks = true) :
    leadingDigits (cs.drop (next c cs).2) = leadingDigits (c :: cs) := by
  have hwritten := writtenIn_next c cs
  cases ht : (next c cs).1 with
  | blanks k =>
    rw [ht] at hwritten
    have hwhite := isWhiteSpace_of_writtenIn_blanks hwritten
    rw [← leadingDigits_append hwhite, List.cons_append, List.take_append_drop]
  | _ =>
    rw [ht] at hblanks
    cases hblanks

/-- The words of a text begin with the same digits as the text. -/
theorem leadingDigits_spaced {cs : List Char} (hremark : keyword .REM ∉ scan cs)
    (hdata : keyword .DATA ∉ scan cs) : leadingDigits (spaced (lex cs)) = leadingDigits cs := by
  unfold lex
  fun_induction scan cs with
  | case1 => rfl
  | case2 => simp at hremark
  | case3 => simp at hremark
  | case4 => simp at hdata
  | case5 c cs t n hnext rest hrem hne ih =>
    rw [List.mem_cons, not_or] at hremark hdata
    have hrest := ih hremark.2 hdata.2
    obtain ⟨rfl, rfl⟩ : (next c cs).1 = t ∧ (next c cs).2 = n := by rw [hnext]; exact ⟨rfl, rfl⟩
    cases hblanks : (next c cs).1.isBlanks with
    | true =>
      rw [List.filter_cons_of_neg (by simp [hblanks]), hrest, leadingDigits_blanks hblanks]
    | false =>
      rw [List.filter_cons_of_pos (by simp [hblanks]), spaced_cons]
      apply leadingDigits_next c cs (ends_spacedBehind _) hblanks
      rw [leadingDigits_spacedBehind, hrest]

/-! ## Lines -/

/-- If the texts begin with the same digits, both have a number in front or none of them. -/
theorem splitNumber_of_leadingDigits {cs ds : List Char} (h : leadingDigits ds = leadingDigits cs)
    (hcs : (splitNumber cs).1 = none) : splitNumber ds = (none, ds) := by
  unfold leadingDigits at h
  unfold splitNumber at hcs ⊢
  dsimp only at hcs ⊢
  rw [h]
  split
  case isTrue hnumber =>
    rw [if_pos hnumber] at hcs
    cases hcs
  case isFalse => rfl

/-- The number of a line is not too great. -/
theorem le_greatest_of_splitNumber {cs : List Char} {n : LineNumber}
    (h : (splitNumber cs).1 = some n) : n ≤ LineNumber.greatest := by
  unfold splitNumber at h
  dsimp only at h
  split at h
  case isTrue hnumber =>
    cases h
    simpa using (Bool.and_eq_true_iff.mp hnumber).2
  case isFalse => cases h

/-- A line number stands on one line. -/
theorem isLineEnd_of_mem_toString (n : LineNumber) :
    ∀ c ∈ (toString n).toList, isLineEnd c = false := by
  intro c hc
  have hdigit := LineNumber.isDigit_of_mem_toString hc
  exact isLineEnd_of_isAlphanum (by simp [Char.isAlphanum, hdigit])

/-- A text without line ends is split into its number and the text of its tokens. -/
theorem scanLine_of_splitNumber {cs : List Char} (hcs : ∀ c ∈ cs, isLineEnd c = false)
    {number : Option LineNumber} {rest : List Char} (h : splitNumber cs = (number, rest)) :
    (scanLine cs).number = number ∧ ofLine cs = lex rest := by
  have hline : dropEndWhile isLineEnd cs = cs := dropEndWhile_of_unbroken (unbroken_of_forall hcs)
  rw [ofLine_eq_lex, scanLine, hline, h]
  exact ⟨rfl, rfl⟩

/-- The word of a token has no line end if the token is written without one. -/
theorem WrittenIn.isLineEnd {t : Token} {slice rest : List Char} (h : t.WrittenIn slice rest)
    (hslice : ∀ c ∈ slice, isLineEnd c = false) : ∀ c ∈ t.shown.toList, isLineEnd c = false := by
  have hupper : ∀ c ∈ slice.map Char.toUpper, Text.isLineEnd c = false := by
    intro c hc
    obtain ⟨d, hd, rfl⟩ := List.mem_map.mp hc
    have hletter (e : Char) (he : e.isAlpha = true) : Text.isLineEnd e = false :=
      isLineEnd_of_isAlphanum (by simp [Char.isAlphanum, he])
    rw [apply_toUpper Text.isLineEnd hletter, hslice d hd]
  cases t with
  | unknown | leftParenthesis | rightParenthesis | comma | colon | semicolon => exact h ▸ hslice
  | blanks k =>
    intro c hc
    rw [shown, String.toList_ofList] at hc
    rw [List.eq_of_mem_replicate hc]
    rfl
  | numeral | name | keyword | builtin => exact h ▸ hupper
  | operator op =>
    have hall : (operator op).shown.toList.all (! Text.isLineEnd ·) = true := by cases op <;> decide
    intro c hc
    simpa using List.all_eq_true.mp hall c hc
  | quoted s =>
    rcases h.2 with h | ⟨h, -⟩
    · exact h ▸ hslice
    · exact h ▸ List.forall_mem_append.mpr ⟨hslice, List.forall_mem_singleton.mpr rfl⟩

/-- A token of a text without REM and DATA begins somewhere in it. -/
theorem exists_next_of_mem_lex {cs : List Char} (hremark : keyword .REM ∉ scan cs)
    (hdata : keyword .DATA ∉ scan cs) {t : Token} (h : t ∈ lex cs) :
    t.isBlanks = false ∧ ∃ c us, c :: us <:+ cs ∧ (next c us).1 = t := by
  obtain ⟨hmem, hblanks⟩ := List.mem_filter.mp h
  refine ⟨by simpa using hblanks, ?_⟩
  rcases exists_next_of_mem_scan hmem with hnext | ⟨hword | hword, -⟩
  · exact hnext
  · exact absurd hword hremark
  · exact absurd hword hdata

/-- The words of a text are scanned as its tokens again. -/
theorem lex_spaced_lex {cs : List Char} (hremark : keyword .REM ∉ scan cs)
    (hdata : keyword .DATA ∉ scan cs) : lex (spaced (lex cs)) = lex cs := by
  have hnext {t : Token} (ht : t ∈ lex cs) := exists_next_of_mem_lex hremark hdata ht
  apply lex_spaced
  · intro t ht
    obtain ⟨hblanks, c, us, -, rfl⟩ := hnext ht
    exact reads_next c us hblanks
  · exact fun t ht => (hnext ht).1
  · exact fun hmem => hremark (List.mem_filter.mp hmem).1
  · exact fun hmem => hdata (List.mem_filter.mp hmem).1

/-- The words of a text without line ends have none. -/
theorem isLineEnd_of_mem_spaced_lex {cs : List Char} (hcs : ∀ c ∈ cs, isLineEnd c = false)
    (hremark : keyword .REM ∉ scan cs) (hdata : keyword .DATA ∉ scan cs) :
    ∀ c ∈ spaced (lex cs), isLineEnd c = false := by
  apply isLineEnd_of_mem_spaced
  intro t ht
  obtain ⟨-, c, us, hsuffix, rfl⟩ := exists_next_of_mem_lex hremark hdata ht
  apply (writtenIn_next c us).isLineEnd
  intro d hd
  have hmem : d ∈ c :: us := by
    rw [List.mem_cons] at hd ⊢
    exact hd.imp_right List.mem_of_mem_take
  exact hcs d (hsuffix.mem hmem)

/-- The text of a line with single blanks between its number, if it has one, and its tokens. -/
def spacedLine (number : Option LineNumber) (ts : List Token) : String :=
  " ".intercalate ((number.map toString).toList ++ ts.map shown)

/-- Without a number a line is its tokens. -/
theorem toList_spacedLine_none (ts : List Token) : (spacedLine none ts).toList = spaced ts := by
  rw [spacedLine, String.toList_intercalate]
  simp [spaced, Function.comp_def]

/-- With a number it has the tokens behind that. -/
theorem toList_spacedLine_some (n : LineNumber) (ts : List Token) :
    (spacedLine (some n) ts).toList = (toString n).toList ++ spacedBehind ts := by
  rw [spacedLine, String.toList_intercalate, ← intercalate_cons]
  simp [Function.comp_def]

/-- Spacing the tokens of a line out changes neither its number nor its tokens. -/
theorem scanLine_spacedLine (text : String) (hends : ∀ c ∈ text.toList, isLineEnd c = false)
    (hwords : ∀ t ∈ (scanLine text.toList).tokens, t ≠ keyword .REM ∧ t ≠ keyword .DATA) :
    (scanLine (spacedLine (scanLine text.toList).number (ofLine text.toList)).toList).number =
        (scanLine text.toList).number ∧
      ofLine (spacedLine (scanLine text.toList).number (ofLine text.toList)).toList =
        ofLine text.toList := by
  obtain ⟨number, rest, hsplit⟩ : ∃ number rest, splitNumber text.toList = (number, rest) :=
    ⟨_, _, rfl⟩
  obtain ⟨hnumber, htokens⟩ := scanLine_of_splitNumber hends hsplit
  have hnumbered := numbered_splitNumber text.toList
  rw [hsplit] at hnumbered
  have hmem {t : Token} (hblanks : t.isBlanks = false) (ht : t ∈ scan rest) :
      t ∈ (scanLine text.toList).tokens := by
    have hline : t ∈ ofLine text.toList := by
      rw [htokens]
      exact List.mem_filter.mpr ⟨ht, by simp [hblanks]⟩
    exact (List.mem_filter.mp hline).1
  have hremark : keyword .REM ∉ scan rest := fun h => (hwords _ (hmem rfl h)).1 rfl
  have hdata : keyword .DATA ∉ scan rest := fun h => (hwords _ (hmem rfl h)).2 rfl
  have hlex := lex_spaced_lex hremark hdata
  have hspaced : ∀ c ∈ spaced (lex rest), isLineEnd c = false :=
    isLineEnd_of_mem_spaced_lex (fun c hc => hends c (hnumbered.suffix.mem hc)) hremark hdata
  rw [hnumber, htokens]
  cases number with
  | none =>
    obtain rfl : rest = text.toList := hnumbered
    have hnone := splitNumber_of_leadingDigits (leadingDigits_spaced hremark hdata) (by rw [hsplit])
    have hline := scanLine_of_splitNumber hspaced hnone
    rwa [hlex, ← toList_spacedLine_none] at hline
  | some n =>
    have hn : n ≤ LineNumber.greatest := le_greatest_of_splitNumber (by rw [hsplit])
    have hsome := splitNumber_toString_append hn (ends_spacedBehind (lex rest)).isDigit
    have hline := scanLine_of_splitNumber (List.forall_mem_append.mpr
      ⟨isLineEnd_of_mem_toString n, isLineEnd_of_mem_spacedBehind hspaced⟩) hsome
    rwa [lex_spacedBehind, hlex, ← toList_spacedLine_some] at hline

/-- A line without a number whose tokens run together: white space that is no blank, digits above the
greatest line number, words in small letters and an open quotation. -/
def runTogether : String := "\u00A070000ifx4<>y$then?\"A"

/-- A line whose number is too great to be one, with its tokens run together. -/
theorem scanLine_spacedLine_runTogether :
    (∀ c ∈ runTogether.toList, isLineEnd c = false) ∧
      (∀ t ∈ (scanLine runTogether.toList).tokens, t ≠ keyword .REM ∧ t ≠ keyword .DATA) ∧
      (scanLine "\u00A0 70000 IF X4 <> Y$ THEN ? \"A\"".toList).number = none ∧
      ofLine "\u00A0 70000 IF X4 <> Y$ THEN ? \"A\"".toList = ofLine runTogether.toList := by
  have htokens : (scanLine runTogether.toList).tokens =
      [unknown "\u00A0", numeral "70000", keyword .IF, name "X4", operator .notEqual, name "Y$",
        keyword .THEN, keyword .QUESTION, quoted "A"] := by
    decide +kernel
  have hnumber : (scanLine runTogether.toList).number = none := by decide +kernel
  have hends : ∀ c ∈ runTogether.toList, isLineEnd c = false := by
    have hall : runTogether.toList.all (! isLineEnd ·) = true := by decide +kernel
    intro c hc
    simpa using List.all_eq_true.mp hall c hc
  have hwords : ∀ t ∈ (scanLine runTogether.toList).tokens, t ≠ keyword .REM ∧ t ≠ keyword .DATA := by
    rw [htokens]
    decide
  have hspaced : spacedLine (scanLine runTogether.toList).number (ofLine runTogether.toList) =
      "\u00A0 70000 IF X4 <> Y$ THEN ? \"A\"" := by
    rw [hnumber, ofLine, htokens]
    decide
  have hline := scanLine_spacedLine runTogether hends hwords
  rw [hspaced, hnumber] at hline
  exact ⟨hends, hwords, hline⟩

end CommodoreBasic.Token
