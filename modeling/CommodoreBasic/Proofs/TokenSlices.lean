import Mathlib.Data.List.DropRight
import Mathlib.Data.List.TakeWhile
import CommodoreBasic.Proofs.Words

/-!
# Slices of a text

Scanning loses nothing. The tokens of a text are written in it one behind the other, each in a slice of
at least one character, and nothing else stands between them but the white space behind a DATA without
items. A token is shown as its slice is written, but for capitals, tabs, the second spellings of three
operators and the closing mark of a quotation that runs to the end.
-/

namespace CommodoreBasic.Token

open CommodoreBasic.Text

/-- The token is a reserved word, a function, an operator or a punctuation mark. -/
def isCrunched : Token → Bool
  | unknown _ | blanks _ | numeral _ | quoted _ | name _ => false
  | _ => true

/-- The spellings that are not the ones their operators are shown with. -/
def secondSpellings : List (String × Operator) :=
  [("=<", .lessOrEqual), ("=>", .greaterOrEqual), ("><", .notEqual)]

/-- The token is written in the slice, and `rest` follows it there. -/
def WrittenIn (t : Token) (slice rest : List Char) : Prop :=
  match t with
  | unknown _ | leftParenthesis | rightParenthesis | comma | colon | semicolon =>
    t.shown.toList = slice
  | blanks _ => t.shown.toList = slice.map fun c => if c = '\t' then ' ' else c
  | numeral _ | name _ | keyword _ | builtin _ => t.shown.toList = slice.map Char.toUpper
  | operator op =>
    t.shown.toList = slice.map Char.toUpper ∨ (String.ofList slice, op) ∈ secondSpellings
  | quoted text => quotationMark ∉ text.toList ∧
    (t.shown.toList = slice ∨ t.shown.toList = slice ++ [quotationMark] ∧ rest = [])

/-- The tokens are written in the text one behind the other. -/
inductive Slices : List Token → List Char → Prop where
  | nil : Slices [] []
  | cons {t : Token} {ts : List Token} {slice rest : List Char} (hne : slice ≠ [])
    (ht : t.WrittenIn slice rest) (hrest : Slices ts rest) : Slices (t :: ts) (slice ++ rest)
  /-- DATA with nothing but white space up to the next colon or the end. -/
  | noItems {ts : List Token} {slice white rest : List Char} (hne : slice ≠ [])
    (ht : (keyword .DATA).WrittenIn slice (white ++ rest))
    (hwhite : ∀ c ∈ white, isWhiteSpace c = true) (hend : ∀ c, rest.head? = some c → c = ':')
    (hrest : Slices ts rest) : Slices (keyword .DATA :: ts) (slice ++ white ++ rest)

/-- There are no more tokens than characters. -/
theorem Slices.length_le {ts : List Token} {cs : List Char} (h : Slices ts cs) :
    ts.length ≤ cs.length := by
  induction h with
  | nil => exact Nat.le_refl 0
  | cons hne _ _ ih =>
    have hpos := List.length_pos_iff.mpr hne
    simp only [List.length_cons, List.length_append]
    omega
  | noItems hne _ _ _ _ ih =>
    have hpos := List.length_pos_iff.mpr hne
    simp only [List.length_cons, List.length_append]
    omega

/-! ## Reserved words -/

/-- A word that is spelled at the start is found there in capitals. -/
theorem take_of_isSpelledAt {word cs : List Char} (h : isSpelledAt word cs = true) :
    (cs.take word.length).map Char.toUpper = word := by
  induction word generalizing cs with
  | nil => simp
  | cons w word ih =>
    cases cs with
    | nil => cases h
    | cons c cs =>
      rw [isSpelledAt, Bool.and_eq_true, beq_iff_eq] at h
      rw [List.length_cons, List.take_succ_cons, List.map_cons, ih h.2, h.1]

/-- What is crunched is spelled at the start, in capitals or not. -/
theorem exists_spelling_of_crunch? {cs : List Char} {n : Nat} {t : Token}
    (h : crunch? cs = some (n, t)) :
    ∃ word, (word, t) ∈ crunchTable ∧ n = word.length ∧
      (cs.take n).map Char.toUpper = word := by
  obtain ⟨⟨word, u⟩, hfind, heq⟩ := Option.map_eq_some_iff.mp h
  cases heq
  have hspelled := List.find?_some hfind
  exact ⟨word, List.mem_of_find?_eq_some hfind, rfl, take_of_isSpelledAt hspelled⟩

/-- What is crunched takes at least the first character. -/
theorem take_of_crunch? {c : Char} {cs : List Char} {n : Nat} {t : Token}
    (h : crunch? (c :: cs) = some (n, t)) : (c :: cs).take n = c :: cs.take (n - 1) := by
  obtain ⟨word, hmem, rfl, -⟩ := exists_spelling_of_crunch? h
  obtain ⟨w, rest, hword, -⟩ := spelling_head _ hmem
  dsimp only at hword
  rw [hword, List.length_cons, List.take_succ_cons, Nat.add_sub_cancel]

/-- Capitals come from letters only. -/
theorem eq_of_toUpper_eq {c d : Char} (h : c.toUpper = d) (hd : d.isUpper = false) : c = d := by
  subst h
  delta Char.isUpper Char.toUpper at hd
  delta Char.toUpper
  split
  · next hlower =>
    rw [dif_pos hlower] at hd
    simp [UInt32.le_iff_toNat_le] at hd hlower
    omega
  · rfl

/-- What has no capitals is written as it is. -/
theorem eq_of_map_toUpper {slice word : List Char} (h : slice.map Char.toUpper = word)
    (hword : word.all (! ·.isUpper) = true) : slice = word := by
  induction slice generalizing word with
  | nil => exact h
  | cons c slice ih =>
    subst h
    rw [List.map_cons, List.all_cons, Bool.and_eq_true, Bool.not_eq_true'] at hword
    rw [List.map_cons, ← ih rfl hword.2, ← eq_of_toUpper_eq rfl hword.1]

/-- Every spelling that is crunched is the one its token is shown with, or the second one of an
operator. -/
theorem shown_of_mem_crunchTable : ∀ spelling ∈ crunchTable, spelling.2.isCrunched = true ∧
    (spelling.2.shown.toList = spelling.1 ∨
      ∃ second ∈ secondSpellings, spelling = (second.1.toList, operator second.2)) := by
  decide +kernel

/-- A word is written as it is spelled. -/
theorem writtenIn_of_crunch? {cs rest : List Char} {n : Nat} {t : Token}
    (h : crunch? cs = some (n, t)) : t.WrittenIn (cs.take n) rest := by
  obtain ⟨word, hmem, -, hword⟩ := exists_spelling_of_crunch? h
  obtain ⟨hcrunched, hshown | ⟨second, hsecond, heq⟩⟩ := shown_of_mem_crunchTable _ hmem
  · dsimp only at hshown hcrunched
    rw [← hword] at hshown
    cases t with
    | keyword | builtin => exact hshown
    | operator => exact .inl hshown
    | leftParenthesis | rightParenthesis | comma | colon | semicolon =>
      exact (eq_of_map_toUpper hshown.symm (by decide)).symm
    | unknown | blanks | numeral | quoted | name => cases hcrunched
  · obtain ⟨rfl, rfl⟩ := Prod.mk.inj heq
    right
    have hplain : ∀ second ∈ secondSpellings, second.1.toList.all (! ·.isUpper) = true := by decide
    rw [eq_of_map_toUpper hword (hplain second hsecond), String.ofList_toList]
    exact hsecond

/-! ## One token -/

/-- Blanks are written as blanks. -/
theorem writtenIn_blanks {slice : List Char} (h : ∀ c ∈ slice, isBlank c = true)
    (rest : List Char) : (blanks slice.length).WrittenIn slice rest := by
  have hshown (c : Char) (hc : isBlank c = true) : (if c = '\t' then ' ' else c) = ' ' := by
    rw [isBlank, Bool.or_eq_true, beq_iff_eq, beq_iff_eq] at hc
    rcases hc with rfl | rfl <;> rfl
  have hmap : slice.map (fun c => if c = '\t' then ' ' else c) = List.replicate slice.length ' ' :=
    List.map_eq_replicate_iff.mpr fun c hc => hshown c (h c hc)
  exact String.toList_ofList.trans hmap.symm

/-- Characters that begin nothing are written as they are. -/
theorem writtenIn_unknown (slice rest : List Char) :
    (unknown (String.ofList slice)).WrittenIn slice rest := String.toList_ofList

/-- A quotation ends with the next quotation mark, or with the text. -/
theorem writtenIn_quoted (cs : List Char) :
    let text := cs.takeWhile (· != quotationMark)
    let n := min (text.length + 1) cs.length
    (quoted (String.ofList text)).WrittenIn (quotationMark :: cs.take n) (cs.drop n) := by
  intro text n
  have hmark : quotationMark ∉ (String.ofList text).toList := by
    rw [String.toList_ofList]
    intro hmem
    simpa using List.mem_takeWhile_imp hmem
  refine ⟨hmark, ?_⟩
  rw [toList_shown_quoted, String.toList_ofList]
  have hcs : text ++ cs.dropWhile (· != quotationMark) = cs := List.takeWhile_append_dropWhile
  have hhead := List.head?_dropWhile_not (· != quotationMark) cs
  cases hdrop : cs.dropWhile (· != quotationMark) with
  | nil =>
    rw [hdrop, List.append_nil] at hcs
    have hn : n = cs.length := by
      have hlength := congrArg List.length hcs
      omega
    right
    rw [hn, List.take_length, List.drop_length, ← hcs]
    exact ⟨rfl, rfl⟩
  | cons c rest =>
    rw [hdrop] at hcs hhead
    obtain rfl : c = quotationMark := by simpa using hhead
    have hn : n = (text ++ [quotationMark]).length := by
      have hlength := congrArg List.length hcs
      simp only [List.length_append, List.length_cons, List.length_nil] at hlength ⊢
      omega
    have hsplit : cs = text ++ [quotationMark] ++ rest := by
      rw [List.append_assoc, List.singleton_append, hcs]
    left
    rw [hn]
    conv_rhs => rw [hsplit, List.take_left]

/-- The next token is written in the characters that it takes. -/
theorem writtenIn_next (c : Char) (cs : List Char) :
    (next c cs).1.WrittenIn (c :: cs.take (next c cs).2) (cs.drop (next c cs).2) := by
  fun_cases next c cs with
  | case1 hblank =>
    have htake : cs.takeWhile isBlank = cs.take (cs.takeWhile isBlank).length :=
      List.prefix_iff_eq_take.mp (List.takeWhile_prefix _)
    have hslice : ∀ d ∈ c :: cs.takeWhile isBlank, isBlank d = true :=
      List.forall_mem_cons.mpr ⟨hblank, fun d hd => List.mem_takeWhile_imp hd⟩
    dsimp only
    rw [← htake]
    exact writtenIn_blanks hslice _
  | case2 hblank hdigit => exact String.toList_ofList
  | case3 hblank hdigit hquote =>
    obtain rfl := beq_iff_eq.mp hquote
    exact writtenIn_quoted cs
  | case4 hblank hdigit hquote n t hcrunch =>
    dsimp only
    rw [← take_of_crunch? hcrunch]
    exact writtenIn_of_crunch? hcrunch
  | case5 hblank hdigit hquote hcrunch halpha => exact String.toList_ofList
  | case6 hblank hdigit hquote hcrunch halpha => exact writtenIn_unknown [c] cs

/-! ## All tokens -/

/-- A token stands in front of the slices of the others. -/
theorem Slices.cons_next {c : Char} {cs : List Char} {t : Token} {n : Nat} {ts : List Token}
    (hnext : next c cs = (t, n)) (hts : Slices ts (cs.drop n)) : Slices (t :: ts) (c :: cs) := by
  have hwritten := writtenIn_next c cs
  rw [hnext] at hwritten
  have hslices := Slices.cons (List.cons_ne_nil c _) hwritten hts
  rwa [List.cons_append, List.take_append_drop] at hslices

/-- The text of DATA ends with the whole text or at a colon. -/
theorem head?_drop_dataLength {quoted : Bool} {cs : List Char} {c : Char}
    (h : (cs.drop (dataLength quoted cs)).head? = some c) : c = ':' := by
  induction cs generalizing quoted with
  | nil => cases h
  | cons d cs ih =>
    rw [dataLength] at h
    split at h
    case isTrue hcolon =>
      rw [Bool.and_eq_true, beq_iff_eq] at hcolon
      cases h
      exact hcolon.1
    case isFalse => exact ih h

/-- Behind DATA stands its text, unless it is all white space. -/
theorem Slices.cons_data {c : Char} {cs rest : List Char} {n : Nat} {ts : List Token}
    (hnext : next c cs = (keyword .DATA, n)) (hrest : cs.drop n = rest)
    (hts : Slices ts (rest.drop (dataLength false rest))) :
    Slices (keyword .DATA :: (rawData (rest.take (dataLength false rest)) ++ ts)) (c :: cs) := by
  have hsplit := List.take_append_drop (dataLength false rest) rest
  unfold rawData
  split
  case isTrue hwhite =>
    have hwritten := writtenIn_next c cs
    rw [hnext, hrest, ← hsplit] at hwritten
    have hslices := Slices.noItems (List.cons_ne_nil c _) hwritten (List.all_eq_true.mp hwhite)
      (fun d => head?_drop_dataLength) hts
    rwa [List.append_assoc, hsplit, ← hrest, List.cons_append, List.take_append_drop] at hslices
  case isFalse hitems =>
    have hne : rest.take (dataLength false rest) ≠ [] := by
      intro hempty
      exact hitems (by rw [hempty]; rfl)
    have hslices := Slices.cons hne (writtenIn_unknown _ _) hts
    rw [hsplit, ← hrest] at hslices
    rw [← hrest]
    exact .cons_next hnext hslices

/-- The tokens of a text are written in it one behind the other. -/
theorem slices_scan (cs : List Char) : Slices (scan cs) cs := by
  fun_induction scan cs with
  | case1 => exact .nil
  | case2 c cs n rest hempty hnext =>
    have hrest : cs.drop n = [] := List.isEmpty_iff.mp hempty
    exact .cons_next hnext (hrest ▸ .nil)
  | case3 c cs n rest hrest hnext =>
    have hne : cs.drop n ≠ [] := List.isEmpty_iff.not.mp hrest
    have hremark : Slices [unknown (String.ofList (cs.drop n))] (cs.drop n ++ []) :=
      .cons hne (writtenIn_unknown _ _) .nil
    rw [List.append_nil] at hremark
    exact .cons_next hnext hremark
  | case4 c cs n rest m hnext hrem ih => exact .cons_data hnext rfl ih
  | case5 c cs t n hnext rest hrem hdata ih => exact .cons_next hnext ih

/-! ## Lines -/

/-- The line is its number, if it has one, with white space before it, and the rest. -/
def Numbered (line : List Char) : Option LineNumber → List Char → Prop
  | none, rest => rest = line
  | some n, rest => ∃ white digits, line = white ++ digits ++ rest ∧
    (∀ c ∈ white, isWhiteSpace c = true) ∧ digits ≠ [] ∧ (∀ c ∈ digits, c.isDigit = true) ∧
    Decimal.ofDigits digits = n ∧ ∀ c, rest.head? = some c → c.isDigit = false

/-- A line is its number and what is behind that. -/
theorem numbered_splitNumber (line : List Char) :
    Numbered line (splitNumber line).1 (splitNumber line).2 := by
  unfold splitNumber
  dsimp only
  split
  case isTrue hnumber =>
    rw [Bool.and_eq_true, Bool.not_eq_true', List.isEmpty_eq_false_iff] at hnumber
    have hwhite : line.takeWhile isWhiteSpace ++ trimStart line = line :=
      List.takeWhile_append_dropWhile
    have hdigits : (trimStart line).takeWhile Char.isDigit ++ (trimStart line).dropWhile Char.isDigit =
        trimStart line := List.takeWhile_append_dropWhile
    refine ⟨line.takeWhile isWhiteSpace, (trimStart line).takeWhile Char.isDigit, ?_,
      fun c hc => List.mem_takeWhile_imp hc, hnumber.1, fun c hc => List.mem_takeWhile_imp hc, rfl, ?_⟩
    · rw [drop_length_takeWhile, List.append_assoc, hdigits, hwhite]
    · intro c hc
      have hhead := List.head?_dropWhile_not Char.isDigit (trimStart line)
      rw [drop_length_takeWhile] at hc
      rwa [hc] at hhead
  case isFalse => rfl

/-- What is behind the number is the end of the line. -/
theorem Numbered.suffix {line rest : List Char} {number : Option LineNumber}
    (h : Numbered line number rest) : rest <:+ line := by
  cases number with
  | none => exact h ▸ List.suffix_rfl
  | some n =>
    obtain ⟨white, digits, rfl, -⟩ := h
    exact List.suffix_append _ _

/-- The end of a line is cut off, and nothing else. -/
theorem exists_lineEnd (text : List Char) :
    ∃ ends, text = dropEndWhile isLineEnd text ++ ends ∧ (∀ c ∈ ends, isLineEnd c = true) ∧
      ∀ c, (dropEndWhile isLineEnd text).getLast? = some c → isLineEnd c = false := by
  refine ⟨text.rtakeWhile isLineEnd, ?_, fun c hc => List.mem_rtakeWhile_imp hc, fun c hc => ?_⟩
  · exact List.rdropWhile_append_rtakeWhile.symm
  · rw [dropEndWhile, List.getLast?_reverse] at hc
    have hhead := List.head?_dropWhile_not isLineEnd text.reverse
    rwa [hc] at hhead

/-- Scanning a line loses nothing. -/
theorem scanLine_slices (text : List Char) :
    ∃ line ends rest, text = line ++ ends ∧ (∀ c ∈ ends, isLineEnd c = true) ∧
      (∀ c, line.getLast? = some c → isLineEnd c = false) ∧
      Numbered line (scanLine text).number rest ∧
      (scanLine text).tokens = trimBlanks (scan rest) ∧ Slices (scan rest) rest ∧
      (scan rest).length ≤ rest.length := by
  obtain ⟨ends, htext, hends, hlast⟩ := exists_lineEnd text
  refine ⟨_, ends, _, htext, hends, hlast, numbered_splitNumber _, rfl, slices_scan _,
    (slices_scan _).length_le⟩

end CommodoreBasic.Token
