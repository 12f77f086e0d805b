import Mathlib.Data.List.Find
import CommodoreBasic.Token.Scan

/-!
# Words

A word is the text of one token. Followed by a blank, a colon or nothing, it is scanned as just that
token: no reserved word reaches over a blank or beyond a colon, numerals and names end there, and a
quotation ends with its mark. Blanks between words leave no trace in the tokens that a parser reads.
-/

namespace CommodoreBasic

/-- The members of a list are written one after the other with a separator between them. -/
inductive Joined {α β : Type} (written : α → List β → Prop) (separator : β) :
    List α → List β → Prop where
  | nil : Joined written separator [] []
  | single {a : α} {us : List β} (h : written a us) : Joined written separator [a] us
  | cons {a b : α} {as : List α} {us vs : List β} (h : written a us)
    (hrest : Joined written separator (b :: as) vs) :
    Joined written separator (a :: b :: as) (us ++ separator :: vs)

/-- A list can be written if its members can. -/
theorem exists_joined {α β : Type} {written : α → List β → Prop} (separator : β) {as : List α}
    (h : ∀ a ∈ as, ∃ us, written a us) : ∃ us, Joined written separator as us := by
  induction as with
  | nil => exact ⟨[], .nil⟩
  | cons a as ih =>
    obtain ⟨us, hus⟩ := h a List.mem_cons_self
    obtain ⟨vs, hvs⟩ := ih fun b hb => h b (List.mem_cons_of_mem a hb)
    cases as with
    | nil => exact ⟨us, .single hus⟩
    | cons b as => exact ⟨us ++ separator :: vs, .cons hus hvs⟩

/-- No reserved word, operator or punctuation mark is spelled anywhere in the characters. -/
def Token.spellNothing : List Char → Bool
  | [] => true
  | c :: cs => (crunch? (c :: cs)).isNone && spellNothing cs

/-- The name is an identifier in capitals in which no reserved word is spelled. -/
def Name.isPlain (n : Name) : Bool :=
  n.isIdentifier && n.toList.all (fun c => c.toUpper == c) && Token.spellNothing n.toList

namespace Token

/-- What may follow a word: nothing, a blank, a colon or the end of the line. -/
def Ends (rest : List Char) : Prop :=
  ∀ c, rest.head? = some c → c = ' ' ∨ c = ':' ∨ c = '\r' ∨ c = '\n'

variable {rest : List Char}

/-- A blank ends a token. -/
theorem ends_blank (cs : List Char) : Ends (' ' :: cs) := by simp [Ends]

/-! ## Reserved words -/

/-- What ends a token takes no part in a spelling. -/
theorem isSpelledAt_append {word : List Char}
    (hword : ∀ c ∈ word, c ≠ ' ' ∧ c ≠ ':' ∧ c ≠ '\r' ∧ c ≠ '\n')
    (hrest : Ends rest) (cs : List Char) :
    isSpelledAt word (cs ++ rest) = isSpelledAt word cs := by
  induction cs generalizing word with
  | nil =>
    cases word with
    | nil => simp [isSpelledAt]
    | cons w word =>
      have hw := hword w List.mem_cons_self
      cases rest with
      | nil => rfl
      | cons c rest =>
        have hne : (w == c.toUpper) = false := by
          rcases hrest c rfl with rfl | rfl | rfl | rfl
          · exact beq_eq_false_iff_ne.mpr hw.1
          · exact beq_eq_false_iff_ne.mpr hw.2.1
          · exact beq_eq_false_iff_ne.mpr hw.2.2.1
          · exact beq_eq_false_iff_ne.mpr hw.2.2.2
        simp [isSpelledAt, hne]
  | cons c cs ih =>
    cases word with
    | nil => rfl
    | cons w word =>
      rw [List.cons_append, isSpelledAt, isSpelledAt,
        ih fun c hc => hword c (List.mem_cons_of_mem w hc)]

/-- Blanks and line ends do not occur in spellings, and a colon is all of one. -/
theorem spelling_tail : ∀ spelling ∈ crunchTable, ∀ c ∈ spelling.1.tail,
    c ≠ ' ' ∧ c ≠ ':' ∧ c ≠ '\r' ∧ c ≠ '\n' := by
  have hall : crunchTable.all (fun spelling => spelling.1.tail.all fun c =>
      c != ' ' && c != ':' && c != '\r' && c != '\n') = true := by
    decide +kernel
  intro spelling hmem c hc
  simpa [and_assoc] using List.all_eq_true.mp (List.all_eq_true.mp hall spelling hmem) c hc

/-- What is spelled at a place does not depend on what comes after the word there. -/
theorem crunch?_append (hrest : Ends rest) (c : Char) (cs : List Char) :
    crunch? (c :: cs ++ rest) = crunch? (c :: cs) := by
  unfold crunch?
  congr 1
  apply List.find?_congr
  rintro ⟨word, t⟩ hmem
  cases word with
  | nil => rfl
  | cons w word =>
    have htail := isSpelledAt_append (spelling_tail (w :: word, t) hmem) hrest cs
    dsimp only [List.tail_cons] at htail ⊢
    rw [List.cons_append, isSpelledAt, isSpelledAt, htail]

/-- Every spelling is crunched to its own token. -/
theorem crunch?_spelling : ∀ spelling ∈ crunchTable,
    crunch? spelling.1 = some (spelling.1.length, spelling.2) := by
  decide +kernel

/-- Nothing that is crunched begins like a run of blanks, a numeral or a quotation. -/
theorem spelling_head : ∀ spelling ∈ crunchTable, ∃ c cs, spelling.1 = c :: cs ∧
    isBlank c = false ∧ (c.isDigit || c == '.') = false ∧ (c == Text.quotationMark) = false := by
  have hhead : ∀ spelling ∈ crunchTable, spelling.1.head?.any (fun c =>
      !isBlank c && !(c.isDigit || c == '.') && !(c == Text.quotationMark)) = true := by
    decide +kernel
  rintro ⟨word, t⟩ hmem
  cases word with
  | nil => cases hhead _ hmem
  | cons c cs => exact ⟨c, cs, rfl, by simpa [and_assoc] using hhead _ hmem⟩

/-- Every keyword has a spelling. -/
theorem keyword_mem_spellings (k : Keyword) : ((keyword k).shown, keyword k) ∈ spellings := by
  cases k <;> decide

/-- So has every operator. -/
theorem operator_mem_spellings (op : Operator) : ((operator op).shown, operator op) ∈ spellings := by
  cases op <;> decide

/-- So has every function. -/
theorem builtin_mem_spellings (f : Builtin) : ((builtin f).shown, builtin f) ∈ spellings := by
  cases f <;> decide

/-! ## Words of all kinds -/

/-- The word is scanned as the token wherever it ends. -/
def Reads (w : List Char) (t : Token) : Prop :=
  ∃ c cs, w = c :: cs ∧ ∀ rest, Ends rest → next c (cs ++ rest) = (t, cs.length)

/-- What has a spelling is read from it. -/
theorem reads_shown {t : Token} (h : (t.shown, t) ∈ spellings) : Reads t.shown.toList t := by
  have hmem : (t.shown.toList, t) ∈ crunchTable := List.mem_map_of_mem h
  have hcrunch := crunch?_spelling _ hmem
  obtain ⟨c, cs, hword, hblank, hdigit, hquote⟩ := spelling_head _ hmem
  dsimp only at hcrunch hword
  rw [hword] at hcrunch
  refine ⟨c, cs, hword, fun rest hrest => ?_⟩
  unfold next
  rw [← List.cons_append, crunch?_append hrest, hcrunch, hblank, hdigit, hquote]
  simp

/-- A quotation stands between quotation marks. -/
theorem toList_shown_quoted (s : String) :
    (quoted s).shown.toList = Text.quotationMark :: (s.toList ++ [Text.quotationMark]) := by
  simp [shown, Text.quotationMark]

/-- It is read from there. -/
theorem reads_quoted {s : String} (hs : Text.quotationMark ∉ s.toList) :
    Reads (quoted s).shown.toList (quoted s) := by
  refine ⟨_, _, toList_shown_quoted s, fun rest _ => ?_⟩
  have htake : (s.toList ++ [Text.quotationMark] ++ rest).takeWhile (· != Text.quotationMark) =
      s.toList := by
    rw [List.append_assoc, List.takeWhile_append_of_pos]
    · simp
    · intro c hc
      exact bne_iff_ne.mpr fun h => hs (h ▸ hc)
  unfold next
  rw [htake]
  simp [isBlank, Text.quotationMark]

/-- A name goes on to its end, where nothing that follows is part of it. -/
theorem nameLength_append {cs : List Char} (hspell : spellNothing cs = true)
    (hcs : ∃ body, (∀ c ∈ body, c.isAlphanum = true) ∧ (cs = body ∨ cs = body ++ ['$']))
    (hrest : Ends rest) : nameLength (cs ++ rest) = cs.length := by
  induction cs with
  | nil =>
    cases rest with
    | nil => rfl
    | cons c rest => rcases hrest c rfl with rfl | rfl | rfl | rfl <;> simp [nameLength]
  | cons c cs ih =>
    rw [spellNothing, Bool.and_eq_true, Option.isNone_iff_eq_none] at hspell
    rw [List.cons_append, nameLength, ← List.cons_append, crunch?_append hrest, hspell.1]
    obtain ⟨body, hbody, hcs⟩ := hcs
    cases body with
    | nil =>
      obtain ⟨rfl, rfl⟩ : c = '$' ∧ cs = [] := by simpa using hcs
      rfl
    | cons d body =>
      have hc : c = d := by rcases hcs with h | h <;> exact (List.cons.inj h).1
      have htail : cs = body ∨ cs = body ++ ['$'] :=
        hcs.imp (fun h => (List.cons.inj h).2) fun h => (List.cons.inj h).2
      have halnum : c.isAlphanum = true := hbody c (hc ▸ List.mem_cons_self)
      have hrest := ih hspell.2 ⟨body, fun c hc => hbody c (List.mem_cons_of_mem d hc), htail⟩
      rw [if_neg (by simp), if_pos halnum, hrest]
      rfl

/-- A letter begins neither a run of blanks nor a numeral nor a quotation. -/
theorem kind_of_isAlpha {c : Char} (h : c.isAlpha = true) :
    isBlank c = false ∧ (c.isDigit || c == '.') = false ∧ (c == Text.quotationMark) = false := by
  have hne (d : Char) (hd : d.isAlpha = false) : (c == d) = false := by
    apply beq_eq_false_iff_ne.mpr
    rintro rfl
    rw [h] at hd
    cases hd
  have hdigit : c.isDigit = false := by
    delta Char.isAlpha Char.isUpper Char.isLower at h
    simp [Char.isDigit, UInt32.le_iff_toNat_le] at h ⊢
    omega
  rw [isBlank, hne ' ' rfl, hne '\t' rfl, hdigit, hne '.' rfl]
  exact ⟨rfl, rfl, hne _ rfl⟩

/-- An identifier is a letter, then letters and digits, and perhaps a `$`. -/
theorem characters_of_isIdentifier {n : Name} (h : n.isIdentifier = true) :
    ∃ c cs, n.toList = c :: cs ∧ c.isAlpha = true ∧
      ∃ body, (∀ c ∈ body, c.isAlphanum = true) ∧ (cs = body ∨ cs = body ++ ['$']) := by
  have hbody (cs : List Char) (hcs : (match cs with
      | [] => false
      | c :: cs => c.isAlpha && cs.all Char.isAlphanum) = true) :
      ∃ c body, cs = c :: body ∧ c.isAlpha = true ∧ ∀ c ∈ body, c.isAlphanum = true := by
    cases cs with
    | nil => cases hcs
    | cons c body =>
      rw [Bool.and_eq_true, List.all_eq_true] at hcs
      exact ⟨c, body, rfl, hcs.1, hcs.2⟩
  unfold Name.isIdentifier at h
  cases htext : n.isText <;> rw [htext] at h
  · obtain ⟨c, body, hn, hc, hbody⟩ := hbody _ h
    exact ⟨c, body, hn, hc, body, hbody, .inl rfl⟩
  · obtain ⟨c, body, hn, hc, hbody⟩ := hbody _ h
    obtain ⟨cs, hcs⟩ := List.getLast?_eq_some_iff.mp (beq_iff_eq.mp htext)
    rw [if_pos rfl, hcs, List.dropLast_concat] at hn
    exact ⟨c, body ++ ['$'], by rw [hcs, hn]; rfl, hc, body, hbody, .inr rfl⟩

/-- A plain name is read from its own text. -/
theorem reads_name {n : Name} (h : n.isPlain = true) : Reads (name n).shown.toList (name n) := by
  rw [Name.isPlain, Bool.and_eq_true, Bool.and_eq_true, List.all_eq_true] at h
  obtain ⟨⟨hidentifier, hupper⟩, hspell⟩ := h
  obtain ⟨c, cs, hn, hc, hcs⟩ := characters_of_isIdentifier hidentifier
  obtain ⟨hblank, hdigit, hquote⟩ := kind_of_isAlpha hc
  have hcapitals : capitals (c :: cs) = n := by
    have hmap : (c :: cs).map Char.toUpper = (c :: cs).map id := by
      apply List.map_congr_left
      intro d hd
      exact beq_iff_eq.mp (hupper d (hn ▸ hd))
    rw [capitals, hmap, List.map_id, ← hn, String.ofList_toList]
  rw [hn, spellNothing, Bool.and_eq_true, Option.isNone_iff_eq_none] at hspell
  refine ⟨c, cs, hn, fun rest hrest => ?_⟩
  unfold next
  rw [hblank, hdigit, hquote, ← List.cons_append, crunch?_append hrest, hspell.1,
    nameLength_append hspell.2 hcs hrest]
  simp [hc, hcapitals]

/-! ## Numerals -/

/-- What ends a token takes no part in a mantissa. -/
theorem mantissaLength_append (seenPoint : Bool) (hrest : Ends rest) (cs : List Char) :
    Numeral.mantissaLength seenPoint (cs ++ rest) = Numeral.mantissaLength seenPoint cs := by
  induction cs generalizing seenPoint with
  | nil =>
    cases rest with
    | nil => rfl
    | cons c rest => rcases hrest c rfl with rfl | rfl | rfl | rfl <;> rfl
  | cons c cs ih => simp only [List.cons_append, Numeral.mantissaLength, ih]

/-- Nor in a row of digits. -/
theorem takeWhile_isDigit_append (hrest : Ends rest) (cs : List Char) :
    (cs ++ rest).takeWhile Char.isDigit = cs.takeWhile Char.isDigit := by
  have hstop : rest.takeWhile Char.isDigit = [] := by
    cases rest with
    | nil => rfl
    | cons c rest => rcases hrest c rfl with rfl | rfl | rfl | rfl <;> rfl
  rw [List.takeWhile_append, hstop, List.append_nil]
  split
  case isTrue h => rw [(List.takeWhile_prefix _).eq_of_length h]
  case isFalse => rfl

/-- So it does not matter to the length of such a row. -/
theorem digitsLength_append (hrest : Ends rest) (cs : List Char) :
    Numeral.digitsLength (cs ++ rest) = Numeral.digitsLength cs := by
  rw [Numeral.digitsLength, takeWhile_isDigit_append hrest, Numeral.digitsLength]

/-- Nor to that of an exponent. -/
theorem exponentLength_append (hrest : Ends rest) (cs : List Char) :
    Numeral.exponentLength (cs ++ rest) = Numeral.exponentLength cs := by
  cases cs with
  | nil =>
    cases rest with
    | nil => rfl
    | cons c rest => rcases hrest c rfl with rfl | rfl | rfl | rfl <;> rfl
  | cons c cs =>
    unfold Numeral.exponentLength
    rw [List.cons_append]
    dsimp only
    cases cs with
    | nil =>
      have hdigits := digitsLength_append hrest []
      rw [List.nil_append] at hdigits ⊢
      cases rest with
      | nil => rfl
      | cons d rest =>
        rcases hrest d rfl with rfl | rfl | rfl | rfl <;> simp [hdigits]
    | cons d cs =>
      have hsigned := digitsLength_append hrest cs
      have hunsigned := digitsLength_append hrest (d :: cs)
      rw [List.cons_append] at hunsigned ⊢
      by_cases hplus : d = '+'
      · subst hplus
        simp [hsigned]
      · by_cases hminus : d = '-'
        · subst hminus
          simp [hsigned]
        · simp [hplus, hminus, hunsigned]

/-- A mantissa is not longer than its text. -/
theorem mantissaLength_le (seenPoint : Bool) (cs : List Char) :
    Numeral.mantissaLength seenPoint cs ≤ cs.length := by
  induction cs generalizing seenPoint with
  | nil => exact Nat.le_refl 0
  | cons c cs ih =>
    have hsame := ih seenPoint
    have hpoint := ih true
    rw [Numeral.mantissaLength, List.length_cons]
    split
    · omega
    · split <;> omega

/-- Neither is an exponent. -/
theorem exponentLength_le (cs : List Char) : Numeral.exponentLength cs ≤ cs.length := by
  cases cs with
  | nil => exact Nat.le_refl 0
  | cons c cs =>
    have hdigits (sign : Nat) : Numeral.digitsLength (cs.drop sign) ≤ cs.length - sign := by
      rw [← List.length_drop]
      exact (List.takeWhile_sublist _).length_le
    have hbound {sign digits : Nat} (h : digits ≤ cs.length - sign) (hpos : digits ≠ 0) :
        1 + sign + digits ≤ cs.length + 1 := by
      omega
    unfold Numeral.exponentLength
    rw [List.length_cons]
    dsimp only
    split
    case isTrue =>
      split
      case h_1 => exact Nat.zero_le _
      case h_2 hpos => exact hbound (hdigits _) hpos
    case isFalse => exact Nat.zero_le _

/-- A numeral ends where its word does. -/
theorem numeralLength_append (hrest : Ends rest) (cs : List Char) :
    Numeral.length (cs ++ rest) = Numeral.length cs := by
  have hle := mantissaLength_le false cs
  unfold Numeral.length
  rw [mantissaLength_append false hrest]
  cases h : Numeral.mantissaLength false cs with
  | zero => rfl
  | succ n =>
    rw [h] at hle
    change n + 1 + Numeral.exponentLength ((cs ++ rest).drop (n + 1)) =
      n + 1 + Numeral.exponentLength (cs.drop (n + 1))
    rw [List.drop_append_of_le_length hle, exponentLength_append hrest]

/-- Neither is a numeral. -/
theorem numeralLength_le (cs : List Char) : Numeral.length cs ≤ cs.length := by
  have hmantissa := mantissaLength_le false cs
  have hexponent := exponentLength_le (cs.drop (Numeral.mantissaLength false cs))
  rw [List.length_drop] at hexponent
  unfold Numeral.length
  split <;> omega

/-- All of the characters are one numeral. -/
def IsNumeral (cs : List Char) : Prop := cs ≠ [] ∧ Numeral.length cs = cs.length

/-- A numeral begins with a digit or a point. -/
theorem IsNumeral.start {c : Char} {cs : List Char} (h : IsNumeral (c :: cs)) :
    (c.isDigit || c == '.') = true := by
  by_contra hother
  rw [Bool.or_eq_true, not_or] at hother
  have hlength := h.2
  simp [Numeral.length, Numeral.mantissaLength, hother] at hlength

/-- A numeral is read from its own text, in capitals. -/
theorem reads_numeral {cs : List Char} (h : IsNumeral cs) : Reads cs (numeral (capitals cs)) := by
  cases cs with
  | nil => exact absurd rfl h.1
  | cons c cs =>
    refine ⟨c, cs, rfl, fun rest hrest => ?_⟩
    have hstart := h.start
    have hblank : isBlank c = false := by
      by_contra hblank
      rw [Bool.not_eq_false, isBlank, Bool.or_eq_true, beq_iff_eq, beq_iff_eq] at hblank
      rcases hblank with rfl | rfl <;> cases hstart
    unfold next
    rw [hblank, hstart, ← List.cons_append, numeralLength_append hrest, h.2]
    simp

/-! ## The tokens that a parser reads -/

/-- The tokens of a text without the runs of blanks. -/
def lex (cs : List Char) : List Token := (scan cs).filter (! ·.isBlanks)

/-- There is nothing to read in an empty text. -/
theorem lex_nil : lex [] = [] := by
  simp [lex, scan]

/-- What is left behind the characters taken from the front is what is left when they are dropped. -/
theorem drop_length_takeWhile (p : Char → Bool) (cs : List Char) :
    cs.drop (cs.takeWhile p).length = cs.dropWhile p := by
  have hdrop := @List.drop_left _ (cs.takeWhile p) (cs.dropWhile p)
  rwa [List.takeWhile_append_dropWhile] at hdrop

/-- A run of blanks goes as far as it can. -/
theorem lex_of_isBlank {c : Char} (hc : isBlank c = true) (cs : List Char) :
    lex (c :: cs) = lex (cs.dropWhile isBlank) := by
  rw [lex, scan, next, if_pos hc]
  dsimp only
  rw [drop_length_takeWhile]
  simp [isBlanks, lex]

/-- Blanks between words do not matter. -/
theorem lex_blank (cs : List Char) : lex (' ' :: cs) = lex cs := by
  rw [lex_of_isBlank rfl]
  cases cs with
  | nil => rfl
  | cons c cs =>
    rw [List.dropWhile_cons]
    split
    case isTrue hc => rw [lex_of_isBlank hc]
    case isFalse => rfl

/-- A word stands for its token, and scanning goes on behind it. -/
theorem lex_word {w : List Char} {t : Token} (h : Reads w t) (hrest : Ends rest)
    (hblanks : t.isBlanks = false) (hremark : t ≠ keyword .REM) (hdata : t ≠ keyword .DATA) :
    lex (w ++ rest) = t :: lex rest := by
  obtain ⟨c, cs, rfl, hnext⟩ := h
  rw [lex, List.cons_append, scan, hnext rest hrest]
  dsimp only
  rw [if_neg hremark, if_neg hdata, List.drop_left, List.filter_cons_of_pos (by simp [hblanks]), lex]

/-- A colon is a token of its own. -/
theorem lex_colon (cs : List Char) : lex (':' :: cs) = colon :: lex cs := by
  have hcrunch : crunch? (':' :: cs) = some (1, colon) := rfl
  have hnext : next ':' cs = (colon, 0) := by
    rw [next, hcrunch]
    rfl
  rw [lex, scan, hnext]
  simp [isBlanks, lex]

/-- The text behind REM is one token. -/
theorem lex_remark (hrest : Ends rest) : lex ((keyword .REM).shown.toList ++ rest) =
    keyword .REM :: if rest.isEmpty then [] else [unknown (String.ofList rest)] := by
  obtain ⟨c, cs, hw, hnext⟩ := reads_shown (keyword_mem_spellings .REM)
  rw [hw, lex, List.cons_append, scan, hnext rest hrest]
  dsimp only
  rw [if_pos rfl, List.drop_left]
  split <;> simp [isBlanks]

/-- Trimming a line takes away blanks only. -/
theorem filter_trimBlanks (ts : List Token) :
    (trimBlanks ts).filter (! ·.isBlanks) = ts.filter (! ·.isBlanks) := by
  cases ts with
  | nil => rfl
  | cons t rest =>
    have hfirst : (t :: rest).filter (! ·.isBlanks) =
        (if t.isBlanks then rest else t :: rest).filter (! ·.isBlanks) := by
      split
      case isTrue ht => simp [ht]
      case isFalse => rfl
    rw [hfirst, trimBlanks]
    generalize (if t.isBlanks then rest else t :: rest) = ts
    cases hlast : ts.getLast? with
    | none => rfl
    | some t =>
      obtain ⟨front, rfl⟩ := List.getLast?_eq_some_iff.mp hlast
      dsimp only
      split
      case isTrue ht => simp [ht]
      case isFalse => rfl

end Token

end CommodoreBasic
