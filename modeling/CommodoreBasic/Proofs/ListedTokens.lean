import CommodoreBasic.Proofs.DataText

/-!
# Tokens that can be listed

In a listing the words of a statement stand with single blanks between them. Most tokens are plain:
they are scanned again wherever they stand. Two words take the text behind them with the blank before
it, DATA up to the next colon and REM to the end of the line. No statement ends in a line end, so
nothing of it is lost when line ends are dropped.
-/

namespace CommodoreBasic

open CommodoreBasic.Text

/-! ## Words and tokens -/

namespace Token

/-- The characters are the text of the token in a listing. The blank between DATA and its text belongs
to the token of the text. -/
def Word : Token → List Char → Prop
  | numeral s, w => IsNumeral w ∧ capitals w = s
  | unknown s, w => s = String.ofList (' ' :: w)
  | t, w => w = t.shown.toList

/-- The token can stand anywhere in a statement. -/
def Plain : Token → Prop
  | name n => n.isPlain = true
  | quoted s => quotationMark ∉ s.toList
  | keyword k => k ≠ .DATA ∧ k ≠ .REM
  | unknown _ | blanks _ | colon => False
  | _ => True

/-- A word of a plain token is read as the token. -/
theorem reads_word {t : Token} {w : List Char} (ht : t.Plain) (hw : t.Word w) : Reads w t := by
  cases t with
  | numeral s =>
    obtain ⟨hnumeral, rfl⟩ := hw
    exact reads_numeral hnumeral
  | name n => exact hw ▸ reads_name ht
  | quoted s => exact hw ▸ reads_quoted ht
  | keyword k => exact hw ▸ reads_shown (keyword_mem_spellings k)
  | builtin f => exact hw ▸ reads_shown (builtin_mem_spellings f)
  | operator op => exact hw ▸ reads_shown (operator_mem_spellings op)
  | leftParenthesis | rightParenthesis | comma | semicolon => exact hw ▸ reads_shown (by decide)
  | unknown | blanks | colon => cases ht

/-- So it is before a blank, with the rest behind it. -/
theorem lex_plain {t : Token} {w rest : List Char} (ht : t.Plain) (hw : t.Word w)
    (hrest : Ends rest) : lex (w ++ rest) = t :: lex rest := by
  apply lex_word (reads_word ht hw) hrest
  · cases t <;> first | rfl | cases ht
  · rintro rfl
    exact ht.2 rfl
  · rintro rfl
    exact ht.1 rfl

/-- The tokens can be listed one after the other, and `final` holds if nothing may follow them. -/
inductive Listable (final : Prop) : List Token → Prop where
  | plain {t : Token} (ht : t.Plain) : Listable final [t]
  | data {items : List Value} {w : List Char} (h : Joined Value.Spelled ',' items w)
    (hne : items ≠ []) : Listable final [keyword .DATA, unknown (String.ofList (' ' :: w))]
  | remark (h : final) : Listable final [keyword .REM]
  | remarkText {w : List Char} (h : final) (hw : ∀ c ∈ w, isLineEnd c = false) :
    Listable final [keyword .REM, unknown (String.ofList (' ' :: w))]
  | cons {t : Token} {ts : List Token} (ht : t.Plain) (hts : Listable final ts) :
    Listable final (t :: ts)

/-- Plain tokens may stand in front of what can be listed. -/
theorem Listable.append {final : Prop} {ts us : List Token} (hts : ∀ t ∈ ts, t.Plain)
    (hus : Listable final us) : Listable final (ts ++ us) := by
  induction ts with
  | nil => exact hus
  | cons t ts ih =>
    exact .cons (hts t List.mem_cons_self) (ih fun t ht => hts t (List.mem_cons_of_mem _ ht))

/-- Plain tokens can be listed. -/
theorem Listable.of_plain {final : Prop} {t : Token} {ts : List Token}
    (hts : ∀ u ∈ t :: ts, u.Plain) : Listable final (t :: ts) := by
  induction ts generalizing t with
  | nil => exact .plain (hts t List.mem_cons_self)
  | cons u us ih =>
    exact .cons (hts t List.mem_cons_self) (ih fun u hu => hts u (List.mem_cons_of_mem _ hu))

/-- A text behind DATA or REM has one word. -/
theorem eq_of_word_unknown {w w' : List Char} (h : (unknown (String.ofList (' ' :: w))).Word w') :
    w' = w :=
  (List.cons.inj (String.ofList_injective h)).2.symm

/-- A statement is scanned up to the colon or the end behind it. -/
theorem lex_listable {final : Prop} {ts : List Token} (hts : Listable final ts)
    {cs rest : List Char} (hcs : Joined Word ' ' ts cs) (hrest : ∀ c, rest.head? = some c → c = ':')
    (hfinal : final → rest = []) : lex (cs ++ rest) = ts ++ lex rest := by
  have hends : Ends rest := fun c hc => .inr (.inl (hrest c hc))
  induction hts generalizing cs with
  | plain ht =>
    cases hcs with
    | single hw => exact lex_plain ht hw hends
  | data h hne =>
    cases hcs with
    | cons hw hraw =>
      cases hraw with
      | single hraw =>
        rw [hw, eq_of_word_unknown hraw]
        exact lex_data h hne hrest
  | remark h =>
    obtain rfl := hfinal h
    cases hcs with
    | single hw =>
      rw [hw, lex_remark hends, lex_nil]
      rfl
  | remarkText h =>
    obtain rfl := hfinal h
    cases hcs with
    | cons hw hraw =>
      cases hraw with
      | single hraw =>
        rw [hw, eq_of_word_unknown hraw, List.append_nil, lex_remark (ends_blank _), lex_nil]
        rfl
  | cons ht hts ih =>
    cases hcs with
    | single => nomatch hts
    | cons hw hcs =>
      rw [List.append_assoc, List.cons_append, lex_plain ht hw (ends_blank _), lex_blank, ih hcs]
      rfl

end Token

/-! ## The end of a line -/

/-- The text does not end in a line end. -/
def Unbroken (cs : List Char) : Prop := ∀ c, cs.getLast? = some c → isLineEnd c = false

/-- The line ends are these two characters. -/
theorem eq_of_isLineEnd {c : Char} (h : isLineEnd c = true) : c = '\r' ∨ c = '\n' := by
  simpa [isLineEnd] using h

/-- Neither a letter nor a digit ends a line. -/
theorem isLineEnd_of_isAlphanum {c : Char} (h : c.isAlphanum = true) : isLineEnd c = false := by
  by_contra hend
  rcases eq_of_isLineEnd (Bool.eq_true_of_not_eq_false hend) with rfl | rfl <;> cases h

/-- A text without line ends is not broken. -/
theorem unbroken_of_forall {cs : List Char} (h : ∀ c ∈ cs, isLineEnd c = false) : Unbroken cs :=
  fun c hc => h c (List.mem_of_getLast? hc)

/-- A text whose last part is not broken is not broken at its end. -/
theorem unbroken_append_cons {c : Char} {cs : List Char} (hc : isLineEnd c = false)
    (hcs : Unbroken cs) (us : List Char) : Unbroken (us ++ c :: cs) := by
  intro d hd
  rw [List.getLast?_append, List.getLast?_cons, Option.some_or] at hd
  cases hlast : cs.getLast? with
  | none =>
    rw [hlast] at hd
    cases hd
    exact hc
  | some e =>
    rw [hlast] at hd
    cases hd
    exact hcs e hlast

/-- What is not broken at its end loses nothing there. -/
theorem dropEndWhile_of_unbroken {cs : List Char} (h : Unbroken cs) :
    dropEndWhile isLineEnd cs = cs := by
  have hreverse : cs.reverse.dropWhile isLineEnd = cs.reverse := by
    cases hcs : cs.reverse with
    | nil => rfl
    | cons c rest =>
      have hc : isLineEnd c = false := h c (by rw [← List.head?_reverse, hcs]; rfl)
      rw [List.dropWhile_cons_of_neg (by simp [hc])]
  rw [dropEndWhile, hreverse, List.reverse_reverse]

/-- A list is unbroken if its members and the separator are. -/
theorem Joined.unbroken {α : Type} {written : α → List Char → Prop} {separator : Char}
    {as : List α} {cs : List Char} (h : Joined written separator as cs)
    (hseparator : isLineEnd separator = false)
    (hmember : ∀ a ∈ as, ∀ us, written a us → Unbroken us) : Unbroken cs := by
  induction h with
  | nil => exact unbroken_of_forall (by simp)
  | single h => exact hmember _ List.mem_cons_self _ h
  | cons h _ ih =>
    have htail := ih fun a ha => hmember a (List.mem_cons_of_mem _ ha)
    exact unbroken_append_cons hseparator htail _

namespace Token

/-- The spellings of tokens are not broken. -/
theorem unbroken_shown {t : Token} (h : (t.shown, t) ∈ spellings) : Unbroken t.shown.toList := by
  have hall : spellings.all (fun spelling => spelling.1.toList.all (! isLineEnd ·)) = true := by
    decide +kernel
  have hword := List.all_eq_true.mp (List.all_eq_true.mp hall _ h)
  exact unbroken_of_forall fun c hc => by simpa using hword c hc

/-- Neither are numerals. -/
theorem unbroken_of_isNumeral {w : List Char} (h : IsNumeral w) : Unbroken w := by
  intro c hc
  obtain ⟨v, rfl⟩ := List.getLast?_eq_some_iff.mp hc
  by_contra hend
  -- behind a line end the numeral would have ended before it
  have hends : Ends [c] := by
    intro d hd
    cases hd
    exact .inr (.inr (eq_of_isLineEnd (Bool.eq_true_of_not_eq_false hend)))
  have hlength := h.2
  rw [numeralLength_append hends] at hlength
  have hle := numeralLength_le v
  rw [List.length_append, List.length_singleton] at hlength
  omega

/-- Neither are names. -/
theorem unbroken_of_isPlain {n : Name} (h : n.isPlain = true) : Unbroken n.toList := by
  rw [Name.isPlain, Bool.and_eq_true, Bool.and_eq_true] at h
  obtain ⟨c, cs, hn, hc, body, hbody, hcs⟩ := characters_of_isIdentifier h.1.1
  apply unbroken_of_forall
  have hfirst : isLineEnd c = false := isLineEnd_of_isAlphanum (by simp [Char.isAlphanum, hc])
  have hrest : ∀ d ∈ body, isLineEnd d = false := fun d hd => isLineEnd_of_isAlphanum (hbody d hd)
  rw [hn]
  refine List.forall_mem_cons.mpr ⟨hfirst, ?_⟩
  rcases hcs with rfl | rfl
  · exact hrest
  · exact List.forall_mem_append.mpr ⟨hrest, List.forall_mem_singleton.mpr rfl⟩

/-- Neither are the words of plain tokens. -/
theorem Word.unbroken {t : Token} {w : List Char} (ht : t.Plain) (hw : t.Word w) : Unbroken w := by
  cases t with
  | numeral s => exact unbroken_of_isNumeral hw.1
  | name n => exact hw ▸ unbroken_of_isPlain ht
  | quoted s =>
    rw [hw, toList_shown_quoted, ← List.cons_append]
    exact unbroken_append_cons rfl (unbroken_of_forall (by simp)) _
  | keyword k => exact hw ▸ unbroken_shown (keyword_mem_spellings k)
  | builtin f => exact hw ▸ unbroken_shown (builtin_mem_spellings f)
  | operator op => exact hw ▸ unbroken_shown (operator_mem_spellings op)
  | leftParenthesis | rightParenthesis | comma | semicolon => exact hw ▸ unbroken_shown (by decide)
  | unknown | blanks | colon => cases ht

/-- No word of a statement that can be listed ends in a line end. -/
theorem Listable.unbroken {final : Prop} {ts : List Token} (hts : Listable final ts) :
    ∀ t ∈ ts, ∀ w, t.Word w → Unbroken w := by
  have hkeyword (k : Keyword) (w : List Char) (hw : (keyword k).Word w) : Unbroken w :=
    hw ▸ unbroken_shown (keyword_mem_spellings k)
  induction hts with
  | plain ht => simpa using fun w hw => Word.unbroken ht hw
  | @data items w h hne =>
    obtain ⟨fs, rfl, hfs⟩ := exists_fields h
    obtain ⟨d, hlast, hd⟩ := Field.getLast?_joined hfs (by simpa using hne)
    have hw : Unbroken w := by
      intro c hc
      rw [hlast] at hc
      cases hc
      by_contra hend
      rcases eq_of_isLineEnd (Bool.eq_true_of_not_eq_false hend) with rfl | rfl <;> cases hd
    have hraw (v : List Char) (hv : (unknown (String.ofList (' ' :: w))).Word v) : Unbroken v :=
      eq_of_word_unknown hv ▸ hw
    simpa using And.intro (hkeyword .DATA) hraw
  | remark => simpa using hkeyword .REM
  | @remarkText w _ hw =>
    have hraw (v : List Char) (hv : (unknown (String.ofList (' ' :: w))).Word v) : Unbroken v :=
      eq_of_word_unknown hv ▸ unbroken_of_forall hw
    simpa using And.intro (hkeyword .REM) hraw
  | cons ht _ ih => exact List.forall_mem_cons.mpr ⟨fun w hw => Word.unbroken ht hw, ih⟩

end Token

end CommodoreBasic
