import CommodoreBasic.Proofs.JoinedFields
import CommodoreBasic.Proofs.Words
import CommodoreBasic.Statement.Parse

/-!
# The text of DATA

Constants are written in DATA as fields between commas: a text in quotation marks or, if nothing in it
would be misread, without them, and a number by any of its numerals. Such a text is one token of its
line up to the next colon, and split into fields it gives back the constants.
-/

namespace CommodoreBasic

open CommodoreBasic.Text

/-! ## Fields -/

namespace Field

/-- The characters can stand as a field without quotation marks, and with a colon behind them. -/
structure IsBare (cs : List Char) : Prop where
  ne_nil : cs ≠ []
  trimmed : trim cs = cs
  plain : ∀ c ∈ cs, c ≠ ',' ∧ c ≠ ':' ∧ c ≠ quotationMark

/-- The field is written with these characters. -/
inductive Spelled : Field → List Char → Prop where
  | quoted {s : String} (h : quotationMark ∉ s.toList) :
    Spelled (quoted s) (quotationMark :: (s.toList ++ [quotationMark]))
  | bare {s : String} (h : IsBare s.toList) : Spelled (bare s) s.toList

/-- A field does not end in white space. -/
theorem Spelled.getLast? {f : Field} {w : List Char} (h : f.Spelled w) :
    ∃ c, w.getLast? = some c ∧ isWhiteSpace c = false := by
  cases h with
  | quoted => exact ⟨quotationMark, by simp [List.getLast?_cons], rfl⟩
  | @bare s h =>
    have hreverse : s.toList.reverse = (trimStart s.toList).reverse.dropWhile isWhiteSpace := by
      conv_lhs => rw [← h.trimmed, trim, dropEndWhile, List.reverse_reverse]
    cases hlast : s.toList.getLast? with
    | none => exact absurd (List.getLast?_eq_none_iff.mp hlast) h.ne_nil
    | some c =>
      have hhead := List.head?_dropWhile_not isWhiteSpace (trimStart s.toList).reverse
      rw [← hreverse, List.head?_reverse, hlast] at hhead
      exact ⟨c, rfl, hhead⟩

/-- Nor do fields with commas between them. -/
theorem getLast?_joined {fs : List Field} {w : List Char} (h : Joined Spelled ',' fs w)
    (hne : fs ≠ []) : ∃ c, w.getLast? = some c ∧ isWhiteSpace c = false := by
  induction h with
  | nil => exact absurd rfl hne
  | single h => exact h.getLast?
  | cons _ _ ih =>
    obtain ⟨c, hlast, hc⟩ := ih (by simp)
    refine ⟨c, ?_, hc⟩
    simp [List.getLast?_append, List.getLast?_cons, hlast]

/-- A field that is spelled out is well-formed. -/
theorem Spelled.wellFormed {f : Field} {w : List Char} (h : f.Spelled w) : f.WellFormed := by
  cases h with
  | quoted h => exact h
  | bare h =>
    exact ⟨h.trimmed, fun hmem => (h.plain _ hmem).1 rfl,
      fun hhead => (h.plain _ (List.mem_of_head? hhead)).2.2 rfl⟩

/-- A field is spelled in one way only. -/
theorem Spelled.eq_shown {f : Field} {w : List Char} (h : f.Spelled w) : w = f.shown.toList := by
  cases h with
  | quoted => simp [shown, quotationMark]
  | bare => rfl

/-- Fields with commas between them are the text that joins them. -/
theorem eq_intercalate_of_joined {fs : List Field} {w : List Char} (h : Joined Spelled ',' fs w) :
    (∀ f ∈ fs, f.WellFormed) ∧ w = [','].intercalate (fs.map fun f => f.shown.toList) := by
  induction h with
  | nil => exact ⟨List.forall_mem_nil _, rfl⟩
  | single h =>
    rw [List.map_singleton, List.intercalate_singleton]
    exact ⟨List.forall_mem_singleton.mpr h.wellFormed, h.eq_shown⟩
  | cons h _ ih =>
    refine ⟨List.forall_mem_cons.mpr ⟨h.wellFormed, ih.1⟩, ?_⟩
    rw [h.eq_shown, ih.2]
    simp [List.intercalate_cons_cons]

/-- Fields written with commas between them are found again. -/
theorem splitFrom_joined {fs : List Field} {w : List Char} (h : Joined Spelled ',' fs w)
    (hne : fs ≠ []) {pad : List Char} (hpad : ∀ c ∈ pad, isWhiteSpace c = true) :
    splitFrom .bare pad w = fs := by
  obtain ⟨hfs, rfl⟩ := eq_intercalate_of_joined h
  exact splitFrom_intercalate hne hfs hpad

end Field

/-! ## Numbers -/

namespace Number

/-- The characters of which the text of a number consists: letters, digits, a point and signs. -/
def isNumeric (c : Char) : Bool := c.isAlphanum || c == '.' || c == '+' || c == '-'

/-- Digits stand in numbers. -/
theorem isNumeric_of_isDigit {c : Char} (h : c.isDigit = true) : isNumeric c = true := by
  simp [isNumeric, Char.isAlphanum, h]

/-- So do letters. -/
theorem isNumeric_of_isAlpha_toLower {c : Char} (h : c.toLower.isAlpha = true) :
    isNumeric c = true := by
  have hc : c.isAlpha = true := by
    unfold Char.toLower at h
    split at h
    case isTrue hupper =>
      delta Char.isAlpha Char.isUpper
      simp [UInt32.le_iff_toNat_le] at hupper ⊢
      omega
    case isFalse => exact h
  simp [isNumeric, Char.isAlphanum, hc]

/-- None of these characters means anything in the text of DATA. -/
theorem kind_of_isNumeric {c : Char} (h : isNumeric c = true) :
    isWhiteSpace c = false ∧ c ≠ ',' ∧ c ≠ ':' ∧ c ≠ quotationMark := by
  refine ⟨?_, ?_, ?_, ?_⟩
  · delta isNumeric Char.isAlphanum Char.isAlpha Char.isUpper Char.isLower at h
    simp [isWhiteSpace, Char.isDigit, UInt32.le_iff_toNat_le, Char.ext_iff, ← UInt32.toNat_inj] at h ⊢
    omega
  all_goals
    rintro rfl
    cases h

/-- An exponent is made of characters that stand in numbers. -/
theorem isNumeric_exponent? {cs : List Char} {e : Int} (h : Decimal.exponent? cs = some e) :
    ∀ c ∈ cs, isNumeric c = true := by
  have hdigits (ds : List Char) (hds : ds.all Char.isDigit = true) :
      ∀ c ∈ ds, isNumeric c = true :=
    fun c hc => isNumeric_of_isDigit (List.all_eq_true.mp hds c hc)
  unfold Decimal.exponent? at h
  split at h
  rename_i negative ds hmatch
  have hall : ds.all Char.isDigit = true := by
    by_contra hother
    rw [if_pos (by simp [hother])] at h
    cases h
  split at hmatch <;> cases hmatch
  · exact List.forall_mem_cons.mpr ⟨rfl, hdigits _ hall⟩
  · exact List.forall_mem_cons.mpr ⟨rfl, hdigits _ hall⟩
  · exact hdigits _ hall

/-- So is the sign of an exponent with it. -/
theorem isNumeric_shift {c : Char} {cs : List Char} {e : Int}
    (h : (if c == 'e' || c == 'E' then Decimal.exponent? cs else none) = some e) :
    ∀ d ∈ c :: cs, isNumeric d = true := by
  split at h
  case isTrue hc =>
    have hmark : isNumeric c = true := by
      rw [Bool.or_eq_true, beq_iff_eq, beq_iff_eq] at hc
      rcases hc with rfl | rfl <;> rfl
    exact List.forall_mem_cons.mpr ⟨hmark, isNumeric_exponent? h⟩
  case isFalse => cases h

/-- So is a decimal. -/
theorem isNumeric_decimal {cs : List Char} {d : Decimal} (h : Decimal.read? cs = some d) :
    ∀ c ∈ cs, isNumeric c = true := by
  have hdigits (ds : List Char) : ∀ c ∈ ds.takeWhile Char.isDigit, isNumeric c = true :=
    fun c hc => isNumeric_of_isDigit (List.all_eq_true.mp List.all_takeWhile c hc)
  have hsplit (ds : List Char) : ds = ds.takeWhile Char.isDigit ++ ds.dropWhile Char.isDigit :=
    List.takeWhile_append_dropWhile.symm
  unfold Decimal.read? at h
  dsimp only at h
  rw [hsplit cs]
  refine List.forall_mem_append.mpr ⟨hdigits cs, ?_⟩
  split at h
  case h_1 places hdrop =>
    rw [hdrop, hsplit places]
    split at h
    · cases h
    · obtain ⟨e, he, -⟩ := Option.map_eq_some_iff.mp h
      refine List.forall_mem_cons.mpr ⟨rfl, List.forall_mem_append.mpr ⟨hdigits places, ?_⟩⟩
      dsimp only at he
      split at he
      · next hend => rw [hend]; exact List.forall_mem_nil _
      · next hshift => rw [hshift]; exact isNumeric_shift he
  case h_2 =>
    split at h
    · cases h
    · obtain ⟨e, he, -⟩ := Option.map_eq_some_iff.mp h
      dsimp only at he
      split at he
      · next hend => rw [hend]; exact List.forall_mem_nil _
      · next hshift => rw [hshift]; exact isNumeric_shift he

/-- So is a number without a sign. -/
theorem isNumeric_readUnsigned? {cs : List Char} {x : Float} (h : readUnsigned? cs = some x) :
    ∀ c ∈ cs, isNumeric c = true := by
  have hword (word : List Char) (halpha : word.all Char.isAlpha = true)
      (hcs : String.ofList (cs.map Char.toLower) == String.ofList word) :
      ∀ c ∈ cs, isNumeric c = true := by
    intro c hc
    have hmem : c.toLower ∈ word := by
      rw [← String.ofList_injective (beq_iff_eq.mp hcs)]
      exact List.mem_map_of_mem hc
    exact isNumeric_of_isAlpha_toLower (List.all_eq_true.mp halpha _ hmem)
  unfold readUnsigned? at h
  dsimp only at h
  split at h
  case isTrue hcs =>
    rcases Bool.or_eq_true_iff.mp hcs with hcs | hcs
    · exact hword "inf".toList rfl hcs
    · exact hword "infinity".toList rfl hcs
  case isFalse =>
    split at h
    case isTrue hcs => exact hword "nan".toList rfl hcs
    case isFalse =>
      obtain ⟨d, hd, -⟩ := Option.map_eq_some_iff.mp h
      exact isNumeric_decimal hd

/-- So is a finite number with its sign. -/
theorem isNumeric_readFinite? {cs : List Char} {x : Float} (h : readFinite? cs = some x) :
    ∀ c ∈ cs, isNumeric c = true := by
  obtain ⟨hread, -⟩ := Option.filter_eq_some_iff.mp h
  unfold read? at hread
  split at hread
  · obtain ⟨y, hy, -⟩ := Option.map_eq_some_iff.mp hread
    exact List.forall_mem_cons.mpr ⟨rfl, isNumeric_readUnsigned? hy⟩
  · exact List.forall_mem_cons.mpr ⟨rfl, isNumeric_readUnsigned? hread⟩
  · exact isNumeric_readUnsigned? hread

/-- A number needs no quotation marks. -/
theorem isBare_of_readFinite? {cs : List Char} {x : Float} (h : readFinite? cs = some x) :
    Field.IsBare cs := by
  have hkind (c : Char) (hc : c ∈ cs) := kind_of_isNumeric (isNumeric_readFinite? h c hc)
  have hstart (ds : List Char) (hds : ∀ c ∈ ds, isWhiteSpace c = false) :
      ds.dropWhile isWhiteSpace = ds := by
    cases ds with
    | nil => rfl
    | cons c ds => rw [List.dropWhile_cons_of_neg (by simp [hds c])]
  refine ⟨?_, ?_, fun c hc => (hkind c hc).2⟩
  · rintro rfl
    cases h
  · have hreverse (c : Char) (hc : c ∈ cs.reverse) : isWhiteSpace c = false :=
      (hkind c (List.mem_reverse.mp hc)).1
    rw [trim, trimStart, hstart cs fun c hc => (hkind c hc).1, dropEndWhile, hstart _ hreverse,
      List.reverse_reverse]

end Number

/-! ## Constants -/

/-- The constant is written in DATA with these characters. -/
inductive Value.Spelled : Value → List Char → Prop where
  | number {x : Float} {w : List Char} (h : Number.readFinite? w = some x) : Spelled (number x) w
  | quoted {s : String} (h : quotationMark ∉ s.toList) :
    Spelled (text s) (quotationMark :: (s.toList ++ [quotationMark]))
  | bare {s : String} (h : Field.IsBare s.toList) (hs : Number.readFinite? s.toList = none) :
    Spelled (text s) s.toList

/-- Every constant is written as a field that is read as it. -/
theorem Value.Spelled.exists_field {v : Value} {w : List Char} (h : v.Spelled w) :
    ∃ f : Field, f.constant = v ∧ f.Spelled w := by
  cases h with
  | number h =>
    have hbare : Field.IsBare (String.ofList w).toList := by
      rw [String.toList_ofList]
      exact Number.isBare_of_readFinite? h
    have hspelled := Field.Spelled.bare hbare
    rw [String.toList_ofList] at hspelled
    exact ⟨.bare (String.ofList w), by rw [Field.constant, String.toList_ofList, h], hspelled⟩
  | quoted h => exact ⟨.quoted _, rfl, .quoted h⟩
  | bare h hs => exact ⟨.bare _, by rw [Field.constant, hs], .bare h⟩

/-- Constants that are spelled out are those of fields that are. -/
theorem exists_fields {vs : List Value} {w : List Char} (h : Joined Value.Spelled ',' vs w) :
    ∃ fs : List Field, fs.map Field.constant = vs ∧ Joined Field.Spelled ',' fs w := by
  induction h with
  | nil => exact ⟨[], rfl, .nil⟩
  | single h =>
    obtain ⟨f, rfl, hf⟩ := h.exists_field
    exact ⟨[f], rfl, .single hf⟩
  | cons h _ ih =>
    obtain ⟨f, rfl, hf⟩ := h.exists_field
    obtain ⟨fs, hmap, hfs⟩ := ih
    cases fs with
    | nil => cases hmap
    | cons g fs => exact ⟨f :: g :: fs, by rw [List.map_cons, hmap], .cons hf hfs⟩

/-- Constants written with commas between them are read again, also with the blank before them. -/
theorem constants_split {vs : List Value} {w : List Char} (h : Joined Value.Spelled ',' vs w)
    (hne : vs ≠ []) : (Field.split (String.ofList (' ' :: w))).map Field.constant = vs := by
  obtain ⟨fs, rfl, hfs⟩ := exists_fields h
  have hblank : Field.splitFrom .bare [] (' ' :: w) = Field.splitFrom .bare [' '] w := rfl
  rw [Field.split, String.toList_ofList, hblank,
    Field.splitFrom_joined hfs (by simpa using hne) (List.forall_mem_singleton.mpr rfl)]

/-! ## The token of a text -/

namespace Token

/-- A text goes on over characters that are no quotation marks, and over colons between them. -/
theorem dataLength_append (quoted : Bool) {cs : List Char} (hquote : quotationMark ∉ cs)
    (hcolon : quoted = false → ':' ∉ cs) (rest : List Char) :
    dataLength quoted (cs ++ rest) = cs.length + dataLength quoted rest := by
  induction cs with
  | nil => rw [List.nil_append, List.length_nil, Nat.zero_add]
  | cons c cs ih =>
    obtain ⟨hc, hquote⟩ := not_or.mp (List.mem_cons.not.mp hquote)
    have hgoes : (c == ':' && !quoted) = false := by
      cases quoted with
      | true => simp
      | false => simpa using fun h : c = ':' => hcolon rfl (h ▸ List.mem_cons_self)
    have hplace : (quoted != (c == quotationMark)) = quoted := by
      rw [beq_eq_false_iff_ne.mpr (Ne.symm hc), Bool.bne_false]
    rw [List.cons_append, dataLength, hgoes, if_neg Bool.false_ne_true, hplace,
      ih hquote fun h hmem => hcolon h (List.mem_cons_of_mem c hmem), List.length_cons]
    omega

/-- No field leaves a quotation open or has a colon outside of one. -/
theorem dataLength_spelled {f : Field} {w : List Char} (h : f.Spelled w) (rest : List Char) :
    dataLength false (w ++ rest) = w.length + dataLength false rest := by
  cases h with
  | @quoted s hs =>
    have hopen (cs : List Char) : dataLength false (quotationMark :: cs) = dataLength true cs + 1 :=
      rfl
    have hclose : dataLength true (quotationMark :: rest) = dataLength false rest + 1 := rfl
    rw [List.cons_append, hopen, List.append_assoc, List.singleton_append,
      dataLength_append true hs (by simp), hclose]
    simp only [List.length_cons, List.length_append, List.length_nil]
    omega
  | bare h =>
    exact dataLength_append false (fun hmem => (h.plain _ hmem).2.2 rfl)
      (fun _ hmem => (h.plain _ hmem).2.1 rfl) rest

/-- DATA takes all of its fields, whatever follows them. -/
theorem dataLength_joined {fs : List Field} {w : List Char} (h : Joined Field.Spelled ',' fs w)
    (rest : List Char) : dataLength false (w ++ rest) = w.length + dataLength false rest := by
  induction h with
  | nil => rw [List.nil_append, List.length_nil, Nat.zero_add]
  | single h => exact dataLength_spelled h rest
  | @cons f g fs us vs h _ ih =>
    have hcomma : dataLength false (',' :: (vs ++ rest)) = dataLength false (vs ++ rest) + 1 := rfl
    rw [List.append_assoc, List.cons_append, dataLength_spelled h, hcomma, ih]
    simp only [List.length_append, List.length_cons]
    omega

/-- DATA and its text are two tokens, and scanning goes on at the next colon. -/
theorem lex_data {vs : List Value} {w rest : List Char} (h : Joined Value.Spelled ',' vs w)
    (hne : vs ≠ []) (hrest : ∀ c, rest.head? = some c → c = ':') :
    lex ((keyword .DATA).shown.toList ++ ' ' :: w ++ rest) =
      keyword .DATA :: unknown (String.ofList (' ' :: w)) :: lex rest := by
  obtain ⟨fs, rfl, hfs⟩ := exists_fields h
  obtain ⟨c, cs, hword, hnext⟩ := reads_shown (keyword_mem_spellings .DATA)
  obtain ⟨d, hlast, hd⟩ := Field.getLast?_joined hfs (by simpa using hne)
  have hwhite : (' ' :: w).all isWhiteSpace = false := by
    apply Bool.eq_false_iff.mpr
    intro hall
    have hmem := List.mem_cons_of_mem ' ' (List.mem_of_getLast? hlast)
    rw [List.all_eq_true.mp hall d hmem] at hd
    cases hd
  have hend : dataLength false rest = 0 := by
    cases rest with
    | nil => rfl
    | cons c rest =>
      obtain rfl := hrest c rfl
      rfl
  have hlength : dataLength false (' ' :: (w ++ rest)) = (' ' :: w).length := by
    have hblank : dataLength false (' ' :: (w ++ rest)) = dataLength false (w ++ rest) + 1 := rfl
    rw [hblank, dataLength_joined hfs, hend, Nat.add_zero, List.length_cons]
  have hsplit : ' ' :: (w ++ rest) = (' ' :: w) ++ rest := rfl
  rw [hword, List.append_assoc, List.cons_append, lex, List.cons_append, scan,
    hnext _ (ends_blank (w ++ rest))]
  dsimp only
  rw [if_neg (by simp), if_pos rfl, List.drop_left, hlength, hsplit, List.take_left,
    List.drop_left, rawData, hwhite]
  simp [isBlanks, lex]

end Token

end CommodoreBasic
