import Mathlib.Data.List.DropRight
import CommodoreBasic.Field

/-!
# Fields joined by commas

A field is well-formed if it can be written so that it is read back: in quotation marks if it has none
itself, or without them if nothing is trimmed off, no comma divides it and it does not begin with a
quotation mark. Splitting a text gives well-formed fields only, and well-formed fields with commas
between them are split into themselves, so the two are inverse to each other.

The first half is an invariant of the reader that goes through the text, the second half follows the
written fields one by one.
-/

namespace CommodoreBasic.Field

open CommodoreBasic.Text

/-- The field can be written and read back. -/
def WellFormed : Field → Prop
  | quoted s => quotationMark ∉ s.toList
  | bare s => trim s.toList = s.toList ∧ ',' ∉ s.toList ∧ s.toList.head? ≠ some quotationMark

/-- Whether a field is well-formed can be computed. -/
instance : DecidablePred WellFormed
  | quoted s => inferInstanceAs (Decidable (quotationMark ∉ s.toList))
  | bare s => inferInstanceAs (Decidable (_ ∧ ',' ∉ s.toList ∧ _))

/-- A field as it is written. -/
def shown : Field → String
  | quoted s => "\"" ++ s ++ "\""
  | bare s => s

/-- Fields with commas between them. -/
def join (fs : List Field) : String := ",".intercalate (fs.map shown)

/-! ## White space around a field -/

/-- White space in front is trimmed. -/
theorem trim_append {pad cs : List Char} (hpad : ∀ c ∈ pad, isWhiteSpace c = true) :
    trim (pad ++ cs) = trim cs := by
  unfold trim trimStart
  rw [List.dropWhile_append_of_pos hpad]

/-- What is left without white space begins what is left without the leading one. -/
theorem trim_prefix_trimStart (cs : List Char) : trim cs <+: trimStart cs := List.rdropWhile_prefix _ _

/-- The first character that is left is the first that is no white space. -/
theorem head?_of_head?_trim {cs : List Char} {c : Char} (h : (trim cs).head? = some c) :
    (trimStart cs).head? = some c := by
  obtain ⟨rest, hrest⟩ := trim_prefix_trimStart cs
  rw [← hrest, List.head?_append, h, Option.some_or]

/-- What is left after trimming does not begin with white space. -/
theorem isWhiteSpace_of_head?_trimStart {cs : List Char} {c : Char}
    (h : (trimStart cs).head? = some c) : isWhiteSpace c = false := by
  have hhead := List.head?_dropWhile_not isWhiteSpace cs
  rw [trimStart] at h
  rwa [h] at hhead

/-- Trimming twice is trimming once. -/
theorem trim_trim (cs : List Char) : trim (trim cs) = trim cs := by
  have hstart : trimStart (trim cs) = trim cs := by
    cases htrim : trim cs with
    | nil => rfl
    | cons c rest =>
      have hhead : (trim cs).head? = some c := by rw [htrim]; rfl
      have hc := isWhiteSpace_of_head?_trimStart (head?_of_head?_trim hhead)
      rw [trimStart, List.dropWhile_cons_of_neg (by simp [hc])]
  rw [trim, hstart]
  exact List.rdropWhile_idempotent isWhiteSpace _

/-! ## The reader -/

/-- Where a reader stands, and the characters of the field so far in reverse. -/
structure Reader where
  place : Place
  reversed : List Char

namespace Reader

/-- The reader at the start of a field. -/
def start : Reader := ⟨.bare, []⟩

/-- A quotation mark would begin a field in quotation marks here. -/
def opens (r : Reader) : Bool := r.place == .bare && r.reversed.all isWhiteSpace

/-- The reader behind one more character. -/
def read (r : Reader) (c : Char) : Reader :=
  if r.place = .inside then
    if c = quotationMark then ⟨.closed, r.reversed⟩ else ⟨.inside, c :: r.reversed⟩
  else if c = ',' then start
  else if c = quotationMark ∧ r.opens then ⟨.inside, []⟩
  else if r.place = .closed then r
  else ⟨.bare, c :: r.reversed⟩

/-- The field that the reader is in, if it ends here. -/
def field (r : Reader) : Field := ofReversed r.place r.reversed

/-- The field that the character ends, if it is a comma outside quotation marks. -/
def finished (r : Reader) (c : Char) : List Field :=
  if c = ',' ∧ r.place ≠ .inside then [r.field] else []

/-- The fields of the rest of a text. -/
def split (r : Reader) (cs : List Char) : List Field := splitFrom r.place r.reversed cs

/-- At the end the reader gives its last field. -/
theorem split_nil (r : Reader) : r.split [] = [r.field] := rfl

/-- Splitting goes on behind each character with the reader that has read it. -/
theorem split_cons (r : Reader) (c : Char) (cs : List Char) :
    r.split (c :: cs) = r.finished c ++ (r.read c).split cs := by
  obtain ⟨place, reversed⟩ := r
  cases place <;> grind [split, splitFrom, read, finished, field, opens, start, quotationMark]

/-- What the reader has taken into the field so far: no quotation mark if the field is in quotation
marks, else no comma, and no quotation mark in front. -/
def Sound (r : Reader) : Prop :=
  if r.place = .bare then
    ',' ∉ r.reversed ∧ (trimStart r.reversed.reverse).head? ≠ some quotationMark
  else quotationMark ∉ r.reversed

/-- At first nothing has been read. -/
theorem sound_start : start.Sound := by simp [Sound, start, trimStart]

/-- A character that follows others is not in front, unless they are all white space. -/
theorem head?_trimStart_concat {cs : List Char} {c : Char}
    (hcs : (trimStart cs).head? ≠ some quotationMark)
    (hc : c = quotationMark → cs.all isWhiteSpace = false) :
    (trimStart (cs ++ [c])).head? ≠ some quotationMark := by
  unfold trimStart at hcs ⊢
  rw [List.dropWhile_append]
  split
  case isTrue hempty =>
    intro hhead
    have hmark := (List.dropWhile_suffix _).mem (List.mem_of_head? hhead)
    obtain rfl := List.mem_singleton.mp hmark
    have hwhite : cs.all isWhiteSpace = true := by simpa using hempty
    rw [hc rfl] at hwhite
    cases hwhite
  case isFalse hne =>
    cases hdrop : cs.dropWhile isWhiteSpace with
    | nil => simp [hdrop] at hne
    | cons d rest =>
      rw [hdrop] at hcs
      exact hcs

/-- Every character keeps the reader sound. -/
theorem sound_read {r : Reader} (h : r.Sound) (c : Char) : (r.read c).Sound := by
  obtain ⟨place, reversed⟩ := r
  cases place with
  | inside =>
    by_cases hc : c = quotationMark
    · rw [read, if_pos rfl, if_pos hc]
      exact h
    · rw [read, if_pos rfl, if_neg hc]
      exact List.not_mem_cons_of_ne_of_not_mem (Ne.symm hc) h
  | closed =>
    by_cases hc : c = ','
    · rw [read, if_neg (by simp), if_pos hc]
      exact sound_start
    · rw [read, if_neg (by simp), if_neg hc, if_neg (by simp [opens]), if_pos rfl]
      exact h
  | bare =>
    obtain ⟨hcomma, hhead⟩ := h
    by_cases hc : c = ','
    · rw [read, if_neg (by simp), if_pos hc]
      exact sound_start
    · by_cases hopens : c = quotationMark ∧ reversed.all isWhiteSpace = true
      · rw [read, if_neg (by simp), if_neg hc, if_pos (by simpa [opens] using hopens)]
        exact List.not_mem_nil
      · rw [read, if_neg (by simp), if_neg hc, if_neg (by simpa [opens] using hopens),
          if_neg (by simp)]
        refine ⟨List.not_mem_cons_of_ne_of_not_mem (Ne.symm hc) hcomma, ?_⟩
        rw [List.reverse_cons]
        exact head?_trimStart_concat hhead fun hmark => by simpa [hmark] using hopens

/-- The field that a reader is in is well-formed. -/
theorem wellFormed_field {r : Reader} (h : r.Sound) : r.field.WellFormed := by
  obtain ⟨place, reversed⟩ := r
  cases place with
  | bare =>
    obtain ⟨hcomma, hhead⟩ := h
    have htrim : WellFormed (bare (String.ofList (trim reversed.reverse))) := by
      rw [WellFormed, String.toList_ofList]
      refine ⟨trim_trim _, fun hmem => hcomma ?_, fun hmark => hhead (head?_of_head?_trim hmark)⟩
      have hstart := (trim_prefix_trimStart reversed.reverse).mem hmem
      exact List.mem_reverse.mp ((List.dropWhile_suffix _).mem hstart)
    exact htrim
  | inside | closed =>
    have hquoted : WellFormed (quoted (String.ofList reversed.reverse)) := by
      rw [WellFormed, String.toList_ofList, List.mem_reverse]
      exact h
    exact hquoted

/-- Every field that a reader finds is well-formed. -/
theorem wellFormed_of_mem_split {r : Reader} (h : r.Sound) (cs : List Char) :
    ∀ f ∈ r.split cs, f.WellFormed := by
  induction cs generalizing r with
  | nil =>
    rw [split_nil]
    exact List.forall_mem_singleton.mpr (wellFormed_field h)
  | cons c cs ih =>
    rw [split_cons]
    refine List.forall_mem_append.mpr ⟨?_, ih (sound_read h c)⟩
    unfold finished
    split
    · exact List.forall_mem_singleton.mpr (wellFormed_field h)
    · exact List.forall_mem_nil _

end Reader

/-! ## Written fields -/

/-- A field goes on inside its quotation marks. -/
theorem splitFrom_inside (reversed : List Char) {cs : List Char} (hcs : quotationMark ∉ cs)
    (rest : List Char) :
    splitFrom .inside reversed (cs ++ quotationMark :: rest) =
      splitFrom .closed (cs.reverse ++ reversed) rest := by
  induction cs generalizing reversed with
  | nil => simp [splitFrom]
  | cons c cs ih =>
    obtain ⟨hc, hcs⟩ := not_or.mp (List.mem_cons.not.mp hcs)
    rw [List.cons_append, splitFrom, if_neg (by simpa using Ne.symm hc), ih _ hcs]
    simp

/-- A field without quotation marks goes on to the next comma. Once there is more than white space in
it, quotation marks are characters like others. -/
theorem splitFrom_bare {reversed : List Char} (hreversed : reversed.all isWhiteSpace = false)
    {cs : List Char} (hcs : ',' ∉ cs) (rest : List Char) :
    splitFrom .bare reversed (cs ++ rest) = splitFrom .bare (cs.reverse ++ reversed) rest := by
  induction cs generalizing reversed with
  | nil => rfl
  | cons c cs ih =>
    obtain ⟨hc, hcs⟩ := not_or.mp (List.mem_cons.not.mp hcs)
    rw [List.cons_append, splitFrom, if_neg (by simp [hreversed]), if_neg (by simpa using Ne.symm hc),
      ih (by simp [hreversed]) hcs]
    simp

/-- The fields behind a comma, or none at the end. -/
def splitRest : List Char → List Field
  | [] => []
  | _ :: cs => splitFrom .bare [] cs

/-- A field ends at a comma or at the end, unless it is quoted. -/
theorem splitFrom_end {place : Place} (hplace : place ≠ .inside) (reversed : List Char)
    {rest : List Char} (hrest : ∀ c, rest.head? = some c → c = ',') :
    splitFrom place reversed rest = ofReversed place reversed :: splitRest rest := by
  cases rest with
  | nil => rfl
  | cons c rest =>
    obtain rfl := hrest c rfl
    cases place with
    | inside => exact absurd rfl hplace
    | closed => simp [splitFrom, splitRest]
    | bare => simp [splitFrom, splitRest, quotationMark]

/-- A written field ends at a comma and at the end of the text. White space may precede it. -/
theorem splitFrom_shown {f : Field} (hf : f.WellFormed) {pad rest : List Char}
    (hpad : ∀ c ∈ pad, isWhiteSpace c = true) (hrest : ∀ c, rest.head? = some c → c = ',') :
    splitFrom .bare pad (f.shown.toList ++ rest) = f :: splitRest rest := by
  cases f with
  | quoted s =>
    have hshown : (quoted s).shown.toList = quotationMark :: (s.toList ++ [quotationMark]) := by
      simp [shown, quotationMark]
    have hopen : pad.all isWhiteSpace = true := List.all_eq_true.mpr hpad
    have hfield : ofReversed .closed (s.toList.reverse ++ []) = quoted s := by simp [ofReversed]
    rw [hshown, List.cons_append, splitFrom, if_pos (by simp [hopen]), List.append_assoc,
      List.singleton_append, splitFrom_inside [] hf, splitFrom_end (by simp) _ hrest, hfield]
  | bare s =>
    obtain ⟨htrim, hcomma, hhead⟩ := hf
    have hfield : ofReversed .bare (s.toList.reverse ++ pad) = bare s := by
      rw [ofReversed, List.reverse_append, List.reverse_reverse,
        trim_append (fun c hc => hpad c (List.mem_reverse.mp hc)), htrim, String.ofList_toList]
    have hsplit : splitFrom .bare pad (s.toList ++ rest) =
        splitFrom .bare (s.toList.reverse ++ pad) rest := by
      cases hs : s.toList with
      | nil => rfl
      | cons c cs =>
        rw [hs] at htrim hcomma hhead
        -- The first character is no white space, so from here on no quotation mark opens the field.
        have hwhite : isWhiteSpace c = false := by
          have hfirst : (trim (c :: cs)).head? = some c := by rw [htrim]; rfl
          exact isWhiteSpace_of_head?_trimStart (head?_of_head?_trim hfirst)
        obtain ⟨hc, hcs⟩ := not_or.mp (List.mem_cons.not.mp hcomma)
        have hquote : (c == quotationMark) = false := by simpa using hhead
        rw [List.cons_append, splitFrom, hquote, Bool.false_and, if_neg Bool.false_ne_true,
          if_neg (by simpa using Ne.symm hc), splitFrom_bare (by simp [hwhite]) hcs]
        simp
    change splitFrom .bare pad (s.toList ++ rest) = _
    rw [hsplit, splitFrom_end (by simp) _ hrest, hfield]

/-- Written fields with commas between them are found again. -/
theorem splitFrom_intercalate {fs : List Field} (hne : fs ≠ []) (hfs : ∀ f ∈ fs, f.WellFormed)
    {pad : List Char} (hpad : ∀ c ∈ pad, isWhiteSpace c = true) :
    splitFrom .bare pad ([','].intercalate (fs.map fun f => f.shown.toList)) = fs := by
  induction fs generalizing pad with
  | nil => exact absurd rfl hne
  | cons f fs ih =>
    obtain ⟨hf, hfs⟩ := List.forall_mem_cons.mp hfs
    cases fs with
    | nil =>
      have hsplit : splitFrom .bare pad (f.shown.toList ++ []) = [f] :=
        splitFrom_shown hf hpad (by simp)
      rw [List.append_nil] at hsplit
      rwa [List.map_singleton, List.intercalate_singleton]
    | cons g fs =>
      have htail : splitFrom .bare [] ([','].intercalate (g.shown.toList ::
          fs.map fun f => f.shown.toList)) = g :: fs := ih (by simp) hfs (by simp)
      rw [List.map_cons, List.map_cons, List.intercalate_cons_cons, List.append_assoc,
        splitFrom_shown hf hpad (by simp), List.singleton_append, splitRest, htail]

/-- Joined fields are their texts with commas between them. -/
theorem toList_join (fs : List Field) :
    (join fs).toList = [','].intercalate (fs.map fun f => f.shown.toList) := by
  rw [join, String.toList_intercalate, List.map_map]
  rfl

/-- Well-formed fields are found again in the text that joins them. -/
theorem split_join_eq {fs : List Field} (hne : fs ≠ []) (hfs : ∀ f ∈ fs, f.WellFormed) :
    split (join fs) = fs := by
  rw [split, toList_join]
  exact splitFrom_intercalate hne hfs (by simp)

/-- Splitting and joining are inverse to each other on well-formed fields: such fields with commas
between them are split into themselves, and every text is split into at least one field, all of them
well-formed, so that joining them and splitting again changes nothing. -/
theorem split_join :
    (∀ fs : List Field, fs ≠ [] → (∀ f ∈ fs, f.WellFormed) → split (join fs) = fs) ∧
      ∀ s : String, split s ≠ [] ∧ (∀ f ∈ split s, f.WellFormed) ∧ split (join (split s)) = split s := by
  refine ⟨fun fs hne hfs => split_join_eq hne hfs, fun s => ?_⟩
  have hne : split s ≠ [] := splitFrom_ne_nil .bare [] s.toList
  have hfs : ∀ f ∈ split s, f.WellFormed :=
    Reader.wellFormed_of_mem_split Reader.sound_start s.toList
  exact ⟨hne, hfs, split_join_eq hne hfs⟩

/-- A comma in quotation marks, a mark that opens nothing, and an empty field. -/
theorem split_join_strayMark :
    (∀ f ∈ [quoted "A,B ", bare "5\" PIPE", bare ""], f.WellFormed) ∧
      split "\"A,B \",5\" PIPE," = [quoted "A,B ", bare "5\" PIPE", bare ""] := by
  have hfs : ∀ f ∈ [quoted "A,B ", bare "5\" PIPE", bare ""], f.WellFormed := by decide
  exact ⟨hfs, split_join.1 _ (by simp) hfs⟩

end CommodoreBasic.Field
