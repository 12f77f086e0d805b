import Mathlib.Data.List.Infix
import CommodoreBasic.Proofs.SpacedTokens

/-!
# The longest spelling

A spelling that begins another one stands behind it in the table, so whatever is found first at a place
is longer than all else that is spelled there. The order of the table matters in no other way.

A name goes on until something is spelled in the text, be it only to the end of the name or beyond it.
So nothing at all is spelled in a name, and every identifier in capitals in which nothing is spelled is
the name of a variable. Folding such a name keeps its `$` and has no effect a second time.
-/

namespace CommodoreBasic

namespace Token

/-- The word stands at the start of the characters, in capitals or not. -/
def SpelledAt (word : String) (cs : List Char) : Prop := word.toList <+: cs.map Char.toUpper

/-- The word stands somewhere in the characters, in capitals or not. -/
def SpelledIn (word : String) (cs : List Char) : Prop := word.toList <:+: cs.map Char.toUpper

/-- The spelling is the longest of those at the start of the characters. -/
structure LongestAt (spelling : String × Token) (cs : List Char) : Prop where
  mem : spelling ∈ spellings
  spelled : SpelledAt spelling.1 cs
  longest : ∀ other ∈ spellings, SpelledAt other.1 cs → other.1.length ≤ spelling.1.length

/-! ## The table -/

/-- A word is spelled at the start of a text if the text in capitals begins with it. -/
theorem isSpelledAt_iff {word cs : List Char} :
    isSpelledAt word cs = true ↔ word <+: cs.map Char.toUpper := by
  induction word generalizing cs with
  | nil => simp [isSpelledAt]
  | cons w word ih =>
    cases cs with
    | nil => simp [isSpelledAt]
    | cons c cs => rw [isSpelledAt, Bool.and_eq_true, beq_iff_eq, ih, List.map_cons,
        List.cons_prefix_cons]

/-- No spelling begins one that stands behind it in the table. -/
theorem pairwise_crunchTable : crunchTable.Pairwise fun first second => ¬ first.1 <+: second.1 := by
  decide +kernel

/-- What is found first is spelled, and all else that is spelled is shorter. -/
theorem shorter_of_find? {cs : List Char} {hit : List Char × Token}
    (h : crunchTable.find? (fun spelling => isSpelledAt spelling.1 cs) = some hit) :
    hit ∈ crunchTable ∧ isSpelledAt hit.1 cs = true ∧ ∀ other ∈ crunchTable,
      isSpelledAt other.1 cs = true → other = hit ∨ other.1.length < hit.1.length := by
  obtain ⟨hspelled, before, behind, htable, hbefore⟩ := List.find?_eq_some_iff_append.mp h
  have hpairwise := pairwise_crunchTable
  rw [htable, List.pairwise_append] at hpairwise
  have hbehind := (List.pairwise_cons.mp hpairwise.2.1).1
  refine ⟨by simp [htable], hspelled, fun other hother hspelled' => ?_⟩
  rw [htable, List.mem_append, List.mem_cons] at hother
  rcases hother with hother | rfl | hother
  · exact absurd hspelled' (by simpa using hbefore other hother)
  · exact .inl rfl
  · -- Both begin the same text, so the one behind must not be as long as the one found.
    refine .inr (Nat.lt_of_not_le fun hle => hbehind other hother ?_)
    exact List.prefix_of_prefix_length_le (isSpelledAt_iff.mp hspelled)
      (isSpelledAt_iff.mp hspelled') hle

/-- The table holds the spellings, and nothing else. -/
theorem mem_crunchTable_iff {spelling : String × Token} :
    (spelling.1.toList, spelling.2) ∈ crunchTable ↔ spelling ∈ spellings := by
  refine ⟨fun h => ?_, fun h => List.mem_map_of_mem h⟩
  obtain ⟨⟨word, t⟩, hmem, heq⟩ := List.mem_map.mp h
  obtain ⟨hword, rfl⟩ := Prod.mk.inj heq
  obtain rfl := String.toList_inj.mp hword
  exact hmem

/-- The first spelling of the table that fits is taken. -/
theorem crunch?_eq (cs : List Char) :
    crunch? cs = (crunchTable.find? fun spelling => isSpelledAt spelling.1 cs).map
      fun spelling => (spelling.1.length, spelling.2) := rfl

/-- Nothing is crunched exactly if nothing is spelled. -/
theorem crunch?_eq_none_iff {cs : List Char} :
    crunch? cs = none ↔ ∀ spelling ∈ spellings, ¬ SpelledAt spelling.1 cs := by
  rw [crunch?_eq, Option.map_eq_none_iff, List.find?_eq_none]
  constructor
  · intro h spelling hmem hspelled
    exact h _ (mem_crunchTable_iff.mpr hmem) (isSpelledAt_iff.mpr hspelled)
  · intro h entry hmem hspelled
    obtain ⟨spelling, hspelling, rfl⟩ := List.mem_map.mp hmem
    exact h spelling hspelling (isSpelledAt_iff.mp hspelled)

/-- What is crunched is the longest spelling, with its length and its token. -/
theorem crunch?_eq_some_iff {cs : List Char} {n : Nat} {t : Token} :
    crunch? cs = some (n, t) ↔ ∃ word, LongestAt (word, t) cs ∧ word.length = n := by
  constructor
  · intro h
    obtain ⟨hit, hfind, heq⟩ := Option.map_eq_some_iff.mp h
    obtain ⟨hmem, hspelled, hshorter⟩ := shorter_of_find? hfind
    obtain ⟨⟨word, u⟩, hword, rfl⟩ := List.mem_map.mp hmem
    obtain ⟨rfl, rfl⟩ := Prod.mk.inj heq
    refine ⟨word, ⟨hword, isSpelledAt_iff.mp hspelled, fun other hother hspelled' => ?_⟩, ?_⟩
    · rcases hshorter _ (mem_crunchTable_iff.mpr hother) (isSpelledAt_iff.mpr hspelled') with heq | hlt
      · rw [String.toList_inj.mp (Prod.mk.inj heq).1]
      · rw [String.length_toList, String.length_toList] at hlt
        exact Nat.le_of_lt hlt
    · exact String.length_toList.symm
  · rintro ⟨word, hlongest, rfl⟩
    have hword := mem_crunchTable_iff.mpr hlongest.mem
    have hspelled := isSpelledAt_iff.mpr hlongest.spelled
    rw [crunch?_eq]
    cases hfind : crunchTable.find? fun spelling => isSpelledAt spelling.1 cs with
    | none => exact absurd hspelled (List.find?_eq_none.mp hfind _ hword)
    | some hit =>
      obtain ⟨hmem, hhit, hshorter⟩ := shorter_of_find? hfind
      rcases hshorter _ hword hspelled with rfl | hlt
      · rw [Option.map_some, String.length_toList]
      · obtain ⟨spelling, hspelling, rfl⟩ := List.mem_map.mp hmem
        have hle := hlongest.longest spelling hspelling (isSpelledAt_iff.mp hhit)
        rw [String.length_toList, String.length_toList] at hlt
        exact absurd hle (Nat.not_le_of_lt hlt)

/-! ## Names -/

/-- Whether nothing is spelled anywhere in a text can be computed. -/
theorem spellNothing_iff {cs : List Char} :
    spellNothing cs = true ↔ ∀ spelling ∈ spellings, ¬ SpelledIn spelling.1 cs := by
  induction cs with
  | nil =>
    have hne : ∀ spelling ∈ spellings, spelling.1.toList ≠ [] := by decide +kernel
    simp only [SpelledIn, List.map_nil, List.infix_nil]
    exact iff_of_true rfl hne
  | cons c cs ih =>
    rw [spellNothing, Bool.and_eq_true, Option.isNone_iff_eq_none, crunch?_eq_none_iff, ih,
      ← forall₂_and]
    refine forall₂_congr fun spelling _ => ?_
    rw [← not_or]
    exact not_congr List.infix_cons_iff.symm

/-- A capital letter is a letter that is its own capital. -/
theorem isUpper_iff {c : Char} : c.isUpper = true ↔ c.isAlpha = true ∧ c.toUpper = c := by
  have hletter : c.isAlpha = (c.isUpper || c.isLower) := rfl
  rw [hletter, Char.ext_iff, ← UInt32.toNat_inj]
  delta Char.toUpper Char.isUpper Char.isLower
  split
  · next hlower =>
    simp [UInt32.le_iff_toNat_le] at hlower ⊢
    omega
  · next hlower =>
    simp [UInt32.le_iff_toNat_le] at hlower ⊢
    omega

/-- A capital letter or a digit is a letter or digit that is its own capital. -/
theorem isUpper_or_isDigit_iff {c : Char} :
    c.isUpper = true ∨ c.isDigit = true ↔ c.isAlphanum = true ∧ c.toUpper = c := by
  rw [isUpper_iff, Char.isAlphanum, Bool.or_eq_true, or_and_right,
    and_iff_left_of_imp toUpper_of_isDigit]

end Token

namespace Name

open CommodoreBasic.Token

/-- A capital letter, then capital letters and digits, and one `$` at the end or none. -/
inductive InCapitals : Name → Prop where
  | intro {c : Char} {body rest : List Char} (hc : c.isUpper = true)
    (hbody : ∀ d ∈ body, d.isUpper = true ∨ d.isDigit = true)
    (hrest : rest = body ∨ rest = body ++ ['$']) : InCapitals (String.ofList (c :: rest))

/-- A name is in capitals if it is an identifier whose characters are their own capitals. -/
theorem inCapitals_iff {n : Name} :
    n.InCapitals ↔ n.isIdentifier = true ∧ n.toList.all (fun c => c.toUpper == c) = true := by
  constructor
  · rintro @⟨c, body, rest, hc, hbody, hrest⟩
    have hletter := isUpper_iff.mp hc
    have hbody (d : Char) (hd : d ∈ body) := isUpper_or_isDigit_iff.mp (hbody d hd)
    have hupper : ∀ d ∈ c :: rest, d.toUpper = d := by
      refine List.forall_mem_cons.mpr ⟨hletter.2, ?_⟩
      rcases hrest with rfl | rfl
      · exact fun d hd => (hbody d hd).2
      · exact List.forall_mem_append.mpr
          ⟨fun d hd => (hbody d hd).2, List.forall_mem_singleton.mpr rfl⟩
    have hcapitals : capitals (c :: rest) = String.ofList (c :: rest) :=
      congrArg String.ofList ((List.map_congr_left hupper).trans (List.map_id _))
    constructor
    · rw [← hcapitals]
      exact isIdentifier_capitals hletter.1 (fun d hd => (hbody d hd).1) hrest
    · rw [String.toList_ofList, List.all_eq_true]
      exact fun d hd => beq_iff_eq.mpr (hupper d hd)
  · rintro ⟨hidentifier, hupper⟩
    obtain ⟨c, rest, hn, hc, body, hbody, hrest⟩ := characters_of_isIdentifier hidentifier
    rw [hn, List.all_eq_true, List.forall_mem_cons] at hupper
    rw [← String.ofList_toList (s := n), hn]
    refine .intro (isUpper_iff.mpr ⟨hc, beq_iff_eq.mp hupper.1⟩) (fun d hd => ?_) hrest
    have hmem : d ∈ rest := by rcases hrest with rfl | rfl <;> simp [hd]
    exact isUpper_or_isDigit_iff.mpr ⟨hbody d hd, beq_iff_eq.mp (hupper.2 d hmem)⟩

/-- A plain name is in capitals, and nothing is spelled in it. -/
theorem isPlain_iff {n : Name} : n.isPlain = true ↔
    n.InCapitals ∧ ∀ spelling ∈ spellings, ¬ SpelledIn spelling.1 n.toList := by
  rw [isPlain, Bool.and_eq_true, Bool.and_eq_true, inCapitals_iff, spellNothing_iff]

end Name

namespace Token

/-- The names of lines are the plain ones. -/
theorem exists_name_mem_scanLine_iff {n : Name} :
    (∃ line, name n ∈ (scanLine line).tokens) ↔ n.isPlain = true := by
  constructor
  · rintro ⟨line, hmem⟩
    have hline : name n ∈ ofLine line := List.mem_filter.mpr ⟨hmem, rfl⟩
    rw [ofLine_eq_lex] at hline
    exact isPlain_of_mem_scan (List.mem_filter.mp hline).1
  · intro hplain
    -- The name is a line of its own: it begins with no digits, and its word is read to the end.
    have hidentifier := (Name.inCapitals_iff.mp (Name.isPlain_iff.mp hplain).1).1
    obtain ⟨c, rest, hn, hc, -⟩ := characters_of_isIdentifier hidentifier
    have hdigits : leadingDigits n.toList = leadingDigits [] := by
      rw [hn, leadingDigits_of_isSolid (isSolid_of_isAlpha hc)]
      rfl
    have hlex : lex (n.toList ++ []) = name n :: lex [] :=
      lex_word (reads_name hplain) (by simp [Ends]) rfl (by simp) (by simp)
    have hline : ofLine n.toList = name n :: lex [] := by
      rw [ofLine_eq_lex, dropEndWhile_of_unbroken (unbroken_of_isPlain hplain),
        splitNumber_of_leadingDigits hdigits rfl, ← hlex, List.append_nil]
    have hmem : name n ∈ ofLine n.toList := hline ▸ List.mem_cons_self
    exact ⟨n.toList, (List.mem_filter.mp hmem).1⟩

/-- Of the spellings at the start of a text the longest is crunched, and nothing if there is none. The
names of lines are the identifiers in capitals in which nothing is spelled. Folding an identifier in
capitals keeps its `$`, and folding it again changes nothing. -/
theorem crunch?_longest_and_complete :
    (∀ (cs : List Char) (n : Nat) (t : Token),
        crunch? cs = some (n, t) ↔ ∃ word, LongestAt (word, t) cs ∧ word.length = n) ∧
      (∀ cs : List Char, crunch? cs = none ↔ ∀ spelling ∈ spellings, ¬ SpelledAt spelling.1 cs) ∧
      (∀ n : Name, (∃ line, name n ∈ (scanLine line).tokens) ↔
        n.InCapitals ∧ ∀ spelling ∈ spellings, ¬ SpelledIn spelling.1 n.toList) ∧
      ∀ n : Name, n.InCapitals → n.fold.fold = n.fold ∧ n.fold.isText = n.isText := by
  refine ⟨fun cs n t => crunch?_eq_some_iff, fun cs => crunch?_eq_none_iff, fun n => ?_, fun n hn => ?_⟩
  · rw [exists_name_mem_scanLine_iff, Name.isPlain_iff]
  · have hidentifier := (Name.inCapitals_iff.mp hn).1
    exact ⟨Name.fold_fold hidentifier, Name.isText_fold hidentifier⟩

/-- GO is spelled where GOTO is, and OR ends a name. -/
theorem crunch?_longest_and_complete_score :
    (SpelledAt "GO" "goto10".toList ∧
        ∃ word, LongestAt (word, keyword .GOTO) "goto10".toList ∧ word.length = 4) ∧
      (scanLine "score$=1".toList).tokens =
        [name "SC", operator .or, name "E$", operator .equal, numeral "1"] ∧
      (Name.InCapitals "E$" ∧ ∀ spelling ∈ spellings, ¬ SpelledIn spelling.1 "E$".toList) ∧
      Name.fold (Name.fold "E$") = Name.fold "E$" ∧ Name.isText (Name.fold "E$") = Name.isText "E$" := by
  obtain ⟨hsome, -, hname, hfold⟩ := crunch?_longest_and_complete
  have hspelled : SpelledAt "GO" "goto10".toList := isSpelledAt_iff.mp (by decide +kernel)
  have hscan : (scanLine "score$=1".toList).tokens =
      [name "SC", operator .or, name "E$", operator .equal, numeral "1"] := by decide +kernel
  have hplain := (hname "E$").mp ⟨_, by rw [hscan]; simp⟩
  have hlongest := (hsome "goto10".toList 4 (keyword .GOTO)).mp (by decide +kernel)
  exact ⟨⟨hspelled, hlongest⟩, hscan, hplain, hfold _ hplain.1⟩

end Token

end CommodoreBasic
