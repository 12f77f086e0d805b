/-!
# Variable names

A name ends in `$` exactly if the variable holds text. Only the first two characters of the rest
count, so that `COUNT` and `COLOUR` name one variable; `Name.fold` gives the name that stands for
all of them.
-/

namespace CommodoreBasic

/-- The name of a variable, an array or a parameter. -/
abbrev Name := String

namespace Name

/-- A variable with this name holds text. -/
def isText (n : Name) : Bool := n.toList.getLast? == some '$'

/-- The name without the `$` characters at its end. -/
def stem (n : Name) : List Char := (n.toList.reverse.dropWhile (· == '$')).reverse

/-- The first two characters of the stem, and one `$` if the name had any. -/
def fold (n : Name) : Name :=
  String.ofList (n.stem.take 2 ++ if n.isText then ['$'] else [])

/-- The clock's own variables, which a program cannot set. -/
def isReserved (n : Name) : Bool := n == "TI" || n == "TI$"

/-- A letter and then letters and digits, with a `$` at the end or without it. -/
def isIdentifier (n : Name) : Bool :=
  match if n.isText then n.toList.dropLast else n.toList with
  | [] => false
  | c :: cs => c.isAlpha && cs.all Char.isAlphanum

section Suffix

variable {cs : List Char}

/-- Without a dollar sign a name is that of a number. -/
theorem isText_ofList (h : '$' ∉ cs) : isText (String.ofList cs) = false := by
  rw [isText, String.toList_ofList, beq_eq_false_iff_ne]
  exact fun hlast => h (List.mem_of_getLast? hlast)

/-- With one at its end it is that of a text. -/
theorem isText_ofList_suffix : isText (String.ofList (cs ++ ['$'])) = true := by
  simp [isText]

/-- All that is dropped from the end are dollar signs. -/
private theorem dropWhile_reverse (h : '$' ∉ cs) :
    cs.reverse.dropWhile (· == '$') = cs.reverse := by
  cases hcs : cs.reverse with
  | nil => rfl
  | cons c rest =>
    have hc : c ∈ cs := List.mem_reverse.mp (hcs ▸ List.mem_cons_self)
    exact List.dropWhile_cons_of_neg fun heq => h (beq_iff_eq.mp heq ▸ hc)

/-- A name without a dollar sign is all stem. -/
theorem stem_ofList (h : '$' ∉ cs) : stem (String.ofList cs) = cs := by
  rw [stem, String.toList_ofList, dropWhile_reverse h, List.reverse_reverse]

/-- The dollar sign at the end is no part of the stem. -/
theorem stem_ofList_suffix (h : '$' ∉ cs) : stem (String.ofList (cs ++ ['$'])) = cs := by
  rw [stem, String.toList_ofList, List.reverse_append, List.reverse_singleton,
    List.singleton_append, List.dropWhile_cons_of_pos rfl, dropWhile_reverse h,
    List.reverse_reverse]

/-- A name without a dollar sign is cut to two characters. -/
theorem fold_ofList (h : '$' ∉ cs) : fold (String.ofList cs) = String.ofList (cs.take 2) := by
  rw [fold, isText_ofList h, stem_ofList h, if_neg Bool.false_ne_true, List.append_nil]

/-- A name with one at its end keeps it, too. -/
theorem fold_ofList_suffix (h : '$' ∉ cs) :
    fold (String.ofList (cs ++ ['$'])) = String.ofList (cs.take 2 ++ ['$']) := by
  rw [fold, isText_ofList_suffix, stem_ofList_suffix h, if_pos rfl]

end Suffix

/-- The characters of an identifier: none of them is `$`, but for the last if it holds text. -/
theorem exists_of_isIdentifier {n : Name} (h : n.isIdentifier = true) :
    ∃ cs, '$' ∉ cs ∧ (n = String.ofList cs ∨ n = String.ofList (cs ++ ['$'])) := by
  have hbody (cs : List Char) (hcs : (match cs with
      | [] => false
      | c :: cs => c.isAlpha && cs.all Char.isAlphanum) = true) : '$' ∉ cs := by
    cases cs with
    | nil => cases hcs
    | cons c cs =>
      intro hmem
      rw [Bool.and_eq_true, List.all_eq_true] at hcs
      rcases List.mem_cons.mp hmem with rfl | hmem
      · exact absurd hcs.1 (by decide)
      · exact absurd (hcs.2 _ hmem) (by decide)
  unfold isIdentifier at h
  cases htext : n.isText <;> rw [htext] at h
  · exact ⟨n.toList, hbody _ h, .inl String.ofList_toList.symm⟩
  · refine ⟨n.toList.dropLast, hbody _ h, .inr ?_⟩
    obtain ⟨cs, hcs⟩ := List.getLast?_eq_some_iff.mp (beq_iff_eq.mp htext)
    rw [hcs, List.dropLast_concat, ← hcs, String.ofList_toList]

/-- Folding keeps the type of an identifier. -/
theorem isText_fold {n : Name} (h : n.isIdentifier = true) : n.fold.isText = n.isText := by
  obtain ⟨cs, hcs, rfl | rfl⟩ := exists_of_isIdentifier h
  · have htake : '$' ∉ cs.take 2 := fun hmem => hcs (List.mem_of_mem_take hmem)
    rw [fold_ofList hcs, isText_ofList hcs, isText_ofList htake]
  · rw [fold_ofList_suffix hcs, isText_ofList_suffix, isText_ofList_suffix]

/-- A folded identifier stands for itself. -/
theorem fold_fold {n : Name} (h : n.isIdentifier = true) : n.fold.fold = n.fold := by
  obtain ⟨cs, hcs, rfl | rfl⟩ := exists_of_isIdentifier h <;>
    have htake : '$' ∉ cs.take 2 := fun hmem => hcs (List.mem_of_mem_take hmem)
  · rw [fold_ofList hcs, fold_ofList htake, List.take_take, Nat.min_self]
  · rw [fold_ofList_suffix hcs, fold_ofList_suffix htake, List.take_take, Nat.min_self]

end Name

end CommodoreBasic
