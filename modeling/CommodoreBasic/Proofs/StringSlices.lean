import Mathlib.Data.List.TakeDrop
import CommodoreBasic.Builtin.Apply

/-!
# Slices of a text

LEFT$, MID$ and RIGHT$ take characters out of a text by counts, which are numbers from 0 to 255. Texts
have no greatest length, so MID$ without a count does not always reach the end of one: it takes as many
characters as the greatest count allows, and with LEFT$ up to its start it makes up the text exactly if
no more follow.
-/

namespace CommodoreBasic

/-- The numbers of a byte are their own whole parts. -/
theorem Number.floor?_ofNat {n : Nat} (hn : n ≤ Builtin.greatestByte) :
    floor? (Float.ofNat n) = some (n : Int) := by
  have hall : (List.range 256).all (fun k => floor? (Float.ofNat k) == some (k : Int)) = true := by
    decide +kernel
  exact beq_iff_eq.mp (List.all_eq_true.mp hall n (List.mem_range.mpr (Nat.lt_succ_of_le hn)))

/-- A number from 0 to 255 is a byte, rounded down. -/
theorem Value.toByte_number {x : Float} {n : Nat} (hx : Number.floor? x = some (n : Int))
    (hn : n ≤ Builtin.greatestByte) : (Value.number x).toByte = .ok n := by
  have hrange : 0 ≤ (n : Int) ∧ (n : Int) ≤ 255 := ⟨Int.natCast_nonneg n, Int.ofNat_le.mpr hn⟩
  rw [toByte, toNumber]
  dsimp only [bind, Except.bind]
  rw [hx]
  exact if_pos hrange

namespace Builtin

variable {x y : Float} {i n : Nat}

/-- LEFT$ takes characters from the front. -/
theorem apply_left (s : String) (hx : Number.floor? x = some (n : Int)) (hn : n ≤ greatestByte)
    (g : Random) :
    apply .left [.text s, .number x] g = (.ok (.text (String.ofList (s.toList.take n))), g) := by
  change (evaluate .left [.text s, .number x], g) = _
  rw [evaluate, Value.toByte_number hx hn]
  rfl

/-- RIGHT$ drops all but the last. -/
theorem apply_right (s : String) (hx : Number.floor? x = some (n : Int)) (hn : n ≤ greatestByte)
    (g : Random) :
    apply .right [.text s, .number x] g =
      (.ok (.text (String.ofList (s.toList.drop (s.toList.length - n)))), g) := by
  change (evaluate .right [.text s, .number x], g) = _
  rw [evaluate, Value.toByte_number hx hn]
  rfl

/-- MID$ counts places from one. -/
theorem apply_mid (s : String) (hx : Number.floor? x = some (i : Int)) (hi : i ≤ greatestByte)
    (hpos : 1 ≤ i) (hy : Number.floor? y = some (n : Int)) (hn : n ≤ greatestByte) (g : Random) :
    apply .mid [.text s, .number x, .number y] g =
      (.ok (.text (String.ofList ((s.toList.drop (i - 1)).take n))), g) := by
  have hne : i ≠ 0 := Nat.one_le_iff_ne_zero.mp hpos
  change (evaluate .mid [.text s, .number x, .number y], g) = _
  rw [evaluate, Value.toByte_number hx hi]
  dsimp only [bind, Except.bind, Value.toText]
  rw [if_neg hne, Value.toByte_number hy hn]
  rfl

/-- Without a count MID$ takes as many characters as the greatest count allows. -/
theorem apply_mid_rest (s : String) (hx : Number.floor? x = some (i : Int)) (hi : i ≤ greatestByte)
    (hpos : 1 ≤ i) (g : Random) :
    apply .mid [.text s, .number x] g =
      (.ok (.text (String.ofList ((s.toList.drop (i - 1)).take greatestByte))), g) := by
  have hne : i ≠ 0 := Nat.one_le_iff_ne_zero.mp hpos
  change (evaluate .mid [.text s, .number x], g) = _
  rw [evaluate, Value.toByte_number hx hi]
  dsimp only [bind, Except.bind, Value.toText]
  rw [if_neg hne]
  rfl

/-- The slices of a text. LEFT$ up to a place and MID$ from there on follow each other: together they are
the first `i + 254` characters, and so they are the whole text exactly if it has no more. MID$ with a
count is LEFT$ of MID$ without one, and RIGHT$ is the end of the text with as many characters as were
asked for, or all of it. -/
theorem apply_slices (s : String) (g : Random) (hpos : 1 ≤ i) (hi : i ≤ 255) (hn : n ≤ 255) :
    ∃ front back middle last : String,
      apply .left [.text s, .number (Float.ofNat (i - 1))] g = (.ok (.text front), g) ∧
      apply .mid [.text s, .number (Float.ofNat i)] g = (.ok (.text back), g) ∧
      front.toList.length = min (i - 1) s.toList.length ∧
      (front ++ back).toList = s.toList.take (i + 254) ∧
      (front ++ back = s ↔ s.toList.length ≤ i + 254) ∧
      apply .mid [.text s, .number (Float.ofNat i), .number (Float.ofNat n)] g =
        (.ok (.text middle), g) ∧
      apply .left [.text back, .number (Float.ofNat n)] g = (.ok (.text middle), g) ∧
      apply .right [.text s, .number (Float.ofNat n)] g = (.ok (.text last), g) ∧
      last.toList <:+ s.toList ∧ last.toList.length = min n s.toList.length := by
  have hstart := Number.floor?_ofNat hi
  have hbefore := Number.floor?_ofNat (Nat.le_trans (Nat.sub_le i 1) hi)
  have hcount := Number.floor?_ofNat hn
  have hjoined : s.toList.take (i - 1) ++ (s.toList.drop (i - 1)).take greatestByte =
      s.toList.take (i + 254) := by
    rw [← List.take_add]
    congr 1
    rw [greatestByte]
    omega
  refine ⟨_, _, _, _, apply_left s hbefore (Nat.le_trans (Nat.sub_le i 1) hi) g,
    apply_mid_rest s hstart hi hpos g, ?_, ?_, ?_, apply_mid s hstart hi hpos hcount hn g, ?_,
    apply_right s hcount hn g, ?_, ?_⟩
  · rw [String.toList_ofList, List.length_take]
  · rw [String.toList_append, String.toList_ofList, String.toList_ofList, hjoined]
  · rw [← String.toList_inj, String.toList_append, String.toList_ofList, String.toList_ofList, hjoined,
      List.take_eq_self_iff]
  · rw [apply_left _ hcount hn, String.toList_ofList, List.take_take, greatestByte, Nat.min_eq_left hn]
  · rw [String.toList_ofList]
    exact List.drop_suffix _ _
  · rw [String.toList_ofList, List.length_drop]
    omega

/-- A text with as many letters as are given. -/
def letters (count : Nat) : String := String.ofList (List.replicate count 'A')

/-- It has as many characters as it is asked for. -/
theorem length_letters (count : Nat) : (letters count).toList.length = count := by
  rw [letters, String.toList_ofList, List.length_replicate]

/-- A text that goes on for 255 characters from the third on is made up of two slices. -/
theorem apply_slices_longest :
    ∃ front back middle last : String,
      apply .left [.text (letters 257), .number (Float.ofNat 2)] default =
        (.ok (.text front), default) ∧
      apply .mid [.text (letters 257), .number (Float.ofNat 3)] default =
        (.ok (.text back), default) ∧
      front ++ back = letters 257 ∧
      apply .mid [.text (letters 257), .number (Float.ofNat 3), .number (Float.ofNat 4)] default =
        (.ok (.text middle), default) ∧
      apply .left [.text back, .number (Float.ofNat 4)] default = (.ok (.text middle), default) ∧
      apply .right [.text (letters 257), .number (Float.ofNat 4)] default =
        (.ok (.text last), default) ∧
      last.toList.length = 4 := by
  obtain ⟨front, back, middle, last, hfront, hback, -, -, hwhole, hmiddle, hcut, hlast, -, hcount⟩ :=
    apply_slices (letters 257) default (i := 3) (n := 4) (by decide) (by decide) (by decide)
  rw [length_letters] at hwhole hcount
  exact ⟨front, back, middle, last, hfront, hback, hwhole.mpr (by decide), hmiddle, hcut, hlast, hcount⟩

/-- Of a text of 256 characters MID$ leaves out the last. -/
theorem apply_mid_short :
    apply .left [.text (letters 256), .number 0] default = (.ok (.text ""), default) ∧
      apply .mid [.text (letters 256), .number 1] default = (.ok (.text (letters 255)), default) ∧
      "" ++ letters 255 ≠ letters 256 := by
  have hzero : Number.floor? 0 = some ((0 : Nat) : Int) := by decide +kernel
  have hone : Number.floor? 1 = some ((1 : Nat) : Int) := by decide +kernel
  refine ⟨apply_left _ hzero (by decide) _, ?_, ?_⟩
  · rw [apply_mid_rest _ hone (by decide) (by decide), letters, String.toList_ofList, Nat.sub_self,
      List.drop_zero, List.take_replicate]
    rfl
  · intro hsame
    have hlength := congrArg (fun t => t.toList.length) hsame
    simp only [String.toList_append, List.length_append, length_letters] at hlength
    exact absurd hlength (by decide)

end Builtin

end CommodoreBasic
