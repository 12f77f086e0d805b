import CommodoreBasic.Program
import CommodoreBasic.Proofs.ListedTokens
import CommodoreBasic.Proofs.WrittenStatements

/-!
# Listings

A line is listed as its number, a blank and its statements with colons between them, the words of each
statement with single blanks between them. Every well-formed line has a listing, and whatever forms and
numerals have been chosen for it, the line is read back.

Two facts about well-formed statements carry this. All forms of a statement consist of tokens that can
be listed, so the words are scanned as the tokens that they stand for. And there is a form whose tokens
all have words, since numbers have numerals.
-/

namespace CommodoreBasic

open CommodoreBasic.Text

/-! ## All forms can be listed -/

/-- What holds of the separator and of all that the members are written with holds of the list. -/
theorem Joined.forall_mem {α β : Type} {written : α → List β → Prop} {separator : β}
    {as : List α} {ts : List β} (h : Joined written separator as ts) {p : β → Prop}
    (hseparator : p separator) (hmember : ∀ a ∈ as, ∀ us, written a us → ∀ b ∈ us, p b) :
    ∀ b ∈ ts, p b := by
  induction h with
  | nil => simp
  | single h => exact hmember _ List.mem_cons_self _ h
  | cons h _ ih =>
    have htail := ih fun a ha => hmember a (List.mem_cons_of_mem _ ha)
    exact List.forall_mem_append.mpr
      ⟨hmember _ List.mem_cons_self _ h, List.forall_mem_cons.mpr ⟨hseparator, htail⟩⟩

namespace Expr

/-- What holds of both parentheses and of the tokens between them holds of all. -/
theorem forall_mem_atPlace (required level : Nat) {ts : List Token} {p : Token → Prop}
    (hleft : p .leftParenthesis) (hright : p .rightParenthesis) (h : ∀ t ∈ ts, p t) :
    ∀ t ∈ atPlace required level ts, p t := by
  unfold atPlace
  split
  · simpa [or_imp, forall_and, hleft, hright] using h
  · exact h

/-- Parentheses are plain. -/
theorem plain_atPlace (required level : Nat) {ts : List Token} (h : ∀ t ∈ ts, t.Plain) :
    ∀ t ∈ atPlace required level ts, t.Plain :=
  forall_mem_atPlace required level trivial trivial h

mutual

/-- A well-formed expression is written with plain tokens. -/
theorem plain_of_written : (e : Expr) → (ts : List Token) → e.WellFormed → e.Written ts →
    ∀ t ∈ ts, t.Plain
  | literal (.number x), ts, _, h => by
    rw [Written] at h
    obtain ⟨s, -, rfl⟩ := h
    simp [Token.Plain]
  | literal (.text s), ts, he, h => by
    rw [Written] at h
    rw [WellFormed] at he
    simpa [h, Token.Plain] using he
  | scalar n, ts, he, h => by
    rw [Written] at h
    rw [WellFormed] at he
    simpa [h, Token.Plain] using he
  | element n es, ts, he, h => by
    rw [Written] at h
    rw [WellFormed] at he
    obtain ⟨us, hus, rfl⟩ := h
    simpa [Token.Plain, he.1] using plain_of_writtenAll es us he.2.2 hus
  | unary op e, ts, he, h => by
    rw [Written] at h
    rw [WellFormed] at he
    obtain ⟨us, hus, rfl⟩ := h
    have hoperand := plain_atPlace op.level e.level (plain_of_written e us he hus)
    simpa [Token.Plain] using hoperand
  | binary op l r, ts, he, h => by
    rw [Written] at h
    rw [WellFormed] at he
    obtain ⟨us, vs, hus, hvs, rfl⟩ := h
    have hleft := plain_atPlace op.level l.level (plain_of_written l us he.1 hus)
    have hright := plain_atPlace (op.level + 1) r.level (plain_of_written r vs he.2 hvs)
    exact List.forall_mem_append.mpr ⟨hleft, List.forall_mem_cons.mpr ⟨trivial, hright⟩⟩
  | comparison rel l r, ts, he, h => by
    rw [Written] at h
    rw [WellFormed] at he
    obtain ⟨us, vs, hus, hvs, rfl⟩ := h
    have hleft := plain_atPlace 4 l.level (plain_of_written l us he.1 hus)
    have hright := plain_atPlace 5 r.level (plain_of_written r vs he.2 hvs)
    exact List.forall_mem_append.mpr ⟨hleft, List.forall_mem_cons.mpr ⟨trivial, hright⟩⟩
  | call (.builtin f) es, ts, he, h => by
    rw [Written] at h
    rw [WellFormed] at he
    obtain ⟨us, hus, rfl⟩ := h
    simpa [Token.Plain] using plain_of_writtenAll es us he.2 hus
  | call (.user f) es, ts, he, h => by
    rw [Written] at h
    rw [WellFormed] at he
    obtain ⟨n, us, rfl, hus, rfl⟩ := h
    obtain ⟨⟨n', hn, hplain⟩, -, hes⟩ := he
    obtain rfl := Name.eq_of_function_eq hn
    simpa [Token.Plain, hplain] using plain_of_writtenAll es us hes hus

/-- So are the tokens of arguments. -/
theorem plain_of_writtenAll : (es : List Expr) → (ts : List Token) → WellFormedAll es →
    WrittenAll es ts → ∀ t ∈ ts, t.Plain
  | [], ts, _, h => by
    rw [WrittenAll] at h
    cases h
  | [e], ts, hes, h => by
    rw [WrittenAll] at h
    rw [WellFormedAll] at hes
    obtain ⟨us, hus, rfl⟩ := h
    exact List.forall_mem_append.mpr ⟨plain_of_written e us hes.1 hus, by simp [Token.Plain]⟩
  | e :: e' :: es, ts, hes, h => by
    rw [WrittenAll] at h
    rw [WellFormedAll] at hes
    obtain ⟨us, vs, hus, hvs, rfl⟩ := h
    have htail := plain_of_writtenAll (e' :: es) vs hes.2 hvs
    exact List.forall_mem_append.mpr
      ⟨plain_of_written e us hes.1 hus, List.forall_mem_cons.mpr ⟨trivial, htail⟩⟩

end

/-- The tokens of an expression are plain. -/
theorem Written.plain {e : Expr} {ts : List Token} (h : e.Written ts) (he : e.WellFormed) :
    ∀ t ∈ ts, t.Plain :=
  plain_of_written e ts he h

end Expr

/-- So are those of a target. -/
theorem Target.Written.plain {t : Target} {ts : List Token} (h : t.Written ts) (ht : t.WellFormed) :
    ∀ u ∈ ts, u.Plain := by
  cases t with
  | scalar n =>
    rw [Target.Written] at h
    rw [Target.WellFormed] at ht
    simpa [h, Token.Plain] using ht
  | element n es =>
    rw [Target.Written] at h
    rw [Target.WellFormed] at ht
    obtain ⟨us, hus, rfl⟩ := h
    simpa [Token.Plain, ht.1] using Expr.plain_of_writtenAll es us ht.2.2 hus

/-- So are those of targets with commas between them. -/
theorem Target.plain_joined {targets : List Target} {ts : List Token}
    (h : Joined Target.Written .comma targets ts) (hs : ∀ t ∈ targets, t.WellFormed) :
    ∀ u ∈ ts, u.Plain :=
  h.forall_mem trivial fun t ht _ hus => hus.plain (hs t ht)

/-- So are those of line numbers. -/
theorem LineNumber.plain_joined {lines : List LineNumber} {ts : List Token}
    (h : Joined (fun n ts => ts = [LineNumber.token n]) .comma lines ts) : ∀ t ∈ ts, t.Plain := by
  refine h.forall_mem trivial ?_
  rintro n - us rfl t ht
  cases List.mem_singleton.mp ht
  trivial

/-- So are those of what is printed. -/
theorem Printed.plain {es : List Expr} {newline : Bool} {ts : List Token}
    (h : Printed es newline ts) (hes : ∀ e ∈ es, e.WellFormed) : ∀ t ∈ ts, t.Plain := by
  have hseparator {t : Token} (ht : Separator t) : t.Plain := by
    cases ht <;> trivial
  induction h with
  | closed => simp
  | opened ht => simpa using hseparator ht
  | cons ht he _ ih =>
    have hitem := he.plain (hes _ List.mem_cons_self)
    have htail := ih fun e he => hes e (List.mem_cons_of_mem _ he)
    exact List.forall_mem_cons.mpr ⟨hseparator ht, List.forall_mem_append.mpr ⟨hitem, htail⟩⟩

/-- The tokens of a well-formed statement can be listed; nothing may follow a REM. -/
theorem Statement.Written.listable {s : Statement} {ts : List Token} (h : s.Written ts)
    (hs : s.WellFormed) : Token.Listable (s.stripIfs = .remark) ts := by
  have hoptional (line : Option LineNumber) :
      ∀ t ∈ (line.map LineNumber.token).toList, t.Plain := by
    cases line <;> simp [LineNumber.token, Token.Plain]
  have hjump (j : Jump) : j.word ≠ .DATA ∧ j.word ≠ .REM := by
    cases j <;> simp [Jump.word]
  have hprint {word : Keyword} (hword : word = .PRINT ∨ word = .QUESTION) :
      word ≠ .DATA ∧ word ≠ .REM := by
    rcases hword with rfl | rfl <;> simp
  have hkeyword {k : Keyword} {us : List Token} {final : Prop} (hk : k ≠ .DATA ∧ k ≠ .REM)
      (hus : ∀ t ∈ us, t.Plain) : Token.Listable final (.keyword k :: us) :=
    .of_plain (List.forall_mem_cons.mpr ⟨hk, hus⟩)
  have hassign {t : Target} {e : Expr} {us vs : List Token} {final : Prop} (ht : t.Written us)
      (he : e.Written vs) (hs : t.WellFormed ∧ e.WellFormed) :
      Token.Listable final (us ++ .operator .equal :: vs) :=
    .append (ht.plain hs.1) (.of_plain (List.forall_mem_cons.mpr ⟨trivial, he.plain hs.2⟩))
  induction h with
  | assign ht he => exact hassign ht he hs
  | letAssign ht he => exact .cons (by simp [Token.Plain]) (hassign ht he hs)
  | data h => exact .data h hs.1
  | define he =>
    obtain ⟨⟨n, hn, hf, -⟩, hparameter, -, hbody⟩ := hs
    obtain rfl := Name.eq_of_function_eq hn
    exact hkeyword (by simp) (by simpa [Token.Plain, hf, hparameter] using he.plain hbody)
  | dimension h =>
    exact hkeyword (by simp) (Target.plain_joined h (List.forall_mem_map.mpr hs.2))
  | loop hstart hlimit =>
    obtain ⟨hcounter, -, hs, hl, -⟩ := hs
    exact hkeyword (by simp) (by
      simpa [Token.Plain, hcounter, or_imp, forall_and] using ⟨hstart.plain hs, hlimit.plain hl⟩)
  | loopStep hstart hlimit hstep =>
    obtain ⟨hcounter, -, hs, hl, hstep'⟩ := hs
    exact hkeyword (by simp) (by
      simpa [Token.Plain, hcounter, or_imp, forall_and] using
        ⟨hstart.plain hs, hlimit.plain hl, hstep.plain (hstep' _ rfl)⟩)
  | jump j n => exact hkeyword (hjump j) (by simp [LineNumber.token, Token.Plain])
  | goTo n => exact hkeyword (by simp) (by simp [LineNumber.token, Token.Plain])
  | ifThen hc _ ih =>
    exact .cons (by simp [Token.Plain])
      (.append (hc.plain hs.1) (.cons (by simp [Token.Plain]) (ih hs.2)))
  | ifThenLine hc n | ifGoto hc n =>
    exact hkeyword (by simp) (List.forall_mem_append.mpr
      ⟨hc.plain hs.1, by simp [LineNumber.token, Token.Plain]⟩)
  | input h => exact hkeyword (by simp) (Target.plain_joined h hs.2.2)
  | inputPrompt h =>
    have hprompt : (Token.quoted _).Plain := hs.1 _ rfl
    exact hkeyword (by simp)
      (by simpa [Token.Plain] using ⟨hprompt, Target.plain_joined h hs.2.2⟩)
  | read h => exact hkeyword (by simp) (Target.plain_joined h hs.2)
  | nextCounter n => exact hkeyword (by simp) (by simpa [Token.Plain] using hs n rfl)
  | on j he h =>
    exact hkeyword (by simp) (List.forall_mem_append.mpr
      ⟨he.plain hs.1, List.forall_mem_cons.mpr ⟨hjump j, LineNumber.plain_joined h⟩⟩)
  | printNothing hword h => exact hkeyword (hprint hword) (h.plain (by simp))
  | print hword he h =>
    have hitem := he.plain (hs _ List.mem_cons_self)
    have htail := h.plain fun e he => hs e (List.mem_cons_of_mem _ he)
    exact hkeyword (hprint hword) (List.forall_mem_append.mpr ⟨hitem, htail⟩)
  | remark => exact .remark rfl
  | remarkText hw => exact .remarkText rfl hw
  | restore line | run line => exact hkeyword (by simp) (hoptional line)
  | finish | next | comeBack | stop => exact hkeyword (by simp) (by simp)

/-! ## There is a form with words -/

/-- The token has a word. -/
def Token.Spellable (t : Token) : Prop := ∃ w, t.Word w

/-- Apart from numerals and the texts of DATA and REM, all tokens do. -/
@[simp]
theorem Token.spellable_of_ne {t : Token} (hnumeral : ∀ s, t ≠ numeral s)
    (hunknown : ∀ s, t ≠ unknown s) : t.Spellable := by
  cases t with
  | numeral s => exact absurd rfl (hnumeral s)
  | unknown s => exact absurd rfl (hunknown s)
  | _ => exact ⟨_, rfl⟩

/-- A line number is a numeral. -/
theorem LineNumber.isNumeral_toString (n : LineNumber) : Token.IsNumeral (toString n).toList :=
  (spelled_toString n).isNumeral

/-- It has no letters to be made capital. -/
theorem LineNumber.capitals_toString (n : LineNumber) :
    Token.capitals (toString n).toList = toString n := by
  have hupper : (toString n).toList.map Char.toUpper = (toString n).toList.map id := by
    apply List.map_congr_left
    intro c hc
    have hc := isDigit_of_mem_toString hc
    delta Char.toUpper
    simp [Char.isDigit, UInt32.le_iff_toNat_le] at hc ⊢
    omega
  rw [Token.capitals, hupper, List.map_id, String.ofList_toList]

/-- It is spelled in digits. -/
@[simp]
theorem LineNumber.spellable_token (n : LineNumber) : n.token.Spellable :=
  ⟨(toString n).toList, isNumeral_toString n, capitals_toString n⟩

/-- Among the forms is one whose tokens all have words. -/
def HasWords (form : List Token → Prop) : Prop := ∃ ts, form ts ∧ ∀ t ∈ ts, t.Spellable

/-- What is written with separators has words if its parts have. -/
theorem Joined.hasWords {α : Type} {written : α → List Token → Prop} {separator : Token}
    (hseparator : separator.Spellable) {as : List α} (h : ∀ a ∈ as, HasWords (written a)) :
    HasWords (Joined written separator as) := by
  induction as with
  | nil => exact ⟨[], .nil, by simp⟩
  | cons a as ih =>
    obtain ⟨us, hus, hwords⟩ := h a List.mem_cons_self
    obtain ⟨vs, hvs, htail⟩ := ih fun b hb => h b (List.mem_cons_of_mem a hb)
    cases as with
    | nil => exact ⟨us, .single hus, hwords⟩
    | cons b as =>
      exact ⟨us ++ separator :: vs, .cons hus hvs, List.forall_mem_append.mpr
        ⟨hwords, List.forall_mem_cons.mpr ⟨hseparator, htail⟩⟩⟩

namespace Expr

/-- Parentheses can be spelled. -/
theorem spellable_atPlace (required level : Nat) {ts : List Token} (h : ∀ t ∈ ts, t.Spellable) :
    ∀ t ∈ atPlace required level ts, t.Spellable :=
  forall_mem_atPlace required level (by simp) (by simp) h

mutual

/-- A well-formed expression can be written with tokens that have words. -/
theorem hasWords : (e : Expr) → e.WellFormed → HasWords e.Written
  | literal (.number x), he => by
    rw [WellFormed] at he
    obtain ⟨w, hw, hvalue⟩ := he
    refine ⟨[.numeral (Token.capitals w)], ?_, by simpa using ⟨w, hw, rfl⟩⟩
    rw [Written]
    exact ⟨_, hvalue, rfl⟩
  | literal (.text s), _ => by
    refine ⟨[.quoted s], ?_, by simp⟩
    rw [Written]
  | scalar n, _ => by
    refine ⟨[.name n], ?_, by simp⟩
    rw [Written]
  | element n es, he => by
    rw [WellFormed] at he
    obtain ⟨us, hus, hwords⟩ := hasWords_all es he.2.1 he.2.2
    refine ⟨.name n :: .leftParenthesis :: us, ?_, by simpa using hwords⟩
    rw [Written]
    exact ⟨us, hus, rfl⟩
  | unary op e, he => by
    rw [WellFormed] at he
    obtain ⟨us, hus, hwords⟩ := hasWords e he
    have hoperand := spellable_atPlace op.level e.level hwords
    refine ⟨.operator op.token :: atPlace op.level e.level us, ?_, by simpa using hoperand⟩
    rw [Written]
    exact ⟨us, hus, rfl⟩
  | binary op l r, he => by
    rw [WellFormed] at he
    obtain ⟨us, hus, hl⟩ := hasWords l he.1
    obtain ⟨vs, hvs, hr⟩ := hasWords r he.2
    have hleft := spellable_atPlace op.level l.level hl
    have hright := spellable_atPlace (op.level + 1) r.level hr
    refine ⟨atPlace op.level l.level us ++ .operator op.token :: atPlace (op.level + 1) r.level vs,
      ?_, List.forall_mem_append.mpr ⟨hleft, by simpa using hright⟩⟩
    rw [Written]
    exact ⟨us, vs, hus, hvs, rfl⟩
  | comparison rel l r, he => by
    rw [WellFormed] at he
    obtain ⟨us, hus, hl⟩ := hasWords l he.1
    obtain ⟨vs, hvs, hr⟩ := hasWords r he.2
    have hleft := spellable_atPlace 4 l.level hl
    have hright := spellable_atPlace 5 r.level hr
    refine ⟨atPlace 4 l.level us ++ .operator rel.token :: atPlace 5 r.level vs,
      ?_, List.forall_mem_append.mpr ⟨hleft, by simpa using hright⟩⟩
    rw [Written]
    exact ⟨us, vs, hus, hvs, rfl⟩
  | call (.builtin f) es, he => by
    rw [WellFormed] at he
    obtain ⟨us, hus, hwords⟩ := hasWords_all es he.1 he.2
    refine ⟨.builtin f :: .leftParenthesis :: us, ?_, by simpa using hwords⟩
    rw [Written]
    exact ⟨us, hus, rfl⟩
  | call (.user f) es, he => by
    rw [WellFormed] at he
    obtain ⟨⟨n, hn, -⟩, hne, hes⟩ := he
    obtain ⟨us, hus, hwords⟩ := hasWords_all es hne hes
    refine ⟨.keyword .FN :: .name n :: .leftParenthesis :: us, ?_, by simpa using hwords⟩
    rw [Written]
    exact ⟨n, us, hn, hus, rfl⟩

/-- Arguments have words. -/
theorem hasWords_all : (es : List Expr) → es ≠ [] → WellFormedAll es → HasWords (WrittenAll es)
  | [], hne, _ => absurd rfl hne
  | [e], _, hes => by
    rw [WellFormedAll] at hes
    obtain ⟨us, hus, hwords⟩ := hasWords e hes.1
    refine ⟨us ++ [.rightParenthesis], ?_, List.forall_mem_append.mpr ⟨hwords, by simp⟩⟩
    rw [WrittenAll]
    exact ⟨us, hus, rfl⟩
  | e :: e' :: es, _, hes => by
    rw [WellFormedAll] at hes
    obtain ⟨us, hus, hwords⟩ := hasWords e hes.1
    obtain ⟨vs, hvs, htail⟩ := hasWords_all (e' :: es) (by simp) hes.2
    refine ⟨us ++ .comma :: vs, ?_, List.forall_mem_append.mpr ⟨hwords, by simpa using htail⟩⟩
    rw [WrittenAll]
    exact ⟨us, vs, hus, hvs, rfl⟩

end

end Expr

/-- A target has words. -/
theorem Target.hasWords {t : Target} (ht : t.WellFormed) : HasWords t.Written := by
  cases t with
  | scalar n =>
    refine ⟨[.name n], ?_, by simp⟩
    rw [Target.Written]
  | element n es =>
    rw [Target.WellFormed] at ht
    obtain ⟨us, hus, hwords⟩ := Expr.hasWords_all es ht.2.1 ht.2.2
    refine ⟨.name n :: .leftParenthesis :: us, ?_, by simpa using hwords⟩
    rw [Target.Written]
    exact ⟨us, hus, rfl⟩

/-- So have targets with commas between them. -/
theorem Target.hasWords_joined {targets : List Target} (h : ∀ t ∈ targets, t.WellFormed) :
    HasWords (Joined Target.Written .comma targets) :=
  Joined.hasWords (by simp) fun t ht => Target.hasWords (h t ht)

/-- So have line numbers. -/
theorem LineNumber.hasWords_joined (lines : List LineNumber) :
    HasWords (Joined (fun n ts => ts = [LineNumber.token n]) .comma lines) :=
  Joined.hasWords (by simp) fun n _ => ⟨[n.token], rfl, by simp⟩

/-- So has what is printed. -/
theorem Printed.hasWords {es : List Expr} (hes : ∀ e ∈ es, e.WellFormed) (newline : Bool) :
    HasWords (Printed es newline) := by
  induction es with
  | nil =>
    cases newline with
    | true => exact ⟨[], .closed, by simp⟩
    | false => exact ⟨[.semicolon], .opened .semicolon, by simp⟩
  | cons e es ih =>
    obtain ⟨us, hus, hwords⟩ := e.hasWords (hes e List.mem_cons_self)
    obtain ⟨vs, hvs, htail⟩ := ih fun e he => hes e (List.mem_cons_of_mem _ he)
    refine ⟨.semicolon :: (us ++ vs), .cons .semicolon hus hvs, ?_⟩
    exact List.forall_mem_cons.mpr ⟨by simp, List.forall_mem_append.mpr ⟨hwords, htail⟩⟩

/-- A well-formed constant can be written in DATA. -/
theorem Value.exists_spelled {v : Value} (hv : v.WellFormed) : ∃ w, v.Spelled w := by
  cases v with
  | number x =>
    obtain ⟨w, hw⟩ := hv
    exact ⟨w, .number hw⟩
  | text s => exact ⟨_, .quoted hv⟩

/-- A well-formed statement can be written with tokens that have words. -/
theorem Statement.hasWords {s : Statement} (hs : s.WellFormed) : HasWords s.Written := by
  induction s with
  | assign t e =>
    obtain ⟨us, hus, ht⟩ := Target.hasWords hs.1
    obtain ⟨vs, hvs, he⟩ := e.hasWords hs.2
    exact ⟨_, .assign hus hvs, List.forall_mem_append.mpr ⟨ht, by simpa using he⟩⟩
  | data items =>
    obtain ⟨w, hw⟩ := exists_joined ',' fun v hv => Value.exists_spelled (hs.2 v hv)
    have htext : (Token.unknown (String.ofList (' ' :: w))).Spellable := ⟨w, rfl⟩
    exact ⟨_, .data hw, List.forall_mem_cons.mpr ⟨by simp, List.forall_mem_singleton.mpr htext⟩⟩
  | define f parameter body =>
    obtain ⟨⟨n, rfl, -⟩, -, -, hbody⟩ := hs
    obtain ⟨us, hus, hwords⟩ := body.hasWords hbody
    exact ⟨_, .define hus, by simpa using hwords⟩
  | dimension arrays =>
    obtain ⟨us, hus, hwords⟩ := Target.hasWords_joined (List.forall_mem_map.mpr hs.2)
    exact ⟨_, .dimension hus, by simpa using hwords⟩
  | loop counter start limit step =>
    obtain ⟨-, -, hstart, hlimit, hstep⟩ := hs
    obtain ⟨us, hus, hfrom⟩ := start.hasWords hstart
    obtain ⟨vs, hvs, hto⟩ := limit.hasWords hlimit
    cases step with
    | none =>
      exact ⟨_, .loop hus hvs, by simpa [or_imp, forall_and] using ⟨hfrom, hto⟩⟩
    | some step =>
      obtain ⟨ws, hws, hby⟩ := step.hasWords (hstep step rfl)
      exact ⟨_, .loopStep hus hvs hws, by simpa [or_imp, forall_and] using ⟨hfrom, hto, hby⟩⟩
  | jump j n => exact ⟨_, .jump j n, by simp⟩
  | ifThen condition s ih =>
    obtain ⟨us, hus, hcondition⟩ := condition.hasWords hs.1
    obtain ⟨vs, hvs, hconsequent⟩ := ih hs.2
    exact ⟨_, .ifThen hus hvs, by simpa [or_imp, forall_and] using ⟨hcondition, hconsequent⟩⟩
  | input prompt targets =>
    obtain ⟨us, hus, hwords⟩ := Target.hasWords_joined hs.2.2
    cases prompt with
    | none => exact ⟨_, .input hus, by simpa using hwords⟩
    | some prompt => exact ⟨_, .inputPrompt hus, by simpa using hwords⟩
  | next counter =>
    cases counter with
    | none => exact ⟨_, .next, by simp⟩
    | some n => exact ⟨_, .nextCounter n, by simp⟩
  | on selector j lines =>
    obtain ⟨us, hus, hselector⟩ := selector.hasWords hs.1
    obtain ⟨vs, hvs, hlines⟩ := LineNumber.hasWords_joined lines
    exact ⟨_, .on j hus hvs, by simpa [or_imp, forall_and] using ⟨hselector, hlines⟩⟩
  | print items newline =>
    cases items with
    | nil =>
      obtain ⟨us, hus, hwords⟩ := Printed.hasWords hs newline
      exact ⟨_, .printNothing (.inl rfl) hus, by simpa using hwords⟩
    | cons e es =>
      obtain ⟨us, hus, hitem⟩ := e.hasWords (hs e List.mem_cons_self)
      obtain ⟨vs, hvs, htail⟩ := Printed.hasWords
        (fun e he => hs e (List.mem_cons_of_mem _ he)) newline
      exact ⟨_, .print (.inl rfl) hus hvs, by simpa [or_imp, forall_and] using ⟨hitem, htail⟩⟩
  | read targets =>
    obtain ⟨us, hus, hwords⟩ := Target.hasWords_joined hs.2
    exact ⟨_, .read hus, by simpa using hwords⟩
  | restore line => exact ⟨_, .restore line, by simp⟩
  | run line => exact ⟨_, .run line, by simp⟩
  | finish => exact ⟨_, .finish, by simp⟩
  | remark => exact ⟨_, .remark, by simp⟩
  | comeBack => exact ⟨_, .comeBack, by simp⟩
  | stop => exact ⟨_, .stop, by simp⟩

/-! ## Lines -/

/-- The characters list the statement. -/
def Statement.Listed (s : Statement) (cs : List Char) : Prop :=
  ∃ ts, s.Written ts ∧ Joined Token.Word ' ' ts cs

namespace Line

/-- The text lists the line: its number, a blank and its statements with colons between them. -/
def Listed (l : Line) (text : String) : Prop :=
  ∃ cs, Joined Statement.Listed ':' l.statements cs ∧
    text = String.ofList ((toString l.number).toList ++ ' ' :: cs)

/-- The line can be listed: its number is in the range, its statements can be listed, and REM only
stands at its end. -/
structure WellFormed (l : Line) : Prop where
  number : l.number ≤ LineNumber.greatest
  statements : ∀ s ∈ l.statements, s.WellFormed
  remark : ∀ s ∈ l.statements.dropLast, s.stripIfs ≠ .remark

end Line

/-- A well-formed statement can be listed. -/
theorem Statement.exists_listed {s : Statement} (hs : s.WellFormed) : ∃ cs, s.Listed cs := by
  obtain ⟨ts, hts, hwords⟩ := Statement.hasWords hs
  obtain ⟨cs, hcs⟩ := exists_joined ' ' hwords
  exact ⟨cs, ts, hts, hcs⟩

/-- A listed statement stands on one line. -/
theorem Statement.Listed.unbroken {s : Statement} {cs : List Char} (h : s.Listed cs)
    (hs : s.WellFormed) : Unbroken cs := by
  obtain ⟨ts, hts, hcs⟩ := h
  exact hcs.unbroken rfl (hts.listable hs).unbroken

/-- The listing of statements is scanned as a form of them. -/
theorem Statement.written_lex {statements : List Statement} {cs : List Char}
    (h : Joined Listed ':' statements cs) (hs : ∀ s ∈ statements, s.WellFormed)
    (hremark : ∀ s ∈ statements.dropLast, s.stripIfs ≠ .remark) :
    Joined Written .colon statements (Token.lex cs) := by
  induction h with
  | nil =>
    rw [Token.lex_nil]
    exact .nil
  | @single s cs h =>
    obtain ⟨ts, hts, hcs⟩ := h
    have hlex : Token.lex (cs ++ []) = ts ++ Token.lex [] :=
      Token.lex_listable (hts.listable (hs _ List.mem_cons_self)) hcs (by simp) fun _ => rfl
    rw [List.append_nil, Token.lex_nil, List.append_nil] at hlex
    exact .single (hlex ▸ hts)
  | @cons s s' ss us vs h _ ih =>
    obtain ⟨ts, hts, hcs⟩ := h
    have hlex : Token.lex (us ++ ':' :: vs) = ts ++ Token.lex (':' :: vs) :=
      Token.lex_listable (hts.listable (hs _ List.mem_cons_self)) hcs (by simp)
        fun hr => absurd hr (hremark s (by simp))
    rw [hlex, Token.lex_colon]
    exact .cons hts (ih (fun s hmem => hs s (List.mem_cons_of_mem _ hmem))
      fun s hmem => hremark s (by simp [hmem]))

/-- The number in front of a line is found. -/
theorem Token.splitNumber_toString_append {n : LineNumber} (hn : n ≤ LineNumber.greatest)
    {rest : List Char} (hrest : ∀ c, rest.head? = some c → c.isDigit = false) :
    splitNumber ((toString n).toList ++ rest) = (some n, rest) := by
  have hdigits (c : Char) (hc : c ∈ (toString n).toList) : c.isDigit = true :=
    LineNumber.isDigit_of_mem_toString hc
  have htrim : trimStart ((toString n).toList ++ rest) = (toString n).toList ++ rest := by
    cases hlist : (toString n).toList with
    | nil => exact absurd hlist (LineNumber.toList_toString_ne_nil n)
    | cons c ds =>
      have hc := hdigits c (hlist ▸ List.mem_cons_self)
      have hwhite := (Number.kind_of_isNumeric (Number.isNumeric_of_isDigit hc)).1
      rw [trimStart, List.cons_append, List.dropWhile_cons_of_neg (by simp [hwhite])]
  have hstop : rest.takeWhile Char.isDigit = [] := by
    cases rest with
    | nil => rfl
    | cons c rest => rw [List.takeWhile_cons_of_neg (by simp [hrest c rfl])]
  have htake : ((toString n).toList ++ rest).takeWhile Char.isDigit = (toString n).toList := by
    rw [List.takeWhile_append_of_pos hdigits, hstop, List.append_nil]
  have hne : (toString n).toList.isEmpty = false :=
    List.isEmpty_eq_false_iff.mpr (LineNumber.toList_toString_ne_nil n)
  rw [splitNumber, htrim, htake, LineNumber.ofDigits_toString, List.drop_left, hne]
  simp [hn]

/-- The number of a line is split from what follows the blank. -/
theorem Token.splitNumber_toString {n : LineNumber} (hn : n ≤ LineNumber.greatest)
    (cs : List Char) : splitNumber ((toString n).toList ++ ' ' :: cs) = (some n, ' ' :: cs) :=
  splitNumber_toString_append hn fun _ hc => by cases hc; rfl

/-- Statements are read off the words of a line, whatever blanks stand between them. -/
theorem Statement.parseAll_trimBlanks (cs : List Char) :
    parseAll (Token.trimBlanks (Token.scan cs)) =
      parseParts ((Token.lex cs).length + 1) (Token.lex cs) := by
  rw [parseAll, Token.filter_trimBlanks]
  rfl

/-- A well-formed line has a listing, and every listing of it is read back as the line. -/
theorem Line.parse_listing {l : Line} (hl : l.WellFormed) :
    (∃ text, l.Listed text) ∧ ∀ text, l.Listed text → Line.parse text = .ok l := by
  constructor
  · obtain ⟨cs, hcs⟩ := exists_joined ':' fun s hs => Statement.exists_listed (hl.statements s hs)
    exact ⟨_, cs, hcs, rfl⟩
  · rintro text ⟨cs, hcs, rfl⟩
    have hunbroken : Unbroken cs :=
      hcs.unbroken rfl fun s hs _ h => h.unbroken (hl.statements s hs)
    have hparse : Statement.parseAll (Token.trimBlanks (Token.scan (' ' :: cs))) =
        .ok l.statements := by
      rw [Statement.parseAll_trimBlanks, Token.lex_blank]
      exact Statement.parseParts_joined (Statement.written_lex hcs hl.statements hl.remark)
        hl.statements hl.remark _ (Nat.lt_succ_self _)
    rw [Line.parse, Statement.parseText, String.toList_ofList, Token.scanLine,
      dropEndWhile_of_unbroken (unbroken_append_cons rfl hunbroken _),
      Token.splitNumber_toString hl.number]
    dsimp only
    rw [hparse]
    rfl

/-- DATA with a colon in quotation marks under two IFs, then an empty PRINT and a remark. The first
condition is a name that begins like END. -/
def Line.underConditions : Line where
  number := 63999
  statements :=
    [.ifThen (.scalar "EN")
        (.ifThen (.unary .complement (.binary .disjoin (.scalar "B") (.scalar "C")))
          (.data [.text "1:2", .number 2])),
      .print [] true,
      .remark]

/-- The line is listed with a text behind REM, and this listing is read back. -/
theorem Line.parse_listing_underConditions :
    underConditions.WellFormed ∧
      Line.parse "63999 IF EN THEN IF NOT ( B OR C ) THEN DATA \"1:2\",2:PRINT:REM :-)" =
        .ok underConditions := by
  have hnumber : Number.readFinite? ['2'] = some 2 := rfl
  have hwell : underConditions.WellFormed := by
    constructor
    · decide
    · have hname : Name.isPlain "EN" = true ∧ Name.isPlain "B" = true ∧ Name.isPlain "C" = true := by
        decide +kernel
      have hvalue : ∃ w, Number.readFinite? w = some 2 := ⟨_, hnumber⟩
      simp [underConditions, Statement.WellFormed, Expr.WellFormed, Value.WellFormed, hname, hvalue,
        quotationMark]
    · simp [underConditions, Statement.stripIfs]
  have hcondition : (Expr.scalar "EN").Written [.name "EN"] := by rw [Expr.Written]
  have hnot : (Expr.unary .complement (.binary .disjoin (.scalar "B") (.scalar "C"))).Written
      [.operator .not, .leftParenthesis, .name "B", .operator .or, .name "C", .rightParenthesis] := by
    simp [Expr.Written, Expr.atPlace, Expr.level, UnaryOp.level, UnaryOp.token, BinaryOp.level,
      BinaryOp.token]
  have htext : Value.Spelled (.text "1:2") "\"1:2\"".toList := .quoted (by decide)
  have hdata : Joined Value.Spelled ',' [.text "1:2", .number 2] ("\"1:2\"".toList ++ ',' :: ['2']) :=
    .cons htext (.single (.number hnumber))
  have hremark : ∀ c ∈ ":-)".toList, isLineEnd c = false := by simp [isLineEnd]
  have hlisted : underConditions.Listed
      "63999 IF EN THEN IF NOT ( B OR C ) THEN DATA \"1:2\",2:PRINT:REM :-)" :=
    ⟨_, .cons ⟨_, .ifThen hcondition (.ifThen hnot (.data hdata)),
          .cons rfl <| .cons rfl <| .cons rfl <| .cons rfl <| .cons rfl <| .cons rfl <| .cons rfl <|
            .cons rfl <| .cons rfl <| .cons rfl <| .cons rfl <| .cons rfl <| .single rfl⟩ <|
        .cons ⟨_, .printNothing (.inl rfl) .closed, .single rfl⟩ <|
          .single ⟨_, .remarkText hremark, .cons rfl <| .single rfl⟩,
      by decide⟩
  exact ⟨hwell, (parse_listing hwell).2 _ hlisted⟩

end CommodoreBasic
