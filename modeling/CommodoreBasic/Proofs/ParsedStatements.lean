import CommodoreBasic.Proofs.FiniteConstants
import CommodoreBasic.Proofs.ScannedWords
import CommodoreBasic.Statement.Input

/-!
# Parsed statements

What is known of a statement that has been read: the items of DATA are the constants of its fields, the
targets of DIM are arrays, and the targets of INPUT have names from the line. The names of a line are
identifiers. So a name ends in `$` exactly if the name that stands for its variable does, and a field
that is read for a target has the type of the target.
-/

namespace CommodoreBasic

/-! ## Names -/

namespace Token

/-- The names of a line are identifiers. -/
theorem isIdentifier_of_mem_ofLine {cs : List Char} {n : Name} (h : .name n ∈ ofLine cs) :
    n.isIdentifier = true := by
  rw [ofLine, scanLine, filter_trimBlanks] at h
  have hplain := isPlain_of_mem_scan (List.mem_filter.mp h).1
  rw [Name.isPlain, Bool.and_eq_true, Bool.and_eq_true] at hplain
  exact hplain.1.1

end Token

/-! ## Where statements come from -/

/-- Targets have names that are among the tokens they are read from. -/
theorem Target.inherited_name (ts : List Token) :
    Inherited ts (fun _ => True) (fun t => .name t.name ∈ ts) fun _ => True where
  text _ := trivial
  numeral _ := trivial
  expr _ _ := trivial
  target hname _ := hname
  statement _ _ _ _ := trivial

/-- Under its IFs a statement is read from the same tokens. -/
theorem Statement.inherited_readFrom (ts : List Token) :
    Inherited ts (fun _ => True) (fun _ => True) fun s => s.stripIfs.ReadFrom ts where
  text _ := trivial
  numeral _ := trivial
  expr _ _ := trivial
  target _ _ := trivial
  statement {s} hread _ _ hconsequent := by
    cases s with
    | ifThen condition s => exact hconsequent s rfl
    | _ => exact hread

/-- Where the statements of a line that has been read come from. -/
theorem Line.readFrom_parse {text : String} {line : Line} (h : Line.parse text = .ok line) :
    ∀ s ∈ line.statements, s.stripIfs.ReadFrom (Token.ofLine text.toList) := by
  have hparse := Line.parseAll_of_parse h
  exact (Statement.inherited_readFrom _).of_parseParts (Nat.le_succ _) hparse

/-- The targets of an INPUT that has been read have identifiers for names. -/
theorem Statement.isIdentifier_of_readFrom {cs : List Char} {prompt : Option String}
    {targets : List Target} (h : (input prompt targets).ReadFrom (Token.ofLine cs)) :
    ∀ t ∈ targets, t.name.isIdentifier = true := by
  obtain ⟨us, rest, hus, hparse⟩ := h
  have hnames := (Target.inherited_name us).of_targets hparse
  exact fun t ht => Token.isIdentifier_of_mem_ofLine (hus.mem (hnames t ht))

/-- Every line of a program that has been read is a line of its text. -/
theorem Program.exists_of_parse (source : String) :
    IfOk (fun p => ∀ line ∈ p.lines, ∃ cs ∈ splitLines source.toList,
      Line.parse (String.ofList cs) = .ok line) (Program.parse source) := by
  rw [Program.parse]
  refine IfOk.bind (IfOk.mapM _ fun cs hcs => .intro fun line hline => ?_)
    fun lines hlines => .pure hlines
  exact ⟨cs, (List.mem_filter.mp hcs).1, hline⟩

/-- Where the statements of a program that has been read come from. -/
theorem Program.readFrom_parse {source : String} {p : Program} (h : Program.parse source = .ok p) :
    ∀ line ∈ p.lines, ∃ cs ∈ splitLines source.toList, Line.parse (String.ofList cs) = .ok line ∧
      ∀ s ∈ line.statements, s.stripIfs.ReadFrom (Token.ofLine cs) := by
  intro line hline
  have hlines := exists_of_parse source
  rw [h] at hlines
  obtain ⟨cs, hcs, hparse⟩ := hlines line hline
  have hstatements := Line.readFrom_parse hparse
  rw [String.toList_ofList] at hstatements
  exact ⟨cs, hcs, hparse, hstatements⟩

/-! ## Fields for targets -/

namespace Field

/-- A field that suits a variable has its type, as the name that stands for it says. -/
theorem fits_valueFor? {f : Field} {n : Name} {v : Value} (hn : n.isIdentifier = true)
    (h : f.valueFor? n = some v) : v.fits n.fold = true := by
  rw [Value.fits, Name.isText_fold hn]
  unfold valueFor? at h
  split at h
  · next htext =>
    cases h
    rw [htext]
    rfl
  · next htext =>
    rw [Bool.not_eq_true] at htext
    rw [htext]
    dsimp only at h
    split at h
    · cases h
      rfl
    · obtain ⟨x, -, rfl⟩ := Option.map_eq_some_iff.mp h
      rfl

end Field

end CommodoreBasic
