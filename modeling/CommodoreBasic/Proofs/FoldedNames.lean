import CommodoreBasic.Proofs.Lockstep

/-!
# Folded names

A program whose names are all folded runs like the program itself. The two machines go in lockstep:
they differ in nothing but the spelling of variables in the program and in the functions it has
defined.
-/

namespace CommodoreBasic

namespace Machine

variable {ρ : Name → Name} {p : Program}

/-- The machines differ only in the spelling of variables, also in the functions they have defined. -/
def spelling (ρ : Name → Name) : Likeness where
  rename := ρ
  memory := Eq
  functions fs gs := ∀ f : String, Option.Rel UserFunction.Respelled fs[f]? gs[f]?

/-- Machines that differ in the spelling of names only are coupled lawfully. -/
theorem spelling_lawful (hρ : Name.Respelling ρ) : (spelling ρ).Lawful where
  respelling := hρ
  congruence := Memory.Congruence.eq
  lookup h := h
  define := by
    intro fs gs h f parameter body g
    rw [Std.HashMap.getElem?_insert, Std.HashMap.getElem?_insert]
    split
    · exact .some ⟨ρ, hρ, rfl⟩
    · exact h g
  undefined f := UserFunction.Respelled.rel_self _

/-- What can be told of a run from outside. -/
structure SameRun (a b : Progress) : Prop where
  result : a.result? = b.result?
  console : a.machine.console = b.machine.console
  steps : a.machine.steps = b.machine.steps
  memory : a.machine.memory = b.machine.memory

/-- Machines in step have come to the same. -/
theorem sameRun_of_inStep {a b : Progress} (h : Progress.Agree (InStep (spelling ρ) p) a b) :
    SameRun a b := by
  cases a <;> cases b
  case running.running =>
    obtain ⟨_, -, rfl, _, _, rfl, rfl, -⟩ := h
    exact ⟨rfl, rfl, rfl, rfl⟩
  case finished.finished =>
    obtain ⟨rfl, _, -, rfl, _, _, rfl, rfl, -⟩ := h
    exact ⟨rfl, rfl, rfl, rfl⟩
  all_goals cases h

/-- Renaming all variables of a program without touching their folded names and types cannot be told
from outside. -/
theorem execute_respelt (hρ : Name.Respelling ρ) (m : Machine) (p : Program) (turns : Nat) :
    SameRun (m.execute p turns) (m.execute (p.rename ρ) turns) := by
  have hload : InStep (spelling ρ) p (m.load p) (m.load (p.rename ρ)) := by
    refine ⟨_, rfl, rfl, m.memory, m.functions, ?_, rfl, fun f => ?_⟩
    · simp only [load, DataPool.ofProgram_rename]
      rfl
    · exact UserFunction.Respelled.rel_self m.functions[f]?
  exact sameRun_of_inStep (inStep_runFor (spelling_lawful hρ) turns hload)

end Machine

/-- The renaming that folds identifiers is a respelling. -/
theorem Name.respelling_fold : Name.Respelling fun n => if n.isIdentifier then n.fold else n := by
  intro n
  dsimp only
  split
  case isTrue hn => exact ⟨Name.fold_fold hn, Name.isText_fold hn⟩
  case isFalse => exact ⟨rfl, rfl⟩

/-- A program whose variables are identifiers runs like the program with their names folded: the same
result, events, steps and memory. -/
theorem Machine.execute_fold (m : Machine) (p : Program) (turns : Nat)
    (hnames : ∀ n ∈ p.names, n.isIdentifier = true) :
    SameRun (m.execute p turns) (m.execute (p.rename Name.fold) turns) := by
  have hrename : p.rename Name.fold = p.rename fun n => if n.isIdentifier then n.fold else n :=
    Program.rename_congr p fun n hn => (if_pos (hnames n hn)).symm
  rw [hrename]
  exact execute_respelt Name.respelling_fold m p turns

/-- A loop over one variable in four spellings, inside and outside a user function. -/
def mixedSpellings : Program where
  lines := [
    { number := 10
      statements := [
        .define "FNF" "PARAMETER" (.binary .add (.scalar "PAIR") (.scalar "COUNT")),
        .loop "COUNTER" (.literal (.number 1)) (.literal (.number 3)) none] },
    { number := 20
      statements := [
        .assign (.element "CO1$" [.scalar "COST"]) (.literal (.text "X")),
        .print [.call (.user "FNF") [.scalar "CO"]] true,
        .next (some "COLOUR")] }]

/-- A program in which one variable is spelled in two ways. -/
theorem Machine.execute_fold_mixedSpellings :
    (∀ n ∈ mixedSpellings.names, n.isIdentifier = true) ∧
      SameRun ((Machine.new {} 0 10).execute mixedSpellings 12)
        ((Machine.new {} 0 10).execute (mixedSpellings.rename Name.fold) 12) := by
  have hnames : ∀ n ∈ mixedSpellings.names, n.isIdentifier = true := by decide +kernel
  exact ⟨hnames, execute_fold (Machine.new {} 0 10) mixedSpellings 12 hnames⟩

end CommodoreBasic
