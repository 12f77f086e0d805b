import CommodoreBasic.Main
import CommodoreBasic.Statement.Nodes
import CommodoreBasic.Proofs.Coupling
import CommodoreBasic.Proofs.LoopStack
import CommodoreBasic.Proofs.Positions
import CommodoreBasic.Proofs.RunInvariant
import CommodoreBasic.Proofs.FoldedNames
import CommodoreBasic.Proofs.Blocks
import CommodoreBasic.Proofs.StructuredLoops
import CommodoreBasic.Proofs.MinimalParentheses
import CommodoreBasic.Proofs.Lockstep
import CommodoreBasic.Proofs.Inheritance
import CommodoreBasic.Proofs.StepLimit
import CommodoreBasic.Proofs.FreshStart
import CommodoreBasic.Proofs.Reachable
import CommodoreBasic.Proofs.EvaluationFrame
import CommodoreBasic.Proofs.DataText
import CommodoreBasic.Proofs.WrittenStatements
import CommodoreBasic.Proofs.ListedTokens
import CommodoreBasic.Proofs.Listing
import CommodoreBasic.Proofs.Termination
import CommodoreBasic.Proofs.TypedMemory
import CommodoreBasic.Proofs.FiniteConstants
import CommodoreBasic.Proofs.FiniteFloats
import CommodoreBasic.Proofs.FiniteNumbers
import CommodoreBasic.Proofs.Colons
import CommodoreBasic.Proofs.Subroutines
import CommodoreBasic.Proofs.StackLimit
import CommodoreBasic.Proofs.ArrayFallback
import CommodoreBasic.Proofs.ParsedStatements
import CommodoreBasic.Proofs.Consistency
import CommodoreBasic.Proofs.Powers
import CommodoreBasic.Proofs.DataReading
import CommodoreBasic.Proofs.Restoring
import CommodoreBasic.Proofs.InputRounds
import CommodoreBasic.Proofs.QuotedColons
import CommodoreBasic.Proofs.TokenSlices
import CommodoreBasic.Proofs.ScannedWords
import CommodoreBasic.Proofs.SpacedTokens
import CommodoreBasic.Proofs.ArrayCapacity
import CommodoreBasic.Proofs.StringSlices
import CommodoreBasic.Proofs.ClearedScreen
import CommodoreBasic.Proofs.NumberReaders
import CommodoreBasic.Proofs.VariableCapacity
import CommodoreBasic.Proofs.FailedJumps
import CommodoreBasic.Proofs.Interruption
import CommodoreBasic.Proofs.WholeFloats
import CommodoreBasic.Proofs.WholeLiterals
import CommodoreBasic.Proofs.CountedLoops
import CommodoreBasic.Proofs.Conditions
import CommodoreBasic.Proofs.PrintedNumbers
import CommodoreBasic.Proofs.ShortestDecimals
import CommodoreBasic.Proofs.ReadBack
import CommodoreBasic.Proofs.LongestSpellings
import CommodoreBasic.Proofs.RefusedNumerals
import CommodoreBasic.Proofs.ComparedReadings
import CommodoreBasic.Proofs.ComparedStatements
