import Forth.Cell
import Forth.CommandLine
import Forth.Dictionary
import Forth.Error
import Forth.File
import Forth.Heap
import Forth.Library
import Forth.Machine.Basic
import Forth.Machine.Boot
import Forth.Machine.Eval
import Forth.Machine.Fuel
import Forth.Machine.Primitives
import Forth.Machine.Run
import Forth.Main
import Forth.Numeral
import Forth.Options
import Forth.Primitive
import Forth.Proofs.Answers
import Forth.Proofs.Preservation
import Forth.Proofs.Recursion
import Forth.Proofs.SessionInvariant
import Forth.Repl
import Forth.Session
import Forth.Source
import Forth.Stack
import Forth.Proofs.Balance
import Forth.Proofs.CodeRules
import Forth.Proofs.Structured.Program
import Forth.Proofs.Structured.Execution
import Forth.Proofs.Reading
import Forth.Proofs.Structured.Compilation
import Forth.Proofs.Structured.Booted
import Forth.Proofs.Structured.Definition
import Forth.Proofs.Limits
import Forth.Proofs.Insulation
import Forth.Proofs.Concatenation
import Forth.Proofs.PureWords
import Forth.Proofs.StackBase
import Forth.Proofs.Provenance
import Forth.Proofs.Structured.Layout
import Forth.Proofs.Termination
import Forth.Proofs.Rewording
import Forth.Proofs.Dialogue
import Forth.Proofs.Structured.CountedLoop
import Forth.Proofs.InstructionPointer
import Forth.Proofs.Jumps
import Forth.Proofs.Failing
import Forth.Proofs.Tokens
import Forth.Proofs.CompileMode
import Forth.Proofs.Structured.StackEffects
import Forth.Proofs.FailureRecord
import Forth.Proofs.Locations
import Forth.Proofs.Numerals
import Forth.Proofs.Arithmetic
import Forth.Proofs.CellTexts
import Forth.Proofs.StackDisplay
import Forth.Proofs.Comments
import Forth.Proofs.Structured.Overflow
import Forth.Proofs.Structured.BootCapacity
