import Thumb.Alu
import Thumb.Command.Assembler
import Thumb.Command.Runner
import Thumb.Executable.Json
import Thumb.Executable.Link
import Thumb.Instr.Assembly
import Thumb.Instr.Catalogue
import Thumb.Instr.Exec
import Thumb.Json.Parser
import Thumb.Json.Printer
import Thumb.Json.Reader
import Thumb.Machine.Board
import Thumb.Main
import Thumb.Memory.Json
import Thumb.Number
import Thumb.Object.Draft
import Thumb.Operand.Label
import Thumb.Pattern
import Thumb.Proofs.Alignment
import Thumb.Proofs.AluText
import Thumb.Proofs.AssembledStep
import Thumb.Proofs.BoardCalls
import Thumb.Proofs.BulkWrite
import Thumb.Proofs.ByteMap
import Thumb.Proofs.CarryChain
import Thumb.Proofs.Comment
import Thumb.Proofs.Comparison
import Thumb.Proofs.DataRange
import Thumb.Proofs.DefinitionLine
import Thumb.Proofs.EndOfCode
import Thumb.Proofs.Expressible
import Thumb.Proofs.FieldStore
import Thumb.Proofs.Interleaving
import Thumb.Proofs.Interruption
import Thumb.Proofs.IteratedStep
import Thumb.Proofs.LineTable
import Thumb.Proofs.LiteralLoad
import Thumb.Proofs.LoadedImage
import Thumb.Proofs.MapListing
import Thumb.Proofs.NumberText
import Thumb.Proofs.OperandList
import Thumb.Proofs.Placeholder
import Thumb.Proofs.ProgramCounter
import Thumb.Proofs.PushPop
import Thumb.Proofs.QuotedText
import Thumb.Proofs.RangeCheck
import Thumb.Proofs.RegisterListText
import Thumb.Proofs.RegisterName
import Thumb.Proofs.SingleShift
import Thumb.Proofs.SpelledConstant
import Thumb.Proofs.Symbols
import Thumb.Proofs.Transcription
import Thumb.Proofs.UndefinedName
import Thumb.Register.Json
import Thumb.Source.Parser
import Thumb.Table
import Thumb.Text.Lines
import Thumb.Trap
