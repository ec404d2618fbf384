import Taglet.Bytes
import Taglet.Command
import Taglet.Compile
import Taglet.Execute
import Taglet.Failure
import Taglet.File
import Taglet.Host
import Taglet.Machine.Config
import Taglet.Machine.Memory
import Taglet.Machine.Operator
import Taglet.Machine.Run
import Taglet.Machine.Step
import Taglet.Main
import Taglet.Program.Basic
import Taglet.Program.OfNode
import Taglet.Program.Operator
import Taglet.Program.Read
import Taglet.Program.Ty
import Taglet.Proofs.Activations
import Taglet.Proofs.Appending
import Taglet.Proofs.Branches
import Taglet.Proofs.CallFrames
import Taglet.Proofs.CallSimulation
import Taglet.Proofs.Cancellation
import Taglet.Proofs.CheckedProgram
import Taglet.Proofs.Checking
import Taglet.Proofs.CodeTyping
import Taglet.Proofs.Correspondence
import Taglet.Proofs.Declaring
import Taglet.Proofs.DepthLimit
import Taglet.Proofs.Emission
import Taglet.Proofs.Evaluation
import Taglet.Proofs.Except
import Taglet.Proofs.ExprReading
import Taglet.Proofs.ExprSimulation
import Taglet.Proofs.FiniteSets
import Taglet.Proofs.Forests
import Taglet.Proofs.Grammar
import Taglet.Proofs.HostArithmetic
import Taglet.Proofs.Identifiers
import Taglet.Proofs.Interleaving
import Taglet.Proofs.LexicalScopes
import Taglet.Proofs.Linking
import Taglet.Proofs.LoweredTyping
import Taglet.Proofs.Lowering
import Taglet.Proofs.MemoryAccess
import Taglet.Proofs.ModuleText
import Taglet.Proofs.Numerals
import Taglet.Proofs.Positions
import Taglet.Proofs.Preservation
import Taglet.Proofs.PrintedText
import Taglet.Proofs.ProgramNodes
import Taglet.Proofs.ProgramSimulation
import Taglet.Proofs.ProgramTyping
import Taglet.Proofs.Reading
import Taglet.Proofs.Rendering
import Taglet.Proofs.Resolution
import Taglet.Proofs.ResolvedText
import Taglet.Proofs.Runs
import Taglet.Proofs.ScalarPositions
import Taglet.Proofs.Scopes
import Taglet.Proofs.SlotSets
import Taglet.Proofs.SoundModules
import Taglet.Proofs.SourceReading
import Taglet.Proofs.StaleMemory
import Taglet.Proofs.StmtSimulation
import Taglet.Proofs.Storage
import Taglet.Proofs.TaggedOperators
import Taglet.Proofs.TopLevelNames
import Taglet.Proofs.TypeRules
import Taglet.Proofs.TypeSoundness
import Taglet.Proofs.WordCodec
import Taglet.Proofs.Words
import Taglet.Scope.Basic
import Taglet.Scope.Forest
import Taglet.SlotSet
import Taglet.Source
import Taglet.Tagged
import Taglet.Text.Buffer
import Taglet.Text.Builder
import Taglet.Text.Decimal
import Taglet.Text.Numeral
import Taglet.Text.Printable
import Taglet.Text.Quoted
import Taglet.Text.Utf8
import Taglet.Typing.Check
import Taglet.Typing.Violation
import Taglet.Wat.Emit
import Taglet.Wat.Lexeme
import Taglet.Wat.Module
import Taglet.Wat.Read
import Taglet.Wat.SExpr
import Taglet.Wire
import Taglet.Yaml.Cursor
import Taglet.Yaml.Document
import Taglet.Yaml.Fold
import Taglet.Yaml.Layout
import Taglet.Yaml.Node
import Taglet.Yaml.Scalar
import Taglet.Yaml.Space
import Taglet.Yaml.Token
import Taglet.Yaml.Tree
