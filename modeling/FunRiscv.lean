import FunRiscv.Text.Quoted
import FunRiscv.Surface.Functions
import FunRiscv.Number.Decimal
import FunRiscv.Number.Arithmetic
import FunRiscv.Trace
import FunRiscv.Surface.Source
import FunRiscv.Surface.Token
import FunRiscv.Surface.ReadError
import FunRiscv.Surface.Reading
import FunRiscv.Surface.Reader.Definition
import FunRiscv.Surface.Printer
import FunRiscv.Scope.Builtin
import FunRiscv.Typing.Program
import FunRiscv.Pass.Optimize
import FunRiscv.Asm.Register
import FunRiscv.Asm.Instruction
import FunRiscv.BitSet.Basic
import FunRiscv.BitSet.Keys
import FunRiscv.Alloc.Heap
import FunRiscv.Alloc.LiveRange
import FunRiscv.Alloc.Allocation
import FunRiscv.Codegen.Generate
import FunRiscv.Config.Toml
import FunRiscv.Config.TomlReader
import FunRiscv.Config.Settings
import FunRiscv.Build
import FunRiscv.Cli.Run
import FunRiscv.Main
import FunRiscv.Proofs.Ty.MostGeneral
import FunRiscv.Proofs.Ty.Symmetry
import FunRiscv.Proofs.Ty.Ending
import FunRiscv.Proofs.Alloc.Preservation
import FunRiscv.Proofs.Codegen.Correctness
import FunRiscv.Proofs.Surface.Outcome
import FunRiscv.Proofs.Surface.Scanning
import FunRiscv.Proofs.Surface.Shape
import FunRiscv.Proofs.Scope.Arity
import FunRiscv.Proofs.Scope.Addresses
import FunRiscv.Proofs.Scope.Scoping
import FunRiscv.Proofs.Pass.Linearization
import FunRiscv.Proofs.Alloc.Assignment
import FunRiscv.Proofs.Typing.Operators
import FunRiscv.Proofs.Surface.Definitions
import FunRiscv.Proofs.Number.Finite
import FunRiscv.Proofs.Surface.Formatting
import FunRiscv.Proofs.Surface.Legible
import FunRiscv.Proofs.Surface.RoundTrip
import FunRiscv.Proofs.Surface.Blanked
import FunRiscv.Proofs.Surface.Safety
import FunRiscv.Proofs.Pass.Blocks
import FunRiscv.Proofs.Pass.Fixpoint
import FunRiscv.Proofs.Pass.Outline
import FunRiscv.Proofs.Pass.Rewriting
import FunRiscv.Proofs.Pass.Trimming
import FunRiscv.Proofs.Typing.Recording
import FunRiscv.Proofs.Typing.Signatures
import FunRiscv.Proofs.Typing.Relocation
import FunRiscv.Proofs.Typing.Mirrors
import FunRiscv.Proofs.Typing.Replay
import FunRiscv.Proofs.Typing.Independence
import FunRiscv.Proofs.Typing.Tables
import FunRiscv.Proofs.Typing.FunctionOrder
import FunRiscv.Proofs.Typing.Closed
import FunRiscv.Proofs.Typing.Lookups
import FunRiscv.Proofs.Typing.TypeOrder
import FunRiscv.Proofs.Typing.Limit
import FunRiscv.Proofs.Typing.Stems
import FunRiscv.Proofs.Typing.Guidance
import FunRiscv.Proofs.Typing.Parameters
import FunRiscv.Proofs.Codegen.Levels
import FunRiscv.Proofs.Codegen.Nesting
import FunRiscv.Proofs.Codegen.Comments
import FunRiscv.Proofs.Codegen.Labels
import FunRiscv.Proofs.Codegen.Encoding
import FunRiscv.Proofs.Surface.Placement
import FunRiscv.Proofs.Surface.Precedence
import FunRiscv.Proofs.Codegen.Paths
import FunRiscv.Proofs.Alloc.Spilling
import FunRiscv.Proofs.BitSet.Search
import FunRiscv.Proofs.BitSet.Keys
import FunRiscv.Proofs.BitSet.Merging
import FunRiscv.Proofs.Typing.NamedArguments
import FunRiscv.Proofs.Surface.Ending
