import Waivm.Instruction
import Waivm.Memory
import Waivm.StepCases
import Waivm.Invariant
import Waivm.Program
import Waivm.Verifier
import Waivm.Asm
import Waivm.AsmExec
import Waivm.AsmLoop
import Waivm.EngineAgreement
import Waivm.Division
import Waivm.Bytecode
import Waivm.BytecodeFile
import Waivm.PrintStream
import Waivm.EngineRun
import Waivm.Isa
import Waivm.StackMachine
import Waivm.Trace
import Waivm.Assembler
import Waivm.AssemblerReference
import Waivm.AssemblerLines
import Waivm.AssemblerLabels
import Waivm.AssemblerRefinement
import Waivm.Cli
import Waivm.Disassembler
import Waivm.Debugger
import Waivm.DebuggerDumps
import Waivm.DebuggerRounds
import Waivm.DebuggerRun
import Waivm.DebuggerErrors
import Waivm.CallReturn
import Waivm.VerifierAgreement
import Waivm.TornWrite
import Waivm.RuntimeError
import Waivm.AssemblerOutput
import Waivm.SourceMeaning
import Waivm.CliMain
import Waivm.CliCommands
import Waivm.Linking
import Waivm.CliEnds
import Waivm.OutOfMemory
import Waivm.ExamplePrograms
import Waivm.DisassemblyLines
import Waivm.DisassemblyRoundTrip
import Waivm.Overflow
import Waivm.FailingStep
import Waivm.AssemblerErrors
import Waivm.AssemblerFile
import Waivm.ByteMemory
import Waivm.AsmStack
import Waivm.FailedLoad
import Waivm.PaddedOperand
import Waivm.DebuggerLines
import Waivm.TuiApp
import Waivm.TuiScreen
import Waivm.TuiState
import Waivm.TuiTerm
import Waivm.DisassemblyMeaning
import Waivm.TuiCli
