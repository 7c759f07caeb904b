import FuzzerJs.Lib.Residue
import FuzzerJs.Lib.Machine
import FuzzerJs.Lib.Scan
import FuzzerJs.Lib.Passing
import FuzzerJs.Lib.Intern
import FuzzerJs.Lib.Wire
import FuzzerJs.Lib.Search
import FuzzerJs.Lib.HashChain
import FuzzerJs.Engine.Value
import FuzzerJs.Engine.GlobalObject
import FuzzerJs.Engine.GlobalVar
import FuzzerJs.Engine.Unicode
import FuzzerJs.Engine.Number
import FuzzerJs.Engine.Literal
import FuzzerJs.Engine.Lexer
import FuzzerJs.Engine.LexerLocal
import FuzzerJs.Engine.LexerPlain
import FuzzerJs.Engine.LexerModes
import FuzzerJs.Engine.LexerText
import FuzzerJs.Engine.Atoms
import FuzzerJs.Engine.Bytecode
import FuzzerJs.Engine.BytecodeReader
import FuzzerJs.Engine.BytecodeObject
import FuzzerJs.Engine.BytecodeWriter
import FuzzerJs.Engine.BytecodeRoundTrip
import FuzzerJs.Engine.BytecodeFile
import FuzzerJs.Engine.StackSize
import FuzzerJs.Engine.Shape
import FuzzerJs.Engine.ShapeTable
import FuzzerJs.Engine.ShapeSharing
import FuzzerJs.Engine.ShapeRun
import FuzzerJs.Engine.Collector
import FuzzerJs.Engine.CollectorScan
import FuzzerJs.Engine.CollectorSweep
import FuzzerJs.Engine.Parser
import FuzzerJs.Engine.ParserText
import FuzzerJs.Engine.Resolve
import FuzzerJs.Engine.Interp
import FuzzerJs.Engine.StraightLine
import FuzzerJs.Coverage.Counter
import FuzzerJs.Host.Files
import FuzzerJs.Host.Output
import FuzzerJs.Host.OutputRead
import FuzzerJs.Host.Compile
import FuzzerJs.Host.Script
import FuzzerJs.Host.Containment
import FuzzerJs.Host.ScriptCode
import FuzzerJs.Host.ScriptFunction
import FuzzerJs.Host.ScriptCompile
import FuzzerJs.Host.ScriptEval
import FuzzerJs.Host.Delivery
import FuzzerJs.Coverage.Header
import FuzzerJs.Coverage.Target
import FuzzerJs.Coverage.Run
