import RustDbg.Process.Commit
import RustDbg.Process.Table
import RustDbg.Process.FindAddress
import RustDbg.Breakpoint.Failure
import RustDbg.Breakpoint.Write
import RustDbg.Image.Faithful
import RustDbg.Image.Bounds
import RustDbg.Image.Sections
import RustDbg.Code.Targets
import RustDbg.Code.Coverage
import RustDbg.Code.Cycles
import RustDbg.Code.Overlap
import RustDbg.Code.Load
import RustDbg.Code.Lookup
import RustDbg.Code.Symbols
import RustDbg.Code.Listing
import RustDbg.Console.Completion
import RustDbg.Shared.MDBLog
import RustDbg.Stack.Chain
import RustDbg.Stack.Robust
import RustDbg.Debugger.Inspection
import RustDbg.Debugger.Life
import RustDbg.Debugger.Launch
import RustDbg.Debugger.Classify
import RustDbg.Debugger.FreeRun
import RustDbg.Debugger.StepBack
import RustDbg.Debugger.Recognition
import RustDbg.Debugger.StepOff
import RustDbg.Debugger.Interrupted
import RustDbg.Debugger.StepOver
import RustDbg.Debugger.Leftover
import RustDbg.Debugger.Activation
import RustDbg.Debugger.Transparency
import RustDbg.Debugger.Interference
import RustDbg.Debugger.Simulation
import RustDbg.Debugger.Invisibility
import RustDbg.Debugger.Scanning
import RustDbg.Debugger.Semantics
import RustDbg.Debugger.Discipline
import RustDbg.Debugger.Frozen
import RustDbg.Debugger.Driver
import RustDbg.Process.Dylinker
import RustDbg.Code.CallGraph
import RustDbg.Console.Loop
import RustDbg.Shared.Split
