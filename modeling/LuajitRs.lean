import LuajitRs.Compiler.Dump
import LuajitRs.Compiler.Expr.Grammar
import LuajitRs.Compiler.Fold
import LuajitRs.Compiler.Lex.NumberAgree
import LuajitRs.Compiler.Scope.Lookup
import LuajitRs.Ffi.Call.Agree
import LuajitRs.Ffi.Parser.Layout
import LuajitRs.Ffi.Parser.Specifiers
import LuajitRs.Ffi.Store.Members
import LuajitRs.Jit.Asm.Handover
import LuajitRs.Jit.Bits
import LuajitRs.Jit.Concat.Exact
import LuajitRs.Jit.Opt.Dce.Sound
import LuajitRs.Jit.Opt.Dse
import LuajitRs.Jit.Opt.Fold.Measure
import LuajitRs.Jit.Opt.Ivar
import LuajitRs.Jit.Opt.Narrow
import LuajitRs.Jit.Opt.Sink.Sound
import LuajitRs.Jit.Patch.Runs
import LuajitRs.Jit.Record.Index.Unpinned
import LuajitRs.Jit.Record.Snap.Exits
import LuajitRs.Jit.Record.Upval.Agree
import LuajitRs.Jit.Record.Varg
import LuajitRs.Runtime.Gc.Finalize.Runs
import LuajitRs.Runtime.Gc.Retention
import LuajitRs.Runtime.Table.Reuse
import LuajitRs.Runtime.Table.Sizes
import LuajitRs.Stdlib.Coroutine.Runs
import LuajitRs.Stdlib.Coroutine.Transparent.Runs
import LuajitRs.Stdlib.Dump
import LuajitRs.Stdlib.Load
import LuajitRs.Stdlib.Math.Random
import LuajitRs.Stdlib.Pattern.Anchor
import LuajitRs.Stdlib.Pattern.Init
import LuajitRs.Stdlib.Pattern.Interleave
import LuajitRs.Stdlib.Pattern.Search.Leftmost
import LuajitRs.Stdlib.Pattern.Set
import LuajitRs.Stdlib.Sort.Default
import LuajitRs.Stdlib.Substring
import LuajitRs.Stdlib.Table.Insert
import LuajitRs.Stdlib.Table.Move
import LuajitRs.Stdlib.Unpack
import LuajitRs.Util.Strfmt.Field
import LuajitRs.Util.Strfmt.HexFloat.Exact
import LuajitRs.Vm.Concat
import LuajitRs.Vm.Equal
import LuajitRs.Vm.Return
import LuajitRs.Vm.SlotName
import LuajitRs.Vm.Stack.Bounds
