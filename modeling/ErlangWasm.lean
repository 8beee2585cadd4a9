import ErlangWasm.Heap.LeaseRun
import ErlangWasm.Keeper.Ceiling
import ErlangWasm.Wait.Stranded
import ErlangWasm.Wait.ExactlyOnce
import ErlangWasm.Table.Linear
import ErlangWasm.Code.Reuse
import ErlangWasm.Snapshot.Packing
import ErlangWasm.Snapshot.Exclusion
import ErlangWasm.Canon.Untrusted
import ErlangWasm.Wasi.Confined
import ErlangWasm.Calls.OneStore
import ErlangWasm.Exec.Fused
import ErlangWasm.Exec.Depth
import ErlangWasm.Exec.Bounded
import ErlangWasm.Component.Ownership
import ErlangWasm.Component.Endless
import ErlangWasm.Component.ImportNames
import ErlangWasm.Reaper.Respected
import ErlangWasm.Reaper.Accounted
import ErlangWasm.Reaper.Planted
import ErlangWasm.Decode.DataCount
import ErlangWasm.Cast.Exact
import ErlangWasm.Const.Exact
import ErlangWasm.Compile.Split
import ErlangWasm.StateCache.Coherence
import ErlangWasm.Heap.OnTime
import ErlangWasm.Heap.Generations
import ErlangWasm.Script.Framing
import ErlangWasm.Script.Staged
import ErlangWasm.Compile.CacheUse
