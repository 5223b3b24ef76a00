import WasmCxxShim.NextPrimeContract
import WasmCxxShim.NextPrimeDivisors
import WasmCxxShim.SbrkBreak
import WasmCxxShim.DlmallocMemalignSound
import WasmCxxShim.DlmallocService
import WasmCxxShim.DlmallocRuns
import WasmCxxShim.DlmallocTreeSearch
import WasmCxxShim.HarnessLogContract
import WasmCxxShim.HarnessSnprintf
import WasmCxxShim.HarnessOverflow
import WasmCxxShim.HarnessReplay
import WasmCxxShim.HarnessFloats
import WasmCxxShim.HarnessNear
import WasmCxxShim.SharedCountLifetime
