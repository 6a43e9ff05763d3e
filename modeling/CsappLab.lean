import CsappLab.CText
import CsappLab.CsimModel
import CsappLab.LinkedRing
import CsappLab.RecencyList
import CsappLab.CsimRefine
import CsappLab.CsimTrace
import CsappLab.CsimInclusion
import CsappLab.CsimLines
import CsappLab.CsimSet
import CsappLab.Runs
import CsappLab.TshJobs
import CsappLab.TshParse
import CsappLab.TshPrint
import CsappLab.TshBounds
import CsappLab.TshEval
import CsappLab.TshNull
import CsappLab.TshSignals
import CsappLab.TshMasks
import CsappLab.TshSteps
import CsappLab.TshEffects
import CsappLab.TshRestore
import CsappLab.TshTracking
import CsappLab.TshReaping
import CsappLab.TshSlots
import CsappLab.TshWakeup
import CsappLab.TshCtrl
import CsappLab.TshUntracked
import CsappLab.ByteMem
import CsappLab.Tiling
import CsappLab.MallocModel
import CsappLab.MallocTags
import CsappLab.MallocList
import CsappLab.MallocHeap
import CsappLab.MallocCoalesce
import CsappLab.MallocPlace
import CsappLab.MallocCalls
import CsappLab.MallocRun
import CsappLab.MallocClient
import CsappLab.MallocOrder
import CsappLab.MallocFit
import CsappLab.MallocRealloc
import CsappLab.ForLoop
import CsappLab.TransModel
import CsappLab.TransKernels
import CsappLab.TransExact
import CsappLab.TransSubmit
import CsappLab.ProxyCache
import CsappLab.ProxyList
import CsappLab.RwLock
import CsappLab.ProxyLock
import CsappLab.ProxyReplay
import CsappLab.ProxyLru
import CsappLab.ProxyWriters
import CsappLab.ProxyThreads
import CsappLab.ProxyFrozen
import CsappLab.EventLog
import CsappLab.ChunkedLines
import CsappLab.ProxyRio
import CsappLab.ProxyUri
import CsappLab.ProxyHeader
import CsappLab.ProxyAssembly
import CsappLab.ProxyWire
import CsappLab.ProxyRequest
import CsappLab.ProxyBalance
import CsappLab.TinyModel
import CsappLab.TinyServer
import CsappLab.TinyProxy
import CsappLab.BinaryFloat
import CsappLab.FloatProduct
import CsappLab.BitsFloat
import CsappLab.BitsCount
import CsappLab.CsimGeometry
import CsappLab.MallocCheck
import CsappLab.MallocFreelist
import CsappLab.MdriverModel
import CsappLab.MdriverMm
import CsappLab.MdriverUtil
import CsappLab.MdriverPasses
import CsappLab.MdriverTrace
import CsappLab.FirstFit
import CsappLab.MallocFirstFit
import CsappLab.Paging
import CsappLab.CsimPaging
import CsappLab.CsimFree
import CsappLab.CsimRelabel
import CsappLab.BitsPuzzles
import CsappLab.BitsTests
import CsappLab.KSmallest
import CsappLab.FcycSampler
