import NumbaCudaMlir.CallbackSound
import NumbaCudaMlir.CacheSound
import NumbaCudaMlir.LiteralSound
import NumbaCudaMlir.MarshalSound
import NumbaCudaMlir.SigCacheSound
import NumbaCudaMlir.RecompileSound
import NumbaCudaMlir.CacheShare
import NumbaCudaMlir.DiskCacheSound
import NumbaCudaMlir.ConstevalSound
import NumbaCudaMlir.StaticRaise
import NumbaCudaMlir.ConstantFold
import NumbaCudaMlir.UnionTypeSound
import NumbaCudaMlir.RecordSound
import NumbaCudaMlir.SliceFill
import NumbaCudaMlir.NrtSound
import NumbaCudaMlir.SharedMemory
import NumbaCudaMlir.Atomics
import NumbaCudaMlir.LibnvvmSound
import NumbaCudaMlir.LinkingSound
import NumbaCudaMlir.CallRoutesSound
import NumbaCudaMlir.RangeObject
import NumbaCudaMlir.ArrayView
import NumbaCudaMlir.CompileRolesSound
import NumbaCudaMlir.DispatcherReduce
import NumbaCudaMlir.LaunchSpecializationSound
import NumbaCudaMlir.ExplicitLaunchSound
import NumbaCudaMlir.InlinePtx
import NumbaCudaMlir.ArgAttrs
import NumbaCudaMlir.ArrayJoinSound
import NumbaCudaMlir.DotSound
import NumbaCudaMlir.ElementwiseCallsSound
import NumbaCudaMlir.ReductionSound
import NumbaCudaMlir.AlignedAlloc
import NumbaCudaMlir.FloatCas
import NumbaCudaMlir.ObjectLinkerSound
import NumbaCudaMlir.StringEqSound
import NumbaCudaMlir.IntEnumSound
import NumbaCudaMlir.VectorTypesSound
import NumbaCudaMlir.DatetimeSound
import NumbaCudaMlir.PrintSound
import NumbaCudaMlir.VectorAccessSound
import NumbaCudaMlir.ArrayLiteralSound
import NumbaCudaMlir.BfloatCast
import NumbaCudaMlir.RecordAccessSound
import NumbaCudaMlir.InspectRequestsSound
import NumbaCudaMlir.StorageConversionSound
import NumbaCudaMlir.ArrayInterfaceSound
import NumbaCudaMlir.HalfArgument
import NumbaCudaMlir.RecordBuffersSound
import NumbaCudaMlir.ConstevalBlocksSound
import NumbaCudaMlir.AstTransformsSound
import NumbaCudaMlir.LocalArrayFrom
import NumbaCudaMlir.ControlFlowLoops
import NumbaCudaMlir.CastGraph
import NumbaCudaMlir.VarDels
