import Mcfi.Activation
import Mcfi.AddressPatches
import Mcfi.AliasActivation
import Mcfi.AliasClosures
import Mcfi.BaryRegion
import Mcfi.BoundSlots
import Mcfi.BranchSlots
import Mcfi.CallAlignment
import Mcfi.CallGraphSpec
import Mcfi.CfgGrowth
import Mcfi.CheckTermination
import Mcfi.ClassHierarchy
import Mcfi.CodeAreas
import Mcfi.CodeHeap
import Mcfi.CompiledStores
import Mcfi.ConstructedMethods
import Mcfi.DeleteCode
import Mcfi.DlsymTargets
import Mcfi.DuplicateKeys
import Mcfi.ElfImage
import Mcfi.EnforcedCfg
import Mcfi.EntryRefinement
import Mcfi.ForkSafety
import Mcfi.FunctionOrder
import Mcfi.FunctionSections
import Mcfi.GotPlt
import Mcfi.GracePeriod
import Mcfi.InternedNames
import Mcfi.JitIntegrity
import Mcfi.JitState
import Mcfi.KvRefinement
import Mcfi.LabelNames
import Mcfi.LazyPatching
import Mcfi.Lib.Numerals
import Mcfi.Lib.Searches
import Mcfi.LongestMatch
import Mcfi.Markers
import Mcfi.Mediation
import Mcfi.MemoryMap
import Mcfi.MethodNames
import Mcfi.MethodPointers
import Mcfi.ModuleSplits
import Mcfi.MovedCode
import Mcfi.PatchStores
import Mcfi.PatchTraps
import Mcfi.PatchedCalls
import Mcfi.ProcessStack
import Mcfi.RegistrationPatches
import Mcfi.ReplaceCode
import Mcfi.StaticPages
import Mcfi.TailCalls
import Mcfi.Transactions
import Mcfi.TypeStrings
import Mcfi.Unregistration
import Mcfi.VersionWindow
import Mcfi.VtableSections
