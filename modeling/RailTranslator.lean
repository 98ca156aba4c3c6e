import RailTranslator.RoundTrip
import RailTranslator.RewritingsAgree
import RailTranslator.PreInstrumentation
import RailTranslator.BlockSimulation
import RailTranslator.TraceSimulation
import RailTranslator.DispatchRoundTrip
import RailTranslator.LinkedExits
import RailTranslator.SyscallLayout
import RailTranslator.DecodeLayout
import RailTranslator.Records
import RailTranslator.TypedPost
import RailTranslator.SingleStep
import RailTranslator.Bounds
import RailTranslator.GuestCfg
import RailTranslator.BlockHeads
import RailTranslator.BlockPaths
import RailTranslator.InlineCover
import RailTranslator.CacheLayout
import RailTranslator.CurrentBlock
import RailTranslator.InstNames
import RailTranslator.GuestPointers
import RailTranslator.ScratchOperands
import RailTranslator.AmoMoves
import RailTranslator.ElfBounds
import RailTranslator.LoadedSections
import RailTranslator.InitialStack
import RailTranslator.RegionBranches
import RailTranslator.CacheUse
import RailTranslator.Constants
import RailTranslator.TextFetch
import RailTranslator.InitFrame
import RailTranslator.BranchExits
import RailTranslator.IndirectExits
import RailTranslator.DirectExits
import RailTranslator.EcallEmulation
import RailTranslator.RangeFilter
import RailTranslator.FittingRuns
import RailTranslator.ObservedRuns
import RailTranslator.ProcessEnd
import RailTranslator.EveryRail
