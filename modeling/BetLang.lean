import BetLang.CribSafety
import BetLang.IntAgreement
import BetLang.TypeView
import BetLang.DispatchModule
import BetLang.HollaLive
import BetLang.AliasAgreement
import BetLang.CribStore
import BetLang.PayloadLayout
import BetLang.StashAgreement
import BetLang.DowncastSound
import BetLang.CollectDiscipline
import BetLang.ScopeAgreement
import BetLang.ControlReach
import BetLang.SquadSnapshot
import BetLang.CribAgreement
import BetLang.CribRefinement
import BetLang.ControlDiscipline
import BetLang.SimdAgreement
import BetLang.StampedRun
import BetLang.Recovery
import BetLang.Dangling
import BetLang.IntExact
import BetLang.BumpAlloc
import BetLang.VoiceIdentity
import BetLang.Letterbox
import BetLang.CanvasSafety
import BetLang.Loader
import BetLang.LoaderOrder
import BetLang.EqualityAgreement
import BetLang.CompoundAgreement
import BetLang.VibeAgreement
import BetLang.Format
import BetLang.ZeroTermination
import BetLang.Bounce
import BetLang.ZeroSubst
import BetLang.SoaVec
import BetLang.SoaArray
import BetLang.MemSlab
import BetLang.AbsentRead
import BetLang.Strings
import BetLang.SpecializeRanks
import BetLang.Asi
import BetLang.VecAgreement
import BetLang.MixerExact
import BetLang.DominatorPaths
import BetLang.LoaderConfinement
import BetLang.CommentSpans
import BetLang.MangledApart
import BetLang.DumpInjective
import BetLang.ParserNesting
import BetLang.Timestep
import BetLang.MidirStrings
import BetLang.SoundWindow
import BetLang.Keyboard
import BetLang.Resample
import BetLang.BumpReplay
import BetLang.Xoshiro
import BetLang.PackedPoly
import BetLang.FullPeriod
import BetLang.PrimeFactors
import BetLang.XoshiroPeriod
import BetLang.MultiplyHigh
import BetLang.RandomBound
import BetLang.MouseMapping
import BetLang.Channels
import BetLang.SourceStrings
import BetLang.ScalarAccepted
import BetLang.ArchiveRoundTrip
import BetLang.FormatExprs
import BetLang.FormatItems
import BetLang.FormatRoundTrip
