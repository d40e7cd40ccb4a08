import Rigor.Cli.Baseline.Ratchet
import Rigor.Cli.Check.Failures
import Rigor.Cli.Check.Strictness
import Rigor.Cli.Config.IncludeLaws
import Rigor.Cli.DiagnosticFormats
import Rigor.Cli.Effects.Ownership
import Rigor.Cli.Effects.Report
import Rigor.Cli.Fnmatch
import Rigor.Cli.Lsp.PercentDecode
import Rigor.Cli.Lsp.Positions
import Rigor.Cli.Lsp.SessionAnswers
import Rigor.Cli.Lsp.SessionCache
import Rigor.Cli.Options.Abbreviations
import Rigor.Cli.Options.Permute
import Rigor.Cli.Sidecar.Answers
import Rigor.Effects.Subsumption
import Rigor.Effects.Suggest
import Rigor.Index.MethodSignature
import Rigor.Index.MissingStubs
import Rigor.Index.QualifiedAncestors
import Rigor.Index.ResolutionOrder
import Rigor.Index.SideSlots
import Rigor.Index.SingletonAbsence
import Rigor.Infer.IntegerFolds
import Rigor.Infer.KernelFold.SprintfLayout
import Rigor.Infer.Lookups
import Rigor.Infer.MultiTarget
import Rigor.Infer.Narrowing.Evaluation
import Rigor.Infer.Narrowing.Meet
import Rigor.Infer.Reach.QueryOrder
import Rigor.Infer.Reach.RangeQueries
import Rigor.Infer.Source.ClosureWalk
import Rigor.Infer.Source.FoldDispatch
import Rigor.Infer.Source.MergeOrder
import Rigor.Infer.Source.MutationCensus
import Rigor.Rules.DeadVersionGuard.VersionOrder
import Rigor.Rules.ShadowedRescueSound
import Rigor.Rules.SuppressionPattern
import Rigor.Types.DoubleQuoted
import Rigor.Types.NormalizeLaws
import Rigor.Types.SubtypeLaws
import Rigor.Cli.Baseline.Dump
import Rigor.Cli.Check.Inert
import Rigor.Cli.Diff.Document
