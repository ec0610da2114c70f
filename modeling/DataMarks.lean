import DataMarks.Main
import DataMarks.Proofs.CallableMarks
import DataMarks.Proofs.CompiledRun
import DataMarks.Proofs.FunctionOrder
import DataMarks.Proofs.InstanceUniforms
import DataMarks.Proofs.PageWidth
import DataMarks.Proofs.ParameterLookups
import DataMarks.Proofs.RegisteredCalls
import DataMarks.Proofs.RejectedNames
import DataMarks.Proofs.RoundMarks
import DataMarks.Proofs.ScaleNames
import DataMarks.Proofs.ScopeRuns
import DataMarks.Proofs.SingleVertex
import DataMarks.Proofs.SourceRanges
import DataMarks.Proofs.StandaloneExpressions
import DataMarks.Proofs.UnclosedComments
import DataMarks.Proofs.UsedArguments
