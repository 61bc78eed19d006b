import RowCode.CommandLine.Run
import RowCode.Lowering.Aggregate
import RowCode.Main
import RowCode.Program.Builder
import RowCode.Proofs.Hoisting
import RowCode.Proofs.Naming
import RowCode.Proofs.SingleEmission
import RowCode.Proofs.Support
import RowCode.Proofs.Typing
import RowCode.Proofs.DecimalReading
import RowCode.Proofs.StoredPrograms
import RowCode.Proofs.BinaryForm
import RowCode.Proofs.BinaryRounding
import RowCode.Proofs.FloatNumbers
import RowCode.Proofs.JsonForm
import RowCode.Proofs.JsonPrograms
import RowCode.Proofs.Registration
import RowCode.Proofs.Building
import RowCode.Proofs.FlatCase
import RowCode.Proofs.NativePasses
import RowCode.Proofs.Relayout
import RowCode.Proofs.ReservedNames
import RowCode.Proofs.CommandScoping
import RowCode.Proofs.CallSequences
import RowCode.Proofs.UseCounts
import RowCode.Proofs.Prefixes
import RowCode.Proofs.CaseBranches
import RowCode.Proofs.CastOrigins
import RowCode.Proofs.Casts
import RowCode.Proofs.CodeReceivers
import RowCode.Proofs.Acceptance
import RowCode.Proofs.Digests
import RowCode.Proofs.FieldNumbering
import RowCode.Proofs.AccumulatorTypes
import RowCode.Proofs.Accumulation
import RowCode.Proofs.LiteralCode
import RowCode.Proofs.NameSearch
import RowCode.Proofs.Quotation
import RowCode.Proofs.Binding
import RowCode.Proofs.LineBreaks
import RowCode.Proofs.Lines
