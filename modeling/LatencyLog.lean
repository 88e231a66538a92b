import LatencyLog.Main
import LatencyLog.Proofs.Framing.Gathering
import LatencyLog.Proofs.Utf8.Encoding
import LatencyLog.Proofs.Framing.Answers
import LatencyLog.Proofs.Framing.Resumption
import LatencyLog.Proofs.Summary.Lines
import LatencyLog.Proofs.Json.Numeral
import LatencyLog.Proofs.Json.Quotation
import LatencyLog.Proofs.Json.Reading
import LatencyLog.Proofs.Json.Spelling
import LatencyLog.Proofs.Json.Begun.Quotation
import LatencyLog.Proofs.Json.Begun.Numeral
import LatencyLog.Proofs.Json.Begun.Text
import LatencyLog.Proofs.Json.Grammar
import LatencyLog.Proofs.Binary64.Value
import LatencyLog.Proofs.Record.Coercion
import LatencyLog.Proofs.Record.Members
import LatencyLog.Proofs.Record.Rejection
import LatencyLog.Proofs.Framing.Concatenation
import LatencyLog.Proofs.Utf8.LineEnds
import LatencyLog.Proofs.Average.Saturation
import LatencyLog.Proofs.Summary.UncutRecords
import LatencyLog.Proofs.Framing.Transcripts
import LatencyLog.Proofs.Summary.Order
import LatencyLog.Proofs.Summary.Insertion
import LatencyLog.Proofs.Framing.Steps
import LatencyLog.Proofs.Summary.FirstFailure
import LatencyLog.Proofs.Summary.HeldTexts
import LatencyLog.Proofs.Summary.ExactSums
import LatencyLog.Proofs.Binary64.Magnitudes
import LatencyLog.Proofs.Binary64.Rounding
import LatencyLog.Proofs.Binary64.Decimals
import LatencyLog.Proofs.Binary64.Layouts
import LatencyLog.Proofs.Binary64.ReadBack
import LatencyLog.Proofs.Binary64.Powers
import LatencyLog.Proofs.Average.Text
import LatencyLog.Proofs.Average.Range
import LatencyLog.Proofs.Binary64.RelativeError
import LatencyLog.Proofs.Average.Neighbours
import LatencyLog.Proofs.Json.NumeralValue
import LatencyLog.Proofs.Json.Scaling
import LatencyLog.Proofs.Command.Paths
import LatencyLog.Proofs.Command.Output
import LatencyLog.Proofs.Record.NumeralSamples
import LatencyLog.Proofs.Json.Derivations
import LatencyLog.Proofs.Record.Entries
import LatencyLog.Proofs.Record.WrittenLatency
import LatencyLog.Proofs.Json.Extension
import LatencyLog.Proofs.Record.Truncation
import LatencyLog.Proofs.Framing.CharacterLines
import LatencyLog.Proofs.Framing.DecodedTexts
import LatencyLog.Proofs.Binary64.Optimality
import LatencyLog.Proofs.Average.SignificantDigits
import LatencyLog.Proofs.Average.Monotone
import LatencyLog.Proofs.Record.TextSamples
import LatencyLog.Proofs.Average.Batches
import LatencyLog.Proofs.Utf8.Faults
import LatencyLog.Proofs.Framing.Progress
import LatencyLog.Proofs.Record.OrderedIntegers
