import BitCodec.Octets
import BitCodec.Hex
import BitCodec.CharClass
import BitCodec.Decimal
import BitCodec.Integer
import BitCodec.FloatType
import BitCodec.Cursor
import BitCodec.Bits
import BitCodec.Failure
import BitCodec.Effect
import BitCodec.Action
import BitCodec.Metrics
import BitCodec.Decoder
import BitCodec.Stream
import BitCodec.Primitive
import BitCodec.Mini
import BitCodec.Block
import BitCodec.Ranged
import BitCodec.Changed
import BitCodec.Geometry
import BitCodec.Codec
import BitCodec.Dump
import BitCodec.Pool
import BitCodec.Request
import BitCodec.Session
import BitCodec.Toml.Value
import BitCodec.Toml.Text
import BitCodec.Toml.Number
import BitCodec.Toml.Moment
import BitCodec.Toml.Document
import BitCodec.Toml.Printer
import BitCodec.Report
import BitCodec.Surroundings
import BitCodec.Settings.Basic
import BitCodec.Settings.Environment
import BitCodec.Settings.Validation
import BitCodec.Logging.Pattern.Piece
import BitCodec.Logging.Pattern.Reader
import BitCodec.Logging.Filter
import BitCodec.Logging.Line
import BitCodec.Logging.Diagnostics
import BitCodec.Proofs.BitString
import BitCodec.Proofs.Copying
import BitCodec.Proofs.Runs
import BitCodec.Proofs.Reading
import BitCodec.Proofs.Numbers
import BitCodec.Proofs.Guarded
import BitCodec.Proofs.Writing
import BitCodec.Proofs.Moving
import BitCodec.Proofs.Assembly
import BitCodec.Proofs.Appending
import BitCodec.Proofs.Requests
import BitCodec.Proofs.Reports
import BitCodec.Proofs.Transfers
import BitCodec.Proofs.History
import BitCodec.Proofs.ReadProgram
import BitCodec.Proofs.Queue
import BitCodec.Proofs.Wire
import BitCodec.Proofs.Codes
import BitCodec.Proofs.RoundTrip
import BitCodec.Proofs.Atomic
import BitCodec.Proofs.Cutting
import BitCodec.Proofs.ChangedCodes
import BitCodec.Proofs.Truncation
import BitCodec.Proofs.Rounding
import BitCodec.Proofs.Floats
import BitCodec.Proofs.Updates
import BitCodec.Proofs.InStep
import BitCodec.Proofs.Scripts
import BitCodec.Proofs.Refusals
import BitCodec.Proofs.Packets
import BitCodec.Proofs.Effects
import BitCodec.Proofs.Calls
import BitCodec.Proofs.Twins
import BitCodec.Proofs.Lending
import BitCodec.Proofs.Recycling
import BitCodec.Proofs.FailedReads
import BitCodec.Proofs.RangeCodes
import BitCodec.Proofs.ShortestCodes
import BitCodec.Proofs.Blocks
import BitCodec.Proofs.Shortcuts
import BitCodec.Proofs.Relocation
import BitCodec.Proofs.Growth
import BitCodec.Proofs.GeometryCodes
import BitCodec.Proofs.GeometryFields
import BitCodec.Proofs.CallerBytes
import BitCodec.Proofs.Received
import BitCodec.Proofs.ByteCounts
import BitCodec.Proofs.Dumps
import BitCodec.Proofs.RangedFloats
