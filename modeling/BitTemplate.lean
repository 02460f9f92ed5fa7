import BitTemplate.Command.Directory
import BitTemplate.Main
import BitTemplate.Proofs.Bits
import BitTemplate.Proofs.Field
import BitTemplate.Proofs.Storage
import BitTemplate.Proofs.Agreement
import BitTemplate.Proofs.Steps
import BitTemplate.Proofs.ByteRoundTrip
import BitTemplate.Proofs.Reading
import BitTemplate.Proofs.Reencode
import BitTemplate.Proofs.TrailingField
import BitTemplate.Proofs.ValueRoundTrip
import BitTemplate.Proofs.Shape
import BitTemplate.Proofs.Representable
import BitTemplate.Proofs.Brackets
import BitTemplate.Proofs.Paths
import BitTemplate.Proofs.Comparison
import BitTemplate.Proofs.LeastWidth
import BitTemplate.Proofs.SizeLimit
import BitTemplate.Proofs.SameTrace
import BitTemplate.Proofs.Positions
import BitTemplate.Proofs.Boundaries
import BitTemplate.Proofs.OtherData
import BitTemplate.Proofs.Skipped
import BitTemplate.Proofs.JsonNumber
import BitTemplate.Proofs.JsonText
import BitTemplate.Proofs.Coloring
import BitTemplate.Proofs.RunValues
import BitTemplate.Proofs.Twins
import BitTemplate.Proofs.ReadBack
import BitTemplate.Proofs.Printed
import BitTemplate.Proofs.Disguise
import BitTemplate.Proofs.Failure
import BitTemplate.Proofs.Moves
import BitTemplate.Proofs.Session
import BitTemplate.Proofs.DataHistory
import BitTemplate.Proofs.Bookkeeping
import BitTemplate.Proofs.Outline
import BitTemplate.Proofs.Nesting
import BitTemplate.Proofs.LabelPositions
import BitTemplate.Proofs.FieldFaults
import BitTemplate.Proofs.Forms
import BitTemplate.Proofs.Tokens
import BitTemplate.Proofs.Languages
import BitTemplate.Proofs.Tiling
import BitTemplate.Proofs.Repetition
import BitTemplate.Proofs.Comments
import BitTemplate.Proofs.Spans
import BitTemplate.Proofs.Landing
import BitTemplate.Proofs.HexText
import BitTemplate.Proofs.Literals
import BitTemplate.Proofs.Rearrangement
import BitTemplate.Proofs.Undoing
import BitTemplate.Proofs.NumberText
import BitTemplate.Proofs.LineFeeds
import BitTemplate.Proofs.Listing
