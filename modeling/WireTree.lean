import WireTree.BitSet
import WireTree.BitStream.Basic
import WireTree.BitStream.Cell
import WireTree.BitStream.Piece
import WireTree.BitStream.Source
import WireTree.BitStream.Text
import WireTree.Bits
import WireTree.BoundedInt
import WireTree.Component.Array
import WireTree.Component.Basic
import WireTree.Component.Codec
import WireTree.Component.Edit
import WireTree.Component.Group
import WireTree.Component.Size
import WireTree.Digest
import WireTree.Digest.Hex
import WireTree.Error
import WireTree.Limits
import WireTree.Message
import WireTree.Number.Binary32
import WireTree.Number.Fixed
import WireTree.Scalar
import WireTree.Settings.Environment
import WireTree.Settings.File
import WireTree.Toml.Document
import WireTree.Toml.Lexeme
import WireTree.Toml.Moment
import WireTree.Toml.Number
import WireTree.Toml.Print
import WireTree.Toml.Text
import WireTree.Toml.Value
import WireTree.Words
import WireTree.Proofs.BitStream.Packing
import WireTree.Proofs.BitStream.Queue
import WireTree.Proofs.BitStream.Runs
import WireTree.Proofs.BitSet
import WireTree.Proofs.BoundedInt
import WireTree.Proofs.Component.Layout
import WireTree.Proofs.Digest
import WireTree.Proofs.Scalar
import WireTree.Proofs.Component.WellFormed
import WireTree.Proofs.Component.Reachable
import WireTree.Proofs.Component.Emitted
import WireTree.Proofs.Component.Encoding
import WireTree.Proofs.Component.Decoding
import WireTree.Proofs.Component.View
import WireTree.Proofs.Component.RoundTrip
import WireTree.Proofs.Component.Transfers
import WireTree.Proofs.BitSet.Bits
import WireTree.Proofs.Calls
import WireTree.Proofs.Component.FieldLists
import WireTree.Proofs.Component.GroupLists
import WireTree.Proofs.Component.Operations
import WireTree.Proofs.Component.Remembered
import WireTree.Proofs.Component.Independence
import WireTree.Proofs.Component.Faults
import WireTree.Proofs.Component.InTurn
import WireTree.Proofs.Component.HalfRead
import WireTree.Proofs.Component.Datagram
import WireTree.Proofs.Component.ElementLists
import WireTree.Proofs.Component.ArrayLists
import WireTree.Proofs.Component.Sources
import WireTree.Proofs.Component.Safety
import WireTree.Proofs.BitSet.FlagOrder
import WireTree.Proofs.BitSet.FlagLists
import WireTree.Proofs.Component.InStep
import WireTree.Proofs.Component.Truncation
import WireTree.Proofs.Component.LooserLimits
import WireTree.Proofs.Component.Places
import WireTree.Proofs.Component.Absent
import WireTree.Proofs.BoundedInt.Wrapping
import WireTree.Proofs.BitStream.Texts
import WireTree.Proofs.Component.Counts
import WireTree.Proofs.Component.Tables
import WireTree.Proofs.Component.Cleared
import WireTree.Proofs.Component.LeastBits
import WireTree.Proofs.Ascii
import WireTree.Proofs.Digest.Hex
import WireTree.Proofs.Digest.Digits
import WireTree.Proofs.Limits
import WireTree.Proofs.Number.Rounding
import WireTree.Proofs.Number.Binary32
import WireTree.Proofs.Number.Fixed
import WireTree.Proofs.Toml.Number
import WireTree.Proofs.Toml.Document
import WireTree.Proofs.Settings
