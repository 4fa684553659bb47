import BoostRpc.Peg.Combinators
import BoostRpc.Text
import BoostRpc.Errors
import BoostRpc.Rounding
import BoostRpc.Base128
import BoostRpc.Base64
import BoostRpc.Ordered
import BoostRpc.Atomic
import BoostRpc.Json.Value
import BoostRpc.Json.Grammar
import BoostRpc.Json.Printer
import BoostRpc.Json.Reading
import BoostRpc.Json.Notation
import BoostRpc.Json.Meaning
import BoostRpc.Json.Acceptance
import BoostRpc.Json.Decimals
import BoostRpc.Json.RoundTrip
import BoostRpc.Json.StringSurvival
import BoostRpc.Json.Escapes
import BoostRpc.Json.Framing
import BoostRpc.Json.Nesting
import BoostRpc.Json.StrayBytes
import BoostRpc.Json.ValueIo
import BoostRpc.Json.Codec
import BoostRpc.Json.TypedRoundTrip
import BoostRpc.Json.WideIntegers
import BoostRpc.Json.ShortLists
import BoostRpc.Json.Blobs
import BoostRpc.Json.DistinctKeys
import BoostRpc.Json.Connection
import BoostRpc.Json.Correlation
import BoostRpc.Json.RemoteCall
import BoostRpc.Json.Sessions
import BoostRpc.Json.Delivery
import BoostRpc.Json.Wire
import BoostRpc.Json.Disconnection
import BoostRpc.Json.LockUp
import BoostRpc.Json.Conversation
import BoostRpc.Json.Signals
import BoostRpc.Json.Mirror
import BoostRpc.Json.Subscription
import BoostRpc.Waiting
import BoostRpc.Json.Broadcast
import BoostRpc.Json.Gridlock
import BoostRpc.Json.Packable
import BoostRpc.Json.NarrowTypes
import BoostRpc.Json.ReadBack
import BoostRpc.Json.Overwriting
import BoostRpc.Json.UnsetFields
import BoostRpc.Json.UnsetOptionals
import BoostRpc.Json.MemberOrder
import BoostRpc.Raw.Datastream
import BoostRpc.Raw.Varint
import BoostRpc.Raw.Codec
import BoostRpc.Raw.Format
import BoostRpc.Raw.RoundTrip
import BoostRpc.Raw.OptionalMembers
import BoostRpc.Raw.Zigzag
import BoostRpc.Raw.Cursor
import BoostRpc.Raw.Validity
import BoostRpc.Raw.Termination
import BoostRpc.Raw.Shifts
import BoostRpc.Raw.Streams
import BoostRpc.Raw.TwoPasses
import BoostRpc.RequiredFields
import BoostRpc.Raw.Reused
import BoostRpc.ProtocolBuffer.Codec
import BoostRpc.ProtocolBuffer.Encoding
import BoostRpc.ProtocolBuffer.RoundTrip
import BoostRpc.ProtocolBuffer.Mismatch
import BoostRpc.ProtocolBuffer.Evolution
import BoostRpc.ProtocolBuffer.Lengths
import BoostRpc.ProtocolBuffer.RepeatedScalars
import BoostRpc.ProtocolBuffer.Sequences
import BoostRpc.ProtocolBuffer.Flaws
import BoostRpc.ProtocolBuffer.Endings
import BoostRpc.ProtocolBuffer.Damage
import BoostRpc.ProtocolBuffer.Truncation
import BoostRpc.ProtocolBuffer.Merging
import BoostRpc.Json.Relaying
import BoostRpc.Json.Texts
import BoostRpc.Json.Versions
