import CompostRpc.RoundTrip
import CompostRpc.PackRefinesStore
import CompostRpc.MsgProcessBounds
import CompostRpc.ProtocolInstances
import CompostRpc.TransactionTable
import CompostRpc.EndToEndAgreement
import CompostRpc.TcpTransport
import CompostRpc.ReplyPairing
import CompostRpc.HeaderAgreement
import CompostRpc.LoadStored
import CompostRpc.NestedBitFields
import CompostRpc.UnsupportedCall
import CompostRpc.RepeatedGeneration
import CompostRpc.ProxyTransparency
import CompostRpc.BitFieldProperties
import CompostRpc.CsLayout
import CompostRpc.CsWire
import CompostRpc.CsMessages
import CompostRpc.PayloadLayout
import CompostRpc.PayloadAgreement
import CompostRpc.CsStrings
import CompostRpc.SessionShutdown
import CompostRpc.ProtocolClasses
import CompostRpc.ListenerLife
import CompostRpc.IntegerRange
import CompostRpc.CountedFields
import CompostRpc.SendValues
import CompostRpc.LengthFields
import CompostRpc.AllocatedSlices
import CompostRpc.HeaderOffsets
import CompostRpc.CsStream
import CompostRpc.AllocatorRuns
import CompostRpc.OverlappingSlices
import CompostRpc.InitParameters
import CompostRpc.GeneratorCache
import CompostRpc.FailedCalls
import CompostRpc.PackedIntegers
import CompostRpc.CsExtent
import CompostRpc.CsReadBack
import CompostRpc.CsRoundTrip
import CompostRpc.CsMessageSizes
import CompostRpc.FieldAccess
import CompostRpc.SliceAllocation
import CompostRpc.SliceArrays
import CompostRpc.CStringCopy
import CompostRpc.PackedFields
import CompostRpc.CsNames
import CompostRpc.CsOwnReplies
import CompostRpc.PyCallValues
import CompostRpc.CsCallValues
import CompostRpc.ProxyListener
import CompostRpc.NotificationValues
import CompostRpc.BitFieldObjects
import CompostRpc.GeneratedCalls
import CompostRpc.PyTransports
import CompostRpc.GeneratorFiles
import CompostRpc.DefinitionOrder
import CompostRpc.HelperOrder
