import Ouroboros.Library.StreamDecoder
import Ouroboros.Library.ByteParser
import Ouroboros.Library.BigEndian
import Ouroboros.Library.Framing
import Ouroboros.Library.KeyedList
import Ouroboros.Library.Transition
import Ouroboros.Library.Simulation
import Ouroboros.SerdeCbor.Value
import Ouroboros.SerdeCbor.Codec
import Ouroboros.SerdeCbor.Size
import Ouroboros.Mux.Frame
import Ouroboros.Protocols.Values
import Ouroboros.Protocols.Acceptance
import Ouroboros.Protocols.Protocol
import Ouroboros.Protocols.Reassembly
import Ouroboros.Protocols.Conversation
import Ouroboros.Protocols.Chainsync
import Ouroboros.Protocols.ChainsyncCodec
import Ouroboros.Protocols.ChainsyncSession
import Ouroboros.Protocols.ChainsyncAnswers
import Ouroboros.Protocols.Blockfetch
import Ouroboros.Protocols.BlockfetchCodec
import Ouroboros.Protocols.Handshake
import Ouroboros.Protocols.HandshakeCodec
import Ouroboros.Protocols.Narrowing
import Ouroboros.Protocols.VersionData
import Ouroboros.Protocols.Proposals
import Ouroboros.Protocols.Totality
import Ouroboros.Protocols.HeaderCodec
import Ouroboros.Protocols.HandshakeServer
import Ouroboros.Protocols.Network
import Ouroboros.Protocols.HandshakeAgreement
import Ouroboros.Protocols.HandshakeOutcome
import Ouroboros.Protocols.BlockfetchStream
import Ouroboros.Protocols.BlockfetchCalls
import Ouroboros.Protocols.BlockfetchWorld
import Ouroboros.Protocols.BlockfetchRuns
import Ouroboros.Protocols.TurnTaking
import Ouroboros.Mux.RoundTrip
import Ouroboros.Mux.ShortWrites
import Ouroboros.Mux.Connection
import Ouroboros.Mux.InFrame
import Ouroboros.Mux.Registry
import Ouroboros.Mux.Routing
import Ouroboros.Mux.Failure
import Ouroboros.Mux.Attached
import Ouroboros.Mux.Closing
import Ouroboros.Mux.Liveness
import Ouroboros.Protocols.Session
import Ouroboros.Protocols.Writing
import Ouroboros.Protocols.Interruption
import Ouroboros.Protocols.SendingSide
import Ouroboros.Protocols.BlockfetchCaller
import Ouroboros.Protocols.Delivery
import Ouroboros.Protocols.TxSubmission
import Ouroboros.Stack.Endpoint
import Ouroboros.Stack.Link
import Ouroboros.Stack.HandshakeParties
import Ouroboros.Stack.Refinement
import Ouroboros.Stack.Writes
import Ouroboros.Stack.Handshake
import Ouroboros.Stack.Client
import Ouroboros.Stack.Phases
import Ouroboros.Stack.Node
import Ouroboros.Stack.Sync
import Ouroboros.Stack.Fetch
import Ouroboros.Stack.TxSubmission
