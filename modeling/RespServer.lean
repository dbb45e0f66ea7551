import RespServer.Connection
import RespServer.Frame.Sequence
import RespServer.Main
import RespServer.Proofs.Store.Lookup
import RespServer.Proofs.Store.RecordMap
import RespServer.Proofs.Store.Refinement
import RespServer.Proofs.Frame.Steady
import RespServer.Proofs.Frame.Stream
import RespServer.Proofs.Decoder.Cutting
import RespServer.Proofs.Frame.Arrival
import RespServer.Proofs.Session.History
import RespServer.Proofs.Command.LastWrite
import RespServer.Proofs.Session.Sequential
import RespServer.Proofs.Frame.Readers
import RespServer.Proofs.Frame.Cursor
import RespServer.Proofs.Frame.Grammar
import RespServer.Proofs.Frame.RoundTrip
import RespServer.Proofs.Frame.Decision
import RespServer.Proofs.Keyspace.Unswept
import RespServer.Proofs.Keyspace.Separation
import RespServer.Proofs.Store.Usage
import RespServer.Proofs.Keyspace.Lingering
import RespServer.Proofs.Frame.Pipeline
import RespServer.Proofs.Command.Reply
import RespServer.Proofs.Session.Framing
import RespServer.Proofs.Session.Volume
import RespServer.Proofs.Session.Arrival
import RespServer.Proofs.Frame.Nesting
import RespServer.Proofs.Decoder.Calls
import RespServer.Proofs.Session.Isolation
import RespServer.Proofs.Decoder.Limit
import RespServer.Proofs.Text.Lossy
import RespServer.Proofs.Command.Table
import RespServer.Proofs.Frame.Canonical
import RespServer.Proofs.Command.Remaining
import RespServer.Proofs.Command.Counting
import RespServer.Proofs.Command.Footprint
import RespServer.Proofs.Store.Sweeping
import RespServer.Proofs.Command.LetterCase
import RespServer.Proofs.Keyspace.Lifespan
import RespServer.Proofs.Connection.Ending
import RespServer.Proofs.Frame.Reservation
import RespServer.Proofs.CommandLine.Configuration
