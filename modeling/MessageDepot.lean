import MessageDepot.Binary64
import MessageDepot.Bytes
import MessageDepot.Calendar
import MessageDepot.Codec
import MessageDepot.Decimal
import MessageDepot.Digest.Sha1
import MessageDepot.Expiry
import MessageDepot.Group
import MessageDepot.Headers
import MessageDepot.Hex
import MessageDepot.Json.Basic
import MessageDepot.Json.Number
import MessageDepot.Json.Text
import MessageDepot.Json.Value
import MessageDepot.Key
import MessageDepot.Message
import MessageDepot.Proofs.Addition
import MessageDepot.Proofs.Agreement
import MessageDepot.Proofs.Atomicity
import MessageDepot.Proofs.CalendarTime
import MessageDepot.Proofs.CanonicalText
import MessageDepot.Proofs.CodecRoundTrip
import MessageDepot.Proofs.Commutation
import MessageDepot.Proofs.Confinement
import MessageDepot.Proofs.Depot
import MessageDepot.Proofs.EnvelopeFields
import MessageDepot.Proofs.EnvelopeGrammar
import MessageDepot.Proofs.EnvelopeRoundTrip
import MessageDepot.Proofs.EnvelopeSize
import MessageDepot.Proofs.Expiry
import MessageDepot.Proofs.GroupHistory
import MessageDepot.Proofs.GroupLoading
import MessageDepot.Proofs.History
import MessageDepot.Proofs.InterruptedExpiry
import MessageDepot.Proofs.Isolation
import MessageDepot.Proofs.Iteration
import MessageDepot.Proofs.JsonNumber
import MessageDepot.Proofs.JsonText
import MessageDepot.Proofs.JsonValue
import MessageDepot.Proofs.KeySeparation
import MessageDepot.Proofs.Ledger
import MessageDepot.Proofs.LedgerConfinement
import MessageDepot.Proofs.Marking
import MessageDepot.Proofs.MemoryConfinement
import MessageDepot.Proofs.MemoryRefinement
import MessageDepot.Proofs.MessageHistory
import MessageDepot.Proofs.QuoteText
import MessageDepot.Proofs.Refinement
import MessageDepot.Proofs.Refusal
import MessageDepot.Proofs.RelationalConfinement
import MessageDepot.Proofs.RelationalRefinement
import MessageDepot.Proofs.RoundedQuotients
import MessageDepot.Proofs.Spelling
import MessageDepot.Proofs.StableSort
import MessageDepot.Proofs.SummaryTotals
import MessageDepot.Proofs.TableInvariant
import MessageDepot.Proofs.Tables
import MessageDepot.Proofs.Timeouts
import MessageDepot.Proofs.TornFrames
import MessageDepot.Proofs.TornQuotes
import MessageDepot.Proofs.Trace
import MessageDepot.Proofs.WireGrammar
import MessageDepot.Quote.Basic
import MessageDepot.Quote.Json
import MessageDepot.Quote.Summary
import MessageDepot.Sorting
import MessageDepot.Store.Backend
import MessageDepot.Store.Memory
import MessageDepot.Store.Relational
import MessageDepot.Store.Session
import MessageDepot.Store.Statement
import MessageDepot.Store.Table
import MessageDepot.Uuid.Basic
import MessageDepot.Uuid.Named
import MessageDepot.Uuid.Text
import MessageDepot.Wire.Envelope
import MessageDepot.Wire.Field
import MessageDepot.Wire.Varint
