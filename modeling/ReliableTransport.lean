import ReliableTransport.CallError
import ReliableTransport.Calls
import ReliableTransport.CommandLine.Command
import ReliableTransport.CommandLine.Demand
import ReliableTransport.CommandLine.Grammar
import ReliableTransport.CommandLine.Input
import ReliableTransport.CommandLine.Numeral
import ReliableTransport.CommandLine.Report
import ReliableTransport.Config
import ReliableTransport.Dict
import ReliableTransport.Main
import ReliableTransport.Net.Address
import ReliableTransport.Net.Address.Reader
import ReliableTransport.Overflow
import ReliableTransport.Proofs.Callers
import ReliableTransport.Proofs.Conduct
import ReliableTransport.Proofs.Intake
import ReliableTransport.Proofs.Integrity
import ReliableTransport.Proofs.Link
import ReliableTransport.Proofs.Numbering
import ReliableTransport.Proofs.Openings
import ReliableTransport.Proofs.Receptions
import ReliableTransport.Proofs.Records
import ReliableTransport.Proofs.Signed
import ReliableTransport.Proofs.Strokes
import ReliableTransport.Proofs.Turns
import ReliableTransport.Receiver.Clocked
import ReliableTransport.Receiver.Engine
import ReliableTransport.Receiver.Inbox
import ReliableTransport.Receiver.Peer
import ReliableTransport.Receiver.Registry
import ReliableTransport.Relay.Dice
import ReliableTransport.Relay.Engine
import ReliableTransport.Relay.Fault
import ReliableTransport.Sender.Clocked
import ReliableTransport.Sender.Connection
import ReliableTransport.Sender.Engine
import ReliableTransport.Sender.Outbox
import ReliableTransport.Sender.Table
import ReliableTransport.Time.Alarm
import ReliableTransport.Time.Backoff
import ReliableTransport.Time.Duration
import ReliableTransport.Time.Silence
import ReliableTransport.Transfer
import ReliableTransport.Wire.Bytes
import ReliableTransport.Wire.Checksum
import ReliableTransport.Wire.Frame
import ReliableTransport.Wire.Hex
import ReliableTransport.Proofs.Network
import ReliableTransport.Proofs.Ties
import ReliableTransport.Proofs.Pledges
import ReliableTransport.Proofs.Delivery
import ReliableTransport.Proofs.Incarnations
import ReliableTransport.Proofs.Patience
import ReliableTransport.Proofs.Calm
import ReliableTransport.Proofs.Progress
import ReliableTransport.Proofs.Readers
import ReliableTransport.Proofs.Farewell
import ReliableTransport.Proofs.Requests
import ReliableTransport.Proofs.Moves
import ReliableTransport.Proofs.Places
import ReliableTransport.Proofs.Custody
import ReliableTransport.Proofs.Newest
import ReliableTransport.Proofs.Answers
import ReliableTransport.Proofs.Leaving
import ReliableTransport.Proofs.Chronicle
import ReliableTransport.Proofs.Expiry
import ReliableTransport.Proofs.Handshake
import ReliableTransport.Proofs.Care
import ReliableTransport.Proofs.Lapses
import ReliableTransport.Proofs.Teardown
import ReliableTransport.Proofs.Passage
import ReliableTransport.Proofs.Errands
import ReliableTransport.Proofs.Settling
import ReliableTransport.Proofs.Language
import ReliableTransport.Proofs.Standing
import ReliableTransport.Proofs.Stillness
import ReliableTransport.Proofs.Discards
import ReliableTransport.Proofs.Ledger
import ReliableTransport.Proofs.Phases
import ReliableTransport.Proofs.Bystanders
import ReliableTransport.Proofs.Outlook
import ReliableTransport.Proofs.Exchange
import ReliableTransport.Proofs.Fates
import ReliableTransport.Proofs.Relaying
import ReliableTransport.Proofs.Vigil
import ReliableTransport.Proofs.Gauge
import ReliableTransport.Proofs.Partings
import ReliableTransport.Proofs.Waits
import ReliableTransport.Proofs.Sums
import ReliableTransport.Proofs.Codec
import ReliableTransport.Proofs.Flips
import ReliableTransport.Proofs.Rewinds
import ReliableTransport.Proofs.Wakes
import ReliableTransport.Proofs.Flight
import ReliableTransport.Proofs.Tenure
import ReliableTransport.Proofs.Namesakes
import ReliableTransport.Proofs.Heartbeats
import ReliableTransport.Proofs.Accounts
import ReliableTransport.Proofs.Mishaps
import ReliableTransport.Proofs.Arrivals
import ReliableTransport.Proofs.Receipts
import ReliableTransport.Proofs.Memory
