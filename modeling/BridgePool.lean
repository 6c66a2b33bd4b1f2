import BridgePool.Account
import BridgePool.Address
import BridgePool.Address.Kept
import BridgePool.Address.Optional
import BridgePool.Amount
import BridgePool.Batch
import BridgePool.Batch.Lifecycle
import BridgePool.Bridge.Answer
import BridgePool.Bridge.Execute
import BridgePool.Bridge.Setup
import BridgePool.Bytes
import BridgePool.Chain
import BridgePool.Coin
import BridgePool.Config
import BridgePool.Denom
import BridgePool.Escrow
import BridgePool.Fault
import BridgePool.Json.Basic
import BridgePool.Json.Codec
import BridgePool.Json.Parser
import BridgePool.Json.Printer
import BridgePool.Json.Quoted
import BridgePool.Message
import BridgePool.Operation
import BridgePool.Pool
import BridgePool.Pool.Fees
import BridgePool.Pool.Listing
import BridgePool.Proofs.Accounting
import BridgePool.Proofs.Address
import BridgePool.Proofs.Answers
import BridgePool.Proofs.Atomicity
import BridgePool.Proofs.Balance
import BridgePool.Proofs.Batch.Lifecycle
import BridgePool.Proofs.Batch.Listing
import BridgePool.Proofs.Batch.Members
import BridgePool.Proofs.BlockEnds
import BridgePool.Proofs.Book.Batches
import BridgePool.Proofs.Book.Commute
import BridgePool.Proofs.Book.Counters
import BridgePool.Proofs.Book.Deed
import BridgePool.Proofs.Book.Moves
import BridgePool.Proofs.Book.Pool
import BridgePool.Proofs.Book.Sent
import BridgePool.Proofs.Book.Sound
import BridgePool.Proofs.Book.Timeouts
import BridgePool.Proofs.Book.Tokens
import BridgePool.Proofs.Book.Worth
import BridgePool.Proofs.Bridge.Execute
import BridgePool.Proofs.Bridge.Outcome
import BridgePool.Proofs.Bridge.Setup
import BridgePool.Proofs.Bytes
import BridgePool.Proofs.Chain
import BridgePool.Proofs.Codec
import BridgePool.Proofs.Coin
import BridgePool.Proofs.Config
import BridgePool.Proofs.Conversion
import BridgePool.Proofs.Escrow
import BridgePool.Proofs.Events
import BridgePool.Proofs.Forecast
import BridgePool.Proofs.Forfeits
import BridgePool.Proofs.HandOver
import BridgePool.Proofs.Heights
import BridgePool.Proofs.Hex
import BridgePool.Proofs.Independence
import BridgePool.Proofs.Indices
import BridgePool.Proofs.Isolation
import BridgePool.Proofs.Json.Quoted
import BridgePool.Proofs.Json.RoundTrip
import BridgePool.Proofs.Layout
import BridgePool.Proofs.Ledger
import BridgePool.Proofs.Lifecycle
import BridgePool.Proofs.Membership
import BridgePool.Proofs.Messages
import BridgePool.Proofs.Numbering
import BridgePool.Proofs.Operation
import BridgePool.Proofs.Paging
import BridgePool.Proofs.Pool
import BridgePool.Proofs.Pool.Contracts
import BridgePool.Proofs.Pool.Fees
import BridgePool.Proofs.Pool.Listing
import BridgePool.Proofs.Pool.Page
import BridgePool.Proofs.Pool.Queue
import BridgePool.Proofs.Pool.Roster
import BridgePool.Proofs.Pool.Scan
import BridgePool.Proofs.Reconfiguration
import BridgePool.Proofs.Recovery
import BridgePool.Proofs.Refusal
import BridgePool.Proofs.Replica
import BridgePool.Proofs.Request
import BridgePool.Proofs.Retraction
import BridgePool.Proofs.Run
import BridgePool.Proofs.Seek
import BridgePool.Proofs.Send
import BridgePool.Proofs.Settlement
import BridgePool.Proofs.Settlement.Receipt
import BridgePool.Proofs.Settlement.Sums
import BridgePool.Proofs.Settlement.Turn
import BridgePool.Proofs.Spelling
import BridgePool.Proofs.Store.Book
import BridgePool.Proofs.Store.Keeps
import BridgePool.Proofs.Store.Keys
import BridgePool.Proofs.Store.Records
import BridgePool.Proofs.Store.Scans
import BridgePool.Proofs.Token
import BridgePool.Proofs.Undo
import BridgePool.Proofs.Views
import BridgePool.Proofs.Walk
import BridgePool.Response
import BridgePool.Schema
import BridgePool.Store
import BridgePool.Store.Cell
import BridgePool.Store.Records
import BridgePool.Store.Rows
import BridgePool.Text.Base64
import BridgePool.Text.Decimal
import BridgePool.Text.Hex
import BridgePool.Text.Utf8
import BridgePool.Token
import BridgePool.Transfer
