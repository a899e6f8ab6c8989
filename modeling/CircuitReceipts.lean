import CircuitReceipts.Observation.Timings
import CircuitReceipts.Main
import CircuitReceipts.Proofs.Engine.RegisterSize
import CircuitReceipts.Proofs.Engine.Safety
import CircuitReceipts.Proofs.Merkle.Agreement
import CircuitReceipts.Proofs.Merkle.Levels
import CircuitReceipts.Proofs.Pipeline.Execution
import CircuitReceipts.Proofs.Pipeline.Reported
import CircuitReceipts.Proofs.Receipt.Attestation
import CircuitReceipts.Proofs.Receipt.Totality
import CircuitReceipts.Proofs.Receipt.Trace
import CircuitReceipts.Proofs.Value.Decoding
import CircuitReceipts.Proofs.Receipt.Options
import CircuitReceipts.Proofs.Pipeline.Standard
import CircuitReceipts.Proofs.Codec.Hex
import CircuitReceipts.Proofs.CommandLine.Parsing
import CircuitReceipts.Proofs.CommandLine.Run
import CircuitReceipts.Proofs.CommandLine.Result
import CircuitReceipts.Proofs.CommandLine.Escape
import CircuitReceipts.Proofs.Engine.Dependence
import CircuitReceipts.Proofs.Validation.Verdict
import CircuitReceipts.Proofs.Receipt.Proving
import CircuitReceipts.Proofs.Engine.Monotone
import CircuitReceipts.Proofs.Engine.Consumption
import CircuitReceipts.Proofs.Validation.Concurrency
import CircuitReceipts.Proofs.Registry.Export
import CircuitReceipts.Proofs.Transcript.History
import CircuitReceipts.Proofs.Transcript.Squeezing
import CircuitReceipts.Proofs.Transcript.Binding
import CircuitReceipts.Proofs.Transcript.Slicing
import CircuitReceipts.Proofs.Receipt.Growth
import CircuitReceipts.Proofs.Value.Flat
import CircuitReceipts.Proofs.Codec.HexForm
import CircuitReceipts.Proofs.Engine.Registers
import CircuitReceipts.Proofs.Codec.Cursor
