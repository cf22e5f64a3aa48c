import JitDump.Container.Encode
import JitDump.Files.World
import JitDump.Main
import JitDump.Proofs.Congruence
import JitDump.Proofs.Delivery
import JitDump.Proofs.Locality
import JitDump.Proofs.Records
import JitDump.Proofs.Lockstep
import JitDump.Proofs.Chunking
import JitDump.Proofs.Framing
import JitDump.Proofs.WireOrder
import JitDump.Proofs.Gating
import JitDump.Proofs.Interning
import JitDump.Proofs.Obfuscation
import JitDump.Proofs.DebugBlocks
import JitDump.Proofs.Canonical
import JitDump.Proofs.Templates
import JitDump.Proofs.Fronts
import JitDump.Proofs.Pools
import JitDump.Proofs.Trees
import JitDump.Proofs.Nesting
import JitDump.Proofs.RoundTrip
import JitDump.Proofs.Prefixes
import JitDump.Proofs.Outages
import JitDump.Proofs.Handles
import JitDump.Proofs.Service
import JitDump.Proofs.Liveness
import JitDump.Proofs.Residents
import JitDump.Proofs.Twins
import JitDump.Proofs.Listings
import JitDump.Proofs.Lossless
import JitDump.Proofs.Independence
import JitDump.Proofs.Returns
import JitDump.Proofs.WellFormed
import JitDump.Proofs.Styles
import JitDump.Proofs.FileTrees
import JitDump.Proofs.Worlds
import JitDump.Proofs.Moves
import JitDump.Proofs.Outputs
import JitDump.Proofs.Batches
import JitDump.Proofs.Inputs
import JitDump.Proofs.Directories
import JitDump.Proofs.Isolation
import JitDump.Proofs.Stops
import JitDump.Proofs.Verdicts
import JitDump.Proofs.Depths
import JitDump.Proofs.Causes
import JitDump.Proofs.Volumes
import JitDump.Proofs.Cycles
import JitDump.Proofs.Groups
import JitDump.Proofs.Worths
import JitDump.Proofs.RawEquality
import JitDump.Proofs.Writes
import JitDump.Proofs.Retries
import JitDump.Proofs.Accounts
import JitDump.Proofs.Restoring
import JitDump.Proofs.Growth
import JitDump.Proofs.Tokens
import JitDump.Proofs.Rehashing
import JitDump.Proofs.Sampling
import JitDump.Proofs.Mismatches
import JitDump.Proofs.Overshoots
import JitDump.Proofs.Layers
