import HostBlocks.Allocation.Listing
import HostBlocks.Config.Loading
import HostBlocks.Proofs.Config.Validity
import HostBlocks.Proofs.Enumeration.Chances
import HostBlocks.Proofs.FirstFree
import HostBlocks.Proofs.History.Updates
import HostBlocks.Proofs.Interleaving.Orphans
import HostBlocks.Proofs.Interleaving.Partition
import HostBlocks.Proofs.Listing.Agreement
import HostBlocks.Proofs.Membership
import HostBlocks.Proofs.Names.Decoding
import HostBlocks.Proofs.Reclaim
import HostBlocks.Proofs.Transcripts.Claim
import HostBlocks.Proofs.Transcripts.Release
import HostBlocks.Rehearsal
import HostBlocks.Proofs.Interleaving.Clearing
import HostBlocks.Proofs.Effects
import HostBlocks.Proofs.Undo
import HostBlocks.Proofs.History.Revisions
import HostBlocks.Proofs.Separation
import HostBlocks.Proofs.IndexFailures
import HostBlocks.Proofs.Enumeration.Positions
import HostBlocks.Proofs.Enumeration.Hints
import HostBlocks.Proofs.Address.Texts
import HostBlocks.Proofs.Records
import HostBlocks.Proofs.Machine.Arithmetic
import HostBlocks.Proofs.Machine.Enumerators
import HostBlocks.Proofs.Machine.Exactness
import HostBlocks.Proofs.Network.Nesting
import HostBlocks.Proofs.Leases
