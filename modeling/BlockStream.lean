import BlockStream.Lz4.Block
import BlockStream.Random.Service
import BlockStream.Stream.Lz4
import BlockStream.Version
import BlockStream.Proofs.Lz4.Comparison
import BlockStream.Proofs.Lz4.Constant
import BlockStream.Proofs.Lz4.Lengths
import BlockStream.Proofs.Lz4.Overflow
import BlockStream.Proofs.Lz4.Periodic
import BlockStream.Proofs.Lz4.Restrictions
import BlockStream.Proofs.Lz4.Truncation
import BlockStream.Proofs.Random.Periods
import BlockStream.Proofs.Random.Reseeding
import BlockStream.Proofs.Random.Threads
import BlockStream.Proofs.Stream.Agreement
import BlockStream.Proofs.Stream.Append
import BlockStream.Proofs.Stream.Reserve
import BlockStream.Proofs.Stream.Safety
import BlockStream.Proofs.Stream.Scratch
import BlockStream.Proofs.Stream.Sizes
import BlockStream.Proofs.Stream.Truncation
