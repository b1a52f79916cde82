import BatchColumn.Block.Text
import BatchColumn.Encoding
import BatchColumn.Proofs.Agreement
import BatchColumn.Proofs.Availability
import BatchColumn.Proofs.Chains
import BatchColumn.Proofs.Demands
import BatchColumn.Proofs.Identity
import BatchColumn.Proofs.Inspection
import BatchColumn.Proofs.LogicalSizes
import BatchColumn.Proofs.Measures
import BatchColumn.Proofs.Recall
import BatchColumn.Proofs.Retention
import BatchColumn.Proofs.Settling
import BatchColumn.Proofs.Statistics
import BatchColumn.Sample
import BatchColumn.Proofs.Strays
import BatchColumn.Proofs.Runs
import BatchColumn.Proofs.Corruption
import BatchColumn.Proofs.CorruptCopies
import BatchColumn.Proofs.Selections
import BatchColumn.Proofs.Nullness
import BatchColumn.Proofs.Materialising
import BatchColumn.Proofs.Decoding
import BatchColumn.Proofs.Tiling
import BatchColumn.Proofs.Unnesting
import BatchColumn.Proofs.Views
