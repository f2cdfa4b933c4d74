import SampledSeq.Proofs.Codec.Cheapest
import SampledSeq.Proofs.DeltaSeq.Agreement
import SampledSeq.Proofs.HybridSeq.Guarded
import SampledSeq.Proofs.Reader.Walk
import SampledSeq.Proofs.Variant.Inflated
import SampledSeq.Proofs.Variant.Isolated
