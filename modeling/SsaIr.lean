import SsaIr.Container.Interner
import SsaIr.Container.Slab
import SsaIr.Inspect.Flow
import SsaIr.Machine.Probes
import SsaIr.Main
import SsaIr.Proofs.Container.Capacity
import SsaIr.Proofs.Container.FiniteSet
import SsaIr.Proofs.Flow.Compression
import SsaIr.Proofs.Machine.Elements
import SsaIr.Proofs.Machine.Safety
import SsaIr.Proofs.Memory.Refusals
import SsaIr.Proofs.Parse.Literals
import SsaIr.Proofs.Promote.Effect
import SsaIr.Proofs.Promote.Total
import SsaIr.Proofs.Syntax.Quoting
import SsaIr.Proofs.Syntax.Spacing
import SsaIr.Proofs.Verify.Built
import SsaIr.Proofs.Verify.Exact
import SsaIr.Graph.StoredText
