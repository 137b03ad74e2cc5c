import LlvmGather.Gather.Cache

/-!
Requests in atomic mode, `recvAtomic`, and the runs that a CPU makes through one cache
directly above the memory.
-/

namespace LlvmGather

namespace Cache

variable {σ : Type} (params : CacheParams) (side : MemSide σ)

def fillAndSatisfy (outstanding : Addr → Bool → Option Bool) (victim : Nat) (fill : Packet)
    (accessed : Accessed σ) (below : σ) : Option (Packet × Blocks × List Packet × σ) := do
  let (ref, blocks, evicted) ←
    handleFill params outstanding victim fill accessed.found accessed.blocks
  let (answered, used, below) ←
    satisfyCpuSideRequest params side accessed.pkt ref (blocks.get ref) false false below
  return (answered, blocks.put ref used, accessed.writebacks ++ evicted, below)

def atomicMiss (outstanding : Addr → Bool → Option Bool) (victim : Nat) (accessed : Accessed σ) :
    Option (Packet × Blocks × List Packet × σ) := do
  let pkt := accessed.pkt
  let blk := accessed.found.map accessed.blocks.get
  match ← getBusPacket params pkt blk pkt.cmd.needsExclusive with
  | none =>
      let (answered, below) ← side.sendAtomic pkt accessed.below
      return (answered, accessed.blocks, accessed.writebacks, below)
  | some busPkt =>
      let (response, below) ← side.sendAtomic busPkt accessed.below
      if pkt.cmd.needsResponse then
        guard response.cmd.isResponse
        if response.cmd.isError then
          let failed ← pkt.makeResponse
          return ({ failed with cmd := response.cmd }, accessed.blocks, accessed.writebacks, below)
        else if pkt.cmd.isWriteInvalidate then
          -- the data are those of the request, not of the response
          if params.isTopLevel then
            fillAndSatisfy params side outstanding victim pkt accessed below
          else
            match accessed.found with
            | some ref =>
                let (answered, used, below) ← satisfyCpuSideRequest params side pkt ref
                  (accessed.blocks.get ref) false false below
                return (answered, accessed.blocks.put ref used, accessed.writebacks, below)
            | none => return (pkt, accessed.blocks, accessed.writebacks, below)
        else if response.cmd.isRead || response.cmd = .UpgradeResp then
          fillAndSatisfy params side outstanding victim response accessed below
        else
          let answered ← pkt.makeResponse
          return (answered, accessed.blocks, accessed.writebacks, below)
      else return (pkt, accessed.blocks, accessed.writebacks, below)

/-- A request that a cache above has promised to answer only invalidates. -/
def atomicInhibited (pkt : Packet) (blocks : Blocks) (below : σ) :
    Option (Packet × Blocks × σ) := do
  guard (¬ pkt.req.isUncacheable)
  if pkt.cmd.isInvalidate then
    let cleared :=
      match findBlock params blocks pkt with
      | some ref => blocks.put ref (blocks.get ref).invalidate
      | none => blocks
    let (answered, below) ← side.sendAtomic pkt below
    return (answered, cleared, below)
  else return (pkt, blocks, below)

def sendWritebacks : List Packet → σ → Option σ
  | [], below => some below
  | writeback :: rest, below => do
      let (_, below) ← side.sendAtomic writeback below
      sendWritebacks rest below

def recvAtomic (outstanding : Addr → Bool → Option Bool) (victim : Nat) (pkt : Packet)
    (blocks : Blocks) (below : σ) : Option (Packet × Blocks × σ) := do
  let pkt ← promoteWholeLineWrites params pkt
  if pkt.memInhibitAsserted then atomicInhibited params side pkt blocks below
  else
    let accessed ← access params side outstanding victim pkt blocks below
    let (answered, blocks, writebacks, below) ←
      if accessed.satisfied then
        some (accessed.pkt, accessed.blocks, accessed.writebacks, accessed.below)
      else atomicMiss params side outstanding victim accessed
    let below ← sendWritebacks side writebacks below
    if answered.cmd.needsResponse then
      let response ← answered.makeResponse
      return (response, blocks, below)
    else return (answered, blocks, below)

def noMiss (_ : Addr) (_ : Bool) : Option Bool := none

end Cache

inductive CpuAccess
  | read (req : Request)
  | write (req : Request) (data : List Byte)

namespace CpuAccess

def packet : CpuAccess → Packet
  | read req => Packet.createRead req
  | write req data => Packet.createWrite req data

def output : CpuAccess → Packet → List Byte
  | read _, response => response.data
  | write _ _, _ => []

/-- The access on a memory without caches, where a gather takes the exchanged addresses. -/
def flat (store : Nat → Byte) : CpuAccess → List Byte × (Nat → Byte)
  | read req => (contents store req req.paddr req.size, store)
  | write req data => ([], ByteStore.write store req.paddr.toNat data)

end CpuAccess

def runFlat : List CpuAccess → (Nat → Byte) → List (List Byte)
  | [], _ => []
  | entry :: rest, store => (entry.flat store).1 :: runFlat rest (entry.flat store).2

end LlvmGather
