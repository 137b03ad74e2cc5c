import LlvmGather.Gather.Memory
import LlvmGather.Gather.Tags

/-!
The parts of `cache_impl.hh` that the atomic and the timing mode share. What lies below
the memory-side port is a parameter with a state of its own. `none` stands for a failed
assertion or a copy that leaves its buffer.
-/

namespace LlvmGather

/-- The two ways in which a cache calls what lies below it and waits for the answer. -/
structure MemSide (σ : Type) where
  sendAtomic : Packet → σ → Option (Packet × σ)
  sendFunctional : Packet → σ → Option (Packet × σ)

def AbstractMemory.memSide : MemSide AbstractMemory where
  sendAtomic pkt mem := mem.access pkt
  sendFunctional pkt mem := mem.functionalAccess pkt

namespace AbstractMemory

variable {mem : AbstractMemory} {req : Request}

def Answers (mem : AbstractMemory) (req : Request) : Prop :=
  mem.inRange (Packet.new req .ReadReq) = true ∧ mem.Readable (Packet.new req .ReadReq)

theorem Answers.whole (answers : mem.Answers req) (gather : req.isGather = true) :
    8 ∣ req.size := by
  have readable := answers.2
  rw [Readable] at readable
  exact (if_pos gather ▸ readable).1

theorem Answers.sendFunctional (answers : mem.Answers req) :
    AbstractMemory.memSide.sendFunctional (Packet.new req .ReadReq).allocate mem =
      some ({ (Packet.new req .ReadReq).allocate with
        cmd := .ReadResp
        data := contents mem.store req req.paddr req.size }, mem) :=
  functionalAccess_read answers.1 answers.2 rfl

end AbstractMemory

structure CacheParams extends TagStore where
  isTopLevel : Bool
  forwardSnoops : Bool
  addrRanges : Addr → Bool

/-- A pointer to a block: into the tag store, or the block for fills that find no place. -/
inductive BlkRef
  | way (set way : Nat)
  | tempBlock
deriving DecidableEq, Repr

structure Blocks where
  ways : Ways
  tempBlock : CacheBlk

def Blocks.empty : Blocks where
  ways := CacheBlk.empty
  tempBlock := CacheBlk.empty 0 0

def Blocks.get (blocks : Blocks) : BlkRef → CacheBlk
  | .way set way => blocks.ways set way
  | .tempBlock => blocks.tempBlock

def Blocks.put (blocks : Blocks) (ref : BlkRef) (blk : CacheBlk) : Blocks :=
  match ref with
  | .way set way => { blocks with ways := blocks.ways.put set way blk }
  | .tempBlock => { blocks with tempBlock := blk }

@[simp] theorem Blocks.get_put (blocks : Blocks) (ref : BlkRef) (blk : CacheBlk) :
    (blocks.put ref blk).get ref = blk := by
  cases ref <;> simp [Blocks.get, Blocks.put, Ways.put]

@[simp] theorem Blocks.put_put (blocks : Blocks) (ref : BlkRef) (first second : CacheBlk) :
    (blocks.put ref first).put ref second = blocks.put ref second := by
  cases ref <;> simp [Blocks.put, Ways.put]

@[simp] theorem Blocks.put_get (blocks : Blocks) (ref : BlkRef) :
    blocks.put ref (blocks.get ref) = blocks := by
  cases ref <;> simp [Blocks.get, Blocks.put, Ways.put]

theorem Blocks.get_put_ne (blocks : Blocks) {ref other : BlkRef} (blk : CacheBlk)
    (different : other ≠ ref) : (blocks.put ref blk).get other = blocks.get other := by
  cases ref with
  | tempBlock =>
      cases other with
      | tempBlock => exact absurd rfl different
      | way set way => rfl
  | way set way =>
      cases other with
      | tempBlock => rfl
      | way otherSet otherWay =>
          by_cases sameSet : otherSet = set
          · subst sameSet
            have otherPlace : otherWay ≠ way := fun same => different (same ▸ rfl)
            simp [Blocks.get, Blocks.put, Ways.put, otherPlace]
          · simp [Blocks.get, Blocks.put, Ways.put, sameSet]

namespace Cache

variable {σ : Type} (params : CacheParams) (side : MemSide σ)

def cmpAndSwap (pkt : Packet) (blk : CacheBlk) : Option (Packet × CacheBlk) := do
  guard (pkt.size ≤ 8)
  let offset := pkt.getOffset params.blkSize
  let overwrite ← pkt.writeData
  let found := ByteStore.read blk.data offset pkt.size
  let overwrites ← swapOverwrites pkt found
  let swapped :=
    if overwrites then
      { blk with data := ByteStore.write blk.data offset overwrite, isDirty := true }
    else blk
  return ({ pkt with data := found }, swapped)

/-- A write goes to the block and, through a packet made from the request, to what lies
below. A store conditional that fails still leaves the block dirty. -/
def satisfyWrite (pkt : Packet) (blk : CacheBlk) (below : σ) :
    Option (Packet × CacheBlk × σ) := do
  guard blk.isWritable
  let (success, answered, cleared) := blk.checkWrite pkt
  if success then
    let data ← answered.writeDataToBlock cleared.data params.blkSize
    let tempPkt ← (Packet.new answered.req .WriteReq).allocate.setData answered.data
    let (_, below) ← side.sendFunctional tempPkt below
    return (answered, { cleared with data, isDirty := true }, below)
  else return (answered, { cleared with isDirty := true }, below)

def shareBlock (pkt : Packet) (blk : CacheBlk) (deferredResponse pendingDowngrade : Bool) :
    Option (Packet × CacheBlk) :=
  if pkt.cmd.needsExclusive then do
    let answered ← if blk.isDirty then pkt.assertMemInhibit else some pkt
    return (answered, blk.invalidate)
  else if blk.isWritable && !pendingDowngrade && !pkt.sharedAsserted && !pkt.req.isInstFetch then
    if blk.isDirty then
      if !deferredResponse && !params.isTopLevel then do
        let answered ← pkt.assertMemInhibit
        return (answered, blk.cleaned)
      else some ({ pkt with sharedAsserted := true }, blk)
    else some (pkt, blk)
  else some ({ pkt with sharedAsserted := true }, blk)

/-- A read is served from below, not from the block. -/
def satisfyRead (pkt : Packet) (blk : CacheBlk) (deferredResponse pendingDowngrade : Bool)
    (below : σ) : Option (Packet × CacheBlk × σ) := do
  let tracked := if pkt.cmd.isLLSC then blk.trackLoadLocked pkt.req else blk
  let (tempPkt, below) ← side.sendFunctional (Packet.new pkt.req .ReadReq).allocate below
  let filled ← pkt.setData tempPkt.data
  if pkt.size = params.blkSize then
    let (answered, kept) ← shareBlock params filled tracked deferredResponse pendingDowngrade
    return (answered, kept, below)
  else return (filled, tracked, below)

def satisfyCpuSideRequest (pkt : Packet) (ref : BlkRef) (blk : CacheBlk)
    (deferredResponse pendingDowngrade : Bool) (below : σ) : Option (Packet × CacheBlk × σ) := do
  guard (pkt.cmd.isRequest ∧ blk.isValid ∧
    pkt.getOffset params.blkSize + pkt.size ≤ params.blkSize)
  if pkt.cmd = .SwapReq then
    let (answered, swapped) ← cmpAndSwap params pkt blk
    return (answered, swapped, below)
  else if pkt.cmd.isWrite && (!pkt.cmd.isWriteInvalidate || params.isTopLevel) then
    satisfyWrite params side pkt blk below
  else if pkt.cmd.isRead then
    satisfyRead params side pkt blk deferredResponse pendingDowngrade below
  else
    guard (pkt.cmd.isUpgrade ∨ pkt.cmd.isWriteInvalidate)
    guard (ref ≠ .tempBlock)
    return (pkt, blk.invalidate, below)

def writebackPacket (blk : CacheBlk) : Packet :=
  let flags := if blk.isSecure then Request.SECURE else 0
  let writebackReq :=
    Request.ofPhys (params.regenerateBlkAddr blk.tag blk.set) params.blkSize flags
  { Packet.new writebackReq .Writeback with
    isSupplyExclusive := blk.isWritable
    data := ByteStore.read blk.data 0 params.blkSize }

def writebackBlk (blk : CacheBlk) : Option (Packet × CacheBlk) :=
  if blk.isValid ∧ blk.isDirty then
    some (writebackPacket params blk, blk.cleaned)
  else none

/-- The functional writeback of a block, which does not keep it secure. -/
def writebackVisitor (blk : CacheBlk) (below : σ) : Option (CacheBlk × σ) :=
  if blk.isDirty then do
    guard blk.isValid
    let request := Request.ofPhys (params.regenerateBlkAddr blk.tag blk.set) params.blkSize 0
    let packet :=
      { Packet.new request .WriteReq with data := ByteStore.read blk.data 0 params.blkSize }
    let (_, below) ← side.sendFunctional packet below
    return (blk.cleaned, below)
  else some (blk, below)

def invalidateVisitor (blk : CacheBlk) : Option CacheBlk :=
  if blk.isValid then do
    guard (¬ blk.isDirty)
    return blk.invalidate
  else some blk

def findBlock (blocks : Blocks) (pkt : Packet) : Option BlkRef :=
  (params.findBlock blocks.ways pkt.getCacheAddr pkt.isSecure).map
    (BlkRef.way (params.extractSet pkt.getCacheAddr))

def clearLocks (blocks : Blocks) : Blocks :=
  { blocks with ways := fun set way => { blocks.ways set way with lockList := [] } }

def uncacheableFlush (pkt : Packet) (blocks : Blocks) (below : σ) : Option (Blocks × σ) := do
  let blocks := if pkt.req.isClearLL then clearLocks blocks else blocks
  match findBlock params blocks pkt with
  | some ref =>
      let (written, below) ← writebackVisitor params side (blocks.get ref) below
      let invalidated ← invalidateVisitor written
      return (blocks.put ref invalidated, below)
  | none => return (blocks, below)

/-- A place for a new block. The victim is any way of the set, and `outstanding` tells
whether a miss register exists for a block, and needs it exclusive. -/
def allocateBlock (outstanding : Addr → Bool → Option Bool) (victim : Nat) (blocks : Blocks)
    (addr : Addr) : Option (Option BlkRef × Blocks × List Packet) := do
  let ref := BlkRef.way (params.extractSet addr) (victim % params.assoc)
  let blk := blocks.get ref
  if blk.isValid then
    match outstanding (params.regenerateBlkAddr blk.tag blk.set) blk.isSecure with
    | some needsExclusive =>
        guard ((!blk.isWritable || blk.isDirty) && needsExclusive)
        return (none, blocks, [])
    | none =>
        if blk.isDirty then
          let (writeback, clean) ← writebackBlk params blk
          return (some ref, blocks.put ref clean, [writeback])
        else return (some ref, blocks, [])
  else return (some ref, blocks, [])

@[simps]
def fillStatus (pkt : Packet) (blk : CacheBlk) : CacheBlk :=
  { blk with
    isValid := true
    readable := true
    writable := blk.writable || !pkt.sharedAsserted
    isDirty := blk.isDirty || (!pkt.sharedAsserted && pkt.memInhibitAsserted)
    isSecure := blk.isSecure || pkt.isSecure }

def fillBlock (pkt : Packet) (blk : CacheBlk) : Option CacheBlk :=
  if pkt.cmd.isRead then
    if params.blkSize ≤ pkt.data.length then
      some { fillStatus pkt blk with
        data := ByteStore.write blk.data 0 (pkt.data.take params.blkSize) }
    else none
  else some (fillStatus pkt blk)

def placeFill (outstanding : Addr → Bool → Option Bool) (victim : Nat) (pkt : Packet)
    (found : Option BlkRef) (blocks : Blocks) : Option (BlkRef × Blocks × List Packet) :=
  let addr := pkt.getCacheAddr
  match found with
  | some ref => do
      guard ((blocks.get ref).tag = params.extractTag addr ∧
        (pkt.cmd.hasData ∨ (blocks.get ref).isValid))
      return (ref, blocks, [])
  | none => do
      guard (pkt.cmd.hasData ∧ (pkt.cmd.isRead ∨ pkt.cmd.isWriteInvalidate))
      let (place, blocks, writebacks) ← allocateBlock params outstanding victim blocks addr
      match place with
      | some ref =>
          return (ref, blocks.put ref (params.insertBlock (blocks.get ref) pkt), writebacks)
      | none =>
          guard (¬ blocks.tempBlock.isValid)
          let temp :=
            { blocks.tempBlock with set := params.extractSet addr, tag := params.extractTag addr }
          return (.tempBlock, blocks.put .tempBlock temp, writebacks)

def handleFill (outstanding : Addr → Bool → Option Bool) (victim : Nat) (pkt : Packet)
    (found : Option BlkRef) (blocks : Blocks) : Option (BlkRef × Blocks × List Packet) := do
  guard (pkt.cmd.isResponse ∨ pkt.cmd.isWriteInvalidate)
  let (ref, blocks, writebacks) ← placeFill params outstanding victim pkt found blocks
  let filled ← fillBlock params pkt (blocks.get ref)
  return (ref, blocks.put ref filled, writebacks)

structure Accessed (σ : Type) where
  satisfied : Bool
  pkt : Packet
  found : Option BlkRef
  blocks : Blocks
  writebacks : List Packet
  below : σ

/-- A writeback from above is stored whether or not there is a copy. -/
def accessWriteback (outstanding : Addr → Bool → Option Bool) (victim : Nat) (pkt : Packet)
    (found : Option BlkRef) (blocks : Blocks) (below : σ) : Option (Accessed σ) := do
  guard (pkt.size = params.blkSize ∧ params.blkSize ≤ pkt.data.length)
  let (place, blocks, writebacks) ←
    match found with
    | some ref => some (some ref, blocks, [])
    | none => do
        let (place, blocks, writebacks) ←
          allocateBlock params outstanding victim blocks pkt.getCacheAddr
        match place with
        | some ref =>
            let inserted :=
              { params.insertBlock (blocks.get ref) pkt with
                isValid := true
                writable := false
                readable := true
                isDirty := false
                isSecure := pkt.isSecure }
            some (some ref, blocks.put ref inserted, writebacks)
        | none => some (none, blocks, writebacks)
  match place with
  | some ref =>
      let blk := blocks.get ref
      let stored :=
        { blk with
          isDirty := true
          writable := blk.writable || pkt.isSupplyExclusive
          data := ByteStore.write blk.data 0 (pkt.data.take params.blkSize) }
      return ⟨true, pkt, some ref, blocks.put ref stored, writebacks, below⟩
  | none => return ⟨false, pkt, none, blocks, writebacks, below⟩

def access (outstanding : Addr → Bool → Option Bool) (victim : Nat) (pkt : Packet)
    (blocks : Blocks) (below : σ) : Option (Accessed σ) := do
  guard pkt.cmd.isRequest
  if pkt.req.isUncacheable then
    let (blocks, below) ← uncacheableFlush params side pkt blocks below
    return ⟨false, pkt, none, blocks, [], below⟩
  let found := findBlock params blocks pkt
  if pkt.cmd = .Writeback then
    accessWriteback params outstanding victim pkt found blocks below
  else
    match found with
    | some ref =>
        let blk := blocks.get ref
        if if pkt.cmd.needsExclusive then blk.isWritable else blk.isReadable then
          let (answered, used, below) ←
            satisfyCpuSideRequest params side pkt ref blk false false below
          return ⟨true, answered, found, blocks.put ref used, [], below⟩
        else return ⟨false, pkt, found, blocks, [], below⟩
    | none =>
        if pkt.cmd.isLLSC && pkt.cmd.isWrite then
          let failed := { pkt with req := { pkt.req with extraData := 0 } }
          return ⟨true, failed, none, blocks, [], below⟩
        else return ⟨false, pkt, none, blocks, [], below⟩

/-- The packet for the bus; `some none` when the request is passed on as it is. -/
def getBusPacket (cpuPkt : Packet) (blk : Option CacheBlk) (needsExclusive : Bool) :
    Option (Option Packet) :=
  let valid := blk.any (·.isValid)
  if cpuPkt.req.isUncacheable then some none
  else if !valid && (cpuPkt.cmd = .Writeback || cpuPkt.cmd.isUpgrade) then some none
  else do
    guard cpuPkt.cmd.needsResponse
    guard (valid → needsExclusive ∧ !(blk.any (·.isWritable)))
    let cmd :=
      if valid then if cpuPkt.cmd.isLLSC then .SCUpgradeReq else .UpgradeReq
      else if cpuPkt.cmd = .SCUpgradeFailReq ∨ cpuPkt.cmd = .StoreCondFailReq then
        .SCUpgradeFailReq
      else if cpuPkt.cmd.isWriteInvalidate then cpuPkt.cmd
      else if needsExclusive then .ReadExReq else .ReadReq
    return some (Packet.newBlock cpuPkt.req cmd params.blkSize).allocate

def promoteWholeLineWrites (pkt : Packet) : Option Packet :=
  if pkt.cmd = .WriteReq ∧ pkt.size = params.blkSize ∧ pkt.getOffset params.blkSize = 0 then do
    guard params.isTopLevel
    return { pkt with cmd := .WriteInvalidateReq }
  else some pkt

end Cache

end LlvmGather
