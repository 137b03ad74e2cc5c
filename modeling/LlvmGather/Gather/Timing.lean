import LlvmGather.Gather.Atomic
import LlvmGather.Gather.Mshr

/-!
Requests, responses and snoops in timing mode, from `cache_impl.hh`, for caches without a
hardware prefetcher. The packets that an event sends are returned in a list. Which
register is served next is up to whoever schedules the events, so blocking and times are
left out.
-/

namespace LlvmGather

structure CacheState where
  blocks : Blocks
  mshrQueue : List MSHR
  writeBuffer : List MSHR

def CacheState.empty : CacheState := ⟨Blocks.empty, [], []⟩

inductive QueueId
  | mshrQueue
  | writeBuffer
deriving DecidableEq, Repr

def CacheState.queue (cache : CacheState) : QueueId → List MSHR
  | .mshrQueue => cache.mshrQueue
  | .writeBuffer => cache.writeBuffer

def CacheState.setQueue (cache : CacheState) (id : QueueId) (queue : List MSHR) : CacheState :=
  match id with
  | .mshrQueue => { cache with mshrQueue := queue }
  | .writeBuffer => { cache with writeBuffer := queue }

def findMatch (queue : List MSHR) (addr : Addr) (isSecure : Bool) : Option Nat :=
  queue.findIdx? fun mshr => mshr.addr == addr && mshr.isSecure == isSecure

def CacheState.outstanding (cache : CacheState) (addr : Addr) (isSecure : Bool) : Option Bool :=
  (cache.mshrQueue.find? fun mshr => mshr.addr == addr && mshr.isSecure == isSecure).map
    MSHR.needsExclusive

namespace Cache

variable {σ : Type} (params : CacheParams) (side : MemSide σ)

def allocateWriteBuffer (cache : CacheState) (pkt : Packet) : Option CacheState := do
  guard (pkt.cmd.isWrite ∧ ¬ pkt.cmd.isRead)
  return { cache with writeBuffer := cache.writeBuffer ++ [MSHR.allocate pkt.getCacheAddr pkt] }

def allocateWriteBuffers (cache : CacheState) : List Packet → Option CacheState
  | [] => some cache
  | writeback :: rest => do
      let cache ← allocateWriteBuffer cache writeback
      allocateWriteBuffers cache rest

def allocateMissBuffer (cache : CacheState) (pkt : Packet) : Option CacheState := do
  guard (¬ pkt.req.isUncacheable)
  let mshr := MSHR.allocate (params.blockAlign pkt.getCacheAddr) pkt
  return { cache with mshrQueue := cache.mshrQueue ++ [mshr] }

def allocateUncachedReadBuffer (cache : CacheState) (pkt : Packet) : Option CacheState := do
  guard pkt.cmd.isRead
  return { cache with mshrQueue := cache.mshrQueue ++ [MSHR.allocate pkt.getCacheAddr pkt] }

def dummyResponse (pkt : Packet) : Option Packet :=
  pkt.makeResponse.map fun response => { response with data := List.replicate pkt.size 0xFF }

def timingInhibited (cache : CacheState) (pkt : Packet) :
    Option (CacheState × List Packet) := do
  guard (¬ pkt.req.isUncacheable)
  if pkt.cmd.needsExclusive && !pkt.isSupplyExclusive then
    let snoopPkt ← pkt.clearFlags.assertMemInhibit
    return (cache, [snoopPkt])
  else return (cache, [])

def timingUncacheable (cache : CacheState) (pkt : Packet) (below : σ) :
    Option (CacheState × List Packet × σ) := do
  let (blocks, below) ← uncacheableFlush params side pkt cache.blocks below
  let cache := { cache with blocks }
  if pkt.cmd.isPrefetch then
    let response ← dummyResponse pkt
    return (cache, [response], below)
  else
    guard pkt.cmd.needsResponse
    let cache ←
      if pkt.cmd.isWrite && !pkt.cmd.isRead then allocateWriteBuffer cache pkt
      else allocateUncachedReadBuffer cache pkt
    return (cache, [], below)

/-- The copy of a software prefetch that goes on in its place. The new request leaves its
pattern unset; only one that has the same cache address by chance passes the assertion. -/
def prefetchCopy (pkt : Packet) (unset : Addr) : Option Packet := do
  let req :=
    { Request.ofPhys pkt.req.paddr pkt.req.size pkt.req.flags with gatherPattern := unset }
  let copy := (Packet.new req pkt.cmd).allocate
  guard (copy.getCacheAddr = pkt.getCacheAddr ∧ copy.size = pkt.size)
  return copy

def blockReads (cache : CacheState) (pkt : Packet) (found : Option BlkRef) : Option CacheState :=
  match found with
  | some ref =>
      let blk := cache.blocks.get ref
      if blk.isValid then do
        guard (pkt.cmd.needsExclusive ∧ ¬ blk.isWritable)
        return { cache with blocks := cache.blocks.put ref { blk with readable := false } }
      else some cache
  | none => some cache

def enqueueMiss (cache : CacheState) (pkt : Packet) (found : Option BlkRef)
    (registered : Option Nat) : Option CacheState :=
  match registered with
  | some index => do
      let mshr ← cache.mshrQueue[index]?
      let mshr ← mshr.allocateTarget pkt
      return { cache with mshrQueue := cache.mshrQueue.set index mshr }
  | none =>
      if pkt.cmd = .Writeback then allocateWriteBuffer cache pkt
      else do
        let cache ← blockReads cache pkt found
        allocateMissBuffer params cache pkt

def timingMiss (cache : CacheState) (pkt : Packet) (found : Option BlkRef) (unset : Addr) :
    Option (CacheState × List Packet) := do
  let registered :=
    findMatch cache.mshrQueue (params.blockAlign pkt.getCacheAddr) pkt.isSecure
  if pkt.cmd.isSWPrefetch && params.isTopLevel then
    let response ← dummyResponse pkt
    if registered.isSome then return (cache, [response])
    else
      let copy ← prefetchCopy pkt unset
      let cache ← enqueueMiss params cache copy found none
      return (cache, [response])
  else
    let cache ← enqueueMiss params cache pkt found registered
    return (cache, [])

def respond (pkt : Packet) : Option (List Packet) :=
  if pkt.cmd.needsResponse then pkt.makeResponse.map fun response => [response] else some []

def recvTimingReq (victim : Nat) (unset : Addr) (cache : CacheState) (pkt : Packet) (below : σ) :
    Option (CacheState × List Packet × σ) := do
  guard pkt.cmd.isRequest
  let pkt ← promoteWholeLineWrites params pkt
  if pkt.memInhibitAsserted then
    let (cache, sent) ← timingInhibited cache pkt
    return (cache, sent, below)
  else if pkt.req.isUncacheable then timingUncacheable params side cache pkt below
  else
    let accessed ← access params side cache.outstanding victim pkt cache.blocks below
    let cache := { cache with blocks := accessed.blocks }
    let (cache, sent) ←
      if accessed.satisfied then (respond accessed.pkt).map fun sent => (cache, sent)
      else timingMiss params cache accessed.pkt accessed.found unset
    let cache ← allocateWriteBuffers cache accessed.writebacks
    return (cache, sent, accessed.below)

def doTimingSupplyResponse (reqPkt : Packet) (blkData : Nat → Byte) (pendingInval : Bool) :
    Option Packet := do
  guard (reqPkt.cmd.isRequest ∧ reqPkt.cmd.needsResponse)
  guard (reqPkt.cmd.isInvalidate ∨ reqPkt.sharedAsserted)
  let response ← reqPkt.makeResponse
  let filled ←
    if response.cmd.isRead then response.setDataFromBlock blkData params.blkSize
    else some response
  return if filled.cmd = .ReadResp ∧ pendingInval then
      { filled with cmd := .ReadRespWithInvalidate }
    else filled

def mergeAbove (isTiming : Bool) (pkt above : Packet) : Option Packet :=
  if params.forwardSnoops then
    if isTiming then do
      let pkt ← if above.memInhibitAsserted then pkt.assertMemInhibit else some pkt
      return { pkt with sharedAsserted := pkt.sharedAsserted || above.sharedAsserted }
    else some above
  else some pkt

def supply (isTiming pendingInval haveExclusive : Bool) (pkt : Packet) (blk : CacheBlk) :
    Option (Packet × List Packet) := do
  let inhibited ← pkt.assertMemInhibit
  let owned :=
    if haveExclusive then { inhibited with isSupplyExclusive := true } else inhibited
  if isTiming then
    let response ← doTimingSupplyResponse params owned blk.data pendingInval
    return (owned, [response])
  else
    let response ← owned.makeResponse
    let filled ← response.setDataFromBlock blk.data params.blkSize
    return (filled, [])

/-- `handleSnoop` on a block of this cache, for a packet that was sent as `origCmd`. -/
def snoopBlock (isTiming pendingInval : Bool) (origCmd : MemCmd) (pkt : Packet) (blk : CacheBlk) :
    Option (Packet × CacheBlk × List Packet) := do
  let invalidate := origCmd.isInvalidate
  let respond := blk.isDirty && pkt.cmd.needsResponse && !pkt.cmd.isWriteInvalidate
  if pkt.cmd = .HardPFReq then return (pkt, blk, [])
  else
    let reads := pkt.cmd.isRead && !invalidate
    guard (reads → ¬ origCmd.needsExclusive)
    let shared := if reads then { pkt with sharedAsserted := true } else pkt
    let downgraded := if reads then { blk with writable := false } else blk
    let (answered, sent) ←
      if respond then supply params isTiming pendingInval blk.isWritable shared blk
      else some (shared, [])
    return (answered, if invalidate then downgraded.invalidate else downgraded, sent)

def handleSnoop (isTiming pendingInval : Bool) (above pkt : Packet) (found : Option BlkRef)
    (blocks : Blocks) : Option (Packet × Blocks × List Packet) := do
  guard pkt.cmd.isRequest
  let merged ← mergeAbove params isTiming pkt above
  match found with
  | some ref =>
      if (blocks.get ref).isValid then
        let (answered, blk, sent) ←
          snoopBlock params isTiming pendingInval pkt.cmd merged (blocks.get ref)
        return (answered, blocks.put ref blk, sent)
      else return (merged, blocks, [])
  | none => return (merged, blocks, [])

def snoopWriteBuffer (cache : CacheState) (pkt : Packet) :
    Option (Packet × CacheState × List Packet) := do
  let blkAddr := params.blockAlign pkt.getCacheAddr
  let hit := fun mshr : MSHR => mshr.addr == blkAddr && mshr.isSecure == pkt.isSecure
  match cache.writeBuffer.filter hit, cache.writeBuffer.findIdx? hit with
  | [], _ => return (pkt, cache, [])
  | [entry], some index =>
      guard (¬ entry.isUncacheable ∧ entry.getNumTargets = 1)
      let target ← entry.targets.entries.head?
      let wbPkt := target.pkt
      guard (wbPkt.cmd = .Writeback)
      let inhibited ← pkt.assertMemInhibit
      let blkData := fun offset => wbPkt.data.getD offset 0
      if pkt.cmd.needsExclusive then
        guard pkt.cmd.isInvalidate
        let response ← doTimingSupplyResponse params inhibited blkData false
        return (inhibited, { cache with writeBuffer := cache.writeBuffer.eraseIdx index }, [response])
      else
        let shared := { inhibited with sharedAsserted := true }
        let response ← doTimingSupplyResponse params shared blkData false
        -- the writeback is no longer the only copy
        let kept :=
          { target with pkt := { wbPkt with isSupplyExclusive := false } }
        let entry := { entry with targets := { entry.targets with entries := [kept] } }
        let queue :=
          if pkt.cmd.isInvalidate then cache.writeBuffer.eraseIdx index
          else cache.writeBuffer.set index entry
        return (shared, { cache with writeBuffer := queue }, [response])
  | _, _ => none

def snoopMshr (precedes : Bool) (cache : CacheState) (pkt : Packet) :
    Option (Bool × Packet × CacheState) :=
  match findMatch cache.mshrQueue (params.blockAlign pkt.getCacheAddr) pkt.isSecure with
  | some index =>
      if pkt.cmd = .HardPFReq then some (true, pkt, cache)
      else do
        let mshr ← cache.mshrQueue[index]?
        let (deferred, answered, mshr) ← mshr.handleSnoop pkt precedes
        return (deferred, answered, { cache with mshrQueue := cache.mshrQueue.set index mshr })
  | none => some (false, pkt, cache)

def recvTimingSnoopReq (precedes : Bool) (above : Packet) (cache : CacheState) (pkt : Packet) :
    Option (Packet × CacheState × List Packet) :=
  if pkt.req.isUncacheable || pkt.cmd = .Writeback || !params.addrRanges pkt.getCacheAddr then
    some (pkt, cache, [])
  else do
    let found := findBlock params cache.blocks pkt
    let (deferred, pkt, cache) ← snoopMshr params precedes cache pkt
    if deferred then return (pkt, cache, [])
    else
      let (pkt, cache, fromBuffer) ← snoopWriteBuffer params cache pkt
      let (pkt, blocks, sent) ← handleSnoop params true false above pkt found cache.blocks
      return (pkt, { cache with blocks }, fromBuffer ++ sent)

def recvAtomicSnoop (above : Packet) (blocks : Blocks) (pkt : Packet) :
    Option (Packet × Blocks) :=
  if pkt.req.isUncacheable || pkt.cmd = .Writeback then some (pkt, blocks)
  else do
    let (pkt, blocks, _) ←
      handleSnoop params false false above pkt (findBlock params blocks pkt) blocks
    return (pkt, blocks)

def getTimingPacket (cache : CacheState) (mshr : MSHR) : Option (Packet × MSHR) := do
  guard (¬ mshr.inService)
  let target ← mshr.targets.entries.head?
  let way := params.findBlock cache.blocks.ways mshr.addr mshr.isSecure
  if mshr.isForwardNoResponse then
    guard way.isNone
    return ({ target.pkt with senderState := some mshr.addr }, mshr)
  else
    guard (target.pkt.cmd ≠ .HardPFReq)
    let blk := way.map fun way => cache.blocks.ways (params.extractSet mshr.addr) way
    match ← getBusPacket params target.pkt blk mshr.needsExclusive with
    | some busPkt =>
        return ({ busPkt with senderState := some mshr.addr }, { mshr with isForward := false })
    | none =>
        return ({ target.pkt with senderState := some mshr.addr }, { mshr with isForward := true })

/-- The state of `recvTimingResp` while it works through the targets of a register. -/
structure Serving (σ : Type) where
  mshr : MSHR
  blocks : Blocks
  blk : Option BlkRef
  isFill : Bool
  writebacks : List Packet
  sent : List Packet
  below : σ

def beginServing (victim : Nat) (cache : CacheState) (mshr : MSHR) (pkt : Packet) (below : σ) :
    Option (Serving σ) := do
  let found := findBlock params cache.blocks pkt
  let isFill := !mshr.isForward && (pkt.cmd.isRead || pkt.cmd = .UpgradeResp)
  if isFill && !pkt.cmd.isError then
    let mshr ← mshr.handleFill pkt
    let (ref, blocks, evicted) ←
      handleFill params cache.outstanding victim pkt found cache.blocks
    return ⟨mshr, blocks, some ref, isFill, evicted, [], below⟩
  else return ⟨mshr, cache.blocks, found, isFill, [], [], below⟩

def fillForTarget (outstanding : Addr → Bool → Option Bool) (victim : Nat) (pkt target : Packet)
    (serving : Serving σ) : Option (Serving σ) :=
  if target.cmd.isWriteInvalidate && params.isTopLevel then do
    guard (¬ pkt.cmd.isError)
    let mshr ← serving.mshr.handleFill target
    let (ref, blocks, evicted) ←
      handleFill params outstanding victim target serving.blk serving.blocks
    return { serving with
      mshr, blocks
      blk := some ref
      isFill := true
      writebacks := serving.writebacks ++ evicted }
  else some serving

def answerTarget (pkt target : Packet) (serving : Serving σ) : Option (Packet × Serving σ) :=
  if serving.isFill then do
    let ref ← serving.blk
    let (answered, blk, below) ← satisfyCpuSideRequest params side target ref
      (serving.blocks.get ref) true serving.mshr.postDowngrade serving.below
    guard (¬ answered.req.isUncacheable)
    return (answered, { serving with blocks := serving.blocks.put ref blk, below })
  else if pkt.cmd = .UpgradeFailResp then do
    guard (target.cmd = .StoreCondReq ∨ target.cmd = .StoreCondFailReq ∨
      target.cmd = .SCUpgradeFailReq)
    return ({ target with req := { target.req with extraData := 0 } }, serving)
  else if pkt.cmd.isRead && !pkt.cmd.isError then do
    let copied ← target.setData pkt.data
    return (copied, serving)
  else some (target, serving)

def targetResponse (postInvalidate : Bool) (pkt answered : Packet) : Option Packet := do
  let response ← answered.makeResponse
  let response := if pkt.cmd.isError then { response with cmd := pkt.cmd } else response
  return if response.cmd = .ReadResp ∧ (pkt.cmd.isInvalidate ∨ postInvalidate) then
      { response with cmd := .ReadRespWithInvalidate }
    else response

def serveCpu (outstanding : Addr → Bool → Option Bool) (victim : Nat) (pkt target : Packet)
    (serving : Serving σ) : Option (Serving σ) :=
  if target.cmd.isSWPrefetch && params.isTopLevel then some serving
  else do
    let serving ← fillForTarget params outstanding victim pkt target serving
    let (answered, serving) ← answerTarget params side pkt target serving
    let response ← targetResponse serving.mshr.postInvalidate pkt answered
    return { serving with sent := serving.sent ++ [response] }

def serveSnoop (above pkt target : Packet) (serving : Serving σ) : Option (Serving σ) := do
  guard (¬ pkt.cmd.isError ∧ (pkt.cmd.isInvalidate → serving.mshr.postInvalidate))
  let (_, blocks, sent) ← handleSnoop params true serving.mshr.postInvalidate above target
    serving.blk serving.blocks
  return { serving with blocks, sent := serving.sent ++ sent }

def serveTarget (outstanding : Addr → Bool → Option Bool) (victim : Packet → Nat)
    (above : Packet → Packet) (pkt : Packet) (target : Target) (serving : Serving σ) :
    Option (Serving σ) :=
  match target.source with
  | .FromCPU =>
      serveCpu params side outstanding (victim target.pkt) pkt target.pkt serving
  | .FromPrefetcher => do
      guard (target.pkt.cmd = .HardPFReq)
      return serving
  | .FromSnoop => serveSnoop params (above target.pkt) pkt target.pkt serving

def Serving.popTarget (serving : Serving σ) : Serving σ :=
  { serving with mshr := { serving.mshr with
    targets := { serving.mshr.targets with entries := serving.mshr.targets.entries.tail } } }

/-- The loop over the targets. Serving one may append deferred targets, so the fuel is
the number of all of them. -/
def serveTargets (outstanding : Addr → Bool → Option Bool) (victim : Packet → Nat)
    (above : Packet → Packet) (pkt : Packet) : Nat → Serving σ → Option (Serving σ)
  | 0, serving => if serving.mshr.targets.entries.isEmpty then some serving else none
  | fuel + 1, serving =>
      match serving.mshr.targets.entries with
      | [] => some serving
      | target :: _ => do
          let serving ← serveTarget params side outstanding victim above pkt target serving
          serveTargets outstanding victim above pkt fuel serving.popTarget

def settleBlock (pkt : Packet) (serving : Serving σ) : Option Blocks :=
  match serving.blk with
  | some ref =>
      let blk := serving.blocks.get ref
      if blk.isValid then
        if (pkt.cmd.isInvalidate || serving.mshr.postInvalidate) &&
            (!pkt.cmd.isWriteInvalidate || !params.isTopLevel) then do
          guard (ref ≠ .tempBlock)
          return serving.blocks.put ref blk.invalidate
        else if serving.mshr.postDowngrade then
          some (serving.blocks.put ref { blk with writable := false })
        else some serving.blocks
      else some serving.blocks
  | none => some serving.blocks

def releaseMshr (cache : CacheState) (id : QueueId) (index : Nat) (serving : Serving σ) :
    CacheState :=
  match serving.mshr.promoteDeferredTargets with
  | some mshr =>
      let queue := (cache.queue id).set index { mshr with inService := false }
      let blocks :=
        match serving.blk with
        | some ref => cache.blocks.put ref { cache.blocks.get ref with readable := false }
        | none => cache.blocks
      { cache with blocks }.setQueue id queue
  | none => cache.setQueue id ((cache.queue id).eraseIdx index)

def clearTempBlock (blk : Option BlkRef) (cache : CacheState) : Option CacheState :=
  if blk = some .tempBlock then do
    let temp := cache.blocks.tempBlock
    let cache ←
      if temp.isDirty then do
        let (writeback, _) ← writebackBlk params temp
        allocateWriteBuffer cache writeback
      else some cache
    return { cache with blocks := cache.blocks.put .tempBlock temp.invalidate }
  else some cache

def recvTimingResp (victim : Packet → Nat) (above : Packet → Packet) (cache : CacheState)
    (id : QueueId) (index : Nat) (pkt : Packet) (below : σ) :
    Option (CacheState × List Packet × σ) := do
  guard pkt.cmd.isResponse
  let mshr ← (cache.queue id)[index]?
  let serving ← beginServing params (victim pkt) cache mshr pkt below
  let serving ← serveTargets params side cache.outstanding victim above pkt mshr.getNumTargets
    serving
  let blocks ← settleBlock params pkt serving
  let cache := releaseMshr { cache with blocks } id index serving
  let cache ← allocateWriteBuffers cache serving.writebacks
  let cache ← clearTempBlock params serving.blk cache
  return (cache, serving.sent, serving.below)

end Cache

end LlvmGather
