import LlvmGather.Gather.TimingSafety
import LlvmGather.Gather.Transparency

/-!
Any number of caches, and the packets that were ever sent between them, the CPUs and the
memory. A packet stays deliverable, to any cache and any number of times, so that the
runs of every arrangement of caches and crossbars, in either mode, are among those here.
-/

namespace LlvmGather

open Partial (Post)

structure Traffic where
  sent : List Packet
  functional : List Packet

def Traffic.none : Traffic := ⟨[], []⟩

/-- A level below that answers as it is told to, and keeps what it was sent. -/
def recording (reply answer : Packet → Packet) : MemSide Traffic where
  sendAtomic pkt traffic := some (reply pkt, { traffic with sent := traffic.sent ++ [pkt] })
  sendFunctional pkt traffic :=
    some (answer pkt, { traffic with functional := traffic.functional ++ [pkt] })

structure System where
  caches : Nat → CacheState
  packets : List Packet
  functional : List Packet

namespace System

def initial : System := ⟨fun _ => CacheState.empty, [], []⟩

def send (system : System) (sent : List Packet) : System :=
  { system with packets := system.packets ++ sent }

def setCache (system : System) (index : Nat) (cache : CacheState) : System :=
  { system with caches := Function.update system.caches index cache }

def record (system : System) (traffic : Traffic) : System :=
  { system with
    packets := system.packets ++ traffic.sent
    functional := system.functional ++ traffic.functional }

/-- What others made of a packet that was passed to them: nothing, the memory's response,
or a packet in flight that has the same cache address. -/
def Returns (system : System) (reply : Packet → Packet) : Prop :=
  ∀ pkt, reply pkt = pkt ∨
    (∃ response data, pkt.makeResponse = some response ∧ reply pkt = { response with data }) ∨
    reply pkt ∈ system.packets ∧ (reply pkt).getCacheAddr = pkt.getCacheAddr

end System

def Blocks.withData (blocks : Blocks) (data : BlkRef → Nat → Byte) : Blocks where
  ways := fun set way => { blocks.ways set way with data := data (.way set way) }
  tempBlock := { blocks.tempBlock with data := data .tempBlock }

/-- One event anywhere. The parts of `params` that tell caches apart belong to the caches
themselves; what connects them is not fixed. -/
inductive Step (params : Nat → CacheParams) (system : System) : System → Prop
  | read (req : Request) (bound : req.paddr.toNat < 2 ^ 61) :
      Step params system (system.send [Packet.createRead req])
  | write (req : Request) (data : List Byte) (bound : req.paddr.toNat < 2 ^ 61)
      (plain : req.isGather = false) :
      Step params system (system.send [Packet.createWrite req data])
  -- what crossbars and the memory do with packets
  | copy (pkt : Packet) (flies : pkt ∈ system.packets) :
      Step params system (system.send [pkt.clearFlags])
  | restore (pkt other : Packet) (flies : pkt ∈ system.packets) (otherFlies : other ∈ system.packets)
      (same : other.getCacheAddr = pkt.getCacheAddr) :
      Step params system (system.send [{ pkt with cmd := other.cmd }])
  | memory (pkt response : Packet) (data : List Byte) (flies : pkt ∈ system.packets)
      (serves : pkt.memInhibitAsserted = false) (responds : pkt.makeResponse = some response) :
      Step params system (system.send [{ response with data }])
  | badAddress (pkt response : Packet) (flies : pkt ∈ system.packets)
      (responds : pkt.makeResponse = some response) :
      Step params system (system.send [{ response with cmd := .BadAddressError }])
  -- timing mode
  | timingReq (index : Nat) (pkt : Packet) (reply answer : Packet → Packet) (victim : Nat)
      (unset : Addr) (cache : CacheState) (sent : List Packet) (traffic : Traffic)
      (flies : pkt ∈ system.packets) (returns : system.Returns reply)
      (runs : Cache.recvTimingReq (params index) (recording reply answer) victim unset
        (system.caches index) pkt Traffic.none = some (cache, sent, traffic)) :
      Step params system (((system.setCache index cache).send sent).record traffic)
  | timingSend (index : Nat) (id : QueueId) (position : Nat) (mshr after : MSHR) (pkt : Packet)
      (present : ((system.caches index).queue id)[position]? = some mshr)
      (runs : Cache.getTimingPacket (params index) (system.caches index) mshr = some (pkt, after)) :
      Step params system ((system.setCache index ((system.caches index).setQueue id
        (((system.caches index).queue id).set position after))).send [pkt])
  | inService (index : Nat) (id : QueueId) (position : Nat) (mshr after : MSHR) (pkt : Packet)
      (flies : pkt ∈ system.packets)
      (present : ((system.caches index).queue id)[position]? = some mshr)
      (sender : pkt.senderState = some mshr.addr)
      (runs : mshr.markInService (!pkt.sharedAsserted && pkt.memInhibitAsserted) =
        some (some after)) :
      Step params system (system.setCache index ((system.caches index).setQueue id
        (((system.caches index).queue id).set position after)))
  | forwarded (index : Nat) (id : QueueId) (position : Nat) (mshr : MSHR) (pending : Bool)
      (present : ((system.caches index).queue id)[position]? = some mshr)
      (runs : mshr.markInService pending = some none) :
      Step params system (system.setCache index ((system.caches index).setQueue id
        (((system.caches index).queue id).eraseIdx position)))
  | timingSnoop (index : Nat) (pkt : Packet) (above : Packet → Packet) (precedes : Bool)
      (answered : Packet) (cache : CacheState) (sent : List Packet)
      (flies : pkt ∈ system.packets) (returns : system.Returns above)
      (runs : Cache.recvTimingSnoopReq (params index) precedes (above pkt.clearFlags)
        (system.caches index) pkt = some (answered, cache, sent)) :
      Step params system ((system.setCache index cache).send (answered :: sent))
  | timingResp (index : Nat) (id : QueueId) (position : Nat) (mshr : MSHR) (pkt : Packet)
      (reply answer above : Packet → Packet) (victim : Packet → Nat) (cache : CacheState)
      (sent : List Packet) (traffic : Traffic) (flies : pkt ∈ system.packets)
      (present : ((system.caches index).queue id)[position]? = some mshr)
      (sender : pkt.senderState = some mshr.addr) (returns : system.Returns reply)
      (returnsAbove : system.Returns above)
      (runs : Cache.recvTimingResp (params index) (recording reply answer) victim above
        (system.caches index) id position pkt Traffic.none = some (cache, sent, traffic)) :
      Step params system (((system.setCache index cache).send sent).record traffic)
  -- atomic mode: what a cache sends is handled below before the cache is done
  | atomicSend (index : Nat) (pkt : Packet) (reply answer : Packet → Packet) (victim : Nat)
      (answered : Packet) (blocks : Blocks) (traffic : Traffic)
      (flies : pkt ∈ system.packets) (returns : system.Returns reply)
      (runs : Cache.recvAtomic (params index) (recording reply answer)
        (system.caches index).outstanding victim pkt (system.caches index).blocks Traffic.none =
          some (answered, blocks, traffic)) :
      Step params system (system.send traffic.sent)
  | atomicReq (index : Nat) (pkt : Packet) (reply answer : Packet → Packet) (victim : Nat)
      (answered : Packet) (blocks : Blocks) (traffic : Traffic)
      (flies : pkt ∈ system.packets) (returns : system.Returns reply)
      (runs : Cache.recvAtomic (params index) (recording reply answer)
        (system.caches index).outstanding victim pkt (system.caches index).blocks Traffic.none =
          some (answered, blocks, traffic)) :
      Step params system (((system.setCache index { system.caches index with blocks }).send
        [answered]).record traffic)
  | atomicSnoop (index : Nat) (pkt : Packet) (above : Packet → Packet) (answered : Packet)
      (blocks : Blocks) (flies : pkt ∈ system.packets) (returns : system.Returns above)
      (runs : Cache.recvAtomicSnoop (params index) (above pkt) (system.caches index).blocks pkt =
        some (answered, blocks)) :
      Step params system ((system.setCache index { system.caches index with blocks }).send
        [answered])
  -- what tools and functional accesses do to the blocks
  | writebackVisitor (index : Nat) (ref : BlkRef) (answer : Packet → Packet)
      (written : CacheBlk) (traffic : Traffic)
      (runs : Cache.writebackVisitor (params index) (recording id answer)
        ((system.caches index).blocks.get ref) Traffic.none = some (written, traffic)) :
      Step params system ((system.setCache index { system.caches index with
        blocks := (system.caches index).blocks.put ref written }).record traffic)
  | invalidateVisitor (index : Nat) (ref : BlkRef) (invalidated : CacheBlk)
      (runs : Cache.invalidateVisitor ((system.caches index).blocks.get ref) = some invalidated) :
      Step params system (system.setCache index { system.caches index with
        blocks := (system.caches index).blocks.put ref invalidated })
  | functionalAccess (index : Nat) (data : BlkRef → Nat → Byte) :
      Step params system (system.setCache index { system.caches index with
        blocks := (system.caches index).blocks.withData data })

inductive Reachable (params : Nat → CacheParams) : System → Prop
  | initial : Reachable params System.initial
  | step {before after : System} (reached : Reachable params before)
      (taken : Step params before after) : Reachable params after

def Traffic.Safe (traffic : Traffic) : Prop :=
  (∀ pkt ∈ traffic.sent, ∃ line, pkt.SafeFor line) ∧
    ∀ pkt ∈ traffic.functional, ∃ line, pkt.SafeFor line

theorem Traffic.safe_none : Traffic.none.Safe := by
  simp [Traffic.Safe, Traffic.none]

structure System.Safe (params : Nat → CacheParams) (system : System) : Prop where
  caches : ∀ index, (system.caches index).Safe (params index).toTagStore
  packets : ∀ pkt ∈ system.packets, ∃ line, pkt.SafeFor line
  functional : ∀ pkt ∈ system.functional, ∃ line, pkt.SafeFor line

namespace System.Safe

variable {params : Nat → CacheParams} {system : System}

theorem initial : System.initial.Safe params where
  caches := fun _ => CacheState.safe_empty _
  packets := by simp [System.initial]
  functional := by simp [System.initial]

theorem sendAll (safe : system.Safe params) {sent : List Packet}
    (sentSafe : ∀ pkt ∈ sent, ∃ line, pkt.SafeFor line) : (system.send sent).Safe params where
  caches := safe.caches
  packets := List.forall_mem_append.mpr ⟨safe.packets, sentSafe⟩
  functional := safe.functional

theorem send (safe : system.Safe params) {line : Addr} {sent : List Packet}
    (sentSafe : ∀ pkt ∈ sent, pkt.SafeFor line) : (system.send sent).Safe params :=
  safe.sendAll fun pkt member => ⟨line, sentSafe pkt member⟩

theorem sendOne (safe : system.Safe params) {line : Addr} {pkt : Packet}
    (pktSafe : pkt.SafeFor line) : (system.send [pkt]).Safe params :=
  safe.send (by simpa using pktSafe)

theorem setCache (safe : system.Safe params) {index : Nat} {cache : CacheState}
    (cacheSafe : cache.Safe (params index).toTagStore) :
    (system.setCache index cache).Safe params where
  caches := by
    intro other
    by_cases same : other = index
    · subst same
      simpa [System.setCache] using cacheSafe
    · simpa [System.setCache, same] using safe.caches other
  packets := safe.packets
  functional := safe.functional

theorem setBlocks (safe : system.Safe params) {index : Nat} {blocks : Blocks}
    (blocksSafe : blocks.Safe (params index).toTagStore) :
    (system.setCache index { system.caches index with blocks }).Safe params :=
  safe.setCache ((safe.caches index).withBlocks blocksSafe)

theorem record (safe : system.Safe params) {traffic : Traffic} (trafficSafe : traffic.Safe) :
    (system.record traffic).Safe params where
  caches := safe.caches
  packets := List.forall_mem_append.mpr ⟨safe.packets, trafficSafe.1⟩
  functional := List.forall_mem_append.mpr ⟨safe.functional, trafficSafe.2⟩

theorem inFlight (safe : system.Safe params) {pkt : Packet} (flies : pkt ∈ system.packets) :
    pkt.SafeFor (patternBits pkt.getCacheAddr) := by
  obtain ⟨line, pktSafe⟩ := safe.packets pkt flies
  rw [pktSafe.pattern]
  exact pktSafe

theorem returns (safe : system.Safe params) {reply : Packet → Packet}
    (returns : system.Returns reply) {line : Addr} {pkt : Packet} (pktSafe : pkt.SafeFor line) :
    (reply pkt).SafeFor line := by
  rcases returns pkt with same | ⟨response, data, responds, same⟩ | ⟨flies, same⟩
  · rw [same]
    exact pktSafe
  · rw [same]
    exact (pktSafe.makeResponse response responds).withData data
  · have replySafe := safe.inFlight flies
    rw [same, pktSafe.pattern] at replySafe
    exact replySafe

theorem recording_safe (safe : system.Safe params) {reply : Packet → Packet}
    (returns : system.Returns reply) (answer : Packet → Packet) :
    (recording reply answer).Safe Traffic.Safe where
  functional := by
    intro line pkt traffic pktSafe trafficSafe
    refine Post.of_some ⟨trafficSafe.1, ?_⟩
    exact List.forall_mem_append.mpr ⟨trafficSafe.2, by simpa using ⟨line, pktSafe⟩⟩
  atomic := by
    intro line pkt traffic pktSafe trafficSafe
    refine Post.of_some ⟨safe.returns returns pktSafe, ?_, trafficSafe.2⟩
    exact List.forall_mem_append.mpr ⟨trafficSafe.1, by simpa using ⟨line, pktSafe⟩⟩

end System.Safe

theorem Packet.SafeFor.ofRequest {pkt : Packet} (addr : pkt.addr = pkt.req.paddr)
    (bound : pkt.req.paddr.toNat < 2 ^ 61) (inhibited : pkt.memInhibitAsserted = false)
    (sender : pkt.senderState = none)
    (quiet : patternBits pkt.getCacheAddr ≠ 0 → pkt.cmd.quiet = true) :
    pkt.SafeFor (patternBits pkt.getCacheAddr) := by
  have plain : patternBits pkt.req.paddr = 0 := (patternBits_eq_zero_iff _).mpr bound
  refine ⟨?_, plain, rfl, fun _ => inhibited, quiet, ?_⟩
  · rw [addr, plain]
  · simp [sender]

theorem createRead_safe {req : Request} (bound : req.paddr.toNat < 2 ^ 61) :
    (Packet.createRead req).SafeFor (patternBits (Packet.createRead req).getCacheAddr) := by
  refine Packet.SafeFor.ofRequest rfl bound rfl rfl fun _ => ?_
  change (Packet.makeReadCmd req).quiet = true
  rw [Packet.makeReadCmd]
  split
  · rfl
  · split <;> rfl

theorem createWrite_safe {req : Request} {data : List Byte} (bound : req.paddr.toNat < 2 ^ 61)
    (ungathered : req.isGather = false) :
    (Packet.createWrite req data).SafeFor
      (patternBits (Packet.createWrite req data).getCacheAddr) := by
  refine Packet.SafeFor.ofRequest rfl bound rfl rfl fun patterned => absurd ?_ patterned
  have noPattern : (Packet.createWrite req data).req.getGatherPattern = 0 := by
    simp [Packet.createWrite, Packet.new, Request.getGatherPattern, ungathered]
  rw [Packet.getCacheAddr_plain noPattern]
  exact (patternBits_eq_zero_iff _).mpr bound

theorem Blocks.Safe.withData {tags : TagStore} {blocks : Blocks} (safe : blocks.Safe tags)
    (data : BlkRef → Nat → Byte) : (blocks.withData data).Safe tags := by
  intro ref
  obtain ⟨line, held⟩ := safe ref
  cases ref with
  | way set way => exact ⟨line, held.keep rfl rfl held.clean⟩
  | tempBlock => exact ⟨line, held.keep rfl rfl held.clean⟩

theorem Step.preserves_safe {params : Nat → CacheParams} {before after : System}
    (taken : Step params before after) (safe : before.Safe params) : after.Safe params := by
  cases taken with
  | read req bound => exact safe.sendOne (createRead_safe bound)
  | write req data bound plain => exact safe.sendOne (createWrite_safe bound plain)
  | copy pkt flies => exact safe.sendOne (safe.inFlight flies).clearFlags
  | restore pkt other flies otherFlies same =>
      have otherSafe := safe.inFlight otherFlies
      rw [same] at otherSafe
      exact safe.sendOne ((safe.inFlight flies).withCmd otherSafe.quiet)
  | memory pkt response data flies serves responds =>
      exact safe.sendOne (((safe.inFlight flies).makeResponse response responds).withData data)
  | badAddress pkt response flies responds =>
      exact safe.sendOne
        (((safe.inFlight flies).makeResponse response responds).withCmd fun _ => rfl)
  | timingReq index pkt reply answer victim unset cache sent traffic flies returns runs =>
      obtain ⟨⟨cacheSafe, sentSafe⟩, trafficSafe⟩ := Cache.recvTimingReq_safe
        (safe.recording_safe returns answer) (safe.inFlight flies) (safe.caches index) victim unset
        Traffic.safe_none _ runs
      exact ((safe.setCache cacheSafe).send sentSafe).record trafficSafe
  | timingSend index id position mshr after pkt present runs =>
      obtain ⟨pktSafe, afterSafe⟩ := Cache.getTimingPacket_safe
        ((safe.caches index).getRegister id present) _ runs
      exact (safe.setCache ((safe.caches index).setRegister id position afterSafe)).sendOne pktSafe
  | inService index id position mshr after pkt flies present sender runs =>
      have pktSafe := safe.inFlight flies
      have mshrSafe := (safe.caches index).getRegister id present
      rw [pktSafe.sender _ sender] at mshrSafe
      have afterSafe := mshrSafe.markInService
        (fun patterned => by rw [pktSafe.inhibited patterned, Bool.and_false]) _ runs after rfl
      exact safe.setCache ((safe.caches index).setRegister id position afterSafe)
  | forwarded index id position mshr pending present runs =>
      exact safe.setCache ((safe.caches index).eraseRegister id position)
  | timingSnoop index pkt above precedes answered cache sent flies returns runs =>
      have pktSafe := safe.inFlight flies
      obtain ⟨answeredSafe, cacheSafe, sentSafe⟩ := Cache.recvTimingSnoopReq_safe pktSafe
        (safe.returns returns pktSafe.clearFlags) (safe.caches index) precedes _ runs
      exact (safe.setCache cacheSafe).send (List.forall_mem_cons.mpr ⟨answeredSafe, sentSafe⟩)
  | timingResp index id position mshr pkt reply answer above victim cache sent traffic flies
      present sender returns returnsAbove runs =>
      have pktSafe := safe.inFlight flies
      obtain ⟨⟨cacheSafe, sentSafe⟩, trafficSafe⟩ := Cache.recvTimingResp_safe
        (safe.recording_safe returns answer) pktSafe
        (fun _ targetSafe => safe.returns returnsAbove targetSafe) (safe.caches index) victim id
        present (pktSafe.sender _ sender) Traffic.safe_none _ runs
      exact ((safe.setCache cacheSafe).send sentSafe).record trafficSafe
  | atomicSend index pkt reply answer victim answered blocks traffic flies returns runs =>
      obtain ⟨-, -, trafficSafe⟩ := Cache.recvAtomic_safe (safe.recording_safe returns answer)
        (safe.inFlight flies) (safe.caches index).blocks _ victim Traffic.safe_none _ runs
      exact safe.sendAll trafficSafe.1
  | atomicReq index pkt reply answer victim answered blocks traffic flies returns runs =>
      obtain ⟨answeredSafe, blocksSafe, trafficSafe⟩ := Cache.recvAtomic_safe
        (safe.recording_safe returns answer) (safe.inFlight flies) (safe.caches index).blocks _
        victim Traffic.safe_none _ runs
      exact ((safe.setBlocks blocksSafe).sendOne answeredSafe).record trafficSafe
  | atomicSnoop index pkt above answered blocks flies returns runs =>
      have pktSafe := safe.inFlight flies
      obtain ⟨answeredSafe, blocksSafe⟩ := Cache.recvAtomicSnoop_safe pktSafe
        (safe.returns returns pktSafe) (safe.caches index).blocks _ runs
      exact (safe.setBlocks blocksSafe).sendOne answeredSafe
  | writebackVisitor index ref answer written traffic runs =>
      obtain ⟨line, held⟩ := (safe.caches index).blocks ref
      obtain ⟨writtenSafe, trafficSafe⟩ := Cache.writebackVisitor_safe
        (safe.recording_safe (fun _ => Or.inl rfl) answer) held Traffic.safe_none _ runs
      exact (safe.setBlocks ((safe.caches index).blocks.put writtenSafe)).record trafficSafe
  | invalidateVisitor index ref invalidated runs =>
      obtain ⟨line, held⟩ := (safe.caches index).blocks ref
      exact safe.setBlocks ((safe.caches index).blocks.put
        (Cache.invalidateVisitor_safe held _ runs))
  | functionalAccess index data =>
      exact safe.setBlocks ((safe.caches index).blocks.withData data)

theorem Reachable.safe {params : Nat → CacheParams} {system : System}
    (reached : Reachable params system) : system.Safe params := by
  induction reached with
  | initial => exact System.Safe.initial
  | step _ taken ih => exact taken.preserves_safe ih

/-- In every reachable state the valid blocks of gathers are clean. So no block is written
back to an address with pattern bits, and no write in flight, in a register or in a
functional packet has one. -/
theorem gatherLines_clean (params : Nat → CacheParams) {system : System}
    (reached : Reachable params system) :
    (∀ index ref, ((system.caches index).blocks.get ref).isValid = true →
      patternBits ((params index).regenerateBlkAddr ((system.caches index).blocks.get ref).tag
        ((system.caches index).blocks.get ref).set) ≠ 0 →
      ((system.caches index).blocks.get ref).isDirty = false) ∧
    (∀ index ref writeback, Cache.writebackBlk (params index)
      ((system.caches index).blocks.get ref) = some writeback →
      patternBits writeback.1.addr = 0) ∧
    (∀ index ref answer written, Cache.writebackVisitor (params index) (recording id answer)
      ((system.caches index).blocks.get ref) Traffic.none = some written →
      ∀ pkt ∈ written.2.functional, patternBits pkt.addr = 0) ∧
    (∀ index id, ∀ mshr ∈ (system.caches index).queue id, ∀ target ∈ mshr.targets.entries,
      target.pkt.cmd = .Writeback → patternBits target.pkt.getCacheAddr = 0) ∧
    (∀ pkt ∈ system.packets ++ system.functional, pkt.cmd.isWrite = true →
      patternBits pkt.getCacheAddr = 0) := by
  have safe := reached.safe
  refine ⟨?_, ?_, ?_, ?_, ?_⟩
  · intro index ref valid patterned
    obtain ⟨line, held⟩ := (safe.caches index).blocks ref
    by_contra dirty
    rw [Bool.not_eq_false] at dirty
    exact patterned (held.pattern.trans (held.plain_of_isDirty dirty))
  · intro index ref writeback writes
    obtain ⟨line, held⟩ := (safe.caches index).blocks ref
    exact (Cache.writebackBlk_safe held writeback writes).1.addr
  · intro index ref answer written runs pkt member
    obtain ⟨line, held⟩ := (safe.caches index).blocks ref
    obtain ⟨-, trafficSafe⟩ := Cache.writebackVisitor_safe
      (safe.recording_safe (fun _ => Or.inl rfl) answer) held Traffic.safe_none written runs
    obtain ⟨_, pktSafe⟩ := trafficSafe.2 pkt member
    exact pktSafe.addr
  · intro index id mshr member target listed writes
    obtain ⟨line, mshrSafe⟩ := (safe.caches index).registers id mshr member
    have targetSafe := mshrSafe.targets.entries target listed
    rw [targetSafe.pattern]
    exact targetSafe.plain_of_isWrite (by rw [writes]; rfl)
  · intro pkt member writes
    have both := List.forall_mem_append.mpr ⟨safe.packets, safe.functional⟩
    obtain ⟨line, pktSafe⟩ := both pkt member
    rw [pktSafe.pattern]
    exact pktSafe.plain_of_isWrite writes

def zeroReply (pkt : Packet) : Packet :=
  match pkt.makeResponse with
  | some response => { response with data := List.replicate pkt.size 0 }
  | none => pkt

theorem returns_zeroReply (system : System) : system.Returns zeroReply := by
  intro pkt
  rw [zeroReply]
  split
  · rename_i response responds
    exact Or.inr (Or.inl ⟨response, _, responds, rfl⟩)
  · exact Or.inl rfl

def gatherRead : Packet := Packet.createRead (gatherQword 0x08 1)

theorem gatherLines_clean_filled : ∃ system, Reachable (fun _ => singleBlock) system ∧
    ((system.caches 0).blocks.get (.way 0 0)).isValid = true ∧
    patternBits (singleBlock.blkAddr ((system.caches 0).blocks.get (.way 0 0))) = 1 ∧
    ((system.caches 0).blocks.get (.way 0 0)).isDirty = false := by
  have filled : (Cache.recvAtomic singleBlock (recording zeroReply zeroReply)
      CacheState.empty.outstanding 0 gatherRead Blocks.empty Traffic.none).map (fun outcome =>
        ((outcome.2.1.get (.way 0 0)).isValid,
          patternBits (singleBlock.blkAddr (outcome.2.1.get (.way 0 0))))) = some (true, 1) := by
    decide
  obtain ⟨⟨answered, blocks, traffic⟩, runs, held⟩ := Option.map_eq_some_iff.mp filled
  obtain ⟨valid, patterned⟩ := Prod.mk.inj held
  have issued : Reachable (fun _ => singleBlock) (System.initial.send [gatherRead]) :=
    Reachable.initial.step (Step.read (gatherQword 0x08 1) (by decide))
  have reached := issued.step (Step.atomicReq 0 gatherRead zeroReply zeroReply 0 answered blocks
    traffic (List.mem_singleton_self _) (returns_zeroReply _) runs)
  refine ⟨_, reached, valid, patterned, ?_⟩
  refine (gatherLines_clean _ reached).1 0 (.way 0 0) valid ?_
  intro plain
  exact absurd (patterned.symm.trans plain) (by decide)

end LlvmGather
