import LlvmGather.Gather.LineSafety
import LlvmGather.Gather.Timing

/-!
What keeps the lines of gathers clean while they wait in miss registers, and through the
requests, responses and snoops of timing mode.
-/

namespace LlvmGather

open Partial (Post)

structure TargetList.SafeFor (line : Addr) (list : TargetList) : Prop where
  entries : ∀ target ∈ list.entries, target.pkt.SafeFor line
  shared : line ≠ 0 → list.needsExclusive = false

structure MSHR.SafeFor (line : Addr) (mshr : MSHR) : Prop where
  addr : patternBits mshr.addr = line
  targets : mshr.targets.SafeFor line
  deferred : mshr.deferredTargets.SafeFor line
  pending : line ≠ 0 → mshr.pendingDirty = false

namespace TargetList.SafeFor

variable {line : Addr} {list : TargetList} {pkt : Packet}

theorem empty (line : Addr) : TargetList.empty.SafeFor line where
  entries := by simp [TargetList.empty]
  shared := fun _ => rfl

theorem add (safe : list.SafeFor line) (pktSafe : pkt.SafeFor line) (source : TargetSource) :
    (list.add pkt source).SafeFor line where
  entries := by
    rw [TargetList.add]
    exact List.forall_mem_append.mpr ⟨safe.entries, by simpa using pktSafe⟩
  shared := fun patterned => by
    have quiet := MemCmd.needsExclusive_of_quiet (pktSafe.quiet patterned)
    simp [TargetList.add, safe.shared patterned, quiet]

end TargetList.SafeFor

theorem replaceUpgrade_safe {line : Addr} {pkt : Packet} (safe : pkt.SafeFor line) :
    (replaceUpgrade pkt).SafeFor line := by
  have replaced (cmd : MemCmd) (exclusive : pkt.cmd.needsExclusive = true) :
      Packet.SafeFor line { pkt with cmd } :=
    safe.withCmd fun patterned => absurd (safe.plain_of_needsExclusive exclusive) patterned
  rw [replaceUpgrade]
  split
  · rename_i upgrade
    exact replaced _ (by rw [upgrade]; rfl)
  · rename_i upgrade
    exact replaced _ (by rw [upgrade]; rfl)
  · rename_i store
    exact replaced _ (by rw [store]; rfl)
  · exact safe

theorem TargetList.SafeFor.replaceUpgrades {line : Addr} {list : TargetList}
    (safe : list.SafeFor line) : list.replaceUpgrades.SafeFor line := by
  rw [TargetList.replaceUpgrades]
  split
  · refine ⟨?_, safe.shared⟩
    intro target member
    obtain ⟨original, present, rfl⟩ := List.mem_map.mp member
    exact replaceUpgrade_safe (safe.entries original present)
  · exact safe

namespace MSHR.SafeFor

variable {line : Addr} {mshr : MSHR} {pkt : Packet}

theorem allocate {addr : Addr} (same : patternBits addr = line) (safe : pkt.SafeFor line) :
    (MSHR.allocate addr pkt).SafeFor line where
  addr := same
  targets := (TargetList.SafeFor.empty line).add safe _
  deferred := TargetList.SafeFor.empty line
  pending := fun _ => rfl

theorem markInService (safe : mshr.SafeFor line) {pendingDirtyResp : Bool}
    (clean : line ≠ 0 → pendingDirtyResp = false) :
    Post (mshr.markInService pendingDirtyResp) fun marked =>
      ∀ served, marked = some served → served.SafeFor line := by
  refine Post.guard fun _ => Post.ite (fun _ => Post.of_some (by simp)) fun _ => Post.of_some ?_
  rintro _ ⟨⟩
  refine ⟨safe.addr, safe.targets, safe.deferred, fun patterned => ?_⟩
  simp [safe.targets.shared patterned, clean patterned]

theorem allocateTarget (safe : mshr.SafeFor line) (pktSafe : pkt.SafeFor line) :
    Post (mshr.allocateTarget pkt) (MSHR.SafeFor line) := by
  refine Post.guard fun _ => Post.ite (fun _ => Post.of_some ?_) fun _ => Post.of_some ?_
  · refine ⟨safe.addr, safe.targets, safe.deferred.add ?_ _, safe.pending⟩
    split
    · exact replaceUpgrade_safe pktSafe
    · exact pktSafe
  · exact ⟨safe.addr, safe.targets.add pktSafe _, safe.deferred, safe.pending⟩

theorem deferSnoop (safe : mshr.SafeFor line) (pktSafe : pkt.SafeFor line) :
    Post (mshr.deferSnoop pkt) fun deferred =>
      deferred.1.SafeFor line ∧ deferred.2.SafeFor line := by
  have kept (postInvalidate : Bool) : MSHR.SafeFor line { mshr with
      targets := mshr.targets.add pkt.clearFlags .FromSnoop, postInvalidate } :=
    ⟨safe.addr, safe.targets.add pktSafe.clearFlags _, safe.deferred, safe.pending⟩
  refine Post.join (fun dirty => ?_) (fun _ => Post.of_some pktSafe)
    fun answered answeredSafe => Post.of_some ⟨answeredSafe, kept _⟩
  have plain : line = 0 := by
    by_contra patterned
    exact Bool.false_ne_true ((safe.pending patterned).symm.trans dirty)
  intro answered inhibits
  obtain ⟨inhibited, asserted, rfl⟩ := Option.map_eq_some_iff.mp inhibits
  exact (pktSafe.assertMemInhibit plain inhibited asserted).withSupply true

theorem handleSnoop (safe : mshr.SafeFor line) (pktSafe : pkt.SafeFor line) (precedes : Bool) :
    Post (mshr.handleSnoop pkt precedes) fun snooped =>
      snooped.2.1.SafeFor line ∧ snooped.2.2.SafeFor line := by
  refine Post.ite (fun _ => Post.ite (fun _ => Post.of_some ⟨pktSafe, ?_⟩) fun _ =>
    Post.of_some ⟨pktSafe, safe⟩) fun _ => ?_
  · exact ⟨safe.addr, safe.targets.replaceUpgrades, safe.deferred.replaceUpgrades, safe.pending⟩
  have replaced : (if pkt.cmd.needsExclusive then
      { mshr with deferredTargets := mshr.deferredTargets.replaceUpgrades }
      else mshr).SafeFor line := by
    split
    · exact ⟨safe.addr, safe.targets, safe.deferred.replaceUpgrades, safe.pending⟩
    · exact safe
  dsimp only
  generalize (if pkt.cmd.needsExclusive then
    { mshr with deferredTargets := mshr.deferredTargets.replaceUpgrades } else mshr) = kept at replaced
  refine Post.ite (fun _ => Post.of_some ⟨pktSafe, replaced⟩) fun _ => ?_
  refine Post.join (fun _ => replaced.deferSnoop pktSafe)
    (fun _ => Post.of_some ⟨pktSafe, replaced⟩) ?_
  rintro ⟨answered, after⟩ ⟨answeredSafe, afterSafe⟩
  refine Post.ite (fun _ => Post.of_some ⟨answeredSafe, afterSafe⟩) fun _ =>
    Post.of_some ⟨answeredSafe.withShared true, ?_⟩
  exact ⟨afterSafe.addr, afterSafe.targets, afterSafe.deferred, afterSafe.pending⟩

theorem promoteDeferredTargets (safe : mshr.SafeFor line) :
    Post mshr.promoteDeferredTargets (MSHR.SafeFor line) :=
  Post.ite (fun _ => Post.fail) fun _ => Post.of_some
    ⟨safe.addr, safe.deferred, TargetList.SafeFor.empty line, safe.pending⟩

theorem handleFill (safe : mshr.SafeFor line) (pkt : Packet) :
    Post (mshr.handleFill pkt) (MSHR.SafeFor line) := by
  refine Post.ite (fun splices => Post.guard fun _ => Post.of_some ?_) fun _ => Post.of_some safe
  have exclusive : mshr.deferredTargets.needsExclusive = true := (Bool.and_eq_true_iff.mp splices).2
  refine ⟨safe.addr, ⟨?_, fun patterned => ?_⟩, TargetList.SafeFor.empty line, safe.pending⟩
  · exact List.forall_mem_append.mpr ⟨safe.targets.entries, safe.deferred.entries⟩
  · rw [safe.deferred.shared patterned] at exclusive
    exact absurd exclusive Bool.false_ne_true

end MSHR.SafeFor

structure CacheState.Safe (tags : TagStore) (cache : CacheState) : Prop where
  blocks : cache.blocks.Safe tags
  registers : ∀ id, ∀ mshr ∈ cache.queue id, ∃ line, mshr.SafeFor line

namespace CacheState.Safe

variable {tags : TagStore} {cache : CacheState}

theorem withBlocks {blocks : Blocks} (safe : cache.Safe tags) (blocksSafe : blocks.Safe tags) :
    CacheState.Safe tags { cache with blocks } := by
  refine ⟨blocksSafe, fun id => ?_⟩
  cases id with
  | mshrQueue => exact safe.registers .mshrQueue
  | writeBuffer => exact safe.registers .writeBuffer

theorem setQueue {queue : List MSHR} (safe : cache.Safe tags) (id : QueueId)
    (queueSafe : ∀ mshr ∈ queue, ∃ line, mshr.SafeFor line) :
    (cache.setQueue id queue).Safe tags := by
  cases id with
  | mshrQueue =>
      refine ⟨safe.blocks, fun other => ?_⟩
      cases other with
      | mshrQueue => exact queueSafe
      | writeBuffer => exact safe.registers .writeBuffer
  | writeBuffer =>
      refine ⟨safe.blocks, fun other => ?_⟩
      cases other with
      | mshrQueue => exact safe.registers .mshrQueue
      | writeBuffer => exact queueSafe

theorem setRegister {mshr : MSHR} {line : Addr} (safe : cache.Safe tags) (id : QueueId)
    (index : Nat) (mshrSafe : mshr.SafeFor line) :
    (cache.setQueue id ((cache.queue id).set index mshr)).Safe tags := by
  refine safe.setQueue id fun other member => ?_
  rcases List.mem_or_eq_of_mem_set member with kept | rfl
  · exact safe.registers id other kept
  · exact ⟨line, mshrSafe⟩

theorem addRegister {mshr : MSHR} {line : Addr} (safe : cache.Safe tags) (id : QueueId)
    (mshrSafe : mshr.SafeFor line) :
    (cache.setQueue id (cache.queue id ++ [mshr])).Safe tags :=
  safe.setQueue id (List.forall_mem_append.mpr ⟨safe.registers id, by simpa using ⟨line, mshrSafe⟩⟩)

theorem eraseRegister (safe : cache.Safe tags) (id : QueueId) (index : Nat) :
    (cache.setQueue id ((cache.queue id).eraseIdx index)).Safe tags :=
  safe.setQueue id fun mshr member => safe.registers id mshr (List.mem_of_mem_eraseIdx member)

theorem getRegister {mshr : MSHR} (safe : cache.Safe tags) (id : QueueId) {index : Nat}
    (present : (cache.queue id)[index]? = some mshr) : mshr.SafeFor (patternBits mshr.addr) := by
  obtain ⟨line, mshrSafe⟩ := safe.registers id mshr (List.mem_of_getElem? present)
  rw [mshrSafe.addr]
  exact mshrSafe

end CacheState.Safe

theorem CacheState.safe_empty (tags : TagStore) : CacheState.empty.Safe tags := by
  refine ⟨Blocks.safe_empty tags, fun id mshr member => ?_⟩
  cases id <;> exact absurd member List.not_mem_nil

theorem findMatch_addr {queue : List MSHR} {addr : Addr} {isSecure : Bool} {index : Nat}
    {mshr : MSHR} (found : findMatch queue addr isSecure = some index)
    (present : queue[index]? = some mshr) : mshr.addr = addr := by
  obtain ⟨inside, matched, -⟩ := List.findIdx?_eq_some_iff_getElem.mp found
  rw [List.getElem?_eq_getElem inside, Option.some_inj] at present
  rw [present, Bool.and_eq_true, beq_iff_eq] at matched
  exact matched.1

namespace Cache

variable {σ : Type} {params : CacheParams} {side : MemSide σ} {good : σ → Prop}
  {line : Addr} {pkt : Packet} {ref : BlkRef} {blk : CacheBlk} {below : σ} {cache : CacheState}

theorem allocateWriteBuffer_safe (cacheSafe : cache.Safe params.toTagStore)
    (safe : pkt.SafeFor line) :
    Post (allocateWriteBuffer cache pkt) (CacheState.Safe params.toTagStore) :=
  Post.guard fun _ => Post.of_some
    (cacheSafe.addRegister .writeBuffer (MSHR.SafeFor.allocate safe.pattern safe))

theorem allocateWriteBuffers_safe (cacheSafe : cache.Safe params.toTagStore)
    (writebacks : List Packet) (written : ∀ writeback ∈ writebacks, writeback.SafeFor 0) :
    Post (allocateWriteBuffers cache writebacks) (CacheState.Safe params.toTagStore) := by
  induction writebacks generalizing cache with
  | nil => exact Post.of_some cacheSafe
  | cons first rest ih =>
      obtain ⟨firstSafe, restSafe⟩ := List.forall_mem_cons.mp written
      exact Post.bind (allocateWriteBuffer_safe cacheSafe firstSafe) fun _ allocated =>
        ih allocated restSafe

theorem allocateMissBuffer_safe (cacheSafe : cache.Safe params.toTagStore)
    (safe : pkt.SafeFor line) :
    Post (allocateMissBuffer params cache pkt) (CacheState.Safe params.toTagStore) := by
  have same : patternBits (params.blockAlign pkt.getCacheAddr) = line := by
    rw [params.patternBits_blockAlign, safe.pattern]
  exact Post.guard fun _ => Post.of_some
    (cacheSafe.addRegister .mshrQueue (MSHR.SafeFor.allocate same safe))

theorem allocateUncachedReadBuffer_safe (cacheSafe : cache.Safe params.toTagStore)
    (safe : pkt.SafeFor line) :
    Post (allocateUncachedReadBuffer cache pkt) (CacheState.Safe params.toTagStore) :=
  Post.guard fun _ => Post.of_some
    (cacheSafe.addRegister .mshrQueue (MSHR.SafeFor.allocate safe.pattern safe))

theorem dummyResponse_safe (safe : pkt.SafeFor line) :
    Post (dummyResponse pkt) (Packet.SafeFor line) := by
  intro filled responds
  obtain ⟨response, made, rfl⟩ := Option.map_eq_some_iff.mp responds
  exact (safe.makeResponse response made).withData _

def SafeSend (params : CacheParams) (line : Addr) (outcome : CacheState × List Packet) : Prop :=
  outcome.1.Safe params.toTagStore ∧ ∀ sent ∈ outcome.2, sent.SafeFor line

theorem timingInhibited_safe (cacheSafe : cache.Safe params.toTagStore) (safe : pkt.SafeFor line)
    (inhibited : pkt.memInhibitAsserted = true) :
    Post (timingInhibited cache pkt) (SafeSend params line) := by
  have plain := safe.plain_of_inhibited inhibited
  refine Post.guard fun _ => Post.ite (fun _ => ?_) fun _ => Post.of_some ⟨cacheSafe, by simp⟩
  exact Post.bind (safe.clearFlags.assertMemInhibit plain) fun _ snoopSafe =>
    Post.of_some ⟨cacheSafe, by simpa using snoopSafe⟩

theorem timingUncacheable_safe (sideSafe : side.Safe good) (safe : pkt.SafeFor line)
    (cacheSafe : cache.Safe params.toTagStore) (start : good below) :
    Post (timingUncacheable params side cache pkt below) fun outcome =>
      SafeSend params line (outcome.1, outcome.2.1) ∧ good outcome.2.2 := by
  refine Post.bind (uncacheableFlush_safe sideSafe safe cacheSafe.blocks start) ?_
  rintro ⟨blocks, after⟩ ⟨blocksSafe, ends⟩
  have flushed := cacheSafe.withBlocks blocksSafe
  refine Post.ite (fun _ => ?_) fun _ => Post.guard fun _ => ?_
  · exact Post.bind (dummyResponse_safe safe) fun _ responseSafe =>
      Post.of_some ⟨⟨flushed, by simpa using responseSafe⟩, ends⟩
  · exact Post.join (fun _ => allocateWriteBuffer_safe flushed safe)
      (fun _ => allocateUncachedReadBuffer_safe flushed safe)
      fun _ allocated => Post.of_some ⟨⟨allocated, by simp⟩, ends⟩

theorem prefetchCopy_safe (safe : pkt.SafeFor line) (unset : Addr) :
    Post (prefetchCopy pkt unset) (Packet.SafeFor line) := by
  refine Post.guard fun ⟨same, _⟩ => Post.of_some ?_
  refine ⟨safe.paddr, safe.paddr, ?_, fun _ => rfl, safe.quiet, ?_⟩
  · rw [same, safe.pattern]
  · rintro _ ⟨⟩

theorem blockReads_safe {found : Option BlkRef} (cacheSafe : cache.Safe params.toTagStore) :
    Post (blockReads cache pkt found) (CacheState.Safe params.toTagStore) := by
  cases found with
  | none => exact Post.of_some cacheSafe
  | some ref =>
      refine Post.ite (fun _ => Post.guard fun _ => Post.of_some ?_) fun _ => Post.of_some cacheSafe
      obtain ⟨line, held⟩ := cacheSafe.blocks ref
      exact cacheSafe.withBlocks (cacheSafe.blocks.put (held.keep rfl rfl held.clean))

theorem enqueueMiss_safe {found : Option BlkRef} {registered : Option Nat}
    (cacheSafe : cache.Safe params.toTagStore) (safe : pkt.SafeFor line)
    (matching : ∀ index mshr, registered = some index → cache.mshrQueue[index]? = some mshr →
      patternBits mshr.addr = line) :
    Post (enqueueMiss params cache pkt found registered) (CacheState.Safe params.toTagStore) := by
  cases registered with
  | some index =>
      refine Post.bind (Post.returns _) fun mshr present => ?_
      have mshrSafe := cacheSafe.getRegister .mshrQueue present
      rw [matching index mshr rfl present] at mshrSafe
      exact Post.bind (mshrSafe.allocateTarget safe) fun _ targeted =>
        Post.of_some (cacheSafe.setRegister .mshrQueue index targeted)
  | none =>
      refine Post.ite (fun _ => allocateWriteBuffer_safe cacheSafe safe) fun _ => ?_
      exact Post.bind (blockReads_safe cacheSafe) fun _ blocked => allocateMissBuffer_safe blocked safe

theorem timingMiss_safe {found : Option BlkRef} (cacheSafe : cache.Safe params.toTagStore)
    (safe : pkt.SafeFor line) (unset : Addr) :
    Post (timingMiss params cache pkt found unset) (SafeSend params line) := by
  have matching : ∀ index mshr,
      findMatch cache.mshrQueue (params.blockAlign pkt.getCacheAddr) pkt.isSecure = some index →
      cache.mshrQueue[index]? = some mshr → patternBits mshr.addr = line := by
    intro index mshr registered present
    rw [findMatch_addr registered present, params.patternBits_blockAlign, safe.pattern]
  refine Post.ite (fun _ => ?_) fun _ => ?_
  · refine Post.bind (dummyResponse_safe safe) fun response responseSafe => ?_
    have sent : ∀ packet ∈ [response], packet.SafeFor line := by simpa using responseSafe
    refine Post.ite (fun _ => Post.of_some ⟨cacheSafe, sent⟩) fun _ => ?_
    refine Post.bind (prefetchCopy_safe safe unset) fun copy copySafe => ?_
    exact Post.bind (enqueueMiss_safe cacheSafe copySafe (by simp)) fun _ enqueued =>
      Post.of_some ⟨enqueued, sent⟩
  · exact Post.bind (enqueueMiss_safe cacheSafe safe matching) fun _ enqueued =>
      Post.of_some ⟨enqueued, by simp⟩

theorem respond_safe (safe : pkt.SafeFor line) :
    Post (respond pkt) fun sent => ∀ packet ∈ sent, packet.SafeFor line := by
  refine Post.ite (fun _ => ?_) fun _ => Post.of_some (by simp)
  intro sent responds
  obtain ⟨response, made, rfl⟩ := Option.map_eq_some_iff.mp responds
  simpa using safe.makeResponse response made

theorem recvTimingReq_safe (sideSafe : side.Safe good) (safe : pkt.SafeFor line)
    (cacheSafe : cache.Safe params.toTagStore) (victim : Nat) (unset : Addr) (start : good below) :
    Post (recvTimingReq params side victim unset cache pkt below) fun outcome =>
      SafeSend params line (outcome.1, outcome.2.1) ∧ good outcome.2.2 := by
  refine Post.guard fun _ => Post.bind (promoteWholeLineWrites_safe safe) fun promoted promotedSafe => ?_
  refine Post.ite (fun inhibited => ?_) fun _ =>
    Post.ite (fun _ => timingUncacheable_safe sideSafe promotedSafe cacheSafe start) fun _ => ?_
  · exact Post.bind (timingInhibited_safe cacheSafe promotedSafe inhibited) fun _ sendSafe =>
      Post.of_some ⟨sendSafe, start⟩
  refine Post.bind (access_safe sideSafe promotedSafe cacheSafe.blocks _ victim start)
    fun accessed accessedSafe => ?_
  have after := cacheSafe.withBlocks accessedSafe.blocks
  refine Post.join (fun _ => ?_) (fun _ => timingMiss_safe after accessedSafe.pkt unset) ?_
  · intro outcome responds
    obtain ⟨sent, made, rfl⟩ := Option.map_eq_some_iff.mp responds
    exact ⟨after, respond_safe accessedSafe.pkt sent made⟩
  · rintro ⟨served, sent⟩ ⟨servedSafe, sentSafe⟩
    exact Post.bind (allocateWriteBuffers_safe servedSafe _ accessedSafe.writebacks)
      fun _ finalSafe => Post.of_some ⟨⟨finalSafe, sentSafe⟩, accessedSafe.below⟩

theorem doTimingSupplyResponse_safe (safe : pkt.SafeFor line) (blkData : Nat → Byte)
    (pendingInval : Bool) :
    Post (doTimingSupplyResponse params pkt blkData pendingInval) (Packet.SafeFor line) := by
  refine Post.guard fun _ => Post.guard fun _ => Post.bind safe.makeResponse
    fun response responseSafe => ?_
  refine Post.join (fun _ => responseSafe.setDataFromBlock blkData params.blkSize)
    (fun _ => Post.of_some responseSafe) fun filled filledSafe => Post.of_some ?_
  split
  · exact filledSafe.withCmd fun _ => rfl
  · exact filledSafe

theorem mergeAbove_safe {above : Packet} (safe : pkt.SafeFor line) (aboveSafe : above.SafeFor line)
    (isTiming : Bool) : Post (mergeAbove params isTiming pkt above) (Packet.SafeFor line) := by
  refine Post.ite (fun _ => Post.ite (fun _ => ?_) fun _ => Post.of_some aboveSafe)
    fun _ => Post.of_some safe
  exact Post.join (fun inhibited => safe.assertMemInhibit (aboveSafe.plain_of_inhibited inhibited))
    (fun _ => Post.of_some safe) fun _ merged => Post.of_some (merged.withShared _)

theorem supply_safe (safe : pkt.SafeFor line) (plain : line = 0)
    (isTiming pendingInval haveExclusive : Bool) :
    Post (supply params isTiming pendingInval haveExclusive pkt blk) fun supplied =>
      supplied.1.SafeFor line ∧ ∀ sent ∈ supplied.2, sent.SafeFor line := by
  refine Post.bind (safe.assertMemInhibit plain) fun inhibited inhibitedSafe => ?_
  have owned : Packet.SafeFor line
      (if haveExclusive then { inhibited with isSupplyExclusive := true } else inhibited) := by
    split
    · exact inhibitedSafe.withSupply true
    · exact inhibitedSafe
  refine Post.ite (fun _ => ?_) fun _ => ?_
  · exact Post.bind (doTimingSupplyResponse_safe owned _ _) fun _ responseSafe =>
      Post.of_some ⟨owned, by simpa using responseSafe⟩
  · refine Post.bind owned.makeResponse fun response responseSafe => ?_
    exact Post.bind (responseSafe.setDataFromBlock _ _) fun _ filledSafe =>
      Post.of_some ⟨filledSafe, by simp⟩

theorem snoopBlock_safe (safe : pkt.SafeFor line) (held : BlockSafe params.toTagStore line ref blk)
    (isTiming pendingInval : Bool) (origCmd : MemCmd) :
    Post (snoopBlock params isTiming pendingInval origCmd pkt blk) fun snooped =>
      snooped.1.SafeFor line ∧ BlockSafe params.toTagStore line ref snooped.2.1 ∧
        ∀ sent ∈ snooped.2.2, sent.SafeFor line := by
  refine Post.ite (fun _ => Post.of_some ⟨safe, held, by simp⟩) fun _ => Post.guard fun _ => ?_
  have shared : Packet.SafeFor line (if (pkt.cmd.isRead && !origCmd.isInvalidate) = true then
      { pkt with sharedAsserted := true } else pkt) := by
    split
    · exact safe.withShared true
    · exact safe
  have downgraded : BlockSafe params.toTagStore line ref
      (if (pkt.cmd.isRead && !origCmd.isInvalidate) = true then
        { blk with writable := false } else blk) := by
    split
    · exact held.keep rfl rfl held.clean
    · exact held
  refine Post.join (fun responds => supply_safe shared ?_ _ _ _)
    (fun _ => Post.of_some ⟨shared, by simp⟩) ?_
  · exact held.plain_of_isDirty (Bool.and_eq_true_iff.mp (Bool.and_eq_true_iff.mp responds).1).1
  · rintro ⟨answered, sent⟩ ⟨answeredSafe, sentSafe⟩
    refine Post.of_some ⟨answeredSafe, ?_, sentSafe⟩
    split
    · exact downgraded.invalidate
    · exact downgraded

theorem handleSnoop_safe {above : Packet} {found : Option BlkRef} {blocks : Blocks}
    (safe : pkt.SafeFor line) (aboveSafe : above.SafeFor line)
    (blocksSafe : blocks.Safe params.toTagStore)
    (foundSafe : ∀ ref, found = some ref → BlockSafe params.toTagStore line ref (blocks.get ref))
    (isTiming pendingInval : Bool) :
    Post (handleSnoop params isTiming pendingInval above pkt found blocks) fun snooped =>
      snooped.1.SafeFor line ∧ snooped.2.1.Safe params.toTagStore ∧
        (∀ ref, found = some ref → BlockSafe params.toTagStore line ref (snooped.2.1.get ref)) ∧
        ∀ sent ∈ snooped.2.2, sent.SafeFor line := by
  refine Post.guard fun _ => Post.bind (mergeAbove_safe safe aboveSafe isTiming)
    fun merged mergedSafe => ?_
  cases found with
  | none => exact Post.of_some ⟨mergedSafe, blocksSafe, by simp, by simp⟩
  | some ref =>
      refine Post.ite (fun _ => ?_) fun _ =>
        Post.of_some ⟨mergedSafe, blocksSafe, foundSafe, by simp⟩
      refine Post.bind (snoopBlock_safe mergedSafe (foundSafe ref rfl) isTiming pendingInval pkt.cmd) ?_
      rintro ⟨answered, snooped, sent⟩ ⟨answeredSafe, held, sentSafe⟩
      refine Post.of_some ⟨answeredSafe, blocksSafe.put held, ?_, sentSafe⟩
      rintro _ ⟨⟩
      rw [Blocks.get_put]
      exact held

theorem plain_of_writeback {entry : MSHR} {target : Target} (entrySafe : entry.SafeFor line)
    (first : entry.targets.entries.head? = some target) (writes : target.pkt.cmd = .Writeback) :
    line = 0 :=
  (entrySafe.targets.entries target (List.mem_of_mem_head? first)).plain_of_isWrite
    (by rw [writes]; rfl)

theorem snoopWriteBuffer_safe (safe : pkt.SafeFor line)
    (cacheSafe : cache.Safe params.toTagStore) :
    Post (snoopWriteBuffer params cache pkt) fun snooped =>
      snooped.1.SafeFor line ∧ snooped.2.1.Safe params.toTagStore ∧
        snooped.2.1.blocks = cache.blocks ∧ ∀ sent ∈ snooped.2.2, sent.SafeFor line := by
  rw [snoopWriteBuffer]
  dsimp only
  split
  · exact Post.of_some ⟨safe, cacheSafe, rfl, by simp⟩
  · rename_i entry index alone position
    have member : entry ∈ cache.writeBuffer.filter fun mshr =>
        mshr.addr == params.blockAlign pkt.getCacheAddr && mshr.isSecure == pkt.isSecure := by
      rw [alone]
      exact List.mem_singleton_self entry
    obtain ⟨present, hit⟩ := List.mem_filter.mp member
    rw [Bool.and_eq_true, beq_iff_eq] at hit
    obtain ⟨entryLine, entrySafe⟩ := cacheSafe.registers .writeBuffer entry present
    have same : entryLine = line := by
      rw [← entrySafe.addr, hit.1, params.patternBits_blockAlign, safe.pattern]
    rw [same] at entrySafe
    refine Post.guard fun _ => ?_
    refine Post.bind (Post.returns _) fun target first => Post.guard fun writes => ?_
    have plain := plain_of_writeback entrySafe first writes
    refine Post.bind (safe.assertMemInhibit plain) fun inhibited inhibitedSafe => ?_
    have erased := cacheSafe.eraseRegister .writeBuffer index
    refine Post.ite (fun _ => Post.guard fun _ => ?_) fun _ => ?_
    · exact Post.bind (doTimingSupplyResponse_safe inhibitedSafe _ _) fun _ responseSafe =>
        Post.of_some ⟨inhibitedSafe, erased, rfl, by simpa using responseSafe⟩
    · have shared := inhibitedSafe.withShared true
      refine Post.bind (doTimingSupplyResponse_safe shared _ _) fun _ responseSafe =>
        Post.of_some ⟨shared, ?_, ?_, by simpa using responseSafe⟩
      · have targetSafe := entrySafe.targets.entries target (List.mem_of_mem_head? first)
        have kept : MSHR.SafeFor line { entry with
            targets := { entry.targets with
              entries := [{ target with pkt := { target.pkt with isSupplyExclusive := false } }] } } :=
          ⟨entrySafe.addr, ⟨by simpa using targetSafe.withSupply false, entrySafe.targets.shared⟩,
            entrySafe.deferred, entrySafe.pending⟩
        split
        · exact erased
        · exact cacheSafe.setRegister .writeBuffer index kept
      · rfl
  · exact Post.fail

theorem snoopMshr_safe (safe : pkt.SafeFor line) (cacheSafe : cache.Safe params.toTagStore)
    (precedes : Bool) :
    Post (snoopMshr params precedes cache pkt) fun snooped =>
      snooped.2.1.SafeFor line ∧ snooped.2.2.Safe params.toTagStore ∧
        snooped.2.2.blocks = cache.blocks := by
  rw [snoopMshr]
  split
  · rename_i index registered
    refine Post.ite (fun _ => Post.of_some ⟨safe, cacheSafe, rfl⟩) fun _ => ?_
    refine Post.bind (Post.returns _) fun mshr present => ?_
    have mshrSafe := cacheSafe.getRegister .mshrQueue present
    rw [findMatch_addr registered present, params.patternBits_blockAlign, safe.pattern] at mshrSafe
    refine Post.bind (mshrSafe.handleSnoop safe precedes) ?_
    rintro ⟨deferred, answered, after⟩ ⟨answeredSafe, afterSafe⟩
    exact Post.of_some ⟨answeredSafe, cacheSafe.setRegister .mshrQueue index afterSafe, rfl⟩
  · exact Post.of_some ⟨safe, cacheSafe, rfl⟩

theorem recvTimingSnoopReq_safe {above : Packet} (safe : pkt.SafeFor line)
    (aboveSafe : above.SafeFor line) (cacheSafe : cache.Safe params.toTagStore) (precedes : Bool) :
    Post (recvTimingSnoopReq params precedes above cache pkt) fun snooped =>
      snooped.1.SafeFor line ∧ SafeSend params line snooped.2 := by
  refine Post.ite (fun _ => Post.of_some ⟨safe, cacheSafe, by simp⟩) fun _ => ?_
  have foundSafe : ∀ ref, findBlock params cache.blocks pkt = some ref →
      BlockSafe params.toTagStore line ref (cache.blocks.get ref) :=
    fun _ found => findBlock_safe cacheSafe.blocks safe found
  refine Post.bind (snoopMshr_safe safe cacheSafe precedes) ?_
  rintro ⟨deferred, deferredPkt, registered⟩ ⟨deferredSafe, registeredSafe, kept⟩
  refine Post.ite (fun _ => Post.of_some ⟨deferredSafe, registeredSafe, by simp⟩) fun _ => ?_
  refine Post.bind (snoopWriteBuffer_safe deferredSafe registeredSafe) ?_
  rintro ⟨buffered, after, fromBuffer⟩ ⟨bufferedSafe, afterSafe, keptAgain, fromBufferSafe⟩
  have sameBlocks : after.blocks = cache.blocks := keptAgain.trans kept
  refine Post.bind (handleSnoop_safe bufferedSafe aboveSafe afterSafe.blocks
    (sameBlocks ▸ foundSafe) true false) ?_
  rintro ⟨answered, blocks, sent⟩ ⟨answeredSafe, blocksSafe, -, sentSafe⟩
  exact Post.of_some ⟨answeredSafe, afterSafe.withBlocks blocksSafe,
    List.forall_mem_append.mpr ⟨fromBufferSafe, sentSafe⟩⟩

theorem recvAtomicSnoop_safe {above : Packet} {blocks : Blocks} (safe : pkt.SafeFor line)
    (aboveSafe : above.SafeFor line) (blocksSafe : blocks.Safe params.toTagStore) :
    Post (recvAtomicSnoop params above blocks pkt) fun snooped =>
      snooped.1.SafeFor line ∧ snooped.2.Safe params.toTagStore := by
  refine Post.ite (fun _ => Post.of_some ⟨safe, blocksSafe⟩) fun _ => ?_
  refine Post.bind (handleSnoop_safe safe aboveSafe blocksSafe
    (fun _ found => findBlock_safe blocksSafe safe found) false false) ?_
  rintro ⟨answered, after, sent⟩ ⟨answeredSafe, afterSafe, -, -⟩
  exact Post.of_some ⟨answeredSafe, afterSafe⟩

theorem getTimingPacket_safe {mshr : MSHR} (mshrSafe : mshr.SafeFor line) :
    Post (getTimingPacket params cache mshr) fun sent =>
      sent.1.SafeFor line ∧ sent.2.SafeFor line := by
  refine Post.guard fun _ => Post.bind (Post.returns _) fun target first => ?_
  have targetSafe := mshrSafe.targets.entries target (List.mem_of_mem_head? first)
  have forwarded := targetSafe.withSender mshrSafe.addr
  have marked (isForward : Bool) : MSHR.SafeFor line { mshr with isForward } :=
    ⟨mshrSafe.addr, mshrSafe.targets, mshrSafe.deferred, mshrSafe.pending⟩
  refine Post.ite (fun _ => Post.guard fun _ => Post.of_some ⟨forwarded, mshrSafe⟩) fun _ =>
    Post.guard fun _ => ?_
  refine Post.bind (getBusPacket_safe targetSafe mshrSafe.targets.shared) fun bus busSafe => ?_
  cases bus with
  | none => exact Post.of_some ⟨forwarded, marked true⟩
  | some busPkt =>
      exact Post.of_some ⟨(busSafe busPkt rfl).withSender mshrSafe.addr, marked false⟩

structure SafeServing (params : CacheParams) (good : σ → Prop) (line : Addr)
    (serving : Serving σ) : Prop where
  mshr : serving.mshr.SafeFor line
  blocks : serving.blocks.Safe params.toTagStore
  blk : ∀ ref, serving.blk = some ref →
    BlockSafe params.toTagStore line ref (serving.blocks.get ref)
  writebacks : ∀ writeback ∈ serving.writebacks, writeback.SafeFor 0
  sent : ∀ packet ∈ serving.sent, packet.SafeFor line
  below : good serving.below

theorem beginServing_safe {mshr : MSHR} (safe : pkt.SafeFor line) (mshrSafe : mshr.SafeFor line)
    (cacheSafe : cache.Safe params.toTagStore) (victim : Nat) (start : good below) :
    Post (beginServing params victim cache mshr pkt below) (SafeServing params good line) := by
  have foundSafe : ∀ ref, findBlock params cache.blocks pkt = some ref →
      BlockSafe params.toTagStore line ref (cache.blocks.get ref) :=
    fun _ found => findBlock_safe cacheSafe.blocks safe found
  refine Post.ite (fun _ => ?_) fun _ =>
    Post.of_some ⟨mshrSafe, cacheSafe.blocks, foundSafe, by simp, by simp, start⟩
  refine Post.bind (mshrSafe.handleFill pkt) fun filled filledSafe => ?_
  refine Post.bind (handleFill_safe safe cacheSafe.blocks foundSafe _ victim) ?_
  rintro ⟨ref, blocks, evicted⟩ ⟨blocksSafe, held, written⟩
  refine Post.of_some ⟨filledSafe, blocksSafe, ?_, written, by simp, start⟩
  rintro _ ⟨⟩
  exact held

section Serving

variable {serving : Serving σ} {target : Packet}

theorem fillForTarget_safe (servingSafe : SafeServing params good line serving)
    (targetSafe : target.SafeFor line) (outstanding : Addr → Bool → Option Bool) (victim : Nat) :
    Post (fillForTarget params outstanding victim pkt target serving)
      (SafeServing params good line) := by
  refine Post.ite (fun _ => Post.guard fun _ => ?_) fun _ => Post.of_some servingSafe
  refine Post.bind (servingSafe.mshr.handleFill target) fun filled filledSafe => ?_
  refine Post.bind (handleFill_safe targetSafe servingSafe.blocks servingSafe.blk outstanding
    victim) ?_
  rintro ⟨ref, blocks, evicted⟩ ⟨blocksSafe, held, written⟩
  refine Post.of_some ⟨filledSafe, blocksSafe, ?_,
    List.forall_mem_append.mpr ⟨servingSafe.writebacks, written⟩, servingSafe.sent,
    servingSafe.below⟩
  rintro _ ⟨⟩
  exact held

theorem answerTarget_safe (sideSafe : side.Safe good)
    (servingSafe : SafeServing params good line serving) (targetSafe : target.SafeFor line) :
    Post (answerTarget params side pkt target serving) fun answer =>
      answer.1.SafeFor line ∧ SafeServing params good line answer.2 := by
  refine Post.ite (fun _ => Post.bind (Post.returns _) fun ref found => ?_) fun _ => Post.ite
    (fun _ => Post.guard fun _ => Post.of_some ⟨targetSafe.withExtraData 0, servingSafe⟩)
    fun _ => Post.ite (fun _ => ?_) fun _ => Post.of_some ⟨targetSafe, servingSafe⟩
  · refine Post.bind (satisfyCpuSideRequest_safe sideSafe targetSafe (servingSafe.blk ref found)
      _ _ servingSafe.below) ?_
    rintro ⟨answered, used, after⟩ ⟨answeredSafe, usedSafe, ends⟩
    refine Post.guard fun _ => Post.of_some ⟨answeredSafe, servingSafe.mshr,
      servingSafe.blocks.put usedSafe, ?_, servingSafe.writebacks, servingSafe.sent, ends⟩
    intro other same
    obtain rfl : other = ref := Option.some_inj.mp (same.symm.trans found)
    rw [Blocks.get_put]
    exact usedSafe
  · exact Post.bind (targetSafe.setData _) fun _ copied => Post.of_some ⟨copied, servingSafe⟩

theorem targetResponse_safe {answered : Packet} (safe : pkt.SafeFor line)
    (answeredSafe : answered.SafeFor line) (postInvalidate : Bool) :
    Post (targetResponse postInvalidate pkt answered) (Packet.SafeFor line) := by
  refine Post.bind answeredSafe.makeResponse fun response responseSafe => Post.of_some ?_
  have invalidates {passed : Packet} (passedSafe : passed.SafeFor line) : Packet.SafeFor line
      (if passed.cmd = .ReadResp ∧ (pkt.cmd.isInvalidate ∨ postInvalidate) then
        { passed with cmd := .ReadRespWithInvalidate } else passed) := by
    split
    · exact passedSafe.withCmd fun _ => rfl
    · exact passedSafe
  refine invalidates ?_
  split
  · exact responseSafe.withCmd safe.quiet
  · exact responseSafe

theorem serveCpu_safe (sideSafe : side.Safe good) (safe : pkt.SafeFor line)
    (servingSafe : SafeServing params good line serving) (targetSafe : target.SafeFor line)
    (outstanding : Addr → Bool → Option Bool) (victim : Nat) :
    Post (serveCpu params side outstanding victim pkt target serving)
      (SafeServing params good line) := by
  refine Post.ite (fun _ => Post.of_some servingSafe) fun _ => ?_
  refine Post.bind (fillForTarget_safe servingSafe targetSafe outstanding victim)
    fun filled filledSafe => ?_
  refine Post.bind (answerTarget_safe sideSafe filledSafe targetSafe) ?_
  rintro ⟨answered, after⟩ ⟨answeredSafe, afterSafe⟩
  refine Post.bind (targetResponse_safe safe answeredSafe _) fun response responseSafe => ?_
  refine Post.of_some ⟨afterSafe.mshr, afterSafe.blocks, afterSafe.blk, afterSafe.writebacks, ?_,
    afterSafe.below⟩
  exact List.forall_mem_append.mpr ⟨afterSafe.sent, by simpa using responseSafe⟩

theorem serveSnoop_safe {above : Packet} (aboveSafe : above.SafeFor line)
    (servingSafe : SafeServing params good line serving) (targetSafe : target.SafeFor line) :
    Post (serveSnoop params above pkt target serving) (SafeServing params good line) := by
  refine Post.guard fun _ => Post.bind (handleSnoop_safe targetSafe aboveSafe servingSafe.blocks
    servingSafe.blk true _) ?_
  rintro ⟨answered, blocks, sent⟩ ⟨-, blocksSafe, held, sentSafe⟩
  exact Post.of_some ⟨servingSafe.mshr, blocksSafe, held, servingSafe.writebacks,
    List.forall_mem_append.mpr ⟨servingSafe.sent, sentSafe⟩, servingSafe.below⟩

theorem popTarget_safe (servingSafe : SafeServing params good line serving) :
    SafeServing params good line serving.popTarget where
  mshr :=
    { addr := servingSafe.mshr.addr
      targets := ⟨fun target member =>
        servingSafe.mshr.targets.entries target (List.mem_of_mem_tail member),
        servingSafe.mshr.targets.shared⟩
      deferred := servingSafe.mshr.deferred
      pending := servingSafe.mshr.pending }
  blocks := servingSafe.blocks
  blk := servingSafe.blk
  writebacks := servingSafe.writebacks
  sent := servingSafe.sent
  below := servingSafe.below

theorem serveTargets_safe {above : Packet → Packet} (sideSafe : side.Safe good)
    (safe : pkt.SafeFor line)
    (aboveSafe : ∀ target : Packet, target.SafeFor line → (above target).SafeFor line)
    (outstanding : Addr → Bool → Option Bool) (victim : Packet → Nat) (fuel : Nat)
    (servingSafe : SafeServing params good line serving) :
    Post (serveTargets params side outstanding victim above pkt fuel serving)
      (SafeServing params good line) := by
  induction fuel generalizing serving with
  | zero => exact Post.ite (fun _ => Post.of_some servingSafe) fun _ => Post.fail
  | succ fuel ih =>
      rw [serveTargets]
      split
      · exact Post.of_some servingSafe
      · rename_i target rest listed
        have targetSafe : target.pkt.SafeFor line := servingSafe.mshr.targets.entries target
          (by rw [listed]; exact List.mem_cons_self)
        refine Post.bind ?_ fun served servedSafe => ih (popTarget_safe servedSafe)
        rw [serveTarget]
        cases target.source with
        | FromCPU => exact serveCpu_safe sideSafe safe servingSafe targetSafe _ _
        | FromPrefetcher => exact Post.guard fun _ => Post.of_some servingSafe
        | FromSnoop => exact serveSnoop_safe (aboveSafe _ targetSafe) servingSafe targetSafe

theorem settleBlock_safe (servingSafe : SafeServing params good line serving) :
    Post (settleBlock params pkt serving) (Blocks.Safe params.toTagStore) := by
  rw [settleBlock]
  split
  · rename_i ref found
    have held := servingSafe.blk ref found
    refine Post.ite (fun _ => Post.ite (fun _ => Post.guard fun _ => Post.of_some ?_) fun _ =>
      Post.ite (fun _ => Post.of_some ?_) fun _ => Post.of_some servingSafe.blocks)
      fun _ => Post.of_some servingSafe.blocks
    · exact servingSafe.blocks.put held.invalidate
    · exact servingSafe.blocks.put (held.keep rfl rfl held.clean)
  · exact Post.of_some servingSafe.blocks

theorem releaseMshr_safe (cacheSafe : cache.Safe params.toTagStore)
    (servingSafe : SafeServing params good line serving) (id : QueueId) (index : Nat) :
    (releaseMshr cache id index serving).Safe params.toTagStore := by
  rw [releaseMshr]
  split
  · rename_i mshr promoted
    have mshrSafe := servingSafe.mshr.promoteDeferredTargets mshr promoted
    have waiting : MSHR.SafeFor line { mshr with inService := false } :=
      ⟨mshrSafe.addr, mshrSafe.targets, mshrSafe.deferred, mshrSafe.pending⟩
    have stored {blocks : Blocks} (blocksSafe : blocks.Safe params.toTagStore) :
        ({ cache with blocks }.setQueue id
          ((cache.queue id).set index { mshr with inService := false })).Safe params.toTagStore := by
      have result := (cacheSafe.withBlocks blocksSafe).setRegister id index waiting
      cases id <;> exact result
    apply stored
    split
    · next ref _ =>
        obtain ⟨other, held⟩ := cacheSafe.blocks ref
        exact cacheSafe.blocks.put (held.keep rfl rfl held.clean)
    · exact cacheSafe.blocks
  · exact cacheSafe.eraseRegister id index

end Serving

theorem clearTempBlock_safe {found : Option BlkRef} (cacheSafe : cache.Safe params.toTagStore) :
    Post (clearTempBlock params found cache) (CacheState.Safe params.toTagStore) := by
  refine Post.ite (fun _ => ?_) fun _ => Post.of_some cacheSafe
  obtain ⟨line, held⟩ := cacheSafe.blocks .tempBlock
  have cleared {after : CacheState} (afterSafe : after.Safe params.toTagStore) :=
    afterSafe.withBlocks (afterSafe.blocks.put held.invalidate)
  refine Post.ite (fun _ => ?_) fun _ => Post.of_some (cleared cacheSafe)
  refine Post.bind (writebackBlk_safe held) fun _ ⟨plain, _⟩ => ?_
  exact Post.bind (allocateWriteBuffer_safe cacheSafe plain) fun _ afterSafe =>
    Post.of_some (cleared afterSafe)

theorem recvTimingResp_safe {above : Packet → Packet} {mshr : MSHR} (sideSafe : side.Safe good)
    (safe : pkt.SafeFor line)
    (aboveSafe : ∀ target : Packet, target.SafeFor line → (above target).SafeFor line)
    (cacheSafe : cache.Safe params.toTagStore) (victim : Packet → Nat) (id : QueueId)
    {index : Nat} (present : (cache.queue id)[index]? = some mshr)
    (same : patternBits mshr.addr = line) (start : good below) :
    Post (recvTimingResp params side victim above cache id index pkt below) fun outcome =>
      SafeSend params line (outcome.1, outcome.2.1) ∧ good outcome.2.2 := by
  refine Post.guard fun _ => Post.bind (Post.returns _) fun other found => ?_
  obtain rfl : other = mshr := Option.some_inj.mp (found.symm.trans present)
  have mshrSafe := cacheSafe.getRegister id present
  rw [same] at mshrSafe
  refine Post.bind (beginServing_safe safe mshrSafe cacheSafe _ start) fun begun begunSafe => ?_
  refine Post.bind (serveTargets_safe sideSafe safe aboveSafe _ victim _ begunSafe)
    fun served servedSafe => ?_
  refine Post.bind (settleBlock_safe servedSafe) fun blocks blocksSafe => ?_
  have released := releaseMshr_safe (cacheSafe.withBlocks blocksSafe) servedSafe id index
  refine Post.bind (allocateWriteBuffers_safe released _ servedSafe.writebacks)
    fun buffered bufferedSafe => ?_
  exact Post.bind (clearTempBlock_safe bufferedSafe) fun _ finalSafe =>
    Post.of_some ⟨⟨finalSafe, servedSafe.sent⟩, servedSafe.below⟩

end Cache

end LlvmGather
