import LlvmGather.Gather.Atomic
import LlvmGather.Library.Partial

/-!
What keeps the lines of gathers clean, for the parts of a cache that both modes share. A
line is known here by its pattern bits alone: those of a packet for it, of a block that
holds it, and of a register that waits for it agree.
-/

namespace LlvmGather

open Partial (Post)

def MemCmd.quiet (cmd : MemCmd) : Bool := !cmd.needsExclusive && !cmd.isWrite

namespace MemCmd

theorem quiet_responseCommand {cmd : MemCmd} (quiet : cmd.quiet = true) :
    cmd.responseCommand.quiet = true := by
  cases cmd <;> first | rfl | exact absurd quiet (by decide)

theorem needsExclusive_of_quiet {cmd : MemCmd} (quiet : cmd.quiet = true) :
    cmd.needsExclusive = false := by
  simp only [MemCmd.quiet, Bool.and_eq_true, Bool.not_eq_true'] at quiet
  exact quiet.1

theorem isWrite_of_quiet {cmd : MemCmd} (quiet : cmd.quiet = true) : cmd.isWrite = false := by
  simp only [MemCmd.quiet, Bool.and_eq_true, Bool.not_eq_true'] at quiet
  exact quiet.2

end MemCmd

/-- A packet for the lines with these pattern bits. Those of a gather are never asked for
exclusively, never written, and their ownership is never passed on. -/
structure Packet.SafeFor (line : Addr) (pkt : Packet) : Prop where
  addr : patternBits pkt.addr = 0
  paddr : patternBits pkt.req.paddr = 0
  pattern : patternBits pkt.getCacheAddr = line
  inhibited : line ≠ 0 → pkt.memInhibitAsserted = false
  quiet : line ≠ 0 → pkt.cmd.quiet = true
  sender : ∀ key, pkt.senderState = some key → patternBits key = line

structure Packet.Keeps (pkt new : Packet) : Prop where
  addr : new.addr = pkt.addr
  paddr : new.req.paddr = pkt.req.paddr
  pattern : new.req.getGatherPattern = pkt.req.getGatherPattern
  sender : new.senderState = pkt.senderState

theorem Packet.patternBits_getCacheAddr {pkt : Packet} (plain : patternBits pkt.addr = 0) :
    patternBits pkt.getCacheAddr =
      patternBits (pkt.req.getGatherPattern <<< GATHER_PATTERN_SHIFT) := by
  simp [Packet.getCacheAddr, patternBits_or, plain]

namespace Packet.SafeFor

variable {line : Addr} {pkt new : Packet}

theorem keep (safe : pkt.SafeFor line) (keeps : pkt.Keeps new)
    (inhibited : line ≠ 0 → new.memInhibitAsserted = false)
    (quiet : line ≠ 0 → new.cmd.quiet = true) : new.SafeFor line where
  addr := by rw [keeps.addr, safe.addr]
  paddr := by rw [keeps.paddr, safe.paddr]
  pattern := by rw [Packet.getCacheAddr, keeps.addr, keeps.pattern]; exact safe.pattern
  inhibited := inhibited
  quiet := quiet
  sender := by rw [keeps.sender]; exact safe.sender

theorem plain_of_needsExclusive (safe : pkt.SafeFor line) (exclusive : pkt.cmd.needsExclusive = true) :
    line = 0 := by
  by_contra patterned
  rw [MemCmd.needsExclusive_of_quiet (safe.quiet patterned)] at exclusive
  exact Bool.false_ne_true exclusive

theorem plain_of_isWrite (safe : pkt.SafeFor line) (writes : pkt.cmd.isWrite = true) :
    line = 0 := by
  by_contra patterned
  rw [MemCmd.isWrite_of_quiet (safe.quiet patterned)] at writes
  exact Bool.false_ne_true writes

theorem plain_of_inhibited (safe : pkt.SafeFor line) (inhibits : pkt.memInhibitAsserted = true) :
    line = 0 := by
  by_contra patterned
  rw [safe.inhibited patterned] at inhibits
  exact Bool.false_ne_true inhibits

theorem clearFlags (safe : pkt.SafeFor line) : pkt.clearFlags.SafeFor line :=
  safe.keep ⟨rfl, rfl, rfl, rfl⟩ (fun _ => rfl) safe.quiet

theorem withData (safe : pkt.SafeFor line) (data : List Byte) :
    Packet.SafeFor line { pkt with data } :=
  safe.keep ⟨rfl, rfl, rfl, rfl⟩ safe.inhibited safe.quiet

theorem withShared (safe : pkt.SafeFor line) (shared : Bool) :
    Packet.SafeFor line { pkt with sharedAsserted := shared } :=
  safe.keep ⟨rfl, rfl, rfl, rfl⟩ safe.inhibited safe.quiet

theorem withSupply (safe : pkt.SafeFor line) (exclusive : Bool) :
    Packet.SafeFor line { pkt with isSupplyExclusive := exclusive } :=
  safe.keep ⟨rfl, rfl, rfl, rfl⟩ safe.inhibited safe.quiet

theorem withExtraData (safe : pkt.SafeFor line) (extraData : BitVec 64) :
    Packet.SafeFor line { pkt with req := { pkt.req with extraData } } :=
  safe.keep ⟨rfl, rfl, rfl, rfl⟩ safe.inhibited safe.quiet

theorem withCmd (safe : pkt.SafeFor line) {cmd : MemCmd} (quiet : line ≠ 0 → cmd.quiet = true) :
    Packet.SafeFor line { pkt with cmd } :=
  safe.keep ⟨rfl, rfl, rfl, rfl⟩ safe.inhibited quiet

theorem withSender (safe : pkt.SafeFor line) {key : Addr} (same : patternBits key = line) :
    Packet.SafeFor line { pkt with senderState := some key } where
  addr := safe.addr
  paddr := safe.paddr
  pattern := safe.pattern
  inhibited := safe.inhibited
  quiet := safe.quiet
  sender := by
    rintro _ ⟨⟩
    exact same

theorem makeResponse (safe : pkt.SafeFor line) : Post pkt.makeResponse (Packet.SafeFor line) := by
  refine Post.ite (fun _ => Post.of_some ?_) (fun _ => Post.fail)
  exact safe.withCmd fun patterned => MemCmd.quiet_responseCommand (safe.quiet patterned)

theorem assertMemInhibit (safe : pkt.SafeFor line) (plain : line = 0) :
    Post pkt.assertMemInhibit (Packet.SafeFor line) := by
  refine Post.ite (fun _ => Post.of_some ?_) (fun _ => Post.fail)
  exact safe.keep ⟨rfl, rfl, rfl, rfl⟩ (fun patterned => absurd plain patterned) safe.quiet

theorem setData (safe : pkt.SafeFor line) (source : List Byte) :
    Post (pkt.setData source) (Packet.SafeFor line) :=
  Post.ite (fun _ => Post.of_some (safe.withData _)) (fun _ => Post.fail)

theorem setDataFromBlock (safe : pkt.SafeFor line) (blkData : Nat → Byte) (blkSize : Nat) :
    Post (pkt.setDataFromBlock blkData blkSize) (Packet.SafeFor line) :=
  Post.ite (fun _ => Post.of_some (safe.withData _)) (fun _ => Post.fail)

theorem renew (safe : pkt.SafeFor line) (addr : patternBits new.addr = 0)
    (req : new.req = pkt.req) (inhibited : new.memInhibitAsserted = false)
    (sender : new.senderState = none) (quiet : line ≠ 0 → new.cmd.quiet = true) :
    new.SafeFor line where
  addr := addr
  paddr := by rw [req, safe.paddr]
  pattern := by rw [patternBits_getCacheAddr addr, req, ← patternBits_getCacheAddr safe.addr,
    safe.pattern]
  inhibited := fun _ => inhibited
  quiet := quiet
  sender := by simp [sender]

end Packet.SafeFor

def BlkRef.Fits : BlkRef → CacheBlk → Prop
  | .way set _, blk => blk.set = set
  | .tempBlock, _ => True

/-- A block that holds one of the lines with these pattern bits, and is dirty only if they
are those of plain lines. -/
structure BlockSafe (tags : TagStore) (line : Addr) (ref : BlkRef) (blk : CacheBlk) : Prop where
  pattern : patternBits (tags.blkAddr blk) = line
  clean : blk.isDirty = true → blk.isValid = true ∧ line = 0
  placed : ref.Fits blk

def Blocks.Safe (tags : TagStore) (blocks : Blocks) : Prop :=
  ∀ ref, ∃ line, BlockSafe tags line ref (blocks.get ref)

namespace BlockSafe

variable {tags : TagStore} {line : Addr} {ref : BlkRef} {blk new : CacheBlk}

theorem keep (safe : BlockSafe tags line ref blk) (tag : new.tag = blk.tag)
    (set : new.set = blk.set) (clean : new.isDirty = true → new.isValid = true ∧ line = 0) :
    BlockSafe tags line ref new where
  pattern := by rw [TagStore.blkAddr, tag, set]; exact safe.pattern
  clean := clean
  placed := by
    have placed := safe.placed
    cases ref with
    | way index way => exact set.trans placed
    | tempBlock => trivial

theorem invalidate (safe : BlockSafe tags line ref blk) :
    BlockSafe tags line ref blk.invalidate :=
  safe.keep rfl rfl fun dirty => nomatch dirty

theorem cleaned (safe : BlockSafe tags line ref blk) : BlockSafe tags line ref blk.cleaned :=
  safe.keep rfl rfl fun dirty => nomatch dirty

theorem plain_of_isDirty (safe : BlockSafe tags line ref blk) (dirty : blk.isDirty = true) :
    line = 0 :=
  (safe.clean dirty).2

end BlockSafe

theorem Blocks.Safe.put {tags : TagStore} {blocks : Blocks} {line : Addr} {ref : BlkRef}
    {blk : CacheBlk} (safe : blocks.Safe tags) (held : BlockSafe tags line ref blk) :
    (blocks.put ref blk).Safe tags := by
  intro other
  by_cases same : other = ref
  · subst same
    rw [Blocks.get_put]
    exact ⟨line, held⟩
  · rw [Blocks.get_put_ne blocks blk same]
    exact safe other

theorem Blocks.safe_empty (tags : TagStore) : Blocks.empty.Safe tags := by
  intro ref
  refine ⟨_, rfl, ?_, ?_⟩
  · cases ref <;> intro dirty <;> nomatch dirty
  · cases ref with
    | way set way => rfl
    | tempBlock => trivial

theorem Blocks.Safe.select {tags : TagStore} {blocks : Blocks} (safe : blocks.Safe tags)
    {addr : Addr} {way : Nat}
    (tag : (blocks.ways (tags.extractSet addr) way).tag = tags.extractTag addr) :
    BlockSafe tags (patternBits addr) (.way (tags.extractSet addr) way)
      (blocks.ways (tags.extractSet addr) way) := by
  obtain ⟨line, held⟩ := safe (.way (tags.extractSet addr) way)
  have pattern := held.pattern
  change patternBits (tags.blkAddr (blocks.ways (tags.extractSet addr) way)) = line at pattern
  rw [tags.blkAddr_eq tag held.placed, tags.patternBits_blockAlign] at pattern
  subst pattern
  exact held

namespace Cache

variable {σ : Type} {params : CacheParams} {side : MemSide σ} {good : σ → Prop}

theorem findBlock_safe {blocks : Blocks} {line : Addr} {pkt : Packet}
    (blocksSafe : blocks.Safe params.toTagStore) (safe : pkt.SafeFor line) {ref : BlkRef}
    (found : findBlock params blocks pkt = some ref) :
    BlockSafe params.toTagStore line ref (blocks.get ref) := by
  obtain ⟨way, foundWay, rfl⟩ := Option.map_eq_some_iff.mp found
  obtain ⟨-, held⟩ := params.holds_of_findBlock foundWay
  simp only [TagStore.holds, Bool.and_eq_true, decide_eq_true_eq] at held
  have selected := blocksSafe.select held.1.1
  rw [safe.pattern] at selected
  exact selected

end Cache

structure MemSide.Safe {σ : Type} (side : MemSide σ) (good : σ → Prop) : Prop where
  functional {line : Addr} {pkt : Packet} {below : σ} (safe : pkt.SafeFor line)
    (start : good below) : Post (side.sendFunctional pkt below) fun answer => good answer.2
  atomic {line : Addr} {pkt : Packet} {below : σ} (safe : pkt.SafeFor line)
    (start : good below) :
    Post (side.sendAtomic pkt below) fun answer => answer.1.SafeFor line ∧ good answer.2

namespace Cache

variable {σ : Type} {params : CacheParams} {side : MemSide σ} {good : σ → Prop}
  {line : Addr} {pkt : Packet} {ref : BlkRef} {blk : CacheBlk} {below : σ}

def SafeAnswer (params : CacheParams) (good : σ → Prop) (line : Addr) (ref : BlkRef)
    (answer : Packet × CacheBlk × σ) : Prop :=
  answer.1.SafeFor line ∧ BlockSafe params.toTagStore line ref answer.2.1 ∧ good answer.2.2

theorem cmpAndSwap_safe (safe : pkt.SafeFor line) (held : BlockSafe params.toTagStore line ref blk)
    (valid : blk.isValid = true) (plain : line = 0) :
    Post (cmpAndSwap params pkt blk) fun answer =>
      answer.1.SafeFor line ∧ BlockSafe params.toTagStore line ref answer.2 := by
  refine Post.guard fun _ => Post.bind (Post.returns _) fun overwrite _ =>
    Post.bind (Post.returns _) fun overwrites _ => Post.of_some ⟨safe.withData _, ?_⟩
  cases overwrites with
  | true => exact held.keep rfl rfl fun _ => ⟨valid, plain⟩
  | false => exact held

theorem satisfyWrite_safe (sideSafe : side.Safe good) (safe : pkt.SafeFor line)
    (held : BlockSafe params.toTagStore line ref blk) (valid : blk.isValid = true)
    (plain : line = 0) (start : good below) :
    Post (satisfyWrite params side pkt blk below) (SafeAnswer params good line ref) := by
  have answeredSafe : (blk.checkWrite pkt).2.1.SafeFor line := by
    rw [CacheBlk.checkWrite]
    split
    · exact safe.withExtraData _
    · exact safe
  have clearedKeeps : (blk.checkWrite pkt).2.2 = blk.clearLoadLocks pkt.req := by
    rw [CacheBlk.checkWrite]
    split <;> rfl
  have dirtied (data : Nat → Byte) : BlockSafe params.toTagStore line ref
      { blk.clearLoadLocks pkt.req with data, isDirty := true } :=
    held.keep rfl rfl fun _ => ⟨valid, plain⟩
  refine Post.guard fun _ => ?_
  rcases outcome : blk.checkWrite pkt with ⟨success, answered, cleared⟩
  rw [outcome] at answeredSafe clearedKeeps
  cases clearedKeeps
  refine Post.ite (fun _ => ?_) fun _ => Post.of_some ⟨answeredSafe, dirtied _, start⟩
  refine Post.bind (Post.returns _) fun data _ => ?_
  have temp : (Packet.new answered.req .WriteReq).allocate.SafeFor line :=
    answeredSafe.renew answeredSafe.paddr rfl rfl rfl fun patterned => absurd plain patterned
  refine Post.bind (temp.setData _) fun tempPkt tempSafe => ?_
  refine Post.bind (sideSafe.functional tempSafe start) fun answer ends => ?_
  exact Post.of_some ⟨answeredSafe, dirtied _, ends⟩

theorem shareBlock_safe (safe : pkt.SafeFor line) (held : BlockSafe params.toTagStore line ref blk)
    (deferredResponse pendingDowngrade : Bool) :
    Post (shareBlock params pkt blk deferredResponse pendingDowngrade) fun answer =>
      answer.1.SafeFor line ∧ BlockSafe params.toTagStore line ref answer.2 := by
  have shared := safe.withShared true
  refine Post.ite (fun _ => ?_) fun _ => Post.ite (fun _ => Post.ite (fun dirty => ?_) ?_) ?_
  · exact Post.join (fun dirty => safe.assertMemInhibit (held.plain_of_isDirty dirty))
      (fun _ => Post.of_some safe)
      fun answered answeredSafe => Post.of_some ⟨answeredSafe, held.invalidate⟩
  · refine Post.ite (fun _ => ?_) fun _ => Post.of_some ⟨shared, held⟩
    exact Post.bind (safe.assertMemInhibit (held.plain_of_isDirty dirty))
      fun answered answeredSafe => Post.of_some ⟨answeredSafe, held.cleaned⟩
  · exact fun _ => Post.of_some ⟨safe, held⟩
  · exact fun _ => Post.of_some ⟨shared, held⟩

theorem satisfyRead_safe (sideSafe : side.Safe good) (safe : pkt.SafeFor line)
    (held : BlockSafe params.toTagStore line ref blk) (deferredResponse pendingDowngrade : Bool)
    (start : good below) :
    Post (satisfyRead params side pkt blk deferredResponse pendingDowngrade below)
      (SafeAnswer params good line ref) := by
  have tracked : BlockSafe params.toTagStore line ref
      (if pkt.cmd.isLLSC then blk.trackLoadLocked pkt.req else blk) := by
    split
    · exact held.keep rfl rfl held.clean
    · exact held
  have temp : (Packet.new pkt.req .ReadReq).allocate.SafeFor line :=
    safe.renew safe.paddr rfl rfl rfl fun _ => rfl
  refine Post.bind (sideSafe.functional temp start) fun answer ends => ?_
  refine Post.bind (safe.setData _) fun filled filledSafe => ?_
  refine Post.ite (fun _ => ?_) fun _ => Post.of_some ⟨filledSafe, tracked, ends⟩
  exact Post.bind (shareBlock_safe filledSafe tracked _ _) fun shared ⟨answered, kept⟩ =>
    Post.of_some ⟨answered, kept, ends⟩

theorem satisfyCpuSideRequest_safe (sideSafe : side.Safe good) (safe : pkt.SafeFor line)
    (held : BlockSafe params.toTagStore line ref blk) (deferredResponse pendingDowngrade : Bool)
    (start : good below) :
    Post (satisfyCpuSideRequest params side pkt ref blk deferredResponse pendingDowngrade below)
      (SafeAnswer params good line ref) := by
  refine Post.guard fun ⟨_, valid, _⟩ => Post.ite (fun swap => ?_) fun _ =>
    Post.ite (fun writes => ?_) fun _ => Post.ite (fun _ => ?_) fun _ => ?_
  · have plain : line = 0 := safe.plain_of_isWrite (by rw [swap]; rfl)
    exact Post.bind (cmpAndSwap_safe safe held valid plain) fun _ ⟨answered, swapped⟩ =>
      Post.of_some ⟨answered, swapped, start⟩
  · have plain : line = 0 := safe.plain_of_isWrite (Bool.and_eq_true_iff.mp writes).1
    exact satisfyWrite_safe sideSafe safe held valid plain start
  · exact satisfyRead_safe sideSafe safe held _ _ start
  · exact Post.guard fun _ => Post.guard fun _ => Post.of_some ⟨safe, held.invalidate, start⟩

theorem regenerated_safe (held : BlockSafe params.toTagStore line ref blk)
    (dirty : blk.isDirty = true)
    (addr : pkt.addr = params.regenerateBlkAddr blk.tag blk.set)
    (paddr : pkt.req.paddr = params.regenerateBlkAddr blk.tag blk.set)
    (ungathered : pkt.req.isGather = false) (sender : pkt.senderState = none) :
    pkt.SafeFor 0 := by
  have plain : patternBits (params.regenerateBlkAddr blk.tag blk.set) = 0 :=
    held.pattern.trans (held.plain_of_isDirty dirty)
  have noPattern : pkt.req.getGatherPattern = 0 := by simp [Request.getGatherPattern, ungathered]
  refine ⟨?_, ?_, ?_, fun absent => absurd rfl absent, fun absent => absurd rfl absent, ?_⟩
  · rw [addr, plain]
  · rw [paddr, plain]
  · rw [Packet.getCacheAddr_plain noPattern, addr, plain]
  · simp [sender]

theorem writebackPacket_safe (held : BlockSafe params.toTagStore line ref blk)
    (dirty : blk.isDirty = true) : (writebackPacket params blk).SafeFor 0 := by
  refine regenerated_safe held dirty rfl rfl ?_ rfl
  rw [Request.isGather]
  change Request.isSet (if blk.isSecure then Request.SECURE else 0) Request.GATHER = false
  cases blk.isSecure <;> decide

theorem writebackBlk_safe (held : BlockSafe params.toTagStore line ref blk) :
    Post (writebackBlk params blk) fun written =>
      written.1.SafeFor 0 ∧ BlockSafe params.toTagStore line ref written.2 :=
  Post.ite (fun ⟨_, dirty⟩ => Post.of_some ⟨writebackPacket_safe held dirty, held.cleaned⟩)
    fun _ => Post.fail

theorem writebackVisitor_safe (sideSafe : side.Safe good)
    (held : BlockSafe params.toTagStore line ref blk) (start : good below) :
    Post (writebackVisitor params side blk below) fun written =>
      BlockSafe params.toTagStore line ref written.1 ∧ good written.2 := by
  refine Post.ite (fun dirty => Post.guard fun _ => ?_) fun _ => Post.of_some ⟨held, start⟩
  refine Post.bind (sideSafe.functional (regenerated_safe held dirty ?_ ?_ ?_ ?_) start)
    fun _ ends => Post.of_some ⟨held.cleaned, ends⟩
  · rfl
  · rfl
  · exact (by decide : Request.isSet 0 Request.GATHER = false)
  · rfl

theorem invalidateVisitor_safe (held : BlockSafe params.toTagStore line ref blk) :
    Post (invalidateVisitor blk) (BlockSafe params.toTagStore line ref) :=
  Post.ite (fun _ => Post.guard fun _ => Post.of_some held.invalidate)
    fun _ => Post.of_some held

theorem clearLocks_safe {blocks : Blocks} (safe : blocks.Safe params.toTagStore) :
    (clearLocks blocks).Safe params.toTagStore := by
  intro ref
  obtain ⟨line, held⟩ := safe ref
  cases ref with
  | way set way => exact ⟨line, held.keep rfl rfl held.clean⟩
  | tempBlock => exact ⟨line, held⟩

theorem uncacheableFlush_safe {blocks : Blocks} (sideSafe : side.Safe good)
    (safe : pkt.SafeFor line) (blocksSafe : blocks.Safe params.toTagStore) (start : good below) :
    Post (uncacheableFlush params side pkt blocks below) fun flushed =>
      flushed.1.Safe params.toTagStore ∧ good flushed.2 := by
  have clearedSafe : (if pkt.req.isClearLL then clearLocks blocks else blocks).Safe
      params.toTagStore := by
    split
    · exact clearLocks_safe blocksSafe
    · exact blocksSafe
  rw [uncacheableFlush]
  generalize (if pkt.req.isClearLL then clearLocks blocks else blocks) = cleared at clearedSafe
  dsimp only
  split
  · rename_i found
    have held := findBlock_safe clearedSafe safe found
    refine Post.bind (writebackVisitor_safe sideSafe held start) fun written ⟨kept, ends⟩ => ?_
    exact Post.bind (invalidateVisitor_safe kept) fun _ invalidated =>
      Post.of_some ⟨clearedSafe.put invalidated, ends⟩
  · exact Post.of_some ⟨clearedSafe, start⟩

theorem allocateBlock_safe {blocks : Blocks} (blocksSafe : blocks.Safe params.toTagStore)
    (outstanding : Addr → Bool → Option Bool) (victim : Nat) (addr : Addr) :
    Post (allocateBlock params outstanding victim blocks addr) fun allocated =>
      (∀ ref, allocated.1 = some ref →
        ref = .way (params.extractSet addr) (victim % params.assoc)) ∧
      allocated.2.1.Safe params.toTagStore ∧
      ∀ writeback ∈ allocated.2.2, writeback.SafeFor 0 := by
  have here : ∀ ref, some (BlkRef.way (params.extractSet addr) (victim % params.assoc)) = some ref →
      ref = .way (params.extractSet addr) (victim % params.assoc) := by
    rintro _ ⟨⟩
    rfl
  have nothing : ∀ writeback ∈ ([] : List Packet), writeback.SafeFor 0 := by simp
  refine Post.ite (fun _ => ?_) fun _ => Post.of_some ⟨here, blocksSafe, nothing⟩
  dsimp only
  split
  · exact Post.guard fun _ => Post.of_some ⟨by simp, blocksSafe, nothing⟩
  · refine Post.ite (fun _ => ?_) fun _ => Post.of_some ⟨here, blocksSafe, nothing⟩
    obtain ⟨line, held⟩ := blocksSafe (.way (params.extractSet addr) (victim % params.assoc))
    refine Post.bind (writebackBlk_safe held) fun written ⟨plain, cleaned⟩ => ?_
    exact Post.of_some ⟨here, blocksSafe.put cleaned, by simpa using plain⟩

theorem insertBlock_safe {blocks : Blocks} (blocksSafe : blocks.Safe params.toTagStore)
    (safe : pkt.SafeFor line) (way : Nat) :
    BlockSafe params.toTagStore line (.way (params.extractSet pkt.getCacheAddr) way)
      (params.insertBlock (blocks.ways (params.extractSet pkt.getCacheAddr) way) pkt) := by
  obtain ⟨other, held⟩ := blocksSafe (.way (params.extractSet pkt.getCacheAddr) way)
  have placed : (blocks.ways (params.extractSet pkt.getCacheAddr) way).set =
      params.extractSet pkt.getCacheAddr := held.placed
  have clean := held.clean
  change (blocks.ways _ way).isDirty = true → (blocks.ways _ way).isValid = true ∧ _ at clean
  rw [TagStore.insertBlock]
  refine ⟨?_, ?_, ?_⟩
  · rw [params.blkAddr_eq rfl, params.patternBits_blockAlign, safe.pattern]
    split <;> exact placed
  · split
    · intro dirty
      nomatch dirty
    · rename_i invalid
      intro dirty
      exact absurd (clean dirty).1 invalid
  · split <;> exact placed

theorem fillBlock_safe (safe : pkt.SafeFor line) (held : BlockSafe params.toTagStore line ref blk) :
    Post (fillBlock params pkt blk) (BlockSafe params.toTagStore line ref) := by
  have status : (fillStatus pkt blk).isDirty = true → true = true ∧ line = 0 := by
    intro dirty
    rw [fillStatus_isDirty, Bool.or_eq_true, Bool.and_eq_true] at dirty
    rcases dirty with dirty | ⟨_, inhibited⟩
    · exact ⟨rfl, held.plain_of_isDirty dirty⟩
    · exact ⟨rfl, safe.plain_of_inhibited inhibited⟩
  exact Post.ite
    (fun _ => Post.ite (fun _ => Post.of_some (held.keep rfl rfl status)) fun _ => Post.fail)
    fun _ => Post.of_some (held.keep rfl rfl status)

def SafeFill (params : CacheParams) (line : Addr) (fill : BlkRef × Blocks × List Packet) : Prop :=
  fill.2.1.Safe params.toTagStore ∧
    BlockSafe params.toTagStore line fill.1 (fill.2.1.get fill.1) ∧
    ∀ writeback ∈ fill.2.2, writeback.SafeFor 0

theorem placeFill_safe {blocks : Blocks} {found : Option BlkRef} (safe : pkt.SafeFor line)
    (blocksSafe : blocks.Safe params.toTagStore)
    (foundSafe : ∀ ref, found = some ref → BlockSafe params.toTagStore line ref (blocks.get ref))
    (outstanding : Addr → Bool → Option Bool) (victim : Nat) :
    Post (placeFill params outstanding victim pkt found blocks) (SafeFill params line) := by
  cases found with
  | some ref =>
      exact Post.guard fun _ => Post.of_some ⟨blocksSafe, foundSafe ref rfl, by simp⟩
  | none =>
      refine Post.guard fun _ => Post.bind (allocateBlock_safe blocksSafe outstanding victim _) ?_
      rintro ⟨place, allocated, writebacks⟩ ⟨here, allocatedSafe, plain⟩
      cases place with
      | some ref =>
          obtain rfl := here ref rfl
          have inserted := insertBlock_safe allocatedSafe safe (victim % params.assoc)
          exact Post.of_some ⟨allocatedSafe.put inserted, by rw [Blocks.get_put]; exact inserted, plain⟩
      | none =>
          refine Post.guard fun invalid => ?_
          obtain ⟨other, held⟩ := allocatedSafe .tempBlock
          have temp : BlockSafe params.toTagStore line .tempBlock
              { allocated.tempBlock with
                set := params.extractSet pkt.getCacheAddr
                tag := params.extractTag pkt.getCacheAddr } := by
            refine ⟨?_, fun dirty => absurd (held.clean dirty).1 invalid, trivial⟩
            rw [params.blkAddr_eq rfl rfl, params.patternBits_blockAlign, safe.pattern]
          exact Post.of_some ⟨allocatedSafe.put temp, by rw [Blocks.get_put]; exact temp, plain⟩

theorem handleFill_safe {blocks : Blocks} {found : Option BlkRef} (safe : pkt.SafeFor line)
    (blocksSafe : blocks.Safe params.toTagStore)
    (foundSafe : ∀ ref, found = some ref → BlockSafe params.toTagStore line ref (blocks.get ref))
    (outstanding : Addr → Bool → Option Bool) (victim : Nat) :
    Post (handleFill params outstanding victim pkt found blocks) (SafeFill params line) := by
  refine Post.guard fun _ =>
    Post.bind (placeFill_safe safe blocksSafe foundSafe outstanding victim) ?_
  rintro ⟨ref, placed, writebacks⟩ ⟨placedSafe, held, plain⟩
  exact Post.bind (fillBlock_safe safe held) fun filled filledSafe =>
    Post.of_some ⟨placedSafe.put filledSafe, by rw [Blocks.get_put]; exact filledSafe, plain⟩

structure SafeAccess (params : CacheParams) (good : σ → Prop) (line : Addr)
    (accessed : Accessed σ) : Prop where
  pkt : accessed.pkt.SafeFor line
  blocks : accessed.blocks.Safe params.toTagStore
  found : ∀ ref, accessed.found = some ref →
    BlockSafe params.toTagStore line ref (accessed.blocks.get ref)
  writebacks : ∀ writeback ∈ accessed.writebacks, writeback.SafeFor 0
  below : good accessed.below

theorem storeWriteback_safe {blocks : Blocks} {stored : CacheBlk} {writebacks : List Packet}
    (safe : pkt.SafeFor line) (plain : line = 0) (blocksSafe : blocks.Safe params.toTagStore)
    (held : BlockSafe params.toTagStore line ref (blocks.get ref))
    (tag : stored.tag = (blocks.get ref).tag) (set : stored.set = (blocks.get ref).set)
    (valid : stored.isValid = true)
    (written : ∀ writeback ∈ writebacks, writeback.SafeFor 0) (start : good below) :
    SafeAccess params good line
      ⟨true, pkt, some ref, blocks.put ref stored, writebacks, below⟩ := by
  have storedSafe : BlockSafe params.toTagStore line ref stored :=
    held.keep tag set fun _ => ⟨valid, plain⟩
  refine ⟨safe, blocksSafe.put storedSafe, ?_, written, start⟩
  rintro _ ⟨⟩
  rw [Blocks.get_put]
  exact storedSafe

theorem accessWriteback_safe {blocks : Blocks} {found : Option BlkRef} (safe : pkt.SafeFor line)
    (plain : line = 0) (blocksSafe : blocks.Safe params.toTagStore)
    (foundSafe : ∀ ref, found = some ref → (blocks.get ref).isValid = true ∧
      BlockSafe params.toTagStore line ref (blocks.get ref))
    (outstanding : Addr → Bool → Option Bool) (victim : Nat) (start : good below) :
    Post (accessWriteback params outstanding victim pkt found blocks below)
      (SafeAccess params good line) := by
  refine Post.guard fun _ => ?_
  cases found with
  | some ref =>
      obtain ⟨valid, held⟩ := foundSafe ref rfl
      exact Post.of_some
        (storeWriteback_safe safe plain blocksSafe held rfl rfl valid (by simp) start)
  | none =>
      refine Post.bind (allocateBlock_safe blocksSafe outstanding victim _) ?_
      rintro ⟨place, allocated, writebacks⟩ ⟨here, allocatedSafe, written⟩
      cases place with
      | none => exact Post.of_some ⟨safe, allocatedSafe, by simp, written, start⟩
      | some ref =>
          obtain rfl := here ref rfl
          have inserted := insertBlock_safe allocatedSafe safe (victim % params.assoc)
          refine Post.of_some (storeWriteback_safe safe plain ?_ ?_ ?_ ?_ ?_ written start)
          · exact allocatedSafe.put (inserted.keep rfl rfl fun dirty => nomatch dirty)
          · rw [Blocks.get_put]
            exact inserted.keep rfl rfl fun dirty => nomatch dirty
          · rfl
          · rfl
          · rw [Blocks.get_put]

theorem findBlock_valid {blocks : Blocks} (found : findBlock params blocks pkt = some ref) :
    (blocks.get ref).isValid = true := by
  obtain ⟨way, foundWay, rfl⟩ := Option.map_eq_some_iff.mp found
  obtain ⟨-, held⟩ := params.holds_of_findBlock foundWay
  simp only [TagStore.holds, Bool.and_eq_true, decide_eq_true_eq] at held
  exact held.1.2

theorem access_safe {blocks : Blocks} (sideSafe : side.Safe good) (safe : pkt.SafeFor line)
    (blocksSafe : blocks.Safe params.toTagStore) (outstanding : Addr → Bool → Option Bool)
    (victim : Nat) (start : good below) :
    Post (access params side outstanding victim pkt blocks below)
      (SafeAccess params good line) := by
  have foundSafe : ∀ ref, findBlock params blocks pkt = some ref →
      BlockSafe params.toTagStore line ref (blocks.get ref) :=
    fun _ found => findBlock_safe blocksSafe safe found
  have unchanged (satisfied : Bool) : SafeAccess params good line
      ⟨satisfied, pkt, findBlock params blocks pkt, blocks, [], below⟩ :=
    ⟨safe, blocksSafe, foundSafe, by simp, start⟩
  refine Post.guard fun _ => Post.ite (fun _ => ?_) fun _ => Post.ite (fun writeback => ?_) fun _ => ?_
  · exact Post.bind (uncacheableFlush_safe sideSafe safe blocksSafe start)
      fun _ ⟨flushedSafe, ends⟩ => Post.of_some ⟨safe, flushedSafe, by simp, by simp, ends⟩
  · have plain : line = 0 := safe.plain_of_isWrite (by rw [writeback]; rfl)
    exact accessWriteback_safe safe plain blocksSafe
      (fun ref found => ⟨findBlock_valid found, foundSafe ref found⟩) outstanding victim start
  · cases found : findBlock params blocks pkt with
    | some ref =>
        rw [found] at unchanged
        refine Post.ite (fun _ => ?_) fun _ => Post.of_some (unchanged false)
        refine Post.bind (satisfyCpuSideRequest_safe sideSafe safe (foundSafe ref found) _ _ start) ?_
        rintro ⟨answered, used, after⟩ ⟨answeredSafe, held, ends⟩
        refine Post.of_some ⟨answeredSafe, blocksSafe.put held, ?_, by simp, ends⟩
        rintro _ ⟨⟩
        rw [Blocks.get_put]
        exact held
    | none =>
        rw [found] at unchanged
        exact Post.ite
          (fun _ => Post.of_some ⟨safe.withExtraData 0, blocksSafe, by simp, by simp, start⟩)
          fun _ => Post.of_some (unchanged false)

theorem promoteWholeLineWrites_safe (safe : pkt.SafeFor line) :
    Post (promoteWholeLineWrites params pkt) (Packet.SafeFor line) := by
  refine Post.ite (fun ⟨writes, _⟩ => ?_) fun _ => Post.of_some safe
  have plain : line = 0 := safe.plain_of_isWrite (by rw [writes]; rfl)
  exact Post.guard fun _ => Post.of_some (safe.withCmd fun patterned => absurd plain patterned)

theorem getBusPacket_safe {found : Option CacheBlk} {needsExclusive : Bool}
    (safe : pkt.SafeFor line) (shared : line ≠ 0 → needsExclusive = false) :
    Post (getBusPacket params pkt found needsExclusive) fun bus =>
      ∀ busPkt, bus = some busPkt → busPkt.SafeFor line := by
  refine Post.ite (fun _ => Post.of_some (by simp)) fun _ => Post.ite
    (fun _ => Post.of_some (by simp)) fun _ => Post.guard fun _ => Post.guard fun upgrades => ?_
  refine Post.of_some ?_
  rintro _ ⟨⟩
  refine safe.renew ?_ rfl rfl rfl fun patterned => ?_
  · exact (params.patternBits_blockAlign _).trans safe.paddr
  · have reads := safe.quiet patterned
    have sharedOnly := shared patterned
    subst sharedOnly
    have invalid : found.any (·.isValid) = false := by
      by_contra valid
      exact Bool.false_ne_true (upgrades (by simpa using valid)).1
    have notFail : ¬ (pkt.cmd = .SCUpgradeFailReq ∨ pkt.cmd = .StoreCondFailReq) := by
      rintro (failed | failed) <;> rw [failed] at reads <;> exact absurd reads (by decide)
    have notWrite : pkt.cmd.isWriteInvalidate = false := by
      simp [MemCmd.isWriteInvalidate, MemCmd.isWrite_of_quiet reads]
    simp only [Packet.allocate, Packet.newBlock, Packet.new, invalid, notFail, notWrite,
      Bool.false_eq_true, if_false]
    rfl

def SafeMiss (params : CacheParams) (good : σ → Prop) (line : Addr)
    (missed : Packet × Blocks × List Packet × σ) : Prop :=
  missed.1.SafeFor line ∧ missed.2.1.Safe params.toTagStore ∧
    (∀ writeback ∈ missed.2.2.1, writeback.SafeFor 0) ∧ good missed.2.2.2

theorem fillAndSatisfy_safe {fill : Packet} {accessed : Accessed σ} (sideSafe : side.Safe good)
    (fillSafe : fill.SafeFor line) (accessedSafe : SafeAccess params good line accessed)
    (outstanding : Addr → Bool → Option Bool) (victim : Nat) (start : good below) :
    Post (fillAndSatisfy params side outstanding victim fill accessed below)
      (SafeMiss params good line) := by
  refine Post.bind (handleFill_safe fillSafe accessedSafe.blocks accessedSafe.found outstanding
    victim) ?_
  rintro ⟨ref, filled, evicted⟩ ⟨filledSafe, held, written⟩
  refine Post.bind (satisfyCpuSideRequest_safe sideSafe accessedSafe.pkt held _ _ start) ?_
  rintro ⟨answered, used, after⟩ ⟨answeredSafe, usedSafe, ends⟩
  refine Post.of_some ⟨answeredSafe, filledSafe.put usedSafe, ?_, ends⟩
  exact List.forall_mem_append.mpr ⟨accessedSafe.writebacks, written⟩

theorem atomicMiss_safe {accessed : Accessed σ} (sideSafe : side.Safe good)
    (accessedSafe : SafeAccess params good line accessed)
    (outstanding : Addr → Bool → Option Bool) (victim : Nat) :
    Post (atomicMiss params side outstanding victim accessed) (SafeMiss params good line) := by
  have safe := accessedSafe.pkt
  have unchanged {answered : Packet} {after : σ} (answeredSafe : answered.SafeFor line)
      (ends : good after) : SafeMiss params good line
        (answered, accessed.blocks, accessed.writebacks, after) :=
    ⟨answeredSafe, accessedSafe.blocks, accessedSafe.writebacks, ends⟩
  refine Post.bind (getBusPacket_safe safe fun patterned =>
    MemCmd.needsExclusive_of_quiet (safe.quiet patterned)) fun bus busSafe => ?_
  cases bus with
  | none =>
      exact Post.bind (sideSafe.atomic safe accessedSafe.below) fun _ ⟨answered, ends⟩ =>
        Post.of_some (unchanged answered ends)
  | some busPkt =>
      refine Post.bind (sideSafe.atomic (busSafe busPkt rfl) accessedSafe.below) ?_
      rintro ⟨response, after⟩ ⟨responseSafe, ends⟩
      refine Post.ite (fun _ => Post.guard fun _ => ?_) fun _ => Post.of_some (unchanged safe ends)
      refine Post.ite (fun _ => ?_) fun _ => Post.ite (fun _ => ?_) fun _ =>
        Post.ite (fun _ => ?_) fun _ => ?_
      · exact Post.bind safe.makeResponse fun _ failed =>
          Post.of_some (unchanged (failed.withCmd responseSafe.quiet) ends)
      · refine Post.ite (fun _ => fillAndSatisfy_safe sideSafe safe accessedSafe _ _ ends) fun _ => ?_
        split
        · rename_i ref found
          have held := accessedSafe.found ref found
          refine Post.bind (satisfyCpuSideRequest_safe sideSafe safe held _ _ ends) ?_
          rintro ⟨answered, used, last⟩ ⟨answeredSafe, usedSafe, lastGood⟩
          exact Post.of_some ⟨answeredSafe, accessedSafe.blocks.put usedSafe,
            accessedSafe.writebacks, lastGood⟩
        · exact Post.of_some (unchanged safe ends)
      · exact fillAndSatisfy_safe sideSafe responseSafe accessedSafe _ _ ends
      · exact Post.bind safe.makeResponse fun _ answered =>
          Post.of_some (unchanged answered ends)

theorem atomicInhibited_safe {blocks : Blocks} (sideSafe : side.Safe good)
    (safe : pkt.SafeFor line) (blocksSafe : blocks.Safe params.toTagStore) (start : good below) :
    Post (atomicInhibited params side pkt blocks below) fun answer =>
      answer.1.SafeFor line ∧ answer.2.1.Safe params.toTagStore ∧ good answer.2.2 := by
  refine Post.guard fun _ => Post.ite (fun _ => ?_) fun _ => Post.of_some ⟨safe, blocksSafe, start⟩
  refine Post.bind (sideSafe.atomic safe start) fun _ ⟨answered, ends⟩ =>
    Post.of_some ⟨answered, ?_, ends⟩
  split
  · next found => exact blocksSafe.put (findBlock_safe blocksSafe safe found).invalidate
  · exact blocksSafe

theorem sendWritebacks_safe (sideSafe : side.Safe good) (writebacks : List Packet)
    (written : ∀ writeback ∈ writebacks, writeback.SafeFor 0) (start : good below) :
    Post (sendWritebacks side writebacks below) good := by
  induction writebacks generalizing below with
  | nil => exact Post.of_some start
  | cons first rest ih =>
      obtain ⟨firstSafe, restSafe⟩ := List.forall_mem_cons.mp written
      exact Post.bind (sideSafe.atomic firstSafe start) fun _ ⟨_, ends⟩ => ih restSafe ends

theorem recvAtomic_safe {blocks : Blocks} (sideSafe : side.Safe good) (safe : pkt.SafeFor line)
    (blocksSafe : blocks.Safe params.toTagStore) (outstanding : Addr → Bool → Option Bool)
    (victim : Nat) (start : good below) :
    Post (recvAtomic params side outstanding victim pkt blocks below) fun answer =>
      answer.1.SafeFor line ∧ answer.2.1.Safe params.toTagStore ∧ good answer.2.2 := by
  refine Post.bind (promoteWholeLineWrites_safe safe) fun promoted promotedSafe => ?_
  refine Post.ite (fun _ => atomicInhibited_safe sideSafe promotedSafe blocksSafe start) fun _ => ?_
  refine Post.bind (access_safe sideSafe promotedSafe blocksSafe outstanding victim start)
    fun accessed accessedSafe => ?_
  refine Post.join (fun _ => Post.of_some ⟨accessedSafe.pkt, accessedSafe.blocks,
    accessedSafe.writebacks, accessedSafe.below⟩)
    (fun _ => atomicMiss_safe sideSafe accessedSafe outstanding victim) ?_
  rintro ⟨answered, after, writebacks, last⟩ ⟨answeredSafe, afterSafe, written, lastGood⟩
  refine Post.bind (sendWritebacks_safe sideSafe writebacks written lastGood) fun final ends => ?_
  exact Post.ite (fun _ => Post.bind answeredSafe.makeResponse fun _ responseSafe =>
      Post.of_some ⟨responseSafe, afterSafe, ends⟩)
    fun _ => Post.of_some ⟨answeredSafe, afterSafe, ends⟩

end Cache

end LlvmGather
