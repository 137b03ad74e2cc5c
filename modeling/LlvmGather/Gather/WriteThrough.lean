import LlvmGather.Gather.ReadHit
import LlvmGather.Gather.Transparency

/-!
Sequences of CPU-side requests on one block of a top-level cache above the memory. Reads
are served from below, so a branch that changes the block has to change the memory too.
Writes and store conditionals do; swaps do not.
-/

namespace LlvmGather

open Partial (Post)

structure Packet.FromCpu (params : CacheParams) (line pattern : Addr) (pkt : Packet) : Prop where
  addr : pkt.addr = pkt.req.paddr
  size : pkt.size = pkt.req.size
  command : pkt.cmd.isRead = true ∨ pkt.cmd.isWrite = true
  operand : pkt.cmd.isWrite = true → pkt.data.length = pkt.size
  plain : pkt.cmd.isWrite = true → pkt.req.isGather = false
  aligned : params.blockAlign pkt.addr = line
  gathers : pkt.req.getGatherPattern = pattern

structure CpuRequest where
  pkt : Packet
  deferredResponse : Bool
  pendingDowngrade : Bool

structure ServedRequest where
  pkt : Packet
  answered : Packet
  before : CacheBlk
  after : CacheBlk
  memory : AbstractMemory

namespace Cache

def serveAll (params : CacheParams) (ref : BlkRef) :
    List CpuRequest → CacheBlk → AbstractMemory → Option (List ServedRequest)
  | [], _, _ => some []
  | request :: rest, blk, mem => do
      let outcome ← satisfyCpuSideRequest params AbstractMemory.memSide request.pkt ref blk
        request.deferredResponse request.pendingDowngrade mem
      let served ← serveAll params ref rest outcome.2.1 outcome.2.2
      return ⟨request.pkt, outcome.1, blk, outcome.2.1, outcome.2.2⟩ :: served

def foundIn (params : CacheParams) (pkt : Packet) (blk : CacheBlk) : List Byte :=
  ByteStore.read blk.data (pkt.getOffset params.blkSize) pkt.size

inductive Effect (params : CacheParams) (pkt : Packet) (blk : CacheBlk) (mem : AbstractMemory) :
    Packet × CacheBlk × AbstractMemory → Prop
  | read {answered : Packet} {after : CacheBlk} (plain : pkt.cmd.isWrite = false)
      (answers : mem.Answers pkt.req)
      (data : answered.data = contents mem.store pkt.req pkt.addr pkt.size)
      (same : after.data = blk.data) : Effect params pkt blk mem (answered, after, mem)
  | refused {answered : Packet} {after : CacheBlk} (writes : pkt.cmd.isWrite = true)
      (swap : pkt.cmd = .SwapReq → swapOverwrites pkt (foundIn params pkt blk) = some false)
      (same : after.data = blk.data) : Effect params pkt blk mem (answered, after, mem)
  | written {answered : Packet} {after : CacheBlk} (writes : pkt.cmd.isWrite = true)
      (noSwap : pkt.cmd ≠ .SwapReq)
      (stored : after.data = ByteStore.write blk.data (pkt.getOffset params.blkSize) pkt.data) :
      Effect params pkt blk mem (answered, after,
        { mem with store := ByteStore.write mem.store pkt.addr.toNat pkt.data })
  | swapped {answered : Packet} {after : CacheBlk} (swap : pkt.cmd = .SwapReq)
      (overwrites : swapOverwrites pkt (foundIn params pkt blk) = some true)
      (stored : after.data = ByteStore.write blk.data (pkt.getOffset params.blkSize) pkt.data) :
      Effect params pkt blk mem (answered, after, mem)

section Effects

variable {params : CacheParams} {line pattern : Addr} {pkt : Packet} {blk : CacheBlk}
  {mem : AbstractMemory}

theorem cmpAndSwap_effect (operand : pkt.data.length = pkt.size) (swap : pkt.cmd = .SwapReq) :
    Post (cmpAndSwap params pkt blk) fun outcome =>
      Effect params pkt blk mem (outcome.1, outcome.2, mem) := by
  refine Post.guard fun _ => ?_
  rw [Packet.writeData_eq operand]
  refine Post.bind (Post.returns _) fun overwrite data => ?_
  obtain rfl := Option.some.inj data
  refine Post.bind (Post.returns _) fun overwrites decided => Post.of_some ?_
  cases overwrites with
  | true => exact .swapped swap decided rfl
  | false => exact .refused (by rw [swap]; rfl) (fun _ => decided) rfl

theorem checkWrite_keeps (blk : CacheBlk) (pkt : Packet) :
    (blk.checkWrite pkt).2.1.data = pkt.data ∧ (blk.checkWrite pkt).2.1.size = pkt.size ∧
      (blk.checkWrite pkt).2.1.addr = pkt.addr ∧
      (blk.checkWrite pkt).2.1.req.paddr = pkt.req.paddr ∧
      (blk.checkWrite pkt).2.1.req.size = pkt.req.size ∧
      (blk.checkWrite pkt).2.2.data = blk.data := by
  rw [CacheBlk.checkWrite]
  split_ifs <;> exact ⟨rfl, rfl, rfl, rfl, rfl, rfl⟩

theorem functionalAccess_stores (length : pkt.data.length = pkt.size) (cmd : pkt.cmd = .WriteReq) :
    Post (mem.functionalAccess pkt) fun outcome =>
      outcome.2 = { mem with store := ByteStore.write mem.store pkt.addr.toNat pkt.data } := by
  refine Post.guard fun _ => Post.ite (fun reads => ?_) fun _ => Post.ite (fun _ => ?_) fun _ => Post.fail
  · rw [cmd] at reads
    exact absurd reads (by decide)
  · rw [Packet.writeData_eq length]
    refine Post.bind (Post.returns _) fun data taken => ?_
    obtain rfl := Option.some.inj taken
    refine Post.bind (Post.returns _) fun written stored => ?_
    rw [AbstractMemory.hostWrite] at stored
    split at stored
    · obtain rfl := Option.some.inj stored
      exact Post.bind (Post.returns _) fun _ _ => Post.of_some rfl
    · cases stored

theorem satisfyWrite_effect (packet : pkt.FromCpu params line pattern)
    (writes : pkt.cmd.isWrite = true) (noSwap : pkt.cmd ≠ .SwapReq) :
    Post (satisfyWrite params AbstractMemory.memSide pkt blk mem) (Effect params pkt blk mem) := by
  have length := packet.operand writes
  refine Post.guard fun _ => ?_
  obtain ⟨data, size, addr, paddr, reqSize, cleared⟩ := checkWrite_keeps blk pkt
  generalize blk.checkWrite pkt = checked at data size addr paddr reqSize cleared
  obtain ⟨success, answered, kept⟩ := checked
  simp only at data size addr paddr reqSize cleared
  refine Post.ite (fun _ => ?_) fun _ =>
    Post.of_some (.refused writes (fun swap => absurd swap noSwap) cleared)
  have answeredLength : answered.data.length = answered.size := by rw [data, size, length]
  have sentLength : answered.data.length = (Packet.new answered.req .WriteReq).allocate.size := by
    rw [data, length, packet.size, ← reqSize]
    rfl
  refine Post.bind (Post.returns _) fun stored place => ?_
  rw [Packet.writeDataToBlock, Packet.writeData_eq answeredLength, Option.map_some,
    Option.some_inj] at place
  refine Post.bind (Post.returns _) fun tempPkt copied => ?_
  rw [Packet.setData_eq sentLength, Option.some_inj] at copied
  have sent : tempPkt.data = pkt.data ∧ tempPkt.addr = pkt.addr ∧ tempPkt.cmd = .WriteReq ∧
      tempPkt.data.length = tempPkt.size := by
    rw [← copied]
    refine ⟨data, ?_, rfl, sentLength⟩
    rw [packet.addr, ← paddr]
    rfl
  refine Post.bind (functionalAccess_stores sent.2.2.2 sent.2.2.1) fun outcome below => Post.of_some ?_
  rw [below, sent.1, sent.2.1]
  refine .written writes noSwap ?_
  have offset : answered.getOffset params.blkSize = pkt.getOffset params.blkSize := by
    rw [Packet.getOffset, Packet.getOffset, addr]
  rw [← place, offset, data, cleared]

theorem shareBlock_keeps (deferred pending : Bool) :
    Post (shareBlock params pkt blk deferred pending) fun outcome =>
      outcome.1.data = pkt.data ∧ outcome.2.data = blk.data := by
  have inhibited : Post pkt.assertMemInhibit fun answered => answered.data = pkt.data := by
    refine Post.ite (fun _ => Post.of_some rfl) fun _ => Post.fail
  refine Post.ite (fun _ => ?_) fun _ => Post.ite (fun _ => ?_) fun _ => Post.of_some ⟨rfl, rfl⟩
  · exact Post.join (fun _ => inhibited) (fun _ => Post.of_some rfl) fun _ same =>
      Post.of_some ⟨same, rfl⟩
  · refine Post.ite (fun _ => ?_) fun _ => Post.of_some ⟨rfl, rfl⟩
    refine Post.ite (fun _ => ?_) fun _ => Post.of_some ⟨rfl, rfl⟩
    exact Post.bind inhibited fun _ same => Post.of_some ⟨same, rfl⟩

theorem satisfyRead_effect (packet : pkt.FromCpu params line pattern)
    (plain : pkt.cmd.isWrite = false) (deferred pending : Bool) :
    Post (satisfyRead params AbstractMemory.memSide pkt blk deferred pending mem)
      (Effect params pkt blk mem) := by
  intro outcome returns
  obtain ⟨answers, -⟩ := satisfyRead_needs returns
  have length := length_contents mem.store pkt.req.paddr answers.whole
  rw [← packet.size] at length
  have copied := Packet.setData_eq length
  have tracked : (if pkt.cmd.isLLSC then blk.trackLoadLocked pkt.req else blk).data = blk.data := by
    split_ifs <;> rfl
  rw [satisfyRead, answers.sendFunctional] at returns
  simp only [Option.bind_eq_bind, Option.bind_some, ← packet.size, copied] at returns
  have data : ({ pkt with data := contents mem.store pkt.req pkt.req.paddr pkt.size } : Packet).data =
      contents mem.store pkt.req pkt.addr pkt.size := by rw [packet.addr]
  split at returns
  · obtain ⟨shared, kept, rest⟩ := Option.bind_eq_some_iff.mp returns
    obtain rfl := Option.some.inj rest
    obtain ⟨answer, block⟩ := shareBlock_keeps deferred pending shared kept
    exact .read plain answers (answer.trans data) (block.trans tracked)
  · obtain rfl := Option.some.inj returns
    exact .read plain answers data tracked

theorem satisfy_effect (top : params.isTopLevel = true) (packet : pkt.FromCpu params line pattern)
    (ref : BlkRef) (deferred pending : Bool) :
    Post (satisfyCpuSideRequest params AbstractMemory.memSide pkt ref blk deferred pending mem)
      fun outcome => Effect params pkt blk mem outcome ∧
        pkt.getOffset params.blkSize + pkt.size ≤ params.blkSize := by
  refine Post.guard fun ⟨_, _, inside⟩ => ?_
  have within {outcome : Option (Packet × CacheBlk × AbstractMemory)}
      (effect : Post outcome (Effect params pkt blk mem)) :
      Post outcome fun outcome => Effect params pkt blk mem outcome ∧
        pkt.getOffset params.blkSize + pkt.size ≤ params.blkSize :=
    fun result returned => ⟨effect result returned, inside⟩
  refine Post.ite (fun swap => ?_) fun noSwap => ?_
  · have writes : pkt.cmd.isWrite = true := by rw [swap]; rfl
    exact Post.bind (cmpAndSwap_effect (packet.operand writes) swap) fun _ effect =>
      Post.of_some ⟨effect, inside⟩
  · refine Post.ite (fun writes => ?_) fun noWrite => Post.ite (fun _ => ?_) fun noRead => ?_
    · rw [Bool.and_eq_true] at writes
      exact within (satisfyWrite_effect packet writes.1 noSwap)
    · have plain : pkt.cmd.isWrite = false := by
        simpa [top] using noWrite
      exact within (satisfyRead_effect packet plain deferred pending)
    · have plain : pkt.cmd.isWrite = false := by
        simpa [top] using noWrite
      exact absurd packet.command (by simp [noRead, plain])

end Effects

end Cache

def ServedRequest.WritesThrough (line : Addr) (served : ServedRequest) : Prop :=
  ∀ index, served.after.data index ≠ served.before.data index →
    served.memory.store (line.toNat + index) = served.after.data index

def ServedRequest.ReadsBlock (params : CacheParams) (served : ServedRequest) : Prop :=
  served.pkt.cmd.isWrite = false →
    served.answered.data = Cache.foundIn params served.pkt served.before

/-- No swap that stores its operand, unless that is the value it finds. -/
def ServedRequest.KeepsValue (params : CacheParams) (served : ServedRequest) : Prop :=
  served.pkt.cmd = .SwapReq →
    swapOverwrites served.pkt (Cache.foundIn params served.pkt served.before) = some true →
    served.pkt.data = Cache.foundIn params served.pkt served.before

def CacheBlk.Agrees (params : CacheParams) (line : Addr) (blk : CacheBlk) (mem : AbstractMemory) :
    Prop :=
  ∀ index < params.blkSize, blk.data index = mem.store (line.toNat + index)

namespace Cache

section Runs

variable {params : CacheParams} {line pattern : Addr} {pkt answered : Packet} {blk after : CacheBlk}
  {mem below : AbstractMemory}

theorem fromCpu_place (packet : pkt.FromCpu params line pattern) :
    line.toNat + pkt.getOffset params.blkSize = pkt.addr.toNat := by
  have offset : pkt.getOffset params.blkSize = pkt.addr.toNat % params.blkSize :=
    pkt.getOffset_eq (Nat.lt_trans params.blkBound (by decide))
  rw [← packet.aligned, params.toNat_blockAlign, offset]
  exact Nat.div_add_mod' _ _

theorem fromCpu_pattern (packet : pkt.FromCpu params line pattern)
    (writes : pkt.cmd.isWrite = true) : pattern = 0 := by
  rw [← packet.gathers, Request.getGatherPattern, packet.plain writes]
  rfl

theorem unchanged_of_found (same : pkt.data = foundIn params pkt blk) :
    ByteStore.write blk.data (pkt.getOffset params.blkSize) pkt.data = blk.data := by
  apply ByteStore.write_unchanged
  intro index bound
  simp only [same, foundIn, ByteStore.getElem_read]

theorem found_of_swapped
    (inside : pkt.getOffset params.blkSize + pkt.size ≤ params.blkSize)
    (length : pkt.data.length = pkt.size) (agrees : blk.Agrees params line mem)
    (through : ∀ index, ByteStore.write blk.data (pkt.getOffset params.blkSize) pkt.data index ≠
      blk.data index → mem.store (line.toNat + index) =
        ByteStore.write blk.data (pkt.getOffset params.blkSize) pkt.data index) :
    pkt.data = foundIn params pkt blk := by
  apply List.ext_getElem
  · rw [foundIn, ByteStore.length_read, length]
  · intro index bound _
    have new := ByteStore.write_inside blk.data (pkt.getOffset params.blkSize) bound
    have old := agrees (pkt.getOffset params.blkSize + index) (by omega)
    simp only [foundIn, ByteStore.getElem_read]
    by_contra changed
    have stored := through (pkt.getOffset params.blkSize + index) (by rw [new]; exact changed)
    rw [new, ← old] at stored
    exact changed stored.symm

theorem Effect.writesThrough_iff (packet : pkt.FromCpu params line pattern)
    (inside : pkt.getOffset params.blkSize + pkt.size ≤ params.blkSize)
    (agrees : pattern = 0 → blk.Agrees params line mem)
    (effect : Effect params pkt blk mem (answered, after, below)) :
    ServedRequest.WritesThrough line ⟨pkt, answered, blk, after, below⟩ ↔
      ServedRequest.KeepsValue params ⟨pkt, answered, blk, after, below⟩ := by
  cases effect with
  | read plain _ _ same =>
      refine iff_of_true (fun index changed => absurd (congrFun same index) changed) fun swap => ?_
      rw [show pkt.cmd = .SwapReq from swap] at plain
      cases plain
  | refused _ refuses same =>
      refine iff_of_true (fun index changed => absurd (congrFun same index) changed) ?_
      intro swap overwrites
      rw [refuses swap] at overwrites
      cases overwrites
  | written _ noSwap stored =>
      refine iff_of_true (fun index changed => ?_) fun swap => absurd swap noSwap
      simp only [stored] at changed ⊢
      rw [← fromCpu_place packet]
      symm
      apply ByteStore.write_shift
      rintro (before | later)
      · exact absurd (ByteStore.write_before blk.data pkt.data before) changed
      · exact absurd (ByteStore.write_after blk.data later) changed
  | swapped swap overwrites stored =>
      have writes : pkt.cmd.isWrite = true := by rw [swap]; rfl
      constructor
      · intro through _ _
        apply found_of_swapped inside (packet.operand writes)
          (agrees (fromCpu_pattern packet writes))
        simpa only [ServedRequest.WritesThrough, stored] using through
      · intro keeps index changed
        have same := unchanged_of_found (keeps swap overwrites)
        exact absurd (congrFun (stored.trans same) index) changed

theorem Effect.agrees_after (packet : pkt.FromCpu params line pattern)
    (agrees : pattern = 0 → blk.Agrees params line mem)
    (effect : Effect params pkt blk mem (answered, after, below))
    (keeps : ServedRequest.KeepsValue params ⟨pkt, answered, blk, after, below⟩) :
    pattern = 0 → after.Agrees params line below := by
  intro zero index bound
  have old := agrees zero index bound
  cases effect with
  | read _ _ _ same => rw [same, old]
  | refused _ _ same => rw [same, old]
  | written _ _ stored =>
      rw [stored, ← fromCpu_place packet]
      exact ByteStore.write_shift fun _ => old
  | swapped swap overwrites stored =>
      rw [stored, unchanged_of_found (keeps swap overwrites), old]

theorem Effect.readsBlock (packet : pkt.FromCpu params line pattern)
    (inside : pkt.getOffset params.blkSize + pkt.size ≤ params.blkSize)
    (zero : pattern = 0) (agrees : blk.Agrees params line mem)
    (effect : Effect params pkt blk mem (answered, after, below)) :
    ServedRequest.ReadsBlock params ⟨pkt, answered, blk, after, below⟩ := by
  intro noWrite
  change answered.data = foundIn params pkt blk
  cases effect with
  | read _ answers data _ =>
      have place := fromCpu_place packet
      have whole : pkt.req.isGather = true → 8 ∣ pkt.size := packet.size ▸ answers.whole
      have last := params.blockAlign_bound pkt.addr
      rw [packet.aligned] at last
      have bound : pkt.addr.toNat + pkt.size ≤ 2 ^ 64 := by omega
      refine data.trans ?_
      rw [contents_plain mem.store (packet.gathers.trans zero) whole bound, foundIn, ← place]
      apply List.map_congr_left
      intro index member
      have below := List.mem_range.mp member
      rw [agrees _ (by omega), Nat.add_assoc]
  | refused writes => exact absurd (noWrite.symm.trans writes) Bool.false_ne_true
  | written writes => exact absurd (noWrite.symm.trans writes) Bool.false_ne_true
  | swapped swap =>
      rw [show pkt.cmd = .SwapReq from swap] at noWrite
      cases noWrite

/-- In every sequence of requests each change of the block reaches the memory before the
next request, and the reads of a plain line see it, exactly if no swap stores a value other
than the one it finds. -/
theorem writeThrough_iff (top : params.isTopLevel = true) (ref : BlkRef) (requests : List CpuRequest)
    (packets : ∀ request ∈ requests, request.pkt.FromCpu params line pattern)
    (agrees : pattern = 0 → blk.Agrees params line mem) {served : List ServedRequest}
    (runs : serveAll params ref requests blk mem = some served) :
    ((∀ request ∈ served, request.WritesThrough line) ∧
      (pattern = 0 → ∀ request ∈ served, request.ReadsBlock params)) ↔
      ∀ request ∈ served, request.KeepsValue params := by
  induction requests generalizing blk mem served with
  | nil =>
      obtain rfl := Option.some.inj runs
      simp
  | cons request rest ih =>
      obtain ⟨packet, packets⟩ := List.forall_mem_cons.mp packets
      obtain ⟨⟨answered, after, below⟩, step, remainder⟩ := Option.bind_eq_some_iff.mp runs
      obtain ⟨later, laterRuns, joined⟩ := Option.bind_eq_some_iff.mp remainder
      obtain rfl := Option.some.inj joined
      obtain ⟨effect, inside⟩ := satisfy_effect top packet ref _ _ _ step
      have now := effect.writesThrough_iff packet inside agrees
      have next := fun keeps => ih packets (effect.agrees_after packet agrees keeps) laterRuns
      simp only [List.forall_mem_cons]
      constructor
      · rintro ⟨⟨through, laterThrough⟩, reads⟩
        have keeps := now.mp through
        exact ⟨keeps, (next keeps).mp ⟨laterThrough, fun zero => (reads zero).2⟩⟩
      · rintro ⟨keeps, laterKeeps⟩
        obtain ⟨laterThrough, laterReads⟩ := (next keeps).mpr laterKeeps
        exact ⟨⟨now.mpr keeps, laterThrough⟩, fun zero =>
          ⟨effect.readsBlock packet inside zero (agrees zero), laterReads zero⟩⟩

end Runs

def zeroBlock : CacheBlk :=
  { CacheBlk.empty 0 0 with isValid := true, writable := true, readable := true }

def plainRequest (pkt : Packet) : CpuRequest := ⟨pkt, false, false⟩

def sampleWrite : Packet := Packet.createWrite (qword 0) [1, 2, 3, 4, 5, 6, 7, 8]

def sampleSwap : Packet :=
  Packet.createWrite { qword 0 with flags := Request.MEM_SWAP } [1, 2, 3, 4, 5, 6, 7, 8]

def sampleRead : Packet := Packet.createRead (qword 0)

theorem writeThrough_iff_write : ∃ served,
    serveAll singleBlock (.way 0 0) [plainRequest sampleWrite, plainRequest sampleRead] zeroBlock
      page = some served ∧ ∀ request ∈ served, request.WritesThrough 0 := by
  have commands : (serveAll singleBlock (.way 0 0) [plainRequest sampleWrite,
      plainRequest sampleRead] zeroBlock page).map (List.map fun request => request.pkt.cmd) =
      some [.WriteReq, .ReadReq] := by
    decide
  obtain ⟨served, runs, same⟩ := Option.map_eq_some_iff.mp commands
  have packets : ∀ request ∈ [plainRequest sampleWrite, plainRequest sampleRead],
      request.pkt.FromCpu singleBlock 0 0 := by
    intro request member
    rcases List.mem_pair.mp member with rfl | rfl <;> constructor <;> decide
  refine ⟨served, runs, ((writeThrough_iff rfl (.way 0 0) _ packets (fun _ _ _ => rfl) runs).mpr ?_).1⟩
  intro request member swap
  have listed : request.pkt.cmd ∈ [MemCmd.WriteReq, .ReadReq] :=
    same ▸ List.mem_map_of_mem member
  rw [swap] at listed
  exact absurd listed (by decide)

/-- A swap stores its operand in the block; the next read does not see it. -/
theorem writeThrough_fails :
    (serveAll singleBlock (.way 0 0) [plainRequest sampleSwap, plainRequest sampleRead] zeroBlock
      page).map (List.map fun request => (request.answered.data,
        foundIn singleBlock sampleRead request.after)) =
      some [([0, 0, 0, 0, 0, 0, 0, 0], [1, 2, 3, 4, 5, 6, 7, 8]),
        ([0, 0, 0, 0, 0, 0, 0, 0], [1, 2, 3, 4, 5, 6, 7, 8])] := by
  decide

end Cache

end LlvmGather
