import LlvmGather.Gather.Tile
import LlvmGather.Gather.Transparency

/-!
What a read hit returns. The data comes from a temporary packet made of the request, so it
is the packet's own only when packet and request begin together; a cache above asks for a
whole block with the request of the CPU, which is smaller.
-/

namespace LlvmGather

open Cache

section Contents

variable {req : Request}

theorem take_contents (store : Nat → Byte) (addr : Addr) {size total : Nat}
    (within : size ≤ total) (whole : req.isGather = true → 8 ∣ size) :
    (contents store req addr total).take size = contents store req addr size := by
  by_cases gather : req.isGather = true
  · obtain ⟨slots, rfl⟩ := whole gather
    obtain ⟨more, total⟩ := Nat.exists_eq_add_of_le (show slots ≤ total / 8 by omega)
    have own := length_contents store addr fun _ : req.isGather = true => Nat.dvd_mul_right 8 slots
    rw [contents, if_pos gather, Nat.mul_div_cancel_left _ (by decide)] at own
    rw [contents, contents, if_pos gather, if_pos gather, Nat.mul_div_cancel_left _ (by decide),
      total, List.range_add, List.map_append, List.flatten_append, List.take_append_of_le_length own.ge,
      List.take_of_length_le own.le]
  · rw [contents, contents, if_neg gather, if_neg gather, ByteStore.take_read store _ within]

theorem head_contents (store : Nat → Byte) (addr : Addr) {size : Nat} (nonempty : 0 < size)
    (whole : req.isGather = true → 8 ∣ size) :
    (contents store req addr size).head? =
      some (store (exchange req.getGatherPattern addr).toNat) := by
  by_cases gather : req.isGather = true
  · obtain ⟨slots, rfl⟩ := whole gather
    obtain ⟨rest, rfl⟩ := Nat.exists_eq_succ_of_ne_zero (show slots ≠ 0 by omega)
    rw [contents, if_pos gather, Nat.mul_div_cancel_left _ (by decide), List.range_succ_eq_map]
    simp [ByteStore.read, List.range_succ_eq_map]
  · have plain : req.getGatherPattern = 0 := by simp [Request.getGatherPattern, gather]
    obtain ⟨rest, rfl⟩ := Nat.exists_eq_succ_of_ne_zero (Nat.ne_of_gt nonempty)
    rw [contents, if_neg gather, plain, exchange_zero, ByteStore.read, List.range_succ_eq_map]
    simp

theorem contents_agree_iff {first second : Addr} {size : Nat}
    (whole : req.isGather = true → 8 ∣ size) :
    (∀ store, contents store req first size = contents store req second size) ↔
      size = 0 ∨ second = first := by
  constructor
  · intro agree
    by_contra different
    rw [not_or] at different
    obtain ⟨nonempty, apart⟩ := different
    let store : Nat → Byte := fun index =>
      if index = (exchange req.getGatherPattern second).toNat then 1 else 0
    have heads := congrArg List.head? (agree store)
    rw [head_contents store first (Nat.pos_of_ne_zero nonempty) whole,
      head_contents store second (Nat.pos_of_ne_zero nonempty) whole] at heads
    have elsewhere : (exchange req.getGatherPattern first).toNat ≠
        (exchange req.getGatherPattern second).toNat := by
      intro equal
      rw [BitVec.toNat_inj, ← gatherSource_eq_exchange, ← gatherSource_eq_exchange] at equal
      exact apart ((gatherSource_involutive _).injective equal).symm
    simp [store, elsewhere] at heads
  · rintro (rfl | rfl) store
    · simp [contents, ByteStore.read]
    · rfl

end Contents

structure Hit (params : CacheParams) (store : Nat → Byte) (pkt : Packet) (blk : CacheBlk) :
    Prop where
  valid : blk.isValid = true
  tag : blk.tag = params.extractTag pkt.getCacheAddr
  set : blk.set = params.extractSet pkt.getCacheAddr
  space : blk.isSecure = pkt.isSecure
  agrees : ∀ index byte,
    (contents store pkt.req (params.blockAlign pkt.addr) params.blkSize)[index]? = some byte →
      blk.data index = byte

theorem exists_hit (params : CacheParams) (store : Nat → Byte) (pkt : Packet) :
    ∃ blk, Hit params store pkt blk := by
  refine ⟨{ CacheBlk.empty 0 0 with
    isValid := true
    tag := params.extractTag pkt.getCacheAddr
    set := params.extractSet pkt.getCacheAddr
    isSecure := pkt.isSecure
    data := fun index =>
      (contents store pkt.req (params.blockAlign pkt.addr) params.blkSize).getD index 0 },
    rfl, rfl, rfl, rfl, ?_⟩
  intro index byte here
  simp [here]

section ReadHit

variable {params : CacheParams} {mem : AbstractMemory} {pkt : Packet} {ref : BlkRef}
  {blk : CacheBlk} {deferred pending : Bool}

theorem shareBlock_data (params : CacheParams) (blk : CacheBlk) (deferred pending : Bool)
    (request : pkt.cmd.isRequest = true) (unclaimed : pkt.memInhibitAsserted = false) :
    ∃ answered kept, shareBlock params pkt blk deferred pending = some (answered, kept) ∧
      answered.data = pkt.data := by
  have claimed : pkt.assertMemInhibit = some { pkt with memInhibitAsserted := true } := by
    simp [Packet.assertMemInhibit, request, unclaimed]
  rw [shareBlock, claimed]
  split_ifs <;> exact ⟨_, _, rfl, rfl⟩

theorem satisfyRead_data (params : CacheParams) (blk : CacheBlk) (deferred pending : Bool)
    (request : pkt.cmd.isRequest = true) (unclaimed : pkt.memInhibitAsserted = false) (answers : mem.Answers pkt.req)
    (within : pkt.size ≤ pkt.req.size) :
    ∃ answered kept,
      satisfyRead params AbstractMemory.memSide pkt blk deferred pending mem =
        some (answered, kept, mem) ∧
      answered.data = (contents mem.store pkt.req pkt.req.paddr pkt.req.size).take pkt.size := by
  have length := length_contents mem.store pkt.req.paddr answers.whole
  have copied : pkt.setData (contents mem.store pkt.req pkt.req.paddr pkt.req.size) = some { pkt with
      data := (contents mem.store pkt.req pkt.req.paddr pkt.req.size).take pkt.size } := by
    rw [Packet.setData, length, if_pos within]
  simp only [satisfyRead, answers.sendFunctional, Option.bind_eq_bind, Option.bind_some, copied]
  by_cases block : pkt.size = params.blkSize
  · rw [if_pos block]
    generalize (contents mem.store pkt.req pkt.req.paddr pkt.req.size).take pkt.size = data
    generalize (if pkt.cmd.isLLSC = true then blk.trackLoadLocked pkt.req else blk) = tracked
    have filled : ∃ answered kept, shareBlock params { pkt with data } tracked deferred pending =
        some (answered, kept) ∧ answered.data = data :=
      shareBlock_data params tracked deferred pending request unclaimed
    obtain ⟨answered, kept, shared, same⟩ := filled
    rw [shared]
    exact ⟨answered, kept, rfl, same⟩
  · rw [if_neg block]
    exact ⟨_, _, rfl, rfl⟩

theorem satisfyRead_needs {outcome : Packet × CacheBlk × AbstractMemory}
    (returns : satisfyRead params AbstractMemory.memSide pkt blk deferred pending mem =
      some outcome) :
    mem.Answers pkt.req ∧ pkt.size ≤ pkt.req.size := by
  obtain ⟨sent, reached, rest⟩ := Option.bind_eq_some_iff.mp returns
  have answers : mem.Answers pkt.req :=
    AbstractMemory.readable_of_functionalAccess rfl (Option.isSome_of_eq_some reached)
  rw [answers.sendFunctional] at reached
  cases reached
  obtain ⟨filled, copied, -⟩ := Option.bind_eq_some_iff.mp rest
  refine ⟨answers, ?_⟩
  by_contra longer
  rw [Packet.setData, length_contents mem.store pkt.req.paddr answers.whole, if_neg longer] at copied
  cases copied

theorem satisfy_eq_read (valid : blk.isValid = true) (request : pkt.cmd.isRequest = true)
    (read : pkt.cmd.isRead = true) (noWrite : pkt.cmd.isWrite = false)
    (inLine : pkt.getOffset params.blkSize + pkt.size ≤ params.blkSize) :
    satisfyCpuSideRequest params AbstractMemory.memSide pkt ref blk deferred pending mem =
      satisfyRead params AbstractMemory.memSide pkt blk deferred pending mem := by
  have noSwap : pkt.cmd ≠ .SwapReq := by
    intro swap
    rw [swap] at noWrite
    cases noWrite
  simp [satisfyCpuSideRequest, valid, request, read, noWrite, inLine, noSwap]

theorem getBusPacket_extent {cpuPkt : Packet} {found : Option CacheBlk} {exclusive : Bool}
    (returns : getBusPacket params cpuPkt found exclusive = some (some pkt)) :
    pkt.addr = params.blockAlign pkt.req.paddr ∧ pkt.size = params.blkSize := by
  rw [getBusPacket] at returns
  split at returns
  · cases returns
  · split at returns
    · cases returns
    · obtain ⟨_, _, rest⟩ := Option.bind_eq_some_iff.mp returns
      obtain ⟨_, _, made⟩ := Option.bind_eq_some_iff.mp rest
      cases made
      exact ⟨rfl, rfl⟩

theorem blockAlign_eq_self_iff (params : CacheParams) (addr : Addr) :
    params.blockAlign addr = addr ↔ params.blkSize ∣ addr.toNat := by
  rw [← BitVec.toNat_inj, params.toNat_blockAlign]
  exact ⟨Dvd.intro_left _, Nat.div_mul_cancel⟩

/-- Over all memories with which a hit may be in agreement, the packet gets its own bytes just
when it begins where its request begins and is no longer. What a cache above sends for a miss
is of that kind only if the CPU asked for the whole block. -/
theorem readHit_own_bytes_iff (params : CacheParams) (mem : AbstractMemory) (pkt : Packet)
    (ref : BlkRef) (deferred pending : Bool) (request : pkt.cmd.isRequest = true)
    (read : pkt.cmd.isRead = true) (noWrite : pkt.cmd.isWrite = false)
    (unclaimed : pkt.memInhibitAsserted = false)
    (inLine : pkt.getOffset params.blkSize + pkt.size ≤ params.blkSize)
    (whole : pkt.req.isGather = true → 8 ∣ pkt.size) :
    ((∀ store blk, Hit params store pkt blk → ∃ answered kept after,
      satisfyCpuSideRequest params AbstractMemory.memSide pkt ref blk deferred pending
        { mem with store } = some (answered, kept, after) ∧
      answered.data = contents store pkt.req pkt.addr pkt.size) ↔
    mem.Answers pkt.req ∧ pkt.size ≤ pkt.req.size ∧
      (pkt.size = 0 ∨ pkt.addr = pkt.req.paddr)) ∧
    ∀ upper cpuPkt found exclusive, getBusPacket upper cpuPkt found exclusive = some (some pkt) →
      (pkt.size ≤ pkt.req.size ∧ (pkt.size = 0 ∨ pkt.addr = pkt.req.paddr) ↔
        upper.blkSize ≤ pkt.req.size ∧ upper.blkSize ∣ pkt.req.paddr.toNat) := by
  refine ⟨⟨?_, ?_⟩, fun upper cpuPkt found exclusive made => ?_⟩
  · intro own
    have outcome : ∀ store : Nat → Byte, mem.Answers pkt.req ∧ pkt.size ≤ pkt.req.size ∧
        (contents store pkt.req pkt.req.paddr pkt.req.size).take pkt.size =
          contents store pkt.req pkt.addr pkt.size := by
      intro store
      obtain ⟨blk, hit⟩ := exists_hit params store pkt
      obtain ⟨answered, kept, after, returns, data⟩ := own store blk hit
      rw [satisfy_eq_read hit.valid request read noWrite inLine] at returns
      obtain ⟨answers, within⟩ := satisfyRead_needs returns
      obtain ⟨_, _, served, fromRequest⟩ :=
        satisfyRead_data params blk deferred pending request unclaimed answers within
      rw [returns] at served
      cases served
      exact ⟨answers, within, fromRequest.symm.trans data⟩
    obtain ⟨answers, within, -⟩ := outcome mem.store
    refine ⟨answers, within, (contents_agree_iff whole).mp fun store => ?_⟩
    rw [← take_contents store _ within whole]
    exact (outcome store).2.2
  · rintro ⟨answers, within, place⟩ store blk hit
    have answersToo : AbstractMemory.Answers { mem with store } pkt.req := answers
    obtain ⟨answered, kept, returns, data⟩ :=
      satisfyRead_data params blk deferred pending request unclaimed answersToo within
    refine ⟨answered, kept, { mem with store }, ?_, ?_⟩
    · rw [satisfy_eq_read hit.valid request read noWrite inLine]
      exact returns
    · rw [data, take_contents store _ within whole]
      exact (contents_agree_iff whole).mpr place store
  · obtain ⟨addr, size⟩ := getBusPacket_extent made
    have nonempty : upper.blkSize ≠ 0 := Nat.ne_of_gt upper.blkSize_pos
    rw [addr, size, blockAlign_eq_self_iff, or_iff_right nonempty]

def lowerBlock : CacheParams := { singleBlock with isTopLevel := false }

theorem answers_sampleTile : sampleTile.Answers (Request.ofPhys 0x40 64 0) := by
  unfold AbstractMemory.Answers AbstractMemory.Readable
  decide

theorem readHit_own_bytes_iff_sampleTile : ∃ blk answered kept after,
    satisfyCpuSideRequest lowerBlock AbstractMemory.memSide
        (Packet.createRead (Request.ofPhys 0x40 64 0)) (.way 0 0) blk false false sampleTile =
      some (answered, kept, after) ∧
    answered.data = contents sampleTile.store (Request.ofPhys 0x40 64 0) 0x40 64 := by
  let pkt := Packet.createRead (Request.ofPhys 0x40 64 0)
  obtain ⟨blk, hit⟩ := exists_hit lowerBlock sampleTile.store pkt
  obtain ⟨own, -⟩ := readHit_own_bytes_iff lowerBlock sampleTile pkt (.way 0 0) false false
    (by decide) (by decide) (by decide) (by decide) (by decide) (by decide)
  exact ⟨blk, own.mpr ⟨answers_sampleTile, by decide, by decide⟩ sampleTile.store blk hit⟩

/-- For a miss on one qword the cache above asks for its line; the temporary packet below has
eight bytes, and sixty-four are copied from it. -/
theorem readHit_overruns : ∃ bus blk,
    getBusPacket singleBlock (Packet.createRead (qword 0x48)) none false = some (some bus) ∧
    Hit lowerBlock sampleTile.store bus blk ∧
    satisfyCpuSideRequest lowerBlock AbstractMemory.memSide bus (.way 0 0) blk false false
      sampleTile = none := by
  let bus := (Packet.newBlock (qword 0x48) .ReadReq 64).allocate
  obtain ⟨blk, hit⟩ := exists_hit lowerBlock sampleTile.store bus
  refine ⟨bus, blk, by decide, hit, ?_⟩
  rw [satisfy_eq_read hit.valid (by decide) (by decide) (by decide) (by decide),
    Option.eq_none_iff_forall_ne_some]
  intro outcome returns
  exact absurd (satisfyRead_needs returns).2 (by decide)

end ReadHit

end LlvmGather
