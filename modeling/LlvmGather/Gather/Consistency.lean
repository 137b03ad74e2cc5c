import LlvmGather.Gather.Atomic

/-!
What holds of the blocks of a top-level cache between two accesses. Memory is never
behind: writes go through to it, so every block of plain addresses agrees with it, and
writing such a block back changes nothing. Gather lines may be stale, but no read is
served from them and they are never dirty.
-/

namespace LlvmGather

open Cache

/-- What a request must satisfy to be an ordinary access of one CPU to cacheable memory. -/
structure Request.Ordinary (params : CacheParams) (mem : AbstractMemory) (secure : Bool)
    (req : Request) : Prop where
  cacheable : req.isUncacheable = false
  notLocked : req.isLLSC = false
  notSwap : req.isSwap = false
  notPrefetch : req.isPrefetch = false
  space : req.isSecure = secure
  physical : req.paddr.toNat < 2 ^ 61
  nonempty : 0 < req.size
  oneBlock : req.paddr.toNat % params.blkSize + req.size ≤ params.blkSize
  backed : mem.backs req.paddr req.size = true

structure Request.Aligned (req : Request) : Prop where
  addr : 8 ∣ req.paddr.toNat
  size : 8 ∣ req.size
  pattern : req.gatherPattern.toNat < 8

def CpuAccess.req : CpuAccess → Request
  | .read req => req
  | .write req _ => req

/-- Plain reads and writes and gather reads, each inside one block. -/
def CpuAccess.Admissible (params : CacheParams) (mem : AbstractMemory) (secure : Bool) :
    CpuAccess → Prop
  | .read req => req.Ordinary params mem secure ∧ (req.isGather = true → req.Aligned)
  | .write req data =>
      req.Ordinary params mem secure ∧ req.isGather = false ∧ data.length = req.size

structure BlockOk (params : CacheParams) (secure : Bool) (mem : AbstractMemory)
    (blk : CacheBlk) : Prop where
  held : blk.isValid = true →
    ∃ addr, blk.tag = params.extractTag addr ∧ blk.set = params.extractSet addr
  settled : blk.isValid = true →
    blk.writable = true ∧ blk.readable = true ∧ blk.isSecure = secure
  cleared : blk.isValid = false → blk.isSecure = false
  clean : blk.isDirty = true → blk.isValid = true ∧ patternBits (params.blkAddr blk) = 0
  agrees : blk.isValid = true → patternBits (params.blkAddr blk) = 0 →
    mem.backs (params.blkAddr blk) params.blkSize = true ∧
      ∀ index < params.blkSize,
        blk.data index = mem.store ((params.blkAddr blk).toNat + index)

structure Consistent (params : CacheParams) (secure : Bool) (mem : AbstractMemory)
    (blocks : Blocks) : Prop where
  placed : ∀ set way, (blocks.ways set way).set = set
  inside : ∀ set way, (blocks.ways set way).isValid = true → way < params.assoc
  unique : ∀ set first second, (blocks.ways set first).isValid = true →
    (blocks.ways set second).isValid = true →
    (blocks.ways set first).tag = (blocks.ways set second).tag → first = second
  ok : ∀ set way, BlockOk params secure mem (blocks.ways set way)

section

variable {params : CacheParams} {secure : Bool} {mem : AbstractMemory}

theorem BlockOk.empty (set way : Nat) : BlockOk params secure mem (CacheBlk.empty set way) where
  held valid := by simp [CacheBlk.empty] at valid
  settled valid := by simp [CacheBlk.empty] at valid
  cleared _ := rfl
  clean dirty := by simp [CacheBlk.empty] at dirty
  agrees valid := by simp [CacheBlk.empty] at valid

theorem Consistent.empty : Consistent params secure mem Blocks.empty where
  placed _ _ := rfl
  inside _ _ valid := by simp [Blocks.empty, CacheBlk.empty] at valid
  unique _ _ _ valid := by simp [Blocks.empty, CacheBlk.empty] at valid
  ok := BlockOk.empty

theorem BlockOk.locks {blk : CacheBlk} (ok : BlockOk params secure mem blk)
    (locks : List LockedAddr) :
    BlockOk params secure { mem with lockedAddrList := locks } blk :=
  ⟨ok.held, ok.settled, ok.cleared, ok.clean, ok.agrees⟩

theorem BlockOk.write_other {blk : CacheBlk} (ok : BlockOk params secure mem blk)
    {addr : Addr} {data : List Byte}
    (inLine : addr.toNat % params.blkSize + data.length ≤ params.blkSize)
    (other : params.blkAddr blk ≠ params.blockAlign addr) :
    BlockOk params secure { mem with store := ByteStore.write mem.store addr.toNat data } blk := by
  refine ⟨ok.held, ok.settled, ok.cleared, ok.clean, ?_⟩
  intro valid plain
  obtain ⟨backed, same⟩ := ok.agrees valid plain
  refine ⟨backed, fun index bound => ?_⟩
  obtain ⟨home, tag, set⟩ := ok.held valid
  have line : params.blkAddr blk = params.blockAlign home := params.blkAddr_eq tag set
  have apart : home.toNat / params.blkSize ≠ addr.toNat / params.blkSize := by
    intro equal
    apply other
    rw [line, ← BitVec.toNat_inj, params.toNat_blockAlign, params.toNat_blockAlign, equal]
  have offset := Nat.div_add_mod' addr.toNat params.blkSize
  rw [same index bound, line, params.toNat_blockAlign]
  rcases Nat.lt_or_gt_of_ne apart with before | after
  · have room := Nat.mul_le_mul_right params.blkSize (show _ + 1 ≤ _ from before)
    rw [Nat.add_mul] at room
    exact (ByteStore.write_before _ _ (by omega)).symm
  · have room := Nat.mul_le_mul_right params.blkSize (show _ + 1 ≤ _ from after)
    rw [Nat.add_mul] at room
    exact (ByteStore.write_after _ (by omega)).symm

@[simps]
def issued (req : Request) (cmd : MemCmd) (data : List Byte) : Packet where
  cmd := cmd
  req := req
  addr := req.paddr
  size := req.size
  isSecure := req.isSecure
  data := data
  sharedAsserted := false
  isSupplyExclusive := false
  memInhibitAsserted := false
  senderState := none

variable {req : Request}

def Request.cacheAddr (req : Request) : Addr :=
  req.paddr ||| (req.getGatherPattern <<< GATHER_PATTERN_SHIFT)

theorem getOffset_issued (params : CacheParams) (req : Request) (cmd : MemCmd) (data : List Byte) :
    (issued req cmd data).getOffset params.blkSize = req.paddr.toNat % params.blkSize :=
  Packet.getOffset_eq (issued req cmd data) (Nat.lt_trans params.blkBound (by decide))

theorem shareBlock_topLevel (top : params.isTopLevel = true) (pkt : Packet) (blk : CacheBlk)
    (deferred pending : Bool) (nonexclusive : pkt.cmd.needsExclusive = false) :
    ∃ shared, shareBlock params pkt blk deferred pending =
      some ({ pkt with sharedAsserted := shared }, blk) := by
  simp only [shareBlock, nonexclusive, Bool.false_eq_true, if_false, top, Bool.not_true,
    Bool.and_false]
  split_ifs with exclusive dirty
  · exact ⟨true, rfl⟩
  · exact ⟨pkt.sharedAsserted, rfl⟩
  · exact ⟨true, rfl⟩

theorem satisfy_read (top : params.isTopLevel = true) (tiled : mem.Tiled)
    (ordinary : req.Ordinary params mem secure) (aligned : req.isGather = true → req.Aligned)
    (data : List Byte) (ref : BlkRef) {blk : CacheBlk} (valid : blk.isValid = true) :
    ∃ shared, satisfyCpuSideRequest params AbstractMemory.memSide (issued req .ReadReq data) ref blk
        false false mem =
      some ({ issued req .ReadReq (contents mem.store req req.paddr req.size) with
        sharedAsserted := shared }, blk, mem) := by
  have fits := ordinary.oneBlock
  have offset : (issued req .ReadReq data).getOffset params.blkSize =
    req.paddr.toNat % params.blkSize := getOffset_issued params req .ReadReq data
  have answers : mem.Answers req :=
    ⟨AbstractMemory.inRange_of_backs ordinary.nonempty ordinary.backed,
      tiled.readable ordinary.backed
        fun gather => ⟨(aligned gather).addr, (aligned gather).size⟩⟩
  have copied : (issued req .ReadReq data).setData (contents mem.store req req.paddr req.size) =
      some (issued req .ReadReq (contents mem.store req req.paddr req.size)) :=
    Packet.setData_eq (length_contents mem.store req.paddr answers.whole)
  have unlocked : MemCmd.isLLSC .ReadReq = false := rfl
  have served : ∃ shared, satisfyRead params AbstractMemory.memSide (issued req .ReadReq data) blk
        false false mem =
      some ({ issued req .ReadReq (contents mem.store req req.paddr req.size) with
        sharedAsserted := shared }, blk, mem) := by
    obtain ⟨shared, kept⟩ := shareBlock_topLevel top
      (issued req .ReadReq (contents mem.store req req.paddr req.size)) blk false false rfl
    simp only [satisfyRead, issued_cmd, issued_req, issued_size, unlocked, answers.sendFunctional,
      Bool.false_eq_true, if_false, Option.bind_eq_bind, Option.bind_some, copied, kept]
    by_cases size : req.size = params.blkSize
    · exact ⟨shared, by rw [if_pos size]; rfl⟩
    · exact ⟨false, by rw [if_neg size]; rfl⟩
  obtain ⟨shared, returns⟩ := served
  refine ⟨shared, ?_⟩
  simp +decide [satisfyCpuSideRequest, valid, offset, fits, returns]

theorem satisfy_write (top : params.isTopLevel = true) (ordinary : req.Ordinary params mem secure)
    {data : List Byte} (length : data.length = req.size) {cmd : MemCmd}
    (write : cmd = .WriteReq ∨ cmd = .WriteInvalidateReq) (ref : BlkRef) {blk : CacheBlk}
    (valid : blk.isValid = true) (writable : blk.writable = true) :
    satisfyCpuSideRequest params AbstractMemory.memSide (issued req cmd data) ref blk
        false false mem =
      some (issued req cmd data,
        { blk.clearLoadLocks req with
          data := ByteStore.write blk.data (req.paddr.toNat % params.blkSize) data
          isDirty := true },
        { mem with store := ByteStore.write mem.store req.paddr.toNat data }) := by
  have fits := ordinary.oneBlock
  have offset := getOffset_issued params req cmd data
  have filled : (Packet.new req .WriteReq).allocate.setData data =
      some { (Packet.new req .WriteReq).allocate with data } :=
    Packet.setData_eq length
  have below : AbstractMemory.memSide.sendFunctional
        { (Packet.new req .WriteReq).allocate with data } mem =
      some ({ (Packet.new req .WriteReq).allocate with cmd := .WriteResp, data },
        { mem with store := ByteStore.write mem.store req.paddr.toNat data }) :=
    AbstractMemory.functionalAccess_write ordinary.nonempty ordinary.backed length rfl
  have through : satisfyWrite params AbstractMemory.memSide (issued req cmd data) blk mem =
      some (issued req cmd data,
        { blk.clearLoadLocks req with
          data := ByteStore.write blk.data (req.paddr.toNat % params.blkSize) data
          isDirty := true },
        { mem with store := ByteStore.write mem.store req.paddr.toNat data }) := by
    have plain : cmd.isLLSC = false := by rcases write with rfl | rfl <;> rfl
    have own : (issued req cmd data).writeData = some data := Packet.writeData_eq length
    simp [satisfyWrite, CacheBlk.checkWrite, CacheBlk.isWritable, CacheBlk.clearLoadLocks,
      Packet.writeDataToBlock, valid, writable, plain, own, offset, filled, below]
  rcases write with rfl | rfl <;>
    simp +decide [satisfyCpuSideRequest, valid, offset, fits, top, through]

variable {blocks : Blocks}

structure Holding (params : CacheParams) (secure : Bool) (addr : Addr) (blk : CacheBlk) : Prop where
  tag : blk.tag = params.extractTag addr
  set : blk.set = params.extractSet addr
  valid : blk.isValid = true
  writable : blk.writable = true
  readable : blk.readable = true
  space : blk.isSecure = secure

theorem Consistent.holding (consistent : Consistent params secure mem blocks) {addr : Addr}
    {way : Nat} (found : params.findBlock blocks.ways addr secure = some way) :
    way < params.assoc ∧
      Holding params secure addr (blocks.ways (params.extractSet addr) way) := by
  obtain ⟨inside, holds⟩ := params.holds_of_findBlock found
  simp only [TagStore.holds, Bool.and_eq_true, decide_eq_true_eq, beq_iff_eq] at holds
  obtain ⟨⟨tag, valid⟩, space⟩ := holds
  obtain ⟨writable, readable, _⟩ := (consistent.ok _ way).settled valid
  exact ⟨inside, tag, consistent.placed _ _, valid, writable, readable, space⟩

def Alone (params : CacheParams) (blocks : Blocks) (addr : Addr) (way : Nat) : Prop :=
  ∀ other, other ≠ way → (blocks.ways (params.extractSet addr) other).isValid = true →
    (blocks.ways (params.extractSet addr) other).tag ≠ params.extractTag addr

theorem Consistent.alone_of_hit (consistent : Consistent params secure mem blocks) {addr : Addr}
    {way : Nat} (holding : Holding params secure addr (blocks.ways (params.extractSet addr) way)) :
    Alone params blocks addr way :=
  fun other different valid tag =>
    different (consistent.unique _ other way valid holding.valid (tag.trans holding.tag.symm))

theorem Consistent.alone_of_miss (consistent : Consistent params secure mem blocks) {addr : Addr}
    (missed : params.findBlock blocks.ways addr secure = none) (way : Nat) :
    Alone params blocks addr way := by
  intro other _ valid tag
  apply params.not_holds_of_findBlock missed (consistent.inside _ other valid)
  simp [TagStore.holds, tag, valid, ((consistent.ok _ other).settled valid).2.2]

theorem Blocks.ways_put (blocks : Blocks) (set way otherSet otherWay : Nat) (blk : CacheBlk) :
    (blocks.put (.way set way) blk).ways otherSet otherWay =
      if otherSet = set ∧ otherWay = way then blk else blocks.ways otherSet otherWay := by
  by_cases same : otherSet = set ∧ otherWay = way
  · obtain ⟨rfl, rfl⟩ := same
    simp [Blocks.put, Ways.put]
  · rw [if_neg same]
    have different : BlkRef.way otherSet otherWay ≠ BlkRef.way set way :=
      fun equal => same (by simpa using equal)
    exact blocks.get_put_ne blk different

theorem Consistent.update {after : AbstractMemory}
    (consistent : Consistent params secure mem blocks) {addr : Addr} {way : Nat}
    (inside : way < params.assoc) (alone : Alone params blocks addr way)
    (others : ∀ set other, ¬ (set = params.extractSet addr ∧ other = way) →
      BlockOk params secure after (blocks.ways set other))
    {blk : CacheBlk} (tag : blk.tag = params.extractTag addr)
    (set : blk.set = params.extractSet addr) (ok : BlockOk params secure after blk) :
    Consistent params secure after (blocks.put (.way (params.extractSet addr) way) blk) where
  placed otherSet other := by
    rw [Blocks.ways_put]
    split_ifs with same
    · rw [set, same.1]
    · exact consistent.placed otherSet other
  inside otherSet other := by
    rw [Blocks.ways_put]
    split_ifs with same
    · exact fun _ => same.2 ▸ inside
    · exact consistent.inside otherSet other
  unique otherSet first second := by
    rw [Blocks.ways_put, Blocks.ways_put]
    split_ifs with isFirst isSecond isSecond
    · exact fun _ _ _ => isFirst.2.trans isSecond.2.symm
    · intro _ valid equal
      obtain ⟨rfl, rfl⟩ := isFirst
      have different : second ≠ first := fun same => isSecond ⟨rfl, same⟩
      exact absurd (equal.symm.trans tag) (alone second different valid)
    · intro valid _ equal
      obtain ⟨rfl, rfl⟩ := isSecond
      have different : first ≠ second := fun same => isFirst ⟨rfl, same⟩
      exact absurd (equal.trans tag) (alone first different valid)
    · exact consistent.unique otherSet first second
  ok otherSet other := by
    rw [Blocks.ways_put]
    split_ifs with same
    · exact ok
    · exact others otherSet other same

theorem Consistent.others_write (consistent : Consistent params secure mem blocks) {addr : Addr}
    {way : Nat} (alone : Alone params blocks addr way) {data : List Byte}
    (inLine : addr.toNat % params.blkSize + data.length ≤ params.blkSize) :
    ∀ set other, ¬ (set = params.extractSet addr ∧ other = way) →
      BlockOk params secure { mem with store := ByteStore.write mem.store addr.toNat data }
        (blocks.ways set other) := by
  intro set other different
  have ok := consistent.ok set other
  cases valid : (blocks.ways set other).isValid with
  | false =>
      have clean : (blocks.ways set other).isDirty ≠ true := fun dirty => by
        have := (ok.clean dirty).1
        simp [valid] at this
      exact ⟨fun isValid => by simp [valid] at isValid, fun isValid => by simp [valid] at isValid,
        ok.cleared, fun dirty => absurd dirty clean, fun isValid => by simp [valid] at isValid⟩
  | true =>
      apply ok.write_other inLine
      intro line
      obtain ⟨home, tag, homeSet⟩ := ok.held valid
      rw [params.blkAddr_eq tag homeSet] at line
      have sameTag : (blocks.ways set other).tag = params.extractTag addr := by
        rw [tag, ← params.extractTag_blockAlign home, line, params.extractTag_blockAlign]
      have sameSet : set = params.extractSet addr := by
        rw [← consistent.placed set other, homeSet, ← params.extractSet_blockAlign home, line,
          params.extractSet_blockAlign]
      subst sameSet
      exact alone other (fun same => different ⟨rfl, same⟩) valid sameTag

theorem Holding.ok_write {blk : CacheBlk} (ordinary : req.Ordinary params mem secure)
    (holding : Holding params secure req.paddr blk)
    (whole : mem.backs (params.blockAlign req.paddr) params.blkSize = true) {data : List Byte}
    (same : ∀ index < params.blkSize,
      index < req.paddr.toNat % params.blkSize ∨
        req.paddr.toNat % params.blkSize + data.length ≤ index →
      blk.data index = mem.store ((params.blockAlign req.paddr).toNat + index)) :
    BlockOk params secure { mem with store := ByteStore.write mem.store req.paddr.toNat data }
      { blk.clearLoadLocks req with
        data := ByteStore.write blk.data (req.paddr.toNat % params.blkSize) data
        isDirty := true } := by
  have line : params.blkAddr { blk.clearLoadLocks req with
        data := ByteStore.write blk.data (req.paddr.toNat % params.blkSize) data
        isDirty := true } = params.blockAlign req.paddr :=
    params.blkAddr_eq holding.tag holding.set
  have plain : patternBits (params.blockAlign req.paddr) = 0 := by
    rw [params.patternBits_blockAlign]
    exact (patternBits_eq_zero_iff _).mpr ordinary.physical
  refine ⟨fun _ => ⟨req.paddr, holding.tag, holding.set⟩,
    fun _ => ⟨holding.writable, holding.readable, holding.space⟩, ?_, ?_, ?_⟩
  · intro invalid
    have valid : blk.isValid = false := invalid
    simp [holding.valid] at valid
  · intro _
    rw [line]
    exact ⟨holding.valid, plain⟩
  · intro _ _
    rw [line]
    refine ⟨whole, fun index bound => ?_⟩
    have start : req.paddr.toNat =
        (params.blockAlign req.paddr).toNat + req.paddr.toNat % params.blkSize := by
      rw [params.toNat_blockAlign, Nat.div_add_mod']
    have shifted := ByteStore.write_shift (same index bound)
    rw [← start] at shifted
    exact shifted

theorem Holding.ok_fill {blk : CacheBlk} {addr : Addr} (holding : Holding params secure addr blk)
    (clean : blk.isDirty = false)
    (agrees : patternBits addr = 0 →
      mem.backs (params.blockAlign addr) params.blkSize = true ∧
        ∀ index < params.blkSize,
          blk.data index = mem.store ((params.blockAlign addr).toNat + index)) :
    BlockOk params secure mem blk where
  held _ := ⟨addr, holding.tag, holding.set⟩
  settled _ := ⟨holding.writable, holding.readable, holding.space⟩
  cleared invalid := by simp [holding.valid] at invalid
  clean dirty := by simp [clean] at dirty
  agrees _ plain := by
    rw [params.blkAddr_eq holding.tag holding.set] at plain ⊢
    exact agrees (by rwa [params.patternBits_blockAlign] at plain)

theorem BlockOk.writeback {blk : CacheBlk} (ok : BlockOk params secure mem blk)
    (dirty : blk.isDirty = true) :
    ∃ locks, mem.access (writebackPacket params blk) =
      some (writebackPacket params blk, { mem with lockedAddrList := locks }) := by
  obtain ⟨valid, plain⟩ := ok.clean dirty
  obtain ⟨backed, same⟩ := ok.agrees valid plain
  have noFetch : (writebackPacket params blk).req.isInstFetch = false := by
    simp only [writebackPacket, Packet.new, Request.ofPhys, Request.isInstFetch]
    cases blk.isSecure <;> decide
  obtain ⟨locks, stored⟩ := AbstractMemory.access_writeback
    (show 0 < (writebackPacket params blk).size from params.blkSize_pos) backed rfl noFetch
    (ByteStore.length_read _ _ _) rfl
  have unchanged : ByteStore.write mem.store (writebackPacket params blk).addr.toNat
      (writebackPacket params blk).data = mem.store := by
    apply ByteStore.write_unchanged
    intro index bound
    have inside : index < params.blkSize := by simpa [writebackPacket] using bound
    have copied : (writebackPacket params blk).data[index] = blk.data index := by
      simp [writebackPacket, ByteStore.getElem_read]
    rw [copied, same index inside]
    rfl
  rw [unchanged] at stored
  exact ⟨locks, stored⟩

inductive Evicts (params : CacheParams) (old : CacheBlk) : List Packet → Prop
  | nothing : Evicts params old []
  | writeback : old.isDirty = true → Evicts params old [writebackPacket params old]

theorem Evicts.sendWritebacks {old : CacheBlk} {evicted : List Packet}
    (evicts : Evicts params old evicted) (ok : BlockOk params secure mem old) :
    ∃ locks, sendWritebacks AbstractMemory.memSide evicted mem =
      some { mem with lockedAddrList := locks } := by
  cases evicts with
  | nothing => exact ⟨mem.lockedAddrList, rfl⟩
  | writeback dirty =>
      obtain ⟨locks, stored⟩ := ok.writeback dirty
      have sent : AbstractMemory.memSide.sendAtomic (writebackPacket params old) mem =
        some (writebackPacket params old, { mem with lockedAddrList := locks }) := stored
      exact ⟨locks, by simp [Cache.sendWritebacks, sent]⟩

theorem allocateBlock_noMiss (victim : Nat) (blocks : Blocks) (addr : Addr) {ref : BlkRef}
    (place : ref = .way (params.extractSet addr) (victim % params.assoc))
    (valid : (blocks.get ref).isDirty = true → (blocks.get ref).isValid = true) :
    ∃ evicted, Evicts params (blocks.get ref) evicted ∧
      allocateBlock params noMiss victim blocks addr =
        some (some ref, blocks.put ref (blocks.get ref).cleaned, evicted) := by
  cases dirty : (blocks.get ref).isDirty with
  | true =>
      exact ⟨_, .writeback dirty, by
        simp [allocateBlock, noMiss, writebackBlk, ← place, dirty, valid dirty]⟩
  | false =>
      have unchanged : (blocks.get ref).cleaned = blocks.get ref := by
        rw [CacheBlk.cleaned, ← dirty]
      refine ⟨_, .nothing, ?_⟩
      rw [unchanged, Blocks.put_get]
      cases isValid : (blocks.get ref).isValid <;>
        simp [allocateBlock, noMiss, ← place, dirty, isValid]

structure Brings (params : CacheParams) (secure : Bool) (fill : Packet) : Prop where
  answers : fill.cmd.isResponse = true ∨ fill.cmd.isWriteInvalidate = true
  hasData : fill.cmd.hasData = true
  brings : fill.cmd.isRead = true ∨ fill.cmd.isWriteInvalidate = true
  exclusive : fill.sharedAsserted = false
  unowned : fill.memInhibitAsserted = false
  space : fill.isSecure = secure
  length : fill.cmd.isRead = true → fill.data.length = params.blkSize

theorem insertBlock_fresh (params : CacheParams) {old : CacheBlk} (cleared : old.isValid = false → old.isSecure = false)
    (clean : old.isDirty = false) (fill : Packet) :
    (params.insertBlock old fill).tag = params.extractTag fill.getCacheAddr ∧
      (params.insertBlock old fill).set = old.set ∧
      (params.insertBlock old fill).isDirty = false ∧
      (params.insertBlock old fill).isSecure = false := by
  cases valid : old.isValid <;>
    simp [TagStore.insertBlock, CacheBlk.invalidate, valid, clean, cleared]

theorem fillBlock_brings {fill : Packet} (brings : Brings params secure fill) {blk : CacheBlk}
    (clean : blk.isDirty = false) (unsecured : blk.isSecure = false)
    (tag : blk.tag = params.extractTag fill.getCacheAddr)
    (set : blk.set = params.extractSet fill.getCacheAddr) :
    ∃ filled, fillBlock params fill blk = some filled ∧
      Holding params secure fill.getCacheAddr filled ∧ filled.isDirty = false ∧
      (fill.cmd.isRead = true →
        ∀ index < params.blkSize, filled.data index = fill.data.getD index 0) := by
  have holding : Holding params secure fill.getCacheAddr (fillStatus fill blk) :=
    ⟨tag, set, rfl, by simp [brings.exclusive], rfl, by simp [unsecured, brings.space]⟩
  have stillClean : (fillStatus fill blk).isDirty = false := by simp [clean, brings.unowned]
  cases read : fill.cmd.isRead with
  | false => exact ⟨_, by simp [fillBlock, read], holding, stillClean, by simp⟩
  | true =>
      have length := brings.length read
      refine ⟨{ fillStatus fill blk with
        data := ByteStore.write blk.data 0 (fill.data.take params.blkSize) },
        by rw [fillBlock, if_pos read, if_pos length.ge],
        ⟨holding.tag, holding.set, rfl, holding.writable, rfl, holding.space⟩, stillClean, ?_⟩
      intro _ index bound
      have inside : index < fill.data.length := by omega
      simp [ByteStore.write, inside, bound]

theorem handleFill_miss (consistent : Consistent params secure mem blocks) {fill : Packet}
    (brings : Brings params secure fill) (victim : Nat) {set way : Nat}
    (isSet : set = params.extractSet fill.getCacheAddr) (isWay : way = victim % params.assoc) :
    ∃ blk evicted, Evicts params (blocks.ways set way) evicted ∧
      handleFill params noMiss victim fill none blocks =
        some (.way set way, blocks.put (.way set way) blk, evicted) ∧
      Holding params secure fill.getCacheAddr blk ∧ blk.isDirty = false ∧
      (fill.cmd.isRead = true →
        ∀ index < params.blkSize, blk.data index = fill.data.getD index 0) := by
  have ok := consistent.ok set way
  obtain ⟨evicted, evicts, allocated⟩ := allocateBlock_noMiss victim blocks fill.getCacheAddr
    (show BlkRef.way set way = _ by rw [isSet, isWay]) fun dirty => (ok.clean dirty).1
  obtain ⟨tag, sameSet, clean, unsecured⟩ :=
    insertBlock_fresh params (show (blocks.ways set way).cleaned.isValid = false → _ from ok.cleared)
      rfl fill
  obtain ⟨filled, fills, facts⟩ := fillBlock_brings brings clean unsecured tag
    (by rw [sameSet, ← isSet]; exact consistent.placed set way)
  refine ⟨filled, evicted, evicts, ?_, facts⟩
  have placed : placeFill params noMiss victim fill none blocks = some (.way set way,
      blocks.put (.way set way)
        (params.insertBlock (blocks.get (.way set way)).cleaned fill), evicted) := by
    simp [placeFill, brings.hasData, brings.brings, allocated]
  have fillsHere : fillBlock params fill
      (params.insertBlock (blocks.get (.way set way)).cleaned fill) = some filled := fills
  simp [handleFill, brings.answers, placed, fillsHere]

end

end LlvmGather
