import LlvmGather.Gather.Consistency

/-!
The cache is transparent in atomic mode: hits and misses answer every access as a memory
without a cache would, and keep the blocks consistent with the memory.
-/

namespace LlvmGather

open Cache

section

variable {params : CacheParams} {secure : Bool} {mem : AbstractMemory} {req : Request}
  {blocks : Blocks}

def FromCpu (cmd : MemCmd) : Prop := cmd = .ReadReq ∨ cmd = .WriteReq ∨ cmd = .WriteInvalidateReq

def busCmd : MemCmd → MemCmd
  | .WriteReq => .ReadExReq
  | cmd => cmd

theorem getBusPacket_miss (params : CacheParams) {cmd : MemCmd} (fromCpu : FromCpu cmd)
    (cacheable : req.isUncacheable = false) (data : List Byte) :
    getBusPacket params (issued req cmd data) none cmd.needsExclusive =
      some (some (Packet.newBlock req (busCmd cmd) params.blkSize).allocate) := by
  rcases fromCpu with rfl | rfl | rfl <;> simp +decide [getBusPacket, cacheable, busCmd]

theorem recvAtomic_hit {pkt answered : Packet} {cmd : MemCmd} {data : List Byte} {ref : BlkRef}
    {used : CacheBlk} {after : AbstractMemory}
    (promoted : promoteWholeLineWrites params pkt = some (issued req cmd data))
    (fromCpu : FromCpu cmd) (cacheable : req.isUncacheable = false)
    (found : findBlock params blocks (issued req cmd data) = some ref)
    (writable : (blocks.get ref).isWritable = true) (readable : (blocks.get ref).isReadable = true)
    (satisfied : satisfyCpuSideRequest params AbstractMemory.memSide (issued req cmd data) ref
      (blocks.get ref) false false mem = some (answered, used, after))
    (same : answered.cmd = cmd) (victim : Nat) :
    recvAtomic params AbstractMemory.memSide noMiss victim pkt blocks mem =
      some ({ answered with cmd := cmd.responseCommand }, blocks.put ref used, after) := by
  have accessed : access params AbstractMemory.memSide noMiss victim (issued req cmd data) blocks
      mem = some ⟨true, answered, some ref, blocks.put ref used, [], after⟩ := by
    rcases fromCpu with rfl | rfl | rfl <;>
      simp +decide [access, cacheable, found, writable, readable, satisfied]
  rcases fromCpu with rfl | rfl | rfl <;>
    simp +decide [recvAtomic, promoted, accessed, Cache.sendWritebacks, Packet.makeResponse, same]

theorem access_miss (mem : AbstractMemory) {cmd : MemCmd} {data : List Byte} (fromCpu : FromCpu cmd)
    (cacheable : req.isUncacheable = false)
    (missed : findBlock params blocks (issued req cmd data) = none) (victim : Nat) :
    access params AbstractMemory.memSide noMiss victim (issued req cmd data) blocks mem =
      some ⟨false, issued req cmd data, none, blocks, [], mem⟩ := by
  rcases fromCpu with rfl | rfl | rfl <;> simp +decide [access, cacheable, missed]

theorem recvAtomic_miss {pkt response fill answered : Packet} {cmd : MemCmd} {data : List Byte}
    {ref : BlkRef} {next : Blocks} {evicted : List Packet} {used : CacheBlk}
    {after final : AbstractMemory} (top : params.isTopLevel = true)
    (promoted : promoteWholeLineWrites params pkt = some (issued req cmd data))
    (fromCpu : FromCpu cmd) (cacheable : req.isUncacheable = false)
    (missed : findBlock params blocks (issued req cmd data) = none)
    (bus : mem.access (Packet.newBlock req (busCmd cmd) params.blkSize).allocate =
      some (response, mem))
    (answers : response.cmd = (busCmd cmd).responseCommand)
    (isFill : fill = if cmd = .WriteInvalidateReq then issued req cmd data else response)
    {victim : Nat}
    (filled : handleFill params noMiss victim fill none blocks = some (ref, next, evicted))
    (satisfied : satisfyCpuSideRequest params AbstractMemory.memSide (issued req cmd data) ref
      (next.get ref) false false mem = some (answered, used, after))
    (same : answered.cmd = cmd)
    (written : sendWritebacks AbstractMemory.memSide evicted after = some final) :
    recvAtomic params AbstractMemory.memSide noMiss victim pkt blocks mem =
      some ({ answered with cmd := cmd.responseCommand }, next.put ref used, final) := by
  have sent : AbstractMemory.memSide.sendAtomic
      (Packet.newBlock req (busCmd cmd) params.blkSize).allocate mem = some (response, mem) := bus
  have brought : fillAndSatisfy params AbstractMemory.memSide noMiss victim fill
      ⟨false, issued req cmd data, none, blocks, [], mem⟩ mem =
        some (answered, next.put ref used, evicted, after) := by
    simp [fillAndSatisfy, filled, satisfied]
  have handled : atomicMiss params AbstractMemory.memSide noMiss victim
      ⟨false, issued req cmd data, none, blocks, [], mem⟩ =
        some (answered, next.put ref used, evicted, after) := by
    have packet := getBusPacket_miss params fromCpu cacheable data
    rcases fromCpu with rfl | rfl | rfl <;>
      simp +decide [atomicMiss, packet, sent, answers, top, isFill] at brought ⊢ <;>
      exact brought
  have accessed := access_miss mem fromCpu cacheable missed victim
  rcases fromCpu with rfl | rfl | rfl <;>
    simp +decide [recvAtomic, promoted, accessed, handled, written, Packet.makeResponse, same]

theorem recvAtomic_outside {pkt : Packet} {cmd : MemCmd} {data : List Byte}
    (promoted : promoteWholeLineWrites params pkt = some (issued req cmd data))
    (fromCpu : FromCpu cmd) (cacheable : req.isUncacheable = false)
    (missed : findBlock params blocks (issued req cmd data) = none)
    (bus : mem.access (Packet.newBlock req (busCmd cmd) params.blkSize).allocate = none)
    (victim : Nat) :
    recvAtomic params AbstractMemory.memSide noMiss victim pkt blocks mem = none := by
  have sent : AbstractMemory.memSide.sendAtomic
      (Packet.newBlock req (busCmd cmd) params.blkSize).allocate mem = none := bus
  have packet := getBusPacket_miss params fromCpu cacheable data
  have accessed := access_miss mem fromCpu cacheable missed victim
  have failed : atomicMiss params AbstractMemory.memSide noMiss victim
      ⟨false, issued req cmd data, none, blocks, [], mem⟩ = none := by
    simp [atomicMiss, packet, sent]
  rcases fromCpu with rfl | rfl | rfl <;> simp [recvAtomic, promoted, accessed, failed]

theorem promote_read (ordinary : req.Ordinary params mem secure) :
    promoteWholeLineWrites params (Packet.createRead req) =
      some (issued req .ReadReq (List.replicate req.size 0)) := by
  simp [promoteWholeLineWrites, Packet.createRead, Packet.makeReadCmd, Packet.new, Packet.allocate,
    ordinary.notLocked, ordinary.notPrefetch, issued]

theorem promote_write (top : params.isTopLevel = true) (ordinary : req.Ordinary params mem secure)
    (data : List Byte) :
    ∃ cmd, (cmd = .WriteReq ∨ cmd = .WriteInvalidateReq ∧ req.size = params.blkSize ∧
        req.paddr.toNat % params.blkSize = 0) ∧
      promoteWholeLineWrites params (Packet.createWrite req data) =
        some (issued req cmd data) := by
  have packet : Packet.createWrite req data = issued req .WriteReq data := by
    simp [Packet.createWrite, Packet.makeWriteCmd, Packet.new, ordinary.notLocked,
      ordinary.notSwap, issued]
  have offset := getOffset_issued params req .WriteReq data
  by_cases line : req.size = params.blkSize ∧ req.paddr.toNat % params.blkSize = 0
  · refine ⟨.WriteInvalidateReq, .inr ⟨rfl, line⟩, ?_⟩
    rw [packet, promoteWholeLineWrites, if_pos ⟨rfl, line.1, offset.trans line.2⟩]
    simp [top, issued]
  · refine ⟨.WriteReq, .inl rfl, ?_⟩
    rw [packet, promoteWholeLineWrites, if_neg]
    rintro ⟨-, size, zero⟩
    exact line ⟨size, offset ▸ zero⟩

theorem getCacheAddr_newBlock (params : CacheParams) (req : Request) (cmd : MemCmd) :
    (Packet.newBlock req cmd params.blkSize).allocate.getCacheAddr =
      params.blockAlign req.cacheAddr := by
  have bound := params.blkBound
  have addr : (Packet.newBlock req cmd params.blkSize).allocate.getCacheAddr =
      params.blockAlign req.paddr ||| (req.getGatherPattern <<< GATHER_PATTERN_SHIFT) := rfl
  apply BitVec.eq_of_getLsbD_eq
  intro index inside
  rw [addr, params.getLsbD_blockAlign, Request.cacheAddr, BitVec.getLsbD_or, BitVec.getLsbD_or,
    params.getLsbD_blockAlign, BitVec.getLsbD_shiftLeft]
  rcases Nat.lt_or_ge index params.blkBits with low | high
  · have below : index < GATHER_PATTERN_SHIFT := Nat.lt_trans low (Nat.lt_trans bound (by decide))
    simp [Nat.not_le.mpr low, below]
  · simp [high]

theorem Request.Ordinary.qwords (ordinary : req.Ordinary params mem secure)
    (aligned : req.isGather = true → req.Aligned) (gather : req.isGather = true) :
    8 ∣ (params.blockAlign req.paddr).toNat ∧ 8 ∣ params.blkSize := by
  have qword : 8 ≤ req.size := Nat.le_of_dvd ordinary.nonempty (aligned gather).size
  have fits := ordinary.oneBlock
  have whole : 8 ∣ params.blkSize := by
    have atLeast : 3 ≤ params.blkBits := by
      by_contra small
      have : params.blkSize ≤ 2 ^ 2 := Nat.pow_le_pow_right (by decide) (by omega)
      omega
    exact Nat.pow_dvd_pow 2 atLeast
  rw [params.toNat_blockAlign]
  exact ⟨Dvd.dvd.mul_left whole _, whole⟩

structure Served (params : CacheParams) (secure : Bool) (mem : AbstractMemory) (entry : CpuAccess)
    (response : Packet) (next : Blocks) (after : AbstractMemory) : Prop where
  output : entry.output response = (entry.flat mem.store).1
  store : after.store = (entry.flat mem.store).2
  start : after.start = mem.start
  last : after.last = mem.last
  consistent : Consistent params secure after next

/-- The line of the request lies in the memory. -/
def InMemory (params : CacheParams) (mem : AbstractMemory) (req : Request) : Prop :=
  mem.backs (params.blockAlign req.paddr) params.blkSize = true

theorem access_outside (ordinary : req.Ordinary params mem secure)
    (outside : ¬ InMemory params mem req) (cmd : MemCmd) :
    mem.access (Packet.newBlock req cmd params.blkSize).allocate = none := by
  have small : params.blkSize < 2 ^ 32 := Nat.pow_lt_pow_right (by decide) params.blkBits_lt_word
  have align := Nat.div_mul_le_self req.paddr.toNat params.blkSize
  rw [← params.toNat_blockAlign] at align
  have physical := ordinary.physical
  have notInRange : mem.inRange (Packet.newBlock req cmd params.blkSize).allocate = false := by
    apply Bool.eq_false_iff.mpr
    intro inRange
    exact outside ((AbstractMemory.inRange_iff_backs
      (show 0 < (Packet.newBlock req cmd params.blkSize).allocate.size from params.blkSize_pos)
      (show (params.blockAlign req.paddr).toNat + params.blkSize ≤ 2 ^ 64 by omega)).mp inRange)
  simp [AbstractMemory.access, notInRange]

theorem findBlock_issued (params : CacheParams) (space : req.isSecure = secure) (cmd : MemCmd) (data : List Byte)
    (blocks : Blocks) :
    findBlock params blocks (issued req cmd data) =
      (params.findBlock blocks.ways req.cacheAddr secure).map
        (BlkRef.way (params.extractSet req.cacheAddr)) := by
  rw [findBlock, issued_isSecure, space]
  rfl

theorem Holding.of_blockAlign {blk : CacheBlk} {addr : Addr}
    (holding : Holding params secure (params.blockAlign addr) blk) :
    Holding params secure addr blk :=
  ⟨holding.tag.trans (params.extractTag_blockAlign addr),
    holding.set.trans (params.extractSet_blockAlign addr), holding.valid, holding.writable,
    holding.readable, holding.space⟩

theorem Holding.isWritable {blk : CacheBlk} {addr : Addr}
    (holding : Holding params secure addr blk) : blk.isWritable = true := by
  simp [CacheBlk.isWritable, holding.valid, holding.writable]

theorem Holding.isReadable {blk : CacheBlk} {addr : Addr}
    (holding : Holding params secure addr blk) : blk.isReadable = true := by
  simp [CacheBlk.isReadable, holding.valid, holding.readable]

theorem read_hit (top : params.isTopLevel = true) (tiled : mem.Tiled)
    (consistent : Consistent params secure mem blocks) (ordinary : req.Ordinary params mem secure)
    (aligned : req.isGather = true → req.Aligned) {way : Nat}
    (found : params.findBlock blocks.ways req.cacheAddr secure = some way) (victim : Nat) :
    ∃ response next after,
      recvAtomic params AbstractMemory.memSide noMiss victim (Packet.createRead req) blocks mem =
        some (response, next, after) ∧
      Served params secure mem (.read req) response next after := by
  obtain ⟨_, holding⟩ := consistent.holding found
  obtain ⟨shared, satisfied⟩ := satisfy_read top tiled ordinary aligned
    (List.replicate req.size 0) (.way _ way) holding.valid
  have here := findBlock_issued params ordinary.space .ReadReq
    (List.replicate req.size 0) blocks
  rw [found, Option.map_some] at here
  have hit := recvAtomic_hit (promote_read ordinary) (.inl rfl) ordinary.cacheable here
    holding.isWritable holding.isReadable satisfied rfl victim
  refine ⟨_, _, _, hit, rfl, rfl, rfl, rfl, ?_⟩
  have same := Blocks.put_get blocks (.way (params.extractSet req.cacheAddr) way)
  rw [Blocks.get] at same
  rwa [same]

theorem Request.cacheAddr_plain (aligned : req.isGather = true → req.Aligned)
    (plain : patternBits req.cacheAddr = 0) :
    req.getGatherPattern = 0 ∧ req.cacheAddr = req.paddr := by
  have zero : req.getGatherPattern = 0 := by
    cases gather : req.isGather with
    | false => simp [Request.getGatherPattern, gather]
    | true =>
        have small := (aligned gather).pattern
        rw [Request.cacheAddr, patternBits_or] at plain
        have high := (patternBits_eq_zero_iff _).mp (BitVec.or_eq_zero_iff.mp plain).2
        rw [Request.getGatherPattern, if_pos gather] at high ⊢
        rw [BitVec.toNat_shiftLeft, Nat.shiftLeft_eq, GATHER_PATTERN_SHIFT] at high
        apply BitVec.eq_of_toNat_eq
        have none : (0 : Addr).toNat = 0 := rfl
        omega
  exact ⟨zero, by simp [Request.cacheAddr, zero]⟩

theorem InMemory.bound (inMemory : InMemory params mem req) :
    (params.blockAlign req.paddr).toNat + params.blkSize ≤ 2 ^ 64 := by
  have bound := mem.last.isLt
  simp only [InMemory, AbstractMemory.backs, decide_eq_true_eq] at inMemory
  omega

theorem fill_from_memory (tiled : mem.Tiled) (consistent : Consistent params secure mem blocks)
    (ordinary : req.Ordinary params mem secure) (aligned : req.isGather = true → req.Aligned)
    (inMemory : InMemory params mem req) {cmd : MemCmd} (read : cmd = .ReadReq ∨ cmd = .ReadExReq)
    (victim : Nat) {set way : Nat} (isSet : set = params.extractSet req.cacheAddr)
    (isWay : way = victim % params.assoc) :
    ∃ response blk evicted,
      mem.access (Packet.newBlock req cmd params.blkSize).allocate = some (response, mem) ∧
      response.cmd = cmd.responseCommand ∧
      handleFill params noMiss victim response none blocks =
        some (.way set way, blocks.put (.way set way) blk, evicted) ∧
      Evicts params (blocks.ways set way) evicted ∧
      Holding params secure req.cacheAddr blk ∧ blk.isDirty = false ∧
      (patternBits req.cacheAddr = 0 → ∀ index < params.blkSize,
        blk.data index = mem.store ((params.blockAlign req.paddr).toNat + index)) := by
  have qwords := ordinary.qwords aligned
  have answered := AbstractMemory.access_read tiled
    (show 0 < (Packet.newBlock req cmd params.blkSize).allocate.size from params.blkSize_pos)
    inMemory qwords rfl read
  have length := length_contents mem.store (params.blockAlign req.paddr)
    fun gather => (qwords gather).2
  have addr := getCacheAddr_newBlock params req cmd
  have brings : Brings params secure { (Packet.newBlock req cmd params.blkSize).allocate with
      cmd := cmd.responseCommand
      data := contents mem.store req (params.blockAlign req.paddr) params.blkSize } := by
    rcases read with rfl | rfl <;>
      exact ⟨.inl rfl, rfl, .inl rfl, rfl, rfl, ordinary.space, fun _ => length⟩
  obtain ⟨blk, evicted, evicts, filled, holding, clean, data⟩ :=
    handleFill_miss consistent brings victim (show set = params.extractSet _ from
      isSet.trans (by rw [← params.extractSet_blockAlign, ← addr]; rfl)) isWay
  refine ⟨_, blk, evicted, answered, rfl, filled, evicts, ?_, clean, ?_⟩
  · exact Holding.of_blockAlign (addr ▸ holding)
  · intro plain index bound
    obtain ⟨pattern, -⟩ := req.cacheAddr_plain aligned plain
    have isRead : cmd.responseCommand.isRead = true := by rcases read with rfl | rfl <;> rfl
    have bytes := contents_plain mem.store pattern (fun gather => (qwords gather).2) inMemory.bound
    rw [data isRead index bound]
    simp [bytes, ByteStore.read, bound]

theorem read_miss (top : params.isTopLevel = true) (tiled : mem.Tiled)
    (consistent : Consistent params secure mem blocks) (ordinary : req.Ordinary params mem secure)
    (aligned : req.isGather = true → req.Aligned)
    (missed : params.findBlock blocks.ways req.cacheAddr secure = none)
    (inMemory : InMemory params mem req) (victim : Nat) :
    ∃ response next after,
      recvAtomic params AbstractMemory.memSide noMiss victim (Packet.createRead req) blocks mem =
        some (response, next, after) ∧
      Served params secure mem (.read req) response next after := by
  obtain ⟨response, blk, evicted, bus, cmd, filled, evicts, holding, clean, data⟩ :=
    fill_from_memory tiled consistent ordinary aligned inMemory (.inl rfl) victim rfl rfl
  have nowhere := findBlock_issued params ordinary.space .ReadReq (List.replicate req.size 0) blocks
  rw [missed, Option.map_none] at nowhere
  obtain ⟨shared, satisfied⟩ := satisfy_read top tiled ordinary aligned
    (List.replicate req.size 0) (.way _ (victim % params.assoc)) holding.valid
  obtain ⟨locks, written⟩ := evicts.sendWritebacks (consistent.ok _ _)
  have result := recvAtomic_miss top (promote_read ordinary) (.inl rfl) ordinary.cacheable nowhere
    bus cmd rfl filled (by rw [Blocks.get_put]; exact satisfied) rfl written
  refine ⟨_, _, _, result, rfl, rfl, rfl, rfl, ?_⟩
  rw [Blocks.put_put]
  apply consistent.update (Nat.mod_lt _ params.assocPos) (consistent.alone_of_miss missed _)
    (fun set other _ => (consistent.ok set other).locks locks) holding.tag holding.set
  refine (holding.ok_fill clean fun plain => ?_).locks locks
  rw [(req.cacheAddr_plain aligned plain).2]
  exact ⟨inMemory, data plain⟩

theorem Consistent.line (consistent : Consistent params secure mem blocks)
    (ordinary : req.Ordinary params mem secure) {set way : Nat}
    (holding : Holding params secure req.paddr (blocks.ways set way)) :
    InMemory params mem req ∧ ∀ index < params.blkSize,
      (blocks.ways set way).data index =
        mem.store ((params.blockAlign req.paddr).toNat + index) := by
  have line := params.blkAddr_eq holding.tag holding.set
  have plain : patternBits (params.blkAddr (blocks.ways set way)) = 0 := by
    rw [line, params.patternBits_blockAlign]
    exact (patternBits_eq_zero_iff _).mpr ordinary.physical
  have agrees := (consistent.ok set way).agrees holding.valid plain
  rwa [line] at agrees

theorem write_hit (top : params.isTopLevel = true)
    (consistent : Consistent params secure mem blocks) (ordinary : req.Ordinary params mem secure)
    (noGather : req.isGather = false) {data : List Byte} (length : data.length = req.size)
    {way : Nat} (found : params.findBlock blocks.ways req.cacheAddr secure = some way)
    (victim : Nat) :
    ∃ response next after,
      recvAtomic params AbstractMemory.memSide noMiss victim (Packet.createWrite req data) blocks
        mem = some (response, next, after) ∧
      Served params secure mem (.write req data) response next after := by
  obtain ⟨inside, holding⟩ := consistent.holding found
  obtain ⟨cmd, written, promoted⟩ := promote_write top ordinary data
  have isWrite : cmd = .WriteReq ∨ cmd = .WriteInvalidateReq := written.imp_right And.left
  have here := findBlock_issued params ordinary.space cmd data blocks
  rw [found, Option.map_some] at here
  have satisfied := satisfy_write top ordinary length isWrite
    (.way (params.extractSet req.cacheAddr) way) holding.valid holding.writable
  have hit := recvAtomic_hit promoted (.inr isWrite) ordinary.cacheable here holding.isWritable
    holding.isReadable satisfied rfl victim
  have own : req.cacheAddr = req.paddr := by
    simp [Request.cacheAddr, Request.getGatherPattern, noGather]
  rw [own] at holding hit
  obtain ⟨inMemory, same⟩ := consistent.line ordinary holding
  have fits : req.paddr.toNat % params.blkSize + data.length ≤ params.blkSize :=
    length ▸ ordinary.oneBlock
  have alone := consistent.alone_of_hit holding
  exact ⟨_, _, _, hit, rfl, rfl, rfl, rfl,
    consistent.update inside alone (consistent.others_write alone fits) holding.tag holding.set
      (holding.ok_write ordinary inMemory fun index bound _ => same index bound)⟩

theorem fill_for_write (tiled : mem.Tiled) (consistent : Consistent params secure mem blocks)
    (ordinary : req.Ordinary params mem secure) (noGather : req.isGather = false)
    (inMemory : InMemory params mem req) {data : List Byte} (length : data.length = req.size)
    {cmd : MemCmd}
    (write : cmd = .WriteReq ∨ cmd = .WriteInvalidateReq ∧ req.size = params.blkSize ∧
      req.paddr.toNat % params.blkSize = 0)
    (victim : Nat) {set way : Nat} (isSet : set = params.extractSet req.cacheAddr)
    (isWay : way = victim % params.assoc) :
    ∃ response fill blk evicted,
      mem.access (Packet.newBlock req (busCmd cmd) params.blkSize).allocate =
        some (response, mem) ∧
      response.cmd = (busCmd cmd).responseCommand ∧
      (fill = if cmd = .WriteInvalidateReq then issued req cmd data else response) ∧
      handleFill params noMiss victim fill none blocks =
        some (.way set way, blocks.put (.way set way) blk, evicted) ∧
      Evicts params (blocks.ways set way) evicted ∧
      Holding params secure req.paddr blk ∧
      ∀ index < params.blkSize,
        index < req.paddr.toNat % params.blkSize ∨
          req.paddr.toNat % params.blkSize + data.length ≤ index →
        blk.data index = mem.store ((params.blockAlign req.paddr).toNat + index) := by
  have own : req.cacheAddr = req.paddr := by
    simp [Request.cacheAddr, Request.getGatherPattern, noGather]
  have aligned : req.isGather = true → req.Aligned := fun gather => by simp [noGather] at gather
  rcases write with rfl | ⟨rfl, size, offset⟩
  · obtain ⟨response, blk, evicted, bus, cmd, filled, evicts, holding, _, same⟩ :=
      fill_from_memory tiled consistent ordinary aligned inMemory (.inr rfl) victim isSet isWay
    have plain : patternBits req.cacheAddr = 0 := by
      rw [own]
      exact (patternBits_eq_zero_iff _).mpr ordinary.physical
    exact ⟨response, response, blk, evicted, bus, cmd, rfl, filled, evicts, own ▸ holding,
      fun index bound _ => same plain index bound⟩
  · have brings : Brings params secure (issued req .WriteInvalidateReq data) :=
      ⟨.inr rfl, rfl, .inr rfl, rfl, rfl, ordinary.space, by rintro ⟨⟩⟩
    obtain ⟨blk, evicted, evicts, filled, holding, _⟩ :=
      handleFill_miss consistent brings victim isSet isWay
    have bus := AbstractMemory.access_writeInvalidate
      (show 0 < (Packet.newBlock req .WriteInvalidateReq params.blkSize).allocate.size from
        params.blkSize_pos) inMemory rfl rfl
    refine ⟨_, _, blk, evicted, bus, rfl, rfl, filled, evicts, ?_, ?_⟩
    · have atOwn : Holding params secure req.cacheAddr blk := holding
      exact own ▸ atOwn
    · intro index bound outside
      omega

theorem write_miss (top : params.isTopLevel = true) (tiled : mem.Tiled)
    (consistent : Consistent params secure mem blocks) (ordinary : req.Ordinary params mem secure)
    (noGather : req.isGather = false) {data : List Byte} (length : data.length = req.size)
    (missed : params.findBlock blocks.ways req.cacheAddr secure = none)
    (inMemory : InMemory params mem req) (victim : Nat) :
    ∃ response next after,
      recvAtomic params AbstractMemory.memSide noMiss victim (Packet.createWrite req data) blocks
        mem = some (response, next, after) ∧
      Served params secure mem (.write req data) response next after := by
  obtain ⟨cmd, write, promoted⟩ := promote_write top ordinary data
  have isWrite : cmd = .WriteReq ∨ cmd = .WriteInvalidateReq := write.imp_right And.left
  have own : req.cacheAddr = req.paddr := by
    simp [Request.cacheAddr, Request.getGatherPattern, noGather]
  obtain ⟨response, fill, blk, evicted, bus, answers, isFill, filled, evicts, holding, same⟩ :=
    fill_for_write tiled consistent ordinary noGather inMemory length write victim
      (show params.extractSet req.paddr = _ by rw [own]) rfl
  have nowhere := findBlock_issued params ordinary.space cmd data blocks
  rw [missed, Option.map_none] at nowhere
  have satisfied := satisfy_write top ordinary length isWrite
    (.way (params.extractSet req.paddr) (victim % params.assoc)) holding.valid holding.writable
  have fits : req.paddr.toNat % params.blkSize + data.length ≤ params.blkSize :=
    length ▸ ordinary.oneBlock
  rw [own] at missed
  have others := fun way => consistent.others_write (consistent.alone_of_miss missed way) fits
  -- the victim is not the line written, so its writeback still changes nothing
  obtain ⟨locks, written⟩ := evicts.sendWritebacks
    (others (victim % params.assoc + 1) _ _ fun same => by omega)
  have result := recvAtomic_miss top promoted (.inr isWrite) ordinary.cacheable nowhere bus answers
    isFill filled (by rw [Blocks.get_put]; exact satisfied) rfl written
  refine ⟨_, _, _, result, rfl, rfl, rfl, rfl, ?_⟩
  rw [Blocks.put_put]
  exact consistent.update (Nat.mod_lt _ params.assocPos) (consistent.alone_of_miss missed _)
    (fun set other different => (others _ set other different).locks locks) holding.tag holding.set
    ((holding.ok_write ordinary inMemory same).locks locks)

theorem access_served (top : params.isTopLevel = true) (tiled : mem.Tiled)
    (consistent : Consistent params secure mem blocks) {entry : CpuAccess}
    (admissible : entry.Admissible params mem secure) (victim : Nat) :
    (∃ response next after,
      recvAtomic params AbstractMemory.memSide noMiss victim entry.packet blocks mem =
        some (response, next, after) ∧
      Served params secure mem entry response next after) ∨
    (recvAtomic params AbstractMemory.memSide noMiss victim entry.packet blocks mem = none ∧
      ¬ InMemory params mem entry.req) := by
  cases entry with
  | read req =>
      obtain ⟨ordinary, aligned⟩ := admissible
      have lookup := findBlock_issued params ordinary.space .ReadReq
        (List.replicate req.size 0) blocks
      cases found : params.findBlock blocks.ways req.cacheAddr secure with
      | some way => exact .inl (read_hit top tiled consistent ordinary aligned found victim)
      | none =>
          by_cases inMemory : InMemory params mem req
          · exact .inl (read_miss top tiled consistent ordinary aligned found inMemory victim)
          · rw [found, Option.map_none] at lookup
            exact .inr ⟨recvAtomic_outside (promote_read ordinary) (.inl rfl) ordinary.cacheable
              lookup (access_outside ordinary inMemory _) victim, inMemory⟩
  | write req data =>
      obtain ⟨ordinary, noGather, length⟩ := admissible
      obtain ⟨cmd, write, promoted⟩ := promote_write top ordinary data
      have isWrite : cmd = .WriteReq ∨ cmd = .WriteInvalidateReq := write.imp_right And.left
      have lookup := findBlock_issued params ordinary.space cmd data blocks
      cases found : params.findBlock blocks.ways req.cacheAddr secure with
      | some way => exact .inl (write_hit top consistent ordinary noGather length found victim)
      | none =>
          by_cases inMemory : InMemory params mem req
          · exact .inl
              (write_miss top tiled consistent ordinary noGather length found inMemory victim)
          · rw [found, Option.map_none] at lookup
            exact .inr ⟨recvAtomic_outside promoted (.inr isWrite) ordinary.cacheable lookup
              (access_outside ordinary inMemory _) victim, inMemory⟩

theorem AbstractMemory.Tiled.inMemory (tiled : mem.Tiled) (small : params.blkBits ≤ 9)
    (ordinary : req.Ordinary params mem secure) : InMemory params mem req := by
  have divides : params.blkSize ∣ 512 := Nat.pow_dvd_pow 2 small
  obtain ⟨first, start⟩ := divides.trans tiled.start
  obtain ⟨final, last⟩ := divides.trans tiled.last
  have backed := ordinary.backed
  have nonempty := ordinary.nonempty
  simp only [InMemory, AbstractMemory.backs, decide_eq_true_eq, params.toNat_blockAlign]
    at backed ⊢
  have lower : first ≤ req.paddr.toNat / params.blkSize := by
    rw [Nat.le_div_iff_mul_le params.blkSize_pos, Nat.mul_comm]
    omega
  have upper : req.paddr.toNat / params.blkSize + 1 ≤ final := by
    apply Nat.succ_le_of_lt
    rw [Nat.div_lt_iff_lt_mul params.blkSize_pos, Nat.mul_comm]
    omega
  have above := Nat.mul_le_mul_right params.blkSize lower
  have below := Nat.mul_le_mul_right params.blkSize upper
  rw [Nat.add_mul] at below
  rw [Nat.mul_comm] at start last
  omega

theorem CpuAccess.Admissible.congr {after : AbstractMemory} {entry : CpuAccess}
    (admissible : entry.Admissible params mem secure) (start : after.start = mem.start)
    (last : after.last = mem.last) : entry.Admissible params after secure := by
  have backs : ∀ addr size, after.backs addr size = mem.backs addr size := fun addr size => by
    rw [AbstractMemory.backs, AbstractMemory.backs, start, last]
  cases entry with
  | read req =>
      exact ⟨{ admissible.1 with backed := by rw [backs]; exact admissible.1.backed }, admissible.2⟩
  | write req data =>
      exact ⟨{ admissible.1 with backed := by rw [backs]; exact admissible.1.backed }, admissible.2⟩

end

def singleBlock : CacheParams where
  blkBits := 6
  setBits := 0
  assoc := 1
  blkAtLeast := by decide
  blkBound := by decide
  setBound := by decide
  assocPos := by decide
  isTopLevel := true
  forwardSnoops := false
  addrRanges := fun _ => true

def page : AbstractMemory where
  start := 0
  last := 0xFFF
  store := fun _ => 0
  lockedAddrList := []

def qword (paddr : Addr) : Request := { Request.fresh with paddr, size := 8 }

def gatherQword (paddr pattern : Addr) : Request :=
  { qword paddr with flags := Request.GATHER, gatherPattern := pattern }

end LlvmGather
