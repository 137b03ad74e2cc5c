import LlvmGather.Gather.Packet
import LlvmGather.Gather.Permutation
import LlvmGather.Library.Partial

/-!
The memory of `abstract_mem.cc`, with its backing store indexed by physical address.
`none` stands for a failed assertion, a panic or an access outside the store.
-/

namespace LlvmGather

structure LockedAddr where
  addr : Addr
  contextId : Nat
deriving DecidableEq, Repr

structure AbstractMemory where
  start : Addr
  last : Addr
  store : Nat → Byte
  lockedAddrList : List LockedAddr

def hostBytes (size : Nat) (value : BitVec 64) : List Byte :=
  (List.range size).map fun index => (value >>> (8 * index)).setWidth 8

def swapOverwrites (pkt : Packet) (found : List Byte) : Option Bool :=
  if pkt.req.isCondSwap then
    if pkt.size = 8 ∨ pkt.size = 4 then
      some (decide (hostBytes pkt.size pkt.req.extraData = found))
    else none
  else some true

namespace AbstractMemory

def inRange (mem : AbstractMemory) (pkt : Packet) : Bool :=
  decide (mem.start ≤ pkt.addr ∧ pkt.addr + BitVec.ofNat 64 pkt.size - 1 ≤ mem.last)

/-- `AddrRange::size` of a range that is not interleaved; it would shift out the bits that
select the channel. -/
def size (mem : AbstractMemory) : Addr := mem.last - mem.start + 1

def init (mem : AbstractMemory) (pageBytes : Addr) : Option Unit :=
  guard (mem.size % pageBytes = 0)

def backs (mem : AbstractMemory) (addr : Addr) (size : Nat) : Bool :=
  decide (mem.start.toNat ≤ addr.toNat ∧ addr.toNat + size ≤ mem.last.toNat + 1)

def hostRead (mem : AbstractMemory) (addr : Addr) (size : Nat) : Option (List Byte) :=
  if mem.backs addr size then some (ByteStore.read mem.store addr.toNat size) else none

def hostWrite (mem : AbstractMemory) (pkt : Packet) (data : List Byte) : Option AbstractMemory :=
  if mem.backs pkt.addr pkt.size then
    some { mem with store := ByteStore.write mem.store pkt.addr.toNat data }
  else none

def mask (paddr : Addr) : Addr := paddr &&& ~~~ 0xf

def trackLoadLocked (mem : AbstractMemory) (pkt : Packet) : AbstractMemory :=
  let paddr := mask pkt.req.paddr
  let owned := fun lock : LockedAddr => lock.contextId == pkt.req.contextId
  match mem.lockedAddrList.findIdx? owned with
  | some index =>
      { mem with lockedAddrList := mem.lockedAddrList.modify index ({ · with addr := paddr }) }
  | none => { mem with lockedAddrList := ⟨paddr, pkt.req.contextId⟩ :: mem.lockedAddrList }

/-- `writeOK` with `checkLockedAddrList`: a store conditional needs its reservation, and
every store that goes ahead ends the reservations of its address. -/
def writeOK (mem : AbstractMemory) (pkt : Packet) : Bool × Packet × AbstractMemory :=
  let paddr := mask pkt.req.paddr
  let reserved := mem.lockedAddrList.any fun lock =>
    lock.addr == paddr && lock.contextId == pkt.req.contextId
  let allowStore := !pkt.cmd.isLLSC || reserved
  let answered :=
    if pkt.cmd.isLLSC then
      { pkt with req := { pkt.req with extraData := if allowStore then 1 else 0 } }
    else pkt
  let remaining :=
    if allowStore then mem.lockedAddrList.filter fun lock => lock.addr != paddr
    else mem.lockedAddrList
  (allowStore, answered, { mem with lockedAddrList := remaining })

/-- In the source `i * 8` is an `int`, which it fits while the packet has at most 2 ^ 31
bytes. -/
def doMemGather (mem : AbstractMemory) (pkt : Packet) : Option Packet := do
  guard (pkt.req.isGather ∧ pkt.size % 8 = 0)
  let qwords ← (List.range (pkt.size / 8)).mapM fun index =>
    mem.hostRead
      (gatherSource pkt.req.getGatherPattern (pkt.addr + BitVec.ofNat 64 (index * 8))) 8
  return { pkt with data := qwords.flatten }

def readInto (mem : AbstractMemory) (pkt : Packet) : Option Packet :=
  if pkt.req.isGather then mem.doMemGather pkt
  else (mem.hostRead pkt.addr pkt.size).map fun data => { pkt with data }

def swap (mem : AbstractMemory) (pkt : Packet) : Option (Packet × AbstractMemory) := do
  let overwrite ← pkt.writeData
  let found ← mem.hostRead pkt.addr pkt.size
  let overwrites ← swapOverwrites pkt found
  guard (¬ pkt.req.isInstFetch)
  let written ← if overwrites then mem.hostWrite pkt overwrite else some mem
  return ({ pkt with data := found }, written)

def perform (mem : AbstractMemory) (pkt : Packet) : Option (Packet × AbstractMemory) :=
  if pkt.cmd = .SwapReq then mem.swap pkt
  else if pkt.cmd.isRead then do
    guard (¬ pkt.cmd.isWrite)
    let tracked := if pkt.cmd.isLLSC then mem.trackLoadLocked pkt else mem
    let read ← mem.readInto pkt
    return (read, tracked)
  else if pkt.cmd.isInvalidate then some (pkt, mem)
  else if pkt.cmd.isWrite then do
    let (allowed, answered, cleared) := mem.writeOK pkt
    if allowed then
      let data ← pkt.writeData
      guard (¬ pkt.req.isInstFetch)
      let written ← cleared.hostWrite pkt data
      return (answered, written)
    else return (answered, cleared)
  else none

def access (mem : AbstractMemory) (pkt : Packet) : Option (Packet × AbstractMemory) := do
  guard (mem.inRange pkt)
  if pkt.memInhibitAsserted then return (pkt, mem)
  let (performed, after) ← mem.perform pkt
  if performed.cmd.needsResponse then
    let response ← performed.makeResponse
    return (response, after)
  else return (performed, after)

def functionalAccess (mem : AbstractMemory) (pkt : Packet) :
    Option (Packet × AbstractMemory) := do
  guard (mem.inRange pkt)
  if pkt.cmd.isRead then
    let read ← mem.readInto pkt
    let response ← read.makeResponse
    return (response, mem)
  else if pkt.cmd.isWrite then
    let data ← pkt.writeData
    let written ← mem.hostWrite pkt data
    let response ← pkt.makeResponse
    return (response, written)
  else none

/-- The range starts and ends on boundaries of the tiles that gathers permute. -/
structure Tiled (mem : AbstractMemory) : Prop where
  start : 512 ∣ mem.start.toNat
  last : 512 ∣ mem.last.toNat + 1

end AbstractMemory

/-- The bytes that a read gets from a store: its own, or for a gather those at the
exchanged addresses. -/
def contents (store : Nat → Byte) (req : Request) (addr : Addr) (size : Nat) : List Byte :=
  if req.isGather then
    ((List.range (size / 8)).map fun index =>
      ByteStore.read store
        (exchange req.getGatherPattern (addr + BitVec.ofNat 64 (index * 8))).toNat 8).flatten
  else ByteStore.read store addr.toNat size

theorem length_contents (store : Nat → Byte) {req : Request} (addr : Addr) {size : Nat}
    (whole : req.isGather = true → 8 ∣ size) : (contents store req addr size).length = size := by
  by_cases isGather : req.isGather = true
  · simp [contents, isGather, List.length_flatten, Function.comp_def,
      Nat.div_mul_cancel (whole isGather)]
  · simp [contents, isGather]

theorem contents_plain (store : Nat → Byte) {req : Request} {addr : Addr} {size : Nat}
    (plain : req.getGatherPattern = 0) (whole : req.isGather = true → 8 ∣ size)
    (bound : addr.toNat + size ≤ 2 ^ 64) :
    contents store req addr size = ByteStore.read store addr.toNat size := by
  by_cases isGather : req.isGather = true
  · have sources : ∀ index ∈ List.range (size / 8),
        ByteStore.read store
            (exchange req.getGatherPattern (addr + BitVec.ofNat 64 (index * 8))).toNat 8 =
          ByteStore.read store (addr.toNat + index * 8) 8 := by
      intro index member
      have inside := List.mem_range.mp member
      rw [plain, exchange_zero, toNat_advance (by omega)]
    rw [contents, if_pos isGather, List.map_congr_left sources, ByteStore.flatten_read,
      Nat.div_mul_cancel (whole isGather)]
  · rw [contents, if_neg isGather]

namespace AbstractMemory

variable {mem : AbstractMemory} {pkt : Packet}

theorem inRange_iff_backs (nonempty : 0 < pkt.size)
    (bound : pkt.addr.toNat + pkt.size ≤ 2 ^ 64) :
    mem.inRange pkt = true ↔ mem.backs pkt.addr pkt.size = true := by
  simp only [inRange, backs, decide_eq_true_eq, BitVec.le_def, toNat_last nonempty bound]
  omega

theorem inRange_of_backs (nonempty : 0 < pkt.size) (backed : mem.backs pkt.addr pkt.size = true) :
    mem.inRange pkt = true := by
  have inside := backed
  simp only [backs, decide_eq_true_eq] at inside
  have bound := mem.last.isLt
  exact (inRange_iff_backs nonempty (by omega)).mpr backed

theorem Tiled.backs_source (tiled : mem.Tiled) {size : Nat} {pattern addr : Addr}
    (aligned : 8 ∣ addr.toNat) (backed : mem.backs addr size = true) {index : Nat}
    (inside : index < size / 8) :
    mem.backs (gatherSource pattern (addr + BitVec.ofNat 64 (index * 8))) 8 = true := by
  simp only [backs, decide_eq_true_eq] at backed ⊢
  have bound := mem.last.isLt
  have own : (addr + BitVec.ofNat 64 (index * 8)).toNat = addr.toNat + index * 8 :=
    toNat_advance (by omega)
  have tile := gatherSource_tile pattern (addr + BitVec.ofNat 64 (index * 8))
  have offset := gatherSource_offset pattern (addr + BitVec.ofNat 64 (index * 8))
  rw [own] at tile offset
  obtain ⟨first, start⟩ := tiled.start
  obtain ⟨final, last⟩ := tiled.last
  omega

section Gather

variable (gather : pkt.req.isGather = true) (whole : 8 ∣ pkt.size)
include gather whole

theorem doMemGather_eq
    (backed : ∀ index < pkt.size / 8, mem.backs (gatherSource pkt.req.getGatherPattern
      (pkt.addr + BitVec.ofNat 64 (index * 8))) 8 = true) :
    mem.doMemGather pkt =
      some { pkt with data := contents mem.store pkt.req pkt.addr pkt.size } := by
  have sources : ((List.range (pkt.size / 8)).mapM fun index => mem.hostRead
        (gatherSource pkt.req.getGatherPattern (pkt.addr + BitVec.ofNat 64 (index * 8))) 8) =
      some ((List.range (pkt.size / 8)).map fun index => ByteStore.read mem.store
        (exchange pkt.req.getGatherPattern (pkt.addr + BitVec.ofNat 64 (index * 8))).toNat 8) := by
    apply Partial.mapM_some
    intro index member
    rw [hostRead, if_pos (backed index (List.mem_range.mp member)), gatherSource_eq_exchange]
  simp [doMemGather, contents, gather, Nat.mod_eq_zero_of_dvd whole, sources]

theorem isSome_doMemGather_iff :
    (mem.doMemGather pkt).isSome = true ↔
      ∀ index < pkt.size / 8, mem.backs (gatherSource pkt.req.getGatherPattern
        (pkt.addr + BitVec.ofNat 64 (index * 8))) 8 = true := by
  constructor
  · intro returns index inside
    have reads : ((List.range (pkt.size / 8)).mapM fun index => mem.hostRead
        (gatherSource pkt.req.getGatherPattern
          (pkt.addr + BitVec.ofNat 64 (index * 8))) 8).isSome = true := by
      rw [Option.isSome_iff_ne_none]
      intro fails
      simp [doMemGather, gather, Nat.mod_eq_zero_of_dvd whole, fails] at returns
    have read := Partial.isSome_mapM_iff.mp reads index (List.mem_range.mpr inside)
    by_contra outside
    simp [hostRead, outside] at read
  · intro backed
    rw [doMemGather_eq gather whole backed]
    rfl

end Gather

def Readable (mem : AbstractMemory) (pkt : Packet) : Prop :=
  if pkt.req.isGather then
    8 ∣ pkt.size ∧ ∀ index < pkt.size / 8, mem.backs (gatherSource pkt.req.getGatherPattern
      (pkt.addr + BitVec.ofNat 64 (index * 8))) 8 = true
  else mem.backs pkt.addr pkt.size = true

theorem Tiled.readable (tiled : mem.Tiled) (backed : mem.backs pkt.addr pkt.size = true)
    (gather : pkt.req.isGather = true → 8 ∣ pkt.addr.toNat ∧ 8 ∣ pkt.size) : mem.Readable pkt := by
  rw [Readable]
  split_ifs with isGather
  · obtain ⟨aligned, whole⟩ := gather isGather
    exact ⟨whole, fun _ inside => tiled.backs_source aligned backed inside⟩
  · exact backed

theorem readInto_eq (readable : mem.Readable pkt) :
    mem.readInto pkt =
      some { pkt with data := contents mem.store pkt.req pkt.addr pkt.size } := by
  rw [Readable] at readable
  split_ifs at readable with gather
  · rw [readInto, if_pos gather]
    exact doMemGather_eq gather readable.1 readable.2
  · simp [readInto, contents, gather, hostRead, readable]

theorem readable_of_readInto (returns : (mem.readInto pkt).isSome = true) : mem.Readable pkt := by
  rw [readInto] at returns
  rw [Readable]
  split_ifs at returns ⊢ with gather
  · have whole : 8 ∣ pkt.size := by
      by_contra cut
      simp [doMemGather, Nat.dvd_iff_mod_eq_zero.not.mp cut] at returns
    exact ⟨whole, (isSome_doMemGather_iff gather whole).mp returns⟩
  · by_contra outside
    simp [hostRead, outside] at returns

theorem access_read (tiled : mem.Tiled) (nonempty : 0 < pkt.size)
    (backed : mem.backs pkt.addr pkt.size = true)
    (gather : pkt.req.isGather = true → 8 ∣ pkt.addr.toNat ∧ 8 ∣ pkt.size)
    (uninhibited : pkt.memInhibitAsserted = false)
    (read : pkt.cmd = .ReadReq ∨ pkt.cmd = .ReadExReq) :
    mem.access pkt = some ({ pkt with
      cmd := pkt.cmd.responseCommand
      data := contents mem.store pkt.req pkt.addr pkt.size }, mem) := by
  have inside := inRange_of_backs nonempty backed
  have data := readInto_eq (tiled.readable backed gather)
  rcases read with cmd | cmd <;>
    simp +decide [access, perform, Packet.makeResponse, inside, uninhibited, cmd, data]

theorem access_writeInvalidate (nonempty : 0 < pkt.size)
    (backed : mem.backs pkt.addr pkt.size = true) (uninhibited : pkt.memInhibitAsserted = false)
    (cmd : pkt.cmd = .WriteInvalidateReq) :
    mem.access pkt = some ({ pkt with cmd := .WriteInvalidateResp }, mem) := by
  have inside := inRange_of_backs nonempty backed
  simp +decide [access, perform, Packet.makeResponse, inside, uninhibited, cmd]

theorem access_writeback (nonempty : 0 < pkt.size) (backed : mem.backs pkt.addr pkt.size = true)
    (uninhibited : pkt.memInhibitAsserted = false) (noFetch : pkt.req.isInstFetch = false)
    (length : pkt.data.length = pkt.size) (cmd : pkt.cmd = .Writeback) :
    ∃ locks, mem.access pkt = some (pkt, { mem with
      store := ByteStore.write mem.store pkt.addr.toNat pkt.data
      lockedAddrList := locks }) := by
  have inside := inRange_of_backs nonempty backed
  refine ⟨mem.lockedAddrList.filter fun lock => lock.addr != mask pkt.req.paddr, ?_⟩
  have here : ∀ locks, backs { mem with lockedAddrList := locks } pkt.addr pkt.size = true :=
    fun _ => backed
  simp +decide [access, perform, writeOK, hostWrite, Packet.writeData_eq length, inside,
    uninhibited, noFetch, cmd, here]

theorem functionalAccess_read (inside : mem.inRange pkt = true) (readable : mem.Readable pkt)
    (cmd : pkt.cmd = .ReadReq) :
    mem.functionalAccess pkt = some ({ pkt with
      cmd := .ReadResp
      data := contents mem.store pkt.req pkt.addr pkt.size }, mem) := by
  simp +decide [functionalAccess, Packet.makeResponse, inside, cmd, readInto_eq readable]

theorem readable_of_functionalAccess (cmd : pkt.cmd = .ReadReq)
    (returns : (mem.functionalAccess pkt).isSome = true) :
    mem.inRange pkt = true ∧ mem.Readable pkt := by
  have inside : mem.inRange pkt = true := by
    by_contra outside
    simp [functionalAccess, outside] at returns
  refine ⟨inside, readable_of_readInto ?_⟩
  rw [Option.isSome_iff_ne_none]
  intro fails
  simp +decide [functionalAccess, inside, cmd, fails] at returns

theorem functionalAccess_write (nonempty : 0 < pkt.size)
    (backed : mem.backs pkt.addr pkt.size = true) (length : pkt.data.length = pkt.size)
    (cmd : pkt.cmd = .WriteReq) :
    mem.functionalAccess pkt = some ({ pkt with cmd := .WriteResp },
      { mem with store := ByteStore.write mem.store pkt.addr.toNat pkt.data }) := by
  have inside := inRange_of_backs nonempty backed
  simp +decide [functionalAccess, hostWrite, Packet.writeData_eq length, Packet.makeResponse,
    inside, cmd, backed]

def Framed (mem : AbstractMemory) (pkt : Packet) (result : Packet × AbstractMemory) : Prop :=
  result.1.cmd = pkt.cmd ∧ result.2.start = mem.start ∧ result.2.last = mem.last

theorem hostWrite_frame {data : List Byte} {written : AbstractMemory}
    (returns : mem.hostWrite pkt data = some written) :
    written.start = mem.start ∧ written.last = mem.last := by
  unfold hostWrite at returns
  split_ifs at returns
  obtain rfl := Option.some.inj returns
  exact ⟨rfl, rfl⟩

theorem readInto_cmd {read : Packet} (returns : mem.readInto pkt = some read) :
    read.cmd = pkt.cmd := by
  rw [readInto_eq (readable_of_readInto (by rw [returns]; rfl))] at returns
  rw [← Option.some.inj returns]

theorem trackLoadLocked_frame :
    (mem.trackLoadLocked pkt).start = mem.start ∧ (mem.trackLoadLocked pkt).last = mem.last := by
  unfold trackLoadLocked
  dsimp only
  split <;> exact ⟨rfl, rfl⟩

theorem swap_frame : Partial.Post (mem.swap pkt) (mem.Framed pkt) := by
  unfold swap
  refine (Partial.Post.returns _).bind fun _ _ => ?_
  refine (Partial.Post.returns _).bind fun found _ => ?_
  refine (Partial.Post.returns _).bind fun overwrites _ => ?_
  refine Partial.Post.guard fun _ => ?_
  refine Partial.Post.join (fun _ _ stored => hostWrite_frame stored)
    (fun _ => Partial.Post.of_some ⟨rfl, rfl⟩) ?_
  exact fun written range => Partial.Post.of_some ⟨rfl, range⟩

theorem perform_frame : Partial.Post (mem.perform pkt) (mem.Framed pkt) := by
  unfold perform
  refine Partial.Post.ite (fun _ => swap_frame) fun _ => ?_
  refine Partial.Post.ite (fun _ => ?_) fun _ => ?_
  · refine Partial.Post.guard fun _ => (Partial.Post.returns _).bind fun read data => ?_
    refine Partial.Post.of_some ⟨readInto_cmd data, ?_⟩
    split_ifs
    · exact trackLoadLocked_frame
    · exact ⟨rfl, rfl⟩
  refine Partial.Post.ite (fun _ => Partial.Post.of_some ⟨rfl, rfl, rfl⟩) fun _ => ?_
  refine Partial.Post.ite (fun _ => ?_) fun _ => Partial.Post.fail
  have answered : (mem.writeOK pkt).2.1.cmd = pkt.cmd := by
    unfold writeOK
    dsimp only
    split <;> rfl
  refine Partial.Post.ite (fun _ => ?_) fun _ => Partial.Post.of_some ⟨answered, rfl, rfl⟩
  refine (Partial.Post.returns _).bind fun _ _ => Partial.Post.guard fun _ => ?_
  refine (Partial.Post.returns _).bind fun written stored => ?_
  have range := hostWrite_frame stored
  exact Partial.Post.of_some ⟨answered, range⟩

theorem isResponse_responseCommand {cmd : MemCmd} (needs : cmd.needsResponse = true) :
    cmd.responseCommand.isResponse = true := by
  revert needs
  cases cmd <;> decide

theorem access_performed {result : Packet × AbstractMemory}
    (uninhibited : pkt.memInhibitAsserted = false) (returns : mem.access pkt = some result) :
    ∃ performed, mem.perform pkt = some performed ∧
      result = ({ performed.1 with
        cmd :=
          if performed.1.cmd.needsResponse then performed.1.cmd.responseCommand
          else performed.1.cmd }, performed.2) := by
  simp only [access, uninhibited, Bool.false_eq_true, if_false, Option.bind_eq_bind,
    Option.bind_eq_some_iff] at returns
  obtain ⟨_, _, performed, reached, returns⟩ := returns
  refine ⟨performed, reached, ?_⟩
  split_ifs at returns ⊢ with needs
  · obtain ⟨response, made, last⟩ := Option.bind_eq_some_iff.mp returns
    obtain rfl := Option.some.inj last
    unfold Packet.makeResponse at made
    split_ifs at made
    obtain rfl := Option.some.inj made
    rfl
  · exact (Option.some.inj returns).symm

theorem access_frame {result : Packet × AbstractMemory}
    (uninhibited : pkt.memInhibitAsserted = false) (returns : mem.access pkt = some result) :
    (result.2.start = mem.start ∧ result.2.last = mem.last) ∧
      (pkt.cmd.needsResponse = true → result.1.cmd.isResponse = true) := by
  obtain ⟨performed, reached, rfl⟩ := access_performed uninhibited returns
  obtain ⟨cmd, range⟩ := perform_frame performed reached
  refine ⟨range, fun needs => ?_⟩
  rw [cmd]
  simp only [needs, if_true]
  exact isResponse_responseCommand needs

end AbstractMemory

end LlvmGather
