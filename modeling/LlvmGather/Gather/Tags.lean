import LlvmGather.Gather.Packet

/-!
Cache blocks of `blk.hh` and the set-associative tag store of `base_set_assoc.hh`. The
order of the ways in a set, which the replacement policies permute, is left to whoever
picks the victim.
-/

namespace LlvmGather

/-- The sizes that the constructor accepts: powers of two, a block an `int` of bytes and the
number of sets an `unsigned`. -/
structure TagStore where
  blkBits : Nat
  setBits : Nat
  assoc : Nat
  blkAtLeast : 2 ≤ blkBits
  blkBound : blkBits < 31
  setBound : setBits < 32
  assocPos : 0 < assoc

namespace TagStore

variable (tags : TagStore)

def blkSize : Nat := 2 ^ tags.blkBits
def numSets : Nat := 2 ^ tags.setBits
def setShift : Nat := tags.blkBits
def setMask : Addr := BitVec.ofNat 64 tags.numSets - 1
def tagShift : Nat := tags.setShift + tags.setBits

def extractTag (addr : Addr) : Addr := addr >>> tags.tagShift
def extractSet (addr : Addr) : Nat := (addr >>> tags.setShift &&& tags.setMask).toNat
def blockAlign (addr : Addr) : Addr := roundDown addr tags.blkSize

def regenerateBlkAddr (tag : Addr) (set : Nat) : Addr :=
  (tag <<< tags.tagShift) ||| (BitVec.ofNat 64 set <<< tags.setShift)

theorem blkSize_pos : 0 < tags.blkSize := Nat.two_pow_pos _

theorem blkBits_lt_word : tags.blkBits < 32 := Nat.lt_succ_of_lt tags.blkBound

theorem regenerateBlkAddr_extract (addr : Addr) :
    tags.regenerateBlkAddr (tags.extractTag addr) (tags.extractSet addr) =
      tags.blockAlign addr := by
  have blkBound := tags.blkBound
  have setBound := tags.setBound
  have mask : tags.setMask = Mask.low 64 tags.setBits := rfl
  have align : BitVec.ofNat 64 tags.blkSize - 1 = Mask.low 64 tags.blkBits := rfl
  rw [regenerateBlkAddr, extractTag, extractSet, blockAlign, roundDown, BitVec.ofNat_toNat,
    BitVec.setWidth_eq, mask, align]
  apply BitVec.eq_of_getLsbD_eq
  intro index inside
  simp only [BitVec.getLsbD_or, BitVec.getLsbD_and, BitVec.getLsbD_not, BitVec.getLsbD_shiftLeft,
    BitVec.getLsbD_ushiftRight, tagShift, setShift, inside, decide_true, Bool.true_and]
  rw [Mask.getLsbD_low (by omega), Mask.getLsbD_low (by omega)]
  rcases Nat.lt_or_ge index tags.blkBits with offset | above
  · simp [offset, Nat.lt_of_lt_of_le offset (Nat.le_add_right _ tags.setBits)]
  · have back : tags.blkBits + (index - tags.blkBits) = index := by omega
    rcases Nat.lt_or_ge index (tags.blkBits + tags.setBits) with inSet | inTag
    · have small : index - tags.blkBits < tags.setBits := by omega
      simp [Nat.not_lt.mpr above, inSet, small, back]
    · have large : ¬ index - tags.blkBits < tags.setBits := by omega
      have tagBack : tags.blkBits + tags.setBits + (index - (tags.blkBits + tags.setBits)) =
          index := by omega
      simp [Nat.not_lt.mpr above, Nat.not_lt.mpr inTag, large, tagBack]

theorem toNat_blockAlign (addr : Addr) :
    (tags.blockAlign addr).toNat = addr.toNat / tags.blkSize * tags.blkSize :=
  toNat_roundDown addr (Nat.lt_trans tags.blkBound (by decide))

theorem blockAlign_bound (addr : Addr) :
    (tags.blockAlign addr).toNat + tags.blkSize ≤ 2 ^ 64 := by
  have whole : tags.blkSize ∣ 2 ^ 64 := pow_dvd_pow 2 (by have := tags.blkBound; omega)
  obtain ⟨count, total⟩ := whole
  have index : addr.toNat / tags.blkSize < count := by
    apply Nat.div_lt_of_lt_mul
    rw [← total]
    exact addr.isLt
  rw [tags.toNat_blockAlign, ← Nat.succ_mul, total, Nat.mul_comm]
  exact Nat.mul_le_mul_left _ index

theorem getLsbD_blockAlign (addr : Addr) (index : Nat) :
    (tags.blockAlign addr).getLsbD index =
      (decide (tags.blkBits ≤ index) && addr.getLsbD index) := by
  have align : BitVec.ofNat 64 tags.blkSize - 1 = Mask.low 64 tags.blkBits := rfl
  rw [blockAlign, roundDown, align, BitVec.getLsbD_and, BitVec.getLsbD_not,
    Mask.getLsbD_low (Nat.lt_trans tags.blkBound (by decide))]
  rcases Nat.lt_or_ge index 64 with inside | outside
  · rcases Nat.lt_or_ge index tags.blkBits with low | high
    · simp [inside, low, Nat.not_le.mpr low]
    · simp [inside, high, Nat.not_lt.mpr high]
  · simp [BitVec.getLsbD_of_ge _ _ outside]

theorem extractTag_blockAlign (addr : Addr) :
    tags.extractTag (tags.blockAlign addr) = tags.extractTag addr := by
  apply BitVec.eq_of_getLsbD_eq
  intro index _
  have above : tags.blkBits ≤ tags.blkBits + tags.setBits + index := by omega
  simp [extractTag, tagShift, setShift, getLsbD_blockAlign, above]

theorem extractSet_blockAlign (addr : Addr) :
    tags.extractSet (tags.blockAlign addr) = tags.extractSet addr := by
  have shifted : tags.blockAlign addr >>> tags.setShift = addr >>> tags.setShift := by
    apply BitVec.eq_of_getLsbD_eq
    intro index _
    simp [setShift, getLsbD_blockAlign]
  rw [extractSet, extractSet, shifted]

theorem patternBits_blockAlign (addr : Addr) :
    patternBits (tags.blockAlign addr) = patternBits addr := by
  apply BitVec.eq_of_getLsbD_eq
  intro index _
  have above : tags.blkBits ≤ 61 + index := by
    have := tags.blkBound
    omega
  simp [patternBits, GATHER_PATTERN_SHIFT, getLsbD_blockAlign, above]

end TagStore

structure Lock where
  contextId : Nat
  lowAddr : Addr
  highAddr : Addr
deriving DecidableEq, Repr

namespace Lock

def new (req : Request) : Lock where
  contextId := req.contextId
  lowAddr := req.paddr
  highAddr := req.paddr + BitVec.ofNat 64 req.size - 1

def matchesContext (lock : Lock) (req : Request) : Bool :=
  let reqHigh := req.paddr + BitVec.ofNat 64 req.size - 1
  decide (lock.contextId = req.contextId ∧ req.paddr ≥ lock.lowAddr ∧ reqHigh ≤ lock.highAddr)

def overlapping (lock : Lock) (req : Request) : Bool :=
  let reqHigh := req.paddr + BitVec.ofNat 64 req.size - 1
  decide (req.paddr ≤ lock.highAddr ∧ reqHigh ≥ lock.lowAddr)

end Lock

structure CacheBlk where
  tag : Addr
  set : Nat
  isValid : Bool
  writable : Bool
  readable : Bool
  isDirty : Bool
  isSecure : Bool
  data : Nat → Byte
  lockList : List Lock

namespace CacheBlk

def empty (set way : Nat) : CacheBlk where
  tag := BitVec.ofNat 64 way
  set := set
  isValid := false
  writable := false
  readable := false
  isDirty := false
  isSecure := false
  data := fun _ => 0
  lockList := []

def isWritable (blk : CacheBlk) : Bool := blk.writable && blk.isValid
def isReadable (blk : CacheBlk) : Bool := blk.readable && blk.isValid

def clearLoadLocks (blk : CacheBlk) (req : Request) : CacheBlk :=
  { blk with lockList := blk.lockList.filter fun lock => !lock.overlapping req }

def invalidate (blk : CacheBlk) : CacheBlk :=
  { blk with
    isValid := false
    writable := false
    readable := false
    isDirty := false
    isSecure := false
    lockList := [] }

@[simps]
def cleaned (blk : CacheBlk) : CacheBlk := { blk with isDirty := false }

def trackLoadLocked (blk : CacheBlk) (req : Request) : CacheBlk :=
  { blk with lockList := Lock.new req :: blk.lockList }

def checkWrite (blk : CacheBlk) (pkt : Packet) : Bool × Packet × CacheBlk :=
  let cleared := blk.clearLoadLocks pkt.req
  if pkt.cmd.isLLSC then
    let success := blk.lockList.any fun lock => lock.matchesContext pkt.req
    (success, { pkt with req := { pkt.req with extraData := if success then 1 else 0 } }, cleared)
  else (true, pkt, cleared)

end CacheBlk

abbrev Ways := Nat → Nat → CacheBlk

def Ways.put (ways : Ways) (set way : Nat) (blk : CacheBlk) : Ways :=
  Function.update ways set (Function.update (ways set) way blk)

namespace TagStore

variable (tags : TagStore)

def holds (blk : CacheBlk) (addr : Addr) (isSecure : Bool) : Bool :=
  decide (blk.tag = tags.extractTag addr) && blk.isValid && blk.isSecure == isSecure

def findBlock (ways : Ways) (addr : Addr) (isSecure : Bool) : Option Nat :=
  (List.range tags.assoc).find? fun way => tags.holds (ways (tags.extractSet addr) way) addr isSecure

theorem holds_of_findBlock {ways : Ways} {addr : Addr} {isSecure : Bool} {way : Nat}
    (found : tags.findBlock ways addr isSecure = some way) :
    way < tags.assoc ∧ tags.holds (ways (tags.extractSet addr) way) addr isSecure = true := by
  rw [findBlock] at found
  have agrees := List.find?_some found
  exact ⟨List.mem_range.mp (List.mem_of_find?_eq_some found), agrees⟩

theorem not_holds_of_findBlock {ways : Ways} {addr : Addr} {isSecure : Bool}
    (missed : tags.findBlock ways addr isSecure = none) {way : Nat} (inside : way < tags.assoc) :
    ¬ tags.holds (ways (tags.extractSet addr) way) addr isSecure = true :=
  List.find?_eq_none.mp missed way (List.mem_range.mpr inside)

def blkAddr (blk : CacheBlk) : Addr := tags.regenerateBlkAddr blk.tag blk.set

theorem blkAddr_eq {blk : CacheBlk} {addr : Addr} (tag : blk.tag = tags.extractTag addr)
    (set : blk.set = tags.extractSet addr) : tags.blkAddr blk = tags.blockAlign addr := by
  rw [blkAddr, tag, set, regenerateBlkAddr_extract]

def insertBlock (blk : CacheBlk) (pkt : Packet) : CacheBlk :=
  let cleared := if blk.isValid then blk.invalidate else blk
  { cleared with tag := tags.extractTag pkt.getCacheAddr }

end TagStore

end LlvmGather
