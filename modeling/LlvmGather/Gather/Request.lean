import LlvmGather.Library.Mask

/-!
Memory requests of `request.hh`, with the pattern of a gather in the low bits of the
virtual address it is made with.
-/

namespace LlvmGather

abbrev Addr := BitVec 64

/-- The sizes are `unsigned`, 32 bits wide. -/
structure Request where
  vaddr : Addr
  paddr : Addr
  size : Nat
  flags : BitVec 32
  gatherPattern : Addr
  extraData : BitVec 64
  contextId : Nat
deriving DecidableEq, Repr

namespace Request

def INST_FETCH : BitVec 32 := 0x00000100
def UNCACHEABLE : BitVec 32 := 0x00001000
def CLEAR_LL : BitVec 32 := 0x00004000
def LLSC : BitVec 32 := 0x00200000
def MEM_SWAP : BitVec 32 := 0x00400000
def MEM_SWAP_COND : BitVec 32 := 0x00800000
def PREFETCH : BitVec 32 := 0x01000000
def SECURE : BitVec 32 := 0x10000000
def GATHER : BitVec 32 := 0x40000000
def STICKY_FLAGS : BitVec 32 := INST_FETCH

def isSet (flags flag : BitVec 32) : Bool := decide (flags &&& flag ≠ 0)

def isInstFetch (req : Request) : Bool := isSet req.flags INST_FETCH
def isUncacheable (req : Request) : Bool := isSet req.flags UNCACHEABLE
def isClearLL (req : Request) : Bool := isSet req.flags CLEAR_LL
def isLLSC (req : Request) : Bool := isSet req.flags LLSC
def isSwap (req : Request) : Bool := isSet req.flags (MEM_SWAP ||| MEM_SWAP_COND)
def isCondSwap (req : Request) : Bool := isSet req.flags MEM_SWAP_COND
def isPrefetch (req : Request) : Bool := isSet req.flags PREFETCH
def isSecure (req : Request) : Bool := isSet req.flags SECURE
def isGather (req : Request) : Bool := isSet req.flags GATHER

def getGatherPattern (req : Request) : Addr := if req.isGather then req.gatherPattern else 0

def fresh : Request where
  vaddr := 0
  paddr := 0
  size := 0
  flags := 0
  gatherPattern := 0
  extraData := 0
  contextId := 0

def ofPhys (paddr : Addr) (size : Nat) (flags : BitVec 32) : Request :=
  { fresh with paddr, size, flags }

/-- Reuses a request object; only the sticky flags of its last use remain. -/
def setVirt (req : Request) (vaddr : Addr) (size : Nat) (flags : BitVec 32) : Request :=
  let flags := (req.flags &&& STICKY_FLAGS) ||| flags
  let set := { req with vaddr, size, flags }
  if set.isGather then { set with gatherPattern := vaddr &&& 7, vaddr := vaddr &&& ~~~ 7 } else set

/-- `none` when an assertion fails. -/
def splitOnVaddr (req : Request) (splitAddr : Addr) : Option (Request × Request) :=
  if splitAddr > req.vaddr ∧ splitAddr < req.vaddr + BitVec.ofNat 64 req.size then
    let firstSize := (splitAddr - req.vaddr).toNat % 2 ^ 32
    some ({ req with size := firstSize },
      { req with vaddr := splitAddr, size := (req.size + 2 ^ 32 - firstSize) % 2 ^ 32 })
  else none

end Request

theorem toNat_advance {addr : Addr} {bytes : Nat} (bound : addr.toNat + bytes < 2 ^ 64) :
    (addr + BitVec.ofNat 64 bytes).toNat = addr.toNat + bytes := by
  rw [BitVec.toNat_add, BitVec.toNat_ofNat]
  omega

theorem toNat_last {addr : Addr} {size : Nat} (nonempty : 0 < size)
    (bound : addr.toNat + size ≤ 2 ^ 64) :
    (addr + BitVec.ofNat 64 size - 1).toNat = addr.toNat + size - 1 := by
  have one : (1 : Addr).toNat = 1 := rfl
  rw [BitVec.toNat_sub, BitVec.toNat_add, BitVec.toNat_ofNat, one]
  omega

def roundDown (val : Addr) (align : Nat) : Addr := val &&& ~~~ (BitVec.ofNat 64 align - 1)

theorem toNat_roundDown (val : Addr) {bits : Nat} (bound : bits < 64) :
    (roundDown val (2 ^ bits)).toNat = val.toNat / 2 ^ bits * 2 ^ bits :=
  Mask.toNat_clear bound val

theorem Request.isSet_or_right (others : BitVec 32) {flags flag : BitVec 32}
    (set : Request.isSet flags flag = true) : Request.isSet (others ||| flags) flag = true := by
  simp only [Request.isSet, decide_eq_true_eq] at set ⊢
  rw [BitVec.and_or_distrib_right]
  intro none
  exact set (BitVec.or_eq_zero_iff.mp none).2

theorem Request.setVirt_gather (req : Request) (vaddr : Addr) (size : Nat) {flags : BitVec 32}
    (gather : Request.isSet flags GATHER = true) :
    (req.setVirt vaddr size flags).vaddr = vaddr &&& ~~~ 7 ∧
      (req.setVirt vaddr size flags).size = size ∧
      (req.setVirt vaddr size flags).getGatherPattern = vaddr &&& 7 := by
  have stays := Request.isSet_or_right (req.flags &&& STICKY_FLAGS) gather
  simp [Request.setVirt, Request.getGatherPattern, Request.isGather, stays]

end LlvmGather
