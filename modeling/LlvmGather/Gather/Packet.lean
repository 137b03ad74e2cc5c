import LlvmGather.Gather.Request
import LlvmGather.Library.ByteStore

/-!
Commands and packets of `packet.hh` and `packet.cc`. A packet carries the address of its
own transfer beside the request it was made for, and the two may differ.
-/

namespace LlvmGather

abbrev Byte := BitVec 8

def GATHER_PATTERN_SHIFT : Nat := 61

def patternBits (addr : Addr) : Addr := addr >>> GATHER_PATTERN_SHIFT

theorem patternBits_eq_zero_iff (addr : Addr) : patternBits addr = 0 ↔ addr.toNat < 2 ^ 61 := by
  rw [← BitVec.toNat_inj, patternBits, BitVec.toNat_ushiftRight, Nat.shiftRight_eq_div_pow]
  simp [GATHER_PATTERN_SHIFT, Nat.div_eq_zero_iff]

theorem patternBits_or (first second : Addr) :
    patternBits (first ||| second) = patternBits first ||| patternBits second :=
  BitVec.ushiftRight_or_distrib _ _ _

inductive MemCmd
  | InvalidCmd
  | ReadReq
  | ReadResp
  | ReadRespWithInvalidate
  | WriteReq
  | WriteResp
  | Writeback
  | SoftPFReq
  | HardPFReq
  | SoftPFResp
  | HardPFResp
  | WriteInvalidateReq
  | WriteInvalidateResp
  | UpgradeReq
  | SCUpgradeReq
  | UpgradeResp
  | SCUpgradeFailReq
  | UpgradeFailResp
  | ReadExReq
  | ReadExResp
  | LoadLockedReq
  | StoreCondReq
  | StoreCondFailReq
  | StoreCondResp
  | SwapReq
  | SwapResp
  | MessageReq
  | MessageResp
  | InvalidDestError
  | BadAddressError
  | FunctionalReadError
  | FunctionalWriteError
  | PrintReq
  | FlushReq
  | InvalidationReq
deriving DecidableEq, Repr

namespace MemCmd

inductive Attribute
  | IsRead
  | IsWrite
  | IsUpgrade
  | IsInvalidate
  | NeedsExclusive
  | IsRequest
  | IsResponse
  | NeedsResponse
  | IsSWPrefetch
  | IsHWPrefetch
  | IsLlsc
  | HasData
  | IsError
  | IsPrint
  | IsFlush
deriving DecidableEq, Repr

open Attribute

def commandInfo : MemCmd → List Attribute × MemCmd
  | InvalidCmd => ([], InvalidCmd)
  | ReadReq => ([IsRead, IsRequest, NeedsResponse], ReadResp)
  | ReadResp => ([IsRead, IsResponse, HasData], InvalidCmd)
  | ReadRespWithInvalidate => ([IsRead, IsResponse, HasData, IsInvalidate], InvalidCmd)
  | WriteReq => ([IsWrite, NeedsExclusive, IsRequest, NeedsResponse, HasData], WriteResp)
  | WriteResp => ([IsWrite, NeedsExclusive, IsResponse], InvalidCmd)
  | Writeback => ([IsWrite, NeedsExclusive, IsRequest, HasData], InvalidCmd)
  | SoftPFReq => ([IsRead, IsRequest, IsSWPrefetch, NeedsResponse], SoftPFResp)
  | HardPFReq => ([IsRead, IsRequest, IsHWPrefetch, NeedsResponse], HardPFResp)
  | SoftPFResp => ([IsRead, IsResponse, IsSWPrefetch, HasData], InvalidCmd)
  | HardPFResp => ([IsRead, IsResponse, IsHWPrefetch, HasData], InvalidCmd)
  | WriteInvalidateReq =>
      ([IsWrite, NeedsExclusive, IsInvalidate, IsRequest, HasData, NeedsResponse],
        WriteInvalidateResp)
  | WriteInvalidateResp => ([IsWrite, NeedsExclusive, IsResponse], InvalidCmd)
  | UpgradeReq =>
      ([IsInvalidate, NeedsExclusive, IsUpgrade, IsRequest, NeedsResponse], UpgradeResp)
  | SCUpgradeReq =>
      ([IsInvalidate, NeedsExclusive, IsUpgrade, IsLlsc, IsRequest, NeedsResponse], UpgradeResp)
  | UpgradeResp => ([NeedsExclusive, IsUpgrade, IsResponse], InvalidCmd)
  | SCUpgradeFailReq =>
      ([IsRead, NeedsExclusive, IsInvalidate, IsLlsc, IsRequest, NeedsResponse], UpgradeFailResp)
  | UpgradeFailResp => ([IsRead, NeedsExclusive, IsResponse, HasData], InvalidCmd)
  | ReadExReq => ([IsRead, NeedsExclusive, IsInvalidate, IsRequest, NeedsResponse], ReadExResp)
  | ReadExResp => ([IsRead, NeedsExclusive, IsResponse, HasData], InvalidCmd)
  | LoadLockedReq => ([IsRead, IsLlsc, IsRequest, NeedsResponse], ReadResp)
  | StoreCondReq =>
      ([IsWrite, NeedsExclusive, IsLlsc, IsRequest, NeedsResponse, HasData], StoreCondResp)
  | StoreCondFailReq =>
      ([IsWrite, NeedsExclusive, IsLlsc, IsRequest, NeedsResponse, HasData], StoreCondResp)
  | StoreCondResp => ([IsWrite, NeedsExclusive, IsLlsc, IsResponse], InvalidCmd)
  | SwapReq => ([IsRead, IsWrite, NeedsExclusive, IsRequest, HasData, NeedsResponse], SwapResp)
  | SwapResp => ([IsRead, IsWrite, NeedsExclusive, IsResponse, HasData], InvalidCmd)
  | MessageReq => ([IsWrite, IsRequest, NeedsResponse, HasData], MessageResp)
  | MessageResp => ([IsWrite, IsResponse], InvalidCmd)
  | InvalidDestError => ([IsResponse, IsError], InvalidCmd)
  | BadAddressError => ([IsResponse, IsError], InvalidCmd)
  | FunctionalReadError => ([IsRead, IsResponse, IsError], InvalidCmd)
  | FunctionalWriteError => ([IsWrite, IsResponse, IsError], InvalidCmd)
  | PrintReq => ([IsRequest, IsPrint], InvalidCmd)
  | FlushReq => ([IsRequest, IsFlush, NeedsExclusive], InvalidCmd)
  | InvalidationReq => ([NeedsExclusive, IsInvalidate, IsRequest], InvalidCmd)

def testCmdAttrib (cmd : MemCmd) (attrib : Attribute) : Bool :=
  decide (attrib ∈ cmd.commandInfo.1)

def isRead (cmd : MemCmd) : Bool := cmd.testCmdAttrib IsRead
def isWrite (cmd : MemCmd) : Bool := cmd.testCmdAttrib IsWrite
def isUpgrade (cmd : MemCmd) : Bool := cmd.testCmdAttrib IsUpgrade
def isRequest (cmd : MemCmd) : Bool := cmd.testCmdAttrib IsRequest
def isResponse (cmd : MemCmd) : Bool := cmd.testCmdAttrib IsResponse
def needsExclusive (cmd : MemCmd) : Bool := cmd.testCmdAttrib NeedsExclusive
def needsResponse (cmd : MemCmd) : Bool := cmd.testCmdAttrib NeedsResponse
def isInvalidate (cmd : MemCmd) : Bool := cmd.testCmdAttrib IsInvalidate
def isWriteInvalidate (cmd : MemCmd) : Bool := cmd.isWrite && cmd.isInvalidate
def hasData (cmd : MemCmd) : Bool := cmd.testCmdAttrib HasData
def isLLSC (cmd : MemCmd) : Bool := cmd.testCmdAttrib IsLlsc
def isSWPrefetch (cmd : MemCmd) : Bool := cmd.testCmdAttrib IsSWPrefetch
def isPrefetch (cmd : MemCmd) : Bool := cmd.isSWPrefetch || cmd.testCmdAttrib IsHWPrefetch
def isError (cmd : MemCmd) : Bool := cmd.testCmdAttrib IsError

def responseCommand (cmd : MemCmd) : MemCmd := cmd.commandInfo.2

end MemCmd

/-- A packet. `senderState` is the address of the miss register that waits for the
response. -/
structure Packet where
  cmd : MemCmd
  req : Request
  addr : Addr
  size : Nat
  isSecure : Bool
  data : List Byte
  sharedAsserted : Bool
  isSupplyExclusive : Bool
  memInhibitAsserted : Bool
  senderState : Option Addr
deriving DecidableEq, Repr

namespace Packet

def new (req : Request) (cmd : MemCmd) : Packet where
  cmd := cmd
  req := req
  addr := req.paddr
  size := req.size
  isSecure := req.isSecure
  data := []
  sharedAsserted := false
  isSupplyExclusive := false
  memInhibitAsserted := false
  senderState := none

/-- The constructor for a whole block, whatever the extent of the request. -/
def newBlock (req : Request) (cmd : MemCmd) (blkSize : Nat) : Packet :=
  { new req cmd with addr := roundDown req.paddr blkSize, size := blkSize }

def clearFlags (pkt : Packet) : Packet :=
  { pkt with
    sharedAsserted := false
    isSupplyExclusive := false
    memInhibitAsserted := false }

/-- Fresh storage, of which nothing is read before it is written. -/
def allocate (pkt : Packet) : Packet := { pkt with data := List.replicate pkt.size 0 }

def makeReadCmd (req : Request) : MemCmd :=
  if req.isLLSC then .LoadLockedReq else if req.isPrefetch then .SoftPFReq else .ReadReq

def makeWriteCmd (req : Request) : MemCmd :=
  if req.isLLSC then .StoreCondReq else if req.isSwap then .SwapReq else .WriteReq

def createRead (req : Request) : Packet := (new req (makeReadCmd req)).allocate

def createWrite (req : Request) (data : List Byte) : Packet :=
  { new req (makeWriteCmd req) with data }

def getCacheAddr (pkt : Packet) : Addr :=
  pkt.addr ||| (pkt.req.getGatherPattern <<< GATHER_PATTERN_SHIFT)

def getOffset (pkt : Packet) (blkSize : Nat) : Nat :=
  (pkt.addr &&& (BitVec.ofNat 64 blkSize - 1)).toNat

def makeResponse (pkt : Packet) : Option Packet :=
  if pkt.cmd.needsResponse ∧ pkt.cmd.isRequest then
    some { pkt with cmd := pkt.cmd.responseCommand }
  else none

def assertMemInhibit (pkt : Packet) : Option Packet :=
  if pkt.cmd.isRequest ∧ ¬ pkt.memInhibitAsserted then
    some { pkt with memInhibitAsserted := true }
  else none

/-- `none` when the copy reads past the end of the source. -/
def setData (pkt : Packet) (source : List Byte) : Option Packet :=
  if pkt.size ≤ source.length then some { pkt with data := source.take pkt.size } else none

def setDataFromBlock (pkt : Packet) (blkData : Nat → Byte) (blkSize : Nat) : Option Packet :=
  if pkt.getOffset blkSize + pkt.size ≤ blkSize then
    some { pkt with data := ByteStore.read blkData (pkt.getOffset blkSize) pkt.size }
  else none

def writeData (pkt : Packet) : Option (List Byte) :=
  if pkt.size ≤ pkt.data.length then some (pkt.data.take pkt.size) else none

def writeDataToBlock (pkt : Packet) (blkData : Nat → Byte) (blkSize : Nat) :
    Option (Nat → Byte) :=
  pkt.writeData.map (ByteStore.write blkData (pkt.getOffset blkSize))

theorem getCacheAddr_plain {pkt : Packet} (plain : pkt.req.getGatherPattern = 0) :
    pkt.getCacheAddr = pkt.addr := by
  simp [getCacheAddr, plain]

theorem getOffset_eq (pkt : Packet) {bits : Nat} (bound : bits < 64) :
    pkt.getOffset (2 ^ bits) = pkt.addr.toNat % 2 ^ bits :=
  Mask.toNat_keep bound pkt.addr

theorem writeData_eq {pkt : Packet} (length : pkt.data.length = pkt.size) :
    pkt.writeData = some pkt.data := by
  rw [writeData, if_pos length.ge, ← length, List.take_length]

theorem setData_eq {pkt : Packet} {source : List Byte} (length : source.length = pkt.size) :
    pkt.setData source = some { pkt with data := source } := by
  rw [setData, if_pos length.ge, ← length, List.take_length]

end Packet

end LlvmGather
