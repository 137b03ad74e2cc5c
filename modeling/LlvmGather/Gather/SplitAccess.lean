import LlvmGather.Gather.Cpu
import LlvmGather.Gather.Flush

/-!
Loads and stores of the atomic CPU that cross a cache line go to the cache in two parts, each
translated by itself. Through the cache they read and write the bytes of a memory without
caches or lines.
-/

namespace LlvmGather

namespace AtomicSimpleCPU

def writeLines (faults : Request → Bool) (secondAddr : Addr) (fullSize : Nat)
    (flags : BitVec 32) :
    Nat → Request → Addr → Nat → List Byte → Option (List (Access × List Byte))
  | 0, _, _, _, _ => none
  | fuel + 1, old, addr, size, data =>
      let req := old.setVirt addr size flags
      if faults req then some [(req.access, data.take size)]
      else if secondAddr ≤ addr then some [(req.access, data.take size)]
      else
        let rest := (addr + BitVec.ofNat 64 fullSize - secondAddr).toNat % 2 ^ 32
        (writeLines faults secondAddr fullSize flags fuel req secondAddr rest
          (data.drop size)).map ((req.access, data.take size) :: ·)

def writeMem (faults : Request → Bool) (cacheLineSize fuel : Nat) (dataWriteReq : Request)
    (data : List Byte) (size : Nat) (addr : Addr) (flags : BitVec 32) :
    Option (List (Access × List Byte)) :=
  let secondAddr := roundDown (addr + BitVec.ofNat 64 size - 1) cacheLineSize
  let firstSize := if secondAddr > addr then (secondAddr - addr).toNat % 2 ^ 32 else size
  writeLines faults secondAddr size flags fuel dataWriteReq addr firstSize data

end AtomicSimpleCPU

section Splitting

variable {bits : Nat} {addr : Addr} {size : Nat}

theorem toNat_secondAddr (bound : bits < 32) (nonempty : 0 < size) (short : size ≤ 2 ^ bits)
    (fits : addr.toNat + size ≤ 2 ^ 63) :
    (roundDown (addr + BitVec.ofNat 64 size - 1) (2 ^ bits)).toNat =
      if addr.toNat % 2 ^ bits + size ≤ 2 ^ bits then addr.toNat - addr.toNat % 2 ^ bits
      else addr.toNat + (2 ^ bits - addr.toNat % 2 ^ bits) := by
  have positive : 0 < 2 ^ bits := Nat.two_pow_pos bits
  have below := Nat.mod_lt addr.toNat positive
  have split := Nat.div_add_mod addr.toNat (2 ^ bits)
  rw [toNat_roundDown _ (by omega), toNat_last nonempty (by omega)]
  generalize 2 ^ bits = line at *
  by_cases inside : addr.toNat % line + size ≤ line
  · have same : (addr.toNat + size - 1) / line = addr.toNat / line := by
      apply Nat.div_eq_of_lt_le
      · rw [Nat.mul_comm]
        omega
      · rw [Nat.add_mul, Nat.mul_comm]
        omega
    rw [if_pos inside, same, Nat.mul_comm]
    omega
  · have next : (addr.toNat + size - 1) / line = addr.toNat / line + 1 := by
      apply Nat.div_eq_of_lt_le
      · rw [Nat.add_mul, Nat.mul_comm]
        omega
      · rw [Nat.add_mul, Nat.add_mul, Nat.mul_comm]
        omega
    rw [if_neg inside, next, Nat.add_mul, Nat.mul_comm]
    omega

def cuts (bits : Nat) (addr : Addr) (size : Nat) : List (Nat × Nat) :=
  if addr.toNat % 2 ^ bits + size ≤ 2 ^ bits then [(0, size)]
  else
    [(0, 2 ^ bits - addr.toNat % 2 ^ bits),
      (2 ^ bits - addr.toNat % 2 ^ bits, size - (2 ^ bits - addr.toNat % 2 ^ bits))]

theorem setVirt_plain {old : Request} (plain : old.flags = 0) (addr : Addr) (size : Nat) :
    (old.setVirt addr size 0).access = ⟨addr, size, 0⟩ ∧ (old.setVirt addr size 0).flags = 0 := by
  have noFlags : old.flags &&& Request.STICKY_FLAGS ||| 0 = 0 := by
    rw [plain]
    decide
  have notGather : Request.isSet 0 Request.GATHER = false := by decide
  have unchanged : old.setVirt addr size 0 = { old with vaddr := addr, size, flags := 0 } := by
    simp only [Request.setVirt, Request.isGather, noFlags, notGather, Bool.false_eq_true, if_false]
  rw [unchanged]
  simp only [Request.access, Request.getGatherPattern, Request.isGather, notGather,
    Bool.false_eq_true, if_false, and_self]

section Loops

variable {old : Request} {secondAddr : Addr} {fullSize : Nat} {data : List Byte}

theorem writeLines_last (fuel : Nat) (plain : old.flags = 0) (last : secondAddr ≤ addr) :
    AtomicSimpleCPU.writeLines (fun _ => false) secondAddr fullSize 0 (fuel + 1) old addr size
      data = some [(⟨addr, size, 0⟩, data.take size)] := by
  rw [AtomicSimpleCPU.writeLines]
  simp only [Bool.false_eq_true, if_false, if_pos last, (setVirt_plain plain addr size).1]

theorem writeLines_two (plain : old.flags = 0) (crosses : ¬ secondAddr ≤ addr) :
    AtomicSimpleCPU.writeLines (fun _ => false) secondAddr fullSize 0 2 old addr size data =
      some [(⟨addr, size, 0⟩, data.take size), (⟨secondAddr,
        (addr + BitVec.ofNat 64 fullSize - secondAddr).toNat % 2 ^ 32, 0⟩,
        (data.drop size).take
          ((addr + BitVec.ofNat 64 fullSize - secondAddr).toNat % 2 ^ 32))] := by
  obtain ⟨access, stillPlain⟩ := setVirt_plain plain addr size
  rw [AtomicSimpleCPU.writeLines]
  simp only [Bool.false_eq_true, if_false, if_neg crosses, access]
  rw [writeLines_last 0 stillPlain (BitVec.le_refl secondAddr)]
  rfl

theorem readLines_writeLines (faults : Request → Bool) (flags : BitVec 32) (fuel : Nat)
    (old : Request) (addr : Addr) (size : Nat) (data : List Byte) :
    AtomicSimpleCPU.readLines faults secondAddr fullSize flags fuel old addr size =
      (AtomicSimpleCPU.writeLines faults secondAddr fullSize flags fuel old addr size data).map
        (·.map Prod.fst) := by
  induction fuel generalizing old addr size data with
  | zero => rfl
  | succ fuel ih =>
      rw [AtomicSimpleCPU.readLines, AtomicSimpleCPU.writeLines]
      simp only
      split
      · rfl
      · split
        · rfl
        · rw [ih _ _ _ (data.drop size), Option.map_map, Option.map_map]
          rfl

theorem readMem_writeMem (faults : Request → Bool) (cacheLineSize fuel : Nat) (req : Request)
    (addr : Addr) (size : Nat) (flags : BitVec 32) (data : List Byte) :
    AtomicSimpleCPU.readMem faults cacheLineSize fuel req addr size flags =
      (AtomicSimpleCPU.writeMem faults cacheLineSize fuel req data size addr flags).map
        (·.map Prod.fst) :=
  readLines_writeLines faults flags fuel req addr _ data

end Loops

variable (bound : bits < 32) (nonempty : 0 < size) (short : size ≤ 2 ^ bits)
  (fits : addr.toNat + size ≤ 2 ^ 63)
include bound nonempty short fits

theorem secondAddr_crossing (crosses : ¬ addr.toNat % 2 ^ bits + size ≤ 2 ^ bits) :
    roundDown (addr + BitVec.ofNat 64 size - 1) (2 ^ bits) =
        addr + BitVec.ofNat 64 (2 ^ bits - addr.toNat % 2 ^ bits) ∧
      (addr + BitVec.ofNat 64 (2 ^ bits - addr.toNat % 2 ^ bits)).toNat =
        addr.toNat + (2 ^ bits - addr.toNat % 2 ^ bits) := by
  have below := Nat.mod_lt addr.toNat (Nat.two_pow_pos bits)
  have advance : (addr + BitVec.ofNat 64 (2 ^ bits - addr.toNat % 2 ^ bits)).toNat =
      addr.toNat + (2 ^ bits - addr.toNat % 2 ^ bits) := toNat_advance (by omega)
  refine ⟨BitVec.eq_of_toNat_eq ?_, advance⟩
  rw [toNat_secondAddr bound nonempty short fits, if_neg crosses, advance]

theorem cuts_inside {cut : Nat × Nat} (member : cut ∈ cuts bits addr size) :
    0 < cut.2 ∧ cut.1 + cut.2 ≤ size ∧
      (addr + BitVec.ofNat 64 cut.1).toNat % 2 ^ bits + cut.2 ≤ 2 ^ bits := by
  have below := Nat.mod_lt addr.toNat (Nat.two_pow_pos bits)
  rw [cuts] at member
  split at member
  next inside =>
    obtain rfl := List.mem_singleton.mp member
    refine ⟨nonempty, by simp, ?_⟩
    simpa using inside
  next crosses =>
    obtain ⟨-, advance⟩ := secondAddr_crossing bound nonempty short fits crosses
    rcases List.mem_cons.mp member with rfl | later
    · refine ⟨by simp; omega, by simp; omega, ?_⟩
      simp
      omega
    · obtain rfl := List.mem_singleton.mp later
      refine ⟨by simp; omega, by simp; omega, ?_⟩
      have atLine : (addr.toNat + (2 ^ bits - addr.toNat % 2 ^ bits)) % 2 ^ bits = 0 := by
        have split := Nat.div_add_mod addr.toNat (2 ^ bits)
        have whole : addr.toNat + (2 ^ bits - addr.toNat % 2 ^ bits) =
            2 ^ bits * (addr.toNat / 2 ^ bits + 1) := by
          rw [Nat.mul_succ]
          omega
        rw [whole, Nat.mul_mod_right]
      simp only [advance, atLine]
      omega

theorem writeMem_cuts (data : List Byte) : AtomicSimpleCPU.writeMem (fun _ => false) (2 ^ bits) 2
    Request.fresh data size addr 0 = some ((cuts bits addr size).map fun cut =>
      (⟨addr + BitVec.ofNat 64 cut.1, cut.2, 0⟩, (data.drop cut.1).take cut.2)) := by
  have below := Nat.mod_lt addr.toNat (Nat.two_pow_pos bits)
  have narrow : 2 ^ bits < 2 ^ 32 := Nat.pow_lt_pow_right (by omega) bound
  by_cases inside : addr.toNat % 2 ^ bits + size ≤ 2 ^ bits
  · have second := toNat_secondAddr bound nonempty short fits
    rw [if_pos inside] at second
    have last : roundDown (addr + BitVec.ofNat 64 size - 1) (2 ^ bits) ≤ addr := by
      rw [BitVec.le_def, second]
      omega
    rw [cuts, if_pos inside, AtomicSimpleCPU.writeMem]
    simp only [gt_iff_lt, if_neg (BitVec.not_lt.mpr last)]
    rw [writeLines_last 1 rfl last]
    simp
  · obtain ⟨start, advance⟩ := secondAddr_crossing bound nonempty short fits inside
    have crosses : ¬ addr + BitVec.ofNat 64 (2 ^ bits - addr.toNat % 2 ^ bits) ≤ addr := by
      rw [BitVec.le_def, advance]
      omega
    have firstSize : (addr + BitVec.ofNat 64 (2 ^ bits - addr.toNat % 2 ^ bits) - addr).toNat %
        2 ^ 32 = 2 ^ bits - addr.toNat % 2 ^ bits := by
      rw [BitVec.toNat_sub_of_le (BitVec.le_of_lt (BitVec.not_le.mp crosses)), advance]
      omega
    have restSize : (addr + BitVec.ofNat 64 size -
        (addr + BitVec.ofNat 64 (2 ^ bits - addr.toNat % 2 ^ bits))).toNat % 2 ^ 32 =
        size - (2 ^ bits - addr.toNat % 2 ^ bits) := by
      have total : (addr + BitVec.ofNat 64 size).toNat = addr.toNat + size :=
        toNat_advance (by omega)
      have order : addr + BitVec.ofNat 64 (2 ^ bits - addr.toNat % 2 ^ bits) ≤
          addr + BitVec.ofNat 64 size := by
        rw [BitVec.le_def, advance, total]
        omega
      rw [BitVec.toNat_sub_of_le order, advance, total]
      omega
    rw [cuts, if_neg inside, AtomicSimpleCPU.writeMem]
    simp only [start, gt_iff_lt, if_pos (BitVec.not_le.mp crosses), firstSize]
    rw [writeLines_two rfl crosses, restSize]
    simp

end Splitting

section Bytes

variable (translate : Addr → Addr)

def loadBytes (store : Nat → Byte) : Addr → Nat → List Byte
  | _, 0 => []
  | addr, size + 1 => store (translate addr).toNat :: loadBytes store (addr + 1) size

def storeBytes : Addr → List Byte → (Nat → Byte) → Nat → Byte
  | _, [], store => store
  | addr, byte :: rest, store =>
      storeBytes (addr + 1) rest (Function.update store (translate addr).toNat byte)

/-- The translation moves whole lines. -/
structure KeepsLines (bits : Nat) : Prop where
  offset : ∀ addr : Addr, (translate addr).toNat % 2 ^ bits = addr.toNat % 2 ^ bits
  next : ∀ addr : Addr, addr.toNat % 2 ^ bits + 1 < 2 ^ bits →
    (translate (addr + 1)).toNat = (translate addr).toNat + 1

variable {translate} {bits : Nat} {addr : Addr} {size : Nat}

theorem advance_succ (addr : Addr) (count : Nat) :
    addr + 1 + BitVec.ofNat 64 count = addr + BitVec.ofNat 64 (count + 1) := by
  rw [BitVec.ofNat_add]
  bv_omega

theorem loadBytes_append (store : Nat → Byte) (addr : Addr) (first second : Nat) :
    loadBytes translate store addr (first + second) =
      loadBytes translate store addr first ++
        loadBytes translate store (addr + BitVec.ofNat 64 first) second := by
  induction first generalizing addr with
  | zero => simp [loadBytes]
  | succ first ih =>
      rw [Nat.succ_add, loadBytes, loadBytes, ih, advance_succ, List.cons_append]

theorem storeBytes_append (addr : Addr) (first second : List Byte) (store : Nat → Byte) :
    storeBytes translate addr (first ++ second) store =
      storeBytes translate (addr + BitVec.ofNat 64 first.length) second
        (storeBytes translate addr first store) := by
  induction first generalizing addr store with
  | nil => simp [storeBytes]
  | cons byte rest ih =>
      rw [List.cons_append, storeBytes, storeBytes, ih, advance_succ, List.length_cons]

theorem loadBytes_cuts (bits : Nat) (store : Nat → Byte) (addr : Addr) (size : Nat) :
    ((cuts bits addr size).map fun cut =>
      loadBytes translate store (addr + BitVec.ofNat 64 cut.1) cut.2).flatten =
      loadBytes translate store addr size := by
  rw [cuts]
  split
  next => simp
  next crosses =>
    generalize reach : 2 ^ bits - addr.toNat % 2 ^ bits = first
    have total : size = first + (size - first) := by omega
    conv => rhs; rw [total, loadBytes_append]
    simp

theorem storeBytes_cuts (bits : Nat) (addr : Addr) (data : List Byte) (store : Nat → Byte) :
    (cuts bits addr data.length).foldl (fun store cut =>
      storeBytes translate (addr + BitVec.ofNat 64 cut.1) ((data.drop cut.1).take cut.2) store)
      store = storeBytes translate addr data store := by
  rw [cuts]
  split
  next => simp
  next crosses =>
    generalize reach : 2 ^ bits - addr.toNat % 2 ^ bits = first
    have firstLength : (data.take first).length = first := by
      rw [List.length_take]
      omega
    have remaining : (data.drop first).take (data.length - first) = data.drop first :=
      List.take_of_length_le (List.length_drop ..).le
    conv => rhs; rw [← List.take_append_drop first data, storeBytes_append, firstLength]
    simp [remaining]

theorem line_next (inside : addr.toNat % 2 ^ bits + 1 < 2 ^ bits)
    (fits : addr.toNat + 1 < 2 ^ 64) :
    (addr + 1).toNat = addr.toNat + 1 ∧
      (addr + 1).toNat % 2 ^ bits = addr.toNat % 2 ^ bits + 1 := by
  have advance : (addr + 1).toNat = addr.toNat + 1 := toNat_advance fits
  have one : 1 % 2 ^ bits = 1 := Nat.mod_eq_of_lt (by omega)
  refine ⟨advance, ?_⟩
  rw [advance, Nat.add_mod_of_add_mod_lt (by rwa [one]), one]

theorem loadBytes_line (keeps : KeepsLines translate bits) (store : Nat → Byte)
    (inside : addr.toNat % 2 ^ bits + size ≤ 2 ^ bits) (fits : addr.toNat + size ≤ 2 ^ 63) :
    loadBytes translate store addr size = ByteStore.read store (translate addr).toNat size := by
  induction size generalizing addr with
  | zero => rfl
  | succ size ih =>
      rw [loadBytes, Nat.add_comm size 1, ByteStore.read_append]
      have head : ByteStore.read store (translate addr).toNat 1 =
          [store (translate addr).toNat] := by
        simp [ByteStore.read]
      rw [head, List.singleton_append]
      cases size with
      | zero => rfl
      | succ size =>
          have before : addr.toNat % 2 ^ bits + 1 < 2 ^ bits := by omega
          obtain ⟨advance, place⟩ := line_next before (by omega)
          rw [ih (by omega) (by omega), keeps.next addr before]

theorem storeBytes_line (keeps : KeepsLines translate bits) {data : List Byte}
    (store : Nat → Byte) (inside : addr.toNat % 2 ^ bits + data.length ≤ 2 ^ bits)
    (fits : addr.toNat + data.length ≤ 2 ^ 63) :
    storeBytes translate addr data store = ByteStore.write store (translate addr).toNat data := by
  induction data generalizing addr store with
  | nil => exact (ByteStore.write_unchanged (by simp)).symm
  | cons byte rest ih =>
      rw [List.length_cons] at inside fits
      rw [storeBytes, ByteStore.write_cons]
      cases rest with
      | nil =>
          rw [storeBytes]
          exact (ByteStore.write_unchanged (by simp)).symm
      | cons second rest =>
          rw [List.length_cons] at inside fits
          have before : addr.toNat % 2 ^ bits + 1 < 2 ^ bits := by omega
          obtain ⟨advance, place⟩ := line_next before (by omega)
          rw [ih _ (by rw [List.length_cons]; omega) (by rw [List.length_cons]; omega),
            keeps.next addr before]

end Bytes

inductive CpuOp
  | load (addr : Addr) (size : Nat)
  | store (addr : Addr) (data : List Byte)

namespace CpuOp

variable (params : CacheParams) (translate : Addr → Addr)

def request (access : Access) : Request :=
  { Request.fresh with
    vaddr := access.addr
    paddr := translate access.addr
    size := access.size }

def accesses : CpuOp → Option (List CpuAccess)
  | load addr size =>
      (AtomicSimpleCPU.readMem (fun _ => false) params.blkSize 2 Request.fresh addr size 0).map
        (·.map fun access => .read (request translate access))
  | store addr data =>
      (AtomicSimpleCPU.writeMem (fun _ => false) params.blkSize 2 Request.fresh data data.length
        addr 0).map (·.map fun part => .write (request translate part.1) part.2)

def step (state : Blocks × AbstractMemory) (op : CpuOp × (Nat → Nat)) :
    Option ((Blocks × AbstractMemory) × List (List Byte)) := do
  let accesses ← op.1.accesses params translate
  let (state, outputs) ← Machine.run (Cache.step params) state
    (accesses.zipIdx.map fun access => .access access.1 (op.2 access.2))
  return (state, [outputs.flatten])

def addr : CpuOp → Addr
  | load addr _ => addr
  | store addr _ => addr

def size : CpuOp → Nat
  | load _ size => size
  | store _ data => data.length

def flat (store : Nat → Byte) : CpuOp → List Byte × (Nat → Byte)
  | load addr size => (loadBytes translate store addr size, store)
  | .store addr data => ([], storeBytes translate addr data store)

def runBytes : List CpuOp → (Nat → Byte) → List (List Byte) × (Nat → Byte)
  | [], bytes => ([], bytes)
  | op :: rest, bytes =>
      let (output, next) := op.flat translate bytes
      let (later, final) := runBytes rest next
      (output :: later, final)

/-- The operation is not longer than a line, and its bytes are in the memory. -/
structure Proper (mem : AbstractMemory) (op : CpuOp) : Prop where
  nonempty : 0 < op.size
  short : op.size ≤ params.blkSize
  fits : op.addr.toNat + op.size ≤ 2 ^ 63
  backed : ∀ index < op.size, mem.backs (translate (op.addr + BitVec.ofNat 64 index)) 1 = true
  physical : ∀ index < op.size, (translate (op.addr + BitVec.ofNat 64 index)).toNat < 2 ^ 61

variable {params translate} {mem : AbstractMemory} {op : CpuOp}

theorem translate_line {bits : Nat} {addr : Addr} (keeps : KeepsLines translate bits)
    (index : Nat) (inside : addr.toNat % 2 ^ bits + index < 2 ^ bits)
    (fits : addr.toNat + index < 2 ^ 64) :
    (translate (addr + BitVec.ofNat 64 index)).toNat = (translate addr).toNat + index := by
  induction index generalizing addr with
  | zero => simp
  | succ index ih =>
      have before : addr.toNat % 2 ^ bits + 1 < 2 ^ bits := by omega
      obtain ⟨advance, place⟩ := line_next before (by omega)
      rw [← advance_succ, ih (by omega) (by omega), keeps.next addr before]
      omega

theorem Proper.ordinary (proper : op.Proper params translate mem)
    (keeps : KeepsLines translate params.blkBits) {start count : Nat} (positive : 0 < count)
    (within : start + count ≤ op.size)
    (inside : (op.addr + BitVec.ofNat 64 start).toNat % params.blkSize + count ≤ params.blkSize) :
    (request translate ⟨op.addr + BitVec.ofNat 64 start, count, 0⟩).Ordinary params mem false := by
  have fits := proper.fits
  have advance : (op.addr + BitVec.ofNat 64 start).toNat = op.addr.toNat + start :=
    toNat_advance (by omega)
  have inLine : (op.addr + BitVec.ofNat 64 start).toNat % 2 ^ params.blkBits + (count - 1) <
      2 ^ params.blkBits := by
    rw [TagStore.blkSize] at inside
    omega
  have final := translate_line keeps (count - 1) inLine (by omega)
  have last : op.addr + BitVec.ofNat 64 start + BitVec.ofNat 64 (count - 1) =
      op.addr + BitVec.ofNat 64 (start + (count - 1)) := by
    rw [BitVec.ofNat_add, BitVec.add_assoc]
  rw [last] at final
  have lower := proper.backed start (by omega)
  have upper := proper.backed (start + (count - 1)) (by omega)
  simp only [AbstractMemory.backs, decide_eq_true_eq] at lower upper
  constructor
  · exact (by decide : Request.isSet 0 Request.UNCACHEABLE = false)
  · exact (by decide : Request.isSet 0 Request.LLSC = false)
  · exact (by decide : Request.isSet 0 (Request.MEM_SWAP ||| Request.MEM_SWAP_COND) = false)
  · exact (by decide : Request.isSet 0 Request.PREFETCH = false)
  · exact (by decide : Request.isSet 0 Request.SECURE = false)
  · exact proper.physical start (by omega)
  · exact positive
  · show (translate (op.addr + BitVec.ofNat 64 start)).toNat % 2 ^ params.blkBits + count ≤ _
    rw [keeps.offset]
    exact inside
  · show mem.backs (translate (op.addr + BitVec.ofNat 64 start)) count = true
    simp only [AbstractMemory.backs, decide_eq_true_eq]
    omega

theorem entries_zipIdx (accesses : List CpuAccess) (victims : Nat → Nat) (first : Nat) :
    Cache.Event.entries ((accesses.zipIdx first).map fun access =>
      .access access.1 (victims access.2)) = accesses := by
  induction accesses generalizing first with
  | nil => rfl
  | cons entry rest ih =>
      rw [List.zipIdx_cons, List.map_cons, Cache.Event.entries, ih]

structure Sends (params : CacheParams) (translate : Addr → Addr) (mem : AbstractMemory)
    (op : CpuOp) (accesses : List CpuAccess) : Prop where
  admissible : ∀ entry ∈ accesses, entry.Admissible params mem false
  output : ∀ store, (runFlat accesses store).flatten = (op.flat translate store).1
  store : ∀ store, Cache.flatStore accesses store = (op.flat translate store).2

theorem isGather_request (translate : Addr → Addr) (access : Access) :
    (request translate access).isGather = false :=
  (by decide : Request.isSet 0 Request.GATHER = false)

theorem flat_read (store : Nat → Byte) (access : Access) :
    CpuAccess.flat store (.read (request translate access)) =
      (ByteStore.read store (translate access.addr).toNat access.size, store) := by
  simp only [CpuAccess.flat, contents, isGather_request, Bool.false_eq_true, if_false]
  rfl

theorem Proper.cuts (proper : op.Proper params translate mem) {cut : Nat × Nat}
    (member : cut ∈ cuts params.blkBits op.addr op.size) :
    0 < cut.2 ∧ cut.1 + cut.2 ≤ op.size ∧
      (op.addr + BitVec.ofNat 64 cut.1).toNat % 2 ^ params.blkBits + cut.2 ≤ 2 ^ params.blkBits ∧
      (op.addr + BitVec.ofNat 64 cut.1).toNat + cut.2 ≤ 2 ^ 63 := by
  have fits := proper.fits
  obtain ⟨positive, within, inside⟩ :=
    cuts_inside params.blkBits_lt_word proper.nonempty proper.short fits member
  have advance : (op.addr + BitVec.ofNat 64 cut.1).toNat = op.addr.toNat + cut.1 :=
    toNat_advance (by omega)
  exact ⟨positive, within, inside, by omega⟩

theorem runFlat_reads (parts : List Access) (store : Nat → Byte) :
    runFlat (parts.map fun part => .read (request translate part)) store =
        parts.map (fun part => ByteStore.read store (translate part.addr).toNat part.size) ∧
      Cache.flatStore (parts.map fun part => .read (request translate part)) store = store := by
  induction parts with
  | nil => exact ⟨rfl, rfl⟩
  | cons part rest ih =>
      refine ⟨?_, ih.2⟩
      rw [List.map_cons, runFlat, flat_read, ih.1, List.map_cons]

theorem runFlat_writes {α : Type} (parts : List α) (req : α → Request) (data : α → List Byte)
    (store : Nat → Byte) :
    (runFlat (parts.map fun part => .write (req part) (data part)) store).flatten = [] := by
  induction parts generalizing store with
  | nil => rfl
  | cons part rest ih => exact ih _

theorem load_sends {addr : Addr} {size : Nat}
    (proper : (load addr size).Proper params translate mem)
    (keeps : KeepsLines translate params.blkBits) :
    ∃ accesses, (load addr size).accesses params translate = some accesses ∧
      Sends params translate mem (load addr size) accesses := by
  have nonempty : 0 < size := proper.nonempty
  have short : size ≤ 2 ^ params.blkBits := proper.short
  have fits : addr.toNat + size ≤ 2 ^ 63 := proper.fits
  have sent := writeMem_cuts params.blkBits_lt_word nonempty short fits []
  refine ⟨((LlvmGather.cuts params.blkBits addr size).map fun cut =>
    ⟨addr + BitVec.ofNat 64 cut.1, cut.2, 0⟩).map fun part => .read (request translate part),
    ?_, ?_, ?_, fun store => (runFlat_reads _ store).2⟩
  · rw [accesses, readMem_writeMem _ _ _ _ _ _ _ [], TagStore.blkSize, sent]
    simp [Function.comp_def]
  · intro entry member
    rw [List.map_map] at member
    obtain ⟨cut, among, rfl⟩ := List.mem_map.mp member
    obtain ⟨positive, within, inside, -⟩ := proper.cuts among
    exact ⟨proper.ordinary keeps positive within inside, fun isGather => by
      rw [isGather_request] at isGather
      exact absurd isGather Bool.false_ne_true⟩
  · intro store
    rw [(runFlat_reads _ store).1, List.map_map, flat, ← loadBytes_cuts params.blkBits]
    congr 1
    apply List.map_congr_left
    intro cut among
    obtain ⟨-, -, inside, fits⟩ := proper.cuts among
    exact (loadBytes_line keeps store inside fits).symm

theorem store_sends {addr : Addr} {data : List Byte}
    (proper : (store addr data).Proper params translate mem)
    (keeps : KeepsLines translate params.blkBits) :
    ∃ accesses, (store addr data).accesses params translate = some accesses ∧
      Sends params translate mem (store addr data) accesses := by
  have nonempty : 0 < data.length := proper.nonempty
  have short : data.length ≤ 2 ^ params.blkBits := proper.short
  have fits : addr.toNat + data.length ≤ 2 ^ 63 := proper.fits
  have sent := writeMem_cuts params.blkBits_lt_word nonempty short fits data
  have length : ∀ cut ∈ LlvmGather.cuts params.blkBits addr data.length,
      ((data.drop cut.1).take cut.2).length = cut.2 := by
    intro cut among
    obtain ⟨-, within, -⟩ := proper.cuts among
    have bounded : cut.1 + cut.2 ≤ data.length := within
    rw [List.length_take, List.length_drop]
    omega
  refine ⟨(LlvmGather.cuts params.blkBits addr data.length).map fun cut =>
    .write (request translate ⟨addr + BitVec.ofNat 64 cut.1, cut.2, 0⟩)
      ((data.drop cut.1).take cut.2), ?_, ?_, ?_, ?_⟩
  · rw [accesses, TagStore.blkSize, sent]
    simp [Function.comp_def]
  · intro entry member
    obtain ⟨cut, among, rfl⟩ := List.mem_map.mp member
    obtain ⟨positive, within, inside, -⟩ := proper.cuts among
    exact ⟨proper.ordinary keeps positive within inside, isGather_request _ _, length cut among⟩
  · intro before
    exact runFlat_writes _ _ _ before
  · intro before
    rw [Cache.flatStore, List.foldl_map, flat, ← storeBytes_cuts params.blkBits]
    apply List.foldl_ext
    intro before cut among
    obtain ⟨-, -, inside, fits⟩ := proper.cuts among
    rw [← length cut among] at inside fits
    exact (storeBytes_line keeps before inside fits).symm

theorem sends (op : CpuOp) (proper : op.Proper params translate mem)
    (keeps : KeepsLines translate params.blkBits) :
    ∃ accesses, op.accesses params translate = some accesses ∧
      Sends params translate mem op accesses := by
  cases op with
  | load addr size => exact load_sends proper keeps
  | store addr data => exact store_sends proper keeps

theorem Proper.congr {after : AbstractMemory} (proper : op.Proper params translate mem)
    (start : after.start = mem.start) (last : after.last = mem.last) :
    op.Proper params translate after :=
  { proper with
    backed := fun index bound => by
      rw [AbstractMemory.backs, start, last]
      exact proper.backed index bound }

section

variable (top : params.isTopLevel = true) (small : params.blkBits ≤ 9)
  (keeps : KeepsLines translate params.blkBits)
include top small keeps

theorem step_flat (victims : Nat → Nat) {blocks : Blocks} (tiled : mem.Tiled)
    (consistent : Consistent params false mem blocks) (proper : op.Proper params translate mem) :
    ∃ next after, step params translate (blocks, mem) (op, victims) =
        some ((next, after), [(op.flat translate mem.store).1]) ∧
      after.store = (op.flat translate mem.store).2 ∧
      after.start = mem.start ∧ after.last = mem.last ∧ Consistent params false after next := by
  obtain ⟨accesses, sent, sends⟩ := op.sends proper keeps
  have entries := entries_zipIdx accesses victims 0
  obtain ⟨next, after, runs, store, start, last, kept⟩ :=
    run_follows top small _ blocks mem tiled consistent
      (by rw [entries]; exact sends.admissible)
  rw [entries] at runs store
  refine ⟨next, after, ?_, store.trans (sends.store _), start, last, kept⟩
  rw [← sends.output]
  exact Option.bind_eq_some_iff.mpr
    ⟨_, sent, Option.bind_eq_some_iff.mpr ⟨_, runs, rfl⟩⟩

theorem run_flat : ∀ (ops : List (CpuOp × (Nat → Nat))) (blocks : Blocks) (mem : AbstractMemory),
    mem.Tiled → Consistent params false mem blocks →
      (∀ op ∈ ops, op.1.Proper params translate mem) →
      ∃ next after, Machine.run (step params translate) (blocks, mem) ops =
          some ((next, after), (runBytes translate (ops.map Prod.fst) mem.store).1) ∧
        after.store = (runBytes translate (ops.map Prod.fst) mem.store).2 := by
  intro ops
  induction ops with
  | nil => exact fun blocks mem _ _ _ => ⟨blocks, mem, rfl, rfl⟩
  | cons first rest ih =>
      intro blocks mem tiled consistent proper
      obtain ⟨next, after, moved, store, start, last, kept⟩ :=
        step_flat top small keeps first.2 tiled consistent (proper first List.mem_cons_self)
      obtain ⟨final, settled, runs, finalStore⟩ := ih next after
        ⟨start ▸ tiled.start, last ▸ tiled.last⟩ kept
        fun op member => (proper op (.tail _ member)).congr start last
      rw [store] at runs finalStore
      exact ⟨final, settled, Machine.run_cons_eq_some.mpr ⟨_, _, _, moved, runs, rfl⟩, finalStore⟩

/-- Loads and stores may start anywhere and cross the end of a line. Whatever the fills evict,
each load gets the bytes at its addresses, and each store changes those bytes and no others. -/
theorem split_transparent (tiled : mem.Tiled) (ops : List (CpuOp × (Nat → Nat)))
    (proper : ∀ op ∈ ops, op.1.Proper params translate mem) :
    ∃ next after, Machine.run (step params translate) (Blocks.empty, mem) ops =
        some ((next, after), (runBytes translate (ops.map Prod.fst) mem.store).1) ∧
      after.store = (runBytes translate (ops.map Prod.fst) mem.store).2 :=
  run_flat top small keeps ops Blocks.empty mem tiled Consistent.empty proper

end

def exchangeLines (addr : Addr) : Addr :=
  if addr.toNat / 64 % 2 = 0 then addr + 64 else addr - 64

theorem toNat_exchangeLines (addr : Addr) : (exchangeLines addr).toNat =
    if addr.toNat / 64 % 2 = 0 then addr.toNat + 64 else addr.toNat - 64 := by
  rw [exchangeLines]
  split <;> bv_omega

theorem exchangeLines_keepsLines : KeepsLines exchangeLines 6 where
  offset addr := by
    rw [toNat_exchangeLines]
    split <;> omega
  next addr inside := by
    have advance : (addr + 1).toNat = addr.toNat + 1 := by bv_omega
    rw [toNat_exchangeLines, toNat_exchangeLines, advance]
    split <;> split <;> omega

theorem split_transparent_exchangeLines :
    ∃ next after, Machine.run (step singleBlock exchangeLines) (Blocks.empty, page)
        [(.store 0x3C [1, 2, 3, 4, 5, 6, 7, 8], id), (.load 0x3E 4, id)] =
      some ((next, after), [[], [3, 4, 5, 6]]) ∧
      after.store 0x7C = 1 ∧ after.store 0 = 5 := by
  have properStore :
      (store 0x3C [1, 2, 3, 4, 5, 6, 7, 8]).Proper singleBlock exchangeLines page := by
    constructor <;> decide
  have properLoad : (load 0x3E 4).Proper singleBlock exchangeLines page := by
    constructor <;> decide
  have tiled : page.Tiled := ⟨by decide, by decide⟩
  have small : singleBlock.blkBits ≤ 9 := by decide
  obtain ⟨next, after, runs, stored⟩ := split_transparent rfl small exchangeLines_keepsLines tiled
    [(.store 0x3C [1, 2, 3, 4, 5, 6, 7, 8], id), (.load 0x3E 4, id)] (by
      intro op member
      simp only [List.mem_cons, List.not_mem_nil, or_false] at member
      rcases member with rfl | rfl
      · exact properStore
      · exact properLoad)
  refine ⟨next, after, runs.trans ?_, ?_, ?_⟩
  · have answers : (runBytes exchangeLines [.store 0x3C [1, 2, 3, 4, 5, 6, 7, 8], .load 0x3E 4]
        page.store).1 = [[], [3, 4, 5, 6]] := by decide
    exact congrArg (fun outputs => some ((next, after), outputs)) answers
  · rw [stored]
    decide
  · rw [stored]
    decide

end CpuOp

end LlvmGather
