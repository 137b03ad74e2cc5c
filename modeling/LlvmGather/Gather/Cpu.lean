import LlvmGather.Gather.Request

/-!
How the two simple CPU models turn a load into memory requests. Each request goes to the
TLB and, unless that faults, to the data cache; `faults` stands for the TLB.
-/

namespace LlvmGather

structure Access where
  addr : Addr
  size : Nat
  pattern : Addr
deriving DecidableEq, Repr

def Request.access (req : Request) : Access := ⟨req.vaddr, req.size, req.getGatherPattern⟩

namespace AtomicSimpleCPU

/-- The loop over the lines of an access, which reuses one request object; `none` when the
fuel runs out. -/
def readLines (faults : Request → Bool) (secondAddr : Addr) (fullSize : Nat) (flags : BitVec 32) :
    Nat → Request → Addr → Nat → Option (List Access)
  | 0, _, _, _ => none
  | fuel + 1, old, addr, size =>
      let req := old.setVirt addr size flags
      if faults req then some [req.access]
      else if secondAddr ≤ addr then some [req.access]
      else
        let rest := (addr + BitVec.ofNat 64 fullSize - secondAddr).toNat % 2 ^ 32
        (readLines faults secondAddr fullSize flags fuel req secondAddr rest).map (req.access :: ·)

def readMem (faults : Request → Bool) (cacheLineSize fuel : Nat) (dataReadReq : Request)
    (addr : Addr) (size : Nat) (flags : BitVec 32) : Option (List Access) :=
  let secondAddr := roundDown (addr + BitVec.ofNat 64 size - 1) cacheLineSize
  let firstSize := if secondAddr > addr then (secondAddr - addr).toNat % 2 ^ 32 else size
  readLines faults secondAddr size flags fuel dataReadReq addr firstSize

end AtomicSimpleCPU

namespace TimingSimpleCPU

/-- A gather is never split. `none` when an assertion fails. -/
def readMem (cacheLineSize : Nat) (addr : Addr) (size : Nat) (flags : BitVec 32) :
    Option (List Access) :=
  let req := Request.fresh.setVirt addr size flags
  let splitAddr := roundDown (addr + BitVec.ofNat 64 size - 1) cacheLineSize
  if splitAddr ≤ addr ∨ (splitAddr - addr).toNat < cacheLineSize then
    if splitAddr > addr && !Request.isSet flags Request.GATHER then
      if !req.isLLSC && !req.isSwap then
        (req.splitOnVaddr splitAddr).map fun parts => [parts.1.access, parts.2.access]
      else none
    else some [req.access]
  else none

end TimingSimpleCPU

def gatherAccess (addr : Addr) : Access := ⟨addr &&& ~~~ 7, 8, addr &&& 7⟩

theorem Request.access_setVirt (req : Request) (vaddr : Addr) (size : Nat) {flags : BitVec 32}
    (gather : Request.isSet flags GATHER = true) :
    (req.setVirt vaddr size flags).access = ⟨vaddr &&& ~~~ 7, size, vaddr &&& 7⟩ := by
  obtain ⟨address, length, pattern⟩ := req.setVirt_gather vaddr size gather
  simp only [Request.access, address, length, pattern]

theorem lt_roundDown_iff (start line : Nat) (large : 8 ≤ line) :
    start < (start + 7) / line * line ↔ line ≤ start % line + 7 := by
  have split := Nat.div_add_mod start line
  have below := Nat.mod_lt start (by omega : 0 < line)
  by_cases crosses : line ≤ start % line + 7
  · have next : (start + 7) / line = start / line + 1 := by
      apply Nat.div_eq_of_lt_le
      · rw [Nat.add_mul, Nat.mul_comm]
        omega
      · rw [Nat.add_mul, Nat.add_mul, Nat.mul_comm]
        omega
    rw [next, Nat.add_mul, Nat.mul_comm]
    omega
  · have same : (start + 7) / line = start / line := by
      apply Nat.div_eq_of_lt_le
      · rw [Nat.mul_comm]
        omega
      · rw [Nat.add_mul, Nat.mul_comm]
        omega
    rw [same, Nat.mul_comm]
    omega

theorem lt_secondAddr_iff (addr : Addr) {bits : Nat} (atLeast : 3 ≤ bits) (bound : bits < 64) :
    addr < roundDown (addr + BitVec.ofNat 64 8 - 1) (2 ^ bits) ↔
      2 ^ bits ≤ addr.toNat % 2 ^ bits + 7 ∧ addr.toNat + 7 < 2 ^ 64 := by
  have large : 2 ^ 3 ≤ 2 ^ bits := Nat.pow_le_pow_right (by omega) atLeast
  have last : (addr + BitVec.ofNat 64 8 - 1).toNat = (addr.toNat + 7) % 2 ^ 64 := by
    have seven : addr + BitVec.ofNat 64 8 - 1 = addr + 7 := by bv_omega
    rw [seven, BitVec.toNat_add]
    rfl
  rw [BitVec.lt_def, toNat_roundDown _ bound, last]
  by_cases wraps : addr.toNat + 7 < 2 ^ 64
  · rw [Nat.mod_eq_of_lt wraps, lt_roundDown_iff _ _ large]
    simp only [wraps, and_true]
  · have limit := addr.isLt
    have small : (addr.toNat + 7) % 2 ^ 64 < 2 ^ bits := by omega
    rw [Nat.div_eq_of_lt small]
    simp only [wraps, and_false, Nat.zero_mul, Nat.not_lt_zero]

theorem secondAddr_sub_lt (addr : Addr) {bits : Nat} (atLeast : 3 ≤ bits) (bound : bits < 64)
    (crosses : addr < roundDown (addr + BitVec.ofNat 64 8 - 1) (2 ^ bits)) :
    (roundDown (addr + BitVec.ofNat 64 8 - 1) (2 ^ bits) - addr).toNat < 8 := by
  obtain ⟨_, inside⟩ := (lt_secondAddr_iff addr atLeast bound).mp crosses
  have last : addr + BitVec.ofNat 64 8 - 1 = addr + 7 := by bv_omega
  have rounded := toNat_roundDown (addr + BitVec.ofNat 64 8 - 1) bound
  have below := Nat.div_mul_le_self (addr + BitVec.ofNat 64 8 - 1).toNat (2 ^ bits)
  have value : (addr + 7).toNat = addr.toNat + 7 := by
    rw [BitVec.toNat_add]
    exact Nat.mod_eq_of_lt inside
  rw [last, value] at below
  rw [last, value] at rounded
  rw [last, BitVec.toNat_sub_of_le (BitVec.le_of_lt (last ▸ crosses)), rounded]
  omega

theorem readLines_last (faults : Request → Bool) {secondAddr addr : Addr} (fullSize : Nat)
    {flags : BitVec 32} (gather : Request.isSet flags Request.GATHER = true) (fuel : Nat)
    (old : Request) (size : Nat) (last : secondAddr ≤ addr) :
    AtomicSimpleCPU.readLines faults secondAddr fullSize flags (fuel + 1) old addr size =
      some [⟨addr &&& ~~~ 7, size, addr &&& 7⟩] := by
  simp only [AtomicSimpleCPU.readLines, if_pos last, ite_self, old.access_setVirt addr size gather]

theorem readLines_head (faults : Request → Bool) (secondAddr addr : Addr) (fullSize : Nat)
    {flags : BitVec 32} (gather : Request.isSet flags Request.GATHER = true) (fuel : Nat)
    (old : Request) (size : Nat) :
    ∃ rest, AtomicSimpleCPU.readLines faults secondAddr fullSize flags (fuel + 2) old addr size =
      some (⟨addr &&& ~~~ 7, size, addr &&& 7⟩ :: rest) := by
  by_cases last : secondAddr ≤ addr
  · exact ⟨[], readLines_last faults fullSize gather (fuel + 1) old size last⟩
  · unfold AtomicSimpleCPU.readLines
    simp only [if_neg last, old.access_setVirt addr size gather]
    cases faults (old.setVirt addr size flags) with
    | true => exact ⟨[], rfl⟩
    | false =>
        rw [readLines_last faults fullSize gather fuel _ _ (BitVec.le_refl secondAddr)]
        exact ⟨_, rfl⟩

theorem timing_readMem_gather {bits : Nat} (atLeast : 3 ≤ bits) (bound : bits < 64) (addr : Addr)
    {flags : BitVec 32} (gather : Request.isSet flags Request.GATHER = true) :
    TimingSimpleCPU.readMem (2 ^ bits) addr 8 flags = some [gatherAccess addr] := by
  have large : 2 ^ 3 ≤ 2 ^ bits := Nat.pow_le_pow_right (by omega) atLeast
  have asserted : roundDown (addr + BitVec.ofNat 64 8 - 1) (2 ^ bits) ≤ addr ∨
      (roundDown (addr + BitVec.ofNat 64 8 - 1) (2 ^ bits) - addr).toNat < 2 ^ bits := by
    by_cases crosses : addr < roundDown (addr + BitVec.ofNat 64 8 - 1) (2 ^ bits)
    · exact Or.inr (Nat.lt_of_lt_of_le (secondAddr_sub_lt addr atLeast bound crosses) large)
    · exact Or.inl (BitVec.not_lt.mp crosses)
  simp only [TimingSimpleCPU.readMem, if_pos asserted, gather, Bool.not_true, Bool.and_false,
    Bool.false_eq_true, if_false, Request.access_setVirt _ _ _ gather, gatherAccess]

/-- The timing model makes one request for every gather load. The atomic model does so
exactly if the address, with the pattern still in it, is not in the last seven bytes of
its line: there it splits the load. At the end of the address space the sum wraps around
and nothing is split. -/
theorem readMem_agree_iff {bits : Nat} (atLeast : 3 ≤ bits) (bound : bits < 32)
    (faults : Request → Bool) (dataReadReq : Request) (addr : Addr) {flags : BitVec 32}
    (gather : Request.isSet flags Request.GATHER = true) {fuel : Nat} (enough : 2 ≤ fuel) :
    (AtomicSimpleCPU.readMem faults (2 ^ bits) fuel dataReadReq addr 8 flags =
        TimingSimpleCPU.readMem (2 ^ bits) addr 8 flags ∧
      TimingSimpleCPU.readMem (2 ^ bits) addr 8 flags = some [gatherAccess addr]) ↔
    ¬ (2 ^ bits ≤ addr.toNat % 2 ^ bits + 7 ∧ addr.toNat + 7 < 2 ^ 64) := by
  have word : bits < 64 := by omega
  obtain ⟨fuel, rfl⟩ : ∃ rest, fuel = rest + 2 := ⟨fuel - 2, by omega⟩
  rw [timing_readMem_gather atLeast word addr gather, ← lt_secondAddr_iff addr atLeast word]
  simp only [and_true, AtomicSimpleCPU.readMem, gt_iff_lt]
  by_cases crosses : addr < roundDown (addr + BitVec.ofNat 64 8 - 1) (2 ^ bits)
  · have short := secondAddr_sub_lt addr atLeast word crosses
    rw [if_pos crosses]
    obtain ⟨rest, returns⟩ := readLines_head faults
      (roundDown (addr + BitVec.ofNat 64 8 - 1) (2 ^ bits)) addr 8 gather fuel dataReadReq
      ((roundDown (addr + BitVec.ofNat 64 8 - 1) (2 ^ bits) - addr).toNat % 2 ^ 32)
    rw [returns]
    refine iff_of_false ?_ (not_not.mpr crosses)
    simp only [gatherAccess, Option.some.injEq, List.cons.injEq, Access.mk.injEq]
    omega
  · have last := BitVec.not_lt.mp crosses
    rw [if_neg crosses, readLines_last faults 8 gather (fuel + 1) dataReadReq 8 last]
    exact iff_of_true rfl crosses

theorem readMem_agree_iff_aligned :
    (AtomicSimpleCPU.readMem (fun _ => false) 64 2 Request.fresh 0x38 8 Request.GATHER =
        TimingSimpleCPU.readMem 64 0x38 8 Request.GATHER ∧
      TimingSimpleCPU.readMem 64 0x38 8 Request.GATHER = some [gatherAccess 0x38]) ↔
    ¬ (2 ^ 6 ≤ (0x38 : Addr).toNat % 2 ^ 6 + 7 ∧ (0x38 : Addr).toNat + 7 < 2 ^ 64) :=
  have gather : Request.isSet Request.GATHER Request.GATHER = true := by decide
  readMem_agree_iff (show 3 ≤ 6 by decide) (by decide) (fun _ => false) Request.fresh 0x38 gather
    (show 2 ≤ 2 by decide)

/-- There, pattern 1 makes the atomic model ask for seven bytes of one line and one byte
of the next. -/
theorem readMem_differ :
    AtomicSimpleCPU.readMem (fun _ => false) 64 2 Request.fresh 0x39 8 Request.GATHER =
      some [⟨0x38, 7, 1⟩, ⟨0x40, 1, 0⟩] ∧
    TimingSimpleCPU.readMem 64 0x39 8 Request.GATHER = some [⟨0x38, 8, 1⟩] ∧
    ¬ AtomicSimpleCPU.readMem (fun _ => false) 64 2 Request.fresh 0x39 8 Request.GATHER =
      TimingSimpleCPU.readMem 64 0x39 8 Request.GATHER := by
  decide

end LlvmGather
