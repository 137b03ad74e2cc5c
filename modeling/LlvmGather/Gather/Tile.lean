import LlvmGather.Gather.Memory
import Mathlib.Data.Set.Function

/-!
The tiles of `doMemGather`, 512 bytes of eight tuples with eight fields each. A gather
permutes the qwords of a tile; whether it stays inside the memory depends on where the
range cuts its first and last tile.
-/

namespace LlvmGather

def tileQwords (base : Addr) : Set Addr :=
  {addr | ∃ index < 64, addr = base + BitVec.ofNat 64 (8 * index)}

theorem mem_tileQwords_iff {base : Addr} (aligned : 512 ∣ base.toNat) (addr : Addr) :
    addr ∈ tileQwords base ↔ addr.toNat / 512 = base.toNat / 512 ∧ 8 ∣ addr.toNat := by
  have bound := base.isLt
  constructor
  · rintro ⟨index, inside, rfl⟩
    rw [toNat_advance (by omega)]
    omega
  · rintro ⟨tile, qword⟩
    refine ⟨(addr.toNat - base.toNat) / 8, by omega, ?_⟩
    apply BitVec.eq_of_toNat_eq
    rw [toNat_advance (by omega)]
    omega

theorem bijOn_gatherSource (pattern : Addr) {base : Addr} (aligned : 512 ∣ base.toNat) :
    Set.BijOn (gatherSource pattern) (tileQwords base) (tileQwords base) := by
  have maps : Set.MapsTo (gatherSource pattern) (tileQwords base) (tileQwords base) := by
    intro addr member
    rw [mem_tileQwords_iff aligned] at member ⊢
    have tile := gatherSource_tile pattern addr
    have offset := gatherSource_offset pattern addr
    omega
  refine ⟨maps, (gatherSource_involutive pattern).injective.injOn, ?_⟩
  intro addr member
  exact ⟨gatherSource pattern addr, maps member, gatherSource_involutive pattern addr⟩

/-- The packet's data as the `uint64_t` array that a gather fills. -/
def Packet.qword (pkt : Packet) (slot : Nat) : List Byte := (pkt.data.drop (slot * 8)).take 8

theorem qword_contents (store : Nat → Byte) {pkt : Packet} (gather : pkt.req.isGather = true)
    {slot : Nat} (inside : slot < pkt.size / 8) :
    Packet.qword { pkt with data := contents store pkt.req pkt.addr pkt.size } slot =
      ByteStore.read store (gatherSource pkt.req.getGatherPattern
        (pkt.addr + BitVec.ofNat 64 (slot * 8))).toNat 8 := by
  rw [Packet.qword, contents, if_pos gather, ByteStore.slot_flatten, List.getElem_map,
    List.getElem_range, gatherSource_eq_exchange]
  · simp
  · simpa using inside

theorem gather_masked_transpose (pattern : Addr) :
    (∀ addr index, (gatherSource pattern addr).getLsbD index =
      if 3 ≤ index ∧ index < 6 ∧ pattern.getLsbD (index - 3) = true then addr.getLsbD (index + 3)
      else if 6 ≤ index ∧ index < 9 ∧ pattern.getLsbD (index - 6) = true then
        addr.getLsbD (index - 3)
      else addr.getLsbD index) ∧
    (∀ addr, gatherSource pattern (gatherSource pattern addr) = addr) ∧
    (∀ base : Addr, 512 ∣ base.toNat →
      Set.BijOn (gatherSource pattern) (tileQwords base) (tileQwords base)) ∧
    ∀ (mem : AbstractMemory) (pkt : Packet), pkt.req.isGather = true →
      pkt.req.getGatherPattern = pattern → 8 ∣ pkt.size →
      (∀ slot < pkt.size / 8, mem.backs
        (gatherSource pattern (pkt.addr + BitVec.ofNat 64 (slot * 8))) 8 = true) →
      ∃ filled, mem.doMemGather pkt = some filled ∧ filled.data.length = pkt.size ∧
        ∀ slot < pkt.size / 8, filled.qword slot = ByteStore.read mem.store
          (gatherSource pattern (pkt.addr + BitVec.ofNat 64 (slot * 8))).toNat 8 := by
  refine ⟨getLsbD_gatherSource pattern, gatherSource_involutive pattern,
    fun base aligned => bijOn_gatherSource pattern aligned, ?_⟩
  rintro mem pkt gather rfl whole backed
  exact ⟨_, AbstractMemory.doMemGather_eq gather whole backed,
    length_contents mem.store pkt.addr fun _ => whole,
    fun slot inside => qword_contents mem.store gather inside⟩

def sampleTile : AbstractMemory where
  start := 0
  last := 511
  store := fun index => BitVec.ofNat 8 (index / 8)
  lockedAddrList := []

def columnRead (addr : Addr) (size : Nat) : Packet :=
  Packet.new { Request.ofPhys addr size Request.GATHER with gatherPattern := 7 } .ReadReq

theorem gather_columnRead (addr : Addr) (size : Nat) :
    (columnRead addr size).req.isGather = true ∧
      (columnRead addr size).req.getGatherPattern = 7 := by
  constructor <;> simp +decide [columnRead, Packet.new, Request.ofPhys, Request.isGather,
    Request.getGatherPattern, Request.isSet]

theorem gather_masked_transpose_sampleTile : ∃ filled,
    sampleTile.doMemGather (columnRead 64 64) = some filled ∧
      filled.qword 2 = List.replicate 8 17 := by
  obtain ⟨-, -, -, fills⟩ := gather_masked_transpose 7
  obtain ⟨filled, returns, -, slots⟩ := fills sampleTile (columnRead 64 64) (by decide) (by decide)
    (by decide) (by decide)
  exact ⟨filled, returns, (slots 2 (by decide)).trans (by decide)⟩

namespace AbstractMemory

variable {mem : AbstractMemory} {pageBytes : Addr}

theorem dvd_of_init (page : 512 ∣ pageBytes.toNat) (accepted : mem.init pageBytes = some ())
    (valid : mem.start ≤ mem.last) : 512 ∣ mem.last.toNat + 1 - mem.start.toNat := by
  have divides : mem.size % pageBytes = 0 := (Option.guard_eq_some' _).mp accepted
  have remainder := congrArg BitVec.toNat divides
  rw [BitVec.toNat_umod] at remainder
  have pages : 512 ∣ mem.size.toNat := page.trans (Nat.dvd_of_mod_eq_zero remainder)
  have size : mem.size.toNat =
      ((2 ^ 64 - mem.start.toNat + mem.last.toNat) % 2 ^ 64 + 1) % 2 ^ 64 := by
    rw [AbstractMemory.size, BitVec.toNat_add, BitVec.toNat_sub]
    simp
  have bound := mem.last.isLt
  rw [BitVec.le_def] at valid
  omega

theorem bound_of_backs {addr : Addr} {size : Nat} (backed : mem.backs addr size = true) :
    addr.toNat + size ≤ 2 ^ 64 := by
  have bound := mem.last.isLt
  simp only [backs, decide_eq_true_eq] at backed
  omega

theorem backs_gatherSource (whole : 512 ∣ mem.last.toNat + 1 - mem.start.toNat)
    (cut : mem.start.toNat % 512 ≤ 8 ∨ mem.start.toNat % 512 = 511) (pattern : Addr) {addr : Addr}
    (own : mem.backs addr 8 = true) : mem.backs (gatherSource pattern addr) 8 = true := by
  rcases gatherSource_confined pattern addr with fixed | confined
  · rwa [fixed]
  · have tile := gatherSource_tile pattern addr
    simp only [backs, decide_eq_true_eq] at own ⊢
    omega

theorem escapes {base place image : Nat}
    (source : (gatherSource 7 (BitVec.ofNat 64 place)).toNat = image) (aligned : 512 ∣ base)
    (inTile : place < 512) (first : mem.start.toNat ≤ base + place)
    (last : base + place + 8 ≤ mem.last.toNat + 1)
    (outside : base + image < mem.start.toNat ∨ mem.last.toNat + 1 < base + image + 8) :
    ∃ addr, mem.backs addr 8 = true ∧ ¬ mem.backs (gatherSource 7 addr) 8 = true := by
  have bound := mem.last.isLt
  have own : (BitVec.ofNat 64 (base + place)).toNat = base + place := by
    rw [BitVec.toNat_ofNat]
    omega
  have here : (BitVec.ofNat 64 (base + place)).toNat % 512 = place := by omega
  refine ⟨BitVec.ofNat 64 (base + place), ?_, ?_⟩
  · simp only [backs, decide_eq_true_eq, own]
    omega
  · simp only [backs, decide_eq_true_eq, toNat_gatherSource 7 here, own, source]
    omega

theorem exists_escape (whole : 512 ∣ mem.last.toNat + 1 - mem.start.toNat)
    (valid : mem.start ≤ mem.last) (low : 8 < mem.start.toNat % 512)
    (high : mem.start.toNat % 512 < 511) :
    ∃ addr, mem.backs addr 8 = true ∧ ¬ mem.backs (gatherSource 7 addr) 8 = true := by
  rw [BitVec.le_def] at valid
  have firstTile : 512 ∣ mem.start.toNat - mem.start.toNat % 512 := Nat.dvd_sub_mod _
  have lastTile : 512 ∣ mem.last.toNat + 1 - mem.start.toNat % 512 := by omega
  -- the first tile loses the second tuple's image, the last one that of a field further on
  rcases Nat.lt_or_ge (mem.start.toNat % 512) 65 with early | late
  · have source : (gatherSource 7 (BitVec.ofNat 64 64)).toNat = 8 := by decide
    exact escapes source firstTile (by omega) (by omega) (by omega) (by omega)
  · rcases Nat.lt_or_ge (mem.start.toNat % 512) 456 with early | late
    · have source : (gatherSource 7 (BitVec.ofNat 64 56)).toNat = 448 := by decide
      exact escapes source lastTile (by omega) (by omega) (by omega) (by omega)
    · have source : (gatherSource 7 (BitVec.ofNat 64 447)).toNat = 503 := by decide
      exact escapes source lastTile (by omega) (by omega) (by omega) (by omega)

variable {pkt : Packet}

theorem isSome_wrapped_iff (gather : pkt.req.isGather = true) (whole : 8 ∣ pkt.size)
    (wraps : 2 ^ 64 < pkt.addr.toNat + pkt.size) :
    (mem.doMemGather pkt).isSome = true ↔
      mem.start = 0 ∧ mem.last = BitVec.allOnes 64 ∧ 8 ∣ pkt.addr.toNat := by
  have bound := pkt.addr.isLt
  rw [isSome_doMemGather_iff gather whole]
  constructor
  · intro backed
    let index := (2 ^ 64 - 1 - pkt.addr.toNat) / 8
    have final : (pkt.addr + BitVec.ofNat 64 (index * 8)).toNat = pkt.addr.toNat + index * 8 :=
      toNat_advance (by omega)
    have finalBacked := backed index (by omega)
    rw [gatherSource_of_corner _ (by omega)] at finalBacked
    simp only [backs, decide_eq_true_eq, final] at finalBacked
    have lastBound := mem.last.isLt
    have first : (pkt.addr + BitVec.ofNat 64 ((index + 1) * 8)).toNat = 0 := by
      rw [BitVec.toNat_add, BitVec.toNat_ofNat]
      omega
    have firstBacked := backed (index + 1) (by omega)
    rw [gatherSource_of_corner _ (by omega)] at firstBacked
    simp only [backs, decide_eq_true_eq, first] at firstBacked
    refine ⟨?_, ?_, by omega⟩
    · apply BitVec.eq_of_toNat_eq
      simpa using firstBacked.1
    · apply BitVec.eq_of_toNat_eq
      rw [BitVec.toNat_allOnes]
      omega
  · rintro ⟨start, last, aligned⟩ index inside
    have offset := gatherSource_offset pkt.req.getGatherPattern
      (pkt.addr + BitVec.ofNat 64 (index * 8))
    have small := (gatherSource pkt.req.getGatherPattern
      (pkt.addr + BitVec.ofNat 64 (index * 8))).isLt
    rw [BitVec.toNat_add, BitVec.toNat_ofNat] at offset
    simp only [backs, decide_eq_true_eq, start, last, BitVec.toNat_allOnes]
    simp
    omega

theorem gathers_inside_iff (page : 512 ∣ pageBytes.toNat)
    (accepted : mem.init pageBytes = some ()) :
    ((∀ pkt : Packet, pkt.req.isGather = true → 8 ∣ pkt.size → mem.inRange pkt = true →
        pkt.addr.toNat + pkt.size ≤ 2 ^ 64 → (mem.doMemGather pkt).isSome = true) ↔
      mem.last < mem.start ∨ mem.start.toNat % 512 ≤ 8 ∨ mem.start.toNat % 512 = 511) ∧
    ∀ pkt : Packet, pkt.req.isGather = true → 8 ∣ pkt.size →
      2 ^ 64 < pkt.addr.toNat + pkt.size →
      ((mem.doMemGather pkt).isSome = true ↔
        mem.start = 0 ∧ mem.last = BitVec.allOnes 64 ∧ 8 ∣ pkt.addr.toNat) := by
  refine ⟨⟨fun inside => ?_, fun cut pkt gather whole passes bound => ?_⟩,
    fun pkt gather whole wraps => isSome_wrapped_iff gather whole wraps⟩
  · by_contra bad
    simp only [not_or, BitVec.not_lt, Nat.not_le] at bad
    obtain ⟨valid, low, high⟩ := bad
    have whole := dvd_of_init page accepted valid
    obtain ⟨addr, own, outside⟩ := exists_escape whole valid low (by omega)
    have returns := inside (columnRead addr 8) (gather_columnRead addr 8).1 (Nat.dvd_refl 8)
      (inRange_of_backs (by decide : 0 < 8) own) (bound_of_backs own)
    rw [isSome_doMemGather_iff (gather_columnRead addr 8).1 (Nat.dvd_refl 8)] at returns
    have image := returns 0 (by decide : 0 < 8 / 8)
    rw [(gather_columnRead addr 8).2] at image
    simp [columnRead, Packet.new, Request.ofPhys] at image
    simp [image] at outside
  · rw [isSome_doMemGather_iff gather whole]
    intro slot slotInside
    have backed := (inRange_iff_backs (by omega) bound).mp passes
    have valid : mem.start ≤ mem.last := by
      simp only [backs, decide_eq_true_eq] at backed
      rw [BitVec.le_def]
      omega
    have own : mem.backs (pkt.addr + BitVec.ofNat 64 (slot * 8)) 8 = true := by
      simp only [backs, decide_eq_true_eq] at backed ⊢
      rw [toNat_advance (by omega)]
      omega
    have notEmpty : ¬ mem.last < mem.start := BitVec.not_lt.mpr valid
    exact backs_gatherSource (dvd_of_init page accepted valid) (cut.resolve_left notEmpty) _ own

def samplePage (start : Addr) : AbstractMemory where
  start := start
  last := start + 4095
  store := fun _ => 0
  lockedAddrList := []

theorem gathers_inside_iff_samplePage : (samplePage 0x1008).init 4096 = some () ∧
    ((samplePage 0x1008).doMemGather (columnRead 0x1008 512)).isSome = true := by
  have accepted : (samplePage 0x1008).init 4096 = some () := by decide
  obtain ⟨inside, -⟩ := gathers_inside_iff (by decide) accepted
  exact ⟨accepted, inside.mpr (by decide) (columnRead 0x1008 512) (by decide) (by decide)
    (by decide) (by decide)⟩

/-- Both packets pass the assertion. The first belongs to a range that starts in the middle of
a tile and its source is before the start; the second runs past the end of the addresses. -/
theorem gather_escapes :
    ((samplePage 0x100).init 4096 = some () ∧
      (samplePage 0x100).inRange (columnRead 0x140 8) = true ∧
      (gatherSource 7 0x140).toNat < (samplePage 0x100).start.toNat ∧
      (samplePage 0x100).doMemGather (columnRead 0x140 8) = none) ∧
    (samplePage 0).init 4096 = some () ∧
      (samplePage 0).inRange (columnRead 0xFFFFFFFFFFFFFFF8 16) = true ∧
      (samplePage 0).doMemGather (columnRead 0xFFFFFFFFFFFFFFF8 16) = none := by
  decide

end AbstractMemory

end LlvmGather
