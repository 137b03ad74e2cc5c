import LlvmGather.Gather.Coherence

/-!
The keys under which a cache files its blocks and its misses: set and tag, and the block
address of a register. Both are taken from an address that has the pattern above the
physical bits.
-/

namespace LlvmGather

/-- A packet as the CPU makes it: a physical address and three bits of pattern. -/
structure Packet.Physical (pkt : Packet) : Prop where
  addr : pkt.addr.toNat < 2 ^ 61
  pattern : pkt.req.getGatherPattern.toNat < 8

namespace Packet.Physical

variable {pkt : Packet}

theorem patternBits_eq (physical : pkt.Physical) :
    patternBits pkt.getCacheAddr = pkt.req.getGatherPattern := by
  rw [Packet.patternBits_getCacheAddr ((patternBits_eq_zero_iff pkt.addr).mpr physical.addr)]
  apply BitVec.eq_of_toNat_eq
  have small := physical.pattern
  rw [patternBits, GATHER_PATTERN_SHIFT, BitVec.toNat_ushiftRight, BitVec.toNat_shiftLeft,
    Nat.shiftLeft_eq, Nat.shiftRight_eq_div_pow, Nat.mod_eq_of_lt (by omega)]
  omega

theorem getLsbD_addr_high (physical : pkt.Physical) {index : Nat} (high : 61 ≤ index) :
    pkt.addr.getLsbD index = false := by
  have bound : 2 ^ 61 ≤ 2 ^ index := Nat.pow_le_pow_right (by omega) high
  exact Nat.testBit_lt_two_pow (Nat.lt_of_lt_of_le physical.addr bound)

end Packet.Physical

theorem Packet.getLsbD_getCacheAddr_low (pkt : Packet) {index : Nat} (low : index < 61) :
    pkt.getCacheAddr.getLsbD index = pkt.addr.getLsbD index := by
  simp [Packet.getCacheAddr, GATHER_PATTERN_SHIFT, low]

namespace TagStore

variable (tags : TagStore) {first second : Packet}

theorem blockAlign_getCacheAddr_iff (firstPhysical : first.Physical)
    (secondPhysical : second.Physical) :
    tags.blockAlign first.getCacheAddr = tags.blockAlign second.getCacheAddr ↔
      tags.blockAlign first.addr = tags.blockAlign second.addr ∧
        first.req.getGatherPattern = second.req.getGatherPattern := by
  rw [← firstPhysical.patternBits_eq, ← secondPhysical.patternBits_eq]
  constructor
  · intro same
    refine ⟨?_, ?_⟩
    · apply BitVec.eq_of_getLsbD_eq
      intro index _
      rcases Nat.lt_or_ge index 61 with low | high
      · have bit := congrArg (BitVec.getLsbD · index) same
        simpa only [getLsbD_blockAlign, Packet.getLsbD_getCacheAddr_low _ low] using bit
      · simp only [getLsbD_blockAlign, firstPhysical.getLsbD_addr_high high,
          secondPhysical.getLsbD_addr_high high]
    · rw [← tags.patternBits_blockAlign first.getCacheAddr, same, tags.patternBits_blockAlign]
  · rintro ⟨line, pattern⟩
    apply BitVec.eq_of_getLsbD_eq
    intro index _
    rcases Nat.lt_or_ge index 61 with low | high
    · have bit := congrArg (BitVec.getLsbD · index) line
      simpa only [getLsbD_blockAlign, Packet.getLsbD_getCacheAddr_low _ low] using bit
    · have bit := congrArg (BitVec.getLsbD · (index - 61)) pattern
      simp only [patternBits, GATHER_PATTERN_SHIFT, BitVec.getLsbD_ushiftRight,
        Nat.add_sub_cancel' high] at bit
      simp only [getLsbD_blockAlign, bit]

theorem extract_eq_iff (first second : Addr) :
    (tags.extractSet first = tags.extractSet second ∧
      tags.extractTag first = tags.extractTag second) ↔
      tags.blockAlign first = tags.blockAlign second := by
  constructor
  · rintro ⟨set, tag⟩
    rw [← tags.regenerateBlkAddr_extract first, ← tags.regenerateBlkAddr_extract second, set, tag]
  · intro same
    constructor
    · rw [← tags.extractSet_blockAlign first, same, tags.extractSet_blockAlign]
    · rw [← tags.extractTag_blockAlign first, same, tags.extractTag_blockAlign]

end TagStore

def MSHR.waiting (mshr : MSHR) : List Packet :=
  (mshr.targets.entries ++ mshr.deferredTargets.entries).map Target.pkt

theorem MSHR.SafeFor.waiting {line : Addr} {mshr : MSHR} (safe : mshr.SafeFor line) {pkt : Packet}
    (waits : pkt ∈ mshr.waiting) : patternBits pkt.getCacheAddr = line := by
  obtain ⟨target, listed, rfl⟩ := List.mem_map.mp waits
  rcases List.mem_append.mp listed with listed | listed
  · exact (safe.targets.entries target listed).pattern
  · exact (safe.deferred.entries target listed).pattern

/-- Set and tag, and the block address of a register, are those of the line and the pattern,
and give the address back. In every run the requests of one register have one pattern, so
that a gather with a pattern other than 0 never joins a plain miss. -/
theorem cacheKeys_separate_patterns (tags : TagStore) (first second : Packet)
    (firstPhysical : first.Physical) (secondPhysical : second.Physical) :
    ((tags.extractSet first.getCacheAddr = tags.extractSet second.getCacheAddr ∧
      tags.extractTag first.getCacheAddr = tags.extractTag second.getCacheAddr) ↔
      tags.blockAlign first.addr = tags.blockAlign second.addr ∧
        first.req.getGatherPattern = second.req.getGatherPattern) ∧
    (tags.blockAlign first.getCacheAddr = tags.blockAlign second.getCacheAddr ↔
      tags.blockAlign first.addr = tags.blockAlign second.addr ∧
        first.req.getGatherPattern = second.req.getGatherPattern) ∧
    (∀ addr, tags.regenerateBlkAddr (tags.extractTag addr) (tags.extractSet addr) =
      tags.blockAlign addr) ∧
    (∀ params system, Reachable params system → ∀ index,
      ∀ mshr ∈ (system.caches index).mshrQueue, first ∈ mshr.waiting → second ∈ mshr.waiting →
        first.req.isGather = false → second.req.getGatherPattern = 0) := by
  refine ⟨?_, tags.blockAlign_getCacheAddr_iff firstPhysical secondPhysical,
    tags.regenerateBlkAddr_extract, ?_⟩
  · rw [tags.extract_eq_iff, tags.blockAlign_getCacheAddr_iff firstPhysical secondPhysical]
  · intro params system reached index mshr present firstWaits secondWaits plain
    obtain ⟨line, safe⟩ := (reached.safe.caches index).registers .mshrQueue mshr present
    have same := (safe.waiting secondWaits).trans (safe.waiting firstWaits).symm
    rw [secondPhysical.patternBits_eq, firstPhysical.patternBits_eq] at same
    rw [same, Request.getGatherPattern, if_neg (by simp [plain])]

theorem cacheKeys_separate_patterns_qwords :
    ¬ singleBlock.extractTag (Packet.createRead (gatherQword 0x08 1)).getCacheAddr =
      singleBlock.extractTag (Packet.createRead (gatherQword 0x10 7)).getCacheAddr := by
  have keys := cacheKeys_separate_patterns singleBlock.toTagStore
    (Packet.createRead (gatherQword 0x08 1)) (Packet.createRead (gatherQword 0x10 7))
    (by constructor <;> decide) (by constructor <;> decide)
  intro tag
  exact absurd (keys.1.mp ⟨by decide, tag⟩).2 (by decide)

/-- A load with the flag of a gather and pattern 0 joins the miss of a plain load. -/
theorem gatherMiss_merged : ∃ system, Reachable (fun _ => singleBlock) system ∧
    ∃ mshr ∈ (system.caches 0).mshrQueue,
      mshr.waiting.map (fun pkt => (pkt.addr, pkt.req.isGather)) =
        [(0x08, false), (0x10, true)] := by
  let plainRead := Packet.createRead (qword 0x08)
  let patternRead := Packet.createRead (gatherQword 0x10 0)
  let side := recording zeroReply zeroReply
  have merged : ((Cache.recvTimingReq singleBlock side 0 0 CacheState.empty plainRead
      Traffic.none).bind fun missed =>
        (Cache.recvTimingReq singleBlock side 0 0 missed.1 patternRead Traffic.none).map
          fun joined => joined.1.mshrQueue.map fun mshr =>
            mshr.waiting.map fun pkt => (pkt.addr, pkt.req.isGather)) =
      some [[(0x08, false), (0x10, true)]] := by
    decide
  obtain ⟨⟨missed, sent, traffic⟩, runs, rest⟩ := Option.bind_eq_some_iff.mp merged
  obtain ⟨⟨joined, sent', traffic'⟩, runs', waits⟩ := Option.map_eq_some_iff.mp rest
  have start : Reachable (fun _ => singleBlock) System.initial := .initial
  have issued := start.step (Step.read (qword 0x08) (by decide))
  have issued' := issued.step (Step.read (gatherQword 0x10 0) (by decide))
  have reached := issued'.step (Step.timingReq 0 plainRead zeroReply zeroReply 0 0 missed sent
    traffic (by simp [System.send, plainRead]) (returns_zeroReply _) runs)
  have reached' := reached.step (Step.timingReq 0 patternRead zeroReply zeroReply 0 0 joined sent'
    traffic' (by simp [System.send, System.record, System.setCache, patternRead])
    (returns_zeroReply _) runs')
  refine ⟨_, reached', ?_⟩
  have queue : joined.mshrQueue.map (fun mshr =>
      mshr.waiting.map fun pkt => (pkt.addr, pkt.req.isGather)) =
      [[(0x08, false), (0x10, true)]] := waits
  have listed : [(0x08, false), (0x10, true)] ∈ joined.mshrQueue.map (fun mshr =>
      mshr.waiting.map fun pkt => (pkt.addr, pkt.req.isGather)) := by
    rw [queue]
    exact List.mem_singleton_self _
  obtain ⟨mshr, present, entries⟩ := List.mem_map.mp listed
  exact ⟨mshr, present, entries⟩

end LlvmGather
