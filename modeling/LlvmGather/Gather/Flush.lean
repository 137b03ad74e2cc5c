import LlvmGather.Gather.Transparency
import LlvmGather.Library.Machine

/-!
The simulator writes all dirty blocks back before a checkpoint, and empties the caches
before it hands over to CPUs that bypass them. Between the accesses of a CPU neither can be
noticed, and the assertion that no dirty block is thrown away holds.
-/

namespace LlvmGather

namespace Cache

variable {σ : Type} (params : CacheParams) (side : MemSide σ)

def allBlks : List (Nat × Nat) :=
  (List.range (params.numSets * params.assoc)).map fun index =>
    (index / params.assoc, index % params.assoc)

def writebackBlks : List (Nat × Nat) → Blocks → σ → Option (Blocks × σ)
  | [], blocks, below => some (blocks, below)
  | (set, way) :: rest, blocks, below => do
      let (written, below) ← writebackVisitor params side (blocks.ways set way) below
      writebackBlks rest (blocks.put (.way set way) written) below

def memWriteback (blocks : Blocks) (below : σ) : Option (Blocks × σ) :=
  writebackBlks params side (allBlks params) blocks below

def invalidateBlks : List (Nat × Nat) → Blocks → Option Blocks
  | [], blocks => some blocks
  | (set, way) :: rest, blocks => do
      let invalidated ← invalidateVisitor (blocks.ways set way)
      invalidateBlks rest (blocks.put (.way set way) invalidated)

def memInvalidate (blocks : Blocks) : Option Blocks := invalidateBlks (allBlks params) blocks

def isDirty (blocks : Blocks) : Bool :=
  (allBlks params).any fun place => (blocks.ways place.1 place.2).isDirty

/-- What happens to a cache above the memory: an access of the CPU, with the way that its
fill would evict, a checkpoint, or what `switchCpus` does before the caches are bypassed. -/
inductive Event
  | access (entry : CpuAccess) (victim : Nat)
  | checkpoint
  | switchCpus

def Event.entries : List Event → List CpuAccess
  | [] => []
  | .access entry _ :: rest => entry :: entries rest
  | .checkpoint :: rest => entries rest
  | .switchCpus :: rest => entries rest

def flatStore (entries : List CpuAccess) (store : Nat → Byte) : Nat → Byte :=
  entries.foldl (fun store entry => (entry.flat store).2) store

def step (state : Blocks × AbstractMemory) :
    Event → Option ((Blocks × AbstractMemory) × List (List Byte))
  | .access entry victim => do
      let (response, blocks, mem) ← recvAtomic params AbstractMemory.memSide noMiss victim
        entry.packet state.1 state.2
      return ((blocks, mem), [entry.output response])
  | .checkpoint => do
      let written ← memWriteback params AbstractMemory.memSide state.1 state.2
      return (written, [])
  | .switchCpus => do
      let written ← memWriteback params AbstractMemory.memSide state.1 state.2
      let emptied ← memInvalidate params written.1
      return ((emptied, written.2), [])

end Cache

open Cache

section

variable {params : CacheParams} {secure : Bool} {mem : AbstractMemory} {blocks : Blocks}

theorem TagStore.extractSet_lt (tags : TagStore) (addr : Addr) :
    tags.extractSet addr < tags.numSets := by
  have small : tags.setBits < 64 := by
    have := tags.setBound
    omega
  rw [TagStore.extractSet, TagStore.setMask]
  exact (Mask.toNat_keep small _).trans_lt (Nat.mod_lt _ (Nat.two_pow_pos _))

theorem mem_allBlks_iff (set way : Nat) :
    (set, way) ∈ allBlks params ↔ set < params.numSets ∧ way < params.assoc := by
  have positive := params.assocPos
  simp only [allBlks, List.mem_map, List.mem_range, Prod.mk.injEq]
  constructor
  · rintro ⟨index, bound, rfl, rfl⟩
    exact ⟨Nat.div_lt_of_lt_mul (by rwa [Nat.mul_comm]), Nat.mod_lt _ positive⟩
  · rintro ⟨first, second⟩
    refine ⟨params.assoc * set + way, ?_, ?_, ?_⟩
    · calc params.assoc * set + way < params.assoc * (set + 1) := by
            rw [Nat.mul_succ]
            omega
        _ ≤ params.assoc * params.numSets := Nat.mul_le_mul_left _ first
        _ = params.numSets * params.assoc := Nat.mul_comm _ _
    · rw [Nat.mul_add_div positive, Nat.div_eq_of_lt second, Nat.add_zero]
    · rw [Nat.mul_add_mod, Nat.mod_eq_of_lt second]

theorem Consistent.visited (consistent : Consistent params secure mem blocks) {set way : Nat}
    (valid : (blocks.ways set way).isValid = true) : (set, way) ∈ allBlks params := by
  obtain ⟨addr, -, place⟩ := (consistent.ok set way).held valid
  rw [mem_allBlks_iff]
  refine ⟨?_, consistent.inside set way valid⟩
  rw [← consistent.placed set way, place]
  exact params.extractSet_lt addr

theorem BlockOk.cleaned {blk : CacheBlk} (ok : BlockOk params secure mem blk) :
    BlockOk params secure mem blk.cleaned where
  held := ok.held
  settled := ok.settled
  cleared := ok.cleared
  clean dirty := absurd dirty Bool.false_ne_true
  agrees := ok.agrees

theorem BlockOk.invalidate (blk : CacheBlk) : BlockOk params secure mem blk.invalidate where
  held valid := absurd valid Bool.false_ne_true
  settled valid := absurd valid Bool.false_ne_true
  cleared _ := rfl
  clean dirty := absurd dirty Bool.false_ne_true
  agrees valid := absurd valid Bool.false_ne_true

theorem cleaned_of_clean {blk : CacheBlk} (clean : blk.isDirty = false) : blk.cleaned = blk := by
  rw [CacheBlk.cleaned, ← clean]

theorem CacheBlk.cleaned_cleaned (blk : CacheBlk) : blk.cleaned.cleaned = blk.cleaned := rfl

theorem BlockOk.writebackVisitor {blk : CacheBlk} (ok : BlockOk params secure mem blk) :
    Cache.writebackVisitor params AbstractMemory.memSide blk mem = some (blk.cleaned, mem) := by
  cases dirty : blk.isDirty with
  | false => simp [Cache.writebackVisitor, dirty, cleaned_of_clean dirty]
  | true =>
      obtain ⟨valid, plain⟩ := ok.clean dirty
      obtain ⟨backed, same⟩ := ok.agrees valid plain
      let packet : Packet :=
        { Packet.new (Request.ofPhys (params.blkAddr blk) params.blkSize 0) .WriteReq with
          data := ByteStore.read blk.data 0 params.blkSize }
      have stored : mem.functionalAccess packet = some ({ packet with cmd := .WriteResp },
          { mem with store := ByteStore.write mem.store packet.addr.toNat packet.data }) :=
        AbstractMemory.functionalAccess_write params.blkSize_pos backed
          (ByteStore.length_read _ _ _) rfl
      have unchanged : ByteStore.write mem.store packet.addr.toNat packet.data = mem.store := by
        apply ByteStore.write_unchanged
        intro index bound
        have inside : index < params.blkSize := by simpa [packet] using bound
        have copied : packet.data[index] = blk.data index := by
          simp [packet, ByteStore.getElem_read]
        rw [copied, same index inside]
        rfl
      rw [unchanged] at stored
      have sent : AbstractMemory.memSide.sendFunctional packet mem =
          some ({ packet with cmd := .WriteResp }, mem) := stored
      have free : guard (blk.isValid = true) = some () := by simp [valid]
      rw [Cache.writebackVisitor, if_pos dirty]
      exact Option.bind_eq_some_iff.mpr ⟨(), free, Option.bind_eq_some_iff.mpr ⟨_, sent, rfl⟩⟩

theorem ways_visit {visit : CacheBlk → CacheBlk} (idempotent : ∀ blk, visit (visit blk) = visit blk)
    {next : Blocks} {set way : Nat} {rest : List (Nat × Nat)}
    (closed : ∀ other place, next.ways other place =
      if (other, place) ∈ rest then
        visit ((blocks.put (.way set way) (visit (blocks.ways set way))).ways other place)
      else (blocks.put (.way set way) (visit (blocks.ways set way))).ways other place)
    (other place : Nat) :
    next.ways other place = if (other, place) ∈ (set, way) :: rest then
      visit (blocks.ways other place) else blocks.ways other place := by
  rw [closed, Blocks.ways_put]
  by_cases same : other = set ∧ place = way
  · obtain ⟨rfl, rfl⟩ := same
    simp [idempotent]
  · have different : (other, place) ≠ (set, way) := fun equal => same (Prod.mk.inj equal)
    simp [same, different]

theorem writebackBlks_spec (places : List (Nat × Nat)) :
    ∀ blocks, (∀ set way, BlockOk params secure mem (blocks.ways set way)) →
      ∃ next, writebackBlks params AbstractMemory.memSide places blocks mem = some (next, mem) ∧
        ∀ set way, next.ways set way =
          if (set, way) ∈ places then (blocks.ways set way).cleaned else blocks.ways set way := by
  induction places with
  | nil => exact fun blocks _ => ⟨blocks, rfl, fun set way => by simp⟩
  | cons place rest ih =>
      obtain ⟨set, way⟩ := place
      intro blocks ok
      have visited := (ok set way).writebackVisitor
      obtain ⟨next, returns, closed⟩ :=
        ih (blocks.put (.way set way) (blocks.ways set way).cleaned) fun other place => by
          rw [Blocks.ways_put]
          split_ifs
          · exact (ok set way).cleaned
          · exact ok other place
      exact ⟨next, Option.bind_eq_some_iff.mpr ⟨_, visited, returns⟩,
        ways_visit CacheBlk.cleaned_cleaned closed⟩

theorem Consistent.memWriteback (consistent : Consistent params secure mem blocks) :
    ∃ next, Cache.memWriteback params AbstractMemory.memSide blocks mem = some (next, mem) ∧
      Consistent params secure mem next ∧ ∀ set way, (next.ways set way).isDirty = false := by
  obtain ⟨next, returns, closed⟩ := writebackBlks_spec (allBlks params) blocks consistent.ok
  have cleaned : ∀ set way, next.ways set way = (blocks.ways set way).cleaned := by
    intro set way
    rw [closed]
    split_ifs with visited
    · rfl
    · rw [cleaned_of_clean]
      by_contra dirty
      have valid := ((consistent.ok set way).clean (by simpa using dirty)).1
      exact visited (consistent.visited valid)
  refine ⟨next, returns, ?_, fun set way => by rw [cleaned]; rfl⟩
  constructor
  · intro set way
    rw [cleaned]
    exact consistent.placed set way
  · intro set way
    rw [cleaned]
    exact consistent.inside set way
  · intro set first second
    rw [cleaned, cleaned]
    exact consistent.unique set first second
  · intro set way
    rw [cleaned]
    exact (consistent.ok set way).cleaned

def CacheBlk.dropped (blk : CacheBlk) : CacheBlk := if blk.isValid then blk.invalidate else blk

theorem CacheBlk.isValid_dropped (blk : CacheBlk) : blk.dropped.isValid = false := by
  rw [CacheBlk.dropped]
  split
  · rfl
  next invalid => simpa using invalid

theorem CacheBlk.dropped_dropped (blk : CacheBlk) : blk.dropped.dropped = blk.dropped := by
  rw [CacheBlk.dropped.eq_def blk.dropped, blk.isValid_dropped]
  rfl

theorem invalidateVisitor_clean {blk : CacheBlk} (clean : blk.isDirty = false) :
    invalidateVisitor blk = some blk.dropped ∧ blk.dropped.isDirty = false := by
  cases valid : blk.isValid with
  | false => simp [invalidateVisitor, CacheBlk.dropped, valid, clean]
  | true => simp [invalidateVisitor, CacheBlk.dropped, CacheBlk.invalidate, valid, clean]

theorem invalidateBlks_spec (places : List (Nat × Nat)) :
    ∀ blocks : Blocks, (∀ set way, (blocks.ways set way).isDirty = false) →
      ∃ next, invalidateBlks places blocks = some next ∧
        ∀ set way, next.ways set way =
          if (set, way) ∈ places then (blocks.ways set way).dropped else blocks.ways set way := by
  induction places with
  | nil => exact fun blocks _ => ⟨blocks, rfl, fun set way => by simp⟩
  | cons place rest ih =>
      obtain ⟨set, way⟩ := place
      intro blocks clean
      obtain ⟨visited, still⟩ := invalidateVisitor_clean (clean set way)
      obtain ⟨next, returns, closed⟩ :=
        ih (blocks.put (.way set way) (blocks.ways set way).dropped) fun other place => by
          rw [Blocks.ways_put]
          split_ifs
          · exact still
          · exact clean other place
      exact ⟨next, Option.bind_eq_some_iff.mpr ⟨_, visited, returns⟩,
        ways_visit CacheBlk.dropped_dropped closed⟩

theorem Consistent.memInvalidate (consistent : Consistent params secure mem blocks)
    (clean : ∀ set way, (blocks.ways set way).isDirty = false) :
    ∃ next, Cache.memInvalidate params blocks = some next ∧
      Consistent params secure mem next ∧ ∀ set way, (next.ways set way).isValid = false := by
  obtain ⟨next, returns, closed⟩ := invalidateBlks_spec (allBlks params) blocks clean
  have dropped : ∀ set way, next.ways set way = (blocks.ways set way).dropped := by
    intro set way
    rw [closed]
    split_ifs with visited
    · rfl
    · rw [CacheBlk.dropped, if_neg fun valid => visited (consistent.visited valid)]
  have invalid : ∀ set way, (next.ways set way).isValid = false := fun set way => by
    rw [dropped]
    exact CacheBlk.isValid_dropped _
  refine ⟨next, returns, ?_, invalid⟩
  constructor
  · intro set way
    rw [dropped, CacheBlk.dropped]
    split_ifs <;> exact consistent.placed set way
  · intro set way valid
    rw [invalid] at valid
    exact absurd valid Bool.false_ne_true
  · intro set first second valid
    rw [invalid] at valid
    exact absurd valid Bool.false_ne_true
  · intro set way
    rw [dropped, CacheBlk.dropped]
    split_ifs
    · exact BlockOk.invalidate _
    · exact consistent.ok set way

theorem CpuAccess.Admissible.ordinary {entry : CpuAccess}
    (admissible : entry.Admissible params mem secure) :
    entry.req.Ordinary params mem secure := by
  cases entry with
  | read req => exact admissible.1
  | write req data => exact admissible.1

structure Follows (params : CacheParams) (secure : Bool) (mem : AbstractMemory) (event : Event)
    (blocks : Blocks) (after : AbstractMemory) (outputs : List (List Byte)) : Prop where
  outputs : outputs = runFlat (Event.entries [event]) mem.store
  store : after.store = flatStore (Event.entries [event]) mem.store
  start : after.start = mem.start
  last : after.last = mem.last
  consistent : Consistent params secure after blocks

theorem step_follows (top : params.isTopLevel = true) (small : params.blkBits ≤ 9)
    (tiled : mem.Tiled) (consistent : Consistent params secure mem blocks) {event : Event}
    (admissible : ∀ entry ∈ Event.entries [event], entry.Admissible params mem secure) :
    ∃ next after outputs, step params (blocks, mem) event = some ((next, after), outputs) ∧
      Follows params secure mem event next after outputs := by
  cases event with
  | access entry victim =>
      have own := admissible entry List.mem_cons_self
      rcases access_served top tiled consistent own victim with
        ⟨response, next, after, returns, served⟩ | ⟨-, outside⟩
      · refine ⟨next, after, [entry.output response], ?_, ?_⟩
        · exact Option.bind_eq_some_iff.mpr ⟨_, returns, rfl⟩
        · exact ⟨by rw [served.output]; rfl, served.store, served.start, served.last,
            served.consistent⟩
      · exact absurd (tiled.inMemory small own.ordinary) outside
  | checkpoint =>
      obtain ⟨next, returns, kept, -⟩ := consistent.memWriteback
      refine ⟨next, mem, [], ?_, rfl, rfl, rfl, rfl, kept⟩
      exact Option.bind_eq_some_iff.mpr ⟨_, returns, rfl⟩
  | switchCpus =>
      obtain ⟨written, wrote, kept, clean⟩ := consistent.memWriteback
      obtain ⟨next, emptied, still, -⟩ := kept.memInvalidate clean
      refine ⟨next, mem, [], ?_, rfl, rfl, rfl, rfl, still⟩
      exact Option.bind_eq_some_iff.mpr
        ⟨_, wrote, Option.bind_eq_some_iff.mpr ⟨_, emptied, rfl⟩⟩

theorem entries_cons (event : Event) (rest : List Event) :
    Event.entries (event :: rest) = Event.entries [event] ++ Event.entries rest := by
  cases event <;> rfl

theorem runFlat_append (first second : List CpuAccess) (store : Nat → Byte) :
    runFlat (first ++ second) store =
      runFlat first store ++ runFlat second (flatStore first store) := by
  induction first generalizing store with
  | nil => rfl
  | cons entry rest ih => simp [runFlat, flatStore, ih]

theorem run_follows (top : params.isTopLevel = true) (small : params.blkBits ≤ 9) :
    ∀ (events : List Event) (blocks : Blocks) (mem : AbstractMemory), mem.Tiled →
      Consistent params secure mem blocks →
      (∀ entry ∈ Event.entries events, entry.Admissible params mem secure) →
      ∃ next after, Machine.run (step params) (blocks, mem) events =
          some ((next, after), runFlat (Event.entries events) mem.store) ∧
        after.store = flatStore (Event.entries events) mem.store ∧
        after.start = mem.start ∧ after.last = mem.last ∧
        Consistent params secure after next := by
  intro events
  induction events with
  | nil => exact fun blocks mem _ consistent _ => ⟨blocks, mem, rfl, rfl, rfl, rfl, consistent⟩
  | cons event rest ih =>
      intro blocks mem tiled consistent admissible
      rw [entries_cons] at admissible ⊢
      obtain ⟨next, after, outputs, moved, follows⟩ := step_follows top small tiled consistent
        fun entry member => admissible entry (List.mem_append_left _ member)
      obtain ⟨last, final, runs, store, sameStart, sameLast, kept⟩ := ih next after
        ⟨follows.start ▸ tiled.start, follows.last ▸ tiled.last⟩ follows.consistent
        fun entry member =>
          (admissible entry (List.mem_append_right _ member)).congr follows.start follows.last
      refine ⟨last, final, ?_, ?_, sameStart.trans follows.start, sameLast.trans follows.last,
        kept⟩
      · refine Machine.run_cons_eq_some.mpr ⟨_, _, _, moved, runs, ?_⟩
        rw [runFlat_append, follows.outputs, follows.store]
      · rw [store, follows.store, flatStore, flatStore, flatStore, List.foldl_append]

/-- Checkpoints and flushes may come between any two accesses: no assertion
fails, every answer is that of the memory alone, and the memory is never behind. At any
time the dirty blocks can be written back, after which none is dirty and all of them can
be thrown away. -/
theorem flushes_transparent (top : params.isTopLevel = true) (small : params.blkBits ≤ 9)
    (tiled : mem.Tiled) (events : List Event)
    (admissible : ∀ entry ∈ Event.entries events, entry.Admissible params mem secure) :
    ∃ next after, Machine.run (step params) (Blocks.empty, mem) events =
        some ((next, after), runFlat (Event.entries events) mem.store) ∧
      after.store = flatStore (Event.entries events) mem.store ∧
      ∃ written emptied,
        memWriteback params AbstractMemory.memSide next after = some (written, after) ∧
        isDirty params written = false ∧ memInvalidate params written = some emptied ∧
        ∀ set way, (emptied.ways set way).isValid = false := by
  obtain ⟨next, after, runs, store, -, -, consistent⟩ :=
    run_follows top small events Blocks.empty mem tiled Consistent.empty admissible
  obtain ⟨written, wrote, kept, clean⟩ := consistent.memWriteback
  obtain ⟨emptied, thrown, -, invalid⟩ := kept.memInvalidate clean
  refine ⟨next, after, runs, store, written, emptied, wrote, ?_, thrown, invalid⟩
  simp [isDirty, clean]

end

theorem flushes_transparent_singleBlock :
    ∃ next after, Machine.run (step singleBlock) (Blocks.empty, page)
        [.access (.write (qword 0x40) [1, 2, 3, 4, 5, 6, 7, 8]) 0, .checkpoint,
          .access (.read (gatherQword 0x08 1)) 0, .switchCpus,
          .access (.read (qword 0x40)) 0] =
      some ((next, after), [[], [1, 2, 3, 4, 5, 6, 7, 8], [1, 2, 3, 4, 5, 6, 7, 8]]) := by
  have plain : (qword 0x40).Ordinary singleBlock page false := by constructor <;> decide
  have gather : (CpuAccess.read (gatherQword 0x08 1)).Admissible singleBlock page false := by
    refine ⟨?_, fun _ => ?_⟩ <;> constructor <;> decide
  have tiled : page.Tiled := ⟨by decide, by decide⟩
  have admissible : ∀ entry ∈ [CpuAccess.write (qword 0x40) [1, 2, 3, 4, 5, 6, 7, 8],
      .read (gatherQword 0x08 1), .read (qword 0x40)],
      entry.Admissible singleBlock page false := by
    intro entry member
    simp only [List.mem_cons, List.not_mem_nil, or_false] at member
    rcases member with rfl | rfl | rfl
    · exact ⟨plain, by decide, rfl⟩
    · exact gather
    · exact ⟨plain, fun isGather => absurd isGather (by decide)⟩
  obtain ⟨next, after, runs, -⟩ := flushes_transparent rfl (by decide) tiled
    [.access (.write (qword 0x40) [1, 2, 3, 4, 5, 6, 7, 8]) 0, .checkpoint,
      .access (.read (gatherQword 0x08 1)) 0, .switchCpus, .access (.read (qword 0x40)) 0]
    admissible
  refine ⟨next, after, runs.trans ?_⟩
  have answers : runFlat [CpuAccess.write (qword 0x40) [1, 2, 3, 4, 5, 6, 7, 8],
      .read (gatherQword 0x08 1), .read (qword 0x40)] page.store =
      [[], [1, 2, 3, 4, 5, 6, 7, 8], [1, 2, 3, 4, 5, 6, 7, 8]] := by decide
  exact congrArg (fun outputs => some ((next, after), outputs)) answers

end LlvmGather
