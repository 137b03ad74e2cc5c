import LlvmGather.Gather.Tile
import LlvmGather.Library.Machine
import LlvmGather.Library.Monitor

/-!
Load locked and store conditional in `abstract_mem.cc`: the list of locked addresses is an
exclusive monitor with granules of sixteen bytes, over any interleaving of contexts.
-/

namespace LlvmGather

namespace AbstractMemory

structure Represents (mem : AbstractMemory) (reserved : Nat → Option Addr) : Prop where
  once : (mem.lockedAddrList.map (·.contextId)).Nodup
  records : ∀ lock, lock ∈ mem.lockedAddrList ↔ reserved lock.contextId = some lock.addr

/-- What an access that got this answer is for the monitor. A swap is nothing to it. -/
def operation (pkt answer : Packet) : Monitor.Op Nat Addr :=
  if pkt.memInhibitAsserted || pkt.cmd == .SwapReq then .other
  else if pkt.cmd.isRead then
    if pkt.cmd.isLLSC then .reserve pkt.req.contextId (mask pkt.req.paddr) else .other
  else if pkt.cmd.isInvalidate then .other
  else if pkt.cmd.isLLSC && answer.req.extraData == 0 then .other
  else .write (mask pkt.req.paddr)

def serve (mem : AbstractMemory) (pkt : Packet) :
    Option (AbstractMemory × List (Monitor.Op Nat Addr)) :=
  (mem.access pkt).map fun result => (result.2, [operation pkt result.1])

variable {mem : AbstractMemory} {pkt : Packet} {reserved : Nat → Option Addr}

theorem modify_findIdx? {locks : List LockedAddr} {context index : Nat} (addr : Addr)
    (once : (locks.map (·.contextId)).Nodup)
    (found : locks.findIdx? (fun lock => lock.contextId == context) = some index) :
    locks.modify index ({ · with addr := addr }) =
      locks.map fun lock => if lock.contextId = context then { lock with addr := addr } else lock := by
  induction locks generalizing index with
  | nil => simp at found
  | cons lock rest ih =>
      rw [List.map_cons, List.nodup_cons] at once
      rw [List.findIdx?_cons] at found
      by_cases owned : lock.contextId = context
      · obtain rfl : 0 = index := by simpa [owned] using found
        have others : rest.map (fun lock =>
            if lock.contextId = context then { lock with addr := addr } else lock) = rest := by
          refine (List.map_congr_left (g := id) fun other member => if_neg fun same => ?_).trans
            (List.map_id rest)
          exact once.1 (List.mem_map.mpr ⟨other, member, same.trans owned.symm⟩)
        simp [owned, others]
      · simp only [beq_iff_eq, owned, if_false, Option.map_eq_some_iff] at found
        obtain ⟨place, later, rfl⟩ := found
        simp [owned, ih once.2 later]

theorem Represents.reserve (represents : mem.Represents reserved) (pkt : Packet) :
    (mem.trackLoadLocked pkt).Represents
      (Function.update reserved pkt.req.contextId (some (mask pkt.req.paddr))) := by
  unfold trackLoadLocked
  dsimp only
  split
  next index found =>
    obtain ⟨inside, matched, -⟩ := List.findIdx?_eq_some_iff_getElem.mp found
    have owner : mem.lockedAddrList[index].contextId = pkt.req.contextId := by simpa using matched
    rw [modify_findIdx? _ represents.once found]
    refine ⟨?_, fun lock => ?_⟩
    · have contexts : ∀ lock : LockedAddr, (if lock.contextId = pkt.req.contextId then
          { lock with addr := mask pkt.req.paddr } else lock).contextId = lock.contextId := by
        intro lock
        split_ifs <;> rfl
      simpa [Function.comp_def, contexts] using represents.once
    · rw [List.mem_map]
      by_cases own : lock.contextId = pkt.req.contextId
      · rw [own, Function.update_self, Option.some.injEq]
        constructor
        · rintro ⟨old, -, rfl⟩
          split_ifs at own ⊢ with same
          · rfl
          · exact absurd own same
        · intro same
          refine ⟨mem.lockedAddrList[index], List.getElem_mem inside, ?_⟩
          rw [if_pos owner, same, owner, ← own]
      · rw [Function.update_of_ne own, ← represents.records lock]
        constructor
        · rintro ⟨old, member, rfl⟩
          split_ifs at own ⊢ with same
          · exact absurd same own
          · exact member
        · exact fun member => ⟨lock, member, if_neg own⟩
  next missing =>
    have absent : ∀ lock ∈ mem.lockedAddrList, lock.contextId ≠ pkt.req.contextId := by
      simpa using missing
    refine ⟨?_, fun lock => ?_⟩
    · rw [List.map_cons, List.nodup_cons]
      refine ⟨fun member => ?_, represents.once⟩
      obtain ⟨lock, present, same⟩ := List.mem_map.mp member
      exact absent lock present same
    · rw [List.mem_cons]
      by_cases own : lock.contextId = pkt.req.contextId
      · rw [own, Function.update_self, Option.some.injEq]
        constructor
        · rintro (rfl | present)
          · rfl
          · exact absurd own (absent lock present)
        · intro same
          left
          rw [same, ← own]
      · rw [Function.update_of_ne own, ← represents.records lock]
        refine ⟨fun either => either.resolve_left fun same => own ?_, .inr⟩
        rw [same]

theorem Represents.reserved_iff (represents : mem.Represents reserved) (context : Nat)
    (addr : Addr) :
    (mem.lockedAddrList.any fun lock => lock.addr == addr && lock.contextId == context) = true ↔
      reserved context = some addr := by
  rw [List.any_eq_true]
  constructor
  · rintro ⟨lock, member, matched⟩
    simp only [Bool.and_eq_true, beq_iff_eq] at matched
    rw [← matched.1, ← matched.2]
    exact (represents.records lock).mp member
  · intro held
    exact ⟨⟨addr, context⟩, (represents.records ⟨addr, context⟩).mpr held, by simp⟩

theorem Represents.erase (represents : mem.Represents reserved) (addr : Addr) :
    { mem with lockedAddrList := mem.lockedAddrList.filter (·.addr != addr) }.Represents
      (Monitor.step reserved (.write addr)) := by
  refine ⟨?_, fun lock => ?_⟩
  · exact represents.once.sublist (List.filter_sublist.map _)
  · rw [List.mem_filter, represents.records lock, Monitor.step]
    dsimp only
    split_ifs with ended
    · simp only [ended, Option.some.injEq, bne_iff_ne, ne_eq, iff_false, not_and, not_not]
      exact Eq.symm
    · refine ⟨And.left, fun held => ⟨held, ?_⟩⟩
      rw [bne_iff_ne]
      rintro rfl
      exact ended held

theorem Represents.of_locks {other : AbstractMemory} (represents : mem.Represents reserved)
    (same : other.lockedAddrList = mem.lockedAddrList) : other.Represents reserved := by
  refine ⟨?_, ?_⟩ <;> rw [same]
  · exact represents.once
  · exact represents.records

theorem hostWrite_locks {data : List Byte} {written : AbstractMemory}
    (returns : mem.hostWrite pkt data = some written) :
    written.lockedAddrList = mem.lockedAddrList := by
  unfold hostWrite at returns
  split_ifs at returns
  obtain rfl := Option.some.inj returns
  rfl

theorem swap_locks :
    Partial.Post (mem.swap pkt) fun result => result.2.lockedAddrList = mem.lockedAddrList := by
  unfold swap
  refine (Partial.Post.returns _).bind fun _ _ => ?_
  refine (Partial.Post.returns _).bind fun found _ => ?_
  refine (Partial.Post.returns _).bind fun overwrites _ => ?_
  refine Partial.Post.guard fun _ => ?_
  refine Partial.Post.join (fun _ _ stored => hostWrite_locks stored)
    (fun _ => Partial.Post.of_some rfl) ?_
  exact fun written same => Partial.Post.of_some same

theorem writeOK_eq (represents : mem.Represents reserved) :
    mem.writeOK pkt =
      let held := decide (reserved pkt.req.contextId = some (mask pkt.req.paddr))
      let allowed := !pkt.cmd.isLLSC || held
      (allowed,
        if pkt.cmd.isLLSC then
          { pkt with req := { pkt.req with extraData := if allowed then 1 else 0 } }
        else pkt,
        if allowed then
          { mem with
            lockedAddrList := mem.lockedAddrList.filter (·.addr != mask pkt.req.paddr) }
        else mem) := by
  have held := represents.reserved_iff pkt.req.contextId (mask pkt.req.paddr)
  unfold writeOK
  dsimp only
  rw [Bool.eq_iff_iff.mpr (held.trans decide_eq_true_iff.symm)]
  split_ifs <;> simp_all

theorem perform_represents (represents : mem.Represents reserved)
    (uninhibited : pkt.memInhibitAsserted = false) :
    Partial.Post (mem.perform pkt) fun result =>
      result.2.Represents (Monitor.step reserved (operation pkt result.1)) := by
  unfold perform
  refine Partial.Post.ite (fun isSwap => ?_) fun notSwap => ?_
  · intro result returns
    simpa [operation, isSwap, Monitor.step] using represents.of_locks (swap_locks result returns)
  refine Partial.Post.ite (fun isRead => ?_) fun notRead => ?_
  · refine Partial.Post.guard fun _ => (Partial.Post.returns _).bind fun read _ => ?_
    refine Partial.Post.of_some ?_
    by_cases locks : pkt.cmd.isLLSC = true
    · simpa [operation, uninhibited, notSwap, isRead, locks, Monitor.step] using
        represents.reserve pkt
    · simpa [operation, uninhibited, notSwap, isRead, locks, Monitor.step] using represents
  refine Partial.Post.ite (fun invalidates => ?_) fun notInvalidate => ?_
  · refine Partial.Post.of_some ?_
    simpa [operation, uninhibited, notSwap, notRead, invalidates, Monitor.step] using represents
  refine Partial.Post.ite (fun isWrite => ?_) fun _ => Partial.Post.fail
  rw [writeOK_eq represents]
  dsimp only
  refine Partial.Post.ite (fun allowed => ?_) fun refused => ?_
  · refine (Partial.Post.returns _).bind fun _ _ => Partial.Post.guard fun _ => ?_
    refine (Partial.Post.returns _).bind fun written stored => Partial.Post.of_some ?_
    have went : operation pkt (if pkt.cmd.isLLSC then
        { pkt with req := { pkt.req with extraData := 1 } } else pkt) =
        .write (mask pkt.req.paddr) := by
      by_cases locks : pkt.cmd.isLLSC = true <;>
        simp [operation, uninhibited, notSwap, notRead, notInvalidate, locks]
    rw [if_pos allowed] at stored
    simp only [allowed, if_true, went]
    exact (represents.erase _).of_locks (hostWrite_locks stored)
  · have locks : pkt.cmd.isLLSC = true := by
      by_contra plain
      simp [plain] at refused
    have unheld : reserved pkt.req.contextId ≠ some (mask pkt.req.paddr) := by
      simpa [locks] using refused
    refine Partial.Post.of_some ?_
    simpa [operation, uninhibited, notSwap, notRead, notInvalidate, locks, unheld,
      Monitor.step] using represents

theorem access_represents {result : Packet × AbstractMemory}
    (represents : mem.Represents reserved) (returns : mem.access pkt = some result) :
    result.2.Represents (Monitor.step reserved (operation pkt result.1)) := by
  by_cases inhibited : pkt.memInhibitAsserted = true
  · simp only [access, inhibited, if_true, Option.bind_eq_bind, Option.bind_eq_some_iff,
      Option.pure_def, Option.some.injEq] at returns
    obtain ⟨_, _, rfl⟩ := returns
    simpa [operation, inhibited, Monitor.step] using represents
  · have uninhibited : pkt.memInhibitAsserted = false := by simpa using inhibited
    obtain ⟨performed, reached, rfl⟩ := access_performed uninhibited returns
    exact perform_represents represents uninhibited performed reached

theorem run_represents {pkts : List Packet} {final : AbstractMemory}
    {history : List (Monitor.Op Nat Addr)} (fresh : mem.lockedAddrList = [])
    (runs : Machine.run serve mem pkts = some (final, history)) :
    final.Represents (Monitor.reservations history) := by
  have base : mem.Represents (Monitor.reservations []) :=
    ⟨by simp [fresh], fun lock => by simp [fresh, Monitor.reservations]⟩
  refine Machine.run_rule (P := fun sent reached =>
    reached.Represents (Monitor.reservations sent)) ?_ [] base runs
  intro sent state pkt next more before moved
  obtain ⟨result, reached, same⟩ := Option.map_eq_some_iff.mp moved
  simp only [Prod.mk.injEq] at same
  obtain ⟨rfl, rfl⟩ := same
  rw [Monitor.reservations, List.foldl_append]
  exact access_represents before reached

theorem access_storeCond {result : Packet × AbstractMemory} (represents : mem.Represents reserved)
    (uninhibited : pkt.memInhibitAsserted = false) (cmd : pkt.cmd = .StoreCondReq)
    (returns : mem.access pkt = some result) :
    if reserved pkt.req.contextId = some (mask pkt.req.paddr) then
      result.1.req.extraData = 1 ∧
        result.2.store = ByteStore.write mem.store pkt.addr.toNat (pkt.data.take pkt.size)
    else result.1.req.extraData = 0 ∧ result.2 = mem := by
  have swap : MemCmd.StoreCondReq ≠ .SwapReq := by decide
  have read : MemCmd.StoreCondReq.isRead = false := by decide
  have invalidate : MemCmd.StoreCondReq.isInvalidate = false := by decide
  have write : MemCmd.StoreCondReq.isWrite = true := by decide
  have locks : MemCmd.StoreCondReq.isLLSC = true := by decide
  obtain ⟨performed, reached, rfl⟩ := access_performed uninhibited returns
  simp only [perform, writeOK_eq represents, cmd, swap, read, invalidate, write, locks,
    Bool.false_eq_true, Bool.not_true, Bool.false_or, decide_eq_true_eq, if_false,
    if_true] at reached
  by_cases held : reserved pkt.req.contextId = some (mask pkt.req.paddr)
  · simp only [held, if_true, Option.bind_eq_bind, Option.bind_eq_some_iff, Option.pure_def,
      Option.some.injEq] at reached ⊢
    obtain ⟨data, taken, _, _, written, stored, rfl⟩ := reached
    unfold Packet.writeData at taken
    unfold hostWrite at stored
    split_ifs at taken stored
    obtain rfl := Option.some.inj taken
    obtain rfl := Option.some.inj stored
    exact ⟨rfl, rfl⟩
  · simp only [held, if_false, Option.pure_def, Option.some.injEq] at reached ⊢
    obtain rfl := reached
    exact ⟨rfl, rfl⟩

/-- After any accesses of any contexts in any order, a store conditional stores if its
context reserved its granule of sixteen bytes with its last load locked and no store has
gone ahead in the granule since, and otherwise changes nothing. -/
theorem storeConditional_iff (mem : AbstractMemory) (fresh : mem.lockedAddrList = [])
    (pkts : List Packet) (final : AbstractMemory) (history : List (Monitor.Op Nat Addr))
    (runs : Machine.run serve mem pkts = some (final, history)) (pkt : Packet)
    (uninhibited : pkt.memInhibitAsserted = false) (cmd : pkt.cmd = .StoreCondReq)
    (result : Packet × AbstractMemory) (returns : final.access pkt = some result) :
    (Monitor.Holds history pkt.req.contextId (mask pkt.req.paddr) →
      result.1.req.extraData = 1 ∧
        result.2.store = ByteStore.write final.store pkt.addr.toNat (pkt.data.take pkt.size)) ∧
    (¬ Monitor.Holds history pkt.req.contextId (mask pkt.req.paddr) →
      result.1.req.extraData = 0 ∧ result.2 = final) := by
  have answered := access_storeCond (run_represents fresh runs) uninhibited cmd returns
  rw [← Monitor.reservations_eq_some_iff]
  split_ifs at answered with held
  · exact ⟨fun _ => answered, fun missing => absurd held missing⟩
  · exact ⟨fun present => absurd present held, fun _ => answered⟩

def lockedRead (addr : Addr) : Packet := Packet.new (Request.ofPhys addr 8 0) .LoadLockedReq

def conditionalWrite (addr : Addr) : Packet :=
  { Packet.new (Request.ofPhys addr 8 0) .StoreCondReq with data := List.replicate 8 0xff }

theorem storeConditional_iff_granule : ∃ final history result,
    Machine.run serve sampleTile [lockedRead 0] = some (final, history) ∧
      final.access (conditionalWrite 8) = some result ∧ result.1.req.extraData = 1 := by
  refine ⟨_, _, _, rfl, rfl, ?_⟩
  have answered := storeConditional_iff sampleTile rfl [lockedRead 0] _ _ rfl (conditionalWrite 8)
    rfl rfl _ rfl
  exact (answered.1 ⟨[], [], rfl, fun _ => List.not_mem_nil, List.not_mem_nil⟩).1

theorem access_loadLocked {result : Packet × AbstractMemory}
    (uninhibited : pkt.memInhibitAsserted = false) (cmd : pkt.cmd = .LoadLockedReq)
    (plain : pkt.req.isGather = false) (returns : mem.access pkt = some result) :
    result.1.data = ByteStore.read mem.store pkt.addr.toNat pkt.size ∧
      result.2.store = mem.store := by
  have swap : MemCmd.LoadLockedReq ≠ .SwapReq := by decide
  have read : MemCmd.LoadLockedReq.isRead = true := by decide
  have locks : MemCmd.LoadLockedReq.isLLSC = true := by decide
  obtain ⟨performed, reached, rfl⟩ := access_performed uninhibited returns
  simp only [perform, cmd, swap, read, locks, if_false, if_true, Option.bind_eq_bind,
    Option.bind_eq_some_iff, Option.pure_def, Option.some.injEq] at reached
  obtain ⟨_, _, loaded, found, rfl⟩ := reached
  rw [readInto_eq (readable_of_readInto (by rw [found]; rfl))] at found
  obtain rfl := Option.some.inj found
  refine ⟨by simp [contents, plain], ?_⟩
  unfold trackLoadLocked
  dsimp only
  split <;> rfl

def Apart (addr : Addr) (size : Nat) (pkt : Packet) : Prop :=
  pkt.memInhibitAsserted = false ∧
    (pkt.cmd = .ReadReq ∨ pkt.cmd = .WriteReq ∧
      (pkt.addr.toNat + pkt.size ≤ addr.toNat ∨ addr.toNat + size ≤ pkt.addr.toNat))

theorem access_apart {result : Packet × AbstractMemory} {addr : Addr} {size : Nat}
    (apart : Apart addr size pkt) (returns : mem.access pkt = some result) :
    ByteStore.read result.2.store addr.toNat size = ByteStore.read mem.store addr.toNat size ∧
      (operation pkt result.1 = .other ∨ operation pkt result.1 = .write (mask pkt.req.paddr)) := by
  obtain ⟨uninhibited, cmd | ⟨cmd, range⟩⟩ := apart
  · obtain ⟨performed, reached, rfl⟩ := access_performed uninhibited returns
    have swap : MemCmd.ReadReq ≠ .SwapReq := by decide
    have read : MemCmd.ReadReq.isRead = true := by decide
    have locks : MemCmd.ReadReq.isLLSC = false := by decide
    simp only [perform, cmd, swap, read, locks, Bool.false_eq_true, if_false, if_true,
      Option.bind_eq_bind, Option.bind_eq_some_iff, Option.pure_def, Option.some.injEq] at reached
    obtain ⟨_, _, loaded, _, rfl⟩ := reached
    refine ⟨rfl, .inl ?_⟩
    simp [operation, uninhibited, cmd, swap, read, locks]
  · obtain ⟨performed, reached, rfl⟩ := access_performed uninhibited returns
    have swap : MemCmd.WriteReq ≠ .SwapReq := by decide
    have read : MemCmd.WriteReq.isRead = false := by decide
    have invalidate : MemCmd.WriteReq.isInvalidate = false := by decide
    have write : MemCmd.WriteReq.isWrite = true := by decide
    have locks : MemCmd.WriteReq.isLLSC = false := by decide
    simp only [perform, writeOK, cmd, swap, read, invalidate, write, locks, Bool.false_eq_true,
      Bool.not_false, Bool.true_or, if_false, if_true, Option.bind_eq_bind,
      Option.bind_eq_some_iff, Option.pure_def, Option.some.injEq] at reached
    obtain ⟨data, taken, _, _, written, stored, rfl⟩ := reached
    unfold Packet.writeData at taken
    unfold hostWrite at stored
    split_ifs at taken stored with long
    obtain rfl := Option.some.inj taken
    obtain rfl := Option.some.inj stored
    refine ⟨ByteStore.read_write_apart _ ?_, .inr ?_⟩
    · rwa [List.length_take, min_eq_left long]
    · simp [operation, uninhibited, cmd, swap, read, invalidate, locks]

end AbstractMemory

/-- Contexts that update one word, each with what its last load locked returned. -/
structure SharedWord where
  mem : AbstractMemory
  register : Nat → List Byte

namespace SharedWord

inductive Event
  | load (context : Nat)
  | update (context : Nat)
  | other (pkt : Packet)

def request (addr : Addr) (context : Nat) : Request :=
  { Request.ofPhys addr 8 0 with contextId := context }

def loadLocked (addr : Addr) (context : Nat) : Packet :=
  Packet.new (request addr context) .LoadLockedReq

def storeCond (addr : Addr) (context : Nat) (data : List Byte) : Packet :=
  { Packet.new (request addr context) .StoreCondReq with data }

def step (update : List Byte → List Byte) (addr : Addr) (word : SharedWord) :
    Event → Option (SharedWord × List Bool)
  | .load context =>
      (word.mem.access (loadLocked addr context)).map fun result =>
        (⟨result.2, Function.update word.register context result.1.data⟩, [])
  | .update context =>
      (word.mem.access (storeCond addr context (update (word.register context)))).map
        fun result => ({ word with mem := result.2 }, [result.1.req.extraData == 1])
  | .other pkt =>
      (word.mem.access pkt).map fun result => ({ word with mem := result.2 }, [])

/-- The other accesses leave the word alone; they may well hit its granule. -/
def Permitted (addr : Addr) (_ : SharedWord) : Event → Prop
  | .other pkt => AbstractMemory.Apart addr 8 pkt
  | _ => True

def value (addr : Addr) (word : SharedWord) : List Byte :=
  ByteStore.read word.mem.store addr.toNat 8

structure Fresh (addr : Addr) (word : SharedWord) (reserved : Nat → Option Addr) : Prop where
  represents : word.mem.Represents reserved
  seen : ∀ context, reserved context = some (AbstractMemory.mask addr) →
    word.register context = word.value addr

variable {update : List Byte → List Byte} {addr : Addr} {word : SharedWord}
variable {reserved : Nat → Option Addr} {context : Nat} {result : Packet × AbstractMemory}

theorem operation_loadLocked (answer : Packet) :
    AbstractMemory.operation (loadLocked addr context) answer =
      .reserve context (AbstractMemory.mask addr) := by
  have cmd : (loadLocked addr context).cmd = .LoadLockedReq := rfl
  have swap : MemCmd.LoadLockedReq ≠ .SwapReq := by decide
  have read : MemCmd.LoadLockedReq.isRead = true := by decide
  have locks : MemCmd.LoadLockedReq.isLLSC = true := by decide
  have uninhibited : (loadLocked addr context).memInhibitAsserted = false := rfl
  simp only [AbstractMemory.operation, uninhibited, cmd, read, locks, if_true, Bool.false_or,
    beq_iff_eq, swap, if_false]
  rfl

theorem load_fresh (fresh : word.Fresh addr reserved)
    (returns : word.mem.access (loadLocked addr context) = some result) :
    Fresh addr ⟨result.2, Function.update word.register context result.1.data⟩
        (Function.update reserved context (some (AbstractMemory.mask addr))) ∧
      result.2.store = word.mem.store := by
  have represents := AbstractMemory.access_represents fresh.represents returns
  rw [operation_loadLocked] at represents
  have plain : (loadLocked addr context).req.isGather = false := by
    simp +decide [loadLocked, request, Packet.new, Request.ofPhys, Request.isGather, Request.isSet]
  obtain ⟨data, store⟩ := AbstractMemory.access_loadLocked rfl rfl plain returns
  refine ⟨⟨represents, fun owner held => ?_⟩, store⟩
  have same : value addr ⟨result.2, Function.update word.register context result.1.data⟩ =
      word.value addr := by
    simp only [value, store]
  rw [same]
  by_cases own : owner = context
  · subst own
    simp only [Function.update_self]
    exact data
  · rw [Function.update_of_ne own] at held
    simp only [Function.update_of_ne own]
    exact fresh.seen owner held

theorem operation_storeCond {data : List Byte} {answer : Packet}
    (succeeded : answer.req.extraData = 1) :
    AbstractMemory.operation (storeCond addr context data) answer =
      .write (AbstractMemory.mask addr) := by
  have cmd : (storeCond addr context data).cmd = .StoreCondReq := rfl
  have swap : MemCmd.StoreCondReq ≠ .SwapReq := by decide
  have read : MemCmd.StoreCondReq.isRead = false := by decide
  have invalidate : MemCmd.StoreCondReq.isInvalidate = false := by decide
  have uninhibited : (storeCond addr context data).memInhibitAsserted = false := rfl
  have stored : (answer.req.extraData == 0) = false := by
    rw [succeeded]
    decide
  simp only [AbstractMemory.operation, uninhibited, cmd, read, invalidate, stored, Bool.false_or,
    beq_iff_eq, swap, if_false, Bool.false_eq_true, Bool.and_false]
  rfl

theorem update_fresh (keeps : ∀ data : List Byte, data.length = 8 → (update data).length = 8)
    (fresh : word.Fresh addr reserved)
    (returns : word.mem.access (storeCond addr context (update (word.register context))) =
      some result) :
    (∃ later, Fresh addr { word with mem := result.2 } later) ∧
      value addr { word with mem := result.2 } =
        if result.1.req.extraData == 1 then update (word.value addr) else word.value addr := by
  have represents := AbstractMemory.access_represents fresh.represents returns
  have answered := AbstractMemory.access_storeCond fresh.represents rfl rfl returns
  split_ifs at answered with held
  · obtain ⟨succeeded, store⟩ := answered
    have seen : word.register context = word.value addr := fresh.seen context held
    have length : (update (word.value addr)).length = 8 :=
      keeps _ (ByteStore.length_read _ _ _)
    rw [operation_storeCond succeeded] at represents
    refine ⟨⟨_, represents, fun owner later => ?_⟩, ?_⟩
    · simp only [Monitor.step] at later
      split_ifs at later with ended
      exact absurd later ended
    · have data : (storeCond addr context (update (word.register context))).data =
          update (word.value addr) := by
        rw [seen]
        rfl
      have whole : (update (word.value addr)).take 8 = update (word.value addr) := by
        rw [← length, List.take_length]
      rw [value, store, succeeded, data]
      change ByteStore.read (ByteStore.write word.mem.store addr.toNat
        ((update (word.value addr)).take 8)) addr.toNat 8 = _
      rw [whole, ByteStore.read_write_self _ _ length]
      rfl
  · obtain ⟨failed, same⟩ := answered
    rw [same, failed]
    exact ⟨⟨reserved, fresh.represents, fresh.seen⟩, rfl⟩

theorem other_fresh {pkt : Packet} (fresh : word.Fresh addr reserved)
    (apart : AbstractMemory.Apart addr 8 pkt) (returns : word.mem.access pkt = some result) :
    (∃ later, Fresh addr { word with mem := result.2 } later) ∧
      value addr { word with mem := result.2 } = word.value addr := by
  have represents := AbstractMemory.access_represents fresh.represents returns
  obtain ⟨same, operation⟩ := AbstractMemory.access_apart apart returns
  refine ⟨⟨_, represents, fun owner later => ?_⟩, same⟩
  have held : reserved owner = some (AbstractMemory.mask addr) := by
    rcases operation with other | write
    · rwa [other] at later
    · rw [write] at later
      simp only [Monitor.step] at later
      split_ifs at later
      exact later
  rw [value, same]
  exact fresh.seen owner held

theorem step_value (keeps : ∀ data : List Byte, data.length = 8 → (update data).length = 8)
    {event : Event} {next : SharedWord} {sent : List Bool} (fresh : word.Fresh addr reserved)
    (permitted : Permitted addr word event) (moved : step update addr word event = some (next, sent)) :
    (∃ later, next.Fresh addr later) ∧
      next.value addr = update^[sent.count true] (word.value addr) := by
  cases event with
  | load context =>
      obtain ⟨result, returns, same⟩ := Option.map_eq_some_iff.mp moved
      obtain ⟨rfl, rfl⟩ := Prod.mk.inj same
      obtain ⟨later, store⟩ := load_fresh fresh returns
      refine ⟨⟨_, later⟩, ?_⟩
      simp only [value, store, List.count_nil, Function.iterate_zero, id_eq]
  | update context =>
      obtain ⟨result, returns, same⟩ := Option.map_eq_some_iff.mp moved
      obtain ⟨rfl, rfl⟩ := Prod.mk.inj same
      obtain ⟨later, stored⟩ := update_fresh keeps fresh returns
      refine ⟨later, stored.trans ?_⟩
      cases result.1.req.extraData == 1 <;> rfl
  | other pkt =>
      obtain ⟨result, returns, same⟩ := Option.map_eq_some_iff.mp moved
      obtain ⟨rfl, rfl⟩ := Prod.mk.inj same
      obtain ⟨later, stored⟩ := other_fresh fresh permitted returns
      exact ⟨later, stored⟩

/-- Contexts that update a word by load locked and store conditional lose no update,
whatever the order in which they and the accesses of others come: the word is as if each
update that was reported to work had been made alone. -/
theorem no_lost_update (update : List Byte → List Byte)
    (keeps : ∀ data : List Byte, data.length = 8 → (update data).length = 8) (addr : Addr)
    (mem : AbstractMemory) (unlocked : mem.lockedAddrList = []) (word : SharedWord)
    (outputs : List Bool)
    (reached : Machine.Reachable (step update addr) (Permitted addr) (fun word => word.mem = mem)
      word outputs) :
    word.value addr = update^[outputs.count true] (ByteStore.read mem.store addr.toNat 8) := by
  refine (reached.invariant (P := fun word outputs => (∃ reserved, word.Fresh addr reserved) ∧
    word.value addr =
      update^[outputs.count true] (ByteStore.read mem.store addr.toNat 8)) ?_ ?_).2
  · rintro word rfl
    refine ⟨⟨fun _ => none, ⟨by simp [unlocked], fun lock => by simp [unlocked]⟩, ?_⟩, rfl⟩
    intro context held
    cases held
  · rintro word event next sent more ⟨⟨reserved, fresh⟩, before⟩ permitted moved
    obtain ⟨later, after⟩ := step_value keeps fresh permitted moved
    refine ⟨later, ?_⟩
    rw [after, before, List.count_append, Nat.add_comm, Function.iterate_add_apply]

theorem no_lost_update_race : ∃ word outputs,
    Machine.Reachable (step (List.map (· + 1)) 0) (Permitted 0) (fun word => word.mem = sampleTile)
      word outputs ∧ outputs = [true, false] ∧
      word.value 0 = (List.map (· + 1)) (ByteStore.read sampleTile.store 0 8) := by
  have idle : Machine.Reachable (step (List.map (· + 1)) 0) (Permitted 0)
      (fun word => word.mem = sampleTile) ⟨sampleTile, fun _ => []⟩ [] := .start rfl
  have first := idle.step (.load 0) trivial rfl
  have both := first.step (.load 1) trivial rfl
  have updated := both.step (.update 0) trivial rfl
  have raced := updated.step (.update 1) trivial rfl
  refine ⟨_, _, raced, rfl, ?_⟩
  exact no_lost_update (List.map (· + 1)) (fun data length => by simp [length]) 0 sampleTile rfl _ _
    raced

end SharedWord

end LlvmGather
