import LlvmGather.Gather.Functional
import LlvmGather.Library.Machine

/-!
The timing mode of `simple_mem.cc`: requests that are refused while the memory is busy,
responses that wait in a queue for their tick and for a peer that takes them. `none` stands
for a failed assertion, of the memory or of the event queue. Ticks are natural numbers.
-/

namespace LlvmGather

structure DeferredPacket where
  tick : Nat
  pkt : Packet

/-- The parameters. `duration` is the product of a size with the bandwidth, as a tick. -/
structure SimpleMemoryParams where
  latency : Nat
  latencyVar : Nat
  duration : Nat → Nat

structure SimpleMemory where
  mem : AbstractMemory
  packetQueue : List DeferredPacket
  isBusy : Bool
  retryReq : Bool
  retryResp : Bool
  releaseEvent : Option Nat
  dequeueEvent : Option Nat
  drainManager : Bool
  curTick : Nat

inductive MemoryOutput
  | inhibited (pkt : Packet)
  | refused (pkt : Packet)
  | accepted (pkt : Packet) (tick : Nat)
  | sendRetryReq
  | response (pkt : Packet) (tick : Nat)
  | blocked
  | functional (pkt : Packet) (bytesValid : List Bool)
  | drainDone

/-- A call of `recvTimingReq`, with the number that `getLatency` draws. -/
structure TimingReq where
  pkt : Packet
  draw : Nat

inductive MemoryEvent
  | advance (tick : Nat)
  | recvTimingReq (call : TimingReq)
  | recvFunctional (pkt : Packet) (bytesValid : List Bool)
  | release
  /-- The event fires, and `sendTimingResp` returns `sent` after calls of its own. -/
  | dequeue (nested : List TimingReq) (sent : Bool)
  | recvRespRetry (nested : List TimingReq) (sent : Bool)
  | drain

def schedule (event : Option Nat) (curTick tick : Nat) : Option (Option Nat) :=
  if event = none ∧ curTick ≤ tick then some (some tick) else none

namespace SimpleMemory

def start (mem : AbstractMemory) : SimpleMemory where
  mem := mem
  packetQueue := []
  isBusy := false
  retryReq := false
  retryResp := false
  releaseEvent := none
  dequeueEvent := none
  drainManager := false
  curTick := 0

variable (params : SimpleMemoryParams)

def getLatency (draw : Nat) : Nat := params.latency + min draw params.latencyVar

def regulates (pkt : Packet) : Bool :=
  (pkt.cmd.isRead || pkt.cmd.isWrite) && decide (params.duration pkt.size ≠ 0)

def occupy (pkt : Packet) (memory : SimpleMemory) : Option SimpleMemory :=
  if regulates params pkt then do
    let releaseEvent ← schedule memory.releaseEvent memory.curTick
      (memory.curTick + params.duration pkt.size)
    return { memory with releaseEvent, isBusy := true }
  else some memory

def enqueue (deferred : DeferredPacket) (memory : SimpleMemory) : Option SimpleMemory :=
  let packetQueue := memory.packetQueue ++ [deferred]
  if !memory.retryResp && memory.dequeueEvent.isNone then do
    let dequeueEvent ← schedule memory.dequeueEvent memory.curTick deferred.tick
    return { memory with packetQueue, dequeueEvent }
  else some { memory with packetQueue }

def accept (call : TimingReq) (memory : SimpleMemory) : Option SimpleMemory := do
  let occupied ← memory.occupy params call.pkt
  let accessed ← occupied.mem.access call.pkt
  let after := { occupied with mem := accessed.2 }
  if call.pkt.cmd.needsResponse then
    guard (accessed.1.cmd.isResponse = true)
    after.enqueue ⟨memory.curTick + getLatency params call.draw, accessed.1⟩
  else return after

def recvTimingReq (memory : SimpleMemory) (call : TimingReq) :
    Option (SimpleMemory × List MemoryOutput) :=
  if call.pkt.memInhibitAsserted then some (memory, [.inhibited call.pkt])
  else if memory.retryReq then some (memory, [.refused call.pkt])
  else if memory.isBusy then some ({ memory with retryReq := true }, [.refused call.pkt])
  else (memory.accept params call).map (·, [.accepted call.pkt memory.curTick])

def release (memory : SimpleMemory) : Option (SimpleMemory × List MemoryOutput) :=
  if memory.isBusy then
    some ({ memory with isBusy := false, retryReq := false },
      if memory.retryReq then [.sendRetryReq] else [])
  else none

def dequeued (memory : SimpleMemory) : SimpleMemory × List MemoryOutput :=
  match memory.packetQueue.tail with
  | next :: rest =>
      ({ memory with
        retryResp := false
        packetQueue := next :: rest
        dequeueEvent := some (max next.tick memory.curTick) }, [])
  | [] =>
      ({ memory with retryResp := false, packetQueue := [], drainManager := false },
        if memory.drainManager then [.drainDone] else [])

/-- The peer may call the memory while it is sent the response, which is then still in
the queue. -/
def dequeue (nested : List TimingReq) (sent : Bool) (memory : SimpleMemory) :
    Option (SimpleMemory × List MemoryOutput) :=
  match memory.packetQueue with
  | [] => none
  | front :: _ => do
      let called ← Machine.run (recvTimingReq params) memory nested
      if sent then
        return (called.1.dequeued.1,
          called.2 ++ .response front.pkt memory.curTick :: called.1.dequeued.2)
      else return ({ called.1 with retryResp := true }, called.2 ++ [.blocked])

def recvRespRetry (nested : List TimingReq) (sent : Bool) (memory : SimpleMemory) :
    Option (SimpleMemory × List MemoryOutput) := do
  guard (memory.retryResp = true)
  memory.dequeue params nested sent

def recvFunctional (pkt : Packet) (bytesValid : List Bool) (memory : SimpleMemory) :
    Option (SimpleMemory × List MemoryOutput) := do
  let received ← LlvmGather.recvFunctional memory.mem (memory.packetQueue.map (·.pkt)) pkt bytesValid
  let packetQueue := memory.packetQueue.zipWith (fun deferred pkt => { deferred with pkt })
    received.2.2
  return ({ memory with mem := received.2.1, packetQueue }, [.functional pkt bytesValid])

def drain (memory : SimpleMemory) : SimpleMemory :=
  if memory.packetQueue.isEmpty then memory else { memory with drainManager := true }

def step (memory : SimpleMemory) : MemoryEvent → Option (SimpleMemory × List MemoryOutput)
  | .advance tick => some ({ memory with curTick := tick }, [])
  | .recvTimingReq call => memory.recvTimingReq params call
  | .recvFunctional pkt bytesValid => memory.recvFunctional pkt bytesValid
  | .release => { memory with releaseEvent := none }.release
  | .dequeue nested sent => { memory with dequeueEvent := none }.dequeue params nested sent
  | .recvRespRetry nested sent => memory.recvRespRetry params nested sent
  | .drain => some (memory.drain, [])

end SimpleMemory

/-- A memory that answers at once and keeps its answers in order, without time. -/
structure InOrder where
  mem : AbstractMemory
  waiting : List Packet

namespace InOrder

inductive Event
  | accept (pkt : Packet)
  | functional (pkt : Packet) (bytesValid : List Bool)
  | deliver

def step (memory : InOrder) : Event → Option (InOrder × List Packet)
  | .accept pkt => do
      let accessed ← memory.mem.access pkt
      let answers := if pkt.cmd.needsResponse then [accessed.1] else []
      return (⟨accessed.2, memory.waiting ++ answers⟩, [])
  | .functional pkt bytesValid => do
      let received ← recvFunctional memory.mem memory.waiting pkt bytesValid
      return (⟨received.2.1, received.2.2⟩, [])
  | .deliver =>
      match memory.waiting with
      | [] => none
      | pkt :: rest => some (⟨memory.mem, rest⟩, [pkt])

end InOrder

namespace MemoryOutput

def abstractEvent : MemoryOutput → Option InOrder.Event
  | .accepted pkt _ => some (.accept pkt)
  | .functional pkt bytesValid => some (.functional pkt bytesValid)
  | .response _ _ => some .deliver
  | _ => none

def delivered : MemoryOutput → Option Packet
  | .response pkt _ => some pkt
  | _ => none

end MemoryOutput

theorem Packet.length_checkQueue {queue : List Packet} {pkt : Packet} {bytesValid : List Bool}
    {checked : Packet × List Packet} (returns : pkt.checkQueue bytesValid queue = some checked) :
    checked.2.length = queue.length := by
  induction queue generalizing pkt bytesValid checked with
  | nil =>
      simp only [checkQueue, Option.some.injEq] at returns
      rw [← returns]
  | cons other rest ih =>
      simp only [checkQueue, Option.bind_eq_bind, Option.bind_eq_some_iff] at returns
      obtain ⟨first, _, returns⟩ := returns
      split_ifs at returns with done
      · simp only [Option.pure_def, Option.some.injEq] at returns
        rw [← returns]
        rfl
      · obtain ⟨later, reached, last⟩ := Option.bind_eq_some_iff.mp returns
        simp only [Option.pure_def, Option.some.injEq] at last
        rw [← last, List.length_cons, List.length_cons, ih reached]

namespace SimpleMemory

variable {params : SimpleMemoryParams} {memory next : SimpleMemory} {outputs : List MemoryOutput}

def view (memory : SimpleMemory) : InOrder := ⟨memory.mem, memory.packetQueue.map (·.pkt)⟩

def Follows (memory : SimpleMemory) (outputs : List MemoryOutput) (next : SimpleMemory) : Prop :=
  Machine.run InOrder.step memory.view (outputs.filterMap MemoryOutput.abstractEvent) =
    some (next.view, outputs.filterMap MemoryOutput.delivered)

theorem Follows.trans {last : SimpleMemory} {more : List MemoryOutput}
    (first : memory.Follows outputs next) (second : next.Follows more last) :
    memory.Follows (outputs ++ more) last := by
  rw [Follows, List.filterMap_append, List.filterMap_append, Machine.run_append_eq_some]
  exact ⟨_, _, _, first, second, rfl⟩

theorem Follows.silent (same : next.view = memory.view)
    (events : outputs.filterMap MemoryOutput.abstractEvent = [])
    (delivered : outputs.filterMap MemoryOutput.delivered = []) :
    memory.Follows outputs next := by
  rw [Follows, events, delivered, same]
  rfl

theorem occupy_eq_some {pkt : Packet} (returns : memory.occupy params pkt = some next) :
    (regulates params pkt = true ∧ memory.releaseEvent = none ∧
      next = { memory with
        releaseEvent := some (memory.curTick + params.duration pkt.size)
        isBusy := true }) ∨
    (regulates params pkt = false ∧ next = memory) := by
  unfold occupy at returns
  split_ifs at returns with regulated
  · simp only [schedule, Option.bind_eq_bind, Option.bind_eq_some_iff, Option.pure_def,
      Option.some.injEq] at returns
    obtain ⟨event, scheduled, rfl⟩ := returns
    split_ifs at scheduled with free
    obtain rfl := Option.some.inj scheduled
    exact .inl ⟨regulated, free.1, rfl⟩
  · exact .inr ⟨by simpa using regulated, (Option.some.inj returns).symm⟩

theorem enqueue_eq_some {deferred : DeferredPacket}
    (returns : memory.enqueue deferred = some next) :
    (memory.retryResp = false ∧ memory.dequeueEvent = none ∧ memory.curTick ≤ deferred.tick ∧
      next = { memory with
        packetQueue := memory.packetQueue ++ [deferred]
        dequeueEvent := some deferred.tick }) ∨
    ((memory.retryResp = true ∨ memory.dequeueEvent ≠ none) ∧
      next = { memory with packetQueue := memory.packetQueue ++ [deferred] }) := by
  unfold enqueue at returns
  split_ifs at returns with idle
  · simp only [schedule, Option.bind_eq_bind, Option.bind_eq_some_iff, Option.pure_def,
      Option.some.injEq] at returns
    obtain ⟨event, scheduled, rfl⟩ := returns
    split_ifs at scheduled with free
    obtain rfl := Option.some.inj scheduled
    simp only [Bool.and_eq_true, Bool.not_eq_true'] at idle
    exact .inl ⟨idle.1, free.1, free.2, rfl⟩
  · refine .inr ⟨?_, (Option.some.inj returns).symm⟩
    by_contra neither
    push Not at neither
    simp [neither.1, neither.2] at idle

theorem accept_view {call : TimingReq} (returns : memory.accept params call = some next) :
    ∃ accessed, memory.mem.access call.pkt = some accessed ∧ next.mem = accessed.2 ∧
      next.packetQueue = memory.packetQueue ++
        if call.pkt.cmd.needsResponse then
          [⟨memory.curTick + getLatency params call.draw, accessed.1⟩]
        else [] := by
  simp only [accept, Option.bind_eq_bind, Option.bind_eq_some_iff] at returns
  obtain ⟨occupied, regulated, accessed, performed, returns⟩ := returns
  have same : occupied.mem = memory.mem ∧ occupied.packetQueue = memory.packetQueue := by
    rcases occupy_eq_some regulated with ⟨_, _, rfl⟩ | ⟨_, rfl⟩ <;> exact ⟨rfl, rfl⟩
  refine ⟨accessed, by rw [← same.1]; exact performed, ?_⟩
  split_ifs at returns ⊢ with answered
  · obtain ⟨_, _, queued⟩ := Option.bind_eq_some_iff.mp returns
    rcases enqueue_eq_some queued with ⟨_, _, _, rfl⟩ | ⟨_, rfl⟩ <;> simp [same.2]
  · obtain rfl := Option.some.inj returns
    simp [same.2]

theorem recvTimingReq_follows {call : TimingReq}
    (returns : memory.recvTimingReq params call = some (next, outputs)) :
    memory.Follows outputs next ∧ ∃ more, next.packetQueue = memory.packetQueue ++ more := by
  unfold recvTimingReq at returns
  split_ifs at returns with inhibited retrying busy
  · simp only [Option.some.injEq, Prod.mk.injEq] at returns
    obtain ⟨rfl, rfl⟩ := returns
    exact ⟨Follows.silent rfl rfl rfl, [], by simp⟩
  · simp only [Option.some.injEq, Prod.mk.injEq] at returns
    obtain ⟨rfl, rfl⟩ := returns
    exact ⟨Follows.silent rfl rfl rfl, [], by simp⟩
  · simp only [Option.some.injEq, Prod.mk.injEq] at returns
    obtain ⟨rfl, rfl⟩ := returns
    exact ⟨Follows.silent rfl rfl rfl, [], by simp⟩
  · simp only [Option.map_eq_some_iff, Prod.mk.injEq] at returns
    obtain ⟨after, accepted, rfl, rfl⟩ := returns
    obtain ⟨accessed, performed, stored, queued⟩ := accept_view accepted
    refine ⟨?_, _, queued⟩
    simp only [Follows, List.filterMap_cons, MemoryOutput.abstractEvent, MemoryOutput.delivered,
      List.filterMap_nil, Machine.run, InOrder.step, view, performed, stored, queued]
    by_cases answered : call.pkt.cmd.needsResponse = true <;> simp [answered]

theorem nested_follows {nested : List TimingReq}
    (runs : Machine.run (recvTimingReq params) memory nested = some (next, outputs)) :
    memory.Follows outputs next ∧ ∃ more, next.packetQueue = memory.packetQueue ++ more := by
  have base : memory.Follows [] memory ∧
      ∃ more, memory.packetQueue = memory.packetQueue ++ more :=
    ⟨Follows.silent rfl rfl rfl, [], by simp⟩
  refine Machine.run_rule (P := fun sent reached => memory.Follows sent reached ∧
    ∃ more, reached.packetQueue = memory.packetQueue ++ more) ?_ [] base runs
  rintro sent state call after more ⟨before, queue, grown⟩ moved
  obtain ⟨follows, later, added⟩ := recvTimingReq_follows moved
  exact ⟨before.trans follows, queue ++ later, by rw [added, grown, List.append_assoc]⟩

theorem dequeued_follows {front : DeferredPacket} {rest : List DeferredPacket} (tick : Nat)
    (queue : memory.packetQueue = front :: rest) :
    memory.Follows (.response front.pkt tick :: memory.dequeued.2) memory.dequeued.1 := by
  cases rest with
  | nil =>
      by_cases drains : memory.drainManager = true <;>
        simp [Follows, dequeued, queue, drains, view, List.filterMap_cons,
          MemoryOutput.abstractEvent, MemoryOutput.delivered, Machine.run, InOrder.step]
  | cons second rest =>
      simp [Follows, dequeued, queue, view, MemoryOutput.abstractEvent,
        MemoryOutput.delivered, Machine.run, InOrder.step]

theorem dequeue_follows {nested : List TimingReq} {sent : Bool}
    (returns : memory.dequeue params nested sent = some (next, outputs)) :
    memory.Follows outputs next := by
  unfold dequeue at returns
  split at returns
  · cases returns
  next front rest queue =>
    obtain ⟨called, runs, returns⟩ := Option.bind_eq_some_iff.mp returns
    obtain ⟨follows, more, grown⟩ := nested_follows runs
    cases sent with
    | true =>
        simp only [if_true, Option.pure_def, Option.some.injEq, Prod.mk.injEq] at returns
        obtain ⟨rfl, rfl⟩ := returns
        rw [queue, List.cons_append] at grown
        exact follows.trans (dequeued_follows memory.curTick grown)
    | false =>
        simp only [Bool.false_eq_true, if_false, Option.pure_def, Option.some.injEq,
          Prod.mk.injEq] at returns
        obtain ⟨rfl, rfl⟩ := returns
        exact follows.trans (Follows.silent rfl rfl rfl)

theorem map_pkt_zipWith {queue : List DeferredPacket} {changed : List Packet}
    (length : changed.length = queue.length) :
    (queue.zipWith (fun deferred pkt => { deferred with pkt }) changed).map (·.pkt) = changed := by
  induction queue generalizing changed with
  | nil => simpa using length
  | cons deferred rest ih =>
      cases changed with
      | nil => simp at length
      | cons pkt others => simp [ih (by simpa using length)]

theorem map_tick_zipWith {queue : List DeferredPacket} {changed : List Packet}
    (length : changed.length = queue.length) :
    (queue.zipWith (fun deferred pkt => { deferred with pkt }) changed).map (·.tick) =
      queue.map (·.tick) := by
  induction queue generalizing changed with
  | nil => rfl
  | cons deferred rest ih =>
      cases changed with
      | nil => simp at length
      | cons pkt others => simp [ih (by simpa using length)]

theorem length_received {pkt : Packet} {bytesValid : List Bool}
    {received : Packet × AbstractMemory × List Packet}
    (reached : LlvmGather.recvFunctional memory.mem (memory.packetQueue.map (·.pkt)) pkt bytesValid =
      some received) : received.2.2.length = memory.packetQueue.length := by
  simp only [LlvmGather.recvFunctional, Option.bind_eq_bind, Option.bind_eq_some_iff,
    Option.pure_def, Option.some.injEq] at reached
  obtain ⟨_, _, checked, queue, rfl⟩ := reached
  simpa using Packet.length_checkQueue queue

theorem recvFunctional_follows {pkt : Packet} {bytesValid : List Bool}
    (returns : memory.recvFunctional pkt bytesValid = some (next, outputs)) :
    memory.Follows outputs next := by
  simp only [recvFunctional, Option.bind_eq_bind, Option.bind_eq_some_iff, Option.pure_def,
    Option.some.injEq, Prod.mk.injEq] at returns
  obtain ⟨received, reached, rfl, rfl⟩ := returns
  simp [Follows, MemoryOutput.abstractEvent, MemoryOutput.delivered, Machine.run, InOrder.step,
    view, reached, map_pkt_zipWith (length_received reached)]

theorem release_eq_some (returns : memory.release = some (next, outputs)) :
    memory.isBusy = true ∧ next = { memory with isBusy := false, retryReq := false } ∧
      outputs = if memory.retryReq then [.sendRetryReq] else [] := by
  unfold release at returns
  by_cases busy : memory.isBusy = true
  · rw [if_pos busy, Option.some.injEq, Prod.mk.injEq] at returns
    exact ⟨busy, returns.1.symm, returns.2.symm⟩
  · rw [if_neg busy] at returns
    cases returns

theorem step_follows {event : MemoryEvent}
    (moved : memory.step params event = some (next, outputs)) : memory.Follows outputs next := by
  cases event with
  | advance tick =>
      simp only [step, Option.some.injEq, Prod.mk.injEq] at moved
      obtain ⟨rfl, rfl⟩ := moved
      exact Follows.silent rfl rfl rfl
  | recvTimingReq call => exact (recvTimingReq_follows moved).1
  | recvFunctional pkt bytesValid => exact recvFunctional_follows moved
  | release =>
      obtain ⟨-, rfl, rfl⟩ := release_eq_some moved
      split_ifs <;> exact Follows.silent rfl rfl rfl
  | dequeue nested sent =>
      have follows := dequeue_follows moved
      exact follows
  | recvRespRetry nested sent =>
      obtain ⟨_, _, returns⟩ := Option.bind_eq_some_iff.mp moved
      exact dequeue_follows returns
  | drain =>
      simp only [step, Option.some.injEq, Prod.mk.injEq] at moved
      obtain ⟨rfl, rfl⟩ := moved
      refine Follows.silent ?_ rfl rfl
      rw [drain]
      split_ifs <;> rfl

/-- Whatever is refused, delayed, retried or sent from inside a response, the peer sees a
memory that performs the requests it accepts at once and delivers their answers in order. -/
theorem run_follows_inOrder (params : SimpleMemoryParams) (mem : AbstractMemory)
    (events : List MemoryEvent) (final : SimpleMemory) (outputs : List MemoryOutput)
    (runs : Machine.run (step params) (start mem) events = some (final, outputs)) :
    Machine.run InOrder.step ⟨mem, []⟩ (outputs.filterMap MemoryOutput.abstractEvent) =
      some (⟨final.mem, final.packetQueue.map (·.pkt)⟩,
        outputs.filterMap MemoryOutput.delivered) := by
  have base : (start mem).Follows [] (start mem) := Follows.silent rfl rfl rfl
  refine Machine.run_rule (P := (start mem).Follows) ?_ [] base runs
  intro sent state event after more before moved
  exact before.trans (step_follows moved)

def sampleParams : SimpleMemoryParams := ⟨10, 0, id⟩

def retriedEvents : List MemoryEvent :=
  [.recvTimingReq ⟨plainRead 0, 0⟩, .recvTimingReq ⟨plainRead 8, 0⟩, .advance 8, .release,
    .recvTimingReq ⟨plainRead 8, 0⟩, .advance 10, .dequeue [] false, .recvRespRetry [] true]

theorem run_follows_inOrder_retried : ∃ final outputs,
    Machine.run (step sampleParams) (start sampleTile) retriedEvents = some (final, outputs) ∧
      (outputs.filterMap MemoryOutput.delivered).length = 1 ∧
      Machine.run InOrder.step ⟨sampleTile, []⟩
          (outputs.filterMap MemoryOutput.abstractEvent) =
        some (⟨final.mem, final.packetQueue.map (·.pkt)⟩,
          outputs.filterMap MemoryOutput.delivered) := by
  have delivers : (Machine.run (step sampleParams) (start sampleTile) retriedEvents).map
      (fun reached => (reached.2.filterMap MemoryOutput.delivered).length) = some 1 := rfl
  obtain ⟨reached, runs, length⟩ := Option.map_eq_some_iff.mp delivers
  exact ⟨reached.1, reached.2, runs, length,
    run_follows_inOrder sampleParams sampleTile retriedEvents reached.1 reached.2 runs⟩

end SimpleMemory

end LlvmGather
