import LlvmGather.Gather.SimpleMemory

/-!
The flow control of `simple_mem.cc` over whole runs, against a peer that keeps to the
protocol of the ports: no assertion fails and no wakeup is lost.
-/

namespace LlvmGather

namespace SimpleMemory

variable {params : SimpleMemoryParams} {memory next : SimpleMemory} {outputs : List MemoryOutput}

def accepted (params : SimpleMemoryParams) (memory : SimpleMemory) (call : TimingReq)
    (result : Packet × AbstractMemory) : SimpleMemory :=
  let tick := memory.curTick + getLatency params call.draw
  { memory with
    mem := result.2
    packetQueue := memory.packetQueue ++
      if call.pkt.cmd.needsResponse then [⟨tick, result.1⟩] else []
    isBusy := memory.isBusy || regulates params call.pkt
    releaseEvent :=
      if regulates params call.pkt then some (memory.curTick + params.duration call.pkt.size)
      else memory.releaseEvent
    dequeueEvent :=
      if call.pkt.cmd.needsResponse && (!memory.retryResp && memory.dequeueEvent.isNone) then
        some tick
      else memory.dequeueEvent }

theorem occupy_eq (pkt : Packet) (free : memory.releaseEvent = none) :
    memory.occupy params pkt = some { memory with
      isBusy := memory.isBusy || regulates params pkt
      releaseEvent :=
        if regulates params pkt then some (memory.curTick + params.duration pkt.size)
        else memory.releaseEvent } := by
  unfold occupy
  split_ifs with limited
  · simp [schedule, free, limited]
  · simp [limited]

theorem enqueue_eq (deferred : DeferredPacket) (soon : memory.curTick ≤ deferred.tick) :
    memory.enqueue deferred = some { memory with
      packetQueue := memory.packetQueue ++ [deferred]
      dequeueEvent :=
        if !memory.retryResp && memory.dequeueEvent.isNone then some deferred.tick
        else memory.dequeueEvent } := by
  unfold enqueue
  split_ifs with idle
  · have unscheduled : memory.dequeueEvent = none := by
      simp only [Bool.and_eq_true, Option.isNone_iff_eq_none] at idle
      exact idle.2
    simp [schedule, unscheduled, soon]
  · rfl

theorem accept_eq {call : TimingReq} {result : Packet × AbstractMemory}
    (uninhibited : call.pkt.memInhibitAsserted = false) (free : memory.releaseEvent = none)
    (performed : memory.mem.access call.pkt = some result) :
    memory.accept params call = some (memory.accepted params call result) := by
  have responds := (AbstractMemory.access_frame uninhibited performed).2
  have soon : memory.curTick ≤ memory.curTick + getLatency params call.draw := by omega
  simp only [accept, occupy_eq call.pkt free, Option.bind_eq_bind, Option.bind_some, performed]
  by_cases needs : call.pkt.cmd.needsResponse = true
  · simp only [needs, if_true, responds needs, guard_true, Option.pure_def, Option.bind_some]
    rw [enqueue_eq _ soon]
    simp [accepted, needs]
  · simp [accepted, needs]

structure Regulated (memory : SimpleMemory) : Prop where
  busy : memory.isBusy = memory.releaseEvent.isSome
  retry : memory.retryReq = true → memory.isBusy = true
  later : ∀ tick ∈ memory.releaseEvent, memory.curTick ≤ tick

structure Flow (memory : SimpleMemory) (owed : Bool) : Prop extends memory.Regulated where
  owes : memory.retryResp = owed
  idle : memory.packetQueue = [] →
    memory.dequeueEvent = none ∧ memory.retryResp = false ∧ memory.drainManager = false
  waiting : ∀ front ∈ memory.packetQueue.head?,
    (memory.retryResp = true ∧ memory.dequeueEvent = none ∧ front.tick ≤ memory.curTick) ∨
    (memory.retryResp = false ∧ ∃ tick, memory.dequeueEvent = some tick ∧
      front.tick ≤ tick ∧ memory.curTick ≤ tick)

def Answerable (mem : AbstractMemory) (pkt : Packet) : Prop :=
  pkt.memInhibitAsserted = false →
    ∀ other : AbstractMemory, other.start = mem.start → other.last = mem.last →
      (other.access pkt).isSome = true

theorem Regulated.free (regulated : memory.Regulated) (idle : memory.isBusy = false) :
    memory.releaseEvent = none := by
  have busy := regulated.busy
  rw [idle] at busy
  simpa using busy.symm

theorem recvTimingReq_cases {call : TimingReq} (regulated : memory.Regulated)
    (returns : memory.recvTimingReq params call = some (next, outputs)) :
    (∃ retryReq, next = { memory with retryReq } ∧ (retryReq = true → memory.isBusy = true) ∧
      (outputs = [.inhibited call.pkt] ∨ outputs = [.refused call.pkt])) ∨
    ∃ result, memory.mem.access call.pkt = some result ∧ memory.releaseEvent = none ∧
      memory.retryReq = false ∧ memory.isBusy = false ∧
      result.2.start = memory.mem.start ∧ result.2.last = memory.mem.last ∧
      next = memory.accepted params call result ∧
      outputs = [.accepted call.pkt memory.curTick] := by
  unfold recvTimingReq at returns
  split_ifs at returns with inhibited retrying busy
  · simp only [Option.some.injEq, Prod.mk.injEq] at returns
    obtain ⟨rfl, rfl⟩ := returns
    exact .inl ⟨memory.retryReq, rfl, regulated.retry, .inl rfl⟩
  · simp only [Option.some.injEq, Prod.mk.injEq] at returns
    obtain ⟨rfl, rfl⟩ := returns
    exact .inl ⟨memory.retryReq, rfl, regulated.retry, .inr rfl⟩
  · simp only [Option.some.injEq, Prod.mk.injEq] at returns
    obtain ⟨rfl, rfl⟩ := returns
    exact .inl ⟨true, rfl, fun _ => busy, .inr rfl⟩
  · simp only [Option.map_eq_some_iff, Prod.mk.injEq] at returns
    obtain ⟨after, accepted, rfl, rfl⟩ := returns
    have idle : memory.isBusy = false := by simpa using busy
    have uninhibited : call.pkt.memInhibitAsserted = false := by simpa using inhibited
    obtain ⟨result, performed, -⟩ := accept_view accepted
    rw [accept_eq uninhibited (regulated.free idle) performed] at accepted
    obtain ⟨start, last⟩ := (AbstractMemory.access_frame uninhibited performed).1
    exact .inr ⟨result, performed, regulated.free idle, by simpa using retrying, idle, start, last,
      (Option.some.inj accepted).symm, rfl⟩

theorem recvTimingReq_isSome {call : TimingReq} (regulated : memory.Regulated)
    (answerable : Answerable memory.mem call.pkt) :
    (memory.recvTimingReq params call).isSome = true := by
  unfold recvTimingReq
  split_ifs with inhibited retrying busy
  · rfl
  · rfl
  · rfl
  · have uninhibited : call.pkt.memInhibitAsserted = false := by simpa using inhibited
    obtain ⟨result, performed⟩ :=
      Option.isSome_iff_exists.mp (answerable uninhibited memory.mem rfl rfl)
    rw [accept_eq uninhibited (regulated.free (by simpa using busy)) performed]
    rfl

theorem recvTimingReq_regulated {call : TimingReq} (regulated : memory.Regulated)
    (returns : memory.recvTimingReq params call = some (next, outputs)) : next.Regulated := by
  rcases recvTimingReq_cases regulated returns with
    ⟨retryReq, rfl, retry, -⟩ | ⟨result, -, free, quiet, idle, -, -, rfl, -⟩
  · exact ⟨regulated.busy, retry, regulated.later⟩
  · refine ⟨?_, fun retrying => absurd retrying (by simp [accepted, quiet]), ?_⟩
    · by_cases limited : regulates params call.pkt = true <;> simp [accepted, limited, idle, free]
    · intro tick scheduled
      by_cases limited : regulates params call.pkt = true
      · simp only [accepted, limited, if_true, Option.mem_def, Option.some.injEq] at scheduled ⊢
        omega
      · simp [accepted, limited, free] at scheduled

structure Inside (memory next : SimpleMemory) : Prop extends next.Regulated where
  queue : ∃ more, next.packetQueue = memory.packetQueue ++ more
  curTick : next.curTick = memory.curTick
  start : next.mem.start = memory.mem.start
  last : next.mem.last = memory.mem.last

theorem recvTimingReq_inside {call : TimingReq} (regulated : memory.Regulated)
    (returns : memory.recvTimingReq params call = some (next, outputs)) :
    memory.Inside next := by
  have kept := recvTimingReq_regulated regulated returns
  have grown := (recvTimingReq_follows returns).2
  rcases recvTimingReq_cases regulated returns with
    ⟨retryReq, rfl, -, -⟩ | ⟨result, -, -, -, -, start, last, rfl, -⟩
  · exact ⟨kept, grown, rfl, rfl, rfl⟩
  · exact ⟨kept, grown, rfl, start, last⟩

theorem Inside.trans {after : SimpleMemory} (first : memory.Inside next)
    (second : next.Inside after) : memory.Inside after := by
  obtain ⟨more, grown⟩ := first.queue
  obtain ⟨others, added⟩ := second.queue
  exact ⟨second.toRegulated, ⟨more ++ others, by rw [added, grown, List.append_assoc]⟩,
    second.curTick.trans first.curTick, second.start.trans first.start,
    second.last.trans first.last⟩

theorem Inside.refl (regulated : memory.Regulated) : memory.Inside memory :=
  ⟨regulated, ⟨[], by simp⟩, rfl, rfl, rfl⟩

theorem nested_inside {nested : List TimingReq} (regulated : memory.Regulated)
    (runs : Machine.run (recvTimingReq params) memory nested = some (next, outputs)) :
    memory.Inside next := by
  refine Machine.run_rule (P := fun _ reached => memory.Inside reached) ?_ []
    (Inside.refl regulated) runs
  intro _ state call after _ inside moved
  exact inside.trans (recvTimingReq_inside inside.toRegulated moved)

theorem nested_isSome {nested : List TimingReq} (regulated : memory.Regulated)
    (answerable : ∀ call ∈ nested, Answerable memory.mem call.pkt) :
    (Machine.run (recvTimingReq params) memory nested).isSome = true := by
  induction nested generalizing memory with
  | nil => rfl
  | cons call rest ih =>
      have first : (memory.recvTimingReq params call).isSome = true :=
        recvTimingReq_isSome regulated (answerable call List.mem_cons_self)
      obtain ⟨⟨after, sent⟩, moved⟩ := Option.isSome_iff_exists.mp first
      have inside := recvTimingReq_inside regulated moved
      have later : ∀ other ∈ rest, Answerable after.mem other.pkt := by
        intro other member uninhibited mem start last
        exact answerable other (.tail _ member) uninhibited mem (start.trans inside.start)
          (last.trans inside.last)
      obtain ⟨reached, runs⟩ := Option.isSome_iff_exists.mp (ih inside.toRegulated later)
      simp [Machine.run, moved, runs]

theorem recvTimingReq_flow {call : TimingReq} {owed : Bool} (flow : memory.Flow owed)
    (returns : memory.recvTimingReq params call = some (next, outputs)) : next.Flow owed := by
  have kept := recvTimingReq_regulated flow.toRegulated returns
  rcases recvTimingReq_cases flow.toRegulated returns with
    ⟨retryReq, rfl, -, -⟩ | ⟨result, -, -, -, -, -, -, rfl, -⟩
  · exact ⟨kept, flow.owes, flow.idle, flow.waiting⟩
  by_cases answered : call.pkt.cmd.needsResponse = true
  · refine ⟨kept, flow.owes, fun empty => by simp [accepted, answered] at empty, ?_⟩
    cases queue : memory.packetQueue with
    | nil =>
        obtain ⟨unscheduled, sent, -⟩ := flow.idle queue
        rintro front first
        simp only [accepted, answered, queue, if_true, List.nil_append, List.head?_cons,
          Option.mem_def, Option.some.injEq] at first
        refine .inr ⟨sent, memory.curTick + getLatency params call.draw, ?_, ?_, ?_⟩
        · simp [accepted, answered, unscheduled, sent]
        · rw [← first]
        · simp only [accepted]
          omega
    | cons head rest =>
        rintro front first
        obtain rfl : head = front := by simpa [accepted, queue] using first
        have busy := flow.waiting head (by rw [queue]; rfl)
        rcases busy with ⟨held, unscheduled, due⟩ | ⟨sent, tick, scheduled, due, later⟩
        · exact .inl ⟨held, by simp [accepted, held, unscheduled], due⟩
        · exact .inr ⟨sent, tick, by simp [accepted, scheduled], due, later⟩
  · refine ⟨kept, flow.owes, ?_, ?_⟩
    · intro empty
      simpa [accepted, answered] using flow.idle (by simpa [accepted, answered] using empty)
    · intro front first
      simpa [accepted, answered] using
        flow.waiting front (by simpa [accepted, answered] using first)

theorem dequeued_flow (regulated : memory.Regulated) (unscheduled : memory.packetQueue.tail = [] →
    memory.dequeueEvent = none) : memory.dequeued.1.Flow false := by
  unfold dequeued
  split
  next second rest queue =>
    refine ⟨⟨regulated.busy, regulated.retry, regulated.later⟩, rfl, fun empty => ?_, ?_⟩
    · simp at empty
    rintro front first
    obtain rfl : second = front := by simpa using first
    exact .inr ⟨rfl, _, rfl, le_max_left _ _, le_max_right _ _⟩
  next empty =>
    refine ⟨⟨regulated.busy, regulated.retry, regulated.later⟩, rfl,
      fun _ => ⟨unscheduled empty, rfl, rfl⟩, fun front first => ?_⟩
    simp at first

theorem nested_unscheduled {nested : List TimingReq} (regulated : memory.Regulated)
    (unscheduled : memory.dequeueEvent = none) (nonempty : memory.packetQueue ≠ [])
    (runs : Machine.run (recvTimingReq params) memory nested = some (next, outputs))
    (alone : next.packetQueue.tail = []) : next.dequeueEvent = none := by
  have base : memory.Inside memory ∧
      (memory.packetQueue = memory.packetQueue → memory.dequeueEvent = none) :=
    ⟨Inside.refl regulated, fun _ => unscheduled⟩
  have result := Machine.run_rule (P := fun _ reached => memory.Inside reached ∧
    (reached.packetQueue = memory.packetQueue → reached.dequeueEvent = none)) ?_ [] base runs
  · apply result.2
    obtain ⟨more, grown⟩ := result.1.queue
    obtain ⟨front, rest, queue⟩ := List.exists_cons_of_ne_nil nonempty
    rw [grown, queue] at alone
    simp only [List.cons_append, List.tail_cons, List.append_eq_nil_iff] at alone
    rw [grown, alone.2, List.append_nil]
  · rintro _ state call after more ⟨inside, quiet⟩ moved
    refine ⟨inside.trans (recvTimingReq_inside inside.toRegulated moved), fun same => ?_⟩
    rcases recvTimingReq_cases inside.toRegulated moved with
      ⟨retryReq, rfl, -, -⟩ | ⟨result, -, -, -, -, -, -, rfl, -⟩
    · exact quiet same
    · obtain ⟨others, grown⟩ := inside.queue
      by_cases answered : call.pkt.cmd.needsResponse = true
      · have length := congrArg List.length same
        simp only [accepted, answered, grown, if_true, List.length_append,
          List.length_cons] at length
        omega
      · simp only [accepted, answered, Bool.false_and, Bool.false_eq_true, if_false,
          List.append_nil] at same ⊢
        exact quiet same

theorem dequeue_eq {nested : List TimingReq} {sent : Bool} {front : DeferredPacket}
    (first : front ∈ memory.packetQueue.head?)
    (returns : memory.dequeue params nested sent = some (next, outputs)) :
    ∃ called, Machine.run (recvTimingReq params) memory nested = some called ∧
      if sent then next = called.1.dequeued.1 ∧
        outputs = called.2 ++ .response front.pkt memory.curTick :: called.1.dequeued.2
      else next = { called.1 with retryResp := true } ∧ outputs = called.2 ++ [.blocked] := by
  unfold dequeue at returns
  split at returns
  · cases returns
  next head rest queue =>
    obtain rfl : head = front := by simpa [queue] using first
    obtain ⟨called, runs, returns⟩ := Option.bind_eq_some_iff.mp returns
    refine ⟨called, runs, ?_⟩
    cases sent <;> simpa [eq_comm] using returns

theorem dequeue_isSome {nested : List TimingReq} {sent : Bool} (regulated : memory.Regulated)
    (nonempty : memory.packetQueue ≠ [])
    (answerable : ∀ call ∈ nested, Answerable memory.mem call.pkt) :
    (memory.dequeue params nested sent).isSome = true := by
  obtain ⟨front, rest, queue⟩ := List.exists_cons_of_ne_nil nonempty
  have calls : (Machine.run (recvTimingReq params) memory nested).isSome = true :=
    nested_isSome regulated answerable
  obtain ⟨called, runs⟩ := Option.isSome_iff_exists.mp calls
  cases sent <;> simp [dequeue, queue, runs]

theorem dequeue_flow {nested : List TimingReq} {sent : Bool} {front : DeferredPacket}
    (regulated : memory.Regulated) (unscheduled : memory.dequeueEvent = none)
    (first : front ∈ memory.packetQueue.head?) (due : front.tick ≤ memory.curTick)
    (courteous : sent = false → nested = [])
    (returns : memory.dequeue params nested sent = some (next, outputs)) : next.Flow (!sent) := by
  have nonempty := List.ne_nil_of_mem (List.mem_of_mem_head? first)
  obtain ⟨called, runs, result⟩ := dequeue_eq first returns
  cases sent with
  | true =>
      obtain ⟨rfl, -⟩ := result
      exact dequeued_flow (nested_inside regulated runs).toRegulated
        (nested_unscheduled regulated unscheduled nonempty runs)
  | false =>
      obtain ⟨rfl, -⟩ := result
      rw [courteous rfl, Machine.run, Option.some.injEq] at runs
      subst runs
      refine ⟨⟨regulated.busy, regulated.retry, regulated.later⟩, rfl,
        fun empty => absurd empty nonempty, ?_⟩
      intro head headed
      obtain rfl := Option.mem_unique first headed
      exact .inl ⟨rfl, unscheduled, due⟩

end SimpleMemory

/-- The memory and whether its peer has to retry a response that it refused. -/
structure MemoryLink where
  memory : SimpleMemory
  owed : Bool

namespace MemoryLink

open SimpleMemory

def owes (owed : Bool) : MemoryEvent → Bool
  | .dequeue _ sent | .recvRespRetry _ sent => !sent
  | _ => owed

def step (params : SimpleMemoryParams) (link : MemoryLink) (event : MemoryEvent) :
    Option (MemoryLink × List MemoryOutput) :=
  (link.memory.step params event).map fun moved => (⟨moved.1, owes link.owed event⟩, moved.2)

def Initial (link : MemoryLink) : Prop := ∃ mem, link = ⟨start mem, false⟩

/-- Time does not pass an event, and events fire in their tick. The peer retries what it
refused, and does not use a response that it refuses to send requests of its own. -/
def Permitted (link : MemoryLink) : MemoryEvent → Prop
  | .advance tick => link.memory.curTick ≤ tick ∧
      (∀ due ∈ link.memory.releaseEvent, tick ≤ due) ∧
      ∀ due ∈ link.memory.dequeueEvent, tick ≤ due
  | .recvTimingReq call => Answerable link.memory.mem call.pkt
  | .recvFunctional pkt bytesValid => (link.memory.recvFunctional pkt bytesValid).isSome = true
  | .release => link.memory.releaseEvent = some link.memory.curTick
  | .dequeue nested sent => link.memory.dequeueEvent = some link.memory.curTick ∧
      (sent = false → nested = []) ∧ ∀ call ∈ nested, Answerable link.memory.mem call.pkt
  | .recvRespRetry nested sent => link.owed = true ∧
      (sent = false → nested = []) ∧ ∀ call ∈ nested, Answerable link.memory.mem call.pkt
  | .drain => True

variable {params : SimpleMemoryParams} {link next : MemoryLink} {outputs : List MemoryOutput}

theorem front_due (flow : link.memory.Flow link.owed)
    (fires : link.memory.dequeueEvent = some link.memory.curTick ∨ link.owed = true) :
    ∃ front ∈ link.memory.packetQueue.head?, front.tick ≤ link.memory.curTick := by
  cases queue : link.memory.packetQueue with
  | nil =>
      obtain ⟨unscheduled, sent, -⟩ := flow.idle queue
      rcases fires with scheduled | owed
      · simp [unscheduled] at scheduled
      · rw [← flow.owes, sent] at owed
        cases owed
  | cons front rest =>
      refine ⟨front, rfl, ?_⟩
      have waiting := flow.waiting front (by rw [queue]; rfl)
      rcases waiting with ⟨-, -, due⟩ | ⟨sent, tick, scheduled, due, -⟩
      · exact due
      · rcases fires with fired | owed
        · rw [scheduled, Option.some.injEq] at fired
          omega
        · rw [← flow.owes, sent] at owed
          cases owed

theorem owed_unscheduled (flow : link.memory.Flow link.owed) (owed : link.owed = true) :
    link.memory.dequeueEvent = none := by
  obtain ⟨front, first, -⟩ := front_due flow (.inr owed)
  rcases flow.waiting front first with ⟨-, unscheduled, -⟩ | ⟨sent, -⟩
  · exact unscheduled
  · rw [← flow.owes, sent] at owed
    cases owed

theorem recvFunctional_flow {memory after : SimpleMemory} {owed : Bool} {pkt : Packet}
    {bytesValid : List Bool} (flow : memory.Flow owed)
    (returns : memory.recvFunctional pkt bytesValid = some (after, outputs)) :
    after.Flow owed ∧ after.packetQueue.map (·.tick) = memory.packetQueue.map (·.tick) ∧
      after.releaseEvent = memory.releaseEvent ∧ after.curTick = memory.curTick ∧
      outputs = [.functional pkt bytesValid] := by
  simp only [SimpleMemory.recvFunctional, Option.bind_eq_bind, Option.bind_eq_some_iff,
    Option.pure_def, Option.some.injEq, Prod.mk.injEq] at returns
  obtain ⟨received, reached, rfl, rfl⟩ := returns
  have ticks := map_tick_zipWith (length_received reached)
  refine ⟨⟨⟨flow.busy, flow.retry, flow.later⟩, flow.owes, ?_, ?_⟩, ticks, rfl, rfl, rfl⟩
  · intro empty
    apply flow.idle
    dsimp only at empty
    rw [empty] at ticks
    exact List.map_eq_nil_iff.mp ticks.symm
  · intro front first
    have heads := congrArg List.head? ticks
    dsimp only at first
    rw [List.head?_map, List.head?_map, first] at heads
    obtain ⟨old, oldFirst, same⟩ := Option.map_eq_some_iff.mp heads.symm
    have tick : old.tick = front.tick := same
    rw [← tick]
    exact flow.waiting old oldFirst

theorem step_flow {event : MemoryEvent} (flow : link.memory.Flow link.owed)
    (permitted : link.Permitted event) (taken : link.step params event = some (next, outputs)) :
    next.memory.Flow next.owed := by
  obtain ⟨⟨after, sent⟩, moved, same⟩ := Option.map_eq_some_iff.mp taken
  simp only [Prod.mk.injEq] at same
  obtain ⟨rfl, rfl⟩ := same
  cases event with
  | advance tick =>
      obtain ⟨forward, released, dequeued⟩ := permitted
      simp only [SimpleMemory.step, Option.some.injEq, Prod.mk.injEq] at moved
      obtain ⟨rfl, rfl⟩ := moved
      refine ⟨⟨flow.busy, flow.retry, released⟩, flow.owes, flow.idle, ?_⟩
      intro front first
      rcases flow.waiting front first with ⟨held, unscheduled, due⟩ | ⟨free, later, scheduled, due, -⟩
      · exact .inl ⟨held, unscheduled, due.trans forward⟩
      · exact .inr ⟨free, later, scheduled, due, dequeued later scheduled⟩
  | recvTimingReq call => exact recvTimingReq_flow flow moved
  | recvFunctional pkt bytesValid => exact (recvFunctional_flow flow moved).1
  | release =>
      obtain ⟨-, rfl, -⟩ := release_eq_some moved
      refine ⟨⟨rfl, ?_, ?_⟩, flow.owes, flow.idle, flow.waiting⟩
      · intro retrying
        simp at retrying
      · intro tick scheduled
        simp at scheduled
  | dequeue nested delivered =>
      obtain ⟨fires, courteous, -⟩ := permitted
      obtain ⟨front, first, due⟩ := front_due flow (.inl fires)
      have regulated : { link.memory with dequeueEvent := none }.Regulated :=
        ⟨flow.busy, flow.retry, flow.later⟩
      exact dequeue_flow regulated rfl first due courteous moved
  | recvRespRetry nested delivered =>
      obtain ⟨owed, courteous, -⟩ := permitted
      obtain ⟨front, first, due⟩ := front_due flow (.inr owed)
      obtain ⟨_, _, returns⟩ := Option.bind_eq_some_iff.mp moved
      exact dequeue_flow flow.toRegulated (owed_unscheduled flow owed) first due courteous returns
  | drain =>
      simp only [SimpleMemory.step, Option.some.injEq, Prod.mk.injEq] at moved
      obtain ⟨rfl, rfl⟩ := moved
      unfold SimpleMemory.drain
      split_ifs with empty
      · exact flow
      · refine ⟨⟨flow.busy, flow.retry, flow.later⟩, flow.owes, fun none => ?_, flow.waiting⟩
        simp only [List.isEmpty_iff] at empty
        exact absurd none empty

theorem initial_flow (initial : link.Initial) : link.memory.Flow link.owed := by
  obtain ⟨mem, rfl⟩ := initial
  refine ⟨⟨rfl, ?_, ?_⟩, rfl, fun _ => ⟨rfl, rfl, rfl⟩, ?_⟩ <;> simp [start]

theorem reachable_flow
    (reached : Machine.Reachable (step params) Permitted Initial link outputs) :
    link.memory.Flow link.owed :=
  reached.invariant (P := fun link _ => link.memory.Flow link.owed) (fun _ => initial_flow)
    fun _ _ _ _ _ flow permitted moved => step_flow flow permitted moved

theorem isSome_step {event : MemoryEvent} (flow : link.memory.Flow link.owed)
    (permitted : link.Permitted event) : (link.step params event).isSome = true := by
  rw [step, Option.isSome_map]
  cases event with
  | advance tick => rfl
  | recvTimingReq call => exact recvTimingReq_isSome flow.toRegulated permitted
  | recvFunctional pkt bytesValid => exact permitted
  | release =>
      have busy : link.memory.isBusy = true := by
        rw [flow.busy, show link.memory.releaseEvent = some link.memory.curTick from permitted]
        rfl
      simp [SimpleMemory.step, SimpleMemory.release, busy]
  | dequeue nested sent =>
      obtain ⟨fires, -, answerable⟩ := permitted
      obtain ⟨front, first, -⟩ := front_due flow (.inl fires)
      have regulated : { link.memory with dequeueEvent := none }.Regulated :=
        ⟨flow.busy, flow.retry, flow.later⟩
      exact dequeue_isSome regulated (List.ne_nil_of_mem (List.mem_of_mem_head? first)) answerable
  | recvRespRetry nested sent =>
      obtain ⟨owed, -, answerable⟩ := permitted
      obtain ⟨front, first, -⟩ := front_due flow (.inr owed)
      have held : link.memory.retryResp = true := flow.owes.trans owed
      simp only [SimpleMemory.step, SimpleMemory.recvRespRetry, held, guard_true]
      exact dequeue_isSome flow.toRegulated (List.ne_nil_of_mem (List.mem_of_mem_head? first)) answerable
  | drain => rfl

/-- With a peer that keeps to the protocol, no assertion fails in any run. A request that
was refused has the release of the memory ahead of it, and a response that waits has either
its event ahead of it or the retry that the peer owes. -/
theorem flow_control (params : SimpleMemoryParams) (link : MemoryLink)
    (outputs : List MemoryOutput)
    (reached : Machine.Reachable (step params) Permitted Initial link outputs) :
    (∀ event, link.Permitted event → (link.step params event).isSome = true) ∧
      (link.memory.retryReq = true →
        ∃ tick, link.memory.releaseEvent = some tick ∧ link.memory.curTick ≤ tick) ∧
      (link.memory.packetQueue ≠ [] →
        (link.owed = true ∧ link.memory.dequeueEvent = none) ∨
        (link.owed = false ∧ ∃ tick, link.memory.dequeueEvent = some tick ∧
          link.memory.curTick ≤ tick)) := by
  have flow := reachable_flow reached
  refine ⟨fun event => isSome_step flow, fun retrying => ?_, fun nonempty => ?_⟩
  · have busy := flow.busy
    rw [flow.retry retrying] at busy
    obtain ⟨tick, scheduled⟩ := Option.isSome_iff_exists.mp busy.symm
    exact ⟨tick, scheduled, flow.later tick scheduled⟩
  · obtain ⟨front, rest, queue⟩ := List.exists_cons_of_ne_nil nonempty
    rw [← flow.owes]
    rcases flow.waiting front (by rw [queue]; rfl) with
      ⟨held, unscheduled, -⟩ | ⟨sent, tick, scheduled, -, later⟩
    · exact .inl ⟨held, unscheduled⟩
    · exact .inr ⟨sent, tick, scheduled, later⟩

/-- A peer that sends a request from inside a response that it refuses gets the response
again from the event, and its retry fails. -/
def discourteousEvents : List MemoryEvent :=
  [.recvTimingReq ⟨plainRead 0, 0⟩, .advance 8, .release, .advance 10,
    .dequeue [⟨plainRead 8, 0⟩] false, .advance 18, .release, .advance 20, .dequeue [] true]

example :
    (Machine.run (SimpleMemory.step sampleParams) (start sampleTile)
        discourteousEvents).isSome = true ∧
      (Machine.run (SimpleMemory.step sampleParams) (start sampleTile)
        (discourteousEvents ++ [.recvRespRetry [] true])).isNone = true := ⟨rfl, rfl⟩

theorem answerable_plainRead {mem : AbstractMemory} (start : mem.start = 0) (last : mem.last = 511)
    {addr : Addr} (inside : addr.toNat + 8 ≤ 512) : Answerable mem (plainRead addr) := by
  intro uninhibited other sameStart sameLast
  have first : other.start = 0 := sameStart.trans start
  have final : other.last = 511 := sameLast.trans last
  have tiled : other.Tiled := ⟨by rw [first]; decide, by rw [final]; decide⟩
  have backed : other.backs (plainRead addr).addr (plainRead addr).size = true := by
    simp only [AbstractMemory.backs, first, final, decide_eq_true_eq]
    exact ⟨Nat.zero_le _, inside⟩
  have plain : (plainRead addr).req.isGather = false := by
    simp +decide [plainRead, Packet.new, Request.ofPhys, Request.isGather, Request.isSet]
  have nonempty : 0 < (plainRead addr).size := by
    show 0 < 8
    decide
  rw [AbstractMemory.access_read tiled nonempty backed (fun gather => by simp [plain] at gather)
    uninhibited (.inl rfl)]
  rfl

theorem reachable_refused : ∃ link outputs,
    Machine.Reachable (step sampleParams) Permitted Initial link outputs ∧
      link.memory.retryReq = true ∧ link.memory.packetQueue ≠ [] := by
  have idle : Machine.Reachable (step sampleParams) Permitted Initial ⟨start sampleTile, false⟩ [] :=
    .start ⟨sampleTile, rfl⟩
  have busy := idle.step (.recvTimingReq ⟨plainRead 0, 0⟩)
    (answerable_plainRead rfl rfl (by decide)) rfl
  have refused := busy.step (.recvTimingReq ⟨plainRead 8, 0⟩)
    (answerable_plainRead rfl rfl (by decide)) rfl
  exact ⟨_, _, refused, rfl, nofun⟩

theorem flow_control_refused : ∃ link outputs,
    Machine.Reachable (step sampleParams) Permitted Initial link outputs ∧
      link.memory.retryReq = true ∧
      ∃ tick, link.memory.releaseEvent = some tick ∧ link.memory.curTick ≤ tick := by
  obtain ⟨link, outputs, reached, refused, -⟩ := reachable_refused
  exact ⟨link, outputs, reached, refused,
    (flow_control sampleParams link outputs reached).2.1 refused⟩

end MemoryLink

end LlvmGather
