import LlvmGather.Gather.FlowControl

/-!
The bandwidth and the latency of `simple_mem.cc`, read off the ticks of whole runs.
-/

namespace LlvmGather

namespace MemoryOutput

/-- The ticks from which and until which a read or write keeps the memory busy. -/
def busySpan (params : SimpleMemoryParams) : MemoryOutput → Option (Nat × Nat)
  | .accepted pkt tick =>
      if pkt.cmd.isRead || pkt.cmd.isWrite then some (tick, tick + params.duration pkt.size)
      else none
  | _ => none

def askedAt : MemoryOutput → Option Nat
  | .accepted pkt tick => if pkt.cmd.needsResponse then some tick else none
  | _ => none

def answeredAt : MemoryOutput → Option Nat
  | .response _ tick => some tick
  | _ => none

end MemoryOutput

namespace SimpleMemory

open MemoryOutput

structure Timed (params : SimpleMemoryParams) (memory : SimpleMemory)
    (outputs : List MemoryOutput) : Prop where
  spaced : (outputs.filterMap (busySpan params)).Pairwise fun first second => first.2 ≤ second.1
  bound : ∀ span ∈ outputs.filterMap (busySpan params),
    span.2 ≤ memory.releaseEvent.getD memory.curTick
  delayed : List.Forall₂ (fun asked tick => asked + params.latency ≤ tick)
    (outputs.filterMap askedAt)
    (outputs.filterMap answeredAt ++ memory.packetQueue.map (·.tick))

variable {params : SimpleMemoryParams} {memory next : SimpleMemory}
variable {outputs more : List MemoryOutput}

theorem Timed.silent (timed : memory.Timed params outputs)
    (busy : more.filterMap (busySpan params) = []) (asked : more.filterMap askedAt = [])
    (answered : more.filterMap answeredAt = [])
    (released : memory.releaseEvent.getD memory.curTick ≤ next.releaseEvent.getD next.curTick)
    (queue : next.packetQueue.map (·.tick) = memory.packetQueue.map (·.tick)) :
    next.Timed params (outputs ++ more) := by
  refine ⟨?_, ?_, ?_⟩
  · rw [List.filterMap_append, busy, List.append_nil]
    exact timed.spaced
  · rw [List.filterMap_append, busy, List.append_nil]
    exact fun span member => (timed.bound span member).trans released
  · rw [List.filterMap_append, List.filterMap_append, asked, answered, List.append_nil,
      List.append_nil, queue]
    exact timed.delayed

theorem mem_busySpan_accepted {pkt : Packet} {tick : Nat} {span : Nat × Nat} :
    span ∈ [MemoryOutput.accepted pkt tick].filterMap (busySpan params) ↔
      (pkt.cmd.isRead || pkt.cmd.isWrite) = true ∧
        span = (tick, tick + params.duration pkt.size) := by
  by_cases moves : (pkt.cmd.isRead || pkt.cmd.isWrite) = true
  · simp only [List.mem_filterMap, List.mem_singleton, exists_eq_left, busySpan, moves, if_true,
      Option.some.injEq, true_and]
    exact eq_comm
  · simp only [List.mem_filterMap, List.mem_singleton, exists_eq_left, busySpan, moves, if_false,
      reduceCtorEq, false_and]

theorem duration_of_unregulated {pkt : Packet} (moves : (pkt.cmd.isRead || pkt.cmd.isWrite) = true)
    (unlimited : ¬ regulates params pkt = true) : params.duration pkt.size = 0 := by
  simpa [regulates, moves] using unlimited

theorem accepted_timed {call : TimingReq} {result : Packet × AbstractMemory}
    (timed : memory.Timed params outputs) (free : memory.releaseEvent = none) :
    (memory.accepted params call result).Timed params
      (outputs ++ [.accepted call.pkt memory.curTick]) := by
  have past : ∀ span ∈ outputs.filterMap (busySpan params), span.2 ≤ memory.curTick := by
    intro span member
    have bound := timed.bound span member
    rwa [free] at bound
  refine ⟨?_, ?_, ?_⟩
  · rw [List.filterMap_append, List.pairwise_append]
    refine ⟨timed.spaced, ?_, ?_⟩
    · rw [List.filterMap_cons, List.filterMap_nil]
      split <;> simp
    · rintro span member other last
      obtain ⟨-, rfl⟩ := mem_busySpan_accepted.mp last
      exact past span member
  · intro span member
    rw [List.filterMap_append, List.mem_append, mem_busySpan_accepted] at member
    rcases member with member | ⟨moves, rfl⟩
    · have before := past span member
      by_cases limited : regulates params call.pkt = true
      · simp only [accepted, limited, if_true, Option.getD_some]
        omega
      · simpa [accepted, limited, free] using before
    · by_cases limited : regulates params call.pkt = true
      · simp [accepted, limited]
      · simp [accepted, limited, free, duration_of_unregulated moves limited]
  · rw [List.filterMap_append, List.filterMap_append]
    by_cases needs : call.pkt.cmd.needsResponse = true
    · have soon : memory.curTick + params.latency ≤
          memory.curTick + getLatency params call.draw := by
        rw [getLatency]
        omega
      simpa [List.filterMap_cons, askedAt, answeredAt, accepted, needs] using
        List.rel_append timed.delayed (.cons soon .nil)
    · simpa [List.filterMap_cons, askedAt, answeredAt, accepted, needs] using timed.delayed

theorem recvTimingReq_timed {call : TimingReq} (regulated : memory.Regulated)
    (timed : memory.Timed params outputs)
    (returns : memory.recvTimingReq params call = some (next, more)) :
    next.Timed params (outputs ++ more) := by
  rcases recvTimingReq_cases regulated returns with
    ⟨retryReq, rfl, -, rfl | rfl⟩ | ⟨result, -, free, -, -, -, -, rfl, rfl⟩
  · exact timed.silent rfl rfl rfl le_rfl rfl
  · exact timed.silent rfl rfl rfl le_rfl rfl
  · exact accepted_timed timed free

theorem nested_timed {nested : List TimingReq} (regulated : memory.Regulated)
    (timed : memory.Timed params outputs)
    (runs : Machine.run (recvTimingReq params) memory nested = some (next, more)) :
    next.Timed params (outputs ++ more) := by
  have base : memory.Inside memory ∧ memory.Timed params outputs :=
    ⟨Inside.refl regulated, timed⟩
  refine (Machine.run_rule (P := fun sent reached => memory.Inside reached ∧
    reached.Timed params sent) ?_ outputs base runs).2
  rintro sent state call after _ ⟨inside, before⟩ moved
  exact ⟨inside.trans (recvTimingReq_inside inside.toRegulated moved),
    recvTimingReq_timed inside.toRegulated before moved⟩

theorem forall₂_deliver {asked answered rest : List Nat} {latency due tick : Nat}
    (delayed : List.Forall₂ (fun first second => first + latency ≤ second) asked
      (answered ++ due :: rest)) (late : due ≤ tick) :
    List.Forall₂ (fun first second => first + latency ≤ second) asked
      (answered ++ [tick] ++ rest) := by
  induction answered generalizing asked with
  | nil =>
      cases delayed with
      | cons first others => exact .cons (first.trans late) others
  | cons answer answers ih =>
      cases delayed with
      | cons first others => exact .cons first (ih others)

theorem dequeued_timed {front : DeferredPacket} {rest : List DeferredPacket}
    (timed : memory.Timed params outputs) (queue : memory.packetQueue = front :: rest)
    (due : front.tick ≤ memory.curTick) :
    memory.dequeued.1.Timed params
      (outputs ++ .response front.pkt memory.curTick :: memory.dequeued.2) := by
  have delayed := timed.delayed
  rw [queue, List.map_cons] at delayed
  have delivered := forall₂_deliver delayed due
  have sent : { memory with packetQueue := rest }.Timed params
      (outputs ++ [MemoryOutput.response front.pkt memory.curTick]) := by
    refine ⟨?_, ?_, ?_⟩
    · simpa [List.filterMap_cons, busySpan] using timed.spaced
    · simpa [List.filterMap_cons, busySpan] using timed.bound
    · simpa [List.filterMap_cons, askedAt, answeredAt] using delivered
  rw [List.append_cons]
  cases rest with
  | nil =>
      refine sent.silent ?_ ?_ ?_ ?_ ?_ <;>
        by_cases drains : memory.drainManager = true <;>
        simp [dequeued, queue, drains, List.filterMap_cons, busySpan, askedAt, answeredAt]
  | cons second others =>
      refine sent.silent ?_ ?_ ?_ ?_ ?_ <;> simp [dequeued, queue]

theorem dequeue_timed {nested : List TimingReq} {sent : Bool} {front : DeferredPacket}
    (regulated : memory.Regulated) (timed : memory.Timed params outputs)
    (first : front ∈ memory.packetQueue.head?) (due : front.tick ≤ memory.curTick)
    (returns : memory.dequeue params nested sent = some (next, more)) :
    next.Timed params (outputs ++ more) := by
  obtain ⟨called, runs, result⟩ := dequeue_eq first returns
  have after := nested_timed regulated timed runs
  have inside := nested_inside regulated runs
  cases sent with
  | true =>
      obtain ⟨rfl, rfl⟩ := result
      obtain ⟨others, grown⟩ := inside.queue
      obtain ⟨rest, queue⟩ := List.head?_eq_some_iff.mp first
      rw [queue, List.cons_append] at grown
      rw [← List.append_assoc, ← inside.curTick]
      exact dequeued_timed after grown (due.trans_eq inside.curTick.symm)
  | false =>
      obtain ⟨rfl, rfl⟩ := result
      rw [← List.append_assoc]
      exact after.silent rfl rfl rfl le_rfl rfl

end SimpleMemory

namespace MemoryLink

open SimpleMemory

variable {params : SimpleMemoryParams} {link next : MemoryLink}
variable {outputs more : List MemoryOutput}

theorem step_timed {event : MemoryEvent} (flow : link.memory.Flow link.owed)
    (timed : link.memory.Timed params outputs) (permitted : link.Permitted event)
    (taken : link.step params event = some (next, more)) :
    next.memory.Timed params (outputs ++ more) := by
  obtain ⟨⟨after, sent⟩, moved, same⟩ := Option.map_eq_some_iff.mp taken
  simp only [Prod.mk.injEq] at same
  obtain ⟨rfl, rfl⟩ := same
  cases event with
  | advance tick =>
      simp only [SimpleMemory.step, Option.some.injEq, Prod.mk.injEq] at moved
      obtain ⟨rfl, rfl⟩ := moved
      refine timed.silent rfl rfl rfl ?_ rfl
      cases scheduled : link.memory.releaseEvent with
      | none => simpa [scheduled] using permitted.1
      | some due => exact le_rfl
  | recvTimingReq call => exact recvTimingReq_timed flow.toRegulated timed moved
  | recvFunctional pkt bytesValid =>
      obtain ⟨-, ticks, released, now, rfl⟩ := recvFunctional_flow flow moved
      exact timed.silent rfl rfl rfl (by rw [released, now]) ticks
  | release =>
      obtain ⟨-, rfl, rfl⟩ := release_eq_some moved
      have fires : link.memory.releaseEvent = some link.memory.curTick := permitted
      refine timed.silent ?_ ?_ ?_ (by simp [fires]) rfl <;> split_ifs <;> rfl
  | dequeue nested delivered =>
      obtain ⟨front, first, due⟩ := front_due flow (.inl permitted.1)
      have regulated : { link.memory with dequeueEvent := none }.Regulated :=
        ⟨flow.busy, flow.retry, flow.later⟩
      have waiting : { link.memory with dequeueEvent := none }.Timed params outputs :=
        ⟨timed.spaced, timed.bound, timed.delayed⟩
      exact dequeue_timed regulated waiting first due moved
  | recvRespRetry nested delivered =>
      obtain ⟨front, first, due⟩ := front_due flow (.inr permitted.1)
      obtain ⟨_, _, returns⟩ := Option.bind_eq_some_iff.mp moved
      exact dequeue_timed flow.toRegulated timed first due returns
  | drain =>
      simp only [SimpleMemory.step, Option.some.injEq, Prod.mk.injEq] at moved
      obtain ⟨rfl, rfl⟩ := moved
      refine timed.silent rfl rfl rfl ?_ ?_ <;> unfold SimpleMemory.drain <;> split_ifs <;> rfl

theorem reachable_timed
    (reached : Machine.Reachable (step params) Permitted Initial link outputs) :
    link.memory.Timed params outputs := by
  refine (reached.invariant (P := fun link outputs => link.memory.Flow link.owed ∧
    link.memory.Timed params outputs) ?_ ?_).2
  · rintro _ initial
    have flow := initial_flow initial
    obtain ⟨mem, rfl⟩ := initial
    exact ⟨flow, .nil, nofun, .nil⟩
  · rintro link event next sent more ⟨flow, timed⟩ permitted moved
    exact ⟨step_flow flow permitted moved, step_timed flow timed permitted moved⟩

/-- Along every run two reads or writes are accepted at least the duration of the first
apart, and the response to the request that was accepted in some place among those with a
response is delivered in that place, no sooner than the latency allows. -/
theorem bandwidth_and_latency (params : SimpleMemoryParams) (link : MemoryLink)
    (outputs : List MemoryOutput)
    (reached : Machine.Reachable (step params) Permitted Initial link outputs) :
    ((outputs.filterMap (MemoryOutput.busySpan params)).Pairwise fun first second =>
        first.2 ≤ second.1) ∧
      (outputs.filterMap MemoryOutput.askedAt).length =
        (outputs.filterMap MemoryOutput.answeredAt).length + link.memory.packetQueue.length ∧
      ∀ place asked answered : Nat, (outputs.filterMap MemoryOutput.askedAt)[place]? = some asked →
        (outputs.filterMap MemoryOutput.answeredAt)[place]? = some answered →
        asked + params.latency ≤ answered := by
  have timed := reachable_timed reached
  refine ⟨timed.spaced, ?_, ?_⟩
  · simpa using timed.delayed.length_eq
  · intro place asked answered request response
    obtain ⟨inside, rfl⟩ := List.getElem?_eq_some_iff.mp request
    obtain ⟨sent, rfl⟩ := List.getElem?_eq_some_iff.mp response
    have late := timed.delayed.get inside (by simp; omega)
    simpa [List.getElem_append_left sent] using late

theorem bandwidth_and_latency_refused : ∃ link outputs,
    Machine.Reachable (step sampleParams) Permitted Initial link outputs ∧
      0 < (outputs.filterMap MemoryOutput.askedAt).length := by
  obtain ⟨link, outputs, reached, -, nonempty⟩ := reachable_refused
  have counted := (bandwidth_and_latency sampleParams link outputs reached).2.1
  have waiting := List.length_pos_iff.mpr nonempty
  exact ⟨link, outputs, reached, by omega⟩

end MemoryLink

end LlvmGather
