import LlvmGather.Library.Machine
import LlvmGather.Library.Stable

/-!
The queue of deferred packets of `packet_queue.cc`, behind every queued port. It holds
pointers and never looks into the packets but for the flag of an express snoop, which a call
states here. `none` stands for a failed assertion or a panic. Ticks are natural numbers.
-/

namespace LlvmGather

def maxTick : Nat := 2 ^ 64 - 1

structure Deferred (α : Type) where
  tick : Nat
  pkt : α
deriving DecidableEq

structure PacketQueue (α : Type) where
  transmitList : List (Deferred α)
  waitingOnRetry : Bool
  sendEvent : Option Nat
  drainManager : Bool
  curTick : Nat

structure SendCall (α : Type) where
  pkt : α
  isExpressSnoop : Bool
  when : Nat
  forceOrder : Bool

inductive SendOutput (α : Type)
  | queued (deferred : Deferred α) (forceOrder : Bool)
  | sent (deferred : Deferred α) (tick : Nat)
  | refused (deferred : Deferred α) (tick : Nat)
  | drainDone

namespace PacketQueue

variable {α : Type}

def new : PacketQueue α where
  transmitList := []
  waitingOnRetry := false
  sendEvent := none
  drainManager := false
  curTick := 0

def deferredPacketReady (queue : PacketQueue α) : Bool :=
  queue.transmitList.head?.any fun front => decide (front.tick ≤ queue.curTick)

def deferredPacketReadyTime (queue : PacketQueue α) : Nat :=
  queue.transmitList.head?.elim maxTick Deferred.tick

def reschedule (time : Nat) : Option Nat → Nat
  | none => time
  | some scheduled => if time < scheduled then time else scheduled

def schedSendEvent (time : Nat) (queue : PacketQueue α) :
    Option (PacketQueue α × List (SendOutput α)) :=
  if queue.waitingOnRetry then do
    guard (queue.sendEvent = none)
    return (queue, [])
  else if time ≠ maxTick then
    let sendEvent := some (reschedule (max time (queue.curTick + 1)) queue.sendEvent)
    some ({ queue with sendEvent }, [])
  else if queue.drainManager && queue.transmitList.isEmpty && queue.sendEvent.isNone then
    some ({ queue with drainManager := false }, [.drainDone])
  else some (queue, [])

def insertMiddle (deferred : Deferred α) : List (Deferred α) → List (Deferred α)
  | [] => [deferred]
  | other :: rest =>
      if deferred.tick ≥ other.tick then other :: insertMiddle deferred rest
      else deferred :: other :: rest

def schedSendTiming (queue : PacketQueue α) (call : SendCall α) :
    Option (PacketQueue α × List (SendOutput α)) := do
  guard (queue.curTick ≤ call.when)
  guard (call.isExpressSnoop = false)
  guard (queue.transmitList.length ≤ 100)
  let back := queue.transmitList.getLast?.elim 0 Deferred.tick
  let time := if call.forceOrder then max call.when back else call.when
  let deferred : Deferred α := ⟨time, call.pkt⟩
  match queue.transmitList with
  | [] => do
      let armed ← { queue with transmitList := [deferred] }.schedSendEvent time
      return (armed.1, .queued deferred call.forceOrder :: armed.2)
  | front :: rest =>
      if time < front.tick then do
        guard (call.forceOrder = false)
        let armed ← { queue with transmitList := deferred :: front :: rest }.schedSendEvent time
        return (armed.1, .queued deferred call.forceOrder :: armed.2)
      else if time ≥ back then
        return ({ queue with transmitList := front :: rest ++ [deferred] },
          [.queued deferred call.forceOrder])
      else do
        guard (call.forceOrder = false)
        return ({ queue with transmitList := front :: insertMiddle deferred rest },
          [.queued deferred call.forceOrder])

/-- The packet is off the list while it is sent, and the peer may add packets meanwhile. -/
def sendDeferredPacket (nested : List (SendCall α)) (accepted : Bool) (queue : PacketQueue α) :
    Option (PacketQueue α × List (SendOutput α)) := do
  guard (queue.waitingOnRetry = false)
  guard (queue.deferredPacketReady = true)
  let front ← queue.transmitList.head?
  let popped := { queue with transmitList := queue.transmitList.tail }
  let called ← Machine.run schedSendTiming popped nested
  if accepted then
    let armed ← called.1.schedSendEvent called.1.deferredPacketReadyTime
    return (armed.1, .sent front queue.curTick :: (called.2 ++ armed.2))
  else
    let transmitList := front :: called.1.transmitList
    return ({ called.1 with waitingOnRetry := true, transmitList },
      .refused front queue.curTick :: called.2)

def retry (nested : List (SendCall α)) (accepted : Bool) (queue : PacketQueue α) :
    Option (PacketQueue α × List (SendOutput α)) := do
  guard (queue.waitingOnRetry = true)
  { queue with waitingOnRetry := false }.sendDeferredPacket nested accepted

def processSendEvent (nested : List (SendCall α)) (accepted : Bool) (queue : PacketQueue α) :
    Option (PacketQueue α × List (SendOutput α)) := do
  guard (queue.waitingOnRetry = false)
  queue.sendDeferredPacket nested accepted

def drain (queue : PacketQueue α) : PacketQueue α :=
  if queue.transmitList.isEmpty then queue else { queue with drainManager := true }

inductive Event (α : Type)
  | advance (tick : Nat)
  | schedSendTiming (call : SendCall α)
  | processSendEvent (nested : List (SendCall α)) (accepted : Bool)
  | retry (nested : List (SendCall α)) (accepted : Bool)
  | drain

def step (queue : PacketQueue α) : Event α → Option (PacketQueue α × List (SendOutput α))
  | .advance tick => some ({ queue with curTick := tick }, [])
  | .schedSendTiming call => queue.schedSendTiming call
  | .processSendEvent nested accepted =>
      { queue with sendEvent := none }.processSendEvent nested accepted
  | .retry nested accepted => queue.retry nested accepted
  | .drain => some (queue.drain, [])

structure Timely (curTick : Nat) (call : SendCall α) : Prop where
  soon : curTick ≤ call.when
  bounded : call.when < maxTick
  plain : call.isExpressSnoop = false

structure Courteous (queue : PacketQueue α) (nested : List (SendCall α)) (accepted : Bool) :
    Prop where
  timely : ∀ call ∈ nested, Timely queue.curTick call
  room : queue.transmitList.length + nested.length ≤ 102
  /-- A peer that refuses a packet does not add one. -/
  refusal : accepted = false → nested = []

/-- Time does not pass a scheduled event, and a peer sends a retry only when it is owed. -/
def Permitted (queue : PacketQueue α) : Event α → Prop
  | .advance tick => queue.curTick ≤ tick ∧ ∀ time ∈ queue.sendEvent, tick ≤ time
  | .schedSendTiming call => Timely queue.curTick call ∧ queue.transmitList.length ≤ 100
  | .processSendEvent nested accepted => queue.sendEvent = some queue.curTick ∧
      Courteous queue nested accepted
  | .retry nested accepted => queue.waitingOnRetry = true ∧ Courteous queue nested accepted
  | .drain => True

variable {queue next : PacketQueue α} {deferred front : Deferred α} {call : SendCall α}

abbrev Inserted (deferred : Deferred α) (before after : List (Deferred α)) : Prop :=
  Stable.Inserted Deferred.tick deferred before after

theorem insertMiddle_inserted {list : List (Deferred α)}
    (sorted : list.Pairwise fun first second => first.tick ≤ second.tick) :
    Inserted deferred list (insertMiddle deferred list) := by
  induction list with
  | nil => exact Stable.Inserted.last (fun other member => absurd member List.not_mem_nil)
  | cons other rest ih =>
      obtain ⟨first, later⟩ := List.pairwise_cons.mp sorted
      rw [insertMiddle]
      by_cases behind : other.tick ≤ deferred.tick
      · rw [if_pos behind]
        refine (ih later).append_left [other] fun front member => ?_
        rw [List.mem_singleton.mp member]
        exact behind
      · rw [if_neg behind]
        refine Stable.Inserted.first fun above member => ?_
        rcases List.mem_cons.mp member with rfl | inside
        · exact not_le.mp behind
        · have bound := first above inside
          omega

structure Sound (queue : PacketQueue α) : Prop where
  sorted : queue.transmitList.Pairwise fun first second => first.tick ≤ second.tick
  bounded : ∀ deferred ∈ queue.transmitList, deferred.tick < maxTick
  held : queue.waitingOnRetry = true → queue.sendEvent = none ∧
    ∃ front ∈ queue.transmitList.head?, front.tick ≤ queue.curTick
  event : ∀ time ∈ queue.sendEvent, queue.curTick ≤ time ∧
    ∃ front ∈ queue.transmitList.head?, front.tick ≤ time

structure Armed (queue : PacketQueue α) : Prop extends Sound queue where
  room : queue.transmitList.length ≤ 101
  armed : queue.waitingOnRetry = false → ∀ front ∈ queue.transmitList.head?,
    ∃ time ∈ queue.sendEvent, time ≤ max front.tick (queue.curTick + 1)
  draining : queue.drainManager = true → queue.transmitList ≠ []

structure Enqueued (queue : PacketQueue α) (call : SendCall α) (deferred : Deferred α)
    (next : PacketQueue α) : Prop where
  pkt : deferred.pkt = call.pkt
  soon : call.when ≤ deferred.tick
  bounded : deferred.tick < maxTick
  inserted : Inserted deferred queue.transmitList next.transmitList
  forced : call.forceOrder = true → next.transmitList = queue.transmitList ++ [deferred]
  scheduled : (next.transmitList.head? = queue.transmitList.head? ∧
      next.sendEvent = queue.sendEvent) ∨
    (queue.waitingOnRetry = false ∧ next.transmitList.head? = some deferred ∧
      next.sendEvent = some (reschedule (max deferred.tick (queue.curTick + 1)) queue.sendEvent))
  waiting : next.waitingOnRetry = queue.waitingOnRetry
  drain : next.drainManager = queue.drainManager
  time : next.curTick = queue.curTick

theorem schedSendEvent_eq {time : Nat} (idle : queue.waitingOnRetry = false)
    (bounded : time < maxTick) :
    queue.schedSendEvent time = some ({ queue with
      sendEvent := some (reschedule (max time (queue.curTick + 1)) queue.sendEvent) }, []) := by
  simp [schedSendEvent, idle, bounded.ne]

theorem Sound.idle (sound : queue.Sound) {time : Nat} (soon : queue.curTick ≤ time)
    (first : ∀ front ∈ queue.transmitList.head?, time < front.tick) :
    queue.waitingOnRetry = false := by
  by_contra waits
  obtain ⟨-, front, top, due⟩ := sound.held (by simpa using waits)
  have above := first front top
  omega

theorem enqueue_first (deferred : Deferred α) (sound : queue.Sound)
    (timely : Timely queue.curTick call) (time : deferred.tick = call.when) (pkt : deferred.pkt = call.pkt)
    (first : ∀ front ∈ queue.transmitList.head?, deferred.tick < front.tick)
    (forced : call.forceOrder = true → queue.transmitList = []) :
    ∃ next, { queue with transmitList := deferred :: queue.transmitList }.schedSendEvent
        deferred.tick = some (next, []) ∧ Enqueued queue call deferred next := by
  have bounded : deferred.tick < maxTick := time.trans_lt timely.bounded
  have idle := sound.idle (time ▸ timely.soon) first
  have below : ∀ other ∈ queue.transmitList, deferred.tick < other.tick := by
    intro other member
    cases list : queue.transmitList with
    | nil => simp [list] at member
    | cons front rest =>
        have above := first front (by simp [list])
        have sorted := sound.sorted
        rw [list] at member sorted
        rcases List.mem_cons.mp member with rfl | inside
        · exact above
        · exact above.trans_le (List.rel_of_pairwise_cons sorted inside)
  refine ⟨_, schedSendEvent_eq idle bounded, ?_⟩
  exact {
    pkt := pkt
    soon := time.ge
    bounded := bounded
    inserted := Stable.Inserted.first below
    forced := fun force => by simp [forced force]
    scheduled := .inr ⟨idle, rfl, rfl⟩
    waiting := rfl
    drain := rfl
    time := rfl }

theorem enqueue_behind {list : List (Deferred α)} (soon : call.when ≤ deferred.tick)
    (bounded : deferred.tick < maxTick) (pkt : deferred.pkt = call.pkt)
    (inserted : Inserted deferred queue.transmitList list)
    (forced : call.forceOrder = true → list = queue.transmitList ++ [deferred])
    (first : list.head? = queue.transmitList.head?) :
    Enqueued queue call deferred { queue with transmitList := list } where
  pkt := pkt
  soon := soon
  bounded := bounded
  inserted := inserted
  forced := forced
  scheduled := .inl ⟨first, rfl⟩
  waiting := rfl
  drain := rfl
  time := rfl

theorem schedSendTiming_enqueued (sound : queue.Sound) (timely : Timely queue.curTick call)
    (room : queue.transmitList.length ≤ 100) :
    ∃ deferred next, queue.schedSendTiming call =
      some (next, [.queued deferred call.forceOrder]) ∧ Enqueued queue call deferred next := by
  have sorted := sound.sorted
  unfold schedSendTiming
  simp only [timely.soon, timely.plain, room, guard_true, Option.bind_eq_bind, Option.pure_def,
    Option.bind_some]
  cases list : queue.transmitList with
  | nil =>
      obtain ⟨next, armed, enqueued⟩ := enqueue_first ⟨call.when, call.pkt⟩ sound timely rfl rfl
        (by simp [list]) (fun _ => list)
      rw [list] at armed
      exact ⟨_, next, by simp [armed], enqueued⟩
  | cons first rest =>
      obtain ⟨last, ends⟩ : ∃ last, queue.transmitList.getLast? = some last :=
        ⟨rest.getLast?.getD first, by rw [list, List.getLast?_cons]⟩
      have upper := Stable.le_getLast sorted ends
      have bounded := sound.bounded last (List.mem_of_getLast? ends)
      rw [list] at ends
      have above : first.tick ≤ last.tick := upper first (by simp [list])
      simp only [ends, Option.elim_some]
      by_cases force : call.forceOrder = true
      · have ordered : ¬ max call.when last.tick < first.tick := by omega
        refine ⟨⟨max call.when last.tick, call.pkt⟩, { queue with transmitList := first :: rest ++
          [⟨max call.when last.tick, call.pkt⟩] }, ?_, ?_⟩
        · simp [force, ordered]
        · refine enqueue_behind (le_max_left _ _) (max_lt timely.bounded bounded) rfl ?_
            (fun _ => by rw [list]) (by simp [list])
          rw [← list]
          exact Stable.Inserted.last fun other member =>
            (upper other member).trans (le_max_right _ _)
      · have free : call.forceOrder = false := by simpa using force
        by_cases before : call.when < first.tick
        · obtain ⟨next, armed, enqueued⟩ := enqueue_first ⟨call.when, call.pkt⟩ sound timely rfl rfl
            (by simpa [list] using before) (fun forced => absurd forced force)
          rw [list] at armed
          exact ⟨_, next, by simp [free, before, armed], enqueued⟩
        · by_cases behind : last.tick ≤ call.when
          · refine ⟨⟨call.when, call.pkt⟩, { queue with transmitList := first :: rest ++
              [⟨call.when, call.pkt⟩] }, by simp [free, before, behind], ?_⟩
            refine enqueue_behind le_rfl timely.bounded rfl ?_ (fun _ => by rw [list])
              (by simp [list])
            rw [← list]
            exact Stable.Inserted.last fun other member => (upper other member).trans behind
          · refine ⟨⟨call.when, call.pkt⟩,
              { queue with transmitList := first :: insertMiddle ⟨call.when, call.pkt⟩ rest },
              by simp [free, before, behind], ?_⟩
            refine enqueue_behind le_rfl timely.bounded rfl ?_ (fun forced => absurd forced force)
              (by simp [list])
            rw [list] at sorted ⊢
            refine (insertMiddle_inserted (List.pairwise_cons.mp sorted).2).append_left [first]
              fun other member => ?_
            rw [List.mem_singleton.mp member]
            exact not_lt.mp before

theorem reschedule_le (time : Nat) (event : Option Nat) : reschedule time event ≤ time := by
  cases event with
  | none => exact le_rfl
  | some scheduled =>
      rw [reschedule]
      split_ifs <;> omega

theorem reschedule_eq (time : Nat) (event : Option Nat) :
    reschedule time event = time ∨ reschedule time event ∈ event := by
  cases event with
  | none => exact .inl rfl
  | some scheduled =>
      rw [reschedule]
      split_ifs
      · exact .inl rfl
      · exact .inr rfl

theorem Enqueued.sound (sound : queue.Sound) (enqueued : Enqueued queue call deferred next) :
    next.Sound := by
  have sorted := enqueued.inserted.pairwise sound.sorted
  refine ⟨sorted, fun other member => ?_, fun waits => ?_, fun time scheduled => ?_⟩
  · rcases enqueued.inserted.mem_iff.mp member with rfl | inside
    · exact enqueued.bounded
    · exact sound.bounded other inside
  · rw [enqueued.waiting] at waits
    rcases enqueued.scheduled with ⟨head, event⟩ | ⟨idle, -, -⟩
    · rw [head, event, enqueued.time]
      exact sound.held waits
    · simp [idle] at waits
  · rcases enqueued.scheduled with ⟨head, event⟩ | ⟨-, head, event⟩
    · rw [event] at scheduled
      rw [head, enqueued.time]
      exact sound.event time scheduled
    · rw [event, Option.mem_some_iff] at scheduled
      rw [enqueued.time]
      refine ⟨?_, deferred, head, ?_⟩
      all_goals
        rcases reschedule_eq (max deferred.tick (queue.curTick + 1)) queue.sendEvent with
          moved | kept
      · omega
      · rw [scheduled] at kept
        exact (sound.event time kept).1
      · omega
      · rw [scheduled] at kept
        obtain ⟨-, front, top, due⟩ := sound.event time kept
        have inside := enqueued.inserted.mem_iff.mpr (.inr (List.mem_of_head? top))
        obtain ⟨rest, list⟩ := List.head?_eq_some_iff.mp head
        rw [list] at inside sorted
        rcases List.mem_cons.mp inside with rfl | later
        · exact due
        · exact (List.rel_of_pairwise_cons sorted later).trans due

theorem Enqueued.armed (armed : queue.Armed) (room : queue.transmitList.length ≤ 100)
    (enqueued : Enqueued queue call deferred next) : next.Armed := by
  have length := enqueued.inserted.length_eq
  refine ⟨enqueued.sound armed.toSound, by omega, ?_, fun _ empty => by simp [empty] at length⟩
  intro idle front top
  rw [enqueued.waiting] at idle
  rw [enqueued.time]
  rcases enqueued.scheduled with ⟨head, event⟩ | ⟨-, head, event⟩
  · rw [event]
    exact armed.armed idle front (head ▸ top)
  · obtain rfl : deferred = front := Option.some.inj (head.symm.trans top)
    exact ⟨_, event, reschedule_le _ _⟩

inductive Move : PacketQueue α → List (SendOutput α) → PacketQueue α → Prop
  | wait {queue next : PacketQueue α} (same : next.transmitList = queue.transmitList)
      (later : queue.curTick ≤ next.curTick) : Move queue [] next
  | enqueue {queue next : PacketQueue α} {deferred : Deferred α} {forceOrder : Bool}
      (soon : queue.curTick ≤ deferred.tick)
      (inserted : Inserted deferred queue.transmitList next.transmitList)
      (forced : forceOrder = true → next.transmitList = queue.transmitList ++ [deferred])
      (time : next.curTick = queue.curTick) : Move queue [.queued deferred forceOrder] next
  | send {queue next : PacketQueue α} {front : Deferred α}
      (list : queue.transmitList = front :: next.transmitList)
      (due : front.tick ≤ queue.curTick) (time : next.curTick = queue.curTick) :
      Move queue [.sent front queue.curTick] next
  | refuse {queue next : PacketQueue α} {front : Deferred α}
      (first : queue.transmitList.head? = some front)
      (due : front.tick ≤ queue.curTick) (same : next.transmitList = queue.transmitList)
      (time : next.curTick = queue.curTick) : Move queue [.refused front queue.curTick] next
  | drained {queue next : PacketQueue α} (same : next.transmitList = queue.transmitList)
      (time : next.curTick = queue.curTick) : Move queue [.drainDone] next

inductive Moves : PacketQueue α → List (SendOutput α) → PacketQueue α → Prop
  | done (queue : PacketQueue α) : Moves queue [] queue
  | more {queue middle next : PacketQueue α} {first rest : List (SendOutput α)}
      (move : Move queue first middle)
      (moves : Moves middle rest next) : Moves queue (first ++ rest) next

theorem Moves.append {middle : PacketQueue α} {first rest : List (SendOutput α)}
    (moves : Moves queue first middle) (later : Moves middle rest next) :
    Moves queue (first ++ rest) next := by
  induction moves with
  | done => exact later
  | more move _ ih =>
      rw [List.append_assoc]
      exact .more move (ih later)

theorem Move.moves {outputs : List (SendOutput α)} (move : Move queue outputs next) :
    Moves queue outputs next := by
  have moves := Moves.more move (.done next)
  rwa [List.append_nil] at moves

theorem Moves.after {middle : PacketQueue α} {outputs : List (SendOutput α)}
    (moves : Moves middle outputs next) (same : middle.transmitList = queue.transmitList)
    (time : middle.curTick = queue.curTick) : Moves queue outputs next :=
  .more (.wait same time.ge) moves

theorem Moves.rule {P : PacketQueue α → List (SendOutput α) → Prop}
    (keeps : ∀ queue next sent more, P queue sent → Move queue more next → P next (sent ++ more))
    {sent more : List (SendOutput α)} (holds : P queue sent) (moves : Moves queue more next) :
    P next (sent ++ more) := by
  induction moves generalizing sent with
  | done => rwa [List.append_nil]
  | more move _ ih =>
      rw [← List.append_assoc]
      exact ih (keeps _ _ _ _ holds move)

theorem Enqueued.move (soon : queue.curTick ≤ call.when)
    (enqueued : Enqueued queue call deferred next) :
    Move queue [.queued deferred call.forceOrder] next :=
  .enqueue (soon.trans enqueued.soon) enqueued.inserted enqueued.forced enqueued.time

theorem calls_run {nested : List (SendCall α)} (sound : queue.Sound)
    (timely : ∀ call ∈ nested, Timely queue.curTick call)
    (room : queue.transmitList.length + nested.length ≤ 101) :
    ∃ next outputs, Machine.run schedSendTiming queue nested = some (next, outputs) ∧
      next.Sound ∧ Moves queue outputs next ∧ .drainDone ∉ outputs ∧
      next.transmitList.length = queue.transmitList.length + nested.length ∧
      next.curTick = queue.curTick ∧ next.waitingOnRetry = queue.waitingOnRetry ∧
      next.drainManager = queue.drainManager := by
  induction nested generalizing queue with
  | nil => exact ⟨queue, [], rfl, sound, .done queue, List.not_mem_nil, rfl, rfl, rfl, rfl⟩
  | cons call rest ih =>
      have first := timely call List.mem_cons_self
      rw [List.length_cons] at room
      obtain ⟨deferred, middle, returns, enqueued⟩ :=
        schedSendTiming_enqueued sound first (by omega)
      have length := enqueued.inserted.length_eq
      obtain ⟨next, outputs, runs, later, moves, quiet, longer, time, waiting, drain⟩ :=
        ih (enqueued.sound sound)
          (fun call member => by
            rw [enqueued.time]
            exact timely call (List.mem_cons_of_mem _ member))
          (by omega)
      refine ⟨next, _, Machine.run_cons_eq_some.mpr ⟨middle, _, outputs, returns, runs, rfl⟩, later,
        (enqueued.move first.soon).moves.append moves, by simpa using quiet, ?_,
        time.trans enqueued.time, waiting.trans enqueued.waiting, drain.trans enqueued.drain⟩
      rw [List.length_cons]
      omega

/-- A manager that waits for the queue to drain hears of it when the list is empty, and only
then. -/
structure Signalled (queue : PacketQueue α) (outputs : List (SendOutput α))
    (next : PacketQueue α) : Prop where
  heard : queue.drainManager = true → next.transmitList = [] → .drainDone ∈ outputs
  justified : .drainDone ∈ outputs → queue.drainManager = true ∧ next.transmitList = []

theorem rearm (sound : queue.Sound) (idle : queue.waitingOnRetry = false)
    (room : queue.transmitList.length ≤ 101) :
    ∃ next outputs, queue.schedSendEvent queue.deferredPacketReadyTime = some (next, outputs) ∧
      next.Armed ∧ Moves queue outputs next ∧ Signalled queue outputs next := by
  cases list : queue.transmitList with
  | nil =>
      have unscheduled : queue.sendEvent = none := by
        refine Option.eq_none_iff_forall_not_mem.mpr fun time scheduled => ?_
        obtain ⟨-, front, top, -⟩ := sound.event time scheduled
        simp [list] at top
      have ready : queue.deferredPacketReadyTime = maxTick := by
        simp [deferredPacketReadyTime, list]
      by_cases drains : queue.drainManager = true
      · refine ⟨{ queue with drainManager := false }, [.drainDone], ?_, ?_, ?_, ?_⟩
        · simp [schedSendEvent, idle, ready, drains, list, unscheduled]
        · exact ⟨⟨sound.sorted, sound.bounded, sound.held, sound.event⟩, by simp [list],
            by simp [list], by simp⟩
        · exact Move.moves (.drained rfl rfl)
        · exact ⟨fun _ _ => List.mem_cons_self, fun _ => ⟨drains, list⟩⟩
      · refine ⟨queue, [], ?_, ⟨sound, room, by simp [list], fun drain => absurd drain drains⟩,
          .done queue, fun drain => absurd drain drains, fun done => by simp at done⟩
        simp [schedSendEvent, idle, ready, drains]
  | cons front rest =>
      have ready : queue.deferredPacketReadyTime = front.tick := by
        simp [deferredPacketReadyTime, list]
      have bounded := sound.bounded front (by simp [list])
      let time := reschedule (max front.tick (queue.curTick + 1)) queue.sendEvent
      have timed : queue.curTick ≤ time ∧ front.tick ≤ time := by
        rcases reschedule_eq (max front.tick (queue.curTick + 1)) queue.sendEvent with moved | kept
        · omega
        · obtain ⟨now, first, top, due⟩ := sound.event time kept
          obtain rfl : front = first := by simpa [list] using top
          exact ⟨now, due⟩
      refine ⟨{ queue with sendEvent := some time }, [], ?_, ?_, Move.moves (.wait rfl le_rfl), ?_⟩
      · rw [ready]
        exact schedSendEvent_eq idle bounded
      · refine ⟨⟨sound.sorted, sound.bounded, fun waits => ?_, ?_⟩, room, ?_, ?_⟩
        · simp [idle] at waits
        · intro other scheduled
          have same : time = other := Option.some.inj scheduled
          rw [← same]
          exact ⟨timed.1, front, by simp [list], timed.2⟩
        · intro _ first top
          obtain rfl : front = first := by simpa [list] using top
          exact ⟨time, rfl, reschedule_le _ _⟩
        · intro _
          simp [list]
      · exact ⟨fun _ empty => by simp [list] at empty, fun done => by simp at done⟩

theorem Sound.tail (sound : queue.Sound) (idle : queue.waitingOnRetry = false)
    (unscheduled : queue.sendEvent = none) :
    Sound { queue with transmitList := queue.transmitList.tail } := by
  refine ⟨sound.sorted.tail, fun other member => sound.bounded other (List.mem_of_mem_tail member),
    fun waits => ?_, fun time scheduled => ?_⟩
  · simp [idle] at waits
  · simp [unscheduled] at scheduled

theorem sendDeferredPacket_armed {nested : List (SendCall α)} {accepted : Bool}
    (sound : queue.Sound) (idle : queue.waitingOnRetry = false)
    (unscheduled : queue.sendEvent = none) (first : queue.transmitList.head? = some front)
    (due : front.tick ≤ queue.curTick) (room : queue.transmitList.length ≤ 101)
    (courteous : Courteous queue nested accepted) :
    ∃ next outputs, queue.sendDeferredPacket nested accepted = some (next, outputs) ∧
      next.Armed ∧ Moves queue outputs next ∧ Signalled queue outputs next := by
  obtain ⟨rest, list⟩ := List.head?_eq_some_iff.mp first
  have ready : queue.deferredPacketReady = true := by simp [deferredPacketReady, first, due]
  cases accepted with
  | false =>
      obtain rfl := courteous.refusal rfl
      refine ⟨{ queue with waitingOnRetry := true }, [.refused front queue.curTick], ?_, ?_, ?_, ?_⟩
      · simp [sendDeferredPacket, idle, ready, list, Machine.run]
      · refine ⟨⟨sound.sorted, sound.bounded, fun _ => ⟨unscheduled, front, first, due⟩,
          sound.event⟩, room, fun waits => by simp at waits, fun _ => by simp [list]⟩
      · exact Move.moves (.refuse first due rfl rfl)
      · exact ⟨fun _ empty => by simp [list] at empty, fun done => by simp at done⟩
  | true =>
      have short := courteous.room
      obtain ⟨called, calls, runs, later, moves, quiet, length, time, waiting, drain⟩ :=
        calls_run (sound.tail idle unscheduled) courteous.timely (by simp [list] at short ⊢; omega)
      obtain ⟨next, outputs, returns, armed, ends, signalled⟩ := rearm later
        (waiting.trans idle) (by simp [list] at short length; omega)
      refine ⟨next, [.sent front queue.curTick] ++ (calls ++ outputs), ?_, armed, ?_, ?_⟩
      · have free : guard (queue.waitingOnRetry = false) = some () := by simp [idle]
        simp only [sendDeferredPacket, free, ready, guard_true, first, Option.bind_eq_bind,
          Option.bind_some, runs, if_true, returns]
        rfl
      · have pop : Move queue [.sent front queue.curTick]
            { queue with transmitList := queue.transmitList.tail } :=
          .send (by simp [list]) due rfl
        exact .more pop (moves.append ends)
      · refine ⟨fun drains empty => ?_, fun done => ?_⟩
        · simp [signalled.heard (drain.trans drains) empty]
        · have last : .drainDone ∈ outputs := by simpa [quiet] using done
          exact ⟨drain.symm.trans (signalled.justified last).1, (signalled.justified last).2⟩

theorem step_armed (armed : queue.Armed) {event : Event α} (permitted : queue.Permitted event) :
    ∃ next outputs, queue.step event = some (next, outputs) ∧ next.Armed ∧
      Moves queue outputs next ∧ Signalled queue outputs next := by
  have sound := armed.toSound
  cases event with
  | advance tick =>
      obtain ⟨later, bound⟩ := permitted
      refine ⟨{ queue with curTick := tick }, [], rfl, ?_, Move.moves (.wait rfl later),
        fun drains empty => absurd empty (armed.draining drains), fun done => by simp at done⟩
      refine ⟨⟨sound.sorted, sound.bounded, fun waits => ?_, fun time scheduled => ?_⟩, armed.room,
        fun idle front top => ?_, armed.draining⟩
      · obtain ⟨none, front, top, due⟩ := sound.held waits
        exact ⟨none, front, top, due.trans later⟩
      · exact ⟨bound time scheduled, (sound.event time scheduled).2⟩
      · obtain ⟨time, scheduled, soon⟩ := armed.armed idle front top
        refine ⟨time, scheduled, soon.trans ?_⟩
        change max front.tick (queue.curTick + 1) ≤ max front.tick (tick + 1)
        omega
  | schedSendTiming call =>
      obtain ⟨timely, room⟩ := permitted
      obtain ⟨deferred, next, returns, enqueued⟩ := schedSendTiming_enqueued sound timely room
      have length := enqueued.inserted.length_eq
      exact ⟨next, _, returns, enqueued.armed armed room, (enqueued.move timely.soon).moves,
        fun _ empty => by simp [empty] at length, fun done => by simp at done⟩
  | processSendEvent nested accepted =>
      obtain ⟨now, courteous⟩ := permitted
      have idle : queue.waitingOnRetry = false := by
        by_contra waits
        have unscheduled := (sound.held (by simpa using waits)).1
        simp [unscheduled] at now
      obtain ⟨-, front, first, due⟩ := sound.event queue.curTick now
      have fired : Sound { queue with sendEvent := none } :=
        ⟨sound.sorted, sound.bounded, fun waits => by simp [idle] at waits, by simp⟩
      obtain ⟨next, outputs, returns, later, moves, signalled⟩ :=
        sendDeferredPacket_armed fired idle rfl first due armed.room
          ⟨courteous.1, courteous.2, courteous.3⟩
      refine ⟨next, outputs, ?_, later, moves.after rfl rfl, signalled.1, signalled.2⟩
      have free : guard (queue.waitingOnRetry = false) = some () := by simp [idle]
      exact Option.bind_eq_some_iff.mpr ⟨(), free, returns⟩
  | retry nested accepted =>
      obtain ⟨waits, courteous⟩ := permitted
      obtain ⟨unscheduled, front, first, due⟩ := sound.held waits
      have freed : Sound { queue with waitingOnRetry := false } :=
        ⟨sound.sorted, sound.bounded, fun waits => by simp at waits, sound.event⟩
      obtain ⟨next, outputs, returns, later, moves, signalled⟩ :=
        sendDeferredPacket_armed freed rfl unscheduled first due armed.room
          ⟨courteous.1, courteous.2, courteous.3⟩
      refine ⟨next, outputs, ?_, later, moves.after rfl rfl, signalled.1, signalled.2⟩
      have owed : guard (queue.waitingOnRetry = true) = some () := by simp [waits]
      exact Option.bind_eq_some_iff.mpr ⟨(), owed, returns⟩
  | drain =>
      refine ⟨queue.drain, [], rfl, ?_⟩
      unfold drain
      split_ifs with empty
      · exact ⟨armed, .done queue, fun drains none => absurd none (armed.draining drains),
          fun done => by simp at done⟩
      · have pending : queue.transmitList ≠ [] := by simpa using empty
        exact ⟨⟨⟨sound.sorted, sound.bounded, sound.held, sound.event⟩, armed.room, armed.armed,
          fun _ => pending⟩, Move.moves (.wait rfl le_rfl), fun _ none => absurd none pending,
          fun done => by simp at done⟩

theorem new_armed : (new : PacketQueue α).Armed :=
  ⟨⟨List.Pairwise.nil, by simp [new], by simp [new], by simp [new]⟩, by simp [new], by simp [new],
    by simp [new]⟩

theorem reachable_rule {P : PacketQueue α → List (SendOutput α) → Prop} (base : P new [])
    (keeps : ∀ queue next sent more, P queue sent → Move queue more next → P next (sent ++ more))
    {sent : List (SendOutput α)}
    (reached : Machine.Reachable step Permitted (· = new) queue sent) :
    queue.Armed ∧ P queue sent := by
  refine reached.invariant (P := fun queue sent => queue.Armed ∧ P queue sent) ?_ ?_
  · rintro _ rfl
    exact ⟨new_armed, base⟩
  · intro queue event next sent more held permitted taken
    obtain ⟨after, outputs, moved, armed, moves, -⟩ := step_armed held.1 permitted
    obtain ⟨rfl, rfl⟩ : next = after ∧ more = outputs := by
      simpa using taken.symm.trans moved
    exact ⟨armed, moves.rule keeps held.2⟩

/-- Over whole runs no assertion fails, and the first packet has either a retry to wait for or
an event that comes as soon as it is due and no earlier than the next tick. A manager that
drains the queue hears when it is empty. -/
theorem always_armed (queue : PacketQueue α) (sent : List (SendOutput α))
    (reached : Machine.Reachable step Permitted (· = new) queue sent) :
    (∀ event, queue.Permitted event → ∃ next outputs, queue.step event = some (next, outputs) ∧
      (.drainDone ∈ outputs ↔ queue.drainManager = true ∧ next.transmitList = [])) ∧
    (∀ front ∈ queue.transmitList.head?,
      (queue.waitingOnRetry = true ∧ queue.sendEvent = none ∧ front.tick ≤ queue.curTick) ∨
      (queue.waitingOnRetry = false ∧ ∃ time ∈ queue.sendEvent, queue.curTick ≤ time ∧
        front.tick ≤ time ∧ time ≤ max front.tick (queue.curTick + 1))) ∧
    (queue.transmitList = [] → queue.waitingOnRetry = false ∧ queue.sendEvent = none) := by
  obtain ⟨armed, -⟩ := reachable_rule (P := fun _ _ => True) trivial (fun _ _ _ _ _ _ => trivial)
    reached
  have sound := armed.toSound
  refine ⟨fun event permitted => ?_, fun front first => ?_, fun empty => ?_⟩
  · obtain ⟨next, outputs, moved, -, -, signalled⟩ := step_armed armed permitted
    exact ⟨next, outputs, moved, signalled.justified,
      fun drained => signalled.heard drained.1 drained.2⟩
  · cases waits : queue.waitingOnRetry with
    | true =>
        obtain ⟨unscheduled, top, same, due⟩ := sound.held waits
        obtain rfl : front = top := Option.some.inj (first.symm.trans same)
        exact .inl ⟨rfl, unscheduled, due⟩
    | false =>
        obtain ⟨time, scheduled, soon⟩ := armed.armed waits front first
        obtain ⟨now, top, same, due⟩ := sound.event time scheduled
        obtain rfl : front = top := Option.some.inj (first.symm.trans same)
        exact .inr ⟨rfl, time, scheduled, now, due, soon⟩
  · constructor
    · by_contra waits
      obtain ⟨-, front, top, -⟩ := sound.held (by simpa using waits)
      simp [empty] at top
    · refine Option.eq_none_iff_forall_not_mem.mpr fun time scheduled => ?_
      obtain ⟨-, front, top, -⟩ := sound.event time scheduled
      simp [empty] at top

def overtakenQueue : PacketQueue Nat where
  transmitList := [⟨3, 1⟩, ⟨5, 0⟩]
  waitingOnRetry := false
  sendEvent := some 3
  drainManager := false
  curTick := 0

theorem overtaken_reachable : Machine.Reachable step Permitted (· = new) overtakenQueue
    [.queued ⟨5, 0⟩ false, .queued ⟨3, 1⟩ false] := by
  have idle : Machine.Reachable step Permitted (· = new) (new : PacketQueue Nat) [] := .start rfl
  have first := idle.step (.schedSendTiming ⟨0, false, 5, false⟩)
    ⟨⟨by decide, by decide, rfl⟩, by decide⟩ rfl
  exact first.step (.schedSendTiming ⟨1, false, 3, false⟩)
    ⟨⟨by decide, by decide, rfl⟩, by decide⟩ rfl

theorem always_armed_overtaken : overtakenQueue.Permitted (.advance 3) ∧
    ∃ next outputs, overtakenQueue.step (.advance 3) = some (next, outputs) ∧
      .drainDone ∉ outputs := by
  have permitted : overtakenQueue.Permitted (.advance 3) := ⟨by decide, by decide⟩
  obtain ⟨next, outputs, moved, signalled⟩ :=
    (always_armed _ _ overtaken_reachable).1 (.advance 3) permitted
  refine ⟨permitted, next, outputs, moved, fun done => ?_⟩
  have drains := (signalled.mp done).1
  simp [overtakenQueue] at drains

end PacketQueue

end LlvmGather
