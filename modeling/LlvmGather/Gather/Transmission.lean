import LlvmGather.Gather.PacketQueue

/-!
What a peer sees of the queue of `packet_queue.cc`: the order in which it sends its packets,
and which packet it sends again after a refusal.
-/

namespace LlvmGather

namespace PacketQueue

variable {α : Type} {queue next : PacketQueue α}

def queuedIn (outputs : List (SendOutput α)) : List (Deferred α) :=
  outputs.filterMap fun
    | .queued deferred _ => some deferred
    | _ => none

def sentIn (outputs : List (SendOutput α)) : List (Deferred α) :=
  outputs.filterMap fun
    | .sent deferred _ => some deferred
    | _ => none

def attemptsIn (outputs : List (SendOutput α)) : List (Deferred α × Bool) :=
  outputs.filterMap fun
    | .sent deferred _ => some (deferred, true)
    | .refused deferred _ => some (deferred, false)
    | _ => none

theorem queuedIn_append (first second : List (SendOutput α)) :
    queuedIn (first ++ second) = queuedIn first ++ queuedIn second := List.filterMap_append

theorem sentIn_append (first second : List (SendOutput α)) :
    sentIn (first ++ second) = sentIn first ++ sentIn second := List.filterMap_append

theorem attemptsIn_append (first second : List (SendOutput α)) :
    attemptsIn (first ++ second) = attemptsIn first ++ attemptsIn second := List.filterMap_append

/-- What has been sent was due, and comes before what waits. -/
structure InOrderOfTime (queue : PacketQueue α) (sent : List (SendOutput α)) : Prop where
  arranged : Stable.Arranged Deferred.tick (queuedIn sent) (sentIn sent ++ queue.transmitList)
  past : ∀ deferred ∈ sentIn sent, deferred.tick ≤ queue.curTick
  due : ∀ deferred tick, .sent deferred tick ∈ sent → deferred.tick ≤ tick

theorem InOrderOfTime.keeps {sent more : List (SendOutput α)} (held : InOrderOfTime queue sent)
    (move : Move queue more next) : InOrderOfTime next (sent ++ more) := by
  obtain ⟨arranged, past, due⟩ := held
  cases move with
  | wait same later =>
      rw [List.append_nil]
      exact ⟨by rwa [same], fun deferred member => (past deferred member).trans later, due⟩
  | enqueue soon inserted _ time =>
      have behind := inserted.append_left (sentIn sent) fun other member =>
        (past other member).trans soon
      refine ⟨?_, ?_, by simpa using due⟩
      · simpa [queuedIn_append, sentIn_append, queuedIn, sentIn] using arranged.insert behind
      · simpa [sentIn_append, sentIn, time] using past
  | send list now time =>
      rw [list] at arranged
      refine ⟨?_, ?_, ?_⟩
      · simpa [queuedIn_append, sentIn_append, queuedIn, sentIn] using arranged
      · intro deferred member
        rw [sentIn_append] at member
        rw [time]
        rcases List.mem_append.mp member with earlier | last
        · exact past deferred earlier
        · rw [List.mem_singleton.mp last]
          exact now
      · intro deferred tick member
        rcases List.mem_append.mp member with earlier | last
        · exact due deferred tick earlier
        · obtain ⟨rfl, rfl⟩ := by simpa using last
          exact now
  | refuse _ _ same time =>
      refine ⟨?_, ?_, by simpa using due⟩
      · simpa [queuedIn_append, sentIn_append, queuedIn, sentIn, same] using arranged
      · simpa [sentIn_append, sentIn, time] using past
  | drained same time =>
      refine ⟨?_, ?_, by simpa using due⟩
      · simpa [queuedIn_append, sentIn_append, queuedIn, sentIn, same] using arranged
      · simpa [sentIn_append, sentIn, time] using past

/-- No packet is lost, sent twice or sent early. What has been sent and what still waits are,
in this order, the packets queued so far in the order of their ticks, and in the order of
the calls where ticks are equal. -/
theorem sends_in_order (queue : PacketQueue α) (sent : List (SendOutput α))
    (reached : Machine.Reachable step Permitted (· = new) queue sent) :
    (sentIn sent ++ queue.transmitList).Perm (queuedIn sent) ∧
      ((sentIn sent ++ queue.transmitList).Pairwise fun first second => first.tick ≤ second.tick) ∧
      (∀ tick, (sentIn sent ++ queue.transmitList).filter (fun deferred => deferred.tick = tick) =
        (queuedIn sent).filter (fun deferred => deferred.tick = tick)) ∧
      ∀ deferred tick, .sent deferred tick ∈ sent → deferred.tick ≤ tick := by
  obtain ⟨-, arranged, -, due⟩ := reachable_rule (P := InOrderOfTime)
    ⟨⟨List.Pairwise.nil, fun _ => rfl⟩, by simp [sentIn], by simp⟩
    (fun _ _ _ _ => InOrderOfTime.keeps) reached
  exact ⟨arranged.perm, arranged.sorted, arranged.stable, due⟩

theorem overtaken_sent : Machine.Reachable step Permitted (· = new)
    { overtakenQueue with transmitList := [⟨5, 0⟩], sendEvent := some 5, curTick := 3 }
    [.queued ⟨5, 0⟩ false, .queued ⟨3, 1⟩ false, .refused ⟨3, 1⟩ 3, .sent ⟨3, 1⟩ 3] := by
  have courteous : ∀ (queue : PacketQueue Nat) (accepted : Bool),
      queue.transmitList.length ≤ 102 → Courteous queue [] accepted := fun _ _ room =>
    ⟨fun _ member => absurd member List.not_mem_nil, room, fun _ => rfl⟩
  have due := overtaken_reachable.step (.advance 3) ⟨by decide, by decide⟩ rfl
  have refused := due.step (.processSendEvent [] false) ⟨rfl, courteous _ _ (by decide)⟩ rfl
  exact refused.step (.retry [] true) ⟨rfl, courteous _ _ (by decide)⟩ rfl

theorem sends_in_order_overtaken : ∃ (queue : PacketQueue Nat) (sent : List (SendOutput Nat)),
    Machine.Reachable step Permitted (· = new) queue sent ∧
      queuedIn sent = [⟨5, 0⟩, ⟨3, 1⟩] ∧ sentIn sent = [⟨3, 1⟩] ∧
      (sentIn sent ++ queue.transmitList).Perm (queuedIn sent) :=
  ⟨_, _, overtaken_sent, rfl, rfl, (sends_in_order _ _ overtaken_sent).1⟩

structure Retries (queue : PacketQueue α) (attempts : List (Deferred α × Bool)) : Prop where
  chain : attempts.IsChain fun first second => first.2 = false → second.1 = first.1
  first : ∀ last ∈ attempts.getLast?, last.2 = false →
    queue.transmitList.head? = some last.1 ∧ last.1.tick ≤ queue.curTick

theorem Retries.stays {attempts : List (Deferred α × Bool)} (held : Retries queue attempts)
    (kept : ∀ front, queue.transmitList.head? = some front → front.tick ≤ queue.curTick →
      next.transmitList.head? = some front)
    (later : queue.curTick ≤ next.curTick) : Retries next (attempts ++ []) := by
  rw [List.append_nil]
  refine ⟨held.chain, fun last ends refused => ?_⟩
  obtain ⟨first, due⟩ := held.first last ends refused
  exact ⟨kept last.1 first due, due.trans later⟩

theorem Retries.attempt {attempts : List (Deferred α × Bool)} {front : Deferred α}
    {accepted : Bool} (held : Retries queue attempts)
    (first : queue.transmitList.head? = some front)
    (kept : accepted = false → next.transmitList.head? = some front ∧ front.tick ≤ next.curTick) :
    Retries next (attempts ++ [(front, accepted)]) := by
  refine ⟨List.isChain_append.mpr ⟨held.chain, List.isChain_singleton _, ?_⟩, ?_⟩
  · intro last ends attempt same refused
    obtain rfl : (front, accepted) = attempt := by simpa using same
    exact Option.some.inj (first.symm.trans (held.first last ends refused).1)
  · intro last ends refused
    obtain rfl : (front, accepted) = last := by simpa using ends
    exact kept refused

theorem Retries.keeps {sent more : List (SendOutput α)} (held : Retries queue (attemptsIn sent))
    (move : Move queue more next) : Retries next (attemptsIn (sent ++ more)) := by
  rw [attemptsIn_append]
  cases move with
  | wait same later => exact held.stays (fun front first _ => by rwa [same]) later
  | enqueue soon inserted _ time =>
      exact held.stays (fun front first due => inserted.head? first (due.trans soon)) time.ge
  | send list _ _ =>
      exact held.attempt (by rw [list]; rfl) (fun refused => by simp at refused)
  | refuse first due same time =>
      exact held.attempt first (fun _ => by rw [same, time]; exact ⟨first, due⟩)
  | drained same time => exact held.stays (fun front first _ => by rwa [same]) time.ge

/-- After a refusal the queue tries the same packet again before any other, whatever is queued
in between. -/
theorem retries_refused_packet (queue : PacketQueue α) (sent : List (SendOutput α))
    (reached : Machine.Reachable step Permitted (· = new) queue sent) :
    ((attemptsIn sent).IsChain fun first second => first.2 = false → second.1 = first.1) ∧
      ∀ last ∈ (attemptsIn sent).getLast?, last.2 = false →
        queue.transmitList.head? = some last.1 := by
  obtain ⟨-, retries⟩ := reachable_rule (P := fun queue sent => Retries queue (attemptsIn sent))
    ⟨List.isChain_nil, fun last ends => by simp [attemptsIn] at ends⟩
    (fun _ _ _ _ => Retries.keeps) reached
  exact ⟨retries.chain, fun last ends refused => (retries.first last ends refused).1⟩

theorem retries_refused_packet_overtaken :
    attemptsIn [.queued ⟨5, 0⟩ false, .queued ⟨3, 1⟩ false, .refused ⟨3, 1⟩ 3, .sent ⟨3, 1⟩ 3] =
      [(⟨3, 1⟩, false), (⟨3, 1⟩, true)] ∧
    List.IsChain (fun first second => first.2 = false → second.1 = first.1)
      [((⟨3, 1⟩ : Deferred Nat), false), (⟨3, 1⟩, true)] :=
  ⟨rfl, (retries_refused_packet _ _ overtaken_sent).1⟩

def Fifo (queue : PacketQueue α) (sent : List (SendOutput α)) : Prop :=
  (∀ deferred forceOrder, .queued deferred forceOrder ∈ sent → forceOrder = true) →
    sentIn sent ++ queue.transmitList = queuedIn sent

theorem Fifo.keeps {sent more : List (SendOutput α)} (held : Fifo queue sent)
    (move : Move queue more next) : Fifo next (sent ++ more) := by
  intro forced
  have before := held fun deferred forceOrder member =>
    forced deferred forceOrder (List.mem_append_left _ member)
  rw [sentIn_append, queuedIn_append, ← before]
  cases move with
  | wait same _ => simp [same, sentIn, queuedIn]
  | enqueue _ _ last _ =>
      have force := forced _ _ (List.mem_append_right _ List.mem_cons_self)
      simp [last force, sentIn, queuedIn]
  | send list _ _ => simp [list, sentIn, queuedIn]
  | refuse _ _ same _ => simp [same, sentIn, queuedIn]
  | drained same _ => simp [same, sentIn, queuedIn]

/-- Where every call forces the order, the packets leave in the order of the calls. -/
theorem forced_order (queue : PacketQueue α) (sent : List (SendOutput α))
    (reached : Machine.Reachable step Permitted (· = new) queue sent)
    (forced : ∀ deferred forceOrder, .queued deferred forceOrder ∈ sent → forceOrder = true) :
    sentIn sent ++ queue.transmitList = queuedIn sent :=
  (reachable_rule (P := Fifo) (fun _ => rfl) (fun _ _ _ _ => Fifo.keeps) reached).2 forced

theorem forced_order_two : ∃ (queue : PacketQueue Nat) (sent : List (SendOutput Nat)),
    Machine.Reachable step Permitted (· = new) queue sent ∧
      queue.transmitList = [⟨5, 0⟩, ⟨5, 1⟩] ∧ sentIn sent ++ queue.transmitList = queuedIn sent := by
  have idle : Machine.Reachable step Permitted (· = new) (new : PacketQueue Nat) [] := .start rfl
  have first := idle.step (.schedSendTiming ⟨0, false, 5, true⟩)
    ⟨⟨by decide, by decide, rfl⟩, by decide⟩ rfl
  have both := first.step (.schedSendTiming ⟨1, false, 3, true⟩)
    ⟨⟨by decide, by decide, rfl⟩, by decide⟩ rfl
  refine ⟨_, _, both, rfl, forced_order _ _ both ?_⟩
  intro deferred forceOrder member
  simp at member
  rcases member with ⟨-, forced⟩ | ⟨-, forced⟩
  · exact forced
  · exact forced

end PacketQueue

end LlvmGather
