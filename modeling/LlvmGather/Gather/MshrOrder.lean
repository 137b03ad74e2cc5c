import LlvmGather.Gather.MshrQueue

/-!
The order in which the queue of `mshr_queue.cc` hands out its registers.
-/

namespace LlvmGather

namespace MSHRQueue

variable {queue next : MSHRQueue} {way : Nat}

def Sorted (queue : MSHRQueue) : Prop :=
  queue.readyList.Pairwise fun first second => queue.readyTime first ≤ queue.readyTime second

/-- The callers leave the ready time of a register in the ready list alone. -/
def InTurn (queue : MSHRQueue) : Event → Prop
  | .modify way register => queue.inService way = true ∨ register.readyTime = queue.readyTime way
  | .forceDeallocateTarget way _ => queue.inService way = true ∨
      (queue.mshrs way).deferredTargets.entries = []
  | .moveToFront _ => False
  | _ => True

theorem readyTime_setRegister {register : MshrRegister} {other : Nat} (different : other ≠ way) :
    (queue.setRegister way register).readyTime other = queue.readyTime other := by
  simp [readyTime, setRegister, different]

theorem readyTime_setMshr (mshr : MSHR) : (queue.setMshr way mshr).readyTime = queue.readyTime := by
  funext other
  by_cases same : other = way
  · subst same
    simp [readyTime, setMshr, setRegister]
  · exact readyTime_setRegister same

theorem Sorted.sublist (sorted : queue.Sorted) (fewer : next.readyList.Sublist queue.readyList)
    (times : ∀ way ∈ next.readyList, next.readyTime way = queue.readyTime way) : next.Sorted := by
  refine List.Pairwise.imp_of_mem ?_ (List.Pairwise.sublist fewer sorted)
  intro first second left right earlier
  rwa [times first left, times second right]

theorem addToReadyList_sorted (sorted : queue.Sorted) (added : queue.addToReadyList way = some next) :
    next.Sorted := by
  obtain ⟨front, back, list, returns, after, before, last⟩ := addToReadyList_eq queue way
  rw [added, Option.some.injEq] at returns
  subst returns
  unfold Sorted at sorted
  rw [list, List.pairwise_append] at sorted
  obtain ⟨left, right, across⟩ := sorted
  have behind : ∀ other ∈ back, queue.readyTime way ≤ queue.readyTime other := by
    cases back with
    | nil => simp
    | cons first others =>
        have head := after first rfl
        intro other member
        rcases List.mem_cons.mp member with rfl | inside
        · exact head.le
        · exact head.le.trans (List.rel_of_pairwise_cons right inside)
  have ahead : ∀ other ∈ front, queue.readyTime other ≤ queue.readyTime way := by
    intro other member
    rcases List.eq_nil_or_concat front with rfl | ⟨init, final, rfl⟩
    · simp at member
    · have bound := last final (by simp)
      rw [List.concat_eq_append] at left member
      rcases List.mem_append.mp member with inside | ends
      · exact ((List.pairwise_append.mp left).2.2 other inside final (by simp)).trans bound
      · rw [List.mem_singleton.mp ends]
        exact bound
  change (front ++ way :: back).Pairwise fun first second =>
    queue.readyTime first ≤ queue.readyTime second
  refine List.pairwise_append.mpr ⟨left, List.pairwise_cons.mpr ⟨behind, right⟩, ?_⟩
  intro first inside second member
  rcases List.mem_cons.mp member with rfl | later
  · exact ahead first inside
  · exact across first inside second later

theorem deallocateOne_sorted (sorted : queue.Sorted)
    (returns : queue.deallocateOne way = some next) : next.Sorted := by
  simp only [deallocateOne, eraseIter, Option.bind_eq_bind, Option.bind_eq_some_iff] at returns
  obtain ⟨allocatedList, -, mshr, -, returns⟩ := returns
  split_ifs at returns with busy present
  · obtain rfl := Option.some.inj returns
    exact sorted.sublist (List.Sublist.refl _) fun other _ =>
      congrFun (readyTime_setMshr mshr) other
  · obtain ⟨readyList, erased, last⟩ := Option.bind_eq_some_iff.mp returns
    obtain rfl := Option.some.inj erased
    obtain rfl := Option.some.inj last
    exact sorted.sublist List.erase_sublist fun other _ =>
      congrFun (readyTime_setMshr mshr) other
  · cases returns

theorem setMshr_sorted (sorted : queue.Sorted) (mshr : MSHR) : (queue.setMshr way mshr).Sorted :=
  sorted.sublist (List.Sublist.refl _) fun other _ => congrFun (readyTime_setMshr mshr) other

theorem setRegister_sorted (sorted : queue.Sorted) {register : MshrRegister}
    (unlisted : way ∉ queue.readyList ∨ register.readyTime = queue.readyTime way) :
    (queue.setRegister way register).Sorted := by
  refine sorted.sublist (List.Sublist.refl _) fun other member => ?_
  by_cases same : other = way
  · subst same
    rcases unlisted with absent | kept
    · exact absurd member absent
    · simpa [readyTime, setRegister] using kept
  · exact readyTime_setRegister same

theorem WellFormed.not_ready (formed : queue.WellFormed) (busy : queue.inService way = true) :
    way ∉ queue.readyList := by
  intro member
  have idle : queue.inService way = false := ((formed.pending way).mp member).2
  rw [busy] at idle
  cases idle

theorem allocate_sorted (formed : queue.WellFormed) (sorted : queue.Sorted) {addr : Addr}
    {pkt : Packet} {tick : Nat} (returns : queue.allocate addr pkt tick = some next) :
    next.Sorted := by
  unfold allocate at returns
  split at returns
  · cases returns
  next way rest split =>
    simp only [Option.bind_eq_bind, Option.bind_eq_some_iff, Option.pure_def,
      Option.some.injEq] at returns
    obtain ⟨-, -, added, inserted, rfl⟩ := returns
    have nodup := formed.nodup
    rw [split, List.cons_append, List.nodup_cons, List.mem_append, not_or] at nodup
    have absent : way ∉ queue.readyList := fun member =>
      nodup.1.2 ((formed.pending way).mp member).1
    let taken := { queue with freeList := rest, allocatedList := queue.allocatedList ++ [way] }
    have listed : taken.Sorted := sorted
    have before : (taken.setRegister way ⟨MSHR.allocate addr pkt, tick⟩).Sorted :=
      setRegister_sorted listed (.inl absent)
    have after := addToReadyList_sorted before inserted
    exact after

theorem step_sorted (formed : queue.WellFormed) (sorted : queue.Sorted) {event : Event}
    (permitted : queue.Permitted event) (inTurn : queue.InTurn event) {sent : List Unit}
    (moved : queue.step event = some (next, sent)) : next.Sorted := by
  obtain ⟨after, returns, same⟩ := Option.map_eq_some_iff.mp moved
  obtain ⟨rfl, -⟩ := Prod.mk.inj same
  cases event with
  | allocate addr pkt tick => exact allocate_sorted formed sorted returns
  | modify way register =>
      obtain rfl := Option.some.inj returns
      exact setRegister_sorted sorted (inTurn.imp_left formed.not_ready)
  | markInService way pendingDirtyResp =>
      obtain ⟨marked, -, returns⟩ := Option.bind_eq_some_iff.mp returns
      cases marked with
      | none => exact deallocateOne_sorted (setMshr_sorted sorted _) returns
      | some mshr =>
          obtain ⟨readyList, erased, last⟩ := Option.bind_eq_some_iff.mp returns
          unfold eraseIter at erased
          split_ifs at erased
          obtain rfl := Option.some.inj erased
          obtain rfl := Option.some.inj last
          exact sorted.sublist List.erase_sublist fun other _ =>
            congrFun (readyTime_setMshr mshr) other
  | markPending way =>
      obtain ⟨_, -, added⟩ := Option.bind_eq_some_iff.mp returns
      have before : ({ queue with
          inServiceEntries := queue.inServiceEntries - 1 }.setMshr way
            { (queue.register way).mshr with inService := false }).Sorted :=
        sorted.sublist (List.Sublist.refl _) fun other _ => congrFun (readyTime_setMshr _) other
      exact addToReadyList_sorted before added
  | deallocate way => exact deallocateOne_sorted sorted returns
  | moveToFront way => exact inTurn.elim
  | forceDeallocateTarget way tick =>
      have popped : (queue.setMshr way (queue.register way).mshr.popTarget).Sorted :=
        setMshr_sorted sorted _
      obtain ⟨_, -, returns⟩ := Option.bind_eq_some_iff.mp returns
      by_cases left : (queue.register way).mshr.popTarget.hasTargets = true
      · rw [if_pos left] at returns
        obtain rfl := Option.some.inj returns
        exact popped
      · rw [if_neg left] at returns
        cases promoted : (queue.register way).mshr.popTarget.promoteDeferredTargets with
        | none =>
            rw [promoted] at returns
            exact deallocateOne_sorted popped returns
        | some mshr =>
            rw [promoted] at returns
            obtain rfl := Option.some.inj returns
            have busy : queue.inService way = true := by
              rcases inTurn with busy | none
              · exact busy
              · have empty : (queue.register way).mshr.popTarget.deferredTargets.entries = [] := none
                simp [MSHR.promoteDeferredTargets, empty] at promoted
            exact setRegister_sorted popped (.inl (formed.not_ready busy))

/-- While nobody moves a register to the front, `getNextMSHR` returns a register that has
waited no less long than any other, and returns none only if none is ready. -/
theorem getNextMSHR_earliest (entries reserve : Nat) (queue : MSHRQueue)
    (sent : List Unit)
    (reached : Machine.Reachable step (fun queue event => queue.Permitted event ∧ queue.InTurn event)
      (Initial entries reserve) queue sent) (curTick : Nat) :
    (∀ way, queue.getNextMSHR curTick = some way →
      way ∈ queue.allocatedList ∧ queue.inService way = false ∧
        queue.readyTime way ≤ curTick ∧ ∀ other ∈ queue.allocatedList,
          queue.inService other = false → queue.readyTime way ≤ queue.readyTime other) ∧
    (queue.getNextMSHR curTick = none → ∀ other ∈ queue.allocatedList,
      queue.inService other = false → curTick < queue.readyTime other) := by
  obtain ⟨formed, sorted⟩ := reached.invariant
    (P := fun queue _ => queue.WellFormed ∧ queue.Sorted)
    (fun queue initial => by
      refine ⟨initial_wellFormed initial, ?_⟩
      obtain ⟨blank, -, rfl⟩ := initial
      exact List.Pairwise.nil)
    (fun queue event next _ _ held permitted moved => by
      obtain ⟨after, stepped, later⟩ := step_wellFormed held.1 permitted.1
      rw [moved, Option.some.injEq, Prod.mk.injEq] at stepped
      refine ⟨by rwa [stepped.1], step_sorted held.1 held.2 permitted.1 permitted.2 moved⟩)
  have listed : ∀ other ∈ queue.allocatedList, queue.inService other = false →
      other ∈ queue.readyList := fun other member idle =>
    (formed.pending other).mpr ⟨member, idle⟩
  unfold Sorted at sorted
  unfold getNextMSHR
  cases list : queue.readyList with
  | nil =>
      refine ⟨fun way next => by simp at next, fun _ other member idle => ?_⟩
      have inside := listed other member idle
      simp [list] at inside
  | cons front rest =>
      have first : front ∈ queue.readyList := by
        rw [list]
        exact List.mem_cons_self
      have earliest : ∀ other ∈ queue.allocatedList, queue.inService other = false →
          queue.readyTime front ≤ queue.readyTime other := by
        intro other member idle
        have inside := listed other member idle
        rw [list] at inside sorted
        rcases List.mem_cons.mp inside with rfl | later
        · exact le_rfl
        · exact List.rel_of_pairwise_cons sorted later
      rw [List.head?_cons]
      constructor
      · intro way next
        obtain ⟨same, due⟩ := Option.filter_eq_some_iff.mp next
        obtain rfl := Option.some.inj same
        obtain ⟨member, idle⟩ := (formed.pending front).mp first
        exact ⟨member, idle, of_decide_eq_true due, earliest⟩
      · intro none other member idle
        have late := Option.filter_eq_none_iff.mp none front rfl
        have bound := earliest other member idle
        simp only [decide_eq_true_eq] at late
        omega

theorem getNextMSHR_earliest_overtaken : ∃ queue sent,
    Machine.Reachable step (fun queue event => queue.Permitted event ∧ queue.InTurn event)
      (Initial 2 2) queue sent ∧ queue.allocatedList = [0, 1] ∧
      queue.getNextMSHR 6 = some 1 ∧ queue.readyTime 1 ≤ queue.readyTime 0 := by
  have idle : Machine.Reachable step
      (fun queue event => queue.Permitted event ∧ queue.InTurn event) (Initial 2 2)
      (new 2 2 blankRegister) [] :=
    .start ⟨blankRegister, ⟨by decide, by decide, by decide⟩, rfl⟩
  have first := idle.step (.allocate 64 (plainRead 64) 9) ⟨List.cons_ne_nil _ _, trivial⟩ rfl
  have both := first.step (.allocate 128 (plainRead 128) 5) ⟨List.cons_ne_nil _ _, trivial⟩ rfl
  obtain ⟨-, -, -, earliest⟩ := (getNextMSHR_earliest 2 2 _ _ both 6).1 1 rfl
  exact ⟨_, _, both, rfl, rfl, earliest 0 (by decide) rfl⟩

end MSHRQueue

end LlvmGather
