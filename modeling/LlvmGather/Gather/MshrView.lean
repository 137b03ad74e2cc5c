import LlvmGather.Gather.MshrQueue
import LlvmGather.Gather.Timing

/-!
The queue of `mshr_queue.cc` as the list of its allocated registers, which is how the events
of `cache_impl.hh` are modelled.
-/

namespace LlvmGather

namespace MSHRQueue

def view (queue : MSHRQueue) : List MSHR := queue.allocatedList.map queue.mshrs

def place (queue : MSHRQueue) (way : Nat) : Nat := queue.allocatedList.idxOf way

def Event.onList (place : Nat → Nat) (list : List MSHR) : Event → Option (List MSHR)
  | .allocate addr pkt _ => some (list ++ [MSHR.allocate addr pkt])
  | .modify way register => some (list.set (place way) register.mshr)
  | .markInService way pendingDirtyResp => do
      let mshr ← list[place way]?
      let marked ← mshr.markInService pendingDirtyResp
      return marked.elim (list.eraseIdx (place way)) (list.set (place way))
  | .markPending way => do
      let mshr ← list[place way]?
      guard (mshr.inService = true)
      return list.set (place way) { mshr with inService := false }
  | .deallocate way => some (list.eraseIdx (place way))
  | .moveToFront _ => some list
  | .forceDeallocateTarget way _ => do
      let mshr ← list[place way]?
      guard (mshr.hasTargets = true)
      if mshr.popTarget.hasTargets then return list.set (place way) mshr.popTarget
      return mshr.popTarget.promoteDeferredTargets.elim (list.eraseIdx (place way))
        (list.set (place way))

variable {queue next : MSHRQueue} {way : Nat}

theorem WellFormed.unique (formed : queue.WellFormed) : queue.allocatedList.Nodup :=
  (List.nodup_append.mp formed.nodup).2.1

theorem getElem?_view (member : way ∈ queue.allocatedList) :
    queue.view[queue.place way]? = some (queue.register way).mshr := by
  have inside := List.idxOf_lt_length_of_mem member
  rw [view, place, List.getElem?_map, List.getElem?_eq_getElem inside, List.getElem_idxOf]
  rfl

theorem map_erase_update {list : List Nat} {mshr : Nat → MSHR} {changed : MSHR}
    (once : list.Nodup) :
    (list.erase way).map (Function.update mshr way changed) =
      (list.map mshr).eraseIdx (list.idxOf way) := by
  rw [(once.erase way).map_update, if_neg once.not_mem_erase, List.erase_eq_eraseIdx_of_idxOf rfl,
    List.eraseIdx_map]

theorem view_setRegister (once : queue.allocatedList.Nodup) (member : way ∈ queue.allocatedList)
    (register : MshrRegister) :
    (queue.setRegister way register).view = queue.view.set (queue.place way) register.mshr := by
  rw [view, mshrs_setRegister]
  exact (once.map_update _ _ _).trans (if_pos member)

theorem view_setMshr (once : queue.allocatedList.Nodup) (member : way ∈ queue.allocatedList)
    (mshr : MSHR) :
    (queue.setMshr way mshr).view = queue.view.set (queue.place way) mshr :=
  view_setRegister once member _

theorem view_addToReadyList (added : queue.addToReadyList way = some next) :
    next.view = queue.view := by
  obtain ⟨readyList, -, rfl⟩ := Option.map_eq_some_iff.mp added
  rfl

theorem view_deallocateOne (once : queue.allocatedList.Nodup)
    (returns : queue.deallocateOne way = some next) :
    next.view = queue.view.eraseIdx (queue.place way) := by
  simp only [deallocateOne, eraseIter, Option.bind_eq_bind, Option.bind_eq_some_iff] at returns
  obtain ⟨allocatedList, erased, mshr, -, returns⟩ := returns
  split_ifs at erased
  obtain rfl := Option.some.inj erased
  split_ifs at returns with busy present
  · obtain rfl := Option.some.inj returns
    rw [view, setMshr, mshrs_setRegister]
    exact map_erase_update once
  · obtain ⟨readyList, _, last⟩ := Option.bind_eq_some_iff.mp returns
    obtain rfl := Option.some.inj last
    rw [view, setMshr, mshrs_setRegister]
    exact map_erase_update once
  · cases returns

theorem view_setMshr_deallocateOne (once : queue.allocatedList.Nodup)
    (member : way ∈ queue.allocatedList) {mshr : MSHR}
    (returns : (queue.setMshr way mshr).deallocateOne way = some next) :
    next.view = queue.view.eraseIdx (queue.place way) := by
  have erased := view_deallocateOne (show (queue.setMshr way mshr).allocatedList.Nodup from once)
    returns
  rw [view_setMshr once member] at erased
  exact erased.trans (List.eraseIdx_set_eq ..)

theorem view_allocate (once : (queue.freeList ++ queue.allocatedList).Nodup) {addr : Addr}
    {pkt : Packet} {tick : Nat} (returns : queue.allocate addr pkt tick = some next) :
    next.view = queue.view ++ [MSHR.allocate addr pkt] := by
  unfold allocate at returns
  split at returns
  · cases returns
  next way rest free =>
    simp only [Option.bind_eq_bind, Option.bind_eq_some_iff, Option.pure_def,
      Option.some.injEq] at returns
    obtain ⟨-, -, added, inserted, rfl⟩ := returns
    have fresh : way ∉ queue.allocatedList :=
      List.disjoint_of_nodup_append once (by rw [free]; exact List.mem_cons_self)
    refine (view_addToReadyList inserted).trans ?_
    rw [view, mshrs_setRegister]
    refine List.map_append.trans ?_
    rw [(List.nodup_append.mp once).2.1.map_update, if_neg fresh, List.map_singleton,
      Function.update_self]
    rfl

theorem view_markInService (once : queue.allocatedList.Nodup) (member : way ∈ queue.allocatedList)
    {pendingDirtyResp : Bool} (returns : queue.markInService way pendingDirtyResp = some next) :
    (Event.markInService way pendingDirtyResp).onList queue.place queue.view = some next.view := by
  obtain ⟨marked, marks, rest⟩ := Option.bind_eq_some_iff.mp returns
  simp only [Event.onList, getElem?_view member, Option.bind_eq_bind, Option.bind_some, marks,
    Option.pure_def, Option.some.injEq]
  cases marked with
  | none => exact (view_setMshr_deallocateOne once member rest).symm
  | some mshr =>
      obtain ⟨readyList, -, last⟩ := Option.bind_eq_some_iff.mp rest
      obtain rfl := Option.some.inj last
      exact (view_setMshr (by exact once) (by exact member) mshr).symm

theorem view_markPending (once : queue.allocatedList.Nodup) (member : way ∈ queue.allocatedList)
    (returns : queue.markPending way = some next) :
    (Event.markPending way).onList queue.place queue.view = some next.view := by
  obtain ⟨_, serving, added⟩ := Option.bind_eq_some_iff.mp returns
  have taken : queue.inService way = true := by simpa using serving
  have busy : (queue.register way).mshr.inService = true := taken
  simp only [Event.onList, getElem?_view member, Option.bind_eq_bind, Option.bind_some, busy,
    guard_true, Option.pure_def, Option.some.injEq]
  rw [view_addToReadyList added]
  exact (view_setMshr (by exact once) (by exact member) _).symm

theorem view_forceDeallocateTarget (once : queue.allocatedList.Nodup)
    (member : way ∈ queue.allocatedList) {tick : Nat}
    (returns : queue.forceDeallocateTarget way tick = some next) :
    (Event.forceDeallocateTarget way tick).onList queue.place queue.view = some next.view := by
  obtain ⟨_, guarded, rest⟩ := Option.bind_eq_some_iff.mp returns
  have holds : (queue.register way).mshr.hasTargets = true := by simpa using guarded
  simp only [Event.onList, getElem?_view member, Option.bind_eq_bind, Option.bind_some, holds,
    guard_true, Option.pure_def]
  by_cases more : (queue.register way).mshr.popTarget.hasTargets = true
  · rw [if_pos more] at rest ⊢
    obtain rfl := Option.some.inj rest
    rw [view_setMshr once member]
  · rw [if_neg more] at rest ⊢
    cases promotes : (queue.register way).mshr.popTarget.promoteDeferredTargets with
    | none =>
        simp only [promotes] at rest
        exact congrArg some (view_setMshr_deallocateOne once member rest).symm
    | some promoted =>
        simp only [promotes, Option.pure_def] at rest
        obtain rfl := Option.some.inj rest
        rw [view_setRegister (by exact once) (by exact member), view_setMshr once member]
        exact congrArg some (List.set_set ..).symm

theorem step_view (formed : queue.WellFormed) {event : Event} (permitted : queue.Permitted event)
    (moved : queue.step event = some (next, [])) :
    event.onList queue.place queue.view = some next.view := by
  have once := formed.unique
  obtain ⟨after, returns, same⟩ := Option.map_eq_some_iff.mp moved
  obtain rfl : after = next := congrArg Prod.fst same
  cases event with
  | allocate addr pkt tick => exact congrArg some (view_allocate formed.nodup returns).symm
  | modify way register =>
      obtain rfl := Option.some.inj returns
      exact congrArg some (view_setRegister once permitted.1 register).symm
  | markInService way pendingDirtyResp => exact view_markInService once permitted.1 returns
  | markPending way => exact view_markPending once permitted.1 returns
  | deallocate way => exact congrArg some (view_deallocateOne once returns).symm
  | moveToFront way =>
      change queue.moveToFront way = some after at returns
      unfold moveToFront at returns
      split_ifs at returns with serving
      · obtain rfl := Option.some.inj returns
        rfl
      · obtain ⟨rest, -, rfl⟩ := Option.map_eq_some_iff.mp returns
        rfl
  | forceDeallocateTarget way tick => exact view_forceDeallocateTarget once permitted.1 returns

theorem map_idxOf_find? (list : List Nat) (found : Nat → Bool) :
    (list.find? found).map list.idxOf = list.findIdx? found := by
  induction list with
  | nil => rfl
  | cons first rest ih =>
      rw [List.findIdx?_cons]
      by_cases here : found first = true
      · simp [here]
      · rw [List.find?_cons_of_neg here, if_neg here, ← ih, Option.map_map]
        refine Option.map_congr fun way matched => ?_
        have later : first ≠ way := by
          rintro rfl
          exact here (List.find?_some matched)
        exact List.idxOf_cons_ne rest later

theorem findMatch_view (queue : MSHRQueue) (addr : Addr) (isSecure : Bool) :
    (queue.findMatch addr isSecure).map queue.place =
      LlvmGather.findMatch queue.view addr isSecure := by
  rw [LlvmGather.findMatch, view, List.findIdx?_map]
  exact map_idxOf_find? queue.allocatedList _

/-- The pool of registers is the list of the allocated ones: every operation returns and does
to the list what the cache's events do, and searches agree. -/
theorem pool_refines_list (entries reserve : Nat) (queue : MSHRQueue)
    (sent : List Unit)
    (reached : Machine.Reachable step Permitted (Initial entries reserve) queue sent) :
    (∀ event, queue.Permitted event → ∃ next, queue.step event = some (next, []) ∧
      event.onList queue.place queue.view = some next.view) ∧
      ∀ addr isSecure, (queue.findMatch addr isSecure).map queue.place =
        LlvmGather.findMatch queue.view addr isSecure := by
  have formed := reachable_wellFormed reached
  refine ⟨fun event permitted => ?_, findMatch_view queue⟩
  obtain ⟨next, moved, -⟩ := step_wellFormed formed permitted
  exact ⟨next, moved, step_view formed permitted moved⟩

theorem pool_refines_list_served : ∃ queue sent,
    Machine.Reachable step Permitted (Initial 2 1) queue sent ∧
      (queue.findMatch 64 false).map queue.place = some 0 ∧
        ∃ next, queue.step (.markPending 0) = some (next, []) ∧
          (Event.markPending 0).onList queue.place queue.view = some next.view := by
  have reached := served_reachable
  have refines := pool_refines_list 2 1 _ _ reached
  exact ⟨_, _, reached, (refines.2 64 false).trans rfl,
    refines.1 (.markPending 0) ⟨by decide, by decide⟩⟩

end MSHRQueue

end LlvmGather
