import LlvmGather.Gather.Functional
import LlvmGather.Gather.Mshr
import LlvmGather.Library.Machine

/-!
The queue of miss registers of `mshr_queue.cc`: its lists of free, allocated and ready
registers, and its counters. `none` stands for a failed assertion or the use of an iterator
that points to nothing.
-/

namespace LlvmGather

def TargetList.isReset (list : TargetList) : Bool := !list.needsExclusive && !list.hasUpgrade

namespace MSHR

def hasTargets (mshr : MSHR) : Bool := !mshr.targets.entries.isEmpty

def popTarget (mshr : MSHR) : MSHR :=
  { mshr with targets := { mshr.targets with entries := mshr.targets.entries.tail } }

def deallocate (mshr : MSHR) : Option MSHR := do
  guard (mshr.targets.entries = [] ∧ mshr.deferredTargets.isReset = true)
  return { mshr with targets := TargetList.empty, inService := false }

end MSHR

structure MshrRegister where
  mshr : MSHR
  readyTime : Nat

structure MSHRQueue where
  numEntries : Nat
  numReserve : Nat
  register : Nat → MshrRegister
  allocatedList : List Nat
  readyList : List Nat
  freeList : List Nat
  allocated : Int
  inServiceEntries : Int

namespace MSHRQueue

def new (entries reserve : Nat) (blank : MshrRegister) : MSHRQueue where
  numEntries := entries + reserve - 1
  numReserve := reserve
  register := fun _ => blank
  allocatedList := []
  readyList := []
  freeList := List.range (entries + reserve - 1)
  allocated := 0
  inServiceEntries := 0

def isFull (queue : MSHRQueue) : Bool :=
  decide (queue.allocated > (queue.numEntries : Int) - queue.numReserve)

def readyTime (queue : MSHRQueue) (way : Nat) : Nat := (queue.register way).readyTime

def inService (queue : MSHRQueue) (way : Nat) : Bool := (queue.register way).mshr.inService

def setRegister (queue : MSHRQueue) (way : Nat) (register : MshrRegister) : MSHRQueue :=
  { queue with register := Function.update queue.register way register }

def setMshr (queue : MSHRQueue) (way : Nat) (mshr : MSHR) : MSHRQueue :=
  queue.setRegister way { queue.register way with mshr }

def findMatch (queue : MSHRQueue) (addr : Addr) (isSecure : Bool) : Option Nat :=
  queue.allocatedList.find? fun way =>
    (queue.register way).mshr.addr == addr && (queue.register way).mshr.isSecure == isSecure

def getNextMSHR (queue : MSHRQueue) (curTick : Nat) : Option Nat :=
  queue.readyList.head?.filter fun way => decide (queue.readyTime way ≤ curTick)

def eraseIter (list : List Nat) (way : Nat) : Option (List Nat) :=
  if way ∈ list then some (list.erase way) else none

/-- The loop of `addToReadyList`, which asserts that it inserts. -/
def insertReady (time : Nat → Nat) (way : Nat) : List Nat → Option (List Nat)
  | [] => none
  | other :: rest =>
      if time other > time way then some (way :: other :: rest)
      else (insertReady time way rest).map (other :: ·)

def addToReadyList (queue : MSHRQueue) (way : Nat) : Option MSHRQueue :=
  let last := queue.readyList.getLast?.map queue.readyTime
  let readyList :=
    if last.all (· ≤ queue.readyTime way) then some (queue.readyList ++ [way])
    else insertReady queue.readyTime way queue.readyList
  readyList.map fun readyList => { queue with readyList }

def allocate (addr : Addr) (pkt : Packet) (tick : Nat) (queue : MSHRQueue) :
    Option MSHRQueue :=
  match queue.freeList with
  | [] => none
  | way :: rest => do
      let old := (queue.register way).mshr
      guard (old.getNumTargets = 0 ∧ old.targets.isReset = true ∧
        old.deferredTargets.isReset = true)
      let taken := { queue with
        freeList := rest
        allocatedList := queue.allocatedList ++ [way] }
      let added ← (taken.setRegister way ⟨MSHR.allocate addr pkt, tick⟩).addToReadyList way
      return { added with allocated := queue.allocated + 1 }

def deallocateOne (way : Nat) (queue : MSHRQueue) : Option MSHRQueue := do
  let allocatedList ← eraseIter queue.allocatedList way
  let freed := { queue with
    allocatedList
    freeList := way :: queue.freeList
    allocated := queue.allocated - 1 }
  let mshr ← (queue.register way).mshr.deallocate
  if queue.inService way then
    return { freed with inServiceEntries := queue.inServiceEntries - 1 }.setMshr way mshr
  else
    let readyList ← eraseIter queue.readyList way
    return { freed with readyList }.setMshr way mshr

def moveToFront (way : Nat) (queue : MSHRQueue) : Option MSHRQueue :=
  if queue.inService way then some queue
  else (eraseIter queue.readyList way).map fun rest => { queue with readyList := way :: rest }

def markInService (way : Nat) (pendingDirtyResp : Bool) (queue : MSHRQueue) :
    Option MSHRQueue := do
  let marked ← (queue.register way).mshr.markInService pendingDirtyResp
  match marked with
  | none => (queue.setMshr way (queue.register way).mshr.popTarget).deallocateOne way
  | some mshr => do
      let readyList ← eraseIter queue.readyList way
      return { queue with
        readyList
        inServiceEntries := queue.inServiceEntries + 1 }.setMshr way mshr

def markPending (way : Nat) (queue : MSHRQueue) : Option MSHRQueue := do
  guard (queue.inService way = true)
  let pending := { queue with inServiceEntries := queue.inServiceEntries - 1 }
  (pending.setMshr way { (queue.register way).mshr with inService := false }).addToReadyList way

def forceDeallocateTarget (way : Nat) (tick : Nat) (queue : MSHRQueue) : Option MSHRQueue := do
  let mshr := (queue.register way).mshr
  guard (mshr.hasTargets = true)
  let popped := queue.setMshr way mshr.popTarget
  if mshr.popTarget.hasTargets then return popped
  match mshr.popTarget.promoteDeferredTargets with
  | some promoted => return popped.setRegister way ⟨promoted, tick⟩
  | none => popped.deallocateOne way

inductive Event
  | allocate (addr : Addr) (pkt : Packet) (tick : Nat)
  /-- A change to an allocated register by the cache: targets added, served or promoted. -/
  | modify (way : Nat) (register : MshrRegister)
  | markInService (way : Nat) (pendingDirtyResp : Bool)
  | markPending (way : Nat)
  | deallocate (way : Nat)
  | moveToFront (way : Nat)
  | forceDeallocateTarget (way : Nat) (tick : Nat)

def step (queue : MSHRQueue) (event : Event) : Option (MSHRQueue × List Unit) :=
  Option.map (·, []) <| match event with
    | .allocate addr pkt tick => queue.allocate addr pkt tick
    | .modify way register => some (queue.setRegister way register)
    | .markInService way pendingDirtyResp => queue.markInService way pendingDirtyResp
    | .markPending way => queue.markPending way
    | .deallocate way => queue.deallocateOne way
    | .moveToFront way => queue.moveToFront way
    | .forceDeallocateTarget way tick => queue.forceDeallocateTarget way tick

/-- A register without targets, as `allocate` asserts it. -/
structure Blank (mshr : MSHR) : Prop where
  targets : mshr.getNumTargets = 0
  reset : mshr.targets.isReset = true
  deferredReset : mshr.deferredTargets.isReset = true

def Tidy (mshr : MSHR) : Prop :=
  mshr.deferredTargets.entries = [] → mshr.deferredTargets.isReset = true

structure Formed (numEntries : Nat) (mshr : Nat → MSHR) (free allocated ready : List Nat)
    (count serving : Int) : Prop where
  entries : (free ++ allocated).Perm (List.range numEntries)
  once : ready.Nodup
  pending : ∀ way, way ∈ ready ↔ way ∈ allocated ∧ (mshr way).inService = false
  counted : count = allocated.length
  served : serving + ready.length = count
  blank : ∀ way ∈ free, Blank (mshr way)
  tidy : ∀ way, Tidy (mshr way)

def mshrs (queue : MSHRQueue) (way : Nat) : MSHR := (queue.register way).mshr

def WellFormed (queue : MSHRQueue) : Prop :=
  Formed queue.numEntries queue.mshrs queue.freeList queue.allocatedList queue.readyList
    queue.allocated queue.inServiceEntries

/-- What the callers see to. -/
def Permitted (queue : MSHRQueue) : Event → Prop
  | .allocate _ _ _ => queue.freeList ≠ []
  | .modify way register => way ∈ queue.allocatedList ∧
      register.mshr.inService = queue.inService way ∧ Tidy register.mshr
  | .markInService way _ => way ∈ queue.allocatedList ∧ queue.inService way = false
  | .markPending way => way ∈ queue.allocatedList ∧ queue.inService way = true
  | .deallocate way => way ∈ queue.allocatedList ∧ (queue.mshrs way).targets.entries = [] ∧
      (queue.mshrs way).deferredTargets.entries = []
  | .moveToFront way => way ∈ queue.allocatedList
  | .forceDeallocateTarget way _ => way ∈ queue.allocatedList ∧
      (queue.mshrs way).hasTargets = true

variable {queue next : MSHRQueue} {way : Nat}

theorem insertReady_eq {time : Nat → Nat} {list : List Nat}
    (later : ∃ other ∈ list, time way < time other) :
    ∃ front back, list = front ++ back ∧ insertReady time way list = some (front ++ way :: back) ∧
      (∀ other ∈ front, time other ≤ time way) ∧ ∀ other ∈ back.head?, time way < time other := by
  induction list with
  | nil => simp at later
  | cons first rest ih =>
      by_cases found : time way < time first
      · exact ⟨[], first :: rest, rfl, by simp [insertReady, found], by simp, by simpa using found⟩
      · have further : ∃ other ∈ rest, time way < time other := by
          obtain ⟨other, member, after⟩ := later
          rcases List.mem_cons.mp member with rfl | inside
          · exact absurd after found
          · exact ⟨other, inside, after⟩
        obtain ⟨front, back, rfl, inserted, before, after⟩ := ih further
        refine ⟨first :: front, back, rfl, by simp [insertReady, found, inserted], ?_, after⟩
        intro other member
        rcases List.mem_cons.mp member with rfl | inside
        · omega
        · exact before other inside

theorem addToReadyList_eq (queue : MSHRQueue) (way : Nat) :
    ∃ front back, queue.readyList = front ++ back ∧
      queue.addToReadyList way = some { queue with readyList := front ++ way :: back } ∧
      (∀ other ∈ back.head?, queue.readyTime way < queue.readyTime other) ∧
      (back ≠ [] → ∀ other ∈ front, queue.readyTime other ≤ queue.readyTime way) ∧
      ∀ other ∈ front.getLast?, queue.readyTime other ≤ queue.readyTime way := by
  by_cases last : (queue.readyList.getLast?.map queue.readyTime).all (· ≤ queue.readyTime way) = true
  · refine ⟨queue.readyList, [], by simp, ?_, by simp, by simp, fun other ends => ?_⟩
    · rw [addToReadyList]
      simp [last]
    · rw [Option.mem_def] at ends
      simpa [ends] using last
  · have later : ∃ other ∈ queue.readyList, queue.readyTime way < queue.readyTime other := by
      cases ends : queue.readyList.getLast? with
      | none => simp [ends] at last
      | some other =>
          exact ⟨other, List.mem_of_getLast? ends, by simpa [ends] using last⟩
    obtain ⟨front, back, split, inserted, before, after⟩ := insertReady_eq later
    refine ⟨front, back, split, ?_, after, fun _ => before, fun other ends =>
      before other (List.mem_of_getLast? ends)⟩
    rw [addToReadyList]
    simp [last, inserted]

theorem mem_insert {front back : List Nat} {other : Nat} :
    other ∈ front ++ way :: back ↔ other = way ∨ other ∈ front ++ back := by
  simp only [List.mem_append, List.mem_cons]
  tauto

namespace Formed

variable {numEntries : Nat} {mshr : Nat → MSHR} {free allocated ready front back rest : List Nat}
variable {count serving : Int} {changed : MSHR}

theorem nodup (formed : Formed numEntries mshr free allocated ready count serving) :
    (free ++ allocated).Nodup :=
  formed.entries.nodup_iff.mpr List.nodup_range

theorem apart (formed : Formed numEntries mshr free allocated ready count serving)
    (member : way ∈ allocated) : way ∉ free :=
  fun inside => List.disjoint_of_nodup_append formed.nodup inside member

theorem tidy_update (formed : Formed numEntries mshr free allocated ready count serving)
    (tidy : Tidy changed) (other : Nat) : Tidy (Function.update mshr way changed other) := by
  by_cases same : other = way
  · subst same
    rwa [Function.update_self]
  · rw [Function.update_of_ne same]
    exact formed.tidy other

theorem blank_update (formed : Formed numEntries mshr free allocated ready count serving)
    (member : way ∈ allocated) : ∀ other ∈ free, Blank (Function.update mshr way changed other) := by
  intro other inside
  have different : other ≠ way := by
    rintro rfl
    exact formed.apart member inside
  rw [Function.update_of_ne different]
  exact formed.blank other inside

theorem take (formed : Formed numEntries mshr (way :: rest) allocated (front ++ back) count serving)
    (idle : changed.inService = false) (tidy : Tidy changed) :
    Formed numEntries (Function.update mshr way changed) rest (allocated ++ [way])
      (front ++ way :: back) (count + 1) serving := by
  have nodup := formed.nodup
  rw [List.cons_append, List.nodup_cons, List.mem_append, not_or] at nodup
  refine ⟨?_, ?_, fun other => ?_, ?_, ?_, fun other inside => ?_, formed.tidy_update tidy⟩
  · rw [← List.append_assoc]
    exact (List.perm_append_singleton way _).trans formed.entries
  · refine List.nodup_middle.mpr (List.nodup_cons.mpr ⟨fun member => ?_, formed.once⟩)
    exact nodup.1.2 ((formed.pending way).mp member).1
  · rw [mem_insert, formed.pending, List.mem_append, List.mem_singleton]
    by_cases same : other = way
    · subst same
      simp [idle]
    · simp [same]
  · rw [formed.counted, List.length_append, List.length_singleton, Nat.cast_add, Nat.cast_one]
  · have served := formed.served
    simp only [List.length_append, List.length_cons] at served ⊢
    omega
  · have different : other ≠ way := by
      rintro rfl
      exact nodup.1.1 inside
    rw [Function.update_of_ne different]
    exact formed.blank other (List.mem_cons_of_mem way inside)

theorem give (formed : Formed numEntries mshr free allocated ready count serving)
    (member : way ∈ allocated) (blank : Blank changed) (tidy : Tidy changed) :
    Formed numEntries (Function.update mshr way changed) (way :: free) (allocated.erase way)
      (ready.erase way) (count - 1)
      (if (mshr way).inService then serving - 1 else serving) := by
  have unique : allocated.Nodup := (List.nodup_append.mp formed.nodup).2.1
  have length := List.length_erase_of_mem member
  have positive := List.length_pos_of_mem member
  have counted := formed.counted
  have served := formed.served
  refine ⟨?_, formed.once.erase way, fun other => ?_, by omega, ?_, fun other inside => ?_,
    formed.tidy_update tidy⟩
  · exact (List.perm_middle.symm.trans ((List.perm_cons_erase member).symm.append_left _)).trans
      formed.entries
  · rw [formed.once.mem_erase_iff, unique.mem_erase_iff, formed.pending]
    by_cases same : other = way
    · simp [same]
    · simp [same]
  · by_cases busy : (mshr way).inService = true
    · have absent : way ∉ ready := fun inside => by simp [(formed.pending way).mp inside] at busy
      rw [if_pos busy, List.erase_of_not_mem absent]
      omega
    · have present : way ∈ ready := (formed.pending way).mpr ⟨member, by simpa using busy⟩
      have shorter := List.length_erase_of_mem present
      have some := List.length_pos_of_mem present
      rw [if_neg busy]
      omega
  · by_cases same : other = way
    · subst same
      rwa [Function.update_self]
    · rw [Function.update_of_ne same]
      exact formed.blank other (List.mem_of_ne_of_mem same inside)

theorem serve (formed : Formed numEntries mshr free allocated ready count serving)
    (member : way ∈ ready) (busy : changed.inService = true) (tidy : Tidy changed) :
    Formed numEntries (Function.update mshr way changed) free allocated (ready.erase way) count
      (serving + 1) := by
  have held := ((formed.pending way).mp member).1
  have shorter := List.length_erase_of_mem member
  have positive := List.length_pos_of_mem member
  have served := formed.served
  refine ⟨formed.entries, formed.once.erase way, fun other => ?_, formed.counted, by omega,
    formed.blank_update held, formed.tidy_update tidy⟩
  rw [formed.once.mem_erase_iff, formed.pending]
  by_cases same : other = way
  · subst same
    simp [busy]
  · simp [same]

theorem pend (formed : Formed numEntries mshr free allocated (front ++ back) count serving)
    (member : way ∈ allocated) (busy : (mshr way).inService = true)
    (idle : changed.inService = false) (tidy : Tidy changed) :
    Formed numEntries (Function.update mshr way changed) free allocated (front ++ way :: back) count
      (serving - 1) := by
  have absent : way ∉ front ++ back := fun inside => by
    simp [(formed.pending way).mp inside] at busy
  have served := formed.served
  refine ⟨formed.entries, List.nodup_middle.mpr (List.nodup_cons.mpr ⟨absent, formed.once⟩),
    fun other => ?_, formed.counted, ?_, formed.blank_update member, formed.tidy_update tidy⟩
  · rw [mem_insert, formed.pending]
    by_cases same : other = way
    · subst same
      simp [idle, member]
    · simp [same]
  · simp only [List.length_append, List.length_cons] at served ⊢
    omega

theorem modify (formed : Formed numEntries mshr free allocated ready count serving)
    (member : way ∈ allocated) (same : changed.inService = (mshr way).inService)
    (tidy : Tidy changed) :
    Formed numEntries (Function.update mshr way changed) free allocated ready count serving := by
  refine ⟨formed.entries, formed.once, fun other => ?_, formed.counted, formed.served,
    formed.blank_update member, formed.tidy_update tidy⟩
  rw [formed.pending]
  by_cases own : other = way
  · subst own
    rw [Function.update_self, same]
  · rw [Function.update_of_ne own]

theorem reorder {other : List Nat}
    (formed : Formed numEntries mshr free allocated ready count serving) (perm : other.Perm ready) :
    Formed numEntries mshr free allocated other count serving := by
  refine ⟨formed.entries, perm.nodup_iff.mpr formed.once, fun way => ?_, formed.counted, ?_,
    formed.blank, formed.tidy⟩
  · rw [perm.mem_iff, formed.pending]
  · rw [perm.length_eq]
    exact formed.served

end Formed

theorem mshrs_setRegister (register : MshrRegister) :
    (queue.setRegister way register).mshrs = Function.update queue.mshrs way register.mshr := by
  funext other
  rw [mshrs, setRegister]
  by_cases same : other = way
  · subst same
    simp
  · simp [same, mshrs]

theorem mshrs_setMshr (mshr : MSHR) : (queue.setMshr way mshr).mshrs way = mshr := by
  rw [setMshr, mshrs_setRegister, Function.update_self]

theorem allocate_wellFormed (formed : queue.WellFormed) (available : queue.freeList ≠ [])
    (addr : Addr) (pkt : Packet) (tick : Nat) :
    ∃ next, queue.allocate addr pkt tick = some next ∧ next.WellFormed := by
  obtain ⟨way, rest, split⟩ := List.exists_cons_of_ne_nil available
  unfold WellFormed at formed
  rw [split] at formed
  obtain ⟨targets, reset, deferred⟩ := formed.blank way List.mem_cons_self
  rw [mshrs] at targets reset deferred
  let taken := { queue with freeList := rest, allocatedList := queue.allocatedList ++ [way] }
  obtain ⟨front, back, list, added, -⟩ :=
    addToReadyList_eq (taken.setRegister way ⟨MSHR.allocate addr pkt, tick⟩) way
  have ready : queue.readyList = front ++ back := list
  rw [ready] at formed
  refine ⟨_, by simp [allocate, split, targets, reset, deferred, taken, added]; rfl, ?_⟩
  change Formed queue.numEntries (taken.setRegister way ⟨MSHR.allocate addr pkt, tick⟩).mshrs rest
    (queue.allocatedList ++ [way]) (front ++ way :: back) (queue.allocated + 1)
    queue.inServiceEntries
  rw [mshrs_setRegister]
  exact formed.take rfl fun _ => rfl

theorem deallocateOne_wellFormed (formed : queue.WellFormed) (member : way ∈ queue.allocatedList)
    (targets : (queue.mshrs way).targets.entries = [])
    (deferred : (queue.mshrs way).deferredTargets.entries = []) :
    ∃ next, queue.deallocateOne way = some next ∧ next.WellFormed := by
  have tidy := formed.tidy way
  let freed : MSHR := { queue.mshrs way with targets := TargetList.empty, inService := false }
  have freedEq : (queue.register way).mshr.deallocate = some freed := by
    have reset := tidy deferred
    rw [mshrs] at targets reset
    simp [MSHR.deallocate, targets, reset, freed, mshrs]
  have blank : Blank freed := by
    refine ⟨?_, rfl, tidy deferred⟩
    change 0 + (queue.mshrs way).deferredTargets.entries.length = 0
    rw [deferred]
    rfl
  have given := formed.give member blank (fun _ => tidy deferred)
  by_cases busy : queue.inService way = true
  · have absent : way ∉ queue.readyList := fun inside => by
      have idle := ((formed.pending way).mp inside).2
      rw [mshrs, ← inService, busy] at idle
      cases idle
    refine ⟨_, by simp [deallocateOne, eraseIter, member, freedEq, busy]; rfl, ?_⟩
    rw [List.erase_of_not_mem absent, if_pos (show (queue.mshrs way).inService = true from busy)]
      at given
    change Formed queue.numEntries (setMshr _ way freed).mshrs _ _ _ _ _
    rw [setMshr, mshrs_setRegister]
    exact given
  · have present : way ∈ queue.readyList :=
      (formed.pending way).mpr ⟨member, by simpa [mshrs, inService] using busy⟩
    refine ⟨_, by simp [deallocateOne, eraseIter, member, present, freedEq, busy]; rfl, ?_⟩
    rw [if_neg (show ¬ (queue.mshrs way).inService = true from busy)] at given
    change Formed queue.numEntries (setMshr _ way freed).mshrs _ _ _ _ _
    rw [setMshr, mshrs_setRegister]
    exact given

theorem modify_wellFormed (formed : queue.WellFormed) (member : way ∈ queue.allocatedList)
    {register : MshrRegister} (same : register.mshr.inService = queue.inService way)
    (tidy : Tidy register.mshr) : (queue.setRegister way register).WellFormed := by
  unfold WellFormed
  rw [mshrs_setRegister]
  exact formed.modify member same tidy

theorem forwardNoResponse {mshr : MSHR} (forward : mshr.isForwardNoResponse = true) :
    mshr.targets.entries.tail = [] ∧ mshr.deferredTargets.entries = [] := by
  rw [MSHR.isForwardNoResponse, Bool.and_eq_true, beq_iff_eq, MSHR.getNumTargets] at forward
  obtain ⟨one, source⟩ := forward
  cases entries : mshr.targets.entries with
  | nil => simp [entries] at source
  | cons first others =>
      rw [entries, List.length_cons] at one
      refine ⟨List.length_eq_zero_iff.mp ?_, List.length_eq_zero_iff.mp (by omega)⟩
      rw [List.tail_cons]
      omega

theorem markInService_wellFormed (formed : queue.WellFormed) (member : way ∈ queue.allocatedList)
    (idle : queue.inService way = false) (pendingDirtyResp : Bool) :
    ∃ next, queue.markInService way pendingDirtyResp = some next ∧ next.WellFormed := by
  have present : way ∈ queue.readyList := (formed.pending way).mpr ⟨member, idle⟩
  have unserved : (queue.register way).mshr.inService = false := idle
  by_cases forward : (queue.register way).mshr.isForwardNoResponse = true
  · obtain ⟨targets, deferred⟩ := forwardNoResponse forward
    have popped : (queue.setMshr way (queue.register way).mshr.popTarget).WellFormed :=
      modify_wellFormed formed member rfl (formed.tidy way)
    obtain ⟨next, returns, later⟩ := deallocateOne_wellFormed popped member
      (by rw [mshrs_setMshr]; exact targets) (by rw [mshrs_setMshr]; exact deferred)
    exact ⟨next, by simpa [markInService, MSHR.markInService, unserved, forward] using returns,
      later⟩
  · let serving : MSHR := { (queue.register way).mshr with
      inService := true
      pendingDirty := (queue.register way).mshr.targets.needsExclusive || pendingDirtyResp
      postInvalidate := false
      postDowngrade := false }
    refine ⟨{ queue with
        readyList := queue.readyList.erase way
        inServiceEntries := queue.inServiceEntries + 1 }.setMshr way serving, ?_, ?_⟩
    · simp [markInService, MSHR.markInService, unserved, forward, eraseIter, present, serving]
    · unfold WellFormed
      rw [setMshr, mshrs_setRegister]
      exact formed.serve present rfl (formed.tidy way)

theorem markPending_wellFormed (formed : queue.WellFormed) (member : way ∈ queue.allocatedList)
    (busy : queue.inService way = true) :
    ∃ next, queue.markPending way = some next ∧ next.WellFormed := by
  let pending := { queue with inServiceEntries := queue.inServiceEntries - 1 }
  let idle : MSHR := { queue.mshrs way with inService := false }
  obtain ⟨front, back, list, added, -⟩ := addToReadyList_eq (pending.setMshr way idle) way
  have ready : queue.readyList = front ++ back := list
  unfold WellFormed at formed
  rw [ready] at formed
  refine ⟨_, by simp only [markPending, busy, guard_true, Option.pure_def, Option.bind_eq_bind,
    Option.bind_some]; exact added, ?_⟩
  change Formed queue.numEntries (setMshr _ way idle).mshrs _ _ _ _ _
  rw [setMshr, mshrs_setRegister]
  exact formed.pend member busy rfl (formed.tidy way)

theorem moveToFront_wellFormed (formed : queue.WellFormed) (member : way ∈ queue.allocatedList) :
    ∃ next, queue.moveToFront way = some next ∧ next.WellFormed := by
  by_cases busy : queue.inService way = true
  · exact ⟨queue, by simp [moveToFront, busy], formed⟩
  · have present : way ∈ queue.readyList :=
      (formed.pending way).mpr ⟨member, by simpa [mshrs, inService] using busy⟩
    refine ⟨_, by simp [moveToFront, busy, eraseIter, present]; rfl, ?_⟩
    exact formed.reorder (List.perm_cons_erase present).symm

theorem forceDeallocateTarget_wellFormed (formed : queue.WellFormed)
    (member : way ∈ queue.allocatedList) (targets : (queue.mshrs way).hasTargets = true)
    (tick : Nat) :
    ∃ next, queue.forceDeallocateTarget way tick = some next ∧ next.WellFormed := by
  have some : (queue.register way).mshr.hasTargets = true := targets
  have popped : (queue.setMshr way (queue.register way).mshr.popTarget).WellFormed :=
    modify_wellFormed formed member rfl (formed.tidy way)
  by_cases left : (queue.register way).mshr.popTarget.hasTargets = true
  · exact ⟨_, by simp [forceDeallocateTarget, some, left], popped⟩
  cases promoted : (queue.register way).mshr.popTarget.promoteDeferredTargets with
  | some mshr =>
      refine ⟨(queue.setMshr way (queue.register way).mshr.popTarget).setRegister way ⟨mshr, tick⟩,
        by simp [forceDeallocateTarget, some, left, promoted], ?_⟩
      unfold MSHR.promoteDeferredTargets at promoted
      split_ifs at promoted
      obtain rfl := Option.some.inj promoted
      refine modify_wellFormed popped member ?_ fun _ => rfl
      change _ = ((queue.setMshr way (queue.register way).mshr.popTarget).mshrs way).inService
      rw [mshrs_setMshr]
  | none =>
      have deferred : (queue.register way).mshr.deferredTargets.entries = [] := by
        unfold MSHR.promoteDeferredTargets at promoted
        split_ifs at promoted with empty
        simpa [MSHR.popTarget] using empty
      have served : (queue.register way).mshr.popTarget.targets.entries = [] := by
        simpa [MSHR.hasTargets] using left
      obtain ⟨next, returns, later⟩ := deallocateOne_wellFormed popped member
        (by rw [mshrs_setMshr]; exact served) (by rw [mshrs_setMshr]; exact deferred)
      exact ⟨next, by simpa [forceDeallocateTarget, some, left, promoted] using returns, later⟩

theorem step_wellFormed (formed : queue.WellFormed) {event : Event}
    (permitted : queue.Permitted event) :
    ∃ next, queue.step event = some (next, []) ∧ next.WellFormed := by
  have lift : ∀ {result : Option MSHRQueue},
      (∃ next, result = some next ∧ next.WellFormed) →
      ∃ next, result.map (·, ([] : List Unit)) = some (next, []) ∧ next.WellFormed := by
    rintro _ ⟨next, rfl, later⟩
    exact ⟨next, rfl, later⟩
  cases event with
  | allocate addr pkt tick => exact lift (allocate_wellFormed formed permitted addr pkt tick)
  | modify way register =>
      obtain ⟨member, same, tidy⟩ := permitted
      exact lift ⟨_, rfl, modify_wellFormed formed member same tidy⟩
  | markInService way pendingDirtyResp =>
      exact lift (markInService_wellFormed formed permitted.1 permitted.2 pendingDirtyResp)
  | markPending way => exact lift (markPending_wellFormed formed permitted.1 permitted.2)
  | deallocate way =>
      obtain ⟨member, targets, deferred⟩ := permitted
      exact lift (deallocateOne_wellFormed formed member targets deferred)
  | moveToFront way => exact lift (moveToFront_wellFormed formed permitted)
  | forceDeallocateTarget way tick =>
      exact lift (forceDeallocateTarget_wellFormed formed permitted.1 permitted.2 tick)

def Initial (entries reserve : Nat) (queue : MSHRQueue) : Prop :=
  ∃ blank, Blank blank.mshr ∧ queue = new entries reserve blank

theorem initial_wellFormed {entries reserve : Nat}
    (initial : Initial entries reserve queue) : queue.WellFormed := by
  obtain ⟨blank, empty, rfl⟩ := initial
  refine ⟨by simp [new], List.nodup_nil, by simp [new], rfl, rfl, fun _ _ => empty, fun _ _ => ?_⟩
  exact empty.deferredReset

theorem reachable_wellFormed {entries reserve : Nat} {sent : List Unit}
    (reached : Machine.Reachable step Permitted (Initial entries reserve) queue sent) :
    queue.WellFormed := by
  refine reached.invariant (P := fun queue _ => queue.WellFormed) (fun _ => initial_wellFormed) ?_
  intro queue event next _ _ formed permitted moved
  obtain ⟨after, stepped, later⟩ := step_wellFormed formed permitted
  rw [moved, Option.some.injEq, Prod.mk.injEq] at stepped
  rwa [stepped.1]

/-- The bookkeeping over whole runs: no assertion fails and no iterator dangles, no register
is lost or listed twice, the counters are exact, and a queue that is not full has the
reserved registers to spare. -/
theorem registers_accounted (entries reserve : Nat) (queue : MSHRQueue)
    (sent : List Unit)
    (reached : Machine.Reachable step Permitted (Initial entries reserve) queue sent) :
    (∀ event, queue.Permitted event → (queue.step event).isSome = true) ∧
      (queue.freeList ++ queue.allocatedList).Perm (List.range queue.numEntries) ∧
      queue.readyList.Perm (queue.allocatedList.filter fun way => !queue.inService way) ∧
      queue.allocated = queue.allocatedList.length ∧
      queue.inServiceEntries = (queue.allocatedList.filter queue.inService).length ∧
      (queue.isFull = false → queue.numReserve ≤ queue.freeList.length) := by
  have formed := reachable_wellFormed reached
  have unique : queue.allocatedList.Nodup := (List.nodup_append.mp formed.nodup).2.1
  have ready : queue.readyList.Perm (queue.allocatedList.filter fun way => !queue.inService way) := by
    refine (List.perm_ext_iff_of_nodup formed.once (unique.filter _)).mpr fun way => ?_
    rw [formed.pending, List.mem_filter, Bool.not_eq_true']
    rfl
  have served := formed.served
  have counted := formed.counted
  refine ⟨fun event permitted => ?_, formed.entries, ready, counted, ?_, fun room => ?_⟩
  · obtain ⟨next, stepped, -⟩ := step_wellFormed formed permitted
    rw [stepped]
    rfl
  · have halves := List.length_eq_length_filter_add (l := queue.allocatedList) queue.inService
    have length := ready.length_eq
    omega
  · have total := formed.entries.length_eq
    rw [List.length_append, List.length_range] at total
    rw [isFull, decide_eq_false_iff_not] at room
    omega

def blankRegister : MshrRegister where
  mshr := { MSHR.allocate 0 (plainRead 0) with targets := TargetList.empty }
  readyTime := 0

def servedQueue : MSHRQueue :=
  let marked := do
    let queue ← (new 2 1 blankRegister).allocate 64 (plainRead 64) 5
    queue.markInService 0 false
  marked.getD (new 2 1 blankRegister)

theorem served_reachable : Machine.Reachable step Permitted (Initial 2 1) servedQueue [] := by
  have idle : Machine.Reachable step Permitted (Initial 2 1) (new 2 1 blankRegister) [] :=
    .start ⟨blankRegister, ⟨by decide, by decide, by decide⟩, rfl⟩
  have missed := idle.step (.allocate 64 (plainRead 64) 5) (List.cons_ne_nil _ _) rfl
  exact missed.step (.markInService 0 false) ⟨by decide, by decide⟩ rfl

theorem registers_accounted_served : servedQueue.inServiceEntries = 1 ∧
    servedQueue.isFull = false ∧ 1 ≤ servedQueue.freeList.length ∧
      (servedQueue.step (.markPending 0)).isSome = true := by
  obtain ⟨moves, -, -, -, serving, room⟩ := registers_accounted 2 1 _ _ served_reachable
  exact ⟨serving.trans rfl, by decide, room (by decide), moves _ ⟨by decide, by decide⟩⟩

end MSHRQueue

end LlvmGather
