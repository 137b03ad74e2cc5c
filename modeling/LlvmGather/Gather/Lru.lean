import LlvmGather.Gather.Tags
import LlvmGather.Library.Machine
import LlvmGather.Library.Recency

/-!
The replacement policy of `lru.cc` on the sets of `cacheset.hh`: the loops that move a block
to an end of its set, and the set over whole runs as a list in the order of last use.
-/

namespace LlvmGather

structure Line where
  tag : Addr
  isSecure : Bool
deriving DecidableEq, Repr

def CacheBlk.line (blk : CacheBlk) : Option Line :=
  if blk.isValid then some ⟨blk.tag, blk.isSecure⟩ else none

structure CacheSet where
  blks : List Nat
  block : Nat → CacheBlk

namespace CacheSet

/-- The loop that writes `next` over one entry after another until it has taken up `blk`,
over the entries in the order in which it visits them. `none` when it runs past them. -/
def moveLoop (blk : Nat) : List Nat → Nat → Option (List Nat)
  | [], _ => none
  | tmp :: rest, next =>
      if tmp = blk then some (next :: rest) else (moveLoop blk rest tmp).map (next :: ·)

def moveToHead (blks : List Nat) (blk : Nat) : Option (List Nat) :=
  if blks.head? = some blk then some blks else moveLoop blk blks blk

def moveToTail (blks : List Nat) (blk : Nat) : Option (List Nat) :=
  if blks.getLast? = some blk then some blks
  else (moveLoop blk blks.reverse blk).map List.reverse

def findBlk (set : CacheSet) (line : Line) : Option Nat :=
  set.blks.find? fun way =>
    (set.block way).tag == line.tag && (set.block way).isValid &&
      (set.block way).isSecure == line.isSecure

def new (index assoc : Nat) : CacheSet where
  blks := List.range assoc
  block := CacheBlk.empty index

end CacheSet

namespace Lru

def accessBlock (set : CacheSet) (line : Line) : Option (CacheSet × Option Nat) :=
  match set.findBlk line with
  | none => some (set, none)
  | some way => (CacheSet.moveToHead set.blks way).map fun blks => ({ set with blks }, some way)

def findVictim (set : CacheSet) : Option Nat := set.blks.getLast?

/-- `insertBlock` in the place of the victim, with the block as the caller completes it. -/
def insertBlock (set : CacheSet) (filled : CacheBlk) : Option CacheSet := do
  let victim ← findVictim set
  let blks ← CacheSet.moveToHead set.blks victim
  return ⟨blks, Function.update set.block victim filled⟩

/-- `invalidate` with the invalidation of the block by the caller. -/
def invalidate (set : CacheSet) (way : Nat) : Option CacheSet := do
  let blks ← CacheSet.moveToTail set.blks way
  return ⟨blks, Function.update set.block way (set.block way).invalidate⟩

end Lru

namespace CacheSet

variable {blks : List Nat} {way : Nat}

theorem moveLoop_eq {rest : List Nat} (next : Nat) (member : way ∈ rest) :
    moveLoop way rest next = some (next :: rest.erase way) := by
  induction rest generalizing next with
  | nil => simp at member
  | cons tmp rest ih =>
      by_cases same : tmp = way
      · subst same
        simp [moveLoop]
      · have later : way ∈ rest := by
          rcases List.mem_cons.mp member with equal | later
          · exact absurd equal.symm same
          · exact later
        rw [moveLoop, if_neg same, ih tmp later, List.erase_cons_tail (by simpa using same)]
        rfl

theorem moveToHead_eq (member : way ∈ blks) : moveToHead blks way = some (way :: blks.erase way) := by
  rw [moveToHead]
  split_ifs with first
  · obtain ⟨rest, rfl⟩ := List.head?_eq_some_iff.mp first
    rw [List.erase_cons_head]
  · exact moveLoop_eq way member

theorem moveToTail_eq {front back : List Nat} (outside : way ∉ back) :
    moveToTail (front ++ way :: back) way = some (front ++ back ++ [way]) := by
  rw [moveToTail]
  split_ifs with last
  · cases back with
    | nil => simp
    | cons next rest =>
        rw [List.getLast?_append_of_ne_nil _ (by simp), List.getLast?_cons_cons] at last
        exact absurd (List.mem_of_getLast? last) outside
  · rw [moveLoop_eq way (by simp)]
    have unreached : way ∉ back.reverse := by simpa using outside
    simp [List.erase_append_right _ unreached]

def line (set : CacheSet) (way : Nat) : Option Line := (set.block way).line

theorem line_eq_some_iff {set : CacheSet} {line : Line} :
    set.line way = some line ↔ ((set.block way).tag == line.tag && (set.block way).isValid &&
      (set.block way).isSecure == line.isSecure) = true := by
  obtain ⟨tag, isSecure⟩ := line
  by_cases valid : (set.block way).isValid = true <;>
    simp [CacheSet.line, CacheBlk.line, valid]

def slots (assoc : Nat) (recent : List Line) : List (Option Line) :=
  recent.map some ++ List.replicate (assoc - recent.length) none

structure Ordered (assoc : Nat) (set : CacheSet) (recent : List Line) : Prop where
  ways : set.blks.Perm (List.range assoc)
  lines : set.blks.map set.line = slots assoc recent
  distinct : recent.Nodup
  bound : recent.length ≤ assoc

variable {assoc : Nat} {set : CacheSet} {recent : List Line} {line : Line}

theorem Ordered.nodup (ordered : Ordered assoc set recent) : set.blks.Nodup :=
  ordered.ways.nodup_iff.mpr List.nodup_range

theorem some_mem_slots : some line ∈ slots assoc recent ↔ line ∈ recent := by
  simp [slots]

theorem findBlk_eq_some (found : set.findBlk line = some way) :
    set.line way = some line ∧ ∃ front back, set.blks = front ++ way :: back ∧
      ∀ other ∈ front, set.line other ≠ some line := by
  obtain ⟨matched, front, back, split, earlier⟩ := List.find?_eq_some_iff_append.mp found
  refine ⟨line_eq_some_iff.mpr matched, front, back, split, fun other member same => ?_⟩
  have missed := earlier other member
  rw [line_eq_some_iff.mp same] at missed
  cases missed

theorem Ordered.findBlk_eq_none_iff (ordered : Ordered assoc set recent) :
    set.findBlk line = none ↔ line ∉ recent := by
  rw [← some_mem_slots, ← ordered.lines, List.mem_map, findBlk, List.find?_eq_none]
  simp only [← line_eq_some_iff, not_exists, not_and]

theorem Ordered.lines_erase (ordered : Ordered assoc set recent) {front back : List Nat}
    (split : set.blks = front ++ way :: back) (holds : set.line way = some line)
    (earlier : ∀ other ∈ front, set.line other ≠ some line) :
    (front ++ back).map set.line =
        (recent.erase line).map some ++ List.replicate (assoc - recent.length) none ∧
      line ∈ recent := by
  have lines := ordered.lines
  rw [split, List.map_append, List.map_cons, holds] at lines
  have member : line ∈ recent := by
    rw [← some_mem_slots, ← lines]
    simp
  refine ⟨?_, member⟩
  have missed : some line ∉ front.map set.line := by
    intro found
    obtain ⟨other, present, same⟩ := List.mem_map.mp found
    exact earlier other present same
  have erased := congrArg (List.erase · (some line)) lines
  rw [List.erase_append_right _ missed, List.erase_cons_head, slots,
    List.erase_append_left _ (List.mem_map_of_mem member)] at erased
  rw [List.map_append, erased, List.map_erase (Option.some_injective Line)]

end CacheSet

namespace Lru

open CacheSet

variable {assoc way : Nat} {set next : CacheSet} {recent : List Line} {line : Line}

theorem accessBlock_miss (ordered : Ordered assoc set recent) (missing : line ∉ recent) :
    accessBlock set line = some (set, none) := by
  rw [accessBlock, ordered.findBlk_eq_none_iff.mpr missing]

theorem accessBlock_hit (ordered : Ordered assoc set recent) (member : line ∈ recent) :
    ∃ next way, accessBlock set line = some (next, some way) ∧
      next.line way = some line ∧ Ordered assoc next (Recency.push recent line) := by
  have hit : set.findBlk line ≠ none := fun missed =>
    ordered.findBlk_eq_none_iff.mp missed member
  obtain ⟨way, found⟩ := Option.ne_none_iff_exists'.mp hit
  obtain ⟨holds, front, back, split, earlier⟩ := findBlk_eq_some found
  obtain ⟨lines, -⟩ := ordered.lines_erase split holds earlier
  have nodup := ordered.nodup
  rw [split] at nodup
  have apart : way ∉ front := fun inside =>
    List.disjoint_of_nodup_append nodup inside List.mem_cons_self
  have moved : moveToHead set.blks way = some (way :: (front ++ back)) := by
    rw [moveToHead_eq (by rw [split]; simp), split, List.erase_append_right _ apart,
      List.erase_cons_head]
  refine ⟨{ set with blks := way :: (front ++ back) }, way, ?_, holds, ?_⟩
  · rw [accessBlock, found]
    simp [moved]
  · have length := List.length_erase_of_mem member
    have positive := List.length_pos_of_mem member
    have ways := ordered.ways
    rw [split] at ways
    refine ⟨List.perm_middle.symm.trans ways, ?_, ?_, ?_⟩
    · change set.line way :: (front ++ back).map set.line = _
      rw [holds, lines, slots, Recency.push, List.map_cons, List.cons_append, List.length_cons,
        length, Nat.sub_add_cancel positive]
    · exact List.nodup_cons.mpr ⟨ordered.distinct.not_mem_erase, ordered.distinct.erase line⟩
    · rw [Recency.push, List.length_cons, length, Nat.sub_add_cancel positive]
      exact ordered.bound

theorem findVictim_line (positive : 0 < assoc) (ordered : Ordered assoc set recent) :
    ∃ victim, findVictim set = some victim ∧
      set.line victim = if recent.length < assoc then none else recent.getLast? := by
  have last := congrArg List.getLast? ordered.lines
  rw [List.getLast?_map] at last
  have filled : (slots assoc recent).getLast? =
      some (if recent.length < assoc then none else recent.getLast?) := by
    have bound := ordered.bound
    split_ifs with room
    · rw [slots, List.getLast?_append_of_ne_nil _ (by simp; omega), List.getLast?_replicate,
        if_neg (by omega)]
    · have full : assoc - recent.length = 0 := by omega
      have nonempty : recent ≠ [] := List.ne_nil_of_length_pos (by omega)
      rw [slots, full, List.replicate_zero, List.append_nil, List.getLast?_map,
        List.getLast?_eq_some_getLast nonempty]
      rfl
  rw [filled] at last
  exact Option.map_eq_some_iff.mp last

theorem insertBlock_ordered (positive : 0 < assoc) (ordered : Ordered assoc set recent)
    (missing : line ∉ recent) {filled : CacheBlk} (stands : filled.line = some line) :
    ∃ next, insertBlock set filled = some next ∧
      Ordered assoc next (Recency.touch assoc recent line) := by
  obtain ⟨victim, chosen, -⟩ := findVictim_line positive ordered
  obtain ⟨front, split⟩ := List.getLast?_eq_some_iff.mp chosen
  have nodup := ordered.nodup
  rw [split] at nodup
  have apart : victim ∉ front := fun inside =>
    List.disjoint_of_nodup_append nodup inside List.mem_cons_self
  have moved : moveToHead set.blks victim = some (victim :: front) := by
    rw [moveToHead_eq (by rw [split]; simp), split, List.erase_append_right _ apart]
    simp
  refine ⟨⟨victim :: front, Function.update set.block victim filled⟩, ?_, ?_⟩
  · simp [insertBlock, chosen, moved]
  · have others : front.map (fun way => (Function.update set.block victim filled way).line) =
        front.map set.line := by
      refine List.map_congr_left fun other member => ?_
      have different : other ≠ victim := fun same => apart (same ▸ member)
      rw [Function.update_of_ne different]
      rfl
    have kept : front.map set.line = (slots assoc recent).dropLast := by
      rw [← ordered.lines, split, List.map_append]
      simp
    have bound := ordered.bound
    have ways := ordered.ways
    rw [split] at ways
    refine ⟨(List.perm_append_singleton victim front).symm.trans ways, ?_,
      Recency.nodup_touch ordered.distinct, Recency.length_touch_le positive⟩
    change (Function.update set.block victim filled victim).line ::
      front.map (fun way => (Function.update set.block victim filled way).line) = _
    rw [others, kept, Function.update_self, stands, Recency.touch,
      List.erase_of_not_mem missing]
    rcases Nat.lt_or_ge recent.length assoc with room | full
    · obtain ⟨spare, count⟩ := Nat.exists_eq_add_of_lt room
      have whole : recent.take (assoc - 1) = recent := List.take_of_length_le (by omega)
      have invalid : assoc - recent.length = spare + 1 := by omega
      have later : assoc - (recent.length + 1) = spare := by omega
      rw [whole, slots, slots, invalid, List.map_cons, List.length_cons, later,
        List.replicate_succ', ← List.append_assoc, List.dropLast_concat, List.cons_append]
    · have same : recent.length = assoc := le_antisymm bound full
      have taken : (recent.take (assoc - 1)).length + 1 = assoc := by
        rw [List.length_take]
        omega
      rw [slots, slots, List.map_cons, List.length_cons, taken, same, Nat.sub_self,
        List.replicate_zero, List.append_nil, List.append_nil, ← List.map_dropLast,
        List.dropLast_eq_take, same]

theorem invalidate_ordered (ordered : Ordered assoc set recent)
    (found : set.findBlk line = some way) :
    ∃ next, invalidate set way = some next ∧ Ordered assoc next (recent.erase line) := by
  obtain ⟨holds, front, back, split, earlier⟩ := findBlk_eq_some found
  obtain ⟨lines, member⟩ := ordered.lines_erase split holds earlier
  have nodup := ordered.nodup
  rw [split] at nodup
  have alone := List.nodup_middle.mp nodup
  rw [List.nodup_cons, List.mem_append, not_or] at alone
  have moved : moveToTail set.blks way = some (front ++ back ++ [way]) := by
    rw [split, moveToTail_eq alone.1.2]
  refine ⟨⟨front ++ back ++ [way], Function.update set.block way (set.block way).invalidate⟩,
    by simp [invalidate, moved], ?_⟩
  have others : (front ++ back).map (fun other =>
      (Function.update set.block way (set.block way).invalidate other).line) =
      (front ++ back).map set.line := by
    refine List.map_congr_left fun other inside => ?_
    have different : other ≠ way := by
      rintro rfl
      rw [List.mem_append] at inside
      tauto
    rw [Function.update_of_ne different]
    rfl
  have length := List.length_erase_of_mem member
  have positive := List.length_pos_of_mem member
  have bound := ordered.bound
  have ways := ordered.ways
  rw [split] at ways
  refine ⟨?_, ?_, ordered.distinct.erase line, by omega⟩
  · exact (List.perm_append_singleton way _).trans (List.perm_middle.symm.trans ways)
  · change (front ++ back ++ [way]).map (fun other =>
      (Function.update set.block way (set.block way).invalidate other).line) = _
    have invalid : assoc - (recent.erase line).length = assoc - recent.length + 1 := by omega
    have gone : (set.block way).invalidate.line = none := rfl
    rw [List.map_append, others, lines, slots, invalid, List.replicate_succ',
      ← List.append_assoc, List.map_singleton, Function.update_self, gone]

theorem new_ordered (index assoc : Nat) : Ordered assoc (CacheSet.new index assoc) [] := by
  refine ⟨List.Perm.refl _, ?_, List.nodup_nil, Nat.zero_le _⟩
  change (List.range assoc).map (fun _ => none) = slots assoc []
  simp [slots, List.map_const']

inductive Event
  | access (line : Line)
  | fill (filled : CacheBlk)
  | invalidate (line : Line)

inductive Use
  | refreshed (line : Line)
  | entered (line : Line)
  | removed (line : Line)

def Use.apply (assoc : Nat) (recent : List Line) : Use → List Line
  | .refreshed line => Recency.push recent line
  | .entered line => Recency.touch assoc recent line
  | .removed line => recent.erase line

def step (set : CacheSet) : Event → Option (CacheSet × List Use)
  | .access line => (accessBlock set line).map fun accessed =>
      (accessed.1, if accessed.2.isSome then [.refreshed line] else [])
  | .fill filled => do
      let line ← filled.line
      let next ← insertBlock set filled
      return (next, [.entered line])
  | .invalidate line =>
      match set.findBlk line with
      | none => some (set, [])
      | some way => (invalidate set way).map (·, [.removed line])

/-- A block is filled in for a line that the set does not hold. -/
def Permitted (set : CacheSet) : Event → Prop
  | .fill filled => ∃ line, filled.line = some line ∧ set.findBlk line = none
  | _ => True

theorem step_ordered (positive : 0 < assoc) (ordered : Ordered assoc set recent) {event : Event}
    (permitted : Permitted set event) :
    ∃ next uses, step set event = some (next, uses) ∧
      Ordered assoc next (uses.foldl (Use.apply assoc) recent) := by
  cases event with
  | access line =>
      by_cases member : line ∈ recent
      · obtain ⟨next, way, accessed, -, later⟩ := accessBlock_hit ordered member
        exact ⟨next, [.refreshed line], by simp [step, accessed], later⟩
      · exact ⟨set, [], by simp [step, accessBlock_miss ordered member], ordered⟩
  | fill filled =>
      obtain ⟨line, stands, missed⟩ := permitted
      have missing := ordered.findBlk_eq_none_iff.mp missed
      obtain ⟨next, inserted, later⟩ := insertBlock_ordered positive ordered missing stands
      exact ⟨next, [.entered line], by simp [step, stands, inserted], later⟩
  | invalidate line =>
      cases found : set.findBlk line with
      | none => exact ⟨set, [], by simp [step, found], ordered⟩
      | some way =>
          obtain ⟨next, invalidated, later⟩ := invalidate_ordered ordered found
          exact ⟨next, [.removed line], by simp [step, found, invalidated], later⟩

theorem reachable_ordered (positive : 0 < assoc) {index : Nat} {uses : List Use}
    (reached : Machine.Reachable step Permitted (· = CacheSet.new index assoc) set uses) :
    Ordered assoc set (uses.foldl (Use.apply assoc) []) := by
  refine reached.invariant (P := fun set uses =>
    Ordered assoc set (uses.foldl (Use.apply assoc) [])) ?_ ?_
  · rintro _ rfl
    exact new_ordered index assoc
  · intro set event next uses more ordered permitted moved
    obtain ⟨after, sent, stepped, later⟩ := step_ordered positive ordered permitted
    rw [moved, Option.some.injEq, Prod.mk.injEq] at stepped
    obtain ⟨rfl, rfl⟩ := stepped
    rwa [List.foldl_append]

/-- Over any accesses, fills and invalidations the loops never run past the set, the set
stays a permutation of its ways with the lines in the order of their last use before the
invalid blocks, and the victim is an invalid block or the line used longest ago. -/
theorem order_of_use (index assoc : Nat) (positive : 0 < assoc) (set : CacheSet)
    (uses : List Use)
    (reached : Machine.Reachable step Permitted (· = CacheSet.new index assoc) set uses) :
    (∀ event, Permitted set event → (step set event).isSome = true) ∧
      set.blks.Perm (List.range assoc) ∧
      set.blks.map set.line = slots assoc (uses.foldl (Use.apply assoc) []) ∧
      ∃ victim, findVictim set = some victim ∧ set.line victim =
        if (uses.foldl (Use.apply assoc) []).length < assoc then none
        else (uses.foldl (Use.apply assoc) []).getLast? := by
  have ordered := reachable_ordered positive reached
  refine ⟨fun event permitted => ?_, ordered.ways, ordered.lines, findVictim_line positive ordered⟩
  obtain ⟨next, sent, stepped, -⟩ := step_ordered positive ordered permitted
  rw [stepped]
  rfl

def heldBlk (tag : Addr) : CacheBlk := { CacheBlk.empty 0 0 with tag, isValid := true }

theorem order_of_use_refreshed : ∃ set uses victim,
    Machine.Reachable step Permitted (· = CacheSet.new 0 2) set uses ∧
      findVictim set = some victim ∧ set.line victim = some ⟨2, false⟩ := by
  have empty : Machine.Reachable step Permitted (· = CacheSet.new 0 2) (CacheSet.new 0 2) [] :=
    .start rfl
  have first := empty.step (.fill (heldBlk 1)) ⟨_, rfl, rfl⟩ rfl
  have both := first.step (.fill (heldBlk 2)) ⟨_, rfl, rfl⟩ rfl
  have reused := both.step (.access ⟨1, false⟩) trivial rfl
  obtain ⟨-, -, -, victim, chosen, stands⟩ := order_of_use 0 2 (by decide) _ _ reused
  exact ⟨_, _, victim, reused, chosen, stands.trans rfl⟩

/-- A use of a line with the block that a miss would fill in, or the loss of a line. -/
inductive Reference
  | use (filled : CacheBlk)
  | drop (line : Line)

def reference (set : CacheSet) : Reference → Option (CacheSet × List Bool)
  | .use filled => do
      let line ← filled.line
      let accessed ← accessBlock set line
      if accessed.2.isSome then return (accessed.1, [true])
      let next ← insertBlock accessed.1 filled
      return (next, [false])
  | .drop line =>
      match set.findBlk line with
      | none => some (set, [])
      | some way => (invalidate set way).map (·, [])

theorem reference_use (positive : 0 < assoc) (ordered : Ordered assoc set recent)
    {filled : CacheBlk} (stands : filled.line = some line) :
    ∃ next, reference set (.use filled) = some (next, [decide (line ∈ recent)]) ∧
      Ordered assoc next (Recency.touch assoc recent line) := by
  by_cases member : line ∈ recent
  · obtain ⟨next, way, accessed, -, later⟩ := accessBlock_hit ordered member
    rw [Recency.touch_of_mem ordered.bound member]
    exact ⟨next, by simp [reference, stands, accessed, member], later⟩
  · have accessed := accessBlock_miss ordered member
    obtain ⟨next, inserted, later⟩ := insertBlock_ordered positive ordered member stands
    exact ⟨next, by simp [reference, stands, accessed, inserted, member], later⟩

theorem reference_drop (ordered : Ordered assoc set recent) (line : Line) :
    ∃ next, reference set (.drop line) = some (next, []) ∧
      Ordered assoc next (recent.erase line) := by
  cases found : set.findBlk line with
  | none =>
      rw [List.erase_of_not_mem (ordered.findBlk_eq_none_iff.mp found)]
      exact ⟨set, by simp [reference, found], ordered⟩
  | some way =>
      obtain ⟨next, invalidated, later⟩ := invalidate_ordered ordered found
      exact ⟨next, by simp [reference, found, invalidated], later⟩

def Reference.Sound : Reference → Prop
  | .use filled => filled.isValid = true
  | .drop _ => True

theorem exists_line {filled : CacheBlk} (valid : filled.isValid = true) :
    ∃ line, filled.line = some line :=
  ⟨_, if_pos valid⟩

theorem run_inclusion {more : Nat} (positive : 0 < assoc) (within : assoc ≤ more)
    {references : List Reference} (sound : ∀ reference ∈ references, reference.Sound)
    {other : CacheSet} {others : List Line} (ordered : Ordered assoc set recent)
    (wider : Ordered more other others) (shorter : recent <+: others) :
    ∃ next hits next' hits', Machine.run reference set references = some (next, hits) ∧
      Machine.run reference other references = some (next', hits') ∧
      List.Forall₂ (fun hit hit' : Bool => hit = true → hit' = true) hits hits' ∧
      ∃ last last', Ordered assoc next last ∧ Ordered more next' last' ∧ last <+: last' := by
  induction references generalizing set other recent others with
  | nil => exact ⟨set, [], other, [], rfl, rfl, .nil, recent, others, ordered, wider, shorter⟩
  | cons first rest ih =>
      have later := fun reference member => sound reference (List.mem_cons_of_mem first member)
      cases first with
      | use filled =>
          obtain ⟨line, stands⟩ := exists_line (sound _ List.mem_cons_self)
          obtain ⟨middle, moved, kept⟩ := reference_use positive ordered stands
          obtain ⟨middle', moved', kept'⟩ :=
            reference_use (Nat.lt_of_lt_of_le positive within) wider stands
          obtain ⟨next, hits, next', hits', runs, runs', implied, ends⟩ :=
            ih later kept kept' (Recency.touch_isPrefix shorter within line)
          refine ⟨next, _, next', _, Machine.run_cons_eq_some.mpr ⟨_, _, _, moved, runs, rfl⟩,
            Machine.run_cons_eq_some.mpr ⟨_, _, _, moved', runs', rfl⟩, ?_, ends⟩
          refine .cons (fun hit => ?_) implied
          exact decide_eq_true (shorter.subset (of_decide_eq_true hit))
      | drop line =>
          obtain ⟨middle, moved, kept⟩ := reference_drop ordered line
          obtain ⟨middle', moved', kept'⟩ := reference_drop wider line
          obtain ⟨next, hits, next', hits', runs, runs', implied, ends⟩ :=
            ih later kept kept' (Recency.erase_isPrefix shorter line)
          exact ⟨next, _, next', _, Machine.run_cons_eq_some.mpr ⟨_, _, _, moved, runs, rfl⟩,
            Machine.run_cons_eq_some.mpr ⟨_, _, _, moved', runs', rfl⟩, implied, ends⟩

/-- A set with more ways hits wherever one with fewer hits, whatever is used and lost, and
holds every line that the smaller one holds. -/
theorem inclusion (index assoc more : Nat) (positive : 0 < assoc) (within : assoc ≤ more)
    (references : List Reference) (sound : ∀ reference ∈ references, reference.Sound) :
    ∃ small hits large hits',
      Machine.run reference (CacheSet.new index assoc) references = some (small, hits) ∧
      Machine.run reference (CacheSet.new index more) references = some (large, hits') ∧
      List.Forall₂ (fun hit hit' : Bool => hit = true → hit' = true) hits hits' ∧
      ∀ line, small.findBlk line ≠ none → large.findBlk line ≠ none := by
  obtain ⟨small, hits, large, hits', runs, runs', implied, last, last', ordered, wider, shorter⟩ :=
    run_inclusion positive within sound (new_ordered index assoc) (new_ordered index more)
      List.prefix_rfl
  refine ⟨small, hits, large, hits', runs, runs', implied, fun line held missed => held ?_⟩
  rw [ordered.findBlk_eq_none_iff]
  rw [wider.findBlk_eq_none_iff] at missed
  exact fun member => missed (shorter.subset member)

theorem inclusion_two_ways : ∃ small hits large hits',
    Machine.run reference (CacheSet.new 0 1) [.use (heldBlk 1), .use (heldBlk 2), .use (heldBlk 1)] =
      some (small, hits) ∧
    Machine.run reference (CacheSet.new 0 2) [.use (heldBlk 1), .use (heldBlk 2), .use (heldBlk 1)] =
      some (large, hits') ∧
    List.Forall₂ (fun hit hit' : Bool => hit = true → hit' = true) hits hits' ∧
    ∀ line, small.findBlk line ≠ none → large.findBlk line ≠ none := by
  have sound : ∀ reference ∈ [Reference.use (heldBlk 1), .use (heldBlk 2), .use (heldBlk 1)],
      reference.Sound := by
    simp [Reference.Sound, heldBlk]
  exact inclusion 0 1 2 (by decide) (by decide) _ sound

theorem run_uses (positive : 0 < assoc) {filled : List CacheBlk}
    (valid : ∀ blk ∈ filled, blk.isValid = true) (ordered : Ordered assoc set recent) :
    ∃ next hits, Machine.run reference set (filled.map .use) = some (next, hits) ∧
      Ordered assoc next ((filled.filterMap CacheBlk.line).foldl (Recency.touch assoc) recent) := by
  induction filled generalizing set recent with
  | nil => exact ⟨set, [], rfl, ordered⟩
  | cons first rest ih =>
      obtain ⟨line, stands⟩ := exists_line (valid first List.mem_cons_self)
      obtain ⟨middle, moved, kept⟩ := reference_use positive ordered stands
      obtain ⟨next, hits, runs, ends⟩ :=
        ih (fun blk member => valid blk (List.mem_cons_of_mem first member)) kept
      refine ⟨next, _, Machine.run_cons_eq_some.mpr ⟨_, _, _, moved, runs, rfl⟩, ?_⟩
      rwa [List.filterMap_cons_some stands, List.foldl_cons]

/-- A line is still there when it is used again exactly if fewer other lines than the set
has ways were used in between. -/
theorem hit_iff_reuse_distance (index assoc : Nat) (positive : 0 < assoc)
    (before after : List CacheBlk) (blk : CacheBlk) (line : Line) (stands : blk.line = some line)
    (valid : ∀ other ∈ before ++ blk :: after, other.isValid = true)
    (unused : ∀ other ∈ after, other.line ≠ some line) :
    ∃ set hits, Machine.run reference (CacheSet.new index assoc)
        ((before ++ blk :: after).map .use) = some (set, hits) ∧
      (set.findBlk line ≠ none ↔ (after.filterMap CacheBlk.line).dedup.length < assoc) := by
  obtain ⟨set, hits, runs, ordered⟩ := run_uses positive valid (new_ordered index assoc)
  refine ⟨set, hits, runs, ?_⟩
  have absent : line ∉ after.filterMap CacheBlk.line := by
    intro member
    obtain ⟨other, inside, same⟩ := List.mem_filterMap.mp member
    exact unused other inside same
  rw [List.filterMap_append, List.filterMap_cons_some stands] at ordered
  rw [Ne, ordered.findBlk_eq_none_iff, not_not]
  exact Recency.mem_foldl_touch_iff positive _ _ absent

theorem hit_iff_reuse_distance_one : ∃ set hits,
    Machine.run reference (CacheSet.new 0 2) (([] ++ heldBlk 1 :: [heldBlk 2]).map .use) =
      some (set, hits) ∧ set.findBlk ⟨1, false⟩ ≠ none := by
  obtain ⟨set, hits, runs, iff⟩ := hit_iff_reuse_distance 0 2 (by decide) [] [heldBlk 2] (heldBlk 1)
    ⟨1, false⟩ rfl (by simp [heldBlk]) (by simp [heldBlk, CacheBlk.line])
  exact ⟨set, hits, runs, iff.mpr (by simp [heldBlk, CacheBlk.line])⟩

end Lru

end LlvmGather
