import LlvmGather.DataFlow.Domain
import LlvmGather.Ir.Edit
import LlvmGather.Ir.Semantics

/-!
Moving one instruction to the end of another block. `Moved` lists what that changes;
what follows from it is stated without the definition of `moveBefore`.
-/

namespace LlvmGather

structure Moved (F G : Func) (inst : Inst) (source target : Nat) : Prop where
  apart : source ≠ target
  argNames : G.argNames = F.argNames
  length : G.blocks.length = F.blocks.length
  others : ∀ block, block ≠ source → block ≠ target → G.insts block = F.insts block
  cut : ∃ before after, F.insts source = before ++ inst :: after ∧ G.insts source = before ++ after
  paste : ∃ front last, F.insts target = front ++ [last] ∧ G.insts target = front ++ [inst, last]
  perm : G.allInsts.Perm F.allInsts

theorem perm_insertBeforeBack (F : Func) {block : Nat} (inst : Inst)
    (bound : block < F.blocks.length) :
    (F.insertBeforeBack block inst).allInsts.Perm (inst :: F.allInsts) := by
  have one : ∀ insts : List Inst,
      (insts.dropLast ++ inst :: insts.getLast?.toList).Perm (inst :: insts) := by
    intro insts
    rcases List.eq_nil_or_concat insts with rfl | ⟨front, last, rfl⟩
    · simp
    · simp [List.perm_middle]
  simp only [Func.allInsts, Func.insertBeforeBack]
  generalize F.blocks = blocks at bound
  induction blocks generalizing block with
  | nil => simp at bound
  | cons first rest ih =>
      cases block with
      | zero =>
          simp only [List.modify_zero_cons, List.flatMap_cons, ← List.cons_append]
          exact (one first.insts).append_right _
      | succ block =>
          simp only [List.modify_succ_cons, List.flatMap_cons]
          exact ((ih (by simpa using bound)).append_left _).trans List.perm_middle

theorem perm_eraseFromParent {F : Func} (tidy : Tidy F) {inst : Inst} (member : inst ∈ F.allInsts) :
    F.allInsts.Perm (inst :: (F.eraseFromParent inst.id).allInsts) := by
  obtain ⟨before, after, split⟩ := List.mem_iff_append.mp member
  have erased : (F.eraseFromParent inst.id).allInsts = before ++ after := by
    rw [← filter_ids_split tidy.idsUnique split]
    simp only [Func.allInsts, Func.eraseFromParent, List.flatMap_map, List.filter_flatMap]
  rw [erased, split]
  exact List.perm_middle

theorem Tidy.moved {F : Func} (tidy : Tidy F) {inst : Inst} {source target : Nat}
    (member : inst ∈ F.insts source) (apart : source ≠ target)
    (bound : target < F.blocks.length) : Moved F (F.moveBefore inst target) inst source target := by
  have erasedBound : target < (F.eraseFromParent inst.id).blocks.length := by simpa using bound
  have untouched : ∀ block, block ≠ source →
      (F.eraseFromParent inst.id).insts block = F.insts block := by
    intro block other
    rw [F.insts_eraseFromParent]
    apply List.filter_eq_self.mpr
    intro candidate found
    rw [decide_eq_true_eq]
    exact fun same => other (tidy.block_unique found member same)
  refine ⟨apart, rfl, by simp [Func.moveBefore], ?_, ?_, ?_, ?_⟩
  · intro block notSource notTarget
    rw [Func.moveBefore, Func.insts_insertBeforeBack _ _ _ _ erasedBound, if_neg notTarget,
      untouched block notSource]
  · obtain ⟨before, after, split⟩ := List.mem_iff_append.mp member
    refine ⟨before, after, split, ?_⟩
    rw [Func.moveBefore, Func.insts_insertBeforeBack _ _ _ _ erasedBound, if_neg apart,
      F.insts_eraseFromParent, filter_ids_split (tidy.nodup_insts source) split]
  · obtain ⟨front, last, split, _⟩ := tidy.terminated target bound
    refine ⟨front, last, split, ?_⟩
    rw [Func.moveBefore, Func.insts_insertBeforeBack _ _ _ _ erasedBound, if_pos rfl,
      untouched target (Ne.symm apart), split]
    simp
  · have all : inst ∈ F.allInsts := (F.mem_allInsts inst).mpr ⟨source, member⟩
    exact (perm_insertBeforeBack _ inst erasedBound).trans (perm_eraseFromParent tidy all).symm

theorem phisFirst_iff (insts : List Inst) :
    (∃ phis rest, insts = phis ++ rest ∧ (∀ phi ∈ phis, phi.isPhi = true) ∧
      ∀ other ∈ rest, other.isPhi = false) ↔
    insts.Pairwise fun first second => second.isPhi = true → first.isPhi = true := by
  constructor
  · rintro ⟨phis, rest, rfl, allPhis, allPlain⟩
    refine List.pairwise_append.mpr ⟨List.pairwise_of_forall_mem_list ?_,
      List.pairwise_of_forall_mem_list ?_, ?_⟩
    · intro first isFirst _ _ _
      exact allPhis first isFirst
    · intro _ _ second isSecond isPhi
      rw [allPlain second isSecond] at isPhi
      exact absurd isPhi Bool.false_ne_true
    · intro first isFirst _ _ _
      exact allPhis first isFirst
  · intro ordered
    induction insts with
    | nil => exact ⟨[], [], rfl, by simp, by simp⟩
    | cons first insts ih =>
        obtain ⟨before, rest⟩ := List.pairwise_cons.mp ordered
        obtain ⟨phis, others, rfl, allPhis, allPlain⟩ := ih rest
        by_cases isPhi : first.isPhi = true
        · exact ⟨first :: phis, others, rfl, by simpa [isPhi] using allPhis, allPlain⟩
        · refine ⟨[], first :: (phis ++ others), rfl, by simp, ?_⟩
          intro other found
          rw [Bool.eq_false_iff]
          rcases List.mem_cons.mp found with rfl | later
          · exact isPhi
          · exact fun otherPhi => isPhi (before other later otherPhi)

section Moved

variable {F G : Func} {inst : Inst} {source target : Nat} (moved : Moved F G inst source target)

include moved

theorem Moved.mem_allInsts (other : Inst) : other ∈ G.allInsts ↔ other ∈ F.allInsts :=
  moved.perm.mem_iff

theorem Moved.member : inst ∈ F.insts source := by
  obtain ⟨before, after, split, _⟩ := moved.cut
  simp [split]

theorem Moved.arrived : inst ∈ G.insts target := by
  obtain ⟨front, last, _, split⟩ := moved.paste
  simp [split]

theorem Moved.mem_insts (tidy : Tidy F) (block : Nat) (other : Inst) :
    other ∈ G.insts block ↔ (other = inst ∧ block = target) ∨
      (other ≠ inst ∧ other ∈ F.insts block) := by
  have only : ∀ block, inst ∈ F.insts block → block = source :=
    fun block found => tidy.block_unique found moved.member rfl
  by_cases atSource : block = source
  · subst atSource
    obtain ⟨before, after, split, split'⟩ := moved.cut
    have fresh : inst ∉ before ++ after := by
      have nodup := List.Nodup.of_map _ (tidy.nodup_insts block)
      rw [split, List.nodup_middle] at nodup
      exact (List.nodup_cons.mp nodup).1
    rw [split, split']
    constructor
    · intro found
      have differs : other ≠ inst := fun same => fresh (same ▸ found)
      exact Or.inr ⟨differs, by
        rw [List.mem_append] at found ⊢
        exact found.imp_right (List.mem_cons_of_mem _)⟩
    · rintro (⟨_, same⟩ | ⟨differs, found⟩)
      · exact absurd same moved.apart
      · rw [List.mem_append] at found ⊢
        exact found.imp_right fun later => (List.mem_cons.mp later).resolve_left differs
  · by_cases atTarget : block = target
    · subst atTarget
      obtain ⟨front, last, split, split'⟩ := moved.paste
      have absent : inst ∉ F.insts block := fun found => atSource (only block found)
      rw [split] at absent
      rw [split, split']
      by_cases same : other = inst
      · simp [same]
      · simp [same]
    · rw [moved.others block atSource atTarget]
      constructor
      · intro found
        refine Or.inr ⟨?_, found⟩
        rintro rfl
        exact atSource (only block found)
      · rintro (⟨_, same⟩ | ⟨_, found⟩)
        · exact absurd same atTarget
        · exact found

theorem Moved.defines (tidy : Tidy F) (block id : Nat) :
    G.Defines block id ↔ (id = inst.id ∧ block = target) ∨ (id ≠ inst.id ∧ F.Defines block id) := by
  have all : inst ∈ F.allInsts := (F.mem_allInsts inst).mpr ⟨source, moved.member⟩
  constructor
  · rintro ⟨other, found, rfl⟩
    rcases (moved.mem_insts tidy block other).mp found with ⟨rfl, here⟩ | ⟨differs, old⟩
    · exact Or.inl ⟨rfl, here⟩
    · refine Or.inr ⟨?_, other, old, rfl⟩
      intro same
      exact differs (tidy.inst_unique ((F.mem_allInsts other).mpr ⟨block, old⟩) all same)
  · rintro (⟨rfl, rfl⟩ | ⟨differs, other, found, rfl⟩)
    · exact ⟨inst, moved.arrived, rfl⟩
    · refine ⟨other, (moved.mem_insts tidy block other).mpr (Or.inr ⟨?_, found⟩), rfl⟩
      rintro rfl
      exact differs rfl

theorem Moved.sublist {some : List Inst} {block : Nat} (stays : inst ∉ some)
    (ordered : List.Sublist some (F.insts block)) : List.Sublist some (G.insts block) := by
  by_cases atSource : block = source
  · subst atSource
    obtain ⟨before, after, split, split'⟩ := moved.cut
    rw [split] at ordered
    rw [split']
    obtain ⟨front, back, rfl, inFront, inBack⟩ := List.sublist_append_iff.mp ordered
    apply inFront.append
    cases inBack with
    | cons _ inAfter => exact inAfter
    | cons_cons _ inAfter => simp at stays
  · by_cases atTarget : block = target
    · subst atTarget
      obtain ⟨front, last, split, split'⟩ := moved.paste
      rw [split] at ordered
      rw [split']
      exact ordered.trans ((List.Sublist.refl front).append (List.sublist_cons_self inst [last]))
    · rwa [moved.others block atSource atTarget]

theorem Moved.split (plain : inst.isTerminator = false) {block : Nat} {body : List Inst}
    {last : Inst} (shape : F.insts block = body ++ [last]) (terminator : last.isTerminator = true) :
    ∃ body', G.insts block = body' ++ [last] ∧ ∀ other ∈ body', other = inst ∨ other ∈ body := by
  by_cases atSource : block = source
  · subst atSource
    obtain ⟨before, after, split, split'⟩ := moved.cut
    rcases Scan.snoc_split (shape.symm.trans split) with ⟨_, same, _⟩ | ⟨rest, rfl, front⟩
    · rw [same, terminator] at plain
      exact absurd plain (by simp)
    · refine ⟨before ++ rest, by simp [split'], ?_⟩
      intro other found
      right
      rw [front]
      rw [List.mem_append] at found ⊢
      exact found.imp_right (List.mem_cons_of_mem _)
  · by_cases atTarget : block = target
    · subst atTarget
      obtain ⟨front, final, split, split'⟩ := moved.paste
      obtain ⟨sameFront, sameLast⟩ := List.append_inj' (split.symm.trans shape) rfl
      refine ⟨front ++ [inst], by simp [split', List.singleton_inj.mp sameLast], ?_⟩
      intro other found
      rw [← sameFront]
      rcases List.mem_append.mp found with old | new
      · exact Or.inr old
      · exact Or.inl (List.mem_singleton.mp new)
    · exact ⟨body, by rw [moved.others block atSource atTarget, shape], fun other => Or.inr⟩

theorem Moved.getTerminator (tidy : Tidy F) (plain : inst.isTerminator = false) (block : Nat) :
    G.getTerminator block = F.getTerminator block := by
  by_cases bound : block < F.blocks.length
  · obtain ⟨body, last, shape, terminator, _⟩ := tidy.terminated block bound
    obtain ⟨body', shape', _⟩ := moved.split plain shape terminator
    simp [Func.getTerminator, shape, shape']
  · have beyond := Nat.le_of_not_lt bound
    simp only [Func.getTerminator, F.insts_of_length_le beyond,
      G.insts_of_length_le (moved.length ▸ beyond)]

theorem Moved.succs (tidy : Tidy F) (plain : inst.isTerminator = false) : G.succs = F.succs := by
  funext block
  simp only [Func.succs, moved.getTerminator tidy plain block]

theorem Moved.tidy (tidy : Tidy F) (plain : inst.isTerminator = false) : Tidy G := by
  refine ⟨?_, ?_, ?_⟩
  · intro block bound
    rw [moved.length] at bound
    obtain ⟨body, last, split, terminator, plainBody⟩ := tidy.terminated block bound
    obtain ⟨body', split', inBody⟩ := moved.split plain split terminator
    refine ⟨body', last, split', terminator, ?_⟩
    intro other found
    rcases inBody other found with rfl | old
    · exact plain
    · exact plainBody other old
  · exact ((moved.perm.map Inst.id).nodup_iff).mpr tidy.idsUnique
  · intro user member id operand
    obtain ⟨definition, defined, same⟩ :=
      tidy.operandsDefined user ((moved.mem_allInsts user).mp member) id operand
    exact ⟨definition, (moved.mem_allInsts definition).mpr defined, same⟩

theorem Moved.phisFirst (verified : Verified F) (notPhi : inst.isPhi = false) (block : Nat) :
    (G.insts block).Pairwise fun first second => second.isPhi = true → first.isPhi = true := by
  have old := (phisFirst_iff (F.insts block)).mp (verified.phisFirst block)
  by_cases atSource : block = source
  · subst atSource
    obtain ⟨before, after, split, split'⟩ := moved.cut
    rw [split] at old
    rw [split']
    exact old.sublist ((List.Sublist.refl before).append (List.sublist_cons_self inst after))
  · by_cases atTarget : block = target
    · subst atTarget
      obtain ⟨front, last, split, split'⟩ := moved.paste
      rw [split] at old
      rw [split']
      obtain ⟨oldFront, _, oldLast⟩ := List.pairwise_append.mp old
      have lastPlain := Inst.not_isPhi_of_isTerminator (verified.terminator_of_last split)
      refine List.pairwise_append.mpr ⟨oldFront, by simp [lastPlain], ?_⟩
      intro first inFront second inBack isPhi
      simp only [List.mem_cons, List.not_mem_nil, or_false] at inBack
      rcases inBack with rfl | rfl
      · rw [notPhi] at isPhi
        exact absurd isPhi Bool.false_ne_true
      · exact oldLast first inFront second (by simp) isPhi
    · rwa [moved.others block atSource atTarget]

theorem Moved.verified (verified : Verified F) (plain : inst.isTerminator = false)
    (notPhi : inst.isPhi = false) : Verified G := by
  have succs := moved.succs verified.toTidy plain
  have member := fun other => (moved.mem_allInsts other).mp
  refine
    { toTidy := moved.tidy verified.toTidy plain
      nonempty := ?nonempty
      targetsInside := ?targetsInside
      entryWithoutPreds := ?entryWithoutPreds
      phisFirst := ?phisFirst
      phiIncoming := ?phiIncoming
      voidTerminators := ?voidTerminators
      namesUnique := ?namesUnique }
  case nonempty =>
    have nonempty := List.length_pos_iff.mpr verified.nonempty
    rw [← moved.length] at nonempty
    exact List.length_pos_iff.mp nonempty
  case targetsInside =>
    rw [succs, moved.length]
    exact verified.targetsInside
  case entryWithoutPreds =>
    rw [succs]
    exact verified.entryWithoutPreds
  case phisFirst =>
    intro block
    exact (phisFirst_iff _).mpr (moved.phisFirst verified notPhi block)
  case phiIncoming =>
    intro block phi found isPhi
    rw [succs]
    rcases (moved.mem_insts verified.toTidy block phi).mp found with ⟨rfl, _⟩ | ⟨_, old⟩
    · rw [notPhi] at isPhi
      exact absurd isPhi Bool.false_ne_true
    · exact verified.phiIncoming block phi old isPhi
  case voidTerminators =>
    intro last found terminator destination single user isUser
    exact verified.voidTerminators last (member last found) terminator destination single user
      (member user isUser)
  case namesUnique =>
    intro first found named
    obtain ⟨unique, notArgument⟩ := verified.namesUnique first (member first found) named
    refine ⟨fun second isSecond => unique second (member second isSecond), ?_⟩
    rwa [moved.argNames]

theorem Moved.phis (notPhi : inst.isPhi = false) (block : Nat) : G.phis block = F.phis block := by
  by_cases atSource : block = source
  · subst atSource
    obtain ⟨before, after, split, split'⟩ := moved.cut
    simp [Func.phis, split, split', notPhi]
  · by_cases atTarget : block = target
    · subst atTarget
      obtain ⟨front, last, split, split'⟩ := moved.paste
      simp [Func.phis, split, split', notPhi]
    · simp only [Func.phis, moved.others block atSource atTarget]

theorem Moved.body_source (tidy : Tidy F) (plain : inst.isTerminator = false)
    (notPhi : inst.isPhi = false) : ∃ front back, F.body source = front ++ inst :: back ∧
      G.body source = front ++ back ∧ ∀ user ∈ front, ∃ earlier later,
        F.insts source = earlier ++ user :: later ∧ inst ∉ earlier := by
  obtain ⟨before, after, split, split'⟩ := moved.cut
  rcases List.eq_nil_or_concat after with rfl | ⟨rest, last, rfl⟩
  · rw [tidy.terminator_of_last split] at plain
    exact absurd plain (by simp)
  · refine ⟨before.filter fun other => !other.isPhi, rest.filter fun other => !other.isPhi, ?_, ?_,
      ?_⟩
    · have shape : F.insts source = (before ++ inst :: rest) ++ [last] := by simp [split]
      rw [Func.body, shape, List.dropLast_concat]
      simp [notPhi]
    · have shape : G.insts source = (before ++ rest) ++ [last] := by simp [split']
      rw [Func.body, shape, List.dropLast_concat]
      simp
    · intro user found
      obtain ⟨earlier, later, shape⟩ := List.mem_iff_append.mp (List.mem_of_mem_filter found)
      refine ⟨earlier, later ++ inst :: rest.concat last, by simp [split, shape], ?_⟩
      have nodup := List.Nodup.of_map _ (tidy.nodup_insts source)
      rw [split, List.nodup_middle, List.nodup_cons] at nodup
      intro inEarlier
      exact nodup.1 (by simp [shape, inEarlier])

theorem Moved.body_target (notPhi : inst.isPhi = false) :
    G.body target = F.body target ++ [inst] := by
  obtain ⟨front, last, split, split'⟩ := moved.paste
  have shape : G.insts target = (front ++ [inst]) ++ [last] := by simp [split']
  rw [Func.body, Func.body, shape, split, List.dropLast_concat, List.dropLast_concat]
  simp [notPhi]

theorem Moved.body_other {block : Nat} (notSource : block ≠ source) (notTarget : block ≠ target) :
    G.body block = F.body block := by
  rw [Func.body, Func.body, moved.others block notSource notTarget]

end Moved

end LlvmGather
