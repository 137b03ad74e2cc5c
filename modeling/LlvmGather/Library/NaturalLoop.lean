import LlvmGather.Library.Walk

/-!
Natural loops of a flow graph and their preheaders. A walk into a loop goes through the
preheader, and what dominates a loop from outside dominates the preheader already.
-/

namespace FlowGraph

variable {V : Type*}

/-- Blocks that the header dominates and that are entered through the header only. -/
structure NaturalLoop (succs : V → List V) (entry : V) (blocks : List V) (header : V) : Prop where
  headerMember : header ∈ blocks
  reachable : ∀ block ∈ blocks, Reachable succs entry block
  dominated : ∀ block ∈ blocks, Dominates succs entry header block
  entered : ∀ source target, Reachable succs entry source → target ∈ succs source →
    source ∉ blocks → target ∈ blocks → target = header

structure Preheader (succs : V → List V) (blocks : List V) (header preheader : V) : Prop where
  outside : preheader ∉ blocks
  leads : header ∈ succs preheader
  only : ∀ target ∈ succs preheader, target = header
  unique : ∀ source, header ∈ succs source → source ∉ blocks → source = preheader

variable {succs : V → List V} {entry header preheader : V} {blocks : List V}

theorem NaturalLoop.segment (loop : NaturalLoop succs entry blocks header) {trail : List V}
    {block : V} (walk : Walk succs entry trail block) (member : block ∈ blocks) :
    ∃ inner, (∀ passed ∈ inner, passed ∈ blocks) ∧
      ∀ front, Walk succs entry front header → Walk succs entry (inner ++ front) block := by
  induction walk with
  | start =>
      have same := dominates_entry (loop.dominated entry member)
      subst same
      exact ⟨[], by simp, fun front walk => walk⟩
  | @step trail source target previous edge ih =>
      by_cases isHeader : target = header
      · subst isHeader
        exact ⟨[], by simp, fun front walk => walk⟩
      · have inside : source ∈ blocks := by
          by_contra outside
          exact isHeader (loop.entered source target previous.reachable edge outside member)
        obtain ⟨inner, within, extends_⟩ := ih inside
        refine ⟨source :: inner, ?_, ?_⟩
        · intro passed found
          rcases List.mem_cons.mp found with rfl | later
          · exact inside
          · exact within passed later
        · intro front walk
          exact Walk.step (extends_ front walk) edge

section Preheader

variable (loop : NaturalLoop succs entry blocks header)
  (before : Preheader succs blocks header preheader) (rootless : ∀ source, entry ∉ succs source)

include loop before rootless

theorem Preheader.strictlyDominates_header : StrictlyDominates succs entry preheader header := by
  constructor
  · intro same
    exact before.outside (same ▸ loop.headerMember)
  · intro trail walk
    generalize lengthEq : trail.length = length
    induction length using Nat.strongRecOn generalizing trail with
    | ind length ih =>
        cases walk with
        | start => exact absurd before.leads (rootless preheader)
        | @step trail source _ previous edge =>
            by_cases inside : source ∈ blocks
            · obtain ⟨recent, shorter, split, cut⟩ :
                  ∃ recent shorter, source :: trail = recent ++ header :: shorter ∧
                    Walk succs entry shorter header := by
                rcases List.mem_cons.mp (loop.dominated source inside trail previous) with
                  rfl | passed
                · exact ⟨[], trail, rfl, previous⟩
                · obtain ⟨recent, shorter, split, cut⟩ := previous.cut passed
                  exact ⟨source :: recent, shorter, by rw [split]; rfl, cut⟩
              have smaller : shorter.length < length := by
                rw [← lengthEq, split, List.length_append, List.length_cons]
                omega
              have found := ih shorter.length smaller shorter cut rfl
              rw [split]
              exact List.mem_cons_of_mem _ (List.mem_append_right _ found)
            · have same := before.unique source edge inside
              simp [same]

theorem Preheader.strictlyDominates {block : V} (member : block ∈ blocks) :
    StrictlyDominates succs entry preheader block :=
  StrictlyDominates.trans_left (loop.reachable block member)
    (before.strictlyDominates_header loop rootless) (loop.dominated block member)

theorem Preheader.reachable : Reachable succs entry preheader :=
  (before.strictlyDominates_header loop rootless).2.reachable
    (loop.reachable header loop.headerMember)

omit rootless in
theorem Preheader.dominates_of_outside {outer block : V} (member : block ∈ blocks)
    (outside : outer ∉ blocks) (dominates : Dominates succs entry outer block) :
    Dominates succs entry outer preheader := by
  intro trail walk
  obtain ⟨old, oldWalk⟩ := reachable_iff_walk.mp (loop.reachable block member)
  obtain ⟨inner, within, extends_⟩ := loop.segment oldWalk member
  have found := dominates _ (extends_ _ (Walk.step walk before.leads))
  simp only [List.mem_cons, List.mem_append] at found ⊢
  rcases found with rfl | inInner | rest
  · exact absurd member outside
  · exact absurd (within outer inInner) outside
  · exact rest

end Preheader

end FlowGraph
