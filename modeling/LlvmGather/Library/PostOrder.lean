import LlvmGather.Library.Scan
import LlvmGather.Library.Walk

/-!
Iterative depth-first post-order, with the explicit stack of vertices and their
successors still to be followed. The order it produces lists exactly the reachable
vertices, each once, and ends with the entry.
-/

namespace FlowGraph

variable {V : Type*}

structure Search (V : Type*) where
  stack : List (V × List V)
  visited : List V
  finished : List V

def Search.step [DecidableEq V] (succs : V → List V) (search : Search V) : Search V :=
  match search.stack with
  | [] => search
  | (vertex, []) :: stack =>
      { search with stack := stack, finished := search.finished ++ [vertex] }
  | (vertex, next :: pending) :: stack =>
      if next ∈ search.visited then
        { search with stack := (vertex, pending) :: stack }
      else
        { search with
          stack := (next, succs next) :: (vertex, pending) :: stack
          visited := next :: search.visited }

def Search.run [DecidableEq V] (succs : V → List V) : Nat → Search V → Search V
  | 0, search => search
  | fuel + 1, search => Search.run succs fuel (search.step succs)

def Search.initial (succs : V → List V) (entry : V) : Search V :=
  { stack := [(entry, succs entry)], visited := [entry], finished := [] }

def searchFuel (succs : V → List V) (vertices : List V) : Nat :=
  (vertices.map fun vertex => (succs vertex).length + 1).sum

def postOrder [DecidableEq V] (succs : V → List V) (vertices : List V) (entry : V) : List V :=
  (Search.run succs (searchFuel succs vertices) (Search.initial succs entry)).finished

structure SearchInvariant (succs : V → List V) (entry : V) (search : Search V) : Prop where
  nodup : search.visited.Nodup
  partition : search.visited.Perm (search.stack.map Prod.fst ++ search.finished)
  reachable : ∀ vertex ∈ search.visited, Reachable succs entry vertex
  pending : ∀ frame ∈ search.stack, ∀ next ∈ succs frame.1,
    next ∈ frame.2 ∨ next ∈ search.visited
  pendingEdges : ∀ frame ∈ search.stack, frame.2 ⊆ succs frame.1
  closed : ∀ vertex ∈ search.finished, ∀ next ∈ succs vertex, next ∈ search.visited
  entryLast : search.stack.getLast?.map Prod.fst = some entry ∨
    search.stack = [] ∧ search.finished.getLast? = some entry

theorem SearchInvariant.entryLast_top {succs : V → List V} {entry vertex : V} {search : Search V}
    {before : List V} {stack : List (V × List V)} (inv : SearchInvariant succs entry search)
    (top : search.stack = (vertex, before) :: stack) (after : List V) :
    ((vertex, after) :: stack).getLast?.map Prod.fst = some entry := by
  rcases inv.entryLast with last | ⟨empty, _⟩
  · rw [top] at last
    cases stack with
    | nil => simpa using last
    | cons frame rest => simpa using last
  · simp [top] at empty

theorem SearchInvariant.initial (succs : V → List V) (entry : V) :
    SearchInvariant succs entry (Search.initial succs entry) := by
  refine ⟨by simp [Search.initial], by simp [Search.initial], ?_, ?_, ?_, ?_, ?_⟩
  · simp only [Search.initial, List.mem_singleton, forall_eq]
    exact Relation.ReflTransGen.refl
  · simp only [Search.initial, List.mem_singleton, forall_eq]
    exact fun next edge => Or.inl edge
  · simp [Search.initial]
  · simp [Search.initial]
  · simp [Search.initial]

theorem SearchInvariant.finish {succs : V → List V} {entry vertex : V} {search : Search V}
    {stack : List (V × List V)} (inv : SearchInvariant succs entry search)
    (top : search.stack = (vertex, []) :: stack) :
    SearchInvariant succs entry
      { search with stack := stack, finished := search.finished ++ [vertex] } := by
  have onTop : (vertex, []) ∈ search.stack := by simp [top]
  refine ⟨inv.nodup, ?_, inv.reachable, ?_, ?_, ?_, ?_⟩
  · have before := inv.partition
    rw [top] at before
    refine before.trans ?_
    simp only [List.map_cons, List.cons_append]
    have moved : (vertex :: (stack.map Prod.fst ++ search.finished)).Perm
        ((stack.map Prod.fst ++ search.finished) ++ [vertex]) :=
      (List.perm_append_singleton vertex _).symm
    simpa [List.append_assoc] using moved
  · intro frame member
    exact inv.pending frame (by simp [top, member])
  · intro frame member
    exact inv.pendingEdges frame (by simp [top, member])
  · intro done member next edge
    rcases List.mem_append.mp member with old | new
    · exact inv.closed done old next edge
    · simp only [List.mem_singleton] at new
      subst done
      exact (inv.pending _ onTop next edge).resolve_left (by simp)
  · have last := inv.entryLast_top top []
    cases stack with
    | nil =>
        right
        simpa using last
    | cons frame rest =>
        left
        simpa using last

theorem SearchInvariant.skip {succs : V → List V} {entry vertex next : V} {search : Search V}
    {pending : List V} {stack : List (V × List V)} (inv : SearchInvariant succs entry search)
    (top : search.stack = (vertex, next :: pending) :: stack) (seen : next ∈ search.visited) :
    SearchInvariant succs entry { search with stack := (vertex, pending) :: stack } := by
  have onTop : (vertex, next :: pending) ∈ search.stack := by simp [top]
  refine ⟨inv.nodup, ?_, inv.reachable, ?_, ?_, inv.closed, ?_⟩
  · simpa [top] using inv.partition
  · intro frame member
    rcases List.mem_cons.mp member with same | deeper
    · subst frame
      intro target edge
      rcases inv.pending _ onTop target edge with listed | visited
      · rcases List.mem_cons.mp listed with same | later
        · subst target
          exact Or.inr seen
        · exact Or.inl later
      · exact Or.inr visited
    · exact inv.pending frame (by simp [top, deeper])
  · intro frame member
    rcases List.mem_cons.mp member with same | deeper
    · subst frame
      exact (List.cons_subset.mp (inv.pendingEdges _ onTop)).2
    · exact inv.pendingEdges frame (by simp [top, deeper])
  · exact .inl (inv.entryLast_top top pending)

theorem SearchInvariant.push {succs : V → List V} {entry vertex next : V} {search : Search V}
    {pending : List V} {stack : List (V × List V)} (inv : SearchInvariant succs entry search)
    (top : search.stack = (vertex, next :: pending) :: stack) (fresh : next ∉ search.visited) :
    SearchInvariant succs entry
      { search with
        stack := (next, succs next) :: (vertex, pending) :: stack
        visited := next :: search.visited } := by
  have onTop : (vertex, next :: pending) ∈ search.stack := by simp [top]
  have edge : next ∈ succs vertex := inv.pendingEdges _ onTop (by simp)
  have vertexVisited : vertex ∈ search.visited := by
    rw [inv.partition.mem_iff, top]
    simp
  refine ⟨List.nodup_cons.mpr ⟨fresh, inv.nodup⟩, ?_, ?_, ?_, ?_, ?_, ?_⟩
  · have before := inv.partition
    rw [top] at before
    simpa using before.cons next
  · intro target member
    rcases List.mem_cons.mp member with same | old
    · subst target
      exact (inv.reachable vertex vertexVisited).step edge
    · exact inv.reachable target old
  · intro frame member target targetEdge
    simp only [List.mem_cons] at member
    rcases member with same | same | deeper
    · subst frame
      exact Or.inl targetEdge
    · subst frame
      rcases inv.pending _ onTop target targetEdge with listed | visited
      · rcases List.mem_cons.mp listed with same | later
        · exact Or.inr (by simp [same])
        · exact Or.inl later
      · exact Or.inr (List.mem_cons_of_mem _ visited)
    · exact (inv.pending frame (by simp [top, deeper]) target targetEdge).imp_right
        (List.mem_cons_of_mem _)
  · intro frame member
    simp only [List.mem_cons] at member
    rcases member with same | same | deeper
    · subst frame
      exact List.Subset.refl _
    · subst frame
      exact (List.cons_subset.mp (inv.pendingEdges _ onTop)).2
    · exact inv.pendingEdges frame (by simp [top, deeper])
  · intro done member target targetEdge
    exact List.mem_cons_of_mem _ (inv.closed done member target targetEdge)
  · left
    simpa using inv.entryLast_top top pending

structure SearchPath (succs : V → List V) (entry : V) (search : Search V) : Prop where
  walk : ∀ frame stack, search.stack = frame :: stack →
    Walk succs entry (stack.map Prod.fst) frame.1
  dominators : ∀ before vertex after, search.finished = before ++ vertex :: after →
    ∀ outer, StrictlyDominates succs entry outer vertex → outer ∉ before

theorem SearchPath.initial (succs : V → List V) (entry : V) :
    SearchPath succs entry (Search.initial succs entry) := by
  refine ⟨?_, by simp [Search.initial]⟩
  rintro frame stack ⟨⟩
  exact Walk.start

theorem SearchPath.finish {succs : V → List V} {entry vertex : V} {search : Search V}
    {stack : List (V × List V)} (path : SearchPath succs entry search)
    (inv : SearchInvariant succs entry search) (top : search.stack = (vertex, []) :: stack) :
    SearchPath succs entry
      { search with stack := stack, finished := search.finished ++ [vertex] } := by
  have walk := path.walk _ _ top
  constructor
  · rintro frame rest rfl
    cases walk with
    | step previous _ => exact previous
  · intro before other after split outer strict finished
    rcases Scan.snoc_split split with ⟨rfl, rfl, -⟩ | ⟨rest, -, old⟩
    · have onStack := (List.mem_cons.mp (strict.2 _ walk)).resolve_left strict.1
      have distinct := inv.partition.nodup_iff.mp inv.nodup
      rw [top, List.map_cons, List.cons_append] at distinct
      exact (List.nodup_append.mp (List.nodup_cons.mp distinct).2).2.2 outer onStack outer finished rfl
    · exact path.dominators before other rest old outer strict finished

theorem SearchPath.push {succs : V → List V} {entry vertex next : V} {search : Search V}
    {pending : List V} {stack : List (V × List V)} (path : SearchPath succs entry search)
    (inv : SearchInvariant succs entry search)
    (top : search.stack = (vertex, next :: pending) :: stack) :
    SearchPath succs entry
      { search with
        stack := (next, succs next) :: (vertex, pending) :: stack
        visited := next :: search.visited } := by
  refine ⟨?_, path.dominators⟩
  rintro frame rest ⟨⟩
  have onTop : (vertex, next :: pending) ∈ search.stack := by simp [top]
  exact Walk.step (path.walk (vertex, next :: pending) stack top)
    (inv.pendingEdges _ onTop List.mem_cons_self)

variable [DecidableEq V]

theorem SearchPath.step {succs : V → List V} {entry : V} {search : Search V}
    (path : SearchPath succs entry search) (inv : SearchInvariant succs entry search) :
    SearchPath succs entry (search.step succs) := by
  unfold Search.step
  split
  · exact path
  · rename_i vertex stack top
    exact path.finish inv top
  · rename_i vertex next pending stack top
    split
    · refine ⟨?_, path.dominators⟩
      rintro frame rest ⟨⟩
      exact path.walk (vertex, next :: pending) stack top
    · exact path.push inv top

theorem SearchInvariant.step {succs : V → List V} {entry : V} {search : Search V}
    (inv : SearchInvariant succs entry search) :
    SearchInvariant succs entry (search.step succs) := by
  unfold Search.step
  split
  · exact inv
  · rename_i vertex stack top
    exact inv.finish top
  · rename_i vertex next pending stack top
    split
    · rename_i seen
      exact inv.skip top seen
    · rename_i fresh
      exact inv.push top fresh

theorem SearchInvariant.run {succs : V → List V} {entry : V} (fuel : Nat) {search : Search V}
    (inv : SearchInvariant succs entry search) :
    SearchInvariant succs entry (Search.run succs fuel search) := by
  induction fuel generalizing search with
  | zero => exact inv
  | succ fuel ih => exact ih inv.step

theorem SearchPath.run {succs : V → List V} {entry : V} (fuel : Nat) {search : Search V}
    (path : SearchPath succs entry search) (inv : SearchInvariant succs entry search) :
    SearchPath succs entry (Search.run succs fuel search) := by
  induction fuel generalizing search with
  | zero => exact path
  | succ fuel ih => exact ih (path.step inv) inv.step

def unvisited (vertices visited : List V) : List V := vertices.filter (· ∉ visited)

def Search.remaining (succs : V → List V) (vertices : List V) (search : Search V) : Nat :=
  (search.stack.map fun frame => frame.2.length + 1).sum +
    ((unvisited vertices search.visited).map fun vertex => (succs vertex).length + 1).sum

theorem sum_unvisited (weight : V → Nat) (vertices visited : List V) (next : V)
    (unique : vertices.Nodup) (member : next ∈ vertices) (fresh : next ∉ visited) :
    ((unvisited vertices visited).map weight).sum =
      weight next + ((unvisited vertices (next :: visited)).map weight).sum := by
  induction vertices with
  | nil => simp at member
  | cons first rest ih =>
      have parts := List.nodup_cons.mp unique
      by_cases same : first = next
      · subst first
        have others : unvisited rest (next :: visited) = unvisited rest visited := by
          apply List.filter_congr
          intro vertex inRest
          have different : vertex ≠ next := fun eq => parts.1 (eq ▸ inRest)
          simp [different]
        have skipped : unvisited (next :: rest) (next :: visited) =
            unvisited rest (next :: visited) := by simp [unvisited]
        have kept : unvisited (next :: rest) visited = next :: unvisited rest visited := by
          simp [unvisited, fresh]
        rw [skipped, kept, others, List.map_cons, List.sum_cons]
      · have inRest : next ∈ rest := (List.mem_cons.mp member).resolve_left (Ne.symm same)
        have tail := ih parts.2 inRest
        by_cases seen : first ∈ visited
        · simpa [unvisited, List.filter_cons, seen, same] using tail
        · have before : unvisited (first :: rest) visited = first :: unvisited rest visited := by
            simp [unvisited, seen]
          have after : unvisited (first :: rest) (next :: visited) =
              first :: unvisited rest (next :: visited) := by
            simp [unvisited, seen, same]
          rw [before, after]
          simp only [List.map_cons, List.sum_cons, tail]
          omega

theorem Search.remaining_step {succs : V → List V} {entry : V} {vertices : List V}
    {search : Search V} (unique : vertices.Nodup)
    (complete : ∀ vertex, Reachable succs entry vertex → vertex ∈ vertices)
    (inv : SearchInvariant succs entry search) (busy : search.stack ≠ []) :
    (search.step succs).remaining succs vertices + 1 = search.remaining succs vertices := by
  unfold Search.step
  split
  · rename_i empty
    exact absurd empty busy
  · rename_i vertex stack top
    simp only [Search.remaining, top, List.map_cons, List.sum_cons, List.length_nil]
    omega
  · rename_i vertex next pending stack top
    split
    · simp only [Search.remaining, top, List.map_cons, List.sum_cons, List.length_cons]
      omega
    · rename_i fresh
      have after := inv.push top fresh
      have member : next ∈ vertices := complete next (after.reachable next (by simp))
      have weights := sum_unvisited (fun vertex => (succs vertex).length + 1) vertices
        search.visited next unique member fresh
      simp only [Search.remaining, top, List.map_cons, List.sum_cons, List.length_cons, weights]
      omega

theorem Search.run_idle (succs : V → List V) (fuel : Nat) {search : Search V}
    (idle : search.stack = []) : Search.run succs fuel search = search := by
  induction fuel with
  | zero => rfl
  | succ fuel ih =>
      have same : search.step succs = search := by simp [Search.step, idle]
      rw [Search.run, same, ih]

theorem Search.run_exhausts {succs : V → List V} {entry : V} {vertices : List V}
    (unique : vertices.Nodup)
    (complete : ∀ vertex, Reachable succs entry vertex → vertex ∈ vertices)
    (fuel : Nat) {search : Search V} (inv : SearchInvariant succs entry search)
    (enough : search.remaining succs vertices ≤ fuel) :
    (Search.run succs fuel search).stack = [] := by
  induction fuel generalizing search with
  | zero =>
      cases top : search.stack with
      | nil => exact top
      | cons frame stack => simp [Search.remaining, top] at enough
  | succ fuel ih =>
      by_cases idle : search.stack = []
      · rw [Search.run_idle succs _ idle]
        exact idle
      · have decrease := Search.remaining_step unique complete inv idle
        rw [Search.run]
        exact ih inv.step (by omega)

theorem Search.remaining_initial {succs : V → List V} {entry : V} {vertices : List V}
    (unique : vertices.Nodup) (member : entry ∈ vertices) :
    (Search.initial succs entry).remaining succs vertices = searchFuel succs vertices := by
  have weights := sum_unvisited (fun vertex => (succs vertex).length + 1) vertices [] entry
    unique member (by simp)
  have all : unvisited vertices [] = vertices := by simp [unvisited]
  rw [all] at weights
  simp only [Search.remaining, Search.initial, searchFuel, weights, List.map_cons, List.map_nil,
    List.sum_cons, List.sum_nil, Nat.add_zero]

structure IsPostOrder (succs : V → List V) (entry : V) (order : List V) : Prop where
  nodup : order.Nodup
  mem_iff : ∀ vertex, vertex ∈ order ↔ Reachable succs entry vertex
  entryLast : order.getLast? = some entry

theorem isPostOrder_postOrder {succs : V → List V} {entry : V} {vertices : List V}
    (unique : vertices.Nodup)
    (complete : ∀ vertex, Reachable succs entry vertex → vertex ∈ vertices) :
    IsPostOrder succs entry (postOrder succs vertices entry) := by
  have entryMember : entry ∈ vertices := complete entry Relation.ReflTransGen.refl
  have inv := (SearchInvariant.initial succs entry).run (searchFuel succs vertices)
  have idle := Search.run_exhausts unique complete (searchFuel succs vertices)
    (SearchInvariant.initial succs entry) (Search.remaining_initial unique entryMember).le
  unfold postOrder
  generalize Search.run succs (searchFuel succs vertices) (Search.initial succs entry) = final
    at inv idle
  have visited : final.visited.Perm final.finished := by simpa [idle] using inv.partition
  have last : final.finished.getLast? = some entry := by simpa [idle] using inv.entryLast
  refine ⟨visited.nodup inv.nodup, ?_, last⟩
  intro vertex
  constructor
  · intro member
    exact inv.reachable vertex (visited.mem_iff.mpr member)
  · intro reachable
    induction reachable with
    | refl => exact List.mem_of_getLast? last
    | tail _ edge ih => exact visited.mem_iff.mp (inv.closed _ ih _ edge)

theorem dominator_not_before {succs : V → List V} {vertices before after : List V}
    {entry vertex outer : V} (split : postOrder succs vertices entry = before ++ vertex :: after)
    (strict : StrictlyDominates succs entry outer vertex) : outer ∉ before :=
  ((SearchPath.initial succs entry).run (searchFuel succs vertices)
    (SearchInvariant.initial succs entry)).dominators before vertex after split outer strict

end FlowGraph
