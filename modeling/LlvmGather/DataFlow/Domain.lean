import LlvmGather.DataFlow.Core
import LlvmGather.Library.Scan

/-!
Domains of the analyses: how the passes collect them without repetition, and where
`domainToIndex` finds their elements.
-/

namespace LlvmGather

variable {D : Type} [DecidableEq D]

/-- `push_back` guarded by `std::find`, as every pass builds its domain. -/
def addToDomain (domain : List D) (value : D) : List D :=
  if value ∈ domain then domain else domain ++ [value]

def collectDomain (values : List D) : List D := values.foldl addToDomain []

theorem collect_spec (values domain : List D) (nodup : domain.Nodup) :
    (values.foldl addToDomain domain).Nodup ∧
    ∀ value, value ∈ values.foldl addToDomain domain ↔ value ∈ domain ∨ value ∈ values := by
  induction values generalizing domain with
  | nil => simpa using nodup
  | cons next rest ih =>
      rw [List.foldl_cons]
      have added : (addToDomain domain next).Nodup := by
        unfold addToDomain
        split
        · exact nodup
        · rename_i fresh
          rw [← List.concat_eq_append]
          exact List.Nodup.concat fresh nodup
      have members : ∀ value, value ∈ addToDomain domain next ↔ value ∈ domain ∨ value = next := by
        intro value
        unfold addToDomain
        split
        · rename_i present
          constructor
          · exact Or.inl
          · rintro (member | same)
            · exact member
            · exact same ▸ present
        · simp
      refine ⟨(ih _ added).1, ?_⟩
      intro value
      rw [(ih _ added).2, members, List.mem_cons]
      tauto

theorem nodup_collectDomain (values : List D) : (collectDomain values).Nodup :=
  (collect_spec values [] List.nodup_nil).1

theorem mem_collectDomain (values : List D) (value : D) :
    value ∈ collectDomain values ↔ value ∈ values := by
  simpa [collectDomain] using (collect_spec values [] List.nodup_nil).2 value

theorem exists_idxOf {domain : List D} (nodup : domain.Nodup)
    {index : Nat} (small : index < domain.length) :
    ∃ value ∈ domain, index = domain.idxOf value :=
  ⟨domain[index], List.getElem_mem small, (List.Nodup.idxOf_getElem nodup index small).symm⟩

theorem lookup_indexed (domain : List D) (offset : Nat) (index : AList fun _ : D => Nat)
    (nodup : domain.Nodup) (value : D) :
    ((domain.zipIdx offset).foldl (fun index entry => index.insert entry.1 entry.2) index).lookup
        value =
      if value ∈ domain then some (offset + domain.idxOf value) else index.lookup value := by
  induction domain generalizing offset index with
  | nil => simp
  | cons next rest ih =>
      obtain ⟨fresh, restNodup⟩ := List.nodup_cons.mp nodup
      rw [List.zipIdx_cons, List.foldl_cons, ih (offset + 1) _ restNodup]
      by_cases same : value = next
      · subst same
        simp [fresh]
      · by_cases member : value ∈ rest
        · have skip : (next :: rest).idxOf value = rest.idxOf value + 1 :=
            List.idxOf_cons_ne _ (Ne.symm same)
          simp only [member, if_true, List.mem_cons, or_true, skip, Option.some.injEq]
          omega
        · simp [member, same, AList.lookup_insert_ne same]

theorem lookup_indexDomain {domain : List D} (nodup : domain.Nodup) (value : D) :
    (indexDomain domain).lookup value =
      if value ∈ domain then some (domain.idxOf value) else none := by
  simpa [indexDomain] using lookup_indexed domain 0 ∅ nodup value

theorem indexAt_of_mem {domain : List D} (nodup : domain.Nodup) {value : D}
    (member : value ∈ domain) : indexAt (indexDomain domain) value = domain.idxOf value := by
  simp [indexAt, lookup_indexDomain nodup, member]

theorem length_indexed (domain : List D) (offset : Nat) (index : AList fun _ : D => Nat)
    (nodup : domain.Nodup) (fresh : ∀ value ∈ domain, value ∉ index) :
    ((domain.zipIdx offset).foldl
      (fun index entry => index.insert entry.1 entry.2) index).entries.length =
      index.entries.length + domain.length := by
  induction domain generalizing offset index with
  | nil => simp
  | cons next rest ih =>
      obtain ⟨first, restNodup⟩ := List.nodup_cons.mp nodup
      rw [List.zipIdx_cons, List.foldl_cons, ih (offset + 1) _ restNodup]
      · rw [AList.insert_of_notMem (fresh next List.mem_cons_self)]
        simp only [List.length_cons]
        omega
      · intro value member
        simp only [AList.mem_insert, not_or]
        exact ⟨fun same => first (same ▸ member), fresh value (List.mem_cons_of_mem _ member)⟩

theorem length_indexDomain {domain : List D} (nodup : domain.Nodup) :
    (indexDomain domain).entries.length = domain.length := by
  simpa [indexDomain] using length_indexed domain 0 ∅ nodup (by simp)

end LlvmGather
