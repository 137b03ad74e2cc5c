import Mathlib.Data.Option.Basic
import Mathlib.Tactic

/-!
Postconditions of computations that may fail: what holds of the result, if there is one.
-/

namespace Partial

variable {A B : Type} {post : B → Prop}

def Post (computation : Option B) (post : B → Prop) : Prop :=
  ∀ result, computation = some result → post result

theorem Post.of_some {result : B} (holds : post result) : Post (some result) post := by
  rintro _ ⟨⟩
  exact holds

theorem Post.fail : Post none post := by
  rintro _ ⟨⟩

theorem Post.bind {middle : A → Prop} {first : Option A} {next : A → Option B}
    (holds : Post first middle) (continues : ∀ result, middle result → Post (next result) post) :
    Post (first >>= next) post := by
  intro result returns
  obtain ⟨between, reached, last⟩ := Option.bind_eq_some_iff.mp returns
  exact continues between (holds between reached) result last

theorem Post.guard {condition : Prop} [Decidable condition] {next : Unit → Option B}
    (continues : condition → Post (next ()) post) :
    Post ((guard condition : Option Unit) >>= next) post := by
  intro result returns
  obtain ⟨_, holds, last⟩ := Option.bind_eq_some_iff.mp returns
  exact continues ((Option.guard_eq_some' _).mp holds) result last

theorem Post.ite {condition : Prop} [Decidable condition] {first second : Option B}
    (yes : condition → Post first post) (no : ¬ condition → Post second post) :
    Post (if condition then first else second) post := by
  split_ifs with holds
  · exact yes holds
  · exact no holds

theorem Post.join {middle : A → Prop} {condition : Prop} [Decidable condition]
    {first second : Option A} {next : A → Option B} (yes : condition → Post first middle)
    (no : ¬ condition → Post second middle)
    (continues : ∀ result, middle result → Post (next result) post) :
    Post (if condition then first >>= next else second >>= next) post :=
  Post.ite (fun holds => (yes holds).bind continues) fun fails => (no fails).bind continues

theorem mapM_some {f : A → Option B} {g : A → B} {list : List A}
    (each : ∀ entry ∈ list, f entry = some (g entry)) : list.mapM f = some (list.map g) := by
  induction list with
  | nil => rfl
  | cons entry rest ih =>
      simp [each entry List.mem_cons_self, ih fun other member => each other (.tail _ member)]

theorem isSome_mapM_iff {f : A → Option B} {list : List A} :
    (list.mapM f).isSome = true ↔ ∀ entry ∈ list, (f entry).isSome = true := by
  induction list with
  | nil => simp
  | cons entry rest ih =>
      rw [List.mapM_cons, List.forall_mem_cons, ← ih]
      cases f entry with
      | none => simp
      | some result => cases rest.mapM f <;> simp

theorem Post.returns (computation : Option B) :
    Post computation fun result => computation = some result :=
  fun _ returned => returned

end Partial
