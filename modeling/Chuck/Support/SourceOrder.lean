import Mathlib.Tactic

/-!
# Lists where sources come first

Each element may have a source. In an ordered list the source of an element is known
from the start or comes before the element.
-/

namespace Chuck.Support.SourceOrder

variable {α : Type} {source other : α → Option α} {known more : α → Prop}

/-- The sources of a list's elements are known or come before them. -/
def Ordered (source : α → Option α) : (α → Prop) → List α → Prop
  | _, [] => True
  | known, e :: l =>
    (∀ d, source e = some d → known d) ∧ Ordered source (fun d => known d ∨ d = e) l

theorem Ordered.mono {l : List α} (ordered : Ordered source known l)
    (implies : ∀ e ∈ l, ∀ d, source e = some d → known d → more d) : Ordered source more l := by
  induction l generalizing known more with
  | nil => trivial
  | cons e l ih =>
    obtain ⟨first, rest⟩ := ordered
    refine ⟨fun d is => implies e List.mem_cons_self d is (first d is), ih rest ?_⟩
    intro e' among d is
    exact Or.imp_left (implies e' (List.mem_cons_of_mem _ among) d is)

theorem Ordered.congr {l : List α} (ordered : Ordered source known l)
    (same : ∀ e ∈ l, other e = source e) : Ordered other known l := by
  induction l generalizing known with
  | nil => trivial
  | cons e l ih =>
    obtain ⟨first, rest⟩ := ordered
    refine ⟨fun d is => first d ?_, ih rest fun e' among => same e' (List.mem_cons_of_mem _ among)⟩
    rw [← same e List.mem_cons_self]
    exact is

theorem Ordered.append {l m : List α} (ordered : Ordered source known l)
    (further : Ordered source (fun d => known d ∨ d ∈ l) m) : Ordered source known (l ++ m) := by
  induction l generalizing known with
  | nil =>
    apply further.mono
    intro e _ d _ has
    exact has.resolve_right List.not_mem_nil
  | cons e l ih =>
    obtain ⟨first, rest⟩ := ordered
    refine ⟨first, ih rest (further.mono ?_)⟩
    intro e' _ d _ has
    rcases has with old | among
    · exact .inl (.inl old)
    · rcases List.mem_cons.mp among with same | later
      · exact .inl (.inr same)
      · exact .inr later

theorem Ordered.single {e : α} (first : ∀ d, source e = some d → known d) :
    Ordered source known [e] :=
  ⟨first, trivial⟩

end Chuck.Support.SourceOrder
