/-!
# Vectors by index

`tabulate n f` is the vector of length `n` whose entry at `i` is `f i`. It is built as a list, so
that it computes by plain recursion. `index? n z` is the index below `n` that an integer stands
for, where a negative integer counts from the end.
-/

set_option autoImplicit false

namespace Chip8

/-- The vector with given entries. -/
def tabulate {α : Type} (n : Nat) (f : Fin n → α) : Vector α n :=
  ⟨⟨List.ofFn f⟩, by simp⟩

/-- An entry of a vector that is given by its entries. -/
@[simp]
theorem getElem_tabulate {α : Type} {n : Nat} (f : Fin n → α) (i : Nat) (h : i < n) :
    (tabulate n f)[i] = f ⟨i, h⟩ := by
  simp [tabulate]

/-- The index that an integer stands for; a negative integer counts from the end. -/
def index? (n : Nat) (z : Int) : Option (Fin n) :=
  let i := if z < 0 then z + n else z
  if h : 0 ≤ i ∧ i < n then some ⟨i.toNat, by omega⟩ else none

end Chip8
