/-!
# Cells

A heap holds cells that are allocated one after the other, addressed by number, changed and never
freed. Looking at an address that was never allocated gives nothing, and changing it does nothing.
-/

namespace EffectMachine

/-- Cells addressed by number. -/
structure Heap (α : Type) where
  cells : Array α := #[]

namespace Heap

variable {α : Type}

/-- A heap without cells. -/
def empty : Heap α := {}

/-- The number of cells, which is the next address. -/
def size (h : Heap α) : Nat := h.cells.size

/-- The cell at an address. -/
def get? (h : Heap α) (i : Nat) : Option α := h.cells[i]?

/-- Allocate a cell at the next address. -/
def alloc (h : Heap α) (a : α) : Heap α := ⟨h.cells.push a⟩

/-- Change the cell at an address. -/
def modify (h : Heap α) (i : Nat) (f : α → α) : Heap α := ⟨h.cells.modify i f⟩

@[simp] theorem size_alloc (h : Heap α) (a : α) : (h.alloc a).size = h.size + 1 := by
  simp [size, alloc]

@[simp] theorem size_modify (h : Heap α) (i : Nat) (f : α → α) : (h.modify i f).size = h.size := by
  simp [size, modify]

/-- A fresh cell is found at the address that was next. -/
@[simp] theorem get?_alloc_self (h : Heap α) (a : α) : (h.alloc a).get? h.size = some a := by
  simp [get?, alloc, size]

/-- Allocation leaves the old cells alone. -/
theorem get?_alloc_of_lt (h : Heap α) (a : α) {i : Nat} (hi : i < h.size) :
    (h.alloc a).get? i = h.get? i := by
  simp [get?, alloc, size, Array.getElem?_push] at *
  omega

/-- A change is seen at its address. -/
@[simp] theorem get?_modify_self (h : Heap α) (i : Nat) (f : α → α) :
    (h.modify i f).get? i = (h.get? i).map f := by
  simp [get?, modify, Array.getElem?_modify]

/-- A change is seen nowhere else. -/
theorem get?_modify_of_ne (h : Heap α) {i j : Nat} (hij : i ≠ j) (f : α → α) :
    (h.modify i f).get? j = h.get? j := by
  simp [get?, modify, Array.getElem?_modify, hij]

end Heap

end EffectMachine
