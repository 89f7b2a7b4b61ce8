import Mathlib

/-!
# Character terminals (L0 framework)

A terminal is a grid of cells of any type and a cursor on it. Writing a cell
moves the cursor on and wraps at the end of a line; a line feed past the last
row drops the top row and appends a blank one. The cursor is on the grid by its
type.
-/

namespace QuinKernel.Machine

/-- A grid of `rows` by `cols` cells, and a cursor. -/
structure Terminal (rows cols : Nat) (α : Type) where
  cell : Fin rows → Fin cols → α
  row : Fin rows
  col : Fin cols

namespace Terminal

variable {rows cols : Nat} {α : Type}

/-- The blank terminal, with the cursor at the top left. -/
def clear (hrows : 0 < rows) (hcols : 0 < cols) (blank : α) : Terminal rows cols α :=
  ⟨fun _ _ => blank, ⟨0, hrows⟩, ⟨0, hcols⟩⟩

/-- Drop the top row and append a blank one. -/
def scroll (blank : α) (t : Terminal rows cols α) : Terminal rows cols α :=
  { t with cell := fun r c => if h : r.val + 1 < rows then t.cell ⟨r.val + 1, h⟩ c else blank }

/-- Go to the start of the next line. -/
def newline (blank : α) (t : Terminal rows cols α) : Terminal rows cols α :=
  let t := { t with col := ⟨0, Nat.zero_lt_of_lt t.col.isLt⟩ }
  if h : t.row.val + 1 < rows then { t with row := ⟨t.row.val + 1, h⟩ } else t.scroll blank

/-- Set the cell under the cursor. -/
def set (t : Terminal rows cols α) (a : α) : Terminal rows cols α :=
  { t with cell := fun r c => if r = t.row ∧ c = t.col then a else t.cell r c }

/-- Set the cell under the cursor and move on. -/
def write (blank : α) (t : Terminal rows cols α) (a : α) : Terminal rows cols α :=
  let t := t.set a
  if h : t.col.val + 1 < cols then { t with col := ⟨t.col.val + 1, h⟩ } else t.newline blank

end Terminal

end QuinKernel.Machine
