import Hypertag.Decimal.Binary

/-!
# Points

A place in a text, by row and column. A cursor comes from outside and may lie anywhere, also left
of the first column, so both coordinates are integers.
-/

namespace Hypertag

structure Point where
  row : Int
  column : Int
  deriving DecidableEq

namespace Point

instance : LE Point := ⟨fun p q => p.row < q.row ∨ (p.row = q.row ∧ p.column ≤ q.column)⟩

instance : LT Point := ⟨fun p q => p.row < q.row ∨ (p.row = q.row ∧ p.column < q.column)⟩

instance (p q : Point) : Decidable (p ≤ q) :=
  inferInstanceAs (Decidable (p.row < q.row ∨ (p.row = q.row ∧ p.column ≤ q.column)))

instance (p q : Point) : Decidable (p < q) :=
  inferInstanceAs (Decidable (p.row < q.row ∨ (p.row = q.row ∧ p.column < q.column)))

/-- The difference in rows or, within one row, in columns. Negative when `p` comes first. -/
def difference (p q : Point) : Int :=
  Binary.round (if p.row ≠ q.row then p.row - q.row else p.column - q.column)

theorem le_def (p q : Point) : p ≤ q ↔ p.row < q.row ∨ (p.row = q.row ∧ p.column ≤ q.column) :=
  Iff.rfl

theorem lt_def (p q : Point) : p < q ↔ p.row < q.row ∨ (p.row = q.row ∧ p.column < q.column) :=
  Iff.rfl

theorem le_refl (p : Point) : p ≤ p := by
  rw [le_def]
  omega

theorem le_trans {p q r : Point} (h : p ≤ q) (h' : q ≤ r) : p ≤ r := by
  rw [le_def] at *
  omega

theorem not_le {p q : Point} : ¬ p ≤ q ↔ q < p := by
  rw [le_def, lt_def]
  omega

theorem le_antisymm {p q : Point} (h : p ≤ q) (h' : q ≤ p) : p = q := by
  rw [le_def] at *
  cases p
  cases q
  simp only [mk.injEq] at *
  omega

theorem not_lt {p q : Point} : ¬ p < q ↔ q ≤ p := by
  rw [le_def, lt_def]
  omega

theorem le_of_lt {p q : Point} (h : p < q) : p ≤ q := by
  rw [lt_def] at h
  rw [le_def]
  omega

theorem lt_of_le_of_lt {p q r : Point} (h : p ≤ q) (h' : q < r) : p < r := by
  rw [le_def] at h
  rw [lt_def] at *
  omega

theorem lt_of_lt_of_le {p q r : Point} (h : p < q) (h' : q ≤ r) : p < r := by
  rw [le_def] at h'
  rw [lt_def] at *
  omega

theorem lt_trans {p q r : Point} (h : p < q) (h' : q < r) : p < r := by
  rw [lt_def] at *
  omega

/-- The point reached from `p` by reading `n` units of a text. -/
def advance (p : Point) : Text → Nat → Point
  | _, 0 => p
  | [], _ => p
  | u :: rest, n + 1 =>
    if u = Text.newline then advance ⟨p.row + 1, 0⟩ rest n
    else advance ⟨p.row, p.column + 1⟩ rest n

end Point

/-- The point of an offset into a text. -/
def Text.pointAt (t : Text) (offset : Nat) : Point := Point.advance ⟨0, 0⟩ t offset

end Hypertag
