import Hypertag.Text.Basic

/-!
# Sorting by text

Texts are compared unit by unit. Items with equal keys keep their order.
-/

namespace Hypertag.Text

/-- Inserts an item before the first one with the same or a larger key. -/
def insertBy {α : Type} (key : α → Text) (a : α) : List α → List α
  | [] => [a]
  | b :: rest => if key b < key a then b :: insertBy key a rest else a :: b :: rest

def sortBy {α : Type} (key : α → Text) : List α → List α
  | [] => []
  | a :: rest => insertBy key a (sortBy key rest)

end Hypertag.Text
