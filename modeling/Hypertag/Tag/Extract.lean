import Hypertag.Tag.Scan
import Hypertag.Point

/-!
# Declared tags

Each row of a comment declares at most one tag, the first one written in it.
-/

namespace Hypertag

/-- A half-open range of offsets into a text. -/
structure Span where
  start : Nat
  stop : Nat
  deriving DecidableEq

/-- The comments that a grammar lists for a text, in order. None of them lies in another. -/
structure Comments where
  spans : List Span
  apart : spans.Pairwise fun c d => c.stop ≤ d.start

namespace Comments

/-- Leaves out what begins before the end of an earlier span. -/
def outermost (past : Nat) : List Span → List Span
  | [] => []
  | c :: rest =>
    if past ≤ c.start then c :: outermost (max past c.stop) rest else outermost past rest

theorem past_le_start {past : Nat} {listed : List Span} {c : Span}
    (h : c ∈ outermost past listed) : past ≤ c.start := by
  induction listed generalizing past with
  | nil => cases h
  | cons d rest ih =>
    rw [outermost] at h
    split at h
    · next later =>
      rcases List.mem_cons.mp h with rfl | behind
      · exact later
      · exact Nat.le_trans (Nat.le_max_left past d.stop) (ih behind)
    · exact ih h

theorem outermost_apart (past : Nat) (listed : List Span) :
    (outermost past listed).Pairwise fun c d => c.stop ≤ d.start := by
  induction listed generalizing past with
  | nil => exact List.Pairwise.nil
  | cons c rest ih =>
    rw [outermost]
    split
    · refine List.pairwise_cons.mpr ⟨?_, ih _⟩
      intro d behind
      exact Nat.le_trans (Nat.le_max_right past c.stop) (past_le_start behind)
    · exact ih past

/-- Comments out of a list in which some may lie in others. -/
def ofSpans (listed : List Span) : Comments := ⟨outermost 0 listed, outermost_apart 0 listed⟩

end Comments

namespace Tag

/-- The tags of the rows of a comment; the first row starts at column `column`, later ones at 0. -/
def ofRows (column line : Int) : List Text → List Tag
  | [] => []
  | row :: rows =>
    ((Token.first? row).map fun t => (t.shift column).toTag 0 line).toList ++
      ofRows 0 (line + 1) rows

def ofComment (text : Text) (comment : Span) : List Tag :=
  let start := text.pointAt comment.start
  ofRows start.column start.row (text.slice comment.start comment.stop).rows

/-- The tags declared in the comments of a text, comment by comment. -/
def extract (text : Text) (comments : List Span) : List Tag := comments.flatMap (ofComment text)

end Tag

end Hypertag
