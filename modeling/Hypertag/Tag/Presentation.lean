import Hypertag.Completion
import Hypertag.Decimal.Shortest
import Hypertag.Document.Index
import Hypertag.Table
import Hypertag.Text.Order
import Hypertag.Uri.Basic

/-!
# Showing tags

Tags as suggestions, as hover text, and as warnings about names declared twice.
-/

namespace Hypertag

/-- A range within one row. -/
structure RowRange where
  line : Int
  start : Int
  stop : Int
  deriving DecidableEq

def Tag.range (t : Tag) : RowRange := ⟨t.line, t.start, t.stop⟩

namespace RowRange

def maxCoordinate : Int := 2147483647

/-- Whether an editor can be told of the range. -/
def isValid (r : RowRange) : Bool :=
  [r.line, r.start, r.stop].all fun n => 0 ≤ n && n ≤ maxCoordinate

end RowRange

/-- A range that no editor can be told of. -/
structure RangeError where
  range : RowRange
  deriving DecidableEq

def RangeError.message (e : RangeError) : Text :=
  let numbers := [e.range.line, e.range.start, e.range.line, e.range.stop].map Decimal.renderInt
  "Range#create called with invalid arguments[" ++ Text.joinWith ", " numbers ++ "]"

namespace Tag

/-- The path of a tag's file and its line, counted from one. -/
def location (index : DocumentIndex) (t : Tag) : Except UriError Text :=
  let withLine (place : Text) : Text := place ++ ":" ++ Decimal.renderInt (t.line + 1)
  match index.shownUri? t.file with
  | none => .ok (withLine "an unknown file")
  | some uri => (Uri.parse uri).map fun u => withLine u.filePath

/-- Tags as suggestions, sorted by name. -/
def completions (index : DocumentIndex) (tags : List Tag) : Except UriError (List CompletionItem) :=
  (Text.sortBy Tag.name tags).mapM fun t =>
    (t.location index).map fun detail =>
      { label := t.name, kind := .reference, detail, documentation := none, sortText := none }

def hoverText (index : DocumentIndex) (t : Tag) : Except UriError Text :=
  (t.location index).map fun place =>
    "**" ++ t.name ++ "**\n\nDefined in `" ++ place ++ "`"

end Tag

structure Diagnostic where
  range : RowRange
  message : Text
  deriving DecidableEq

namespace Diagnostic

/-- All diagnostics are warnings. -/
def severity : Nat := 2

def source : Text := "htmx-ls"

def code : Text := "duplicate-tag"

def ofTag (t : Tag) : Diagnostic :=
  { range := t.range, message := "Tag " ++ t.name ++ " is already defined." }

/-- Adds a warning to those of its uri. A tag whose file is not indexed is dropped. -/
def add (index : DocumentIndex) (byUri : Table Text (List Diagnostic)) (t : Tag) :
    Table Text (List Diagnostic) :=
  match index.shownUri? t.file with
  | none => byUri
  | some uri => byUri.set uri ((byUri.get? uri).getD [] ++ [ofTag t])

/-- The warnings of refused tags by uri, in order of first appearance. -/
def ofConflicts (index : DocumentIndex) (conflicts : List Tag) : Table Text (List Diagnostic) :=
  conflicts.foldl (add index) Table.empty

/-- The warnings of tags that may come from anywhere, so that their ranges are checked first. Only
tags of indexed files count. -/
def ofTags (index : DocumentIndex) (tags : List Tag) :
    Except RangeError (Table Text (List Diagnostic)) :=
  match tags.find? fun t => (index.shownUri? t.file).isSome && !t.range.isValid with
  | some t => .error ⟨t.range⟩
  | none => .ok (ofConflicts index tags)

end Diagnostic

end Hypertag
