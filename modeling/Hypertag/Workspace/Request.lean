import Hypertag.KnowledgeBase.Lookup
import Hypertag.Markup.Position
import Hypertag.Tag.Presentation
import Hypertag.Workspace.Basic

/-!
# Requests

Hover, completion and goto definition. Each reads what the cursor is over and answers from the
knowledge base or, for the attribute that links tags, from the registry.
-/

namespace Hypertag

/-- The attribute whose value names tags. -/
def linkAttribute : Text := Text.ofChars ['h', 'x', '-', 'l', 's', 'p']

inductive RequestError where
  | uri (e : UriError)
  | lookup (e : KnowledgeBase.LookupError)
  deriving DecidableEq

def RequestError.message : RequestError → Text
  | uri e => e.message
  | lookup e => e.message

/-- Where a text occurs in another one whose first unit has the given index. -/
def Text.occurrences (needle : Text) : Nat → Text → List Nat
  | _, [] => []
  | i, u :: rest =>
    if needle.isPrefixOf (u :: rest) then i :: occurrences needle (i + 1) rest
    else occurrences needle (i + 1) rest

/-- Where a value starts in a row: its first occurrence that the column touches. -/
def valueStart? (row value : Text) (column : Int) : Option Nat :=
  (Text.occurrences value 0 row).find? fun (k : Nat) =>
    (k : Int) ≤ column && column ≤ k + value.length

namespace Workspace

/-- What the cursor is over. Project templates use their cached tree, other project files have
nothing to offer, and any other open document is read as markup for this request alone. -/
def position? (g : Grammars) (ws : Workspace) (uri : Text) (p : Point) (mode : Markup.Mode) :
    Option Markup.Position :=
  if ws.ready then
    match ws.treeOf? uri with
    | some entry =>
      match entry.tree with
      | .markup root => root.position? p mode
      | .source _ => none
    | none => (ws.documents.get? uri).bind fun text => (g.markup text).position? p mode
  else none

/-- The row of an open document. -/
def row? (ws : Workspace) (uri : Text) (row : Int) : Option Text :=
  (ws.documents.get? uri).bind (·.row? row)

/-- The owner of the tag written under the cursor in a file that declares tags. -/
def declaredTag? (ws : Workspace) (uri : Text) (p : Point) : Option Tag :=
  (ws.treeOf? uri).bind fun entry =>
    if entry.domain.declaresTags then
      ((ws.row? uri p.row).bind (Token.at? · p.column)).bind fun token => ws.tags.lookup token.name
    else none

/-- The owner of the tag under the cursor inside the value of the link attribute. -/
def linkedTag? (ws : Workspace) (uri : Text) (p : Point) (name value : Text) : Option Tag :=
  if name = linkAttribute ∧ !value.isEmpty then do
    let row ← ws.row? uri p.row
    let start ← valueStart? row value p.column
    let linked ← Tag.atValue? value start p.row p.column
    ws.tags.lookup linked.name
  else none

/-- The tag that a position refers to. -/
def tagAt? (ws : Workspace) (uri : Text) (p : Point) : Markup.Position → Option Tag
  | .name name => ws.tags.lookup name
  | .value name value => ws.linkedTag? uri p name value

structure Location where
  uri : Text
  range : RowRange
  deriving DecidableEq

/-- The tag under the cursor and the uri of its file. -/
def definition? (g : Grammars) (ws : Workspace) (uri : Text) (p : Point) : Option (Tag × Text) := do
  let position ← ws.position? g uri p .hover
  let tag ← ws.tagAt? uri p position
  let target ← ws.index.shownUri? tag.file
  return (tag, target)

/-- Where the tag under the cursor is declared. -/
def gotoDefinition (g : Grammars) (ws : Workspace) (uri : Text) (p : Point) :
    Workspace × Option Location :=
  match ws.definition? g uri p with
  | none => (ws, none)
  | some (tag, target) =>
    (ws.debug "definition" (tag.name ++ " -> " ++ target ++ ":" ++ Text.ofInt (tag.line + 1)),
      some ⟨target, tag.range⟩)

/-- The Markdown to show for a tag. -/
def tagHover (ws : Workspace) (tag : Tag) : Except RequestError (Option Text) :=
  ((tag.hoverText ws.index).map some).mapError .uri

/-- The Markdown to show under the cursor. -/
def hover (g : Grammars) (ws : Workspace) (uri : Text) (p : Point) :
    Except RequestError (Option Text) :=
  match ws.declaredTag? uri p with
  | some tag => ws.tagHover tag
  | none =>
    match ws.position? g uri p .hover with
    | none => .ok none
    | some (.name name) => .ok (KnowledgeBase.attributeDocumentation name)
    | some (.value name value) =>
      if name = linkAttribute then
        match ws.linkedTag? uri p name value with
        | none => .ok none
        | some tag => ws.tagHover tag
      else (KnowledgeBase.valueDocumentation name value).mapError .lookup

/-- What may be written at the cursor. -/
def completion (g : Grammars) (ws : Workspace) (uri : Text) (p : Point) :
    Except RequestError (Option (List CompletionItem)) :=
  match ws.position? g uri p .completion with
  | none => .ok none
  | some (.name name) =>
    if name = Markup.newAttribute ∨ Markup.attributeMark.isPrefixOf name then
      .ok (some KnowledgeBase.attributeCompletions)
    else .ok none
  | some (.value name _) =>
    if name = linkAttribute then
      ((Tag.completions ws.index ws.tags.tags).map some).mapError .uri
    else
      ((KnowledgeBase.valueCompletions name).map fun items =>
        if items.isEmpty then none else some items).mapError .lookup

/-- The warnings about refused tags by uri. -/
def diagnostics (ws : Workspace) : Table Text (List Diagnostic) :=
  Diagnostic.ofConflicts ws.index ws.allConflicts

end Workspace

end Hypertag
