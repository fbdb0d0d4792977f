import Hypertag.Config
import Hypertag.Document.Index
import Hypertag.Document.TreeCache
import Hypertag.Log
import Hypertag.Markup.Node
import Hypertag.Tag.Extract
import Hypertag.Tag.Registry

/-!
# The workspace

All that is known about a project: the texts of open documents, the numbered files and their
trees, who owns which tag, and the declarations that were refused.
-/

namespace Hypertag

/-- A tree is as much of a parse as the workspace needs: markup in full, of other files what the
comment query takes from it while a backend language is in force. -/
inductive SyntaxTree where
  | markup (root : Markup.Node)
  | source (captures : BackendLang → List Span)

/-- What the grammars make of a text. -/
structure Grammars where
  outline : Text → Markup.Outline
  comments : Grammar → Text → Comments
  /-- What the query of the second language takes from a tree of the first, when they differ. -/
  foreign : BackendLang → BackendLang → Text → List Span

namespace Grammars

def markup (g : Grammars) (text : Text) : Markup.Node := (g.outline text).locate text

/-- What the query of a language takes from the tree of a backend text. -/
def captures (g : Grammars) (lang query : BackendLang) (text : Text) : List Span :=
  if query = lang then (g.comments (.backend lang) text).spans else g.foreign lang query text

def parse (g : Grammars) (grammar : Grammar) (text : Text) : SyntaxTree :=
  match grammar with
  | .markup => .markup (g.markup text)
  | .script => .source fun _ => (g.comments .script text).spans
  | .backend lang => .source fun query => g.captures lang query text

end Grammars

abbrev FileTree := CachedTree SyntaxTree

/-- The tags that a file declares while a backend language is in force, not yet numbered. -/
def CachedTree.declared (entry : FileTree) (query : BackendLang) : List Tag :=
  match entry.tree with
  | .markup _ => []
  | .source captures => Tag.extract entry.text (captures query)

/-- A scanned directory by its canonical path, and the domain of its files. -/
structure ProjectRoot where
  domain : Domain
  directory : Text
  deriving DecidableEq

structure Workspace where
  index : DocumentIndex
  trees : TreeCache SyntaxTree
  tags : Registry
  documents : Table Text Text
  conflicts : Table FileId (List Tag)
  config : Option Config
  roots : List ProjectRoot
  log : Log

namespace Workspace

def new (log : Log) : Workspace where
  index := .empty
  trees := .empty none
  tags := .empty
  documents := .empty
  conflicts := .empty
  config := none
  roots := []
  log := log

/-- Whether grammars are loaded. -/
def ready (ws : Workspace) : Bool := ws.trees.backend.isSome

/-- Loads the grammars for the configured language, or for Rust while there is none. -/
def loadGrammars (ws : Workspace) : Workspace :=
  { ws with trees := ws.trees.load (ws.config.elim .rust Config.lang) }

def setConfig (ws : Workspace) (config : Config) : Workspace :=
  { ws with config := some config, trees := ws.trees.switch config.lang }

/-- Every refused declaration, file by file. -/
def allConflicts (ws : Workspace) : List Tag := ws.conflicts.values.flatten

/-- Forgets all files. Open documents, settings and roots stay. -/
def reset (ws : Workspace) : Workspace :=
  { ws with
    index := ws.index.reset
    trees := ws.trees.clear
    tags := .empty
    conflicts := .empty }

def close (ws : Workspace) (uri : Text) : Workspace :=
  { ws with documents := ws.documents.erase uri }

/-- The tags of a tree by the query in force. There is none for templates and without grammars. -/
def tagsIn? (ws : Workspace) (entry : FileTree) : Option (List Tag) :=
  if entry.domain.declaresTags then ws.trees.backend.map entry.declared else none

/-- The cached tree of a document. -/
def treeOf? (ws : Workspace) (uri : Text) : Option FileTree :=
  (ws.index.idOf? uri).bind ws.trees.get?

def debug (ws : Workspace) (flag message : Text) : Workspace :=
  { ws with log := ws.log.debug flag message }

def timing (ws : Workspace) (label : Text) (details : Option (List Detail)) : Workspace :=
  { ws with log := ws.log.timing label details }

end Workspace

end Hypertag
