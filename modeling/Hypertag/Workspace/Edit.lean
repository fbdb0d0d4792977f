import Hypertag.Uri.Basic
import Hypertag.Workspace.Ownership

/-!
# Edits

An edit stores the text of a document and reads it again. A document that is not known yet becomes
a project file when it lies in a scanned directory and its extension fits.
-/

namespace Hypertag.Workspace

/-- Whether a path lies in a directory. -/
def inDirectory (directory path : Text) : Bool := (directory ++ [Path.slash]).isPrefixOf path

/-- The domain of a path: that of the first root which takes it. -/
def domainOfPath? (config : Config) (roots : List ProjectRoot) (path : Text) : Option Domain :=
  (roots.find? fun root =>
    root.domain ∈ config.classify path && inDirectory root.directory path).map ProjectRoot.domain

/-- The domain of a document that the last scan did not see. -/
def classifyUri (ws : Workspace) (uri : Text) : Except UriError (Option Domain) :=
  match ws.config with
  | none => .ok none
  | some config => (Uri.parse uri).map fun u =>
      if u.scheme = Uri.fileScheme then domainOfPath? config ws.roots u.filePath else none

/-- Makes a document a project file. -/
def enroll (g : Grammars) (ws : Workspace) (uri : Text) (domain : Domain) (text : Text) :
    Workspace × List Tag :=
  match ws.index.register? uri with
  | none => (ws, [])
  | some (file, index) =>
    let ws := { ws with index }.debug "documents"
      ("Registered " ++ uri ++ " as " ++ domain.name ++ " (file " ++ Text.ofInt file ++ ")")
    ws.indexFile g file (some domain) text

/-- Reads a known file again. -/
def refresh (g : Grammars) (ws : Workspace) (file : FileId) (text : Text) : Workspace × List Tag :=
  let (ws, refused) := ws.indexFile g file none text
  (ws.timing "workspace.onEdit" (some
    [("file", Text.ofInt file), ("conflicts", Text.ofNat refused.length)]), refused)

/-- Stores a document's text. The result is the document's refused tags, or why its uri cannot be
read. -/
def edit (g : Grammars) (ws : Workspace) (uri text : Text) :
    Workspace × Except UriError (List Tag) :=
  let ws := { ws with documents := ws.documents.set uri text }
  if ws.ready then
    match ws.index.idOf? uri with
    | some file =>
      let (ws, refused) := ws.refresh g file text
      (ws, .ok refused)
    | none =>
      match ws.classifyUri uri with
      | .error e => (ws, .error e)
      | .ok none => (ws, .ok [])
      | .ok (some domain) =>
        let (ws, refused) := ws.enroll g uri domain text
        (ws, .ok refused)
  else (ws, .ok [])

/-- Takes over an open document's declarations once more. Gives nothing for templates and for
documents that are not tracked or not open. -/
def save (ws : Workspace) (uri : Text) : Workspace × Option (List Tag) :=
  match ws.index.idOf? uri, ws.documents.get? uri with
  | some file, some _ =>
    match ws.trees.get? file with
    | some entry =>
      if entry.domain.declaresTags then
        let (ws, refused) := ws.updateTags file entry
        (ws, some refused)
      else (ws, none)
    | none => (ws, none)
  | _, _ => (ws, none)

end Hypertag.Workspace
