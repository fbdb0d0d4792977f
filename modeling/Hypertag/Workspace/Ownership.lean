import Hypertag.Workspace.Basic

/-!
# Who owns a tag

When the declarations of a file change, its tags are claimed anew. A name that it gives up goes to
the first file that was refused it, so that a warning disappears with its cause.
-/

namespace Hypertag.Workspace

/-- Claims the tags of a file and records the refused ones. -/
def reconcileFile (ws : Workspace) (file : FileId) (tags : List Tag) : Workspace × List Tag :=
  let (registry, refused) := ws.tags.reconcile file tags
  let conflicts :=
    if refused.isEmpty then ws.conflicts.erase file else ws.conflicts.set file refused
  ({ ws with tags := registry, conflicts }, refused)

/-- Claims a file's tags anew when one of its refused names has no owner any more. -/
def promoteFile (updated : FileId) (ws : Workspace) (row : FileId × List Tag) : Workspace :=
  let (file, refused) := row
  if file = updated ∨ refused.all fun t => (ws.tags.lookup t.name).isSome then ws
  else match (ws.trees.get? file).bind ws.tagsIn? with
    | none => ws
    | some tags =>
      let (ws, left) := ws.reconcileFile file tags
      ws.debug "tags" ("file " ++ Text.ofInt file ++ ": promoted, " ++ Text.ofNat left.length ++
        " conflicts left")

/-- Goes once over the files that had conflicts. -/
def promote (ws : Workspace) (updated : FileId) : Workspace :=
  ws.conflicts.entries.foldl (promoteFile updated) ws

/-- Takes over the declarations of a file's tree and returns those that were refused. -/
def updateTags (ws : Workspace) (file : FileId) (entry : FileTree) : Workspace × List Tag :=
  match ws.tagsIn? entry with
  | none => (ws, [])
  | some tags =>
    let (ws, refused) := ws.reconcileFile file tags
    let ws := ws.promote file
    (ws.debug "tags" ("file " ++ Text.ofInt file ++ ": " ++ Text.ofNat ws.tags.size ++ " tags, " ++
      Text.ofNat refused.length ++ " conflicts"), refused)

/-- Reads a text for a file and takes over its declarations. -/
def indexFile (g : Grammars) (ws : Workspace) (file : FileId) (domain : Option Domain)
    (text : Text) : Workspace × List Tag :=
  match ws.trees.upsert g.parse file domain text with
  | (trees, some entry) => { ws with trees }.updateTags file entry
  | (trees, none) => ({ ws with trees }, [])

end Hypertag.Workspace
