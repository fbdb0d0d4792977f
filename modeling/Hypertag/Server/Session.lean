import Hypertag.Server.Basic

/-!
# A session

What the server does on each message of the client. The project is scanned once the client has
said that it is ready. Documents may be opened and changed before that.
-/

namespace Hypertag.Server

/-- The directory to work in: that of the first folder, else of the root uri. -/
def rootDirectory (info : ClientInfo) : Except UriError (Option Text) :=
  match info.folder.or info.rootUri with
  | none => .ok none
  | some [] => .ok none
  | some uri => (Uri.parse uri).map fun u => some u.filePath

/-- Reads the client's settings. Bad ones are reported, and settings read before stay in force. -/
def configure (s : Server) (options : Value) : Server :=
  match Settings.check (Settings.ofValue? options) with
  | .ok config =>
    { s with config := some config, workspace := s.workspace.setConfig config }
  | .error e =>
    { s with configError := some e }.console .info ("[htmx-ls] " ++ e.message)

/-- Greets the client. -/
def handshake (s : Server) (info : ClientInfo) : Server × Except UriError Capabilities :=
  let s := { s with isHelix := info.name = some (Text.ofString "helix") }
  match rootDirectory info with
  | .error e => (s, .error e)
  | .ok root =>
    let s := { s with root }.configure info.options
    (s, .ok { definition := s.config.isSome })

/-- Scans the project and publishes what was found. Of a scan without an end nothing is heard. -/
def scanProject (env : Surroundings) (g : Grammars) (s : Server) (config : Config) (root : Text) :
    Server :=
  let fail (s : Server) (message : Text) : Server :=
    (s.reportError "Project scan failed" message).send (.showError ("htmx-ls: " ++ message))
  match s.workspace.scan g env.disk config root with
  | (ws, .error .endless) => s.adopt ws
  | (ws, .error e) => fail (s.adopt ws) e.message
  | (ws, .ok conflicts) =>
    let s := (s.adopt ws).console .log
      ("Indexed " ++ Text.ofNat ws.index.size ++ " files, " ++ Text.ofNat ws.tags.size ++
        " tags, " ++ Text.ofNat conflicts.length ++ " duplicates")
    match s.publish env with
    | (s, true) => s
    | (s, false) => fail s closedMessage

/-- Loads the grammars and scans the project, as far as settings and folder allow. -/
def clientReady (env : Surroundings) (s : Server) : Server :=
  let s := s.console .log "htmx-ls initialized!"
  match env.grammars with
  | .error e => s.console .warn ("Tree-sitter unavailable: " ++ e.message)
  | .ok g =>
    let s := { s with workspace := s.workspace.loadGrammars }
    match s.config, s.root with
    | none, _ =>
      match s.configError with
      | none => s
      | some e => s.send (.showError ("htmx-ls: " ++ e.message))
    | some _, none => s.console .warn "[htmx-ls] No workspace folder; tags are not indexed."
    | some config, some root =>
      if root.isEmpty then s.console .warn "[htmx-ls] No workspace folder; tags are not indexed."
      else s.scanProject env g config root

/-- Takes over the text of an open document. A uri that cannot be read ends it there. -/
def contentChanged (env : Surroundings) (s : Server) (uri text : Text) : Server :=
  match s.workspace.edit env.reader uri text with
  | (ws, .error _) => s.adopt ws
  | (ws, .ok conflicts) =>
    (s.adopt (ws.debug "documents"
      (uri ++ " changed, " ++ Text.ofNat conflicts.length ++ " conflicts"))).publishOrReport env

def didOpen (env : Surroundings) (s : Server) (uri text : Text) : Server :=
  { s with opened := s.opened.set uri text }.contentChanged env uri text

/-- Applies full texts in order; only the last one is seen. -/
def didChange (env : Surroundings) (s : Server) (uri : Text) (texts : List Text) : Server :=
  match s.opened.get? uri, texts.getLast? with
  | some _, some text => { s with opened := s.opened.set uri text }.contentChanged env uri text
  | _, _ => s

def didSave (env : Surroundings) (s : Server) (uri : Text) : Server :=
  if s.opened.contains uri then
    match s.workspace.save uri with
    | (ws, none) => s.adopt ws
    | (ws, some _) => (s.adopt ws).publishOrReport env
  else s

def didClose (s : Server) (uri : Text) : Server :=
  if s.opened.contains uri then
    { s with opened := s.opened.erase uri, workspace := s.workspace.close uri }
  else s

def hover (env : Surroundings) (s : Server) (uri : Text) (p : Point) :
    Except RequestError (Option Text) :=
  s.workspace.hover env.reader uri p

def gotoDefinition (env : Surroundings) (s : Server) (uri : Text) (p : Point) :
    Server × Option Workspace.Location :=
  let (ws, location) := s.workspace.gotoDefinition env.reader uri p
  (s.adopt ws, location)

/-- How a completion came about: asked for, or by a typed character. -/
def triggerKinds : List Int := [1, 2]

/-- Completes when asked for or triggered; Helix does not say which. -/
def completion (env : Surroundings) (s : Server) (trigger : Option Int) (uri : Text) (p : Point) :
    Except RequestError (Option (List CompletionItem)) :=
  if trigger.any (· ∈ triggerKinds) || s.isHelix then s.workspace.completion env.reader uri p
  else .ok none

end Hypertag.Server
