import Hypertag.Workspace.Edit
import Hypertag.Workspace.Request
import Hypertag.Workspace.Scan

/-!
# The server

A workspace behind a connection to an editor. The client opens, changes, saves and closes
documents and asks questions; the server answers, writes to the client's console, and keeps the
client's warnings about duplicate tags up to date.
-/

namespace Hypertag

/-- What the server sends without being asked. -/
inductive Message where
  | console (line : LogLine)
  | showError (text : Text)
  | diagnostics (uri : Text) (list : List Diagnostic)
  | listen

/-- Why grammars are not available. -/
inductive GrammarError where
  | missing (grammar : Grammar)

def GrammarError.message : GrammarError → Text
  | missing grammar => "tree-sitter-" ++ grammar.name ++
      ".wasm not found. Install tree-sitter-wasms to enable parsing."

/-- The world around a server. A closed connection refuses diagnostics. -/
structure Surroundings where
  grammars : Except GrammarError Grammars
  disk : Disk
  connectionClosed : Bool

/-- What grammars read while none are loaded. -/
def Grammars.none : Grammars :=
  ⟨fun _ => .mk .document 0 0 [], fun _ _ => .ofSpans [], fun _ _ _ => []⟩

def Surroundings.reader (env : Surroundings) : Grammars := env.grammars.toOption.getD Grammars.none

/-- What a client tells about itself: its name, its first folder, its root and its settings. -/
structure ClientInfo where
  name : Option Text
  folder : Option Text
  rootUri : Option Text
  options : Value

/-- What the server can do, as told to the client. -/
structure Capabilities where
  openClose : Bool := true
  /-- Changes carry the full text. -/
  change : Nat := 1
  saveIncludesText : Bool := false
  resolvesCompletions : Bool := false
  triggerCharacters : List Text := ["-", "\"", " "]
  hover : Bool := true
  definition : Bool
  serverName : Text := "htmx-ls"

structure Server where
  workspace : Workspace
  opened : Table Text Text
  isHelix : Bool
  root : Option Text
  config : Option Config
  configError : Option ConfigError
  published : List Text
  outbox : List Message

namespace Server

def send (s : Server) (m : Message) : Server := { s with outbox := s.outbox ++ [m] }

def console (s : Server) (level : Level) (text : Text) : Server :=
  s.send (.console ⟨level, text⟩)

/-- Takes over a workspace; what it has logged goes to the client's console. -/
def adopt (s : Server) (ws : Workspace) : Server :=
  { s with
    workspace := { ws with log := { ws.log with lines := [] } }
    outbox := s.outbox ++ ws.log.lines.map .console }

/-- A server that has just connected. -/
def start (flags : List Text) : Server :=
  let s : Server :=
    { workspace := .new (.new flags false)
      opened := .empty
      isHelix := false
      root := none
      config := none
      configError := none
      published := []
      outbox := [] }
  let greeting : Text :=
    if flags.isEmpty then "[htmx-ls] Debug flags disabled (set HTMX_LS_DEBUG to enable)"
    else "[htmx-ls] Debug flags enabled: " ++ Text.joinWith ", " flags
  (s.console .log greeting).send .listen

/-- Hands over what is to be sent. -/
def flush (s : Server) : Server × List Message := ({ s with outbox := [] }, s.outbox)

def reportError (s : Server) (context message : Text) : Server :=
  s.console .error ("[htmx-ls] " ++ context ++ ": " ++ message)

/-- What the connection says when diagnostics cannot be sent. -/
def closedMessage : Text := "connection closed"

/-- Sends the warnings of every file that has some, after clearing those that have none any more.
The second component says whether all of it arrived; only then it counts as published. -/
def publish (env : Surroundings) (s : Server) : Server × Bool :=
  let byUri := s.workspace.diagnostics
  let stale := s.published.filter (!byUri.contains ·)
  let messages := stale.map (Message.diagnostics · []) ++
    byUri.entries.map fun (uri, list) => Message.diagnostics uri list
  let s := { s with outbox := s.outbox ++ messages }
  if env.connectionClosed && !messages.isEmpty then (s, false)
  else ({ s with published := byUri.keys }, true)

/-- Publishes, and reports a failure on the console. -/
def publishOrReport (env : Surroundings) (s : Server) : Server :=
  match s.publish env with
  | (s, true) => s
  | (s, false) => s.reportError "Publishing diagnostics failed" closedMessage

end Server

end Hypertag
