import Hypertag.Proofs.Warnings
import Hypertag.Server.Session

/-!
# What the client shows

The client shows for each uri the warnings that it was sent last. The server sends only what is not
empty, and clears what it published before. After every message the client shows exactly the
recorded conflicts, if no scan has failed. A failed scan changes the tables and publishes nothing.
-/

namespace Hypertag

/-! ### Messages to the client -/

def Message.receive (uri : Text) (shown : List Diagnostic) : Message → List Diagnostic
  | .console _ => shown
  | .showError _ => shown
  | .diagnostics place list => if place = uri then list else shown
  | .listen => shown

/-- What a client shows for a uri: the list that came last, or nothing. -/
def received (sent : List Message) (uri : Text) : List Diagnostic :=
  sent.foldl (Message.receive uri) []

/-- Whether a message leaves the warnings as they are. -/
def Message.Quiet : Message → Prop
  | .diagnostics _ _ => False
  | _ => True

theorem received_append_quiet (sent : List Message) {more : List Message}
    (quiet : ∀ m ∈ more, m.Quiet) (uri : Text) :
    received (sent ++ more) uri = received sent uri := by
  rw [received, List.foldl_append, ← received]
  generalize received sent uri = shown
  induction more with
  | nil => rfl
  | cons m more ih =>
    rw [List.forall_mem_cons] at quiet
    rw [List.foldl_cons]
    cases m with
    | console line => exact ih quiet.2
    | showError text => exact ih quiet.2
    | diagnostics place list => exact quiet.1.elim
    | listen => exact ih quiet.2

theorem foldl_receive_cleared (stale : List Text) (uri : Text) (shown : List Diagnostic) :
    (stale.map (Message.diagnostics · [])).foldl (Message.receive uri) shown =
      if uri ∈ stale then [] else shown := by
  induction stale generalizing shown with
  | nil => rfl
  | cons place stale ih =>
    rw [List.map_cons, List.foldl_cons, ih, Message.receive]
    by_cases same : place = uri
    · simp [same]
    · simp [same, Ne.symm same]

theorem foldl_receive_table (byUri : Table Text (List Diagnostic)) (uri : Text)
    (shown : List Diagnostic) :
    (byUri.entries.map fun (place, list) => Message.diagnostics place list).foldl
      (Message.receive uri) shown = (byUri.get? uri).getD shown := by
  obtain ⟨entries, nodup⟩ := byUri
  unfold Table.get?
  induction entries generalizing shown with
  | nil => rfl
  | cons entry entries ih =>
    rw [List.map_cons, List.nodup_cons] at nodup
    rw [List.map_cons, List.foldl_cons, ih _ nodup.2, Message.receive]
    by_cases same : entry.1 = uri
    · have absent : entries.find? (·.1 = uri) = none := by
        rw [List.find?_eq_none]
        intro other member found
        have key : other.1 = uri := by simpa using found
        exact nodup.1 (same ▸ key ▸ List.mem_map_of_mem member)
      rw [absent, if_pos same, List.find?_cons_of_pos (by simpa using same)]
      rfl
    · rw [if_neg same, List.find?_cons_of_neg (by simpa using same)]

/-- Clearing what was published before and is gone, and sending the rest, leaves the client with
exactly the table. -/
theorem received_published {sent : List Message} {published : List Text}
    (cleared : ∀ uri, uri ∉ published → received sent uri = [])
    (byUri : Table Text (List Diagnostic)) (uri : Text) :
    received (sent ++ ((published.filter (!byUri.contains ·)).map (Message.diagnostics · []) ++
      byUri.entries.map fun (place, list) => Message.diagnostics place list)) uri =
        (byUri.get? uri).getD [] := by
  rw [received, List.foldl_append, ← received, List.foldl_append, foldl_receive_cleared,
    foldl_receive_table]
  cases found : byUri.get? uri with
  | some list => rfl
  | none =>
    by_cases before : uri ∈ published
    · have stale : uri ∈ published.filter (!byUri.contains ·) := by
        simp [before, Table.contains, found]
      rw [if_pos stale]
    · have absent : uri ∉ published.filter (!byUri.contains ·) :=
        fun member => before (List.mem_filter.mp member).1
      rw [if_neg absent, cleared uri before]

/-! ### What a handler keeps -/

namespace Workspace

theorem edit_of_error {g : Grammars} {ws : Workspace} {uri text : Text} {e : UriError}
    (failed : (ws.edit g uri text).2 = .error e) :
    (ws.edit g uri text).1 = ws.withDocument uri text := by
  cases ready : ws.ready with
  | false => rw [edit_of_idle g ready]
  | true =>
    cases known : ws.index.idOf? uri with
    | some file =>
      rw [edit_of_known g ready known] at failed
      cases failed
    | none =>
      rw [edit_of_unknown g ready known] at failed ⊢
      cases fits : ws.classifyUri uri with
      | error e => rfl
      | ok found =>
        cases found with
        | none => rfl
        | some domain =>
          rw [fits] at failed
          cases failed

theorem save_of_none {ws : Workspace} {uri : Text} (nothing : (ws.save uri).2 = none) :
    (ws.save uri).1 = ws := by
  generalize result : ws.save uri = pair at nothing ⊢
  unfold save at result
  split at result
  · split at result
    · split at result
      · rw [← result] at nothing
        cases nothing
      · rw [← result]
    · rw [← result]
  · rw [← result]

end Workspace

namespace Server

open Workspace

/-- What is shown for uris that are not published is nothing. The rest may be out of date. -/
structure Tidy (g : Grammars) (sent : List Message) (s : Server) : Prop where
  follows : s.workspace.Follows g
  cleared : ∀ uri, uri ∉ s.published → received (sent ++ s.outbox) uri = []

/-- Everything that is shown is up to date. -/
structure InStep (g : Grammars) (sent : List Message) (s : Server) : Prop
    extends Tidy g sent s where
  current : ∀ uri, received (sent ++ s.outbox) uri = s.workspace.warnings uri

structure Quietly (s after : Server) : Prop where
  published : after.published = s.published
  outbox : ∃ more, after.outbox = s.outbox ++ more ∧ ∀ m ∈ more, m.Quiet

section Quietly

variable {g : Grammars} {sent : List Message} {s after : Server}

theorem Quietly.of_same (published : after.published = s.published)
    (outbox : after.outbox = s.outbox) : Quietly s after :=
  ⟨published, [], outbox.trans (List.append_nil _).symm, fun _ h => (List.not_mem_nil h).elim⟩

theorem quietly_send (s : Server) {m : Message} (quiet : m.Quiet) : Quietly s (s.send m) :=
  ⟨rfl, [m], rfl, fun _ h => List.mem_singleton.mp h ▸ quiet⟩

theorem quietly_console (s : Server) (level : Level) (text : Text) :
    Quietly s (s.console level text) :=
  quietly_send s (m := .console ⟨level, text⟩) trivial

theorem quietly_adopt (s : Server) (ws : Workspace) : Quietly s (s.adopt ws) := by
  refine ⟨rfl, ws.log.lines.map .console, rfl, ?_⟩
  intro m member
  obtain ⟨line, _, rfl⟩ := List.mem_map.mp member
  trivial

theorem Quietly.received (h : Quietly s after) (sent : List Message) (uri : Text) :
    received (sent ++ after.outbox) uri = received (sent ++ s.outbox) uri := by
  obtain ⟨more, grown, quiet⟩ := h.outbox
  rw [grown, ← List.append_assoc, received_append_quiet _ quiet]

theorem Tidy.quietly (h : Tidy g sent s) (quiet : Quietly s after)
    (follows : after.workspace.Follows g) : Tidy g sent after where
  follows := follows
  cleared uri absent := by
    rw [quiet.received]
    exact h.cleared uri (quiet.published ▸ absent)

/-- What changes neither numbers nor conflicts needs no publishing. -/
theorem InStep.quietly (h : InStep g sent s) (quiet : Quietly s after)
    (follows : after.workspace.Follows g) (index : after.workspace.index = s.workspace.index)
    (conflicts : after.workspace.conflicts = s.workspace.conflicts) : InStep g sent after where
  toTidy := h.toTidy.quietly quiet follows
  current uri := by
    rw [quiet.received, h.current, warnings_congr index conflicts]

theorem InStep.withOpened (h : InStep g sent s) (opened : Table Text Text) :
    InStep g sent { s with opened } :=
  h.quietly (.of_same rfl rfl) h.follows rfl rfl

theorem Tidy.adopt {ws : Workspace} (h : Tidy g sent s) (follows : ws.Follows g) :
    Tidy g sent (s.adopt ws) :=
  h.quietly (quietly_adopt s ws) (follows.relog _)

theorem InStep.adopt {ws : Workspace} (h : InStep g sent s) (follows : ws.Follows g)
    (index : ws.index = s.workspace.index) (conflicts : ws.conflicts = s.workspace.conflicts) :
    InStep g sent (s.adopt ws) :=
  h.quietly (quietly_adopt s ws) (follows.relog _) index conflicts

end Quietly

section Handlers

variable {g : Grammars} {env : Surroundings} {sent : List Message} {s : Server}

/-- Publishing brings the client up to date: what is left of the old warnings is cleared. -/
theorem publish_inStep (opened : env.connectionClosed = false) {after : Server} {arrived : Bool}
    (published : s.publish env = (after, arrived)) (h : Tidy g sent s) :
    arrived = true ∧ InStep g sent after := by
  simp only [publish, opened, Bool.false_and, Bool.false_eq_true, if_false] at published
  cases published
  refine ⟨rfl, ?_⟩
  have shown := received_published h.cleared s.workspace.diagnostics
  simp only [List.append_assoc] at shown
  refine ⟨⟨h.follows, ?_⟩, ?_⟩
  · intro uri absent
    refine (shown uri).trans ?_
    cases found : s.workspace.diagnostics.get? uri with
    | none => rfl
    | some list =>
      have member := s.workspace.diagnostics.get?_eq_some_iff.mp found
      exact absurd (List.mem_map.mpr ⟨_, member, rfl⟩) absent
  · intro uri
    exact (shown uri).trans (h.follows.diagnostics_eq uri)

theorem publishOrReport_inStep (opened : env.connectionClosed = false) (h : Tidy g sent s) :
    InStep g sent (s.publishOrReport env) := by
  unfold publishOrReport
  split
  · next published => exact (publish_inStep opened published h).2
  · next failed => cases (publish_inStep opened failed h).1

theorem handshake_inStep (h : InStep g sent s) (info : ClientInfo) :
    InStep g sent (s.handshake info).1 := by
  unfold handshake
  cases rootDirectory info with
  | error e => exact h.quietly (.of_same rfl rfl) h.follows rfl rfl
  | ok root =>
    simp only [configure]
    cases Settings.check (Settings.ofValue? info.options) with
    | error e =>
      refine h.quietly ⟨rfl, ?_⟩ h.follows rfl rfl
      exact (quietly_console s .info ("[htmx-ls] " ++ e.message)).outbox
    | ok config =>
      exact h.quietly (.of_same rfl rfl) (h.follows.perform (.setConfig config)) rfl rfl

theorem contentChanged_inStep (reads : env.reader = g) (opened : env.connectionClosed = false)
    (h : InStep g sent s) (uri text : Text) : InStep g sent (s.contentChanged env uri text) := by
  have follows := h.follows.perform (.edit uri text)
  rw [contentChanged, reads]
  cases edited : s.workspace.edit g uri text with
  | mk ws result =>
    have state : s.workspace.perform g (.edit uri text) = ws := congrArg Prod.fst edited
    rw [state] at follows
    cases result with
    | error e =>
      have unread := edit_of_error (congrArg Prod.snd edited)
      rw [edited] at unread
      obtain rfl : ws = s.workspace.withDocument uri text := unread
      exact h.adopt follows rfl rfl
    | ok refused =>
      exact publishOrReport_inStep opened (h.toTidy.adopt (follows.relog _))

theorem didChange_inStep (reads : env.reader = g) (opened : env.connectionClosed = false)
    (h : InStep g sent s) (uri : Text) (texts : List Text) :
    InStep g sent (s.didChange env uri texts) := by
  unfold didChange
  split
  · exact contentChanged_inStep reads opened (h.withOpened _) uri _
  · exact h

theorem didSave_inStep (opened : env.connectionClosed = false) (h : InStep g sent s) (uri : Text) :
    InStep g sent (s.didSave env uri) := by
  have follows := h.follows.perform (.save uri)
  unfold didSave
  split
  · cases saved : s.workspace.save uri with
    | mk ws result =>
      have state : s.workspace.perform g (.save uri) = ws := congrArg Prod.fst saved
      rw [state] at follows
      cases result with
      | none =>
        have same := save_of_none (congrArg Prod.snd saved)
        rw [saved] at same
        exact h.adopt follows (congrArg Workspace.index same) (congrArg Workspace.conflicts same)
      | some refused =>
        exact publishOrReport_inStep opened (h.toTidy.adopt follows)
  · exact h

theorem didClose_inStep (h : InStep g sent s) (uri : Text) : InStep g sent (s.didClose uri) := by
  unfold didClose
  split
  · exact h.quietly (.of_same rfl rfl) (h.follows.perform (.close uri)) rfl rfl
  · exact h

theorem gotoDefinition_inStep (h : InStep g sent s) (uri : Text) (p : Point) :
    InStep g sent (s.gotoDefinition env uri p).1 := by
  have logged : ∃ log, (s.workspace.gotoDefinition env.reader uri p).1 =
      { s.workspace with log } := by
    unfold Workspace.gotoDefinition
    split
    · exact ⟨s.workspace.log, rfl⟩
    · exact ⟨_, rfl⟩
  obtain ⟨log, state⟩ := logged
  rw [gotoDefinition]
  simp only [state]
  exact h.adopt (h.follows.relog log) rfl rfl

theorem scanProject_inStep (opened : env.connectionClosed = false) (h : InStep g sent s)
    {config : Config} {root : Text}
    (succeeds : ∀ e, (s.workspace.scan g env.disk config root).2 ≠ .error e) :
    InStep g sent (s.scanProject env g config root) := by
  have follows := h.follows.perform (.scan env.disk config root)
  unfold scanProject
  cases scanned : s.workspace.scan g env.disk config root with
  | mk ws result =>
    have state : s.workspace.perform g (.scan env.disk config root) = ws :=
      congrArg Prod.fst scanned
    rw [state] at follows
    cases result with
    | error e => exact absurd (congrArg Prod.snd scanned) (succeeds e)
    | ok refused =>
      have tidy := h.toTidy.adopt follows
      have told := fun text => tidy.quietly (quietly_console (s.adopt ws) .log text) tidy.follows
      dsimp only
      split
      · next published => exact (publish_inStep opened published (told _)).2
      · next failed => cases (publish_inStep opened failed (told _)).1

end Handlers

/-! ### Sessions -/

inductive ClientMessage where
  | handshake (info : ClientInfo)
  | ready
  | opened (uri text : Text)
  | changed (uri : Text) (texts : List Text)
  | saved (uri : Text)
  | closed (uri : Text)
  | definition (uri : Text) (p : Point)

def handle (env : Surroundings) (s : Server) : ClientMessage → Server
  | .handshake info => (s.handshake info).1
  | .ready => s.clientReady env
  | .opened uri text => s.didOpen env uri text
  | .changed uri texts => s.didChange env uri texts
  | .saved uri => s.didSave env uri
  | .closed uri => s.didClose uri
  | .definition uri p => (s.gotoDefinition env uri p).1

/-- A server and all that it has sent. -/
structure Session where
  server : Server
  sent : List Message

namespace Session

def start (flags : List Text) : Session :=
  ⟨(Server.start flags).flush.1, (Server.start flags).flush.2⟩

def respond (env : Surroundings) (x : Session) (m : ClientMessage) : Session :=
  ⟨(x.server.handle env m).flush.1, x.sent ++ (x.server.handle env m).flush.2⟩

/-- The surroundings of a session in which everything that is sent arrives. -/
def surroundings (grammars : Except GrammarError Grammars) (disk : Disk) : Surroundings :=
  ⟨grammars, disk, false⟩

def run (grammars : Except GrammarError Grammars) :
    Session → List (Disk × ClientMessage) → Session
  | x, [] => x
  | x, (disk, m) :: rest => run grammars (x.respond (surroundings grammars disk) m) rest

end Session

/-- Whether the scan that a message starts, if any, succeeds. -/
def ScanSucceeds (env : Surroundings) (s : Server) (m : ClientMessage) : Prop :=
  m = .ready → ∀ g config root, env.grammars = .ok g → s.config = some config →
    s.root = some root → root.isEmpty = false →
    ∀ e, (s.workspace.loadGrammars.scan g env.disk config root).2 ≠ .error e

theorem clientReady_inStep {g : Grammars} {env : Surroundings} {sent : List Message} {s : Server}
    (reads : env.reader = g) (opened : env.connectionClosed = false) (h : InStep g sent s)
    (succeeds : ScanSucceeds env s .ready) : InStep g sent (s.clientReady env) := by
  have greeted := h.quietly (quietly_console s .log "htmx-ls initialized!") h.follows rfl rfl
  have warned : ∀ {after : Server} level text, InStep g sent after →
      InStep g sent (after.console level text) := fun level text inStep =>
    inStep.quietly (quietly_console _ level text) inStep.follows rfl rfl
  unfold clientReady
  cases loaded : env.grammars with
  | error e => exact warned .warn _ greeted
  | ok g' =>
    obtain rfl : g' = g := by
      rw [← reads, Surroundings.reader, loaded]
      rfl
    have started : InStep g' sent { s.console .log "htmx-ls initialized!" with
        workspace := s.workspace.loadGrammars } :=
      greeted.quietly (.of_same rfl rfl) (greeted.follows.perform .load) rfl rfl
    dsimp only
    split
    · split
      · exact started
      · exact started.quietly (quietly_send _ trivial) started.follows rfl rfl
    · exact warned .warn _ started
    · next config root hconfig hroot =>
      split
      · exact warned .warn _ started
      · next named =>
        exact scanProject_inStep opened started
          (succeeds rfl g' config root loaded hconfig hroot (Bool.eq_false_iff.mpr named))

theorem handle_inStep {g : Grammars} {env : Surroundings} {sent : List Message} {s : Server}
    (reads : env.reader = g) (opened : env.connectionClosed = false) (h : InStep g sent s)
    {m : ClientMessage} (succeeds : ScanSucceeds env s m) : InStep g sent (s.handle env m) := by
  cases m with
  | handshake info => exact handshake_inStep h info
  | ready => exact clientReady_inStep reads opened h succeeds
  | opened uri text => exact contentChanged_inStep reads opened (h.withOpened _) uri text
  | changed uri texts => exact didChange_inStep reads opened h uri texts
  | saved uri => exact didSave_inStep opened h uri
  | closed uri => exact didClose_inStep h uri
  | definition uri p => exact gotoDefinition_inStep h uri p

namespace Session

def ScansSucceed (grammars : Except GrammarError Grammars) :
    Session → List (Disk × ClientMessage) → Prop
  | _, [] => True
  | x, (disk, m) :: rest => ScanSucceeds (surroundings grammars disk) x.server m ∧
      ScansSucceed grammars (x.respond (surroundings grammars disk) m) rest

theorem start_inStep (g : Grammars) (flags : List Text) :
    InStep g (start flags).sent (start flags).server where
  follows := ⟨new (.new flags false), ⟨.new flags false, [], rfl⟩, .refl _⟩
  cleared _ _ := rfl
  current _ := rfl

theorem respond_inStep {g : Grammars} {env : Surroundings} {x : Session} (reads : env.reader = g)
    (opened : env.connectionClosed = false) (h : InStep g x.sent x.server) {m : ClientMessage}
    (succeeds : ScanSucceeds env x.server m) :
    InStep g (x.respond env m).sent (x.respond env m).server := by
  have handled := handle_inStep reads opened h succeeds
  have shown : ∀ uri, received ((x.respond env m).sent ++ (x.respond env m).server.outbox) uri =
      received (x.sent ++ (x.server.handle env m).outbox) uri := by
    intro uri
    exact congrArg (received · uri) (List.append_nil _)
  exact ⟨⟨handled.follows, fun uri absent => (shown uri).trans (handled.cleared uri absent)⟩,
    fun uri => (shown uri).trans (handled.current uri)⟩

theorem run_inStep {g : Grammars} {grammars : Except GrammarError Grammars}
    (reads : ∀ disk, (surroundings grammars disk).reader = g)
    (messages : List (Disk × ClientMessage)) {x : Session} (h : InStep g x.sent x.server)
    (succeed : ScansSucceed grammars x messages) :
    InStep g (run grammars x messages).sent (run grammars x messages).server := by
  induction messages generalizing x with
  | nil => exact h
  | cons first rest ih => exact ih (respond_inStep (reads first.1) rfl h succeed.1) succeed.2

theorem run_outbox (grammars : Except GrammarError Grammars)
    (messages : List (Disk × ClientMessage)) {x : Session} (h : x.server.outbox = []) :
    (run grammars x messages).server.outbox = [] := by
  induction messages generalizing x with
  | nil => exact h
  | cons first rest ih => exact ih rfl

/-- After any messages, if no scan has failed, the client shows for every uri exactly the recorded
conflicts of its file, in order. Every recorded conflict is shown, since its file has a uri. -/
theorem shown_are_recorded (grammars : Except GrammarError Grammars) (flags : List Text)
    {messages : List (Disk × ClientMessage)}
    (succeed : ScansSucceed grammars (start flags) messages) :
    (∀ uri, received (run grammars (start flags) messages).sent uri =
      (run grammars (start flags) messages).server.workspace.warnings uri) ∧
    ∀ t ∈ (run grammars (start flags) messages).server.workspace.allConflicts,
      ∃ uri, (run grammars (start flags) messages).server.workspace.index.idOf? uri =
          some t.file ∧
        Diagnostic.ofTag t ∈ received (run grammars (start flags) messages).sent uri := by
  have inStep := run_inStep (fun _ => rfl) messages
    (start_inStep (grammars.toOption.getD Grammars.none) flags) succeed
  have current : ∀ uri, received (run grammars (start flags) messages).sent uri =
      (run grammars (start flags) messages).server.workspace.warnings uri := by
    intro uri
    have shown := inStep.current uri
    rw [run_outbox grammars messages rfl, List.append_nil] at shown
    exact shown
  refine ⟨current, ?_⟩
  intro t recorded
  obtain ⟨uri, known, warned⟩ := inStep.follows.warned recorded
  exact ⟨uri, known, by rw [current]; exact warned⟩

end Session

end Server

namespace Sample

open Server

def client : ClientInfo where
  name := none
  folder := some "file:///ws"
  rootUri := none
  options := .object [("lang", .text "python"), ("template_ext", .text "html"),
    ("backend_tags", .array [.text "app"])]

def startup : List (Disk × ClientMessage) := [(disk, .handshake client), (disk, .ready)]

/-- The client opens the first file, which gives up the shared tag. -/
def opening : List (Disk × ClientMessage) :=
  startup ++ [(disk, .opened "file:///ws/app/x.py" "# hx@b")]

end Sample

open Server in
/-- The warning about the second file goes when the first file gives the tag up. -/
theorem shown_of_handover :
    Session.ScansSucceed (.ok Sample.grammars) (Session.start []) Sample.opening ∧
    received (Session.run (.ok Sample.grammars) (Session.start []) Sample.startup).sent
      "file:///ws/app/y.py" = [⟨⟨0, 2, 6⟩, "Tag hx@a is already defined."⟩] ∧
    received (Session.run (.ok Sample.grammars) (Session.start []) Sample.opening).sent
      "file:///ws/app/y.py" = [] := by
  let greeted := (Session.start []).respond (Session.surroundings (.ok Sample.grammars) Sample.disk)
    (.handshake Sample.client)
  have config : greeted.server.config = some (Sample.config .python) := rfl
  have root : greeted.server.root = some (Text.ofString "/ws") := rfl
  have scanned : (greeted.server.workspace.loadGrammars.scan Sample.grammars Sample.disk
    (Sample.config .python) "/ws").2 = .ok [⟨"hx@a", 2, 6, 1, 0⟩] := rfl
  have ready : ScanSucceeds (Session.surroundings (.ok Sample.grammars) Sample.disk) greeted.server
      .ready := by
    intro _ g c r loaded hc hr _ e
    obtain rfl := Except.ok.inj loaded
    obtain rfl := Option.some.inj (config.symm.trans hc)
    obtain rfl := Option.some.inj (root.symm.trans hr)
    intro failed
    cases scanned.symm.trans failed
  have succeed : Session.ScansSucceed (.ok Sample.grammars) (Session.start []) Sample.opening :=
    ⟨(fun h => by cases h), ready, (fun h => by cases h), trivial⟩
  have succeed' : Session.ScansSucceed (.ok Sample.grammars) (Session.start []) Sample.startup :=
    ⟨(fun h => by cases h), ready, trivial⟩
  refine ⟨succeed, ?_, ?_⟩
  · rw [(Session.shown_are_recorded _ [] succeed').1]
    decide
  · rw [(Session.shown_are_recorded _ [] succeed).1]
    decide

end Hypertag
