import Hypertag.Proofs.Repetition
import Hypertag.Workspace.Request

/-!
# Cached trees and open texts

Open texts, numbers and trees are written by different operations at different times. Whenever a
document is open and has a tree, the tree was read from the open text, so that a cursor position is
answered as if the text had just been read. What a closed document's tree was read from is left
open.
-/

namespace Hypertag

namespace Workspace

theorem treeOf?_eq_some_iff {ws : Workspace} {uri : Text} {entry : FileTree} :
    ws.treeOf? uri = some entry ↔
      ∃ file, ws.index.idOf? uri = some file ∧ ws.trees.get? file = some entry :=
  Option.bind_eq_some_iff

theorem treeOf?_of_unknown {ws : Workspace} {uri : Text} (unknown : ws.index.idOf? uri = none) :
    ws.treeOf? uri = none := by
  simp [treeOf?, unknown]

theorem treeOf?_of_known {ws : Workspace} {uri : Text} {file : FileId}
    (known : ws.index.idOf? uri = some file) : ws.treeOf? uri = ws.trees.get? file := by
  simp [treeOf?, known]

/-- Whether the tree of a document, if it is open and has one, was read from the open text. -/
def CurrentAt (ws : Workspace) (uri : Text) : Prop :=
  ∀ text entry, ws.documents.get? uri = some text → ws.treeOf? uri = some entry →
    entry.text = text

def Current (ws : Workspace) : Prop := ∀ uri, ws.CurrentAt uri

theorem currentAt_of_untracked {ws : Workspace} {uri : Text} (h : ws.treeOf? uri = none) :
    ws.CurrentAt uri := by
  intro text entry _ found
  cases h.symm.trans found

theorem SameFiles.current {a b : Workspace} (same : SameFiles a b) (h : a.Current) :
    b.Current := by
  intro uri text entry opened found
  rw [same.documents] at opened
  rw [treeOf?, same.index, same.trees] at found
  exact h uri text entry opened found

/-! ### One step at a time -/

/-- Storing a text concerns no other document. -/
theorem withDocument_currentAt {ws : Workspace} {uri other : Text} (hne : other ≠ uri)
    (text : Text) (h : ws.CurrentAt other) : (ws.withDocument uri text).CurrentAt other := by
  intro t entry opened found
  rw [withDocument, Table.get?_set_of_ne _ _ hne] at opened
  exact h t entry opened found

theorem withDocument_current {ws : Workspace} {uri : Text} (untracked : ws.treeOf? uri = none)
    (text : Text) (h : ws.Current) : (ws.withDocument uri text).Current := by
  intro other
  by_cases same : other = uri
  · subst same
    exact currentAt_of_untracked untracked
  · exact withDocument_currentAt same text (h other)

/-- A new tree concerns no other document, because no other has its number. -/
theorem withTree_current {ws : Workspace} {uri : Text} {file : FileId} {entry : FileTree}
    (known : ws.index.idOf? uri = some file)
    (agrees : ∀ text, ws.documents.get? uri = some text → entry.text = text)
    (others : ∀ other, other ≠ uri → ws.CurrentAt other) : (ws.withTree file entry).Current := by
  intro other text found opened tracked
  obtain ⟨number, hnumber, cached⟩ := treeOf?_eq_some_iff.mp tracked
  have hnumber : ws.index.idOf? other = some number := hnumber
  by_cases same : other = uri
  · subst same
    obtain rfl := Option.some.inj (known.symm.trans hnumber)
    rw [withTree_get?] at cached
    obtain rfl := Option.some.inj cached
    exact agrees text opened
  · have foreign : number ≠ file := by
      rintro rfl
      exact same (DocumentIndex.idOf?_injective hnumber known)
    rw [withTree_get?_of_ne ws foreign] at cached
    exact others other same text found opened (treeOf?_eq_some_iff.mpr ⟨number, hnumber, cached⟩)

theorem reread_current {ws : Workspace} {uri : Text} {file : FileId}
    (known : ws.index.idOf? uri = some file) (read : FileTree) (h : ws.Current) :
    (ws.reread uri file read).1.Current := by
  have stored : (ws.withDocument uri read.text).index.idOf? uri = some file := known
  apply (reread_files ws uri file read).current
  apply withTree_current stored
  · intro text opened
    rw [withDocument, Table.get?_set_self] at opened
    exact Option.some.inj opened
  · intro other hne
    exact withDocument_currentAt hne read.text (h other)

/-- A newly numbered document has no tree yet. -/
theorem register_current {ws : Workspace} (tracked : Tracked ws) {uri : Text} {file : FileId}
    {index : DocumentIndex} (new : ws.index.register? uri = some (file, index)) (log : Log)
    (h : ws.Current) : { ws with index, log }.Current := by
  intro other text entry opened found
  obtain ⟨number, known, cached⟩ := treeOf?_eq_some_iff.mp found
  by_cases same : other = uri
  · subst same
    obtain rfl := Option.some.inj ((DocumentIndex.idOf?_register new).symm.trans known)
    cases (tracked.unread_of_register new).symm.trans cached
  · have before : ws.index.idOf? other = some number :=
      (DocumentIndex.idOf?_register_of_ne new same).symm.trans known
    exact h other text entry opened (treeOf?_eq_some_iff.mpr ⟨number, before, cached⟩)

theorem edit_current {g : Grammars} {ws : Workspace} (tracked : Tracked ws) (h : ws.Current)
    (uri text : Text) : (ws.edit g uri text).1.Current := by
  have outcome := edit_outcome g tracked uri text
  generalize ws.edit g uri text = result at outcome ⊢
  cases outcome with
  | idle unloaded =>
    refine withDocument_current ?_ text h
    rw [Option.eq_none_iff_forall_ne_some]
    intro entry found
    obtain ⟨file, _, cached⟩ := treeOf?_eq_some_iff.mp found
    rw [ready_iff.mpr (tracked.loaded file entry cached)] at unloaded
    cases unloaded
  | failed ready unknown why => exact withDocument_current (treeOf?_of_unknown unknown) text h
  | outside ready unknown why => exact withDocument_current (treeOf?_of_unknown unknown) text h
  | unread log ready known missing =>
    exact withDocument_current ((treeOf?_of_known known).trans missing) text h
  | reread log known cached hl => exact reread_current known _ h
  | enrolled log new fits hl =>
    exact reread_current (DocumentIndex.idOf?_register new) _ (register_current tracked new log h)

/-- A scanned file that is open is read from the open text. -/
theorem addFile_current {g : Grammars} {disk : Disk} {ws : Workspace} (tracked : Tracked ws)
    (h : ws.Current) (domain : Domain) (path : Text) :
    (ws.addFile g disk domain path).1.Current := by
  have outcome := addFile_outcome g disk ws domain path
  generalize ws.addFile g disk domain path = result at outcome ⊢
  cases outcome with
  | endless named => exact h
  | unnamed log named => exact h
  | claimed named known => exact h
  | unreadable log named new closed => exact register_current tracked new log h
  | @read uri text file index named new found =>
    have registered := register_current tracked new ws.log h
    rcases indexFile_files g { ws with index } file (some domain) text with
      same | ⟨lang, d, _, _, same⟩
    · exact same.current registered
    · apply same.current
      apply withTree_current (DocumentIndex.idOf?_register new)
      · intro openText opened
        have opened : ws.documents.get? uri = some openText := opened
        rw [opened, Option.some_or] at found
        exact (Option.some.inj found).symm
      · exact fun other _ => registered other

theorem addFile_tracked {g : Grammars} {disk : Disk} {ws : Workspace} (tracked : Tracked ws)
    (domain : Domain) (path : Text) : Tracked (ws.addFile g disk domain path).1 :=
  (addFile_moves g disk ws domain path).preserve (fun _ _ => move_tracked) tracked

theorem scan_current {g : Grammars} {disk : Disk} {ws : Workspace} (tracked : Tracked ws)
    (h : ws.Current) (config : Config) (root : Text) : (ws.scan g disk config root).1.Current := by
  cases ready : ws.ready with
  | false =>
    rw [scan_of_idle g disk ready]
    exact h
  | true =>
    have started := move_tracked (g := g) tracked (.restart config)
    have both := scan_preserve (P := fun ws => Tracked ws ∧ ws.Current) g disk
      (fun ws log h => ⟨move_tracked (g := g) h.1 (.log log), h.2⟩)
      (fun ws roots h => ⟨move_tracked (g := g) h.1 (.roots roots), h.2⟩)
      (fun ws domain path h =>
        ⟨addFile_tracked h.1 domain path, addFile_current h.1 h.2 domain path⟩)
      root ready ⟨started, fun uri => currentAt_of_untracked rfl⟩
    exact both.2

theorem perform_current {g : Grammars} {ws : Workspace} (tracked : Tracked ws) (h : ws.Current)
    (op : Operation) : (ws.perform g op).Current := by
  cases op with
  | load => exact h
  | setConfig config => exact h
  | edit uri text => exact edit_current tracked h uri text
  | save uri => exact (save_sameFiles ws uri).current h
  | close uri =>
    intro other text entry opened found
    by_cases same : other = uri
    · subst same
      cases (Table.get?_erase_self ws.documents other).symm.trans opened
    · have opened := (Table.get?_erase_of_ne ws.documents same).symm.trans opened
      exact h other text entry opened found
  | reset => exact fun uri => currentAt_of_untracked rfl
  | scan disk config root => exact scan_current tracked h config root

theorem Reachable.current {g : Grammars} {ws : Workspace} (h : Reachable g ws) : ws.Current := by
  refine h.induction (P := Current) ?_ fun ws op reachable current =>
    perform_current reachable.tracked current op
  intro log uri text entry opened
  cases opened

/-! ### Positions -/

/-- A tree is what the grammars made of its text in some language. -/
theorem Reachable.read {g : Grammars} {ws : Workspace} (h : Reachable g ws) {file : FileId}
    {entry : FileTree} (cached : ws.trees.get? file = some entry) :
    ∃ lang, entry = readAs g lang entry.domain entry.text :=
  h.cached_of_read (P := fun entry => ∃ lang, entry = readAs g lang entry.domain entry.text)
    (fun lang _ _ => ⟨lang, rfl⟩) file entry cached

/-- A file that declares tags has no positions, and a template has those of its text. -/
theorem position?_of_tree {g : Grammars} {ws : Workspace} {uri text : Text} {domain : Domain}
    {lang : BackendLang} (ready : ws.ready = true)
    (found : ws.treeOf? uri = some (readAs g lang domain text)) (p : Point) (mode : Markup.Mode) :
    ws.position? g uri p mode =
      if domain.declaresTags then none else (g.markup text).position? p mode := by
  rw [position?, if_pos ready, found]
  cases domain with
  | template => rfl
  | javascript => rfl
  | backend => rfl

theorem position?_of_untracked {g : Grammars} {ws : Workspace} {uri text : Text}
    (ready : ws.ready = true) (opened : ws.documents.get? uri = some text)
    (untracked : ws.treeOf? uri = none) (p : Point) (mode : Markup.Mode) :
    ws.position? g uri p mode = (g.markup text).position? p mode := by
  rw [position?, if_pos ready, untracked, opened]
  rfl

/-- A script or backend file that is open has no positions, and any other open document has those
of its text. -/
theorem Reachable.position?_of_open {g : Grammars} {ws : Workspace} (h : Reachable g ws)
    {uri text : Text} (ready : ws.ready = true) (opened : ws.documents.get? uri = some text)
    (p : Point) (mode : Markup.Mode) : ws.position? g uri p mode =
      if (ws.treeOf? uri).any (·.domain.declaresTags) then none
      else (g.markup text).position? p mode := by
  cases found : ws.treeOf? uri with
  | none => exact position?_of_untracked ready opened found p mode
  | some entry =>
    have current := h.current uri text entry opened found
    obtain ⟨file, _, cached⟩ := treeOf?_eq_some_iff.mp found
    obtain ⟨lang, read⟩ := h.read cached
    rw [current] at read
    rw [read] at found
    rw [position?_of_tree ready found p mode, read]
    rfl

/-- After any run, the tree of an open document is what the grammars make of the open text, and of
the language in force when the language was kept. So a script or backend file that is open has no
positions, and any other open document has those of its text as if it had just been read. -/
theorem position_of_open_text (g : Grammars) (log : Log) (ops : List Operation) {uri text : Text}
    (opened : (run g (new log) ops).documents.get? uri = some text) :
    (∀ entry, (run g (new log) ops).treeOf? uri = some entry →
      (∃ lang, entry = readAs g lang entry.domain text) ∧
      (LanguageKept g (new log) ops → ∃ lang, (run g (new log) ops).trees.backend = some lang ∧
        entry = readAs g lang entry.domain text)) ∧
    ((run g (new log) ops).ready = true → ∀ p mode,
      (run g (new log) ops).position? g uri p mode =
        if ((run g (new log) ops).treeOf? uri).any (·.domain.declaresTags) then none
        else (g.markup text).position? p mode) := by
  have reachable : Reachable g (run g (new log) ops) := ⟨log, ops, rfl⟩
  constructor
  · intro entry found
    have current := reachable.current uri text entry opened found
    obtain ⟨file, _, cached⟩ := treeOf?_eq_some_iff.mp found
    constructor
    · exact current ▸ reachable.read cached
    · intro kept
      have inForce := (run_inStep ops (new_inStep g log) kept).inForce
      exact current ▸ inForce file entry cached
  · exact fun ready p mode => reachable.position?_of_open ready opened p mode

end Workspace

namespace Sample

def oneTag : Grammars where
  outline text :=
    .mk .document 0 text.length [.mk .element 0 text.length
      [.mk (.other "start_tag") 0 text.length
        [.mk .tagName 1 2 [], .mk .attr 3 (text.length - 1)
          [.mk .attrName 3 (text.length - 1) []]]]]
  comments _ _ := .ofSpans []
  foreign _ _ _ := []

def early : List Operation :=
  [.edit "file:///ws/web/x.html" "<p hx-get>", .load,
    .scan { entries := [.directory "ws" [.directory "web" [.file "x.html" "<p hx-put>"]]] }
      { lang := .python, templateExt := "html", templates := ["web"], jsTags := [],
        backendTags := [] } "/ws"]

end Sample

open Workspace in
/-- The scan takes up the open text, and the cursor is over the name that is written there. -/
theorem position_of_early_edit :
    ((run Sample.oneTag (new Sample.log) Sample.early).treeOf? "file:///ws/web/x.html").isSome ∧
    (run Sample.oneTag (new Sample.log) Sample.early).position? Sample.oneTag
      "file:///ws/web/x.html" ⟨0, 4⟩ .hover = some (.name "hx-get") := by
  have opened : (run Sample.oneTag (new Sample.log) Sample.early).documents.get?
      "file:///ws/web/x.html" = some (Text.ofString "<p hx-get>") := by decide
  have position := (position_of_open_text _ _ _ opened).2 rfl ⟨0, 4⟩ .hover
  exact ⟨by decide, position.trans (by decide)⟩

end Hypertag
