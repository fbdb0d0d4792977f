import Hypertag.Proofs.CanonicalUri
import Hypertag.Proofs.Repetition
import Mathlib.Data.List.Induction

/-!
# How documents get into the index

There are two ways. A scan names the files that it finds by their canonical paths, and an edit
enrolls the document under the uri that the client gave it. Whatever is indexed at the end of a
run was found by the last scan, or enrolled by an edit with no scan or reset behind it.
-/

namespace Hypertag

theorem Disk.canonicalUri_canonical {disk : Disk} {path uri : Text}
    (named : disk.canonicalUri path = .ok uri) : Uri.Canonical uri := by
  unfold canonicalUri at named
  cases real : disk.canonical path with
  | error e =>
    rw [real] at named
    cases named
  | ok p =>
    rw [real] at named
    cases named
    exact ⟨Path.render p, rfl, rfl⟩

def Operation.forgets : Operation → Bool
  | .reset => true
  | .scan _ _ _ => true
  | _ => false

namespace Workspace

/-- A uri that has a domain is that of a file, and can be read. -/
theorem classifyUri_eq_some {ws : Workspace} {uri : Text} {domain : Domain} :
    ws.classifyUri uri = .ok (some domain) ↔ ∃ config u, ws.config = some config ∧
      Uri.parse uri = .ok u ∧ u.scheme = Uri.fileScheme ∧
      domainOfPath? config ws.roots u.filePath = some domain := by
  unfold classifyUri
  cases ws.config with
  | none => simp
  | some config =>
    cases Uri.parse uri with
    | error e => simp [Except.map]
    | ok u => simp [Except.map]

/-- The empty uri lies in no project directory. -/
theorem ne_nil_of_classifyUri {ws : Workspace} {uri : Text} {domain : Domain}
    (fits : ws.classifyUri uri = .ok (some domain)) : uri ≠ [] := by
  rintro rfl
  cases settings : ws.config with
  | none => simp [classifyUri, settings] at fits
  | some config =>
    have top : Uri.parse [] = .ok ⟨Uri.fileScheme, [], [Uri.slash]⟩ := by decide
    have path : (Uri.mk Uri.fileScheme [] [Uri.slash]).filePath = [Uri.slash] := by decide
    have extension : Path.extension? [Uri.slash] = none := by decide
    have unclassified : config.classify [Uri.slash] = [] := by
      simp [Config.classify, Domain.classify, extension]
    have outside : domainOfPath? config ws.roots [Uri.slash] = none := by
      simp [domainOfPath?, unclassified]
    simp [classifyUri, settings, top, path, Except.map, outside] at fits

/-! ### What an operation does to the index -/

/-- An edit adds at most its own document, when that was unknown and lies in the project. -/
theorem edit_index {g : Grammars} {ws : Workspace} (tracked : Tracked ws) {uri text other : Text}
    {file : FileId} (known : (ws.edit g uri text).1.index.idOf? other = some file) :
    ws.index.idOf? other = some file ∨ other = uri ∧ ws.ready = true ∧
      ws.index.idOf? uri = none ∧ ∃ domain, ws.classifyUri uri = .ok (some domain) := by
  have outcome := edit_outcome g tracked uri text
  generalize ws.edit g uri text = result at outcome known
  cases outcome with
  | idle unloaded => exact Or.inl known
  | failed ready unknown why => exact Or.inl known
  | outside ready unknown why => exact Or.inl known
  | unread log ready seen missing => exact Or.inl known
  | reread log seen cached hl =>
    have known : (ws.reread uri _ (readAs g _ _ text)).1.index.idOf? other = some file := known
    rw [(reread_files ws uri _ _).index] at known
    exact Or.inl known
  | @enrolled number index domain lang log new fits hl =>
    rw [(reread_files _ uri number _).index] at known
    by_cases same : other = uri
    · exact Or.inr ⟨same, ready_iff.mpr ⟨lang, hl⟩, DocumentIndex.unknown_of_register new, domain,
        fits⟩
    · exact Or.inl ((DocumentIndex.idOf?_register_of_ne new same).symm.trans known)

/-- An edit of an unknown document reads it in the domain of its uri, if there is one. -/
theorem domain_of_edit {g : Grammars} {ws : Workspace} (tracked : Tracked ws) {uri : Text}
    (ready : ws.ready = true) (unknown : ws.index.idOf? uri = none) {domain : Option Domain}
    (fits : ws.classifyUri uri = .ok domain) (text : Text) :
    ((ws.edit g uri text).1.treeOf? uri).map CachedTree.domain = domain := by
  rw [edit_of_unknown g ready unknown, fits]
  cases domain with
  | none =>
    have untracked : (ws.withDocument uri text).index.idOf? uri = none := unknown
    simp [treeOf?, untracked]
  | some domain =>
    obtain ⟨lang, hl⟩ := ready_iff.mp ready
    obtain ⟨index, new⟩ := DocumentIndex.register?_of_unknown unknown
    obtain ⟨log, enrolled⟩ := enroll_of_new g tracked new hl domain text
    have cached := reread_cached { ws with index, log } uri ws.index.next
      (readAs g lang domain text)
    have indexed := (reread_files { ws with index, log } uri ws.index.next
      (readAs g lang domain text)).index
    have known : (({ ws with index, log } : Workspace).reread uri ws.index.next
        (readAs g lang domain text)).1.index.idOf? uri = some ws.index.next := by
      rw [indexed]
      exact DocumentIndex.idOf?_register new
    simp only [enrolled, treeOf?, known, Option.bind_some, cached]
    rfl

/-- An operation that forgets nothing adds at most the document that it edits. -/
theorem perform_index {g : Grammars} {ws : Workspace} (tracked : Tracked ws) {op : Operation}
    (keeps : op.forgets = false) {uri : Text} {file : FileId}
    (known : (ws.perform g op).index.idOf? uri = some file) :
    ws.index.idOf? uri = some file ∨ ∃ text, op = .edit uri text ∧ ws.ready = true ∧
      ws.index.idOf? uri = none ∧ ∃ domain, ws.classifyUri uri = .ok (some domain) := by
  cases op with
  | load => exact Or.inl known
  | setConfig config => exact Or.inl known
  | edit other text =>
    rcases edit_index tracked known with old | ⟨rfl, enrolled⟩
    · exact Or.inl old
    · exact Or.inr ⟨text, rfl, enrolled⟩
  | save other =>
    have known : (ws.save other).1.index.idOf? uri = some file := known
    rw [(save_sameFiles ws other).index] at known
    exact Or.inl known
  | close other => exact Or.inl known
  | reset => cases keeps
  | scan disk config root => cases keeps

/-- An operation that forgets nothing leaves known documents their numbers. -/
theorem perform_keeps {g : Grammars} {ws : Workspace} (tracked : Tracked ws) {op : Operation}
    (keeps : op.forgets = false) {uri : Text} {file : FileId}
    (known : ws.index.idOf? uri = some file) :
    (ws.perform g op).index.idOf? uri = some file := by
  cases op with
  | load => exact known
  | setConfig config => exact known
  | edit other text =>
    change (ws.edit g other text).1.index.idOf? uri = some file
    have outcome := edit_outcome g tracked other text
    generalize ws.edit g other text = result at outcome ⊢
    cases outcome with
    | idle unloaded => exact known
    | failed ready unknown why => exact known
    | outside ready unknown why => exact known
    | unread log ready seen missing => exact known
    | reread log seen cached hl =>
      change (ws.reread other _ (readAs g _ _ text)).1.index.idOf? uri = some file
      rw [(reread_files ws other _ _).index]
      exact known
    | @enrolled number index domain lang log new fits hl =>
      rw [(reread_files _ other number _).index]
      exact DocumentIndex.idOf?_register_of_known new known
  | save other =>
    change (ws.save other).1.index.idOf? uri = some file
    rw [(save_sameFiles ws other).index]
    exact known
  | close other => exact known
  | reset => cases keeps
  | scan disk config root => cases keeps

/-- An edit is none of the roots' and the settings' business. -/
theorem edit_frame {g : Grammars} {ws : Workspace} (tracked : Tracked ws) (uri text : Text) :
    (ws.edit g uri text).1.roots = ws.roots ∧ (ws.edit g uri text).1.config = ws.config := by
  have outcome := edit_outcome g tracked uri text
  generalize ws.edit g uri text = result at outcome ⊢
  cases outcome with
  | idle unloaded => exact ⟨rfl, rfl⟩
  | failed ready unknown why => exact ⟨rfl, rfl⟩
  | outside ready unknown why => exact ⟨rfl, rfl⟩
  | unread log ready seen missing => exact ⟨rfl, rfl⟩
  | reread log seen cached hl =>
    exact ⟨(reread_files ws uri _ _).roots, (reread_files ws uri _ _).config⟩
  | enrolled log new fits hl =>
    exact ⟨(reread_files _ uri _ _).roots, (reread_files _ uri _ _).config⟩

/-- Only a scan records roots. -/
theorem perform_roots {g : Grammars} {ws : Workspace} (tracked : Tracked ws) {op : Operation}
    (unscanned : ∀ disk config root, op ≠ .scan disk config root) :
    (ws.perform g op).roots = ws.roots := by
  cases op with
  | load => rfl
  | setConfig config => rfl
  | edit other text => exact (edit_frame tracked other text).1
  | save other => exact (save_sameFiles ws other).roots
  | close other => rfl
  | reset => rfl
  | scan disk config root => exact absurd rfl (unscanned disk config root)

/-- A scan names what it finds by canonical paths. -/
theorem scan_index {g : Grammars} {disk : Disk} {ws : Workspace} (ready : ws.ready = true)
    {config : Config} {root uri : Text} {file : FileId}
    (known : (ws.scan g disk config root).1.index.idOf? uri = some file) :
    ∃ path, disk.canonicalUri path = .ok uri := by
  refine scan_preserve (P := fun ws => ∀ uri file, ws.index.idOf? uri = some file →
      ∃ path, disk.canonicalUri path = .ok uri) g disk
    (fun _ _ h => h) (fun _ _ h => h) ?_ root ready ?_ uri file known
  · intro ws domain path h uri file known
    have outcome := addFile_outcome g disk ws domain path
    generalize ws.addFile g disk domain path = result at outcome known
    have registered : ∀ {new number index}, disk.canonicalUri path = .ok new →
        ws.index.register? new = some (number, index) → index.idOf? uri = some file →
        ∃ path, disk.canonicalUri path = .ok uri := by
      intro new number index named added known
      by_cases same : uri = new
      · exact ⟨path, same ▸ named⟩
      · exact h uri file ((DocumentIndex.idOf?_register_of_ne added same).symm.trans known)
    cases outcome with
    | endless named => exact h uri file known
    | unnamed log named => exact h uri file known
    | claimed named taken => exact h uri file known
    | unreadable log named new closed => exact registered named new known
    | @read _ text number index named new found =>
      refine registered named new ?_
      rcases indexFile_files g { ws with index } number (some domain) text with
        same | ⟨_, _, _, _, same⟩
      · rw [same.index] at known
        exact known
      · rw [same.index] at known
        exact known
  · intro uri file known
    cases known

theorem move_ready {g : Grammars} {a b : Workspace} (h : a.ready = true) (move : Move g a b) :
    b.ready = true := by
  rw [ready_iff] at h ⊢
  obtain ⟨lang, hl⟩ := h
  cases move with
  | log log => exact ⟨lang, hl⟩
  | documents documents => exact ⟨lang, hl⟩
  | roots roots => exact ⟨lang, hl⟩
  | register new => exact ⟨lang, hl⟩
  | read known domain text =>
    rcases indexFile_files g a _ domain text with same | ⟨_, _, _, _, same⟩
    · exact ⟨lang, by rw [same.trees, hl]⟩
    · exact ⟨lang, by rw [same.trees]; exact hl⟩
  | retag cached source => exact ⟨lang, by rw [(updateTags_sameFiles a _ _).trees, hl]⟩
  | forget => exact ⟨lang, hl⟩
  | load => exact ⟨_, rfl⟩
  | restart config => exact ⟨config.lang, by simp [setConfig, reset, TreeCache.switch, hl,
      TreeCache.clear]⟩

/-- Grammars once loaded stay loaded. -/
theorem perform_ready {g : Grammars} {ws : Workspace} (h : ws.ready = true) (op : Operation) :
    (ws.perform g op).ready = true := by
  rcases perform_moves g ws op with moves | ⟨config, _, configured⟩
  · exact moves.preserve (fun _ _ => move_ready) h
  · obtain ⟨lang, hl⟩ := ready_iff.mp h
    rw [configured, ready_iff]
    exact ⟨config.lang, by simp [setConfig, TreeCache.switch, hl]⟩

/-! ### What a run does to the index -/

/-- Whether a run enrolls a document by an edit and does not forget it again. At the edit the
document is unknown and lies in the project. -/
def EnrolledBy (g : Grammars) (start : Workspace) (ops : List Operation) (uri : Text) : Prop :=
  ∃ before text after, ops = before ++ .edit uri text :: after ∧
    (run g start before).index.idOf? uri = none ∧
    (∃ domain, (run g start before).classifyUri uri = .ok (some domain)) ∧
    ∀ op ∈ after, op.forgets = false

theorem EnrolledBy.snoc {g : Grammars} {start : Workspace} {ops : List Operation} {uri : Text}
    (h : EnrolledBy g start ops uri) {op : Operation} (keeps : op.forgets = false) :
    EnrolledBy g start (ops ++ [op]) uri := by
  obtain ⟨before, text, after, rfl, unknown, fits, kept⟩ := h
  refine ⟨before, text, after ++ [op], by simp, unknown, fits, ?_⟩
  intro o ho
  rcases List.mem_append.mp ho with old | new
  · exact kept o old
  · exact List.mem_singleton.mp new ▸ keeps

/-- Whatever is indexed at the end of a run has a canonical uri or was enrolled by an edit. -/
theorem indexed_of_run (g : Grammars) (log : Log) (ops : List Operation) {uri : Text}
    {file : FileId} (known : (run g (new log) ops).index.idOf? uri = some file) :
    (run g (new log) ops).ready = true ∧
      (Uri.Canonical uri ∨ EnrolledBy g (new log) ops uri) := by
  induction ops using List.reverseRecOn generalizing file with
  | nil => cases known
  | append_singleton ops op ih =>
    have tracked : Tracked (run g (new log) ops) := Reachable.tracked ⟨log, ops, rfl⟩
    rw [run_snoc] at known ⊢
    cases forgets : op.forgets with
    | false =>
      rcases perform_index tracked forgets known with old | ⟨text, rfl, ready, unknown, fits⟩
      · obtain ⟨ready, origin⟩ := ih old
        exact ⟨perform_ready ready op, origin.imp_right fun h => h.snoc forgets⟩
      · exact ⟨perform_ready ready _, Or.inr ⟨ops, text, [], rfl, unknown, fits, by simp⟩⟩
    | true =>
      cases op with
      | reset => cases known
      | scan disk config root =>
        cases ready : (run g (new log) ops).ready with
        | true =>
          obtain ⟨path, named⟩ := scan_index ready known
          exact ⟨perform_ready ready _, Or.inl (Disk.canonicalUri_canonical named)⟩
        | false =>
          have known : ((run g (new log) ops).scan g disk config root).1.index.idOf? uri =
            some file := known
          rw [scan_of_idle g disk ready] at known
          cases ready.symm.trans (ih known).1
      | load => cases forgets
      | setConfig config => cases forgets
      | edit other text => cases forgets
      | save other => cases forgets
      | close other => cases forgets

/-- No document with an empty uri is indexed. -/
theorem Reachable.uri_ne_nil {g : Grammars} {ws : Workspace} (h : Reachable g ws) {uri : Text}
    {file : FileId} (known : ws.index.idOf? uri = some file) : uri ≠ [] := by
  obtain ⟨log, ops, rfl⟩ := h
  obtain ⟨_, origin⟩ := indexed_of_run g log ops known
  rcases origin with ⟨path, _, rfl⟩ | ⟨_, _, _, _, _, ⟨domain, fits⟩, _⟩
  · exact Uri.ofPath_ne_nil path
  · exact ne_nil_of_classifyUri fits

end Workspace

end Hypertag
