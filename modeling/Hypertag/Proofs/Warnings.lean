import Hypertag.Proofs.Alike
import Hypertag.Proofs.Definition

/-!
# Warnings about recorded conflicts

Warnings are made of all recorded conflicts and grouped by the uris of their files. Each file has a
uri of its own, so that a group is the row of one file and no conflict is left out.
-/

namespace Hypertag

/-- The rows of one key, when each key has one row. -/
theorem Table.flatMap_row {κ α : Type} [DecidableEq κ] (t : Table κ (List α)) (k : κ) :
    (t.entries.flatMap fun row => if row.1 = k then row.2 else []) = (t.get? k).getD [] := by
  obtain ⟨entries, nodup⟩ := t
  unfold get?
  induction entries with
  | nil => rfl
  | cons row rows ih =>
    rw [List.map_cons, List.nodup_cons] at nodup
    rw [List.flatMap_cons]
    by_cases h : row.1 = k
    · have rest : (rows.flatMap fun row => if row.1 = k then row.2 else []) = [] := by
        rw [List.flatMap_eq_nil_iff]
        intro other member
        rw [if_neg]
        rintro rfl
        exact nodup.1 (h ▸ List.mem_map_of_mem member)
      rw [if_pos h, rest, List.append_nil, List.find?_cons_of_pos (by simpa using h)]
      rfl
    · rw [if_neg h, List.nil_append, List.find?_cons_of_neg (by simpa using h)]
      exact ih nodup.2

/-! ### Warnings by uri -/

namespace Diagnostic

theorem getD_add (index : DocumentIndex) (byUri : Table Text (List Diagnostic)) (t : Tag)
    (uri : Text) : ((add index byUri t).get? uri).getD [] = (byUri.get? uri).getD [] ++
      if index.shownUri? t.file = some uri then [ofTag t] else [] := by
  unfold add
  cases shown : index.shownUri? t.file with
  | none => simp
  | some place =>
    by_cases same : place = uri
    · subst same
      simp
    · have other : uri ≠ place := Ne.symm same
      simp [Table.get?_set_of_ne byUri _ other, same]

/-- The warnings of a uri are those of the tags whose file is shown by it, in their order. -/
theorem getD_ofConflicts (index : DocumentIndex) (conflicts : List Tag) (uri : Text) :
    ((ofConflicts index conflicts).get? uri).getD [] =
      (conflicts.filter (index.shownUri? ·.file = some uri)).map ofTag := by
  have go : ∀ byUri : Table Text (List Diagnostic),
      ((conflicts.foldl (add index) byUri).get? uri).getD [] = (byUri.get? uri).getD [] ++
        (conflicts.filter (index.shownUri? ·.file = some uri)).map ofTag := by
    induction conflicts with
    | nil => simp
    | cons t conflicts ih =>
      intro byUri
      rw [List.foldl_cons, ih, getD_add, List.append_assoc]
      by_cases shown : index.shownUri? t.file = some uri
      · simp [shown]
      · simp [shown]
  exact go Table.empty

end Diagnostic

namespace Workspace

/-- The conflicts recorded for the file with a uri, as warnings. -/
def warnings (ws : Workspace) (uri : Text) : List Diagnostic :=
  match ws.index.idOf? uri with
  | none => []
  | some file => ((ws.conflicts.get? file).getD []).map Diagnostic.ofTag

theorem warnings_congr {a b : Workspace} (index : b.index = a.index)
    (conflicts : b.conflicts = a.conflicts) (uri : Text) : b.warnings uri = a.warnings uri := by
  rw [warnings, warnings, index, conflicts]

theorem Alike.diagnostics {a b : Workspace} (h : Alike a b) : b.diagnostics = a.diagnostics := by
  rw [Workspace.diagnostics, Workspace.diagnostics, allConflicts, allConflicts, h.index,
    h.conflicts]

/-- Every recorded conflict belongs to a file that has a uri. -/
theorem Reachable.conflict_uri {g : Grammars} {ws : Workspace} (h : Reachable g ws)
    {row : FileId × List Tag} (member : row ∈ ws.conflicts.entries) :
    (∃ uri, ws.index.idOf? uri = some row.1) ∧ ∀ t ∈ row.2, t.file = row.1 := by
  obtain ⟨query, consistent⟩ := h.accounted
  obtain ⟨⟨entry, cached, _⟩, files⟩ := consistent.row_isSource
    (fun _ _ => source_of_declaredUnder) (ws.conflicts.get?_eq_some_iff.mpr member)
  exact ⟨h.tracked.indexed row.1 entry cached, files⟩

theorem Reachable.shownUri?_iff {g : Grammars} {ws : Workspace} (h : Reachable g ws) {uri : Text}
    {file : FileId} : ws.index.shownUri? file = some uri ↔ ws.index.idOf? uri = some file := by
  constructor
  · intro shown
    have found : ws.index.uriOf? file = some uri := (Option.filter_eq_some_iff.mp shown).1
    exact ws.index.idOf?_eq_some_iff.mpr (ws.index.uriOf?_eq_some_iff.mp found)
  · exact h.shownUri?

/-- Grouping the conflicts by uri gives each file its own row. -/
theorem Reachable.diagnostics_eq {g : Grammars} {ws : Workspace} (h : Reachable g ws) (uri : Text) :
    (ws.diagnostics.get? uri).getD [] = ws.warnings uri := by
  have rows : ∀ row ∈ ws.conflicts.entries,
      row.2.filter (ws.index.shownUri? ·.file = some uri) =
        if ws.index.idOf? uri = some row.1 then row.2 else [] := by
    intro row member
    obtain ⟨_, files⟩ := h.conflict_uri member
    split
    · next known =>
      rw [List.filter_eq_self]
      intro t ht
      rw [files t ht, h.shownUri? known, decide_eq_true rfl]
    · next unknown =>
      rw [List.filter_eq_nil_iff]
      intro t ht shown
      rw [files t ht] at shown
      exact unknown (h.shownUri?_iff.mp (of_decide_eq_true shown))
  have shown : ws.allConflicts.filter (ws.index.shownUri? ·.file = some uri) =
      ws.conflicts.entries.flatMap fun row =>
        if ws.index.idOf? uri = some row.1 then row.2 else [] := by
    rw [allConflicts, Table.values, List.filter_flatten, List.map_map, List.flatMap_def]
    exact congrArg List.flatten (List.map_congr_left rows)
  rw [diagnostics, Diagnostic.getD_ofConflicts, shown, warnings]
  cases ws.index.idOf? uri with
  | none => simp
  | some file =>
    simp only [Option.some.injEq, eq_comm (a := file)]
    rw [Table.flatMap_row]

def Follows (g : Grammars) (ws : Workspace) : Prop := ∃ w, Reachable g w ∧ Alike w ws

theorem Follows.perform {g : Grammars} {ws : Workspace} (h : Follows g ws) (op : Operation) :
    Follows g (ws.perform g op) := by
  obtain ⟨w, reachable, alike⟩ := h
  exact ⟨w.perform g op, reachable.perform op, alike.perform g op⟩

theorem Follows.relog {g : Grammars} {ws : Workspace} (h : Follows g ws) (log : Log) :
    Follows g { ws with log } := by
  obtain ⟨w, reachable, alike⟩ := h
  exact ⟨w, reachable, alike.relog w.log log⟩

theorem Follows.diagnostics_eq {g : Grammars} {ws : Workspace} (h : Follows g ws) (uri : Text) :
    (ws.diagnostics.get? uri).getD [] = ws.warnings uri := by
  obtain ⟨w, reachable, alike⟩ := h
  rw [alike.diagnostics, reachable.diagnostics_eq, warnings_congr alike.index alike.conflicts]

/-- No conflict is left out for want of a uri. -/
theorem Follows.warned {g : Grammars} {ws : Workspace} (h : Follows g ws) {t : Tag}
    (recorded : t ∈ ws.allConflicts) :
    ∃ uri, ws.index.idOf? uri = some t.file ∧ Diagnostic.ofTag t ∈ ws.warnings uri := by
  obtain ⟨w, reachable, alike⟩ := h
  obtain ⟨tags, hrow, ht⟩ := List.mem_flatten.mp recorded
  obtain ⟨row, member, rfl⟩ := List.mem_map.mp hrow
  obtain ⟨⟨uri, known⟩, files⟩ := reachable.conflict_uri (alike.conflicts ▸ member)
  have file := files t ht
  have known : ws.index.idOf? uri = some t.file := by rw [alike.index, known, file]
  have found : ws.conflicts.get? t.file = some row.2 := by
    rw [file]
    exact ws.conflicts.get?_eq_some_iff.mpr member
  refine ⟨uri, known, ?_⟩
  simp only [warnings, known, found, Option.getD_some]
  exact List.mem_map_of_mem ht

end Workspace

end Hypertag
