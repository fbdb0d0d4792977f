import Hypertag.Proofs.Enrollment

/-!
# One file under several numbers

The index compares uris as they are written. A scan writes each file in one way, but an edit takes
the uri that the client wrote, and the client may write the path of a scanned file in another way.
Such a document is numbered a second time, and its tags are refused because of the scanned copy.
This is the only way to two numbers for one file.
-/

namespace Hypertag

namespace Workspace

/-- What a file declares of names that other files own is refused to it. -/
theorem reread_refuses {ws : Workspace} {uri : Text} {file : FileId} {read : FileTree}
    {t owner : Tag} (declared : t ∈ (ws.reread uri file read).1.declarations file)
    (owned : ws.tags.lookup t.name = some owner) (foreign : owner.file ≠ file) :
    t ∈ (ws.reread uri file read).2 := by
  rw [(reread_files ws uri file read).declarations] at declared
  have cached := withTree_get? (ws.withDocument uri read.text) file read
  cases found : ws.tagsIn? read with
  | none =>
    have silent : ((ws.withDocument uri read.text).withTree file read).declarations file = [] :=
      declarations_of_silent (by rw [cached]; exact found)
    rw [silent] at declared
    cases declared
  | some tags =>
    have new : ((ws.withDocument uri read.text).withTree file read).declarations file =
      tags.map (Tag.assign file) := declarations_of_tags cached found
    obtain ⟨log, updated⟩ := @updateTags_of_tags
      ((ws.withDocument uri read.text).withTree file read) file read tags found
    have stays : (ws.tags.reconcile file tags).1.lookup t.name = some owner := by
      rw [Registry.lookup_reconcile, owned, Option.filter_some, if_pos (decide_eq_true foreign)]
      rfl
    have free : (ws.tags.reconcile file tags).1.owns file t.name = false := by
      rw [Bool.eq_false_iff]
      intro owns
      obtain ⟨o, ho, mine⟩ := Registry.owns_iff.mp owns
      obtain rfl := Option.some.inj (stays.symm.trans ho)
      exact foreign mine
    rw [reread, updated]
    have refused := Registry.reconcile_refused_of_owns ws.tags file tags
    rw [new] at declared
    exact refused ▸ Tag.mem_withoutFirsts_of_free declared free

/-- What becomes of a document that an edit takes up: a number that no other document has, whatever
files the others are. What it declares of owned names is refused to it. -/
structure TakenUp (ws after : Workspace) (uri : Text) (file : FileId) (refused : List Tag) :
    Prop where
  numbered : after.index.idOf? uri = some file
  others : ∀ other number, ws.index.idOf? other = some number →
    after.index.idOf? other = some number ∧ number ≠ file
  refuses : ∀ t ∈ after.declarations file, ∀ owner, ws.tags.lookup t.name = some owner →
    t ∈ refused

/-- Owners have numbers of indexed documents, so that a new number is not among them. -/
theorem Reachable.owner_ne_new {g : Grammars} {ws : Workspace} (h : Reachable g ws) {uri : Text}
    {file : FileId} {index : DocumentIndex} (new : ws.index.register? uri = some (file, index))
    {name : Text} {owner : Tag} (owned : ws.tags.lookup name = some owner) : owner.file ≠ file := by
  obtain ⟨other, _, known, _⟩ := h.owner_tracked owned
  rintro rfl
  exact DocumentIndex.idOf?_ne_registered new other known

theorem edit_takes_up {g : Grammars} {ws : Workspace} (h : Reachable g ws) {uri : Text}
    {domain : Domain} (ready : ws.ready = true) (unknown : ws.index.idOf? uri = none)
    (fits : ws.classifyUri uri = .ok (some domain)) (text : Text) :
    ∃ file refused, (ws.edit g uri text).2 = .ok refused ∧
      TakenUp ws (ws.edit g uri text).1 uri file refused := by
  obtain ⟨lang, hl⟩ := ready_iff.mp ready
  obtain ⟨index, new⟩ := DocumentIndex.register?_of_unknown unknown
  obtain ⟨log, enrolled⟩ := enroll_of_new g h.tracked new hl domain text
  have indexed := (reread_files { ws with index, log } uri ws.index.next
    (readAs g lang domain text)).index
  rw [edit_of_unknown g ready unknown, fits]
  simp only [enrolled]
  refine ⟨ws.index.next, _, rfl, ?_, ?_, ?_⟩
  · rw [indexed]
    exact DocumentIndex.idOf?_register new
  · intro other number known
    have different : other ≠ uri := by
      rintro rfl
      cases unknown.symm.trans known
    rw [indexed]
    refine ⟨(DocumentIndex.idOf?_register_of_ne new different).trans known, ?_⟩
    rintro rfl
    exact DocumentIndex.idOf?_ne_registered new other known
  · intro t declared owner owned
    exact @reread_refuses { ws with index, log } _ _ _ _ _ declared owned (h.owner_ne_new new owned)

/-- A document that is taken up takes nothing from owners, as long as no query meets a tree of
another language. -/
theorem edit_keeps_owners {g : Grammars} {ws : Workspace} (h : Unmixed g ws) {uri : Text}
    {domain : Domain} (ready : ws.ready = true) (unknown : ws.index.idOf? uri = none)
    (fits : ws.classifyUri uri = .ok (some domain)) (text : Text) {name : Text} {owner : Tag}
    (owned : ws.tags.lookup name = some owner) :
    (ws.edit g uri text).1.tags.lookup name = some owner := by
  obtain ⟨lang, hl⟩ := ready_iff.mp ready
  obtain ⟨index, new⟩ := DocumentIndex.register?_of_unknown unknown
  obtain ⟨log, enrolled⟩ := enroll_of_new g h.inStep.tracked new hl domain text
  have settled : Settled { ws with index, log }.declarations ws.tags ws.conflicts := h.settled
  have foreign := h.reachable.owner_ne_new new owned
  rw [edit_of_unknown g ready unknown, fits]
  simp only [enrolled]
  cases found : ws.tagsIn? (readAs g lang domain text) with
  | none =>
    have same : ({ ws with index, log } : Workspace).reread uri ws.index.next
        (readAs g lang domain text) =
      ((({ ws with index, log } : Workspace).withDocument uri text).withTree ws.index.next
        (readAs g lang domain text), []) := updateTags_of_silent found
    rw [same]
    exact owned
  | some tags =>
    rw [(@reread_updated { ws with index, log } settled uri ws.index.next
      (readAs g lang domain text) tags found).owners]
    have before : ((({ ws with index, log } : Workspace).withDocument uri
      (readAs g lang domain text).text).withTree ws.index.next
        (readAs g lang domain text)).tags.lookup name = some owner := owned
    rw [before, Option.filter_some, if_pos (decide_eq_true foreign)]
    rfl

/-- After any run, two uris of one file are indexed only if one of them is not canonical and was
taken up by an edit. And every edit of an unknown document in the project takes it up under a
number of its own, also when its file is indexed under another uri; where no query has met a tree of
another language, the owners of all names stay. -/
theorem numbers_of_one_file (g : Grammars) (log : Log) (ops : List Operation) :
    (∀ u v i j, (run g (new log) ops).index.idOf? u = some i →
      (run g (new log) ops).index.idOf? v = some j → u ≠ v → Uri.SameFile u v →
      ∃ w, (w = u ∨ w = v) ∧ ¬ Uri.Canonical w ∧ EnrolledBy g (new log) ops w) ∧
    ∀ uri text domain, (run g (new log) ops).ready = true →
      (run g (new log) ops).index.idOf? uri = none →
      (run g (new log) ops).classifyUri uri = .ok (some domain) →
      ∃ file refused, ((run g (new log) ops).edit g uri text).2 = .ok refused ∧
        TakenUp (run g (new log) ops) ((run g (new log) ops).edit g uri text).1 uri file
          refused ∧
        (LanguageKept g (new log) ops → ∀ name owner,
          (run g (new log) ops).tags.lookup name = some owner →
            ((run g (new log) ops).edit g uri text).1.tags.lookup name = some owner) := by
  constructor
  · intro u v i j hu hv different same
    have enrolled : ∀ w number, (run g (new log) ops).index.idOf? w = some number →
        ¬ Uri.Canonical w → EnrolledBy g (new log) ops w := fun w number known other =>
      (indexed_of_run g log ops known).2.resolve_left other
    by_cases canonical : Uri.Canonical u
    · have other : ¬ Uri.Canonical v := fun both => different (canonical.eq_of_sameFile both same)
      exact ⟨v, Or.inr rfl, other, enrolled v j hv other⟩
    · exact ⟨u, Or.inl rfl, canonical, enrolled u i hu canonical⟩
  · intro uri text domain ready unknown fits
    obtain ⟨file, refused, answer, taken⟩ :=
      edit_takes_up (g := g) ⟨log, ops, rfl⟩ ready unknown fits text
    refine ⟨file, refused, answer, taken, ?_⟩
    intro kept name owner owned
    exact edit_keeps_owners ⟨log, ops, kept, rfl⟩ ready unknown fits text owned

end Workspace

namespace Sample

def plusScan : List Operation :=
  [.load, .scan { entries := [.directory "ws" [.directory "app" [.file "a+b.py" "# hx@a"]]] }
    (config .python) "/ws"]

def plusOpened : List Operation := plusScan ++ [.edit "file:///ws/app/a+b.py" "# hx@a"]

theorem sameFile_plus :
    Uri.SameFile "file:///ws/app/a+b.py" "file:///ws/app/a%2Bb.py" :=
  ⟨_, _, rfl, rfl, by decide⟩

end Sample

open Workspace

/-- The uri that the client wrote is the one that is not canonical. -/
theorem numbers_of_plus :
    (∃ w, (w = Text.ofString "file:///ws/app/a+b.py" ∨
        w = Text.ofString "file:///ws/app/a%2Bb.py") ∧ ¬ Uri.Canonical w ∧
      EnrolledBy Sample.grammars (new Sample.log) Sample.plusOpened w) ∧
    ∃ file refused,
      ((run Sample.grammars (new Sample.log) Sample.plusScan).edit Sample.grammars
        "file:///ws/app/a+b.py" "# hx@a").2 = .ok refused ∧
      TakenUp (run Sample.grammars (new Sample.log) Sample.plusScan)
        ((run Sample.grammars (new Sample.log) Sample.plusScan).edit Sample.grammars
          "file:///ws/app/a+b.py" "# hx@a").1 "file:///ws/app/a+b.py" file refused ∧
      ((run Sample.grammars (new Sample.log) Sample.plusScan).edit Sample.grammars
        "file:///ws/app/a+b.py" "# hx@a").1.tags.lookup "hx@a" = some ⟨"hx@a", 2, 6, 0, 0⟩ := by
  have enrolled := (numbers_of_one_file Sample.grammars Sample.log Sample.plusOpened).1 _ _ 1 0
    (by decide) (by decide) (by decide) Sample.sameFile_plus
  have kept : LanguageKept Sample.grammars (new Sample.log) Sample.plusScan :=
    ⟨trivial, trivial, trivial⟩
  obtain ⟨file, refused, answer, taken, stay⟩ :=
    (numbers_of_one_file Sample.grammars Sample.log Sample.plusScan).2 "file:///ws/app/a+b.py"
      "# hx@a" .backend (by decide) (by decide) rfl
  exact ⟨enrolled, file, refused, answer, taken, stay kept "hx@a" _ (by decide)⟩

/-- One file has two numbers, and its tag is refused because of itself. -/
theorem one_file_two_numbers :
    Reachable Sample.grammars (run Sample.grammars (new Sample.log) Sample.plusOpened) ∧
    Uri.SameFile "file:///ws/app/a+b.py" "file:///ws/app/a%2Bb.py" ∧
    (run Sample.grammars (new Sample.log) Sample.plusOpened).index.idOf?
      "file:///ws/app/a%2Bb.py" = some 0 ∧
    (run Sample.grammars (new Sample.log) Sample.plusOpened).index.idOf?
      "file:///ws/app/a+b.py" = some 1 ∧
    (run Sample.grammars (new Sample.log) Sample.plusOpened).tags.tags =
      [⟨"hx@a", 2, 6, 0, 0⟩] ∧
    (run Sample.grammars (new Sample.log) Sample.plusOpened).allConflicts =
      [⟨"hx@a", 2, 6, 1, 0⟩] :=
  ⟨⟨_, _, rfl⟩, Sample.sameFile_plus, by decide, by decide, by decide, by decide⟩

end Hypertag
