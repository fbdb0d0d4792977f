import Hypertag.Document.TreeCache
import Mathlib.Data.List.Induction

/-!
# The tree cache and its history

An entry depends on two calls of the past. The first one that could be read gives the domain, and
the last one gives the text and the language it is read in. So the cache is measured against the
whole list of calls that were made to it: which call came first and which came last is said by
cutting that list, without looking at a cache. Nothing is said about the order of the entries.
-/

namespace Hypertag

inductive CacheCall where
  | upsert (file : FileId) (domain : Option Domain) (text : Text)
  | clear
  | load (lang : BackendLang)
  | switch (lang : BackendLang)

namespace CacheCall

def inForce (start : Option BackendLang) (calls : List CacheCall) : Option BackendLang :=
  calls.foldl (fun lang call => match call with
    | .load next => some next
    | .switch next => lang.map fun _ => next
    | .upsert _ _ _ => lang
    | .clear => lang) start

theorem inForce_upsert (start : Option BackendLang) (calls : List CacheCall) (file : FileId)
    (domain : Option Domain) (text : Text) :
    inForce start (calls ++ [.upsert file domain text]) = inForce start calls := by
  simp [inForce]

/-- Grammars stay loaded. -/
theorem inForce_append_isSome {start : Option BackendLang} {calls : List CacheCall}
    (loaded : (inForce start calls).isSome) (later : List CacheCall) :
    (inForce start (calls ++ later)).isSome := by
  induction later using List.reverseRecOn with
  | nil => simpa using loaded
  | append_singleton later call ih =>
    rw [← List.append_assoc, inForce, List.foldl_append]
    cases call with
    | upsert file domain text => exact ih
    | clear => exact ih
    | load lang => rfl
    | switch lang => simpa [inForce] using ih

/-- A call between two parts of a history that has a file read, whatever was known of it before:
it comes with a domain, grammars are loaded, and what was read is not cleared. -/
structure Starts (start : Option BackendLang) (calls : List CacheCall) (file : FileId)
    (domain : Domain) (earlier later : List CacheCall) : Prop where
  call : ∃ text, calls = earlier ++ .upsert file (some domain) text :: later
  loaded : (inForce start earlier).isSome
  kept : .clear ∉ later

structure StartsFirst (start : Option BackendLang) (calls : List CacheCall) (file : FileId)
    (domain : Domain) (earlier later : List CacheCall) : Prop
    extends Starts start calls file domain earlier later where
  first : ∀ {other before after}, Starts start calls file other before after →
    earlier.length ≤ before.length

/-- The last text that came for a file, with the calls before it. -/
structure ComesLast (calls : List CacheCall) (file : FileId) (text : Text)
    (earlier : List CacheCall) : Prop where
  call : ∃ given later, calls = earlier ++ .upsert file given text :: later ∧
    ∀ domain other, .upsert file domain other ∉ later

/-- One more call keeps what was read unless it clears the cache, and may have the file read. -/
theorem starts_snoc {start : Option BackendLang} {calls : List CacheCall} {call : CacheCall}
    {file : FileId} {domain : Domain} {earlier later : List CacheCall} :
    Starts start (calls ++ [call]) file domain earlier later ↔
      (call ≠ .clear ∧ ∃ before, later = before ++ [call] ∧
        Starts start calls file domain earlier before) ∨
      (earlier = calls ∧ later = [] ∧ (∃ text, call = .upsert file (some domain) text) ∧
        (inForce start calls).isSome) := by
  constructor
  · rintro ⟨⟨text, split⟩, loaded, kept⟩
    rcases List.eq_nil_or_concat later with rfl | ⟨before, last, rfl⟩
    · obtain ⟨rfl, same⟩ := List.append_inj' split rfl
      exact Or.inr ⟨rfl, rfl, ⟨text, List.singleton_inj.mp same⟩, loaded⟩
    · rw [List.concat_eq_append] at split kept ⊢
      rw [← List.cons_append, ← List.append_assoc] at split
      obtain ⟨rest, same⟩ := List.append_inj' split rfl
      obtain rfl := List.singleton_inj.mp same
      simp only [List.mem_append, List.mem_singleton, not_or] at kept
      exact Or.inl ⟨Ne.symm kept.2, before, rfl, ⟨text, rest⟩, loaded, kept.1⟩
  · rintro (⟨other, before, rfl, ⟨text, rfl⟩, loaded, kept⟩ | ⟨rfl, rfl, ⟨text, rfl⟩, loaded⟩)
    · refine ⟨⟨text, by simp⟩, loaded, ?_⟩
      simp [kept, Ne.symm other]
    · exact ⟨⟨text, rfl⟩, loaded, by simp⟩

theorem Starts.snoc {start : Option BackendLang} {calls earlier later : List CacheCall}
    {file : FileId} {domain : Domain} (h : Starts start calls file domain earlier later)
    {call : CacheCall} (other : call ≠ .clear) :
    Starts start (calls ++ [call]) file domain earlier (later ++ [call]) :=
  starts_snoc.mpr (Or.inl ⟨other, later, rfl, h⟩)

theorem Starts.length_le {start : Option BackendLang} {calls earlier later : List CacheCall}
    {file : FileId} {domain : Domain} (h : Starts start calls file domain earlier later) :
    earlier.length ≤ calls.length := by
  obtain ⟨text, rfl⟩ := h.call
  simp

/-- The first call stays the first one. -/
theorem StartsFirst.snoc {start : Option BackendLang} {calls earlier later : List CacheCall}
    {file : FileId} {domain : Domain} (h : StartsFirst start calls file domain earlier later)
    {call : CacheCall} (other : call ≠ .clear) :
    StartsFirst start (calls ++ [call]) file domain earlier (later ++ [call]) where
  toStarts := h.toStarts.snoc other
  first := by
    intro _ before after starts
    rcases starts_snoc.mp starts with ⟨_, rest, _, old⟩ | ⟨rfl, _⟩
    · exact h.first old
    · exact h.length_le

/-- Two histories that start an entry first have the same domain. -/
theorem StartsFirst.unique {start : Option BackendLang} {calls : List CacheCall} {file : FileId}
    {d d' : Domain} {earlier later earlier' later' : List CacheCall}
    (h : StartsFirst start calls file d earlier later)
    (h' : StartsFirst start calls file d' earlier' later') : d = d' ∧ earlier = earlier' := by
  have length : earlier.length = earlier'.length :=
    Nat.le_antisymm (h.first h'.toStarts) (h'.first h.toStarts)
  obtain ⟨text, split⟩ := h.call
  obtain ⟨text', split'⟩ := h'.call
  obtain ⟨same, rest⟩ := List.append_inj (split.symm.trans split') length
  injection (List.cons.inj rest).1 with _ domains _
  exact ⟨Option.some.inj domains, same⟩

theorem ComesLast.unique {calls : List CacheCall} {file : FileId} {text text' : Text}
    {earlier earlier' : List CacheCall} (h : ComesLast calls file text earlier)
    (h' : ComesLast calls file text' earlier') : text = text' ∧ earlier = earlier' := by
  obtain ⟨given, later, split, last⟩ := h.call
  obtain ⟨given', later', split', last'⟩ := h'.call
  rcases List.append_eq_append_iff.mp (split.symm.trans split') with
    ⟨between, rfl, rest⟩ | ⟨between, rfl, rest⟩
  · cases between with
    | nil =>
      injection (List.cons.inj rest).1 with _ _ same
      exact ⟨same, by simp⟩
    | cons call between =>
      have again := (List.cons.inj rest).2
      exact absurd (again ▸ List.mem_append_right _ List.mem_cons_self) (last given' text')
  · cases between with
    | nil =>
      injection (List.cons.inj rest).1 with _ _ same
      exact ⟨same.symm, by simp⟩
    | cons call between =>
      have again := (List.cons.inj rest).2
      exact absurd (again ▸ List.mem_append_right _ List.mem_cons_self) (last' given text)

/-- A call that brings no text for the file. -/
theorem ComesLast.snoc {calls : List CacheCall} {file : FileId} {text : Text}
    {earlier : List CacheCall} (h : ComesLast calls file text earlier) {call : CacheCall}
    (other : ∀ domain later, call ≠ .upsert file domain later) :
    ComesLast (calls ++ [call]) file text earlier := by
  obtain ⟨given, later, rfl, last⟩ := h.call
  refine ⟨given, later ++ [call], by simp, ?_⟩
  intro domain text member
  rcases List.mem_append.mp member with old | new
  · exact last domain text old
  · exact other domain text (List.mem_singleton.mp new).symm

end CacheCall

open CacheCall

namespace TreeCache

variable {τ : Type} (parse : Grammar → Text → τ)

def perform (c : TreeCache τ) : CacheCall → TreeCache τ
  | .upsert file domain text => (c.upsert parse file domain text).1
  | .clear => c.clear
  | .load lang => c.load lang
  | .switch lang => c.switch lang

/-- A new cache after some calls; `start` is the backend language of grammars that it is made
with. -/
def after (start : Option BackendLang) (calls : List CacheCall) : TreeCache τ :=
  calls.foldl (perform parse) (empty start)

theorem after_snoc (start : Option BackendLang) (calls : List CacheCall) (call : CacheCall) :
    after parse start (calls ++ [call]) = (after parse start calls).perform parse call := by
  simp [after]

/-- What the history says about an entry: its domain came with the first call that had the file
read, its text with the last one, and its tree is that text read in that domain, with the backend
language that was in force when the text came. -/
structure Recalls (start : Option BackendLang) (calls : List CacheCall) (file : FileId)
    (entry : CachedTree τ) : Prop where
  reading : ∃ first behind last lang, StartsFirst start calls file entry.domain first behind ∧
    ComesLast calls file entry.text last ∧ first.length ≤ last.length ∧
    inForce start last = some lang ∧ entry.tree = parse (entry.domain.grammar lang) entry.text

variable {parse}

theorem Recalls.unique {start : Option BackendLang} {calls : List CacheCall} {file : FileId}
    {entry other : CachedTree τ} (h : Recalls parse start calls file entry)
    (h' : Recalls parse start calls file other) : entry = other := by
  obtain ⟨first, behind, last, lang, starts, comes, _, inForce, tree⟩ := h.reading
  obtain ⟨first', behind', last', lang', starts', comes', _, inForce', tree'⟩ := h'.reading
  obtain ⟨domains, rfl⟩ := starts.unique starts'
  obtain ⟨texts, rfl⟩ := comes.unique comes'
  obtain rfl : lang = lang' := Option.some.inj (inForce.symm.trans inForce')
  cases entry
  cases other
  simp only at domains texts tree tree'
  subst domains texts
  rw [tree, tree']

/-- A call that neither clears the cache nor brings a text for the file. -/
theorem Recalls.snoc {start : Option BackendLang} {calls : List CacheCall} {file : FileId}
    {entry : CachedTree τ} (h : Recalls parse start calls file entry) {call : CacheCall}
    (kept : call ≠ .clear) (other : ∀ domain text, call ≠ .upsert file domain text) :
    Recalls parse start (calls ++ [call]) file entry := by
  obtain ⟨first, behind, last, lang, starts, comes, order, inForce, tree⟩ := h.reading
  exact ⟨first, behind ++ [call], last, lang, starts.snoc kept, comes.snoc other, order, inForce,
    tree⟩

/-- What a text for a file does to the entries. -/
theorem get?_upsert (c : TreeCache τ) (file : FileId) (domain : Option Domain) (text : Text) :
    (∃ lang d, c.backend = some lang ∧ c.domainFor? file domain = some d ∧
      ∀ other, (c.upsert parse file domain text).1.get? other =
        if other = file then some ⟨d, text, parse (d.grammar lang) text⟩ else c.get? other) ∨
    (c.backend = none ∨ c.domainFor? file domain = none) ∧
      (c.upsert parse file domain text).1 = c := by
  unfold upsert
  split
  · next lang d backend domainFor =>
    refine Or.inl ⟨lang, d, backend, domainFor, ?_⟩
    intro other
    split
    · next same =>
      subst same
      exact Table.get?_set_self _ _ _
    · next different => exact Table.get?_set_of_ne _ _ different
  · next unread =>
    refine Or.inr ⟨?_, rfl⟩
    cases backend : c.backend with
    | none => exact Or.inl rfl
    | some lang =>
      cases domainFor : c.domainFor? file domain with
      | none => exact Or.inr rfl
      | some d => exact absurd domainFor (unread lang d backend)

theorem get?_upsert_of_ne (c : TreeCache τ) {file other : FileId} (different : other ≠ file)
    (domain : Option Domain) (text : Text) :
    (c.upsert parse file domain text).1.get? other = c.get? other := by
  rcases get?_upsert c file domain text with ⟨_, _, _, _, entries⟩ | ⟨_, same⟩
  · rw [entries, if_neg different]
  · rw [same]

theorem backend_upsert (c : TreeCache τ) (file : FileId) (domain : Option Domain) (text : Text) :
    (c.upsert parse file domain text).1.backend = c.backend := by
  unfold upsert
  split <;> rfl

variable (parse) in
structure Recorded (start : Option BackendLang) (calls : List CacheCall) (c : TreeCache τ) :
    Prop where
  backend : c.backend = inForce start calls
  known : ∀ {file entry}, c.get? file = some entry → Recalls parse start calls file entry
  unknown : ∀ {file}, c.get? file = none → ∀ domain earlier later,
    ¬ Starts start calls file domain earlier later

theorem recorded_empty (start : Option BackendLang) :
    Recorded parse start [] (empty start) where
  backend := rfl
  known := by
    intro file entry found
    cases found
  unknown := by
    intro file _ domain earlier later starts
    obtain ⟨text, split⟩ := starts.call
    simp at split

section Step

variable {start : Option BackendLang} {calls : List CacheCall} {c : TreeCache τ}
  (h : Recorded parse start calls c)
include h

theorem Recorded.clear : Recorded parse start (calls ++ [.clear]) c.clear where
  backend := by
    rw [inForce, List.foldl_append]
    exact h.backend
  known := by
    intro file entry found
    cases found
  unknown := by
    intro file _ domain earlier later starts
    rcases starts_snoc.mp starts with ⟨other, _⟩ | ⟨_, _, ⟨_, same⟩, _⟩
    · exact other rfl
    · cases same

/-- A call that is about the backend language leaves the entries alone. -/
theorem Recorded.reload {call : CacheCall} {next : TreeCache τ} (same : next.entries = c.entries)
    (backend : next.backend = inForce start (calls ++ [call])) (kept : call ≠ .clear)
    (other : ∀ file domain text, call ≠ .upsert file domain text) :
    Recorded parse start (calls ++ [call]) next where
  backend := backend
  known := by
    intro file entry found
    rw [get?, same] at found
    exact (h.known found).snoc kept (other file)
  unknown := by
    intro file found domain earlier later starts
    rw [get?, same] at found
    rcases starts_snoc.mp starts with ⟨_, before, _, old⟩ | ⟨_, _, ⟨text, same⟩, _⟩
    · exact h.unknown found domain earlier before old
    · exact other file (some domain) text same

/-- A text that is read: for a known file in the domain of its entry, else in the given one. -/
theorem Recorded.known_of_read {file : FileId} {given : Option Domain} {text : Text}
    {lang : BackendLang} {d : Domain} (backend : c.backend = some lang)
    (domainFor : c.domainFor? file given = some d) :
    Recalls parse start (calls ++ [.upsert file given text]) file
      ⟨d, text, parse (d.grammar lang) text⟩ := by
  have inForce : inForce start calls = some lang := h.backend ▸ backend
  have comes : ComesLast (calls ++ [.upsert file given text]) file text calls :=
    ⟨given, [], rfl, by simp⟩
  cases found : c.get? file with
  | some entry =>
    obtain ⟨first, behind, _, _, starts, _⟩ := (h.known found).reading
    obtain rfl : entry.domain = d := by simpa [domainFor?, found] using domainFor
    exact ⟨first, behind ++ [_], calls, lang, starts.snoc (by simp), comes, starts.length_le,
      inForce, rfl⟩
  | none =>
    -- no call before this one had the file read, so that this one is the first
    obtain rfl : given = some d := by simpa [domainFor?, found] using domainFor
    have starts : Starts start (calls ++ [.upsert file (some d) text]) file d calls [] :=
      ⟨⟨text, rfl⟩, by simp [inForce], by simp⟩
    refine ⟨calls, [], calls, lang, ⟨starts, ?_⟩, comes, Nat.le_refl _, inForce, rfl⟩
    intro other before after earlier
    rcases starts_snoc.mp earlier with ⟨_, rest, _, old⟩ | ⟨rfl, _⟩
    · exact absurd old (h.unknown found other before rest)
    · exact Nat.le_refl _

theorem Recorded.upsert (file : FileId) (given : Option Domain) (text : Text) :
    Recorded parse start (calls ++ [.upsert file given text])
      (c.upsert parse file given text).1 where
  backend := by rw [backend_upsert, inForce_upsert, h.backend]
  known := by
    intro other entry found
    by_cases same : other = file
    · subst same
      rcases get?_upsert c other given text with ⟨lang, d, backend, domainFor, entries⟩ |
        ⟨unread, same⟩
      · rw [entries, if_pos rfl] at found
        cases found
        exact h.known_of_read backend domainFor
      · -- a known file is read again, since grammars stay loaded
        rw [same] at found
        obtain ⟨_, _, last, lang, _, comes, _, loaded, _⟩ := (h.known found).reading
        obtain ⟨_, later, split, _⟩ := comes.call
        rcases unread with backend | domainFor
        · have still : (inForce start calls).isSome := by
            rw [split]
            exact inForce_append_isSome (Option.isSome_of_eq_some loaded) _
          rw [← h.backend, backend] at still
          cases still
        · simp [domainFor?, found] at domainFor
    · rw [get?_upsert_of_ne c same] at found
      refine (h.known found).snoc (by simp) ?_
      intro domain later equal
      injection equal with files
      exact same files.symm
  unknown := by
    intro other found domain earlier later starts
    rcases starts_snoc.mp starts with ⟨_, before, _, old⟩ | ⟨rfl, _, ⟨read, same⟩, loaded⟩
    · refine h.unknown ?_ domain earlier before old
      rcases get?_upsert c file given text with ⟨_, _, _, _, entries⟩ | ⟨_, same⟩
      · rw [entries] at found
        split at found
        · cases found
        · exact found
      · rwa [same] at found
    · injection same with files givens texts
      subst files givens texts
      rcases get?_upsert c file (some domain) text with ⟨_, _, _, _, entries⟩ | ⟨unread, same⟩
      · rw [entries, if_pos rfl] at found
        cases found
      · rcases unread with backend | domainFor
        · rw [← h.backend, backend] at loaded
          cases loaded
        · rw [same] at found
          simp [domainFor?, found] at domainFor

/-- One more call. -/
theorem Recorded.perform (call : CacheCall) :
    Recorded parse start (calls ++ [call]) (c.perform parse call) := by
  cases call with
  | upsert file given text => exact h.upsert file given text
  | clear => exact h.clear
  | load lang =>
    refine h.reload rfl ?_ (by simp) (by simp)
    simp [TreeCache.perform, load, inForce]
  | switch lang =>
    refine h.reload rfl ?_ (by simp) (by simp)
    simp [TreeCache.perform, switch, h.backend, inForce]

end Step

theorem recorded_after (start : Option BackendLang) (calls : List CacheCall) :
    Recorded parse start calls (after parse start calls) := by
  induction calls using List.reverseRecOn with
  | nil => exact recorded_empty start
  | append_singleton calls call ih =>
    rw [after_snoc]
    exact ih.perform call

/-- Whatever is asked of a new cache, in the end a file has an entry exactly when, since the last
time the cache was cleared, a text came for it with a domain while grammars were loaded. The entry
is the one that the history gives, and a text for one file changes no other entry. -/
theorem cache_recalls_history (parse : Grammar → Text → τ) (start : Option BackendLang)
    (calls : List CacheCall) :
    (∀ file, (∃ entry, (after parse start calls).get? file = some entry) ↔
      ∃ domain earlier later, Starts start calls file domain earlier later) ∧
    (∀ file entry, (after parse start calls).get? file = some entry ↔
      Recalls parse start calls file entry) ∧
    ∀ file domain text other, other ≠ file →
      (after parse start (calls ++ [.upsert file domain text])).get? other =
        (after parse start calls).get? other := by
  have recorded : Recorded parse start calls (after parse start calls) :=
    recorded_after start calls
  have started : ∀ file, (∃ domain earlier later, Starts start calls file domain earlier later) →
      ∃ entry, (after parse start calls).get? file = some entry := by
    rintro file ⟨domain, earlier, later, starts⟩
    cases found : (after parse start calls).get? file with
    | none => exact absurd starts (recorded.unknown found domain earlier later)
    | some entry => exact ⟨entry, rfl⟩
  refine ⟨?_, ?_, ?_⟩
  · refine fun file => ⟨?_, started file⟩
    rintro ⟨entry, found⟩
    obtain ⟨first, behind, _, _, starts, _⟩ := (recorded.known found).reading
    exact ⟨entry.domain, first, behind, starts.toStarts⟩
  · refine fun file entry => ⟨recorded.known, ?_⟩
    intro recalls
    obtain ⟨first, behind, _, _, starts, _⟩ := recalls.reading
    obtain ⟨other, found⟩ := started file ⟨entry.domain, first, behind, starts.toStarts⟩
    rw [found, (recorded.known found).unique recalls]
  · intro file domain text other different
    rw [after_snoc]
    exact get?_upsert_of_ne _ different domain text

/-- A text without a domain is ignored, the first domain stays, and the language of the last text
counts. -/
example : ((after (fun grammar text => (grammar, text)) none
    [.upsert 0 (some .template) "a", .load .python, .upsert 0 none "b", .upsert 0 (some .backend) "c",
      .switch .rust, .upsert 0 (some .template) "d", .switch .go]).get? 0).map
        (fun entry => (entry.domain, entry.tree)) =
      some (Domain.backend, Grammar.backend .rust, Text.ofString "d") := by decide

end TreeCache

end Hypertag
