import Hypertag.Proofs.Outcome
import Mathlib.Data.List.Induction

/-!
# The index and its history

The table of an index is lost in a reset, its counter is not. So the index is measured against the
whole list of calls that were made to it, with their answers: the numbers handed out increase from
the first call to the last, while a look-up goes back to the last reset and no further. Nothing is
said about the order in which the index keeps its entries.
-/

namespace Hypertag

inductive IndexCall where
  | register (uri : Text)
  | reset
  deriving DecidableEq

/-- A call and the number that it handed out, if any. -/
structure IndexEvent where
  call : IndexCall
  answer : Option FileId
  deriving DecidableEq

namespace IndexEvent

def issued (events : List IndexEvent) : List FileId := events.filterMap answer

def sinceReset (events : List IndexEvent) : List IndexEvent :=
  (events.reverse.takeWhile (·.call ≠ .reset)).reverse

def first? (uri : Text) (events : List IndexEvent) : Option IndexEvent :=
  events.find? (·.call = .register uri)

theorem sinceReset_reset (events : List IndexEvent) (answer : Option FileId) :
    sinceReset (events ++ [⟨.reset, answer⟩]) = [] := by
  simp [sinceReset]

theorem sinceReset_register (events : List IndexEvent) (uri : Text) (answer : Option FileId) :
    sinceReset (events ++ [⟨.register uri, answer⟩]) =
      sinceReset events ++ [⟨.register uri, answer⟩] := by
  simp [sinceReset]

theorem first?_snoc (events : List IndexEvent) (uri other : Text) (answer : Option FileId) :
    first? other (events ++ [⟨.register uri, answer⟩]) =
      (first? other events).or (if uri = other then some ⟨.register uri, answer⟩ else none) := by
  by_cases same : uri = other
  · simp [first?, same]
  · simp [first?, same]

theorem first?_isSome_iff {events : List IndexEvent} {uri : Text} :
    (first? uri events).isSome ↔ .register uri ∈ events.map call := by
  simp [first?, List.find?_isSome]

end IndexEvent

open IndexEvent

namespace DocumentIndex

/-- The index after a call, and the number that the call hands out. -/
def perform (x : DocumentIndex) : IndexCall → DocumentIndex × Option FileId
  | .register uri =>
    match x.register? uri with
    | some (file, y) => (y, some file)
    | none => (x, none)
  | .reset => (x.reset, none)

def extend (s : DocumentIndex × List IndexEvent) (call : IndexCall) :
    DocumentIndex × List IndexEvent :=
  ((s.1.perform call).1, s.2 ++ [⟨call, (s.1.perform call).2⟩])

def history (calls : List IndexCall) : DocumentIndex × List IndexEvent :=
  calls.foldl extend (empty, [])

theorem history_snoc (calls : List IndexCall) (call : IndexCall) :
    history (calls ++ [call]) = extend (history calls) call := by
  simp [history]

theorem history_calls (calls : List IndexCall) : (history calls).2.map call = calls := by
  induction calls using List.reverseRecOn with
  | nil => rfl
  | append_singleton calls call ih => simp [history_snoc, extend, ih]

/-- A known uri is refused, and the index stays as it is. -/
theorem perform_of_known {x : DocumentIndex} {uri : Text} {file : FileId}
    (known : x.idOf? uri = some file) : x.perform (.register uri) = (x, none) := by
  have member : uri ∈ x.entries.map Prod.fst :=
    List.mem_map.mpr ⟨_, x.idOf?_eq_some_iff.mp known, rfl⟩
  simp [perform, register?, member]

/-- An unknown uri gets the next number and the counter moves on. No other uri is concerned. -/
theorem perform_of_unknown {x : DocumentIndex} {uri : Text} (unknown : x.idOf? uri = none) :
    ∃ y, x.perform (.register uri) = (y, some x.next) ∧ x.next < y.next ∧
      ∀ other, y.idOf? other = if uri = other then some x.next else x.idOf? other := by
  obtain ⟨y, new⟩ := register?_of_unknown unknown
  refine ⟨y, by simp [perform, new], ?_, ?_⟩
  · rw [next_of_register new]
    exact Int.lt_succ x.next
  · intro other
    by_cases same : uri = other
    · subst same
      simpa using idOf?_register new
    · simpa [same] using idOf?_register_of_ne new (Ne.symm same)

/-- How an index and its history belong together. The counter is ahead of every number ever handed
out, and a look-up gives the first registration since the last reset. -/
structure Recorded (x : DocumentIndex) (events : List IndexEvent) : Prop where
  increasing : (issued events).Pairwise (· < ·)
  ahead : ∀ id ∈ issued events, id < x.next
  looked : ∀ uri, first? uri (sinceReset events) =
    (x.idOf? uri).map fun id => ⟨.register uri, some id⟩

theorem recorded_empty : Recorded empty [] where
  increasing := List.Pairwise.nil
  ahead := by
    intro id handed
    cases handed
  looked _ := rfl

/-- Calls that hand out nothing leave the numbers alone. -/
theorem issued_of_none (events : List IndexEvent) (call : IndexCall) :
    issued (events ++ [⟨call, none⟩]) = issued events := by
  simp [issued]

theorem issued_of_some (events : List IndexEvent) (call : IndexCall) (file : FileId) :
    issued (events ++ [⟨call, some file⟩]) = issued events ++ [file] := by
  simp [issued]

theorem Recorded.again {x : DocumentIndex} {events : List IndexEvent} (h : Recorded x events)
    {uri : Text} {file : FileId} (known : x.idOf? uri = some file) :
    Recorded x (events ++ [⟨.register uri, none⟩]) where
  increasing := by simpa only [issued_of_none] using h.increasing
  ahead := by simpa only [issued_of_none] using h.ahead
  looked := by
    intro other
    rw [sinceReset_register, first?_snoc, h.looked]
    by_cases same : uri = other
    · -- the first registration came before this one
      subst same
      simp [known]
    · simp [same]

theorem Recorded.register {x y : DocumentIndex} {events : List IndexEvent} (h : Recorded x events)
    {uri : Text} (unknown : x.idOf? uri = none) (moved : x.next < y.next)
    (lookups : ∀ other, y.idOf? other = if uri = other then some x.next else x.idOf? other) :
    Recorded y (events ++ [⟨.register uri, some x.next⟩]) where
  increasing := by
    rw [issued_of_some, List.pairwise_append]
    refine ⟨h.increasing, List.pairwise_singleton _ _, ?_⟩
    intro id handed file new
    obtain rfl := List.mem_singleton.mp new
    exact h.ahead id handed
  ahead := by
    intro id handed
    rw [issued_of_some, List.mem_append, List.mem_singleton] at handed
    rcases handed with old | rfl
    · exact Int.lt_trans (h.ahead id old) moved
    · exact moved
  looked := by
    intro other
    rw [sinceReset_register, first?_snoc, h.looked, lookups]
    by_cases same : uri = other
    · subst same
      simp [unknown]
    · simp [same]

theorem Recorded.reset {x : DocumentIndex} {events : List IndexEvent} (h : Recorded x events) :
    Recorded x.reset (events ++ [⟨.reset, none⟩]) where
  increasing := by simpa only [issued_of_none] using h.increasing
  ahead := by
    rw [issued_of_none]
    exact h.ahead
  looked := by
    intro uri
    rw [sinceReset_reset]
    rfl

/-- One more call. -/
theorem Recorded.perform {x : DocumentIndex} {events : List IndexEvent} (h : Recorded x events)
    (call : IndexCall) :
    Recorded (x.perform call).1 (events ++ [⟨call, (x.perform call).2⟩]) := by
  cases call with
  | reset => exact h.reset
  | register uri =>
    cases found : x.idOf? uri with
    | some file =>
      rw [perform_of_known found]
      exact h.again found
    | none =>
      obtain ⟨y, performed, moved, lookups⟩ := perform_of_unknown found
      rw [performed]
      exact h.register found moved lookups

theorem recorded_history (calls : List IndexCall) :
    Recorded (history calls).1 (history calls).2 := by
  induction calls using List.reverseRecOn with
  | nil => exact recorded_empty
  | append_singleton calls call ih =>
    rw [history_snoc]
    exact ih.perform call

/-- Whatever is asked of a new index, the numbers handed out increase from the first call to the
last, also across resets. In the end the two look-ups are inverse to each other, a uri is known
exactly when it was registered since the last reset, under the number that its first registration
since then returned, and registering it again changes nothing. -/
theorem index_recalls_history (calls : List IndexCall) :
    (history calls).2.map call = calls ∧
    (issued (history calls).2).Pairwise (· < ·) ∧
    (∀ uri id, (history calls).1.idOf? uri = some id ↔ (history calls).1.uriOf? id = some uri) ∧
    (∀ uri, (∃ id, (history calls).1.idOf? uri = some id) ↔
      .register uri ∈ (sinceReset (history calls).2).map call) ∧
    (∀ uri id, (history calls).1.idOf? uri = some id ↔
      first? uri (sinceReset (history calls).2) = some ⟨.register uri, some id⟩) ∧
    ∀ uri id, (history calls).1.idOf? uri = some id →
      (history calls).1.perform (.register uri) = ((history calls).1, none) := by
  have recorded := recorded_history calls
  refine ⟨history_calls calls, recorded.increasing, ?_, ?_, ?_, fun uri id => perform_of_known⟩
  · intro uri id
    rw [idOf?_eq_some_iff, uriOf?_eq_some_iff]
  · intro uri
    rw [← first?_isSome_iff, recorded.looked, Option.isSome_map, Option.isSome_iff_exists]
  · intro uri id
    rw [recorded.looked, Option.map_eq_some_iff]
    constructor
    · intro known
      exact ⟨id, known, rfl⟩
    · rintro ⟨other, known, same⟩
      cases same
      exact known

/-- A uri that is registered again after a reset gets a number that was never used. -/
example : (history [.register "file:///a", .register "file:///b", .reset,
    .register "file:///a", .register "file:///a"]).2.map answer =
      [some 0, some 1, none, some 2, none] := by decide

end DocumentIndex

end Hypertag
