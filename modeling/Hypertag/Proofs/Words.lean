import Hypertag.Proofs.Extraction
import Hypertag.Proofs.Provenance
import Mathlib.Data.List.TakeWhile

/-!
# Words and the tags in them

Words are solid, no two of them touch, and a run of units between blanks is one. So the names of
tags are solid too, and the first mark of a row that has something solid behind it starts the row's
first tag.
-/

namespace Hypertag

namespace Text

/-- What is sought is written where it is found, and nowhere before. -/
theorem indexOf?_eq_some_iff {needle t : Text} (nonempty : needle ≠ []) {k : Nat} :
    indexOf? needle t = some k ↔ needle <+: t.drop k ∧ ∀ j < k, ¬ needle <+: t.drop j := by
  induction t generalizing k with
  | nil => simp [indexOf?, nonempty]
  | cons u rest ih =>
    rw [indexOf?]
    by_cases here : needle <+: u :: rest
    · rw [if_pos (List.isPrefixOf_iff_prefix.mpr here)]
      constructor
      · intro found
        cases found
        exact ⟨here, fun j before => absurd before (Nat.not_lt_zero j)⟩
      · rintro ⟨_, least⟩
        cases k with
        | zero => rfl
        | succ k => exact absurd here (least 0 (Nat.succ_pos k))
    · rw [if_neg (by rwa [List.isPrefixOf_iff_prefix])]
      cases k with
      | zero => simp [here]
      | succ k =>
        simp only [Option.map_eq_some_iff, Nat.add_right_cancel_iff, exists_eq_right, ih,
          List.drop_succ_cons]
        refine and_congr_right fun _ => ⟨fun least j before => ?_, fun least j before => ?_⟩
        · cases j with
          | zero => exact here
          | succ j => exact least j (Nat.lt_of_succ_lt_succ before)
        · exact least (j + 1) (Nat.succ_lt_succ before)

def Solid (t : Text) : Prop := ∀ u ∈ t, isBlank u = false

/-- A word has something in it, and no blank. -/
theorem solid_of_mem_wordsFrom {i : Nat} {text : Text} {w : Word} (h : w ∈ text.wordsFrom i) :
    w.text ≠ [] ∧ w.text.Solid := by
  induction text generalizing i w with
  | nil => cases h
  | cons u rest ih =>
    rw [wordsFrom] at h
    split at h
    · exact ih h
    · next solid =>
      have single : Solid [u] := by simpa [Solid] using solid
      split at h
      · rw [List.mem_singleton.mp h]
        exact ⟨List.cons_ne_nil _ _, single⟩
      · next v vs words =>
        have first := (ih (words ▸ List.mem_cons_self : v ∈ wordsFrom (i + 1) rest)).2
        split at h
        · rcases List.mem_cons.mp h with rfl | later
          · exact ⟨List.cons_ne_nil _ _, List.forall_mem_cons.mpr ⟨by simpa using solid, first⟩⟩
          · exact ih (words ▸ List.mem_cons_of_mem v later)
        · rcases List.mem_cons.mp h with rfl | later
          · exact ⟨List.cons_ne_nil _ _, single⟩
          · exact ih (words ▸ later)

theorem le_of_mem_wordsFrom {i : Nat} {text : Text} {w : Word} (h : w ∈ text.wordsFrom i) :
    i ≤ w.start := by
  obtain ⟨k, start, _⟩ := mem_wordsFrom h
  omega

/-- Between two words there is a blank. -/
theorem wordsFrom_separated (i : Nat) (text : Text) :
    (text.wordsFrom i).Pairwise fun v w => v.start + v.text.length < w.start := by
  induction text generalizing i with
  | nil => exact List.Pairwise.nil
  | cons u rest ih =>
    have later := ih (i + 1)
    rw [wordsFrom]
    split
    · exact later
    · split
      · exact List.pairwise_singleton _ _
      · next v vs words =>
        have begins : i + 1 ≤ v.start := le_of_mem_wordsFrom (words ▸ List.mem_cons_self)
        rw [words, List.pairwise_cons] at later
        split
        · next adjacent =>
          refine List.pairwise_cons.mpr ⟨fun w member => ?_, later.2⟩
          have apart := later.1 w member
          simp only [List.length_cons]
          omega
        · next apart =>
          refine List.pairwise_cons.mpr ⟨?_, List.pairwise_cons.mpr later⟩
          intro w member
          simp only [List.length_singleton]
          rcases List.mem_cons.mp member with rfl | further
          · omega
          · have := later.1 w further
            omega

/-- A run of solid units that ends at a blank or with the text is its first word. -/
theorem wordsFrom_run {run rest : Text} (i : Nat) (solid : run.Solid) (nonempty : run ≠ [])
    (ends : ∀ u ∈ rest.head?, isBlank u = true) :
    (run ++ rest).wordsFrom i = ⟨i, run⟩ :: rest.wordsFrom (i + run.length) := by
  induction run generalizing i with
  | nil => exact absurd rfl nonempty
  | cons u run ih =>
    have here : isBlank u = false := solid u List.mem_cons_self
    have later : Solid run := fun v member => solid v (List.mem_cons_of_mem u member)
    rw [List.cons_append, wordsFrom, if_neg (by simp [here])]
    by_cases last : run = []
    · subst last
      have apart : ∀ w ∈ rest.wordsFrom (i + 1), w.start ≠ i + 1 := by
        intro w member
        cases rest with
        | nil => cases member
        | cons v rest =>
          rw [wordsFrom, if_pos (ends v rfl)] at member
          have := le_of_mem_wordsFrom member
          omega
      rw [List.nil_append]
      split
      · next none => simp [none]
      · next w ws words =>
        rw [if_neg (apart w (words ▸ List.mem_cons_self))]
        simp [words]
    · rw [ih (i + 1) later last]
      simp [Nat.add_comm, Nat.add_left_comm]

/-- The name of a marked token is solid and starts with the mark. -/
theorem name_of_mem_tokens {text : Text} {t : Token} (h : t ∈ text.tokens .marked) :
    t.name.Solid ∧ tagMark <+: t.name := by
  obtain ⟨w, member, found⟩ := List.mem_filterMap.mp h
  obtain ⟨token, read, rfl⟩ := Option.map_eq_some_iff.mp found
  rw [Word.token?] at read
  split at read
  · next k mark =>
    split at read
    · obtain rfl := Option.some.inj read
      have solid := (solid_of_mem_wordsFrom member).2
      exact ⟨fun u inside => solid u (List.mem_of_mem_drop inside),
        ((indexOf?_eq_some_iff (by decide)).mp mark).1⟩
    · cases read
  · cases read

end Text

/-- A declared name is solid, and something follows its mark. -/
theorem Tag.name_of_mem_extract {text : Text} {comments : List Span} {t : Tag}
    (h : t ∈ extract text comments) :
    t.name.Solid ∧ tagMark <+: t.name ∧ tagMark.length < t.name.length := by
  obtain ⟨c, _, declared⟩ := List.mem_flatMap.mp h
  obtain ⟨row, _, token, read, named⟩ := token_of_mem_ofRows declared
  obtain ⟨_, _, _, _, long⟩ := Text.mem_tokens_marked read
  obtain ⟨solid, marked⟩ := Text.name_of_mem_tokens read
  exact named ▸ ⟨solid, marked, long⟩

namespace Text

/-- The mark does not overlap itself, so behind a text without it a marked name is found first. -/
theorem indexOf?_tagMark {before name : Text} (marked : tagMark <+: name)
    (fresh : ¬ tagMark <:+: before) :
    indexOf? tagMark (before ++ name) = some before.length := by
  induction before with
  | nil =>
    obtain ⟨rest, rfl⟩ := marked
    rfl
  | cons u before ih =>
    have elsewhere : ¬ tagMark <+: u :: before ++ name := by
      have mark : tagMark = [0x68, 0x78, 0x40] := rfl
      obtain ⟨rest, rfl⟩ := marked
      intro found
      rcases before with _ | ⟨v, _ | ⟨w, before⟩⟩
      · simp [mark] at found
      · simp [mark] at found
      · refine fresh (List.IsPrefix.isInfix ?_)
        simpa [mark] using found
    rw [List.cons_append, indexOf?, if_neg (by rwa [List.isPrefixOf_iff_prefix]),
      ih fun inside => fresh (inside.trans (List.suffix_cons u before).isInfix)]
    rfl

end Text

/-- A word whose first mark is followed by something carries the tag from there on. -/
theorem Word.token?_of_mark {before name : Text} (i : Nat) (marked : tagMark <+: name)
    (long : tagMark.length < name.length) (fresh : ¬ tagMark <:+: before) :
    Word.token? .marked ⟨i, before ++ name⟩ =
      some ⟨name, before.length, (before ++ name).length⟩ := by
  have follows : before.length + tagMark.length < (before ++ name).length := by
    rw [List.length_append]
    omega
  simp only [token?, Text.indexOf?_tagMark marked fresh, if_pos follows, List.drop_left]

theorem Word.token?_of_fresh {w : Word} (fresh : ¬ tagMark <:+: w.text) :
    w.token? .marked = none := by
  rw [← Text.indexOf?_isSome_iff, Option.not_isSome_iff_eq_none] at fresh
  simp only [token?, fresh]

def Text.firstFrom? (i : Nat) (text : Text) : Option Token :=
  (text.wordsFrom i).findSome? fun w => (w.token? .marked).map (·.shift w.start)

theorem Token.first?_eq (row : Text) : Token.first? row = row.firstFrom? 0 := by
  rw [first?, Text.tokens, Text.words, List.head?_filterMap]
  rfl

/-- A word without a mark, up to the blank behind it, is passed over. -/
theorem Text.firstFrom?_of_fresh {run rest : Text} {blank : UInt16} (i : Nat) (solid : run.Solid)
    (ends : isBlank blank = true) (fresh : ¬ tagMark <:+: run) :
    (run ++ blank :: rest).firstFrom? i = rest.firstFrom? (i + run.length + 1) := by
  have beyond (j : Nat) : wordsFrom j (blank :: rest) = rest.wordsFrom (j + 1) := by
    rw [wordsFrom, if_pos ends]
  by_cases empty : run = []
  · subst empty
    simp [firstFrom?, beyond]
  · rw [firstFrom?, wordsFrom_run i solid empty (by simpa using ends), beyond, List.findSome?_cons,
      Word.token?_of_fresh fresh]
    rfl

/-- The first mark of a row starts its first tag, provided the name behind it is solid and ends at
a blank or with the row. -/
theorem Text.firstFrom?_of_mark {before name after : Text} (i : Nat) (marked : tagMark <+: name)
    (long : tagMark.length < name.length) (solid : name.Solid)
    (ends : ∀ u ∈ after.head?, isBlank u = true) (fresh : ¬ tagMark <:+: before) :
    (before ++ (name ++ after)).firstFrom? i =
      some ⟨name, i + before.length, i + before.length + name.length⟩ := by
  induction length : before.length using Nat.strongRecOn generalizing before i with
  | ind n ih =>
    -- either the name's own word starts the row, or a blank ends an earlier run
    have parts := List.takeWhile_append_dropWhile (p := fun u => !isBlank u) (l := before)
    have solidRun : Solid (before.takeWhile fun u => !isBlank u) := by
      intro u member
      simpa using List.mem_takeWhile_imp member
    cases rest : before.dropWhile fun u => !isBlank u with
    | nil =>
      rw [rest, List.append_nil] at parts
      rw [parts] at solidRun
      have whole : (before ++ name).Solid := List.forall_mem_append.mpr ⟨solidRun, solid⟩
      have nonempty : before ++ name ≠ [] := by
        apply List.ne_nil_of_length_pos
        rw [List.length_append]
        omega
      rw [← List.append_assoc, firstFrom?, wordsFrom_run i whole nonempty ends,
        List.findSome?_cons, Word.token?_of_mark i marked long fresh]
      simp only [Option.map_some, Token.shift, List.length_append, length, Option.some.injEq,
        Token.mk.injEq, true_and]
      omega
    | cons blank tail =>
      have ended : isBlank blank = true := by
        simpa [rest] using List.head?_dropWhile_not (fun u => !isBlank u) before
      rw [rest] at parts
      rw [← parts] at fresh length ⊢
      rw [List.length_append, List.length_cons] at length
      rw [List.append_assoc, List.cons_append, firstFrom?_of_fresh i solidRun ended
        fun inside => fresh (inside.trans (List.prefix_append _ _).isInfix),
        ih tail.length (by omega) _ (fun inside => fresh (inside.trans ?_)) rfl]
      · simp only [Option.some.injEq, Token.mk.injEq, true_and]
        omega
      · exact ((List.suffix_cons blank tail).trans (List.suffix_append _ _)).isInfix

end Hypertag
