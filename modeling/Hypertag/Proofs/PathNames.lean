import Hypertag.Path
import Hypertag.Proofs.TextSplit

/-!
# Paths and their names

A path is written with a slash before each of its names and read back name by name. As long as all
parts can name something, nothing is lost: joining, resolving and comparing written paths come to
the same as appending and comparing lists of names. Whether anything is at a path is left to the
disk.
-/

namespace Hypertag

namespace Path

/-- Whether a text can name something in a directory. -/
structure IsName (t : Text) : Prop where
  nonempty : t ≠ []
  noSlash : slash ∉ t
  notHere : t ≠ here
  notParent : t ≠ parent

instance (t : Text) : Decidable (IsName t) :=
  decidable_of_iff (t ≠ [] ∧ slash ∉ t ∧ t ≠ here ∧ t ≠ parent)
    ⟨fun h => ⟨h.1, h.2.1, h.2.2.1, h.2.2.2⟩, fun h => ⟨h.1, h.2, h.3, h.4⟩⟩

/-- Whether a text is left as it is when a path is cut into parts. -/
def IsPart (t : Text) : Prop := t ≠ [] ∧ slash ∉ t ∧ t ≠ here

theorem IsName.isPart {t : Text} (h : IsName t) : IsPart t := ⟨h.nonempty, h.noSlash, h.notHere⟩

theorem isPart_parent : IsPart parent := ⟨by decide, by decide, by decide⟩

def Proper (p : Path) : Prop := ∀ part ∈ p, IsName part

theorem Proper.append {p q : Path} (hp : Proper p) (hq : Proper q) : Proper (p ++ q) := by
  intro part member
  rcases List.mem_append.mp member with left | right
  · exact hp part left
  · exact hq part right

theorem Proper.left {p q : Path} (h : Proper (p ++ q)) : Proper p :=
  fun part member => h part (List.mem_append_left q member)

theorem Proper.right {p q : Path} (h : Proper (p ++ q)) : Proper q :=
  fun part member => h part (List.mem_append_right p member)

theorem Proper.isPart {p : Path} (h : Proper p) : ∀ part ∈ p, IsPart part :=
  fun part member => (h part member).isPart

/-! ### Parts of a written path -/

theorem parts_append (a b : Text) : parts (a ++ slash :: b) = parts a ++ parts b := by
  rw [parts, Text.split_append, List.filter_append, parts, parts]

theorem parts_name {t : Text} (h : IsName t) : parts t = [t] := by
  simp [parts, Text.split_of_not_mem h.noSlash, h.nonempty, h.notHere]

theorem split_joinWith {p : List Text} (h : ∀ part ∈ p, IsPart part) (hne : p ≠ []) :
    (Text.joinWith [slash] p).split slash = p := by
  obtain ⟨name, rest, rfl⟩ := List.exists_cons_of_ne_nil hne
  induction rest generalizing name with
  | nil => exact Text.split_of_not_mem (h name List.mem_cons_self).2.1
  | cons next rest ih =>
    have first := Text.split_of_not_mem (h name List.mem_cons_self).2.1
    have later := ih next (fun part member => h part (List.mem_cons_of_mem name member)) (by simp)
    rw [Text.joinWith, List.append_assoc, List.singleton_append, Text.split_append, first, later]
    · rfl
    · simp

theorem parts_joinWith {p : List Text} (h : ∀ part ∈ p, IsPart part) :
    parts (Text.joinWith [slash] p) = p := by
  by_cases top : p = []
  · subst top
    rfl
  · rw [parts, split_joinWith h top, List.filter_eq_self]
    intro part member
    simp [(h part member).1, (h part member).2.2]

theorem parts_slash {p : List Text} (h : ∀ part ∈ p, IsPart part) : parts (render p) = p := by
  have read := parts_append [] (Text.joinWith [slash] p)
  rw [parts_joinWith h] at read
  exact read

/-- A written path is read back as it was. -/
theorem parts_render {p : Path} (h : Proper p) : parts (render p) = p := parts_slash h.isPart

theorem render_injective {p q : Path} (hp : Proper p) (hq : Proper q)
    (same : render p = render q) : p = q := by
  rw [← parts_render hp, same, parts_render hq]

theorem isPart_of_mem_parts {t part : Text} (h : part ∈ parts t) : IsPart part := by
  obtain ⟨piece, kept⟩ := List.mem_filter.mp h
  simp only [Bool.and_eq_true, Bool.not_eq_true', List.isEmpty_eq_false_iff,
    decide_eq_true_eq] at kept
  exact ⟨kept.1, Text.not_mem_of_mem_split piece, kept.2⟩

/-- A part of a written path is a name, or goes up. -/
theorem name_of_mem_parts {t part : Text} (h : part ∈ parts t) : IsName part ∨ part = parent := by
  obtain ⟨nonempty, noSlash, notHere⟩ := isPart_of_mem_parts h
  by_cases up : part = parent
  · exact Or.inr up
  · exact Or.inl ⟨nonempty, noSlash, notHere, up⟩

/-- A written path starts with the first name, and what follows it starts with a slash. -/
theorem render_cons (name : Text) (rest : Path) :
    ∃ behind, render (name :: rest) = slash :: (name ++ behind) ∧
      (behind = [] ∨ behind.head? = some slash) := by
  cases rest with
  | nil => exact ⟨[], by simp [render, Text.joinWith], Or.inl rfl⟩
  | cons next rest =>
    exact ⟨slash :: Text.joinWith [slash] (next :: rest), by simp [render, Text.joinWith],
      Or.inr rfl⟩

theorem render_ne_doubleSlash {p : Path} (h : Proper p) (rest : Text) :
    render p ≠ slash :: slash :: rest := by
  intro double
  cases p with
  | nil => cases double
  | cons name more =>
    have isName := h name List.mem_cons_self
    obtain ⟨behind, written, _⟩ := render_cons name more
    obtain ⟨u, units, rfl⟩ := List.exists_cons_of_ne_nil isName.nonempty
    rw [double] at written
    have first : slash = u := (List.cons.inj (List.cons.inj written).2).1
    exact isName.noSlash (first ▸ List.mem_cons_self)

/-! ### Joined paths -/

theorem render_append {p q : Path} (hp : p ≠ []) (hq : q ≠ []) :
    render (p ++ q) = render p ++ render q := by
  obtain ⟨first, rest, rfl⟩ := List.exists_cons_of_ne_nil hp
  induction rest generalizing first with
  | nil =>
    obtain ⟨next, more, rfl⟩ := List.exists_cons_of_ne_nil hq
    simp [render, Text.joinWith]
  | cons next rest ih =>
    have later := ih next (by simp)
    simp only [render, List.cons_append, List.cons.injEq, true_and, Text.joinWith] at later ⊢
    rw [later]
    simp

/-- The last name of a written path stands behind its last slash. -/
theorem render_snoc (p : Path) (name : Text) :
    ∃ before, render (p ++ [name]) = before ++ slash :: name := by
  by_cases top : p = []
  · subst top
    exact ⟨[], rfl⟩
  · exact ⟨render p, render_append top (by simp)⟩

theorem lastPart_append (before : Text) {name : Text} (h : IsName name) :
    lastPart (before ++ slash :: name) = name := by
  have clean : ∀ u ∈ name.reverse, u ≠ slash := fun u hu same =>
    h.noSlash (same ▸ List.mem_reverse.mp hu)
  have reversed : (before ++ slash :: name).reverse = name.reverse ++ slash :: before.reverse := by
    simp
  rw [lastPart, reversed]
  cases back : name.reverse with
  | nil => exact absurd (List.reverse_eq_nil_iff.mp back) h.nonempty
  | cons u rest =>
    rw [back] at clean
    have last := clean u List.mem_cons_self
    rw [List.cons_append, List.dropWhile_cons_of_neg (by simpa using last), ← List.cons_append,
      List.takeWhile_append_of_pos (by simpa using clean)]
    rw [List.takeWhile_cons_of_neg (by simp), List.append_nil, ← back, List.reverse_reverse]

theorem lastPart_render (p : Path) {name : Text} (h : IsName name) :
    lastPart (render (p ++ [name])) = name := by
  obtain ⟨before, written⟩ := render_snoc p name
  rw [written, lastPart_append before h]

/-! ### Normal form -/

theorem follow_name {absolute : Bool} {part : Text} (h : part ≠ parent) (trail rest : List Text) :
    follow absolute trail (part :: rest) = follow absolute (part :: trail) rest := by
  cases trail <;> simp [follow, h]

theorem follow_names {absolute : Bool} {trail ps : List Text} (hps : Proper ps) :
    follow absolute trail ps = ps.reverse ++ trail := by
  induction ps generalizing trail with
  | nil => rfl
  | cons part rest ih =>
    have name := hps part List.mem_cons_self
    rw [follow_name name.notParent, ih fun p h => hps p (List.mem_cons_of_mem part h)]
    simp

theorem reduce_names {p : Path} (h : Proper p) : reduce true p = p := by
  rw [reduce, follow_names h, List.append_nil, List.reverse_reverse]

/-- Whatever goes up is followed, and names are left. -/
theorem follow_proper {trail ps : List Text} (ht : Proper trail)
    (hps : ∀ part ∈ ps, IsName part ∨ part = parent) : Proper (follow true trail ps) := by
  induction ps generalizing trail with
  | nil => exact ht
  | cons part rest ih =>
    have later : ∀ p ∈ rest, IsName p ∨ p = parent := fun p h =>
      hps p (List.mem_cons_of_mem part h)
    rcases hps part List.mem_cons_self with name | rfl
    · rw [follow_name name.notParent]
      refine ih ?_ later
      intro p h
      rcases List.mem_cons.mp h with rfl | old
      · exact name
      · exact ht p old
    · cases trail with
      | nil =>
        simp only [follow, if_true]
        exact ih ht later
      | cons last before =>
        have name := ht last List.mem_cons_self
        simp only [follow, if_true, if_neg name.notParent]
        exact ih (fun p h => ht p (List.mem_cons_of_mem last h)) later

theorem resolve_proper {base : Path} (h : Proper base) (t : Text) : Proper (resolve base t) := by
  have written : ∀ part ∈ (if isAbsolute t then parts t else base ++ parts t),
      IsName part ∨ part = parent := by
    intro part member
    split at member
    · exact name_of_mem_parts member
    · rcases List.mem_append.mp member with old | new
      · exact Or.inl (h part old)
      · exact name_of_mem_parts new
  have followed := @follow_proper [] _ (fun _ h => (List.not_mem_nil h).elim) written
  intro part member
  exact followed part (List.mem_reverse.mp member)

theorem ofText_proper (t : Text) : Proper (ofText t) :=
  resolve_proper (fun _ h => (List.not_mem_nil h).elim) t

theorem ofText_render {p : Path} (h : Proper p) : ofText (render p) = p := by
  have absolute : isAbsolute (render p) = true := rfl
  rw [ofText, resolve, if_pos absolute, parts_render h, reduce_names h]

theorem follow_append (absolute : Bool) (trail ps qs : List Text) :
    follow absolute trail (ps ++ qs) = follow absolute (follow absolute trail ps) qs := by
  induction ps generalizing trail with
  | nil => rfl
  | cons part rest ih =>
    by_cases up : part = parent
    · cases trail with
      | nil => simp [follow, up, ih]
      | cons last before => by_cases top : last = parent <;> simp [follow, up, top, ih]
    · rw [List.cons_append, follow_name up, follow_name up, ih]

theorem follow_isPart {absolute : Bool} {trail ps : List Text} (ht : ∀ part ∈ trail, IsPart part)
    (hps : ∀ part ∈ ps, IsPart part) : ∀ part ∈ follow absolute trail ps, IsPart part := by
  induction ps generalizing trail with
  | nil => exact ht
  | cons part rest ih =>
    obtain ⟨first, later⟩ := List.forall_mem_cons.mp hps
    by_cases up : part = parent
    · cases trail with
      | nil =>
        rw [follow, if_pos up]
        refine ih ?_ later
        split
        · exact ht
        · exact List.forall_mem_singleton.mpr isPart_parent
      | cons last before =>
        rw [follow, if_pos up]
        split
        · exact ih (List.forall_mem_cons.mpr ⟨isPart_parent, ht⟩) later
        · exact ih (List.forall_mem_cons.mp ht).2 later
    · rw [follow_name up]
      exact ih (List.forall_mem_cons.mpr ⟨first, ht⟩) later

/-- What is left of a path stays when it is followed again. -/
theorem follow_follow {absolute : Bool} {trail : List Text}
    (level : follow absolute [] trail.reverse = trail) (ps : List Text) :
    follow absolute [] (follow absolute trail ps).reverse = follow absolute trail ps := by
  induction ps generalizing trail with
  | nil => exact level
  | cons part rest ih =>
    by_cases up : part = parent
    · cases trail with
      | nil =>
        rw [follow, if_pos up]
        apply ih
        cases absolute <;> simp [follow]
      | cons last before =>
        rw [List.reverse_cons, follow_append] at level
        rw [follow, if_pos up]
        split
        · next top =>
          apply ih
          rw [List.reverse_cons, List.reverse_cons, follow_append, follow_append, level]
          simp [follow, top]
        · next name =>
          apply ih
          rw [follow_name name] at level
          exact (List.cons.inj level).2
    · rw [follow_name up]
      apply ih
      rw [List.reverse_cons, follow_append, level, follow_name up]
      rfl

theorem reduce_reduce (absolute : Bool) (ps : List Text) :
    reduce absolute (reduce absolute ps) = reduce absolute ps := by
  rw [reduce, reduce, follow_follow rfl]

/-- Names are appended to what is left. -/
theorem reduce_append {absolute : Bool} {ps : List Text} {p : Path} (h : Proper p) :
    reduce absolute (ps ++ p) = reduce absolute ps ++ p := by
  rw [reduce, follow_append, follow_names h, List.reverse_append, List.reverse_reverse, reduce]

/-- The parts that the normal form of a written path has. -/
def trunk (t : Text) : List Text := reduce (isAbsolute t) (parts t)

theorem isPart_of_mem_trunk {t part : Text} (h : part ∈ trunk t) : IsPart part :=
  follow_isPart (fun _ h => (List.not_mem_nil h).elim) (fun _ => isPart_of_mem_parts) part
    (List.mem_reverse.mp h)

theorem trunk_render {p : Path} (h : Proper p) : trunk (render p) = p := by
  rw [trunk, parts_render h]
  exact reduce_names h

/-- Parts with slashes between them, and one before them if the path is absolute. -/
def written (absolute : Bool) (ps : List Text) : Text :=
  if absolute then render ps else Text.joinWith [slash] ps

section Written

variable {ps : List Text} (h : ∀ part ∈ ps, IsPart part) (absolute : Bool)
include h

theorem parts_written : parts (written absolute ps) = ps := by
  cases absolute with
  | true => exact parts_slash h
  | false => exact parts_joinWith h

theorem isAbsolute_written (hne : ps ≠ []) : isAbsolute (written absolute ps) = absolute := by
  cases absolute with
  | true => rfl
  | false =>
    obtain ⟨part, rest, rfl⟩ := List.exists_cons_of_ne_nil hne
    obtain ⟨nonempty, noSlash, _⟩ := h part List.mem_cons_self
    obtain ⟨u, units, rfl⟩ := List.exists_cons_of_ne_nil nonempty
    have first : u ≠ slash := fun same => noSlash (same ▸ List.mem_cons_self)
    cases rest <;> simpa [written, isAbsolute, Text.joinWith] using first

omit h in
theorem getLast?_written {name : Text} (isPart : IsPart name) :
    (written absolute (ps ++ [name])).getLast? ≠ some slash := by
  obtain ⟨before, split⟩ : ∃ before, written absolute (ps ++ [name]) = before ++ name := by
    cases absolute with
    | true =>
      obtain ⟨before, split⟩ := render_snoc ps name
      exact ⟨before ++ [slash], by simp [written, split]⟩
    | false =>
      obtain ⟨before, split⟩ := render_snoc ps name
      cases before with
      | nil => exact ⟨[], (List.cons.inj split).2⟩
      | cons u before => exact ⟨before ++ [slash], by simpa [written] using (List.cons.inj split).2⟩
  obtain ⟨first, rest, rfl⟩ := List.exists_cons_of_ne_nil isPart.1
  rw [split, List.getLast?_append]
  intro last
  refine isPart.2.1 (List.mem_of_getLast? ?_)
  rw [List.getLast?_eq_some_getLast (List.cons_ne_nil first rest)] at last ⊢
  exact last

end Written

theorem isPart_of_mem_snoc {t name : Text} (h : IsName name) :
    ∀ part ∈ trunk t ++ [name], IsPart part := fun _ member =>
  (List.mem_append.mp member).elim isPart_of_mem_trunk
    fun last => List.mem_singleton.mp last ▸ h.isPart

/-- A name is joined to a written path behind what is left of the path. -/
theorem join_eq {t name : Text} (hne : t ≠ []) (h : IsName name) :
    join t name = written (isAbsolute t) (trunk t ++ [name]) := by
  have proper : Proper [name] := fun part member => List.mem_singleton.mp member ▸ h
  have absolute : isAbsolute (t ++ slash :: name) = isAbsolute t := by
    cases t with
    | nil => exact absurd rfl hne
    | cons u rest => rfl
  have parts : reduce (isAbsolute t) (parts (t ++ slash :: name)) = trunk t ++ [name] := by
    rw [parts_append, parts_name h, reduce_append proper, trunk]
  have trailing : (slash :: name).getLast? ≠ some slash := @getLast?_written [] true _ h.isPart
  have body : (Text.joinWith [slash] (trunk t ++ [name])).isEmpty = false := by
    rw [Bool.eq_false_iff]
    intro empty
    have none := parts_joinWith (isPart_of_mem_snoc (t := t) h)
    rw [List.isEmpty_iff.mp empty] at none
    exact absurd none (by simp [Path.parts, Text.split])
  rw [join, if_neg (by simpa using hne), if_neg (by simpa using h.nonempty), normalize, absolute,
    parts, body, written]
  cases isAbsolute t <;> simp [render, trailing]

section Join

variable {t name : Text} (hne : t ≠ []) (h : IsName name)
include hne h

theorem parts_join : parts (join t name) = trunk t ++ [name] := by
  rw [join_eq hne h, parts_written (isPart_of_mem_snoc h)]

theorem trunk_join : trunk (join t name) = trunk t ++ [name] := by
  have proper : Proper [name] := fun part member => List.mem_singleton.mp member ▸ h
  have absolute : isAbsolute (join t name) = isAbsolute t := by
    rw [join_eq hne h, isAbsolute_written (isPart_of_mem_snoc h) _ (by simp)]
  rw [trunk, absolute, parts_join hne h, reduce_append proper, trunk, reduce_reduce]

theorem join_ne_nil : join t name ≠ [] := by
  intro empty
  have parts := parts_join hne h
  rw [empty] at parts
  exact absurd parts (by simp [Path.parts, Text.split])

end Join

/-- A name is joined to a written path by appending it. -/
theorem join_render {p : Path} (hp : Proper p) {name : Text} (h : IsName name) :
    join (render p) name = render (p ++ [name]) := by
  rw [join_eq (t := render p) (List.cons_ne_nil _ _) h, trunk_render hp]
  rfl

theorem foldl_join_render {p below : Path} (hp : Proper p) (h : Proper below) :
    below.foldl join (render p) = render (p ++ below) := by
  induction below generalizing p with
  | nil => rw [List.foldl_nil, List.append_nil]
  | cons name rest ih =>
    obtain ⟨isName, later⟩ := List.forall_mem_cons.mp h
    have deeper : Proper (p ++ [name]) :=
      hp.append fun part member => List.mem_singleton.mp member ▸ isName
    rw [List.foldl_cons, join_render hp isName, ih deeper later, List.append_assoc]
    rfl

/-- Names that are joined to a written path one by one are its last parts. -/
theorem parts_foldl_join {t : Text} (hne : t ≠ []) {below : Path} (h : Proper below)
    (some : below ≠ []) : parts (below.foldl join t) = trunk t ++ below := by
  induction below generalizing t with
  | nil => exact absurd rfl some
  | cons name rest ih =>
    obtain ⟨isName, later⟩ := List.forall_mem_cons.mp h
    rw [List.foldl_cons]
    by_cases last : rest = []
    · subst last
      exact parts_join hne isName
    · rw [ih (join_ne_nil hne isName) later last, trunk_join hne isName, List.append_assoc,
        List.singleton_append]

/-! ### Steps -/

/-- The parts of a written path are the steps that do not stay where they are. -/
theorem filter_steps (t : Text) :
    (steps t).filter (fun step => !step.isEmpty && step ≠ here) = parts t := by
  have named : ((t.split slash).filter (!·.isEmpty)).filter
      (fun step => !step.isEmpty && step ≠ here) = parts t := by
    rw [List.filter_filter, parts]
    refine List.filter_congr fun step _ => ?_
    cases List.isEmpty step <;> simp
  rw [steps]
  split
  · rw [List.filter_append, named]
    simp
  · exact named

theorem steps_written {ps : List Text} {name : Text} (h : ∀ part ∈ ps ++ [name], IsPart part)
    (absolute : Bool) : steps (written absolute (ps ++ [name])) = ps ++ [name] := by
  have last := @getLast?_written ps absolute name (h name (by simp))
  have pieces : ((written absolute (ps ++ [name])).split slash).filter (!·.isEmpty) =
      ps ++ [name] := by
    have kept : (ps ++ [name]).filter (!·.isEmpty) = ps ++ [name] := by
      rw [List.filter_eq_self]
      intro part member
      simpa using (h part member).1
    have joined := split_joinWith h (by simp)
    cases absolute with
    | true =>
      have cut := @Text.split_append slash [] (Text.joinWith [slash] (ps ++ [name]))
      rw [joined, List.nil_append] at cut
      rw [written, if_pos rfl, render, cut, Text.split, List.singleton_append,
        List.filter_cons_of_neg (by simp), kept]
    | false => rw [written, if_neg Bool.false_ne_true, joined, kept]
  rw [steps, if_neg last, pieces]

/-- The steps of a written path are its names, but for the top, which is written as a slash. -/
theorem steps_render {p : Path} (h : Proper p) (hne : p ≠ []) : steps (render p) = p := by
  obtain ⟨before, name, rfl⟩ := List.eq_nil_or_concat' p |>.resolve_left hne
  exact steps_written h.isPart true

theorem steps_join {t name : Text} (hne : t ≠ []) (h : IsName name) :
    steps (join t name) = trunk t ++ [name] := by
  rw [join_eq hne h, steps_written (isPart_of_mem_snoc h)]

end Path

end Hypertag
