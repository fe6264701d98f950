import Mathlib.Data.List.Perm.Basic
import Mathlib.Logic.Relation
import SpatialStore.Index.RTree.Split

/-!
# Splitting loses nothing

Two entries start the groups of `Split.quadratic`, and the others are handed out one by one. Which
entries and groups are taken depends on areas that are computed in doubles, and these may be
infinite or NaN. Nothing is assumed of them: a `Handout.Step` hands out any entry to any group, as
long as no group needs all that is left, and a `Division` is what such steps can end with.

Steps keep the entries, let the groups grow and leave enough for both of them to reach the minimum
(`Handout.Step.perm`, `Handout.Step.grows`, `Handout.Step.ample`). Every step leaves fewer entries,
and there is a step as long as any are left, so all choices come to an end. Whatever is compared,
the positions chosen are positions of the list (`seeds_ascending`, `mostDecided_lt`); therefore the
groups of `Split.quadratic` are a division (`division_quadratic`). They hold every entry once
(`quadratic_perm`), none is empty (`quadratic_ne_nil`), and both reach the minimum if the entries
suffice for it (`quadratic_min`).
-/

namespace SpatialStore.Split

variable {α β : Type}

/-! ### Taking entries out -/

theorem takeOut_of_lt {xs : List β} {i : Nat} (h : i < xs.length) :
    ∃ x rest, takeOut xs i = some (x, rest) := by
  rw [takeOut, List.getElem?_eq_getElem h]
  exact ⟨_, _, rfl⟩

/-- The element taken out and the others are the list, up to order. -/
theorem perm_of_takeOut {xs rest : List β} {i : Nat} {x : β}
    (h : takeOut xs i = some (x, rest)) : xs.Perm (x :: rest) := by
  obtain ⟨y, hy, hyx⟩ := Option.map_eq_some_iff.mp h
  obtain ⟨rfl, rfl⟩ := Prod.mk.inj hyx
  obtain ⟨hi, rfl⟩ := List.getElem?_eq_some_iff.mp hy
  obtain ⟨ys, z, rfl⟩ := (List.eq_nil_or_concat' xs).resolve_left
    (List.ne_nil_of_length_pos (by omega))
  have hlast : (ys ++ [z]).getLastD (ys ++ [z])[i] = z := by simp
  rw [hlast]
  -- the last element moves into the gap, unless it is the one taken out
  rcases Nat.lt_or_ge i ys.length with hlt | hge
  · rw [List.set_append_left _ _ hlt, List.dropLast_concat, List.getElem_append_left hlt]
    have hold := (List.getElem_cons_eraseIdx_perm hlt).symm
    have hnew := (List.set_perm_cons_eraseIdx hlt z).symm
    exact (List.perm_append_singleton z ys).trans
      ((hold.cons z).trans ((List.Perm.swap ..).trans (hnew.cons _)))
  · have hend : i = ys.length := by
      rw [List.length_append, List.length_singleton] at hi
      omega
    subst hend
    simp

/-! ### Positions -/

theorem lt_of_mem_zipIdx {xs : List α} {x : α × Nat} (h : x ∈ xs.zipIdx) : x.2 < xs.length := by
  obtain ⟨i, hi, rfl⟩ := List.mem_iff_getElem.mp h
  simpa using hi

theorem mostDecided_lt (a b : Group α) {entries : List (Boxed α)} (h : entries ≠ []) :
    mostDecided a b entries < entries.length := by
  refine List.foldlRecOn (motive := fun best : Nat × Float => best.1 < entries.length) _ _
    (List.length_pos_iff.mpr h) fun best hbest x hx => ?_
  dsimp only
  split
  · exact lt_of_mem_zipIdx hx
  · exact hbest

/-- A pair of positions in ascending order. -/
def Ascending (n : Nat) (p : Nat × Nat) : Prop := p.1 < p.2 ∧ p.2 < n

theorem seedsFrom_ascending {n : Nat} {xs : List (Boxed α × Nat)}
    (hxs : xs.Pairwise fun a b => a.2 < b.2) (hn : ∀ x ∈ xs, x.2 < n)
    {best : (Nat × Nat) × Float} (h : Ascending n best.1) :
    Ascending n (seedsFrom best xs).1 := by
  induction xs generalizing best with
  | nil => exact h
  | cons a rest ih =>
    obtain ⟨ha, hrest⟩ := List.pairwise_cons.mp hxs
    refine ih hrest (fun x hx => hn x (List.mem_cons_of_mem a hx)) ?_
    -- pairs of `a` with a later entry are in ascending order
    refine List.foldlRecOn (motive := fun best : (Nat × Nat) × Float => Ascending n best.1) rest _ h
      fun best' h' b hb => ?_
    dsimp only
    split
    · exact ⟨ha b hb, hn b (List.mem_cons_of_mem a hb)⟩
    · exact h'

theorem seeds_ascending {entries : List (Boxed α)} (h : 2 ≤ entries.length) :
    Ascending entries.length (seeds entries) := by
  refine seedsFrom_ascending ?_ (fun x => lt_of_mem_zipIdx) ⟨Nat.zero_lt_one, h⟩
  refine List.pairwise_iff_getElem.mpr fun i j hi hj hij => ?_
  simpa using hij

/-! ### Handing out -/

/-- Entries that are handed out to two groups. -/
structure Handout (β : Type) where
  first : List β
  second : List β
  /-- What is not handed out yet. -/
  rest : List β

namespace Handout

variable {min : Nat} {s t : Handout β}

/-- One round. A group that needs all that is left gets it. Otherwise an entry joins a group, and
it is left open which entry and which group. -/
inductive Step (min : Nat) : Handout β → Handout β → Prop
  | firstNeedsAll {a b rest : List β} : rest ≠ [] → a.length + rest.length ≤ min →
      Step min ⟨a, b, rest⟩ ⟨a ++ rest, b, []⟩
  | secondNeedsAll {a b rest : List β} : rest ≠ [] → min < a.length + rest.length →
      b.length + rest.length ≤ min → Step min ⟨a, b, rest⟩ ⟨a, b ++ rest, []⟩
  | joinFirst {a b rest others : List β} {i : Nat} {x : β} : min < a.length + rest.length →
      min < b.length + rest.length → takeOut rest i = some (x, others) →
      Step min ⟨a, b, rest⟩ ⟨a ++ [x], b, others⟩
  | joinSecond {a b rest others : List β} {i : Nat} {x : β} : min < a.length + rest.length →
      min < b.length + rest.length → takeOut rest i = some (x, others) →
      Step min ⟨a, b, rest⟩ ⟨a, b ++ [x], others⟩

/-- Any number of rounds. -/
abbrev Run (min : Nat) : Handout β → Handout β → Prop := Relation.ReflTransGen (Step min)

/-- All entries, handed out or not. -/
def entries (s : Handout β) : List β := s.first ++ s.second ++ s.rest

/-- There are enough entries for both groups together, and for each of them. -/
structure Ample (min : Nat) (s : Handout β) : Prop where
  first : min ≤ s.first.length + s.rest.length
  second : min ≤ s.second.length + s.rest.length
  both : 2 * min ≤ s.first.length + s.second.length + s.rest.length

/-! What one round does. -/

theorem Step.perm (h : Step min s t) : t.entries.Perm s.entries := by
  cases h with
  | firstNeedsAll =>
    simp only [entries, List.append_assoc, List.append_nil]
    exact List.perm_append_comm.append_left _
  | secondNeedsAll => simp [entries]
  | joinFirst _ _ hx =>
    simp only [entries, List.append_assoc, List.singleton_append]
    exact (List.perm_middle.symm.trans ((perm_of_takeOut hx).symm.append_left _)).append_left _
  | joinSecond _ _ hx =>
    simp only [entries, List.append_assoc, List.singleton_append]
    exact ((perm_of_takeOut hx).symm.append_left _).append_left _

/-- Groups only grow. -/
theorem Step.grows (h : Step min s t) : s.first <+: t.first ∧ s.second <+: t.second := by
  cases h <;> simp

/-- As no group needs all that is left, both can do without the entry that is handed out. -/
theorem Step.ample (h : Step min s t) (hs : s.Ample min) : t.Ample min := by
  obtain ⟨hfirst, hsecond, hboth⟩ := hs
  cases h with
  | firstNeedsAll | secondNeedsAll =>
    constructor <;> simp only [List.length_append, List.length_nil] at * <;> omega
  | joinFirst _ _ hx | joinSecond _ _ hx =>
    have hlen := (perm_of_takeOut hx).length_eq
    constructor <;>
      simp only [List.length_append, List.length_cons, List.length_nil] at * <;> omega

theorem Step.lt (h : Step min s t) : t.rest.length < s.rest.length := by
  cases h with
  | firstNeedsAll hne | secondNeedsAll hne => exact List.length_pos_iff.mpr hne
  | joinFirst _ _ hx | joinSecond _ _ hx =>
    have hlen := (perm_of_takeOut hx).length_eq
    rw [List.length_cons] at hlen
    exact hlen ▸ Nat.lt_succ_self _

/-- Handing out comes to an end. -/
theorem wellFounded_step (min : Nat) : WellFounded fun t s : Handout β => Step min s t :=
  Subrelation.wf Step.lt (measure fun s : Handout β => s.rest.length).wf

/-- It does not end before everything is handed out. -/
theorem exists_step (min : Nat) (hs : s.rest ≠ []) : ∃ t, Step min s t := by
  obtain ⟨a, b, rest⟩ := s
  by_cases hfirst : a.length + rest.length ≤ min
  · exact ⟨_, .firstNeedsAll hs hfirst⟩
  by_cases hsecond : b.length + rest.length ≤ min
  · exact ⟨_, .secondNeedsAll hs (Nat.lt_of_not_le hfirst) hsecond⟩
  obtain ⟨x, others, hx⟩ := takeOut_of_lt (List.length_pos_iff.mpr hs)
  exact ⟨_, .joinFirst (Nat.lt_of_not_le hfirst) (Nat.lt_of_not_le hsecond) hx⟩

/-! What all rounds together do. -/

theorem Run.perm (h : Run min s t) : t.entries.Perm s.entries := by
  induction h with
  | refl => rfl
  | tail _ hstep ih => exact hstep.perm.trans ih

theorem Run.grows (h : Run min s t) : s.first <+: t.first ∧ s.second <+: t.second := by
  induction h with
  | refl => exact ⟨List.prefix_rfl, List.prefix_rfl⟩
  | tail _ hstep ih => exact ⟨ih.1.trans hstep.grows.1, ih.2.trans hstep.grows.2⟩

theorem Run.ample (h : Run min s t) (hs : s.Ample min) : t.Ample min := by
  induction h with
  | refl => exact hs
  | tail _ hstep ih => exact hstep.ample ih

/-- Handing out by preference is one way of handing out, if there is enough fuel. -/
theorem run_distribute (min : Nat) {n : Nat} {a b : Group α} {rest : List (Boxed α)}
    (h : rest.length ≤ n) : Run min ⟨a.members, b.members, rest⟩
      ⟨(distribute min n a b rest).1, (distribute min n a b rest).2, []⟩ := by
  induction n generalizing a b rest with
  | zero =>
    obtain rfl := List.eq_nil_of_length_eq_zero (Nat.le_zero.mp h)
    exact .refl
  | succ n ih =>
    rw [distribute]
    split_ifs with hnil hfirst hsecond
    · rw [List.isEmpty_iff.mp hnil]
    · exact .single (.firstNeedsAll (mt List.isEmpty_iff.mpr hnil) hfirst)
    · exact .single
        (.secondNeedsAll (mt List.isEmpty_iff.mpr hnil) (Nat.lt_of_not_le hfirst) hsecond)
    · obtain ⟨x, others, hx⟩ := takeOut_of_lt (mostDecided_lt a b (mt List.isEmpty_iff.mpr hnil))
      have hlen : others.length ≤ n := by
        have := (perm_of_takeOut hx).length_eq
        rw [List.length_cons] at this
        omega
      simp only [hx]
      split
      · exact .head (.joinFirst (Nat.lt_of_not_le hfirst) (Nat.lt_of_not_le hsecond) hx)
          (ih (a := a.add x) (b := b) hlen)
      · exact .head (.joinSecond (Nat.lt_of_not_le hfirst) (Nat.lt_of_not_le hsecond) hx)
          (ih (a := a) (b := b.add x) hlen)

end Handout

/-! ### Divisions -/

/-- Two entries start the groups, the later one being taken out first. -/
inductive Start (entries : List β) : Handout β → Prop
  | mk {i j : Nat} {x y : β} {others rest : List β} : i < j →
      takeOut entries j = some (y, others) → takeOut others i = some (x, rest) →
      Start entries ⟨[x], [y], rest⟩

/-- What handing out can end with, whichever entries start, and whichever entries and groups are
preferred in each round. -/
def Division (min : Nat) (entries : List β) (groups : List β × List β) : Prop :=
  ∃ s, Start entries s ∧ s.Run min ⟨groups.1, groups.2, []⟩

section Division

variable {min : Nat} {entries : List β} {s : Handout β} {groups : List β × List β}

theorem Start.perm (h : Start entries s) : s.entries.Perm entries := by
  obtain ⟨-, hy, hx⟩ := h
  refine (List.Perm.swap ..).trans ((perm_of_takeOut hx).symm.cons _ |>.trans ?_)
  exact (perm_of_takeOut hy).symm

/-- Twice as many entries as the minimum are enough for both groups. -/
theorem Start.ample (h : Start entries s) (hmany : 2 ≤ entries.length)
    (hmin : 2 * min ≤ entries.length) : s.Ample min := by
  have hlen := h.perm.length_eq
  obtain ⟨-, -, -⟩ := h
  simp only [Handout.entries, List.length_append, List.length_singleton] at hlen
  constructor <;> simp only [List.length_singleton] <;> omega

/-- The groups hold every entry once. -/
theorem Division.perm (h : Division min entries groups) :
    (groups.1 ++ groups.2).Perm entries := by
  obtain ⟨s, hstart, hrun⟩ := h
  simpa [Handout.entries] using hrun.perm.trans hstart.perm

theorem Division.ne_nil (h : Division min entries groups) : groups.1 ≠ [] ∧ groups.2 ≠ [] := by
  obtain ⟨s, ⟨-, -, -⟩, hrun⟩ := h
  obtain ⟨hfirst, hsecond⟩ := hrun.grows
  exact ⟨hfirst.ne_nil (List.cons_ne_nil _ _), hsecond.ne_nil (List.cons_ne_nil _ _)⟩

theorem Division.min_le (h : Division min entries groups) (hmany : 2 ≤ entries.length)
    (hmin : 2 * min ≤ entries.length) : min ≤ groups.1.length ∧ min ≤ groups.2.length := by
  obtain ⟨s, hstart, hrun⟩ := h
  obtain ⟨hfirst, hsecond, -⟩ := hrun.ample (hstart.ample hmany hmin)
  exact ⟨hfirst, hsecond⟩

end Division

/-- The groups of a quadratic split are handed out starting from two entries. -/
theorem division_quadratic (min : Nat) {entries : List (Boxed α)} (h : 2 ≤ entries.length) :
    Division min entries (quadratic min entries) := by
  obtain ⟨hlt, hlt'⟩ := seeds_ascending h
  obtain ⟨y, others, hy⟩ := takeOut_of_lt hlt'
  have hi : (seeds entries).1 < others.length := by
    have := (perm_of_takeOut hy).length_eq
    rw [List.length_cons] at this
    omega
  obtain ⟨x, rest, hx⟩ := takeOut_of_lt hi
  refine ⟨_, .mk hlt hy hx, ?_⟩
  simp only [quadratic, hy, hx]
  exact Handout.run_distribute min (a := .single x) (b := .single y) Nat.le.refl

theorem quadratic_of_length_lt (min : Nat) {entries : List (Boxed α)} (h : entries.length < 2) :
    quadratic min entries = (entries, []) := by
  match entries, h with
  | [], _ => rfl
  | [x], _ => rfl

/-- The two groups hold every entry once. -/
theorem quadratic_perm (min : Nat) (entries : List (Boxed α)) :
    ((quadratic min entries).1 ++ (quadratic min entries).2).Perm entries := by
  rcases Nat.lt_or_ge entries.length 2 with h | h
  · rw [quadratic_of_length_lt min h, List.append_nil]
  · exact (division_quadratic min h).perm

theorem quadratic_ne_nil (min : Nat) {entries : List (Boxed α)} (h : 2 ≤ entries.length) :
    (quadratic min entries).1 ≠ [] ∧ (quadratic min entries).2 ≠ [] :=
  (division_quadratic min h).ne_nil

/-- Twice as many entries as the minimum are enough for both groups. -/
theorem quadratic_min {min : Nat} {entries : List (Boxed α)} (h : 2 ≤ entries.length)
    (hmin : 2 * min ≤ entries.length) :
    min ≤ (quadratic min entries).1.length ∧ min ≤ (quadratic min entries).2.length :=
  (division_quadratic min h).min_le h hmin

/-! ### Legal divisions -/

/-- Both groups reach the minimum and none is empty, and together they hold every entry once. -/
structure Legal (min : Nat) (entries : List β) (groups : List β × List β) : Prop where
  perm : (groups.1 ++ groups.2).Perm entries
  first : min ≤ groups.1.length ∧ 1 ≤ groups.1.length
  second : min ≤ groups.2.length ∧ 1 ≤ groups.2.length

/-- Entries are divided legally, whatever the comparisons say on the way. -/
structure DividesLegally (min : Nat) (entries : List (Boxed α)) : Prop where
  legal : Legal min entries (quadratic min entries)
  /-- The groups come about by handing out all entries, as other choices would have it too. -/
  division : Division min entries (quadratic min entries)
  anyway : ∀ {groups}, Division min entries groups → Legal min entries groups
  /-- No choices let the rounds go on for ever, or stop while there are entries left. -/
  terminates : WellFounded fun t s : Handout (Boxed α) => s.Step min t
  finishes : ∀ {s : Handout (Boxed α)}, (∀ t, ¬ s.Step min t) → s.rest = []

/-- Two entries, and twice as many as the minimum, suffice for a legal division. -/
theorem dividesLegally {min : Nat} {entries : List (Boxed α)}
    (h : max 2 (2 * min) ≤ entries.length) : DividesLegally min entries := by
  obtain ⟨hmany, hmin⟩ := Nat.max_le.mp h
  have anyway {groups : List (Boxed α) × List (Boxed α)} (hg : Division min entries groups) :
      Legal min entries groups := by
    obtain ⟨hfirst, hsecond⟩ := hg.min_le hmany hmin
    obtain ⟨hne, hne'⟩ := hg.ne_nil
    exact ⟨hg.perm, ⟨hfirst, List.length_pos_iff.mpr hne⟩, hsecond, List.length_pos_iff.mpr hne'⟩
  have hdivision := division_quadratic min hmany
  refine ⟨anyway hdivision, hdivision, anyway, Handout.wellFounded_step min, fun {s} hs => ?_⟩
  by_contra hrest
  obtain ⟨t, ht⟩ := Handout.exists_step min hrest
  exact hs t ht

/-- Five rows, of which one has an envelope of NaN and one an infinite one. -/
def oddRows : List (Boxed Nat) :=
  [⟨⟨0 / 0, 0, 0 / 0, 0⟩, 0⟩, ⟨⟨0, 0, 1, 1⟩, 1⟩, ⟨⟨0, 0, 1 / 0, 1 / 0⟩, 2⟩, ⟨⟨5, 5, 6, 6⟩, 3⟩,
    ⟨⟨5, 0, 6, 1⟩, 4⟩]

theorem dividesLegally_oddRows :
    max 2 (2 * 2) ≤ oddRows.length ∧ DividesLegally 2 oddRows :=
  have h : max 2 (2 * 2) ≤ oddRows.length := by decide
  ⟨h, dividesLegally h⟩

end SpatialStore.Split
