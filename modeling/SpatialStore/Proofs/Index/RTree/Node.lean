import SpatialStore.Index.RTree.Node
import SpatialStore.Proofs.Geometry.Hull
import SpatialStore.Proofs.Index.RTree.Split

/-!
# Tight nodes

A node is *tight* when every box in it, at every height, is the hull of the rows below the box.
Insertion and removal keep nodes tight and change the rows below them by one row only, up to order
(`parts_insert`, `remove_spec`). Tightness is what searching rests on: a query finds the rows that
meet the window (`query_perm`), and removal finds every row with a numeric envelope
(`remove_isSome`).

The heuristics (which child to descend to, how to split) do not matter for any of this.
-/

namespace SpatialStore.RTree.Node

open Envelope (Hull)

variable {h : Nat}

/-! ### Rows -/

@[simp]
theorem rows_nil : rows h [] = [] := by
  cases h <;> rfl

theorem rows_append (a b : Node h) : rows h (a ++ b) = rows h a ++ rows h b := by
  cases h with
  | zero => rfl
  | succ h => exact List.flatMap_append

theorem rows_perm {a b : Node h} (hab : a.Perm b) : (rows h a).Perm (rows h b) := by
  cases h with
  | zero => exact hab
  | succ h => exact hab.flatMap_right _

theorem rows_cons (child : Boxed (Item (h + 1))) (node : Node (h + 1)) :
    rows (h + 1) (child :: node) = rows h child.item ++ rows (h + 1) node :=
  List.flatMap_cons

/-- Replacing a child replaces its rows; the others are `rest`. -/
theorem exists_rows_set {node : Node (h + 1)} {i : Nat} {child : Boxed (Item (h + 1))}
    (hi : node[i]? = some child) :
    ∃ rest, (rows (h + 1) node).Perm (rows h child.item ++ rest) ∧
      ∀ new, (rows (h + 1) (node.set i new)).Perm (rows h new.item ++ rest) := by
  obtain ⟨hlt, rfl⟩ := List.getElem?_eq_some_iff.mp hi
  refine ⟨rows (h + 1) (node.eraseIdx i), ?_, fun new => ?_⟩
  · rw [← rows_cons]
    exact rows_perm (List.getElem_cons_eraseIdx_perm hlt).symm
  · rw [← rows_cons]
    exact rows_perm (List.set_perm_cons_eraseIdx hlt new)

/-! ### Tightness -/

/-- Every box in the node is the hull of the rows below it, and the nodes below are tight. -/
def Tight : (h : Nat) → Node h → Prop
  | 0, _ => True
  | h + 1, node => ∀ child ∈ node,
    Hull child.envelope ((rows h child.item).map (·.envelope)) ∧ Tight h child.item

/-- A box that is the hull of the rows of its node, where the node is tight. -/
def TightBox (child : Boxed (Item (h + 1))) : Prop :=
  Hull child.envelope ((rows h child.item).map (·.envelope)) ∧ Tight h child.item

theorem Tight.of_subset {a b : Node h} (hb : Tight h b) (hab : a ⊆ b) : Tight h a := by
  cases h with
  | zero => trivial
  | succ h => exact fun child hchild => hb child (hab hchild)

theorem Tight.set {node : Node (h + 1)} {new : Boxed (Item (h + 1))} (ht : Tight (h + 1) node)
    (hnew : TightBox new) (i : Nat) : Tight (h + 1) (node.set i new) := by
  intro child hchild
  rcases List.mem_or_eq_of_mem_set hchild with hmem | rfl
  · exact ht child hmem
  · exact hnew

theorem TightBox.ne_nil {child : Boxed (Item (h + 1))} (hc : TightBox child) :
    (child.item : Node h) ≠ [] := by
  intro hnil
  refine hc.1.ne_nil ?_
  rw [hnil, rows_nil, List.map_nil]

/-- The box around a tight node is the hull of its rows. -/
theorem Tight.hull_envelope {node : Node h} {u : Envelope} (ht : Tight h node)
    (hu : envelope? node = some u) : Hull u ((rows h node).map (·.envelope)) := by
  have hull := Envelope.hull_of_unionAll hu
  cases h with
  | zero => exact hull
  | succ h =>
    change Hull u ((node.flatMap fun child => rows h child.item).map (·.envelope))
    rw [List.map_flatMap]
    exact hull.flatMap fun child hchild => (ht child hchild).1

theorem envelope?_of_ne_nil {node : Node h} (hne : node ≠ []) : ∃ u, envelope? node = some u := by
  cases hu : envelope? node with
  | some u => exact ⟨u, rfl⟩
  | none => exact absurd (by simpa using Envelope.unionAll_eq_none_iff.mp hu) hne

/-- A tight node in its own box. -/
theorem Tight.tightBox {node : Node h} {u : Envelope} (ht : Tight h node)
    (hu : envelope? node = some u) : TightBox (h := h) ⟨u, node⟩ :=
  ⟨ht.hull_envelope hu, ht⟩

theorem Tight.of_mem_boxed? {node : Node h} (ht : Tight h node) :
    ∀ b ∈ boxed? node, TightBox b := by
  intro b hb
  obtain ⟨u, hu, rfl⟩ := Option.map_eq_some_iff.mp hb
  exact ht.tightBox hu

/-- Boxing keeps the rows of a node, an empty node being no loss. -/
theorem rows_boxed? (node : Node h) :
    ((boxed? node).toList.flatMap fun b => rows h b.item) = rows h node := by
  rcases eq_or_ne node [] with rfl | hne
  · rw [rows_nil]
    rfl
  · obtain ⟨u, hu⟩ := envelope?_of_ne_nil hne
    rw [boxed?, hu]
    exact List.append_nil _

/-! ### Insertion -/

/-- A tight node with some rows, possibly in two parts of which the second one is boxed. -/
structure Parts (rs : List (Boxed RowId)) (r : Node h × Option (Boxed (Item (h + 1)))) :
    Prop where
  ne_nil : r.1 ≠ []
  tight : Tight h r.1
  sibling : ∀ b ∈ r.2, TightBox b
  perm : (rows h r.1 ++ r.2.toList.flatMap fun b => rows h b.item).Perm rs

theorem Parts.of_perm {rs rs' : List (Boxed RowId)}
    {r : Node h × Option (Boxed (Item (h + 1)))} (hr : Parts rs r) (h : rs.Perm rs') :
    Parts rs' r :=
  ⟨hr.ne_nil, hr.tight, hr.sibling, hr.perm.trans h⟩

theorem choose_lt {α : Type} {children : List (Boxed α)} (hne : children ≠ []) (e : Envelope) :
    choose children e < children.length := by
  refine List.foldlRecOn (motive := fun best : Nat × Float × Float => best.1 < children.length)
    _ _ (List.length_pos_iff.mpr hne) fun best hbest x hx => ?_
  dsimp only
  split
  · exact Split.lt_of_mem_zipIdx hx
  · exact hbest

/-- Dividing a node distributes its rows to the parts. -/
theorem parts_divide (max min : Nat) {node : Node h} (hne : node ≠ []) (ht : Tight h node) :
    Parts (rows h node) (divide max min node) := by
  rw [divide]
  split_ifs with hle
  · exact ⟨hne, ht, by simp, by simp⟩
  · have hperm := Split.quadratic_perm min node
    have hkept : (Split.quadratic min node).1 ≠ [] := by
      rcases Nat.lt_or_ge node.length 2 with hlt | hge
      · rw [Split.quadratic_of_length_lt min hlt]
        exact hne
      · exact (Split.quadratic_ne_nil min hge).1
    have htight : Tight h (Split.quadratic min node).1 :=
      ht.of_subset fun c hc => hperm.subset (List.mem_append_left _ hc)
    have hsplit : Tight h (Split.quadratic min node).2 :=
      ht.of_subset fun c hc => hperm.subset (List.mem_append_right _ hc)
    refine ⟨hkept, htight, hsplit.of_mem_boxed?, ?_⟩
    change (rows h _ ++ (boxed? _).toList.flatMap fun b => rows h b.item).Perm _
    rw [rows_boxed?, ← rows_append]
    exact rows_perm hperm

/-- Inserting a row adds it to the rows of a node. A node of nodes must not be empty, as there
would be none to descend to. -/
theorem parts_insert (max min : Nat) (x : Boxed RowId) {node : Node h} (ht : Tight h node)
    (hne : h ≠ 0 → node ≠ []) : Parts (x :: rows h node) (insert max min x h node) := by
  induction h with
  | zero =>
    have hmore : ofRows (toRows node ++ [x]) ≠ [] :=
      List.append_ne_nil_of_right_ne_nil _ (List.cons_ne_nil x [])
    have hparts := parts_divide max min hmore trivial
    exact ⟨hparts.ne_nil, hparts.tight, hparts.sibling,
      hparts.perm.trans (List.perm_append_singleton x _)⟩
  | succ h ih =>
    rw [insert]
    obtain ⟨child, hchild⟩ : ∃ child, node[choose node x.envelope]? = some child :=
      ⟨_, List.getElem?_eq_getElem (choose_lt (hne h.succ_ne_zero) x.envelope)⟩
    have hbox : TightBox child := ht child (List.mem_of_getElem? hchild)
    have hparts := ih hbox.2 fun _ => hbox.ne_nil
    -- the rows of the other children stay
    obtain ⟨rest, hrest, hset⟩ := exists_rows_set hchild
    have hset_ne (new) : node.set (choose node x.envelope) new ≠ [] := by
      rw [ne_eq, List.set_eq_nil_iff]
      exact hne h.succ_ne_zero
    simp only [hchild]
    generalize insert max min x h child.item = r at hparts
    obtain ⟨kept, sibling⟩ := r
    obtain ⟨hkept, htight, hsibling, hperm⟩ := hparts
    cases sibling with
    | none =>
      -- the box grows by the row
      have hnew : TightBox (h := h) ⟨child.envelope.union x.envelope, kept⟩ := by
        refine ⟨(hbox.1.union (.singleton x.envelope)).perm ?_, htight⟩
        refine List.perm_append_comm.trans ?_
        simpa using (hperm.map (·.envelope)).symm
      refine (parts_divide max min (hset_ne _) (ht.set hnew _)).of_perm ?_
      refine (hset _).trans ((List.Perm.append_right rest (by simpa using hperm)).trans ?_)
      exact hrest.symm.cons x
    | some sibling =>
      -- the box is taken anew, as rows went to the sibling
      obtain ⟨u, hu⟩ := envelope?_of_ne_nil hkept
      simp only [hu, Option.getD_some]
      have htight' : Tight (h + 1)
          (node.set (choose node x.envelope) ⟨u, kept⟩ ++ [sibling]) := by
        intro c hc
        rcases List.mem_append.mp hc with hc | hc
        · exact ht.set (htight.tightBox hu) _ c hc
        · rw [List.mem_singleton.mp hc]
          exact hsibling sibling rfl
      refine (parts_divide max min (List.append_ne_nil_of_left_ne_nil (hset_ne _) _)
        htight').of_perm ?_
      rw [rows_append, rows_cons, rows_nil, List.append_nil]
      refine ((hset _).append_right _).trans ?_
      have hboth : (rows h kept ++ rows h sibling.item).Perm (x :: rows h child.item) := by
        simpa using hperm
      refine List.Perm.trans ?_ ((hboth.append_right rest).trans (hrest.symm.cons x))
      rw [List.append_assoc, List.append_assoc]
      exact List.perm_append_comm.append_left _

/-! ### Removal -/

section ReplaceFirst

variable {α β : Type} {f : α → Option (List α × β)} {x : α} {xs ys : List α} {b : β}

theorem replaceFirst_cons_of_eq_some (hx : f x = some (ys, b)) :
    replaceFirst f (x :: xs) = some (ys ++ xs, b) := by
  rw [replaceFirst, hx]

theorem replaceFirst_cons_of_eq_none (hx : f x = none) :
    replaceFirst f (x :: xs) = (replaceFirst f xs).map fun r => (x :: r.1, r.2) := by
  rw [replaceFirst, hx]

/-- Where the first replacement was made. -/
theorem replaceFirst_eq_some (hr : replaceFirst f xs = some (ys, b)) :
    ∃ before x after new, xs = before ++ x :: after ∧ f x = some (new, b) ∧
      ys = before ++ new ++ after := by
  induction xs generalizing ys with
  | nil => cases hr
  | cons x xs ih =>
    cases hx : f x with
    | some r =>
      rw [replaceFirst_cons_of_eq_some hx] at hr
      cases hr
      exact ⟨[], x, xs, r.1, rfl, hx, rfl⟩
    | none =>
      rw [replaceFirst_cons_of_eq_none hx] at hr
      obtain ⟨⟨zs, c⟩, hz, hzs⟩ := Option.map_eq_some_iff.mp hr
      obtain ⟨rfl, rfl⟩ := Prod.mk.inj hzs
      obtain ⟨before, y, after, new, rfl, hy, rfl⟩ := ih hz
      exact ⟨x :: before, y, after, new, rfl, hy, rfl⟩

theorem replaceFirst_isSome (hx : x ∈ xs) (hf : (f x).isSome) : (replaceFirst f xs).isSome := by
  induction xs with
  | nil => cases hx
  | cons y ys ih =>
    cases hy : f y with
    | some r =>
      rw [replaceFirst_cons_of_eq_some hy]
      rfl
    | none =>
      have hne : x ≠ y := by
        rintro rfl
        rw [hy] at hf
        cases hf
      rw [replaceFirst_cons_of_eq_none hy, Option.isSome_map]
      exact ih ((List.mem_cons.mp hx).resolve_left hne)

end ReplaceFirst

/-- What removal leaves is tight, and together with the orphans it has all rows but one with the
given id. -/
theorem remove_spec {min : Nat} {id : RowId} {e : Envelope} (hmin : 0 < min) {node left : Node h}
    {orphans : List (Boxed RowId)} (ht : Tight h node)
    (hr : remove min id e h node = some (left, orphans)) :
    Tight h left ∧ ∃ x, x.item = id ∧ (x :: (rows h left ++ orphans)).Perm (rows h node) := by
  induction h generalizing orphans with
  | zero =>
    rw [remove] at hr
    split_ifs at hr with hany
    simp only [Option.some.injEq, Prod.mk.injEq] at hr
    obtain ⟨rfl, rfl⟩ := hr
    obtain ⟨y, hy, hid⟩ := List.any_eq_true.mp hany
    obtain ⟨x, before, after, -, hx, hnode, herase⟩ :=
      List.exists_of_eraseP (p := fun y : Boxed RowId => y.item == id) hy hid
    refine ⟨trivial, x, beq_iff_eq.mp hx, ?_⟩
    change (x :: (List.eraseP _ (toRows node) ++ [])).Perm (toRows node)
    rw [herase, hnode, List.append_nil]
    exact List.perm_middle.symm
  | succ h ih =>
    obtain ⟨before, child, after, new, rfl, hchild, rfl⟩ := replaceFirst_eq_some hr
    split_ifs at hchild with hcontains
    obtain ⟨⟨left, lost⟩, hrec, heq⟩ := Option.map_eq_some_iff.mp hchild
    have hbox : TightBox child := ht child (List.mem_append_right _ List.mem_cons_self)
    obtain ⟨htight, x, hid, hperm⟩ := ih hbox.2 hrec
    -- a node that became too small is replaced by nothing, its rows being orphans
    have hnew : (∀ c ∈ new, TightBox c) ∧
        (rows (h + 1) new ++ orphans).Perm (rows h left ++ lost) := by
      dsimp only at heq
      split_ifs at heq with hsmall
      · obtain ⟨rfl, rfl⟩ := Prod.mk.inj heq
        exact ⟨by simp, by simpa using List.perm_append_comm⟩
      · obtain ⟨rfl, rfl⟩ := Prod.mk.inj heq
        have hleft : left ≠ [] := List.ne_nil_of_length_pos (by omega)
        obtain ⟨u, hu⟩ := envelope?_of_ne_nil hleft
        rw [hu, rows_cons, rows_nil, List.append_nil]
        exact ⟨by simpa using htight.tightBox hu, .refl _⟩
    refine ⟨fun c hc => ?_, x, hid, ?_⟩
    · rcases List.mem_append.mp hc with hc | hc
      · rcases List.mem_append.mp hc with hc | hc
        · exact ht c (List.mem_append_left _ hc)
        · exact hnew.1 c hc
      · exact ht c (List.mem_append_right _ (List.mem_cons_of_mem _ hc))
    · -- the other children keep their rows
      have hleft : (rows (h + 1) (before ++ new ++ after) ++ orphans).Perm
          (rows (h + 1) before ++ rows (h + 1) after ++ (rows h left ++ lost)) := by
        simp only [rows_append, List.append_assoc]
        refine List.Perm.append_left _ ?_
        refine (List.perm_append_comm_assoc _ _ _).trans (List.Perm.append_left _ ?_)
        exact hnew.2
      refine (hleft.cons x).trans (List.perm_middle.symm.trans ?_)
      refine (hperm.append_left _).trans ?_
      rw [rows_append, rows_cons, List.append_assoc]
      exact List.perm_append_comm.append_left _

/-- A row with a numeric envelope is found. -/
theorem remove_isSome (min : Nat) {id : RowId} {e : Envelope} {node : Node h} (ht : Tight h node)
    (hmem : ⟨e, id⟩ ∈ rows h node) (hnum : e.Numeric) : (remove min id e h node).isSome := by
  induction h with
  | zero =>
    rw [remove, if_pos]
    · rfl
    · exact List.any_eq_true.mpr ⟨_, hmem, beq_self_eq_true id⟩
  | succ h ih =>
    obtain ⟨child, hchild, hmem⟩ := List.mem_flatMap.mp hmem
    obtain ⟨hull, htight⟩ := ht child hchild
    refine replaceFirst_isSome hchild ?_
    rw [if_pos (hull.contains (List.mem_map_of_mem hmem) hnum), Option.isSome_map]
    exact ih htight hmem

/-! ### Search -/

/-- A query finds the rows that meet the window. -/
theorem query_perm (w : Envelope) {node : Node h} (ht : Tight h node) :
    (query w h node).Perm
      (((rows h node).filter (·.envelope.intersects w)).map (·.item)) := by
  induction h with
  | zero => exact .refl _
  | succ h ih =>
    rw [query]
    refine ((List.reverse_perm _).flatMap_right _).trans ?_
    induction node with
    | nil => exact .nil
    | cons child node ihnode =>
      have hrest := ihnode fun c hc => ht c (List.mem_cons_of_mem _ hc)
      obtain ⟨hull, htight⟩ := ht child List.mem_cons_self
      rw [rows_cons, List.filter_append, List.map_append, List.filter_cons]
      split
      · rw [List.flatMap_cons]
        exact (ih htight).append hrest
      next hmiss =>
        -- a box that misses the window has no row that meets it
        have hnone : (rows h child.item).filter (·.envelope.intersects w) = [] := by
          refine List.filter_eq_nil_iff.mpr fun x hx hmeets => hmiss ?_
          refine Envelope.intersects_of_contains ?_ hmeets
          exact hull.contains (List.mem_map_of_mem hx) (Envelope.numeric_of_intersects hmeets).1
        rw [hnone]
        exact hrest

end SpatialStore.RTree.Node
