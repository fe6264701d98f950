import SpatialStore.Proofs.Index.RTree.Map

/-!
# Rows that removal misses

Removal looks for a row in the boxes that contain its envelope. No box contains an envelope with a
NaN side, so such a row is only found in a tree that is a single node; in a higher tree the map
forgets it while the nodes keep it. What is kept stays for good, and if the row is inserted again
later, removal may take either of its two entries (`deleted_row_found`).

Every tree that comes about by insertions and removals holds the rows of its map, and as many
others as removals missed their row (`leaves_runTree`). So the nodes hold exactly the rows of the
map if and only if no removal missed one.
-/

namespace SpatialStore

/-- An envelope with a NaN side lies in no other. -/
theorem Envelope.numeric_of_contains {u e : Envelope} (h : u.contains e = true) : e.Numeric := by
  simp only [Envelope.contains, Bool.and_eq_true, decide_eq_true_eq] at h
  obtain ⟨⟨⟨h₁, h₂⟩, h₃⟩, h₄⟩ := h
  exact ⟨⟨(Double.isNaN_of_le h₁).2, (Double.isNaN_of_le h₂).2⟩,
    (Double.isNaN_of_le h₃).1, (Double.isNaN_of_le h₄).1⟩

namespace RTree

open Node (Tight)

variable {t t' : RTree} {m : Std.ExtTreeMap RowId Envelope} {id : RowId} {e : Envelope}

/-! ### One removal -/

/-- Where there is nothing to replace, everything stays. -/
theorem Node.replaceFirst_eq_none {α β : Type} {f : α → Option (List α × β)} {xs : List α}
    (h : ∀ x ∈ xs, f x = none) : replaceFirst f xs = none := by
  induction xs with
  | nil => rfl
  | cons x xs ih =>
    obtain ⟨hx, hxs⟩ := List.forall_mem_cons.mp h
    rw [replaceFirst_cons_of_eq_none hx, ih hxs]
    rfl

/-- Above the lowest nodes a row whose envelope has a NaN side is not found. -/
theorem Node.remove_eq_none {h min : Nat} (hnum : ¬ e.Numeric) (node : Node (h + 1)) :
    remove min id e (h + 1) node = none := by
  refine replaceFirst_eq_none fun child _ => ?_
  rw [if_neg]
  exact fun hcontains => hnum (Envelope.numeric_of_contains hcontains)

/-- The row with an envelope can be found in the nodes. -/
def Findable (t : RTree) (e : Envelope) : Prop := e.Numeric ∨ t.height = 0

instance (t : RTree) (e : Envelope) : Decidable (t.Findable e) :=
  inferInstanceAs (Decidable (_ ∨ _))

/-- A sound tree whose nodes hold the rows of its map, and perhaps others. -/
structure Covers (t : RTree) : Prop extends Sound t where
  subset : boxes t.envelopes ⊆ t.rows

theorem Covers.remove_isSome (ht : t.Covers) (he : t.envelopes[id]? = some e)
    (hfindable : t.Findable e) :
    (Node.remove t.minEntries id e t.height t.root).isSome := by
  have hmem : ⟨e, id⟩ ∈ t.rows := ht.subset (mem_boxes.mpr he)
  obtain ⟨maxEntries, minEntries, height, root, envelopes⟩ := t
  rcases hfindable with hnum | rfl
  · exact Node.remove_isSome minEntries ht.tight hmem hnum
  · have hany : (Node.toRows root).any (·.item == id) = true :=
      List.any_eq_true.mpr ⟨_, hmem, beq_self_eq_true id⟩
    simp only [Node.remove, hany, if_true, Option.isSome_some]

/-- The nodes lose one entry of a row that can be found, and nothing otherwise. -/
theorem Covers.rows_erase? (ht : t.Covers) (he : t.envelopes[id]? = some e)
    (h : t.erase? id = some t') :
    t'.Sound ∧ if t.Findable e then ∃ x, x.item = id ∧ (x :: t'.rows).Perm t.rows
      else t'.rows.Perm t.rows := by
  split_ifs with hfindable
  · obtain ⟨⟨left, orphans⟩, hremove⟩ :=
      Option.isSome_iff_exists.mp (ht.remove_isSome he hfindable)
    exact ht.toSound.erase?_of_remove he hremove h
  · obtain ⟨e', he', rfl⟩ := Option.map_eq_some_iff.mp h
    obtain rfl := Option.some.inj (he.symm.trans he')
    have hremove : Node.remove t.minEntries id e t.height t.root = none := by
      rw [Findable, not_or] at hfindable
      obtain ⟨maxEntries, minEntries, height, root, envelopes⟩ := t
      cases height with
      | zero => exact absurd rfl hfindable.2
      | succ height => exact Node.remove_eq_none hfindable.1 root
    obtain ⟨htight, hroot, hrows⟩ := collapse_spec ht.tight
    rw [hremove, Option.getD_none]
    dsimp only
    generalize collapse t.height t.root = r at htight hroot hrows
    obtain ⟨height, root⟩ := r
    exact ⟨⟨ht.minEntries, htight, hroot⟩, .of_eq hrows⟩

theorem size_eq_length_boxes (t : RTree) : t.size = (boxes t.envelopes).length := by
  rw [boxes, List.length_map, Std.ExtTreeMap.length_toList, size]

/-- Removal leaves one entry too many if it does not find the row. -/
theorem Covers.erase {k : Nat} (ht : t.Covers) (id : RowId) (hk : t.rows.length = t.size + k) :
    (t.erase id).Covers ∧ (t.erase id).rows.length = (t.erase id).size +
      (k + if ∀ e ∈ t.envelopes[id]?, t.Findable e then 0 else 1) := by
  cases he : t.envelopes[id]? with
  | none =>
    have hnone : t.erase? id = none := Option.map_eq_none_iff.mpr he
    rw [RTree.erase, hnone, Option.getD_none]
    exact ⟨ht, by simpa using hk⟩
  | some e =>
    obtain ⟨t', h⟩ : ∃ t', t.erase? id = some t' := ⟨_, Option.map_eq_some_iff.mpr ⟨e, he, rfl⟩⟩
    obtain ⟨hsound, hrows⟩ := ht.rows_erase? he h
    have henvelopes := erase?_envelopes h
    have hboxes := boxes_erase he
    rw [RTree.erase, h, Option.getD_some]
    rw [size_eq_length_boxes, ← hboxes.length_eq, ← henvelopes, List.length_cons,
      ← size_eq_length_boxes] at hk
    -- no other row of the map is concerned
    have hsubset (x : Boxed RowId) (hx : x ∈ boxes t'.envelopes) : x ∈ t.rows ∧ x.item ≠ id := by
      rw [henvelopes] at hx
      refine ⟨ht.subset (hboxes.subset (List.mem_cons_of_mem _ hx)), fun hid => ?_⟩
      rw [mem_boxes, hid] at hx
      simp at hx
    split_ifs at hrows ⊢ with hfindable hall hall
    · obtain ⟨x, hid, hperm⟩ := hrows
      have hlength := hperm.length_eq
      rw [List.length_cons] at hlength
      refine ⟨⟨hsound, fun y hy => ?_⟩, by omega⟩
      obtain ⟨hmem, hne⟩ := hsubset y hy
      refine (List.mem_cons.mp (hperm.mem_iff.mpr hmem)).resolve_left ?_
      rintro rfl
      exact hne hid
    · exact absurd (by simpa using hfindable) hall
    · exact absurd (by simpa using hall) hfindable
    · have hlength := hrows.length_eq
      refine ⟨⟨hsound, fun y hy => hrows.mem_iff.mpr (hsubset y hy).1⟩, by omega⟩

/-- An insertion leaves one entry too many if the row had an envelope that is not found. -/
theorem Covers.insert {k : Nat} (ht : t.Covers) (id : RowId) (e : Envelope)
    (hk : t.rows.length = t.size + k) :
    (t.insert id e).Covers ∧ (t.insert id e).rows.length = (t.insert id e).size +
      (k + if ∀ f ∈ t.envelopes[id]?, t.Findable f then 0 else 1) := by
  obtain ⟨herase, hlength⟩ := ht.erase id hk
  have hid : (t.erase id).envelopes[id]? = none := by simp
  have hboxes := boxes_insert (e := e) hid
  obtain ⟨hsound, hrows⟩ := Sound.place
    (t := { t.erase id with envelopes := (t.erase id).envelopes.insert id e })
    ⟨herase.minEntries, herase.tight, herase.root⟩ ⟨e, id⟩
  have hrows : (t.insert id e).rows.Perm (⟨e, id⟩ :: (t.erase id).rows) := hrows
  have henvelopes : (t.insert id e).envelopes = (t.erase id).envelopes.insert id e :=
    place_envelopes _ _
  refine ⟨⟨hsound, fun x hx => ?_⟩, ?_⟩
  · rw [henvelopes] at hx
    refine hrows.mem_iff.mpr (List.cons_subset_cons _ herase.subset ?_)
    exact hboxes.mem_iff.mpr hx
  · rw [hrows.length_eq, List.length_cons, hlength, size_eq_length_boxes (t.insert id e),
      henvelopes, ← hboxes.length_eq, List.length_cons, ← size_eq_length_boxes]
    omega

/-! ### Runs of changes -/

/-- The row that a change puts in or takes out. -/
def Change.row : Change → RowId
  | insert id _ => id
  | erase id => id

/-- If the row of a change is there, its entry can be found and removed. -/
def Change.Finds (t : RTree) (c : Change) : Prop := ∀ e ∈ t.envelopes[c.row]?, t.Findable e

instance (t : RTree) (c : Change) : Decidable (c.Finds t) :=
  inferInstanceAs (Decidable (∀ e ∈ t.envelopes[c.row]?, t.Findable e))

/-- Number of the changes that leave the former entry of their row in the nodes. -/
def missed (t : RTree) : List Change → Nat
  | [] => 0
  | c :: changes => (if c.Finds t then 0 else 1) + missed (c.onTree t) changes

/-- The nodes of a tree hold the rows of a map, and `k` others. -/
structure Leaves (t : RTree) (m : Std.ExtTreeMap RowId Envelope) (k : Nat) : Prop where
  envelopes : t.envelopes = m
  /-- No row of the map is lost. -/
  subset : boxes m ⊆ t.rows
  length : t.rows.length = m.size + k
  /-- The nodes hold exactly the rows of the map when there are no others. -/
  perm_iff : t.rows.Perm (boxes m) ↔ k = 0
  /-- A query yields what the nodes hold. -/
  query : ∀ w, (t.query w).Perm ((t.rows.filter (·.envelope.intersects w)).map (·.item))

theorem Covers.leaves {k : Nat} (ht : t.Covers) (hk : t.rows.length = t.size + k) :
    t.Leaves t.envelopes k where
  envelopes := rfl
  subset := ht.subset
  length := hk
  perm_iff := by
    rw [size_eq_length_boxes] at hk
    constructor
    · intro hperm
      have hlength := hperm.length_eq
      omega
    · rintro rfl
      have hsubperm := ((nodup_boxes t.envelopes).of_map _).subperm ht.subset
      exact (hsubperm.perm_of_length_le (Nat.le_of_eq hk)).symm
  query w := Node.query_perm w ht.tight

private theorem Covers.foldl {k : Nat} (ht : t.Covers) (hk : t.rows.length = t.size + k)
    (changes : List Change) :
    (changes.foldl Change.onTree t).Covers ∧ (changes.foldl Change.onTree t).rows.length =
      (changes.foldl Change.onTree t).size + (k + missed t changes) := by
  induction changes generalizing t k with
  | nil => exact ⟨ht, hk⟩
  | cons c changes ih =>
    have hchange : (c.onTree t).Covers ∧ (c.onTree t).rows.length =
        (c.onTree t).size + (k + if c.Finds t then 0 else 1) := by
      cases c with
      | insert id e => exact ht.insert id e hk
      | erase id => exact ht.erase id hk
    obtain ⟨hcovers, hlength⟩ := ih hchange.1 hchange.2
    exact ⟨hcovers, by rw [List.foldl_cons, missed, hlength, Nat.add_assoc]⟩

theorem envelopes_foldl (changes : List Change) :
    (changes.foldl Change.onTree t).envelopes = changes.foldl Change.onMap t.envelopes := by
  induction changes generalizing t with
  | nil => rfl
  | cons c changes ih =>
    have hchange : (c.onTree t).envelopes = c.onMap t.envelopes := by
      cases c with
      | insert id e => exact insert_envelopes t id e
      | erase id => exact erase_envelopes t id
    rw [List.foldl_cons, ih, hchange]
    rfl

/-- After any run of changes, whatever their envelopes, the nodes hold the rows of the map, and one
more for every change that missed the former entry of its row. -/
theorem leaves_runTree (settings : NodeSettings) (changes : List Change) :
    (runTree settings changes).Leaves (runMap changes) (missed (empty settings) changes) := by
  have hexact := exact_empty settings
  have hempty : (empty settings).Covers := ⟨hexact.toSound, hexact.perm.symm.subset⟩
  have hsize : (empty settings).rows.length = (empty settings).size + 0 := by
    rw [size_eq_length_boxes, hexact.perm.length_eq, Nat.add_zero]
  obtain ⟨hcovers, hlength⟩ := hempty.foldl hsize changes
  rw [Nat.zero_add] at hlength
  have hleaves := hcovers.leaves hlength
  rwa [envelopes_foldl] at hleaves

/-- Five rows, of which the first one has no abscissa, and is removed, inserted again at the origin
and removed again. -/
def sampleChanges : List Change :=
  [.insert 1 ⟨0 / 0, 0, 0 / 0, 0⟩, .insert 2 ⟨0, 0, 0, 0⟩, .insert 3 ⟨1, 0, 1, 0⟩,
    .insert 4 ⟨9, 9, 9, 9⟩, .insert 5 ⟨8, 9, 8, 9⟩, .erase 1, .insert 1 ⟨0, 1, 0, 1⟩, .erase 1]

/-- A query yields a row that was removed. -/
theorem deleted_row_found :
    (runTree ⟨4, 2⟩ sampleChanges).contains 1 = false ∧
      1 ∈ (runTree ⟨4, 2⟩ sampleChanges).query ⟨0, 0, 1, 1⟩ := by
  decide +kernel

end RTree

end SpatialStore
