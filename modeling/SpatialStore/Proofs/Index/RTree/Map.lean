import Mathlib.Data.List.Nodup
import Mathlib.Data.List.Perm.Basic
import SpatialStore.Index.RTree.Basic
import SpatialStore.Proofs.Index.RTree.Node
import SpatialStore.Proofs.Maps

/-!
# The R-tree as a map

A tree is *exact* when its nodes are tight and the rows in them are those of the map of envelopes
that is kept beside them. The empty tree is exact, insertion and removal keep trees exact as long
as removal finds the row, which it does when the envelope of the row is numeric (`Exact.insert`,
`Exact.erase?`).

An exact tree answers like its map (`Exact.nodup_query`, `Exact.mem_query`, `Exact.extent?`). So
after any run of insertions and removals with numeric envelopes the tree is observationally the map
that the same run produces (`observes_runTree`).
-/

namespace SpatialStore.RTree

open Envelope (Hull)
open Node (Tight)

/-! ### Exact trees -/

/-- The rows in the nodes of a tree. -/
def rows (t : RTree) : List (Boxed RowId) := Node.rows t.height t.root

/-- The rows of a map with their envelopes. -/
def boxes (m : Std.ExtTreeMap RowId Envelope) : List (Boxed RowId) :=
  m.toList.map fun p => ⟨p.2, p.1⟩

/-- The nodes of the tree are tight, and there is a child to descend to. -/
structure Sound (t : RTree) : Prop where
  minEntries : 0 < t.minEntries
  tight : Tight t.height t.root
  root : t.height ≠ 0 → t.root ≠ []

/-- A sound tree whose nodes hold the rows of its map. -/
structure Exact (t : RTree) : Prop extends Sound t where
  perm : t.rows.Perm (boxes t.envelopes)

variable {t : RTree} {m : Std.ExtTreeMap RowId Envelope} {id : RowId} {e : Envelope}

theorem mem_boxes {x : Boxed RowId} : x ∈ boxes m ↔ m[x.item]? = some x.envelope := by
  rw [← Std.ExtTreeMap.mem_toList_iff_getElem?_eq_some]
  refine ⟨fun hx => ?_, fun hx => List.mem_map_of_mem hx⟩
  obtain ⟨p, hp, rfl⟩ := List.mem_map.mp hx
  exact hp

theorem nodup_boxes (m : Std.ExtTreeMap RowId Envelope) : ((boxes m).map (·.item)).Nodup := by
  rw [boxes, List.map_map]
  exact List.pairwise_map.mpr
    (m.distinct_keys_toList.imp fun hne heq => hne (Nat.compare_eq_eq.mpr heq))

/-- Rows of one list with distinct rows are determined by membership. -/
private theorem boxes_perm {xs : List (Boxed RowId)} (hnodup : (xs.map (·.item)).Nodup)
    (hmem : ∀ x, x ∈ xs ↔ m[x.item]? = some x.envelope) : xs.Perm (boxes m) :=
  (List.perm_ext_iff_of_nodup (hnodup.of_map _) ((nodup_boxes m).of_map _)).mpr fun x => by
    rw [hmem, mem_boxes]

/-- A new row adds itself to the list. -/
theorem boxes_insert (hid : m[id]? = none) :
    (⟨e, id⟩ :: boxes m).Perm (boxes (m.insert id e)) := by
  refine boxes_perm ?_ fun x => ?_
  · rw [List.map_cons, List.nodup_cons]
    refine ⟨fun hmem => ?_, nodup_boxes m⟩
    obtain ⟨x, hx, rfl⟩ := List.mem_map.mp hmem
    rw [mem_boxes, hid] at hx
    cases hx
  · rw [List.mem_cons, mem_boxes, Maps.getElem?_insert]
    obtain ⟨f, i⟩ := x
    dsimp only
    split_ifs with hi
    · rw [hi, hid]
      simp [eq_comm]
    · simp [hi]

/-- Removing a row takes it off the list. -/
theorem boxes_erase (hid : m[id]? = some e) :
    (⟨e, id⟩ :: boxes (m.erase id)).Perm (boxes m) := by
  have hnone : (m.erase id)[id]? = none := by simp
  refine (boxes_insert hnone).trans (.of_eq ?_)
  congr 1
  refine Std.ExtTreeMap.ext_getElem? fun k => ?_
  rw [Maps.getElem?_insert, Maps.getElem?_erase]
  split_ifs with hk
  · rw [hk, hid]
  · rfl

/-! ### The map beside the nodes -/

@[simp]
theorem place_envelopes (t : RTree) (x : Boxed RowId) : (t.place x).envelopes = t.envelopes := by
  simp only [place]
  split <;> rfl

@[simp]
theorem foldl_place_envelopes (t : RTree) (xs : List (Boxed RowId)) :
    (xs.foldl place t).envelopes = t.envelopes := by
  induction xs generalizing t with
  | nil => rfl
  | cons x xs ih => rw [List.foldl_cons, ih, place_envelopes]

/-- Removal takes the row off the map, whether or not it is found in the nodes. -/
theorem erase?_envelopes {t' : RTree} (h : t.erase? id = some t') :
    t'.envelopes = t.envelopes.erase id := by
  obtain ⟨e, -, rfl⟩ := Option.map_eq_some_iff.mp h
  exact foldl_place_envelopes _ _

@[simp]
theorem erase_envelopes (t : RTree) (id : RowId) :
    (t.erase id).envelopes = t.envelopes.erase id := by
  rw [erase]
  cases h : t.erase? id with
  | some t' => exact erase?_envelopes h
  | none =>
    have hid : t.envelopes[id]? = none := Option.map_eq_none_iff.mp h
    refine Std.ExtTreeMap.ext_getElem? fun k => ?_
    rw [Option.getD_none, Maps.getElem?_erase]
    split_ifs with hk
    · rw [hk, hid]
    · rfl

@[simp]
theorem insert_envelopes (t : RTree) (id : RowId) (e : Envelope) :
    (t.insert id e).envelopes = t.envelopes.insert id e := by
  rw [insert, place_envelopes, erase_envelopes]
  refine Std.ExtTreeMap.ext_getElem? fun k => ?_
  rw [Maps.getElem?_insert, Maps.getElem?_insert, Maps.getElem?_erase]
  split_ifs <;> rfl

/-! ### Keeping trees exact -/

/-- Lowering the root keeps its rows, and leaves a child to descend to. -/
theorem collapse_spec : ∀ {h : Nat} {node : Node h}, Tight h node →
    Tight (collapse h node).1 (collapse h node).2 ∧
      ((collapse h node).1 ≠ 0 → (collapse h node).2 ≠ []) ∧
      Node.rows (collapse h node).1 (collapse h node).2 = Node.rows h node
  | 0, _, _ => ⟨trivial, fun h => absurd rfl h, rfl⟩
  | _ + 1, [], _ => ⟨trivial, fun h => absurd rfl h, rfl⟩
  | h + 1, [child], ht => by
    obtain ⟨htight, hroot, hrows⟩ := collapse_spec (ht child List.mem_cons_self).2
    refine ⟨htight, hroot, ?_⟩
    rw [Node.rows_cons, Node.rows_nil, List.append_nil]
    exact hrows
  | _ + 1, _ :: _ :: _, ht => ⟨ht, fun _ => List.cons_ne_nil _ _, rfl⟩

/-- Placing, with what the insertion leaves below the root in view. -/
theorem place_eq (x : Boxed RowId) :
    t.place x = match (Node.insert t.maxEntries t.minEntries x t.height t.root).2 with
      | none => { t with root := (Node.insert t.maxEntries t.minEntries x t.height t.root).1 }
      | some sibling =>
        { t with
          height := t.height + 1
          root :=
            (Node.boxed? (Node.insert t.maxEntries t.minEntries x t.height t.root).1).toList ++
              [sibling] } :=
  rfl

/-- Placing a row adds it to the rows. -/
theorem Sound.place (ht : t.Sound) (x : Boxed RowId) :
    (t.place x).Sound ∧ (t.place x).rows.Perm (x :: t.rows) := by
  have hparts := Node.parts_insert t.maxEntries t.minEntries x ht.tight ht.root
  rw [place_eq]
  -- only the parts count, however they came about
  generalize Node.insert t.maxEntries t.minEntries x t.height t.root = r at hparts
  obtain ⟨kept, sibling⟩ := r
  obtain ⟨hkept, htight, hsibling, hperm⟩ := hparts
  cases sibling with
  | none => exact ⟨⟨ht.minEntries, htight, fun _ => hkept⟩, by simpa [RTree.rows] using hperm⟩
  | some sibling =>
    refine ⟨⟨ht.minEntries, fun child hchild => ?_, fun _ => ?_⟩, ?_⟩
    · rcases List.mem_append.mp hchild with hchild | hchild
      · exact htight.of_mem_boxed? child (Option.mem_toList.mp hchild)
      · rw [List.mem_singleton.mp hchild]
        exact hsibling sibling rfl
    · exact List.append_ne_nil_of_right_ne_nil _ (List.cons_ne_nil _ _)
    · refine List.Perm.trans (.of_eq ?_) hperm
      rw [RTree.rows, Node.rows_append, Node.rows_cons, Node.rows_nil, ← Node.rows_boxed? kept]
      rfl

/-- Placing several rows adds them to the rows. -/
theorem Sound.foldl_place (ht : t.Sound) (xs : List (Boxed RowId)) :
    (xs.foldl RTree.place t).Sound ∧ (xs.foldl RTree.place t).rows.Perm (xs ++ t.rows) := by
  induction xs generalizing t with
  | nil => exact ⟨ht, .refl _⟩
  | cons x xs ih =>
    obtain ⟨hplace, hrows⟩ := ht.place x
    obtain ⟨hsound, hperm⟩ := ih hplace
    refine ⟨hsound, ?_⟩
    exact hperm.trans ((hrows.append_left xs).trans List.perm_middle)

theorem exact_empty (settings : NodeSettings) : (empty settings).Exact where
  minEntries := by simp only [empty]; omega
  tight := trivial
  root h := absurd rfl h
  perm := by simp [rows, boxes, empty, Node.rows_nil]

/-- Removal takes a row that it finds off the rows, and places the orphans again. -/
theorem Sound.erase?_of_remove {t' : RTree} {left : Node t.height} {orphans : List (Boxed RowId)}
    (ht : t.Sound) (he : t.envelopes[id]? = some e)
    (hremove : Node.remove t.minEntries id e t.height t.root = some (left, orphans))
    (h : t.erase? id = some t') : t'.Sound ∧ ∃ x, x.item = id ∧ (x :: t'.rows).Perm t.rows := by
  obtain ⟨e', he', rfl⟩ := Option.map_eq_some_iff.mp h
  obtain rfl := Option.some.inj (he.symm.trans he')
  obtain ⟨htight, x, hid, hperm⟩ := Node.remove_spec ht.minEntries ht.tight hremove
  obtain ⟨htight', hroot, hrows⟩ := collapse_spec htight
  rw [hremove, Option.getD_some]
  dsimp only
  generalize collapse t.height left = r at htight' hroot hrows
  obtain ⟨height, root⟩ := r
  obtain ⟨hsound, hplaced⟩ := Sound.foldl_place
    (t := { t with height, root, envelopes := t.envelopes.erase id })
    ⟨ht.minEntries, htight', hroot⟩ orphans
  refine ⟨hsound, x, hid, (hplaced.cons x).trans (List.Perm.trans (.cons _ ?_) hperm)⟩
  refine List.perm_append_comm.trans (.of_eq ?_)
  exact congrArg (· ++ orphans) hrows

/-- Removing a row with a numeric envelope keeps the tree exact. -/
theorem Exact.erase? {t' : RTree} (ht : t.Exact) (hnum : ∀ e ∈ t.envelopes[id]?, e.Numeric)
    (h : t.erase? id = some t') : t'.Exact := by
  obtain ⟨e, he, -⟩ := Option.map_eq_some_iff.mp h
  have hmem : ⟨e, id⟩ ∈ t.rows := ht.perm.mem_iff.mpr (mem_boxes.mpr he)
  -- removal finds a row with this id
  obtain ⟨⟨left, orphans⟩, hremove⟩ := Option.isSome_iff_exists.mp
    (Node.remove_isSome t.minEntries ht.tight hmem (hnum e he))
  obtain ⟨hsound, x, hid, hperm⟩ := ht.toSound.erase?_of_remove he hremove h
  refine ⟨hsound, ?_⟩
  rw [erase?_envelopes h]
  -- the row that was removed is the one that the map has
  have hx : x = ⟨e, id⟩ := by
    have hx := mem_boxes.mp (ht.perm.mem_iff.mp (hperm.mem_iff.mp List.mem_cons_self))
    rw [hid, he] at hx
    obtain ⟨f, i⟩ := x
    obtain rfl := Option.some.inj hx
    obtain rfl := hid
    rfl
  subst hx
  exact List.Perm.cons_inv (a := ⟨e, id⟩) (hperm.trans (ht.perm.trans (boxes_erase he).symm))

theorem Exact.erase (ht : t.Exact) (hnum : ∀ e ∈ t.envelopes[id]?, e.Numeric) :
    (t.erase id).Exact := by
  rw [RTree.erase]
  cases h : t.erase? id with
  | some t' => exact ht.erase? hnum h
  | none => exact ht

/-- Inserting a row keeps the tree exact if the row is new or had a numeric envelope. -/
theorem Exact.insert (ht : t.Exact) (hnum : ∀ f ∈ t.envelopes[id]?, f.Numeric) (e : Envelope) :
    (t.insert id e).Exact := by
  have herase := ht.erase hnum
  have hid : (t.erase id).envelopes[id]? = none := by simp
  obtain ⟨hsound, hrows⟩ := Sound.place
    (t := { t.erase id with envelopes := (t.erase id).envelopes.insert id e })
    ⟨herase.minEntries, herase.tight, herase.root⟩ ⟨e, id⟩
  refine ⟨hsound, ?_⟩
  rw [RTree.insert, place_envelopes]
  exact hrows.trans ((herase.perm.cons _).trans (boxes_insert hid))

/-! ### What exact trees answer -/

theorem Exact.query_perm (ht : t.Exact) (w : Envelope) :
    (t.query w).Perm (((boxes t.envelopes).filter (·.envelope.intersects w)).map (·.item)) :=
  (Node.query_perm w ht.tight).trans ((ht.perm.filter _).map _)

/-- A query yields no row twice. -/
theorem Exact.nodup_query (ht : t.Exact) (w : Envelope) : (t.query w).Nodup := by
  refine (ht.query_perm w).nodup_iff.mpr ((nodup_boxes t.envelopes).sublist ?_)
  exact List.filter_sublist.map _

/-- A query yields the rows whose envelope meets the window. -/
theorem Exact.mem_query (ht : t.Exact) {w : Envelope} :
    id ∈ t.query w ↔ ∃ e, t.envelopes[id]? = some e ∧ e.intersects w = true := by
  rw [(ht.query_perm w).mem_iff]
  constructor
  · intro hid
    obtain ⟨x, hx, rfl⟩ := List.mem_map.mp hid
    obtain ⟨hx, hmeets⟩ := List.mem_filter.mp hx
    exact ⟨x.envelope, mem_boxes.mp hx, hmeets⟩
  · rintro ⟨e, he, hmeets⟩
    refine List.mem_map.mpr ⟨⟨e, id⟩, List.mem_filter.mpr ⟨mem_boxes.mpr he, ?_⟩, rfl⟩
    exact hmeets

/-- The box around all rows is their hull. -/
theorem Exact.hull_extent (ht : t.Exact) {u : Envelope} (hu : t.extent? = some u) :
    Hull u (t.envelopes.toList.map (·.2)) := by
  have hull := (ht.tight.hull_envelope hu).perm (ht.perm.map (·.envelope))
  rwa [boxes, List.map_map] at hull

theorem Exact.extent?_eq_none_iff (ht : t.Exact) : t.extent? = none ↔ t.envelopes = ∅ := by
  constructor
  · intro hnone
    have hroot : t.root = [] := by
      by_contra hne
      obtain ⟨u, hu⟩ := Node.envelope?_of_ne_nil hne
      rw [extent?, hu] at hnone
      cases hnone
    have hnil := ht.perm
    rw [rows, hroot, Node.rows_nil, List.nil_perm, boxes, List.map_eq_nil_iff] at hnil
    exact Std.ExtTreeMap.toList_eq_nil_iff.mp hnil
  · intro hempty
    cases hu : t.extent? with
    | none => rfl
    | some u => exact absurd (by simp [hempty]) (ht.hull_extent hu).ne_nil

/-! ### Runs of changes -/

/-- A change of the rows of an index. -/
inductive Change where
  | insert (id : RowId) (e : Envelope)
  | erase (id : RowId)

/-- No side of an inserted envelope is NaN. -/
def Change.Numeric : Change → Prop
  | insert _ e => e.Numeric
  | erase _ => True

instance : DecidablePred Change.Numeric
  | .insert _ e => inferInstanceAs (Decidable e.Numeric)
  | .erase _ => .isTrue trivial

/-- The change of a tree. -/
def Change.onTree (t : RTree) : Change → RTree
  | insert id e => t.insert id e
  | erase id => t.erase id

/-- The change of a plain map. -/
def Change.onMap (m : Std.ExtTreeMap RowId Envelope) :
    Change → Std.ExtTreeMap RowId Envelope
  | insert id e => m.insert id e
  | erase id => m.erase id

/-- The tree after some changes. -/
def runTree (settings : NodeSettings) (changes : List Change) : RTree :=
  changes.foldl Change.onTree (empty settings)

/-- The plain map after some changes. -/
def runMap (changes : List Change) : Std.ExtTreeMap RowId Envelope :=
  changes.foldl Change.onMap ∅

/-- A tree that cannot be told from a map. -/
structure Observes (t : RTree) (m : Std.ExtTreeMap RowId Envelope) : Prop where
  size : t.size = m.size
  contains : ∀ id, t.contains id = m.contains id
  envelopeOf? : ∀ id, t.envelopeOf? id = m[id]?
  entries : t.entries = m.toList
  /-- A row is removed when it is there. -/
  erase? : ∀ id, (t.erase? id).isSome = m.contains id
  nodup_query : ∀ w, (t.query w).Nodup
  mem_query : ∀ w id, id ∈ t.query w ↔ ∃ e, m[id]? = some e ∧ e.intersects w = true
  extent?_eq_none : t.extent? = none ↔ m = ∅
  /-- The extent is the union of the envelopes, in whichever order it is taken. -/
  extent? : ∀ u ∈ t.extent?, ∀ es : List Envelope, es.Perm (m.toList.map (·.2)) →
    ∃ v ∈ Envelope.unionAll es, u.same v = true

/-- An exact tree with numeric envelopes observes its map. -/
theorem Exact.observes (ht : t.Exact)
    (hnum : ∀ (id : RowId) (e : Envelope), t.envelopes[id]? = some e → e.Numeric) :
    t.Observes t.envelopes where
  size := rfl
  contains _ := rfl
  envelopeOf? _ := rfl
  entries := rfl
  erase? id := by
    rw [RTree.erase?, Option.isSome_map, Std.ExtTreeMap.contains_eq_isSome_getElem?]
  nodup_query := ht.nodup_query
  mem_query _ _ := ht.mem_query
  extent?_eq_none := ht.extent?_eq_none_iff
  extent? u hu es hes := by
    have hull := (ht.hull_extent hu).perm hes.symm
    cases hv : Envelope.unionAll es with
    | none => exact absurd (Envelope.unionAll_eq_none_iff.mp hv) hull.ne_nil
    | some v =>
      refine ⟨v, rfl, hull.same (Envelope.hull_of_unionAll hv) fun e he => ?_⟩
      obtain ⟨p, hp, rfl⟩ := List.mem_map.mp (hes.mem_iff.mp he)
      exact hnum p.1 p.2 (Std.ExtTreeMap.mem_toList_iff_getElem?_eq_some.mp hp)

/-- What every change preserves: the tree is exact, its map is the plain map, and the envelopes are
numeric. -/
private structure Follows (t : RTree) (m : Std.ExtTreeMap RowId Envelope) : Prop where
  tree : t.Exact
  envelopes : t.envelopes = m
  numeric : ∀ (id : RowId) (e : Envelope), m[id]? = some e → e.Numeric

private theorem Follows.change (ht : t.Follows m) {c : Change} (hc : c.Numeric) :
    (c.onTree t).Follows (c.onMap m) := by
  obtain ⟨ht, rfl, hnum⟩ := ht
  cases c with
  | insert id e =>
    refine ⟨ht.insert (hnum id) e, insert_envelopes t id e, fun k f hf => ?_⟩
    rw [Change.onMap, Maps.getElem?_insert] at hf
    split_ifs at hf
    · exact Option.some.inj hf ▸ hc
    · exact hnum k f hf
  | erase id =>
    refine ⟨ht.erase (hnum id), erase_envelopes t id, fun k f hf => ?_⟩
    rw [Change.onMap, Maps.getElem?_erase] at hf
    split_ifs at hf
    exact hnum k f hf

private theorem Follows.foldl (ht : t.Follows m) {changes : List Change}
    (hnum : ∀ c ∈ changes, c.Numeric) :
    (changes.foldl Change.onTree t).Follows (changes.foldl Change.onMap m) := by
  induction changes generalizing t m with
  | nil => exact ht
  | cons c changes ih =>
    exact ih (ht.change (hnum c List.mem_cons_self)) fun d hd => hnum d (List.mem_cons_of_mem c hd)

/-- After any run of changes with numeric envelopes, and whatever the size of the nodes, the tree
observes the plain map of the same run. -/
theorem observes_runTree (settings : NodeSettings) (changes : List Change)
    (hnum : ∀ c ∈ changes, c.Numeric) :
    (runTree settings changes).Observes (runMap changes) := by
  have hempty : (empty settings).Follows ∅ :=
    ⟨exact_empty settings, rfl, fun id e he => by simp at he⟩
  obtain ⟨ht, henvelopes, hnumeric⟩ := hempty.foldl hnum
  rw [runMap, ← henvelopes]
  exact ht.observes (by rwa [henvelopes])

/-- A row that is inserted twice, and one that is removed. -/
theorem observes_runTree_reinserted :
    (runTree {} [.insert 1 ⟨0, 0, 1, 1⟩, .insert 2 ⟨2, 2, 3, 3⟩, .insert 1 ⟨4, 4, 5, 5⟩,
      .erase 2]).Observes
      (runMap [.insert 1 ⟨0, 0, 1, 1⟩, .insert 2 ⟨2, 2, 3, 3⟩, .insert 1 ⟨4, 4, 5, 5⟩,
        .erase 2]) :=
  observes_runTree {} _ (by decide +kernel)

end SpatialStore.RTree
