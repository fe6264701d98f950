import SpatialStore.Proofs.Index.RTree.Map

/-!
# The shape of an R-tree

However a tree came about, its leaves are equally deep, no node holds more than the maximum of
items, every node but the root holds the minimum, and a root that is not a leaf has two children
or more (`shape_runTree`). Nothing is asked of the envelopes: which child a row descends to and how
a node is divided only matters as far as the numbers of items go.

That the leaves are equally deep is part of the type of a node. To state it, a tree is laid out as
the list of its nodes (`Node.sites`), each with its depth below the root.

## Main statements

* `Node.grown_insert`: an insertion leaves one node that did not shrink, or two nodes that hold the
  minimum.
* `Node.remove_filled`: a removal takes one item at most from a node and dissolves what is below
  the minimum further down.
* `Shaped.place`, `Shaped.erase?`: what every operation on a tree preserves.
-/

namespace SpatialStore.RTree

/-- Bounds on the number of items of a node, of which two nodes at the minimum fit into one. -/
structure Limits (most least : Nat) : Prop where
  two_le : 2 ≤ least
  twice_le : 2 * least ≤ most

namespace Node

variable {most least h : Nat}

/-! ### Filled nodes -/

/-- Every node below a node holds between `least` and `most` items. -/
def FilledBelow (most least : Nat) : (h : Nat) → Node h → Prop
  | 0, _ => True
  | h + 1, node => ∀ child ∈ node,
    (least ≤ List.length child.item ∧ List.length child.item ≤ most) ∧
      FilledBelow most least h child.item

/-- A node that holds between `least` and `most` items, like every node below it. -/
def Filled (most least : Nat) (child : Boxed (Item (h + 1))) : Prop :=
  (least ≤ List.length child.item ∧ List.length child.item ≤ most) ∧
    FilledBelow most least h child.item

theorem FilledBelow.of_subset {a b : Node h} (hb : FilledBelow most least h b) (hab : a ⊆ b) :
    FilledBelow most least h a := by
  cases h with
  | zero => trivial
  | succ h => exact fun child hchild => hb child (hab hchild)

theorem FilledBelow.append {a b : Node h} (ha : FilledBelow most least h a)
    (hb : FilledBelow most least h b) : FilledBelow most least h (a ++ b) := by
  cases h with
  | zero => trivial
  | succ h => exact fun child hchild => (List.mem_append.mp hchild).elim (ha child) (hb child)

theorem FilledBelow.set {node : Node (h + 1)} {new : Boxed (Item (h + 1))}
    (hn : FilledBelow most least (h + 1) node) (hnew : Filled most least new) (i : Nat) :
    FilledBelow most least (h + 1) (node.set i new) := by
  intro child hchild
  rcases List.mem_or_eq_of_mem_set hchild with hmem | rfl
  · exact hn child hmem
  · exact hnew

theorem filledBelow_singleton {child : Boxed (Item (h + 1))} (hc : Filled most least child) :
    FilledBelow most least (h + 1) [child] := by
  intro c hmem
  rw [List.mem_singleton.mp hmem]
  exact hc

/-! ### Insertion -/

/-- What becomes of a node of `n` items by an insertion: one node that did not shrink, or two nodes
that hold the minimum. -/
structure Grown (most least n : Nat) (r : Node h × Option (Boxed (Item (h + 1)))) : Prop where
  below : FilledBelow most least h r.1
  length_le : r.1.length ≤ most
  le_length : r.2 = none → n ≤ r.1.length
  divided : ∀ b ∈ r.2, least ≤ r.1.length ∧ Filled most least b

theorem Grown.of_le {m n : Nat} {r : Node h × Option (Boxed (Item (h + 1)))}
    (hr : Grown most least n r) (hmn : m ≤ n) : Grown most least m r :=
  ⟨hr.below, hr.length_le, fun hnone => hmn.trans (hr.le_length hnone), hr.divided⟩

theorem boxed?_of_ne_nil {node : Node h} (hne : node ≠ []) :
    ∃ u, boxed? node = some ⟨u, node⟩ := by
  obtain ⟨u, hu⟩ := envelope?_of_ne_nil hne
  exact ⟨u, by rw [boxed?, hu, Option.map_some]⟩

/-- One item too many makes two nodes that hold the minimum. -/
theorem grown_divide (hlim : Limits most least) {node : Node h} (hlen : node.length ≤ most + 1)
    (hbelow : FilledBelow most least h node) :
    Grown most least node.length (divide most least node) := by
  obtain ⟨htwo, htwice⟩ := hlim
  rw [divide]
  split_ifs with hle
  · exact ⟨hbelow, hle, fun _ => Nat.le.refl, by simp⟩
  · have hperm := Split.quadratic_perm least node
    have hmany : 2 * least ≤ node.length := by omega
    obtain ⟨hkept, hmoved⟩ := Split.quadratic_min (by omega) hmany
    have hsum := hperm.length_eq
    rw [List.length_append] at hsum
    have hne : (Split.quadratic least node).2 ≠ [] := List.ne_nil_of_length_pos (by omega)
    obtain ⟨u, hu⟩ := boxed?_of_ne_nil hne
    refine ⟨hbelow.of_subset fun c hc => hperm.subset (List.mem_append_left _ hc), ?_, ?_, ?_⟩
    · change (Split.quadratic least node).1.length ≤ most
      omega
    · intro hnone
      rw [show boxed? (Split.quadratic least node).2 = none from hnone] at hu
      cases hu
    · intro b hb
      obtain rfl := Option.some.inj (hu.symm.trans hb)
      refine ⟨hkept, ⟨hmoved, ?_⟩, hbelow.of_subset fun c hc =>
        hperm.subset (List.mem_append_right _ hc)⟩
      change (Split.quadratic least node).2.length ≤ most
      omega

/-- Insertion into a node within the maximum. A node of nodes must not be empty, as there would be
none to descend to. -/
theorem grown_insert (hlim : Limits most least) (x : Boxed RowId) {node : Node h}
    (hlen : node.length ≤ most) (hbelow : FilledBelow most least h node)
    (hne : h ≠ 0 → node ≠ []) :
    Grown most least node.length (insert most least x h node) := by
  induction h with
  | zero =>
    have hmore : (ofRows (toRows node ++ [x])).length = node.length + 1 := List.length_append
    have hbound : (ofRows (toRows node ++ [x])).length ≤ most + 1 := by omega
    exact (grown_divide (h := 0) hlim hbound trivial).of_le (by omega)
  | succ h ih =>
    rw [insert]
    obtain ⟨child, hchild⟩ : ∃ child, node[choose node x.envelope]? = some child :=
      ⟨_, List.getElem?_eq_getElem (choose_lt (hne h.succ_ne_zero) x.envelope)⟩
    obtain ⟨⟨hleast, hmost⟩, hchildren⟩ := hbelow child (List.mem_of_getElem? hchild)
    have hgrown := ih hmost hchildren fun _ => List.ne_nil_of_length_pos
      (Nat.lt_of_lt_of_le (Nat.zero_lt_two.trans_le hlim.two_le) hleast)
    simp only [hchild]
    generalize insert most least x h child.item = r at hgrown
    obtain ⟨kept, sibling⟩ := r
    obtain ⟨hkept, hkeptlen, hsame, hdivided⟩ := hgrown
    cases sibling with
    | none =>
      -- the child did not shrink, so it still holds the minimum
      have hnew : Filled (h := h) most least ⟨child.envelope.union x.envelope, kept⟩ :=
        ⟨⟨hleast.trans (hsame rfl), hkeptlen⟩, hkept⟩
      refine (grown_divide hlim ?_ (hbelow.set hnew _)).of_le ?_ <;> rw [List.length_set]
      omega
    | some sibling =>
      obtain ⟨hkeptleast, hsibling⟩ := hdivided sibling rfl
      have hnew : Filled (h := h) most least
          ⟨(envelope? kept).getD (child.envelope.union x.envelope), kept⟩ :=
        ⟨⟨hkeptleast, hkeptlen⟩, hkept⟩
      refine (grown_divide hlim ?_
        ((hbelow.set hnew _).append (filledBelow_singleton hsibling))).of_le ?_ <;>
      · rw [List.length_append, List.length_set, List.length_singleton]
        omega

/-! ### Removal -/

/-- Removal takes one item at most from a node: a row, or a child that is dissolved. -/
theorem remove_filled {id : RowId} {e : Envelope} {node left : Node h}
    {orphans : List (Boxed RowId)} (hbelow : FilledBelow most least h node)
    (hr : remove least id e h node = some (left, orphans)) :
    FilledBelow most least h left ∧ left.length ≤ node.length ∧ node.length ≤ left.length + 1 := by
  induction h generalizing orphans with
  | zero =>
    rw [remove] at hr
    split_ifs at hr with hany
    simp only [Option.some.injEq, Prod.mk.injEq] at hr
    obtain ⟨rfl, rfl⟩ := hr
    have hlen : (ofRows ((toRows node).eraseP (·.item == id))).length = node.length - 1 := by
      obtain ⟨y, hy, hid⟩ := List.any_eq_true.mp hany
      exact List.length_eraseP_of_mem hy hid
    exact ⟨trivial, by omega, by omega⟩
  | succ h ih =>
    obtain ⟨before, child, after, new, rfl, hchild, rfl⟩ := replaceFirst_eq_some hr
    split_ifs at hchild with hcontains
    obtain ⟨⟨left, lost⟩, hrec, heq⟩ := Option.map_eq_some_iff.mp hchild
    obtain ⟨⟨hleast, hmost⟩, hchildren⟩ :=
      hbelow child (List.mem_append_right _ List.mem_cons_self)
    obtain ⟨hleft, hle, -⟩ := ih hchildren hrec
    -- the child is dissolved, or what is left of it holds the minimum
    have hnew : FilledBelow most least (h + 1) new ∧ new.length ≤ 1 := by
      dsimp only at heq
      split_ifs at heq with hsmall
      · obtain ⟨rfl, -⟩ := Prod.mk.inj heq
        exact ⟨fun c hc => absurd hc List.not_mem_nil, Nat.zero_le 1⟩
      · obtain ⟨rfl, -⟩ := Prod.mk.inj heq
        have hlength := And.intro (Nat.le_of_not_lt hsmall) (hle.trans hmost)
        exact ⟨filledBelow_singleton ⟨hlength, hleft⟩, Nat.le.refl⟩
    refine ⟨.append (.append ?_ hnew.1) ?_, ?_, ?_⟩
    · exact hbelow.of_subset fun c hc => List.mem_append_left _ hc
    · exact hbelow.of_subset fun c hc => List.mem_append_right _ (List.mem_cons_of_mem _ hc)
    all_goals
      simp only [List.length_append, List.length_cons]
      omega

end Node

open Node (FilledBelow Filled)

variable {t : RTree} {most least : Nat}

/-! ### Trees -/

/-- A root within the maximum, with two children or more unless it is a leaf. -/
structure RootShaped (most least : Nat) (h : Nat) (root : Node h) : Prop where
  below : FilledBelow most least h root
  length_le : root.length ≤ most
  two_le : h ≠ 0 → 2 ≤ root.length

/-- Lowering a root that lost a child leaves one with two children or more. -/
theorem rootShaped_collapse (hlim : Limits most least) : ∀ {h : Nat} {node : Node h},
    FilledBelow most least h node → node.length ≤ most →
      RootShaped most least (collapse h node).1 (collapse h node).2
  | 0, _, hbelow, hlen => ⟨hbelow, hlen, fun h => absurd rfl h⟩
  | _ + 1, [], _, hlen => ⟨trivial, hlen, fun h => absurd rfl h⟩
  | h + 1, [child], hbelow, _ => by
    obtain ⟨⟨-, hmost⟩, (hchild : FilledBelow most least h child.item)⟩ :=
      hbelow child List.mem_cons_self
    have hcollapsed : RootShaped most least (collapse h child.item).1 (collapse h child.item).2 :=
      rootShaped_collapse hlim hchild hmost
    exact hcollapsed
  | _ + 1, _ :: _ :: _, hbelow, hlen => ⟨hbelow, hlen, fun _ => Nat.le_add_left 2 _⟩

/-- A tree with some bounds whose nodes keep to them. -/
structure Shaped (most least : Nat) (t : RTree) : Prop where
  limits : Limits most least
  maxEntries : t.maxEntries = most
  minEntries : t.minEntries = least
  root : RootShaped most least t.height t.root

/-- The bounds of a tree are taken from the settings, which need not make sense. -/
theorem shaped_empty (settings : NodeSettings) :
    Shaped (max settings.maxEntries 4)
      (max 2 (min settings.minEntries (max settings.maxEntries 4 / 2))) (empty settings) where
  limits := ⟨by omega, by omega⟩
  maxEntries := rfl
  minEntries := rfl
  root := ⟨trivial, Nat.zero_le _, fun h => absurd rfl h⟩

/-- Placing a row keeps the shape; a divided root becomes the two children of a new one. -/
theorem Shaped.place (ht : Shaped most least t) (x : Boxed RowId) :
    Shaped most least (t.place x) := by
  obtain ⟨hlim, rfl, rfl, hbelow, hlen, htwo⟩ := ht
  have hgrown := Node.grown_insert hlim x hlen hbelow fun h =>
    List.ne_nil_of_length_pos (Nat.zero_lt_two.trans_le (htwo h))
  rw [place_eq]
  generalize Node.insert t.maxEntries t.minEntries x t.height t.root = r at hgrown
  obtain ⟨kept, sibling⟩ := r
  obtain ⟨hkept, hkeptlen, hsame, hdivided⟩ := hgrown
  cases sibling with
  | none => exact ⟨hlim, rfl, rfl, hkept, hkeptlen, fun h => (htwo h).trans (hsame rfl)⟩
  | some sibling =>
    obtain ⟨(hkeptleast : t.minEntries ≤ kept.length), hsibling⟩ := hdivided sibling rfl
    have hleast := hlim.two_le
    have hmost := hlim.twice_le
    have hne : kept ≠ [] := List.ne_nil_of_length_pos (by omega)
    obtain ⟨u, hu⟩ := Node.boxed?_of_ne_nil hne
    have hfirst : Filled (h := t.height) t.maxEntries t.minEntries ⟨u, kept⟩ :=
      ⟨⟨hkeptleast, hkeptlen⟩, hkept⟩
    refine ⟨hlim, rfl, rfl, ?_⟩
    simp only [hu, Option.toList_some, List.cons_append, List.nil_append]
    refine ⟨fun child hchild => ?_, by simp only [List.length_cons, List.length_nil]; omega,
      fun _ => by simp⟩
    rcases List.mem_pair.mp hchild with rfl | rfl
    · exact hfirst
    · exact hsibling

theorem Shaped.foldl_place (ht : Shaped most least t) (xs : List (Boxed RowId)) :
    Shaped most least (xs.foldl RTree.place t) := by
  induction xs generalizing t with
  | nil => exact ht
  | cons x xs ih => exact ih (ht.place x)

/-- Removal keeps the shape, whether or not the row is found in the nodes. -/
theorem Shaped.erase? {t' : RTree} {id : RowId} (ht : Shaped most least t)
    (h : t.erase? id = some t') : Shaped most least t' := by
  obtain ⟨e, -, rfl⟩ := Option.map_eq_some_iff.mp h
  obtain ⟨hlim, rfl, rfl, hbelow, hlen, -⟩ := ht
  have hleft : FilledBelow t.maxEntries t.minEntries t.height
        ((Node.remove t.minEntries id e t.height t.root).getD (t.root, [])).1 ∧
      ((Node.remove t.minEntries id e t.height t.root).getD (t.root, [])).1.length ≤
        t.maxEntries := by
    cases hr : Node.remove t.minEntries id e t.height t.root with
    | none => exact ⟨hbelow, hlen⟩
    | some r =>
      obtain ⟨hleft, hle, -⟩ := Node.remove_filled hbelow hr
      exact ⟨hleft, hle.trans hlen⟩
  have hroot := rootShaped_collapse hlim hleft.1 hleft.2
  exact Shaped.foldl_place (t := ⟨t.maxEntries, t.minEntries, _, _, t.envelopes.erase id⟩)
    ⟨hlim, rfl, rfl, hroot⟩ _

theorem Shaped.erase (ht : Shaped most least t) (id : RowId) : Shaped most least (t.erase id) := by
  rw [RTree.erase]
  cases h : t.erase? id with
  | some t' => exact ht.erase? h
  | none => exact ht

theorem Shaped.insert (ht : Shaped most least t) (id : RowId) (e : Envelope) :
    Shaped most least (t.insert id e) :=
  have herase := ht.erase id
  Shaped.place
    (t := { t.erase id with envelopes := (t.erase id).envelopes.insert id e })
    ⟨herase.limits, herase.maxEntries, herase.minEntries, herase.root⟩ ⟨e, id⟩

theorem Shaped.change (ht : Shaped most least t) : ∀ c : Change, Shaped most least (c.onTree t)
  | .insert id e => ht.insert id e
  | .erase id => ht.erase id

theorem Shaped.foldl_change (ht : Shaped most least t) (changes : List Change) :
    Shaped most least (changes.foldl Change.onTree t) :=
  List.foldlRecOn changes _ ht fun _ ht c _ => ht.change c

/-! ### The nodes of a tree, laid out -/

/-- A node as it stands in the tree: how deep below the root it lies, whether it is a leaf, and
how many items it holds. -/
structure Site where
  depth : Nat
  leaf : Bool
  count : Nat

/-- The nodes from a node downwards, the node itself lying at some depth. -/
def Node.sites (depth : Nat) : (h : Nat) → Node h → List Site
  | 0, node => [⟨depth, true, node.length⟩]
  | h + 1, node =>
    ⟨depth, false, node.length⟩ :: node.flatMap fun child => sites (depth + 1) h child.item

/-- The nodes of a tree. -/
def sites (t : RTree) : List Site := Node.sites 0 t.height t.root

/-- Leaves are as deep as the height of the node that they lie below. -/
theorem Node.depth_of_leaf {h depth : Nat} {node : Node h} {s : Site}
    (hs : s ∈ sites depth h node) (hleaf : s.leaf = true) : s.depth = depth + h := by
  induction h generalizing depth with
  | zero =>
    rw [List.mem_singleton.mp hs]
    rfl
  | succ h ih =>
    rcases List.mem_cons.mp hs with rfl | hs
    · cases hleaf
    · obtain ⟨child, -, hs⟩ := List.mem_flatMap.mp hs
      rw [ih hs]
      omega

/-- A node below a filled one lies deeper and holds between `least` and `most` items. -/
theorem Node.mem_sites {h depth : Nat} {node : Node h} {s : Site}
    (hbelow : FilledBelow most least h node) (hs : s ∈ sites depth h node) :
    s = ⟨depth, h == 0, node.length⟩ ∨ depth < s.depth ∧ least ≤ s.count ∧ s.count ≤ most := by
  induction h generalizing depth with
  | zero => exact .inl (List.mem_singleton.mp hs)
  | succ h ih =>
    rcases List.mem_cons.mp hs with rfl | hs
    · exact .inl rfl
    · obtain ⟨child, hchild, hs⟩ := List.mem_flatMap.mp hs
      obtain ⟨hcount, hbelow⟩ := hbelow child hchild
      refine .inr ?_
      rcases ih hbelow hs with rfl | ⟨hdepth, hcount⟩
      · exact ⟨Nat.lt_succ_self depth, hcount⟩
      · exact ⟨Nat.lt_of_succ_lt hdepth, hcount⟩

/-- The shape of a tree: balanced, with between `least` and `most` items in a node, the root aside,
which is only asked for two children if it is not a leaf. -/
structure Balanced (t : RTree) (most least : Nat) : Prop where
  depth_eq : ∀ a ∈ t.sites, ∀ b ∈ t.sites, a.leaf = true → b.leaf = true → a.depth = b.depth
  count_le : ∀ a ∈ t.sites, a.count ≤ most
  le_count : ∀ a ∈ t.sites, a.depth ≠ 0 → least ≤ a.count
  two_le_root : ∀ a ∈ t.sites, a.depth = 0 → a.leaf = false → 2 ≤ a.count

theorem Shaped.balanced (ht : Shaped most least t) : t.Balanced most least := by
  obtain ⟨-, -, -, hbelow, hlen, htwo⟩ := ht
  constructor
  · intro a ha b hb hleafa hleafb
    rw [Node.depth_of_leaf ha hleafa, Node.depth_of_leaf hb hleafb]
  · intro a ha
    rcases Node.mem_sites hbelow ha with rfl | ⟨-, -, hcount⟩
    · exact hlen
    · exact hcount
  · intro a ha hdepth
    rcases Node.mem_sites hbelow ha with rfl | ⟨-, hcount, -⟩
    · exact absurd rfl hdepth
    · exact hcount
  · intro a ha hdepth hleaf
    rcases Node.mem_sites hbelow ha with rfl | ⟨hlt, -, -⟩
    · exact htwo (by simpa using hleaf)
    · omega

/-- Whatever the settings, the changes and their envelopes, the tree is balanced and its nodes
keep to the bounds that the settings come to. -/
theorem shape_runTree (settings : NodeSettings) (changes : List Change) :
    (runTree settings changes).Balanced (max settings.maxEntries 4)
      (max 2 (min settings.minEntries (max settings.maxEntries 4 / 2))) :=
  ((shaped_empty settings).foldl_change changes).balanced

end SpatialStore.RTree
