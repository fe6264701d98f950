import SpatialStore.Proofs.Join.Chosen
import SpatialStore.Proofs.Join.Tree

/-!
# Nothing is lost in the plan of a join order

The plan of an order is a selection above products that are grouped to the left
(`Plan.LeftDeep`). A lookup product takes over the predicates of its paths, and with them come the
sides of the product (`Plan.embedded`). Such a predicate is *placed* well when its path leads to the
table on the right and looks up tables on the left (`Plan.Embedding.Placed`).

Whatever candidates the tables of an order were joined through, a plan of it has every scan once, in
the order of the tables, and every predicate once: in the selection, or in one lookup product
(`JoinPrefix.toPlan_conserves`). A predicate that is taken over twice is an error, so no assumption
on the candidates is needed for this.
-/

namespace SpatialStore

/-! ### Predicates in products -/

namespace Plan

/-- Products of scans that are grouped to the left. -/
inductive LeftDeep : Plan → Prop
  | scan (s : Scan) : LeftDeep (.scan s)
  | product {left : Plan} (s : Scan) : LeftDeep left → LeftDeep (.product left (.scan s))
  | lookup {left : Plan} (right : Scan) (paths : List AccessPath) :
      LeftDeep left → LeftDeep (.lookup left right paths)

/-- An access path in a lookup product, whose predicate the product takes over. -/
structure Embedding where
  left : Plan
  right : Scan
  path : AccessPath

/-- The access paths in the lookup products of a plan. -/
def embedded : Plan → List Embedding
  | .scan _ => []
  | .select _ p | .project _ p => p.embedded
  | .product l r => l.embedded ++ r.embedded
  | .lookup l r paths => l.embedded ++ paths.map fun path => ⟨l, r, path⟩

/-- The positions of the predicates that lookup products take over. -/
def embeddedIds (p : Plan) : List Nat := p.embedded.map (·.path.predicateId)

theorem embeddedIds_lookup (left : Plan) (right : Scan) (paths : List AccessPath) :
    (Plan.lookup left right paths).embeddedIds =
      left.embeddedIds ++ paths.map (·.predicateId) := by
  rw [embeddedIds, embedded, List.map_append, List.map_map]
  rfl

/-- The path is one of a predicate in the list. It leads to the table on the right, and its lookup
refers to tables on the left. -/
structure Embedding.Placed (ps : List Predicate) (x : Embedding) : Prop where
  predicate : ps[x.path.predicateId]? = some x.path.predicate
  target : x.path.scanId = x.right.id
  lookup : ∀ id ∈ x.path.lookupScans, id ∈ x.left.scans.map (·.id)

end Plan

/-- The predicate of a path refers to no other tables than those the path leads to or looks up. -/
def AccessPath.Covers (l : Layout) (path : AccessPath) : Prop :=
  ∀ f ∈ path.predicate.columns, ∀ c, l.columnOf f = .ok c →
    c.scanId = path.scanId ∨ c.scanId ∈ path.lookupScans

/-- The predicate in a product refers to no other tables than those of the product. -/
theorem Plan.Embedding.Placed.scanId_mem {ps : List Predicate} {x : Embedding} {l : Layout}
    {f : FieldName} {c : Column} (hx : x.Placed ps) (hcovers : x.path.Covers l)
    (hf : f ∈ x.path.predicate.columns) (hc : l.columnOf f = .ok c) :
    c.scanId ∈ (x.left.scans ++ [x.right]).map (·.id) := by
  rw [List.map_append, List.mem_append]
  rcases hcovers f hf c hc with htarget | hlookup
  · exact .inr (List.mem_singleton.mpr (htarget.trans hx.target))
  · exact .inl (hx.lookup _ hlookup)

namespace JoinPrefix

variable {inputs : List JoinInput} {candidates : List AccessPath} {ps : List Predicate}
  {taken : List Nat} {scans : List Scan} {p : JoinPrefix}

/-! ### Taking over -/

/-- The predicates that are left, by their positions. -/
theorem filterMap_remaining (ps : List Predicate) (taken : List Nat) :
    (remaining ps taken).filterMap id = pick ps ((List.range ps.length).filter (· ∉ taken)) := by
  have hremaining : remaining ps taken =
      (List.range ps.length).map fun k => if k ∉ taken then ps[k]? else none := by
    refine List.ext_getElem? fun k => ?_
    rw [getElem?_remaining, List.getElem?_map]
    rcases Nat.lt_or_ge k ps.length with hk | hk
    · rw [List.getElem?_range hk, List.getElem?_eq_getElem hk, Option.map_some, Option.map_some,
        List.getElem?_eq_getElem hk, ite_not]
    · rw [List.getElem?_eq_none hk, List.getElem?_eq_none (List.length_range.trans_le hk)]
      rfl
  rw [hremaining, List.filterMap_map, pick, List.filterMap_filter]
  refine List.filterMap_congr fun k _ => ?_
  simp only [Function.comp_apply, id, decide_eq_true_eq]

/-- The predicates that are left and those that are taken over are all, each once. -/
theorem perm_range {n : Nat} (hnodup : taken.Nodup) (hlt : ∀ k ∈ taken, k < n) :
    ((List.range n).filter (· ∉ taken) ++ taken).Perm (List.range n) := by
  refine (List.perm_ext_iff_of_nodup ?_ List.nodup_range).mpr fun k => ?_
  · refine List.nodup_append.mpr ⟨List.nodup_range.filter _, hnodup, fun k hk j hj heq => ?_⟩
    exact of_decide_eq_true (List.mem_filter.mp hk).2 (heq ▸ hj)
  · rw [List.mem_append, List.mem_filter, decide_eq_true_iff]
    by_cases hk : k ∈ taken
    · exact iff_of_true (.inr hk) (List.mem_range.mpr (hlt k hk))
    · simp only [hk, not_false_eq_true, and_true, or_false]

theorem embed_eq_ok {table : ScanId} {path : AccessPath} {rest : List (Option Predicate)}
    (h : embed table (remaining ps taken) path = .ok rest) :
    path.scanId = table ∧ path.predicateId ∉ taken ∧
      rest = remaining ps (taken ++ [path.predicateId]) := by
  rw [embed] at h
  split_ifs at h with htable
  rw [getElem?_remaining] at h
  cases he : ps[path.predicateId]? with
  | none =>
    rw [he] at h
    cases h
  | some e =>
    rw [he, Option.map_some] at h
    by_cases htaken : path.predicateId ∈ taken
    · rw [if_pos htaken] at h
      cases h
    · rw [if_neg htaken] at h
      cases h
      exact ⟨not_not.mp htable, htaken, set_remaining _⟩

/-- Paths whose predicates are taken over lead to the table, and none is for a predicate that was
taken over before. -/
theorem foldlM_embed_eq_ok {table : ScanId} {paths : List AccessPath}
    {rest : List (Option Predicate)} (hnodup : taken.Nodup)
    (h : paths.foldlM (embed table) (remaining ps taken) = .ok rest) :
    (∀ path ∈ paths, path.scanId = table) ∧ (taken ++ paths.map (·.predicateId)).Nodup ∧
      rest = remaining ps (taken ++ paths.map (·.predicateId)) := by
  induction paths generalizing taken with
  | nil =>
    cases h
    rw [List.map_nil, List.append_nil]
    exact ⟨fun _ hpath => absurd hpath List.not_mem_nil, hnodup, rfl⟩
  | cons path paths ih =>
    obtain ⟨next, hnext, h⟩ := Result.bind_eq_ok.mp h
    obtain ⟨htable, hnew, rfl⟩ := embed_eq_ok hnext
    obtain ⟨htables, hnodup, rfl⟩ := ih (List.concat_eq_append ▸ hnodup.concat hnew) h
    rw [List.map_cons, List.append_cons]
    exact ⟨List.forall_mem_cons.mpr ⟨htable, htables⟩, hnodup, rfl⟩

theorem scanOf_eq_ok {id : ScanId} {s : Scan} (h : scanOf scans id = .ok s) :
    s ∈ scans ∧ s.id = id := by
  rw [scanOf] at h
  split at h
  · rename_i found hfound
    cases h
    have hid := List.find?_some hfound
    exact ⟨List.mem_of_find?_eq_some hfound, beq_iff_eq.mp hid⟩
  · cases h

/-- A table is joined by a product with its scan, or by one that takes over predicates. -/
theorem joinStep_eq_ok {state state' : Plan × List (Option Predicate)} {step : JoinStep}
    (h : joinStep scans state step = .ok state') :
    ∃ right ∈ scans, right.id = step.scanId ∧
      (state' = (.product state.1 (.scan right), state.2) ∨
        ∃ rest, step.paths.foldlM (embed step.scanId) state.2 = .ok rest ∧
          state' = (.lookup state.1 right step.paths, rest)) := by
  obtain ⟨right, hright, h⟩ := Result.bind_eq_ok.mp h
  obtain ⟨hmem, hid⟩ := scanOf_eq_ok hright
  refine ⟨right, hmem, hid, ?_⟩
  split_ifs at h
  · exact .inl (Except.ok.inj h).symm
  · obtain ⟨rest, hrest, h⟩ := Result.bind_eq_ok.mp h
    exact .inr ⟨rest, hrest, (Except.ok.inj h).symm⟩

/-! ### Joining -/

/-- A plan is grouped to the left, and its predicates are placed well. The predicates that are left
are those that it does not take over, and it takes over none twice. -/
structure Assembled (scans : List Scan) (ps : List Predicate)
    (state : Plan × List (Option Predicate)) : Prop where
  leftDeep : state.1.LeftDeep
  subset : state.1.scans ⊆ scans
  rest : state.2 = remaining ps state.1.embeddedIds
  nodup : state.1.embeddedIds.Nodup
  placed : ∀ x ∈ state.1.embedded, x.Placed ps

theorem assembled_scan {s : Scan} (hs : s ∈ scans) :
    Assembled scans ps (.scan s, ps.map some) where
  leftDeep := .scan s
  subset := List.cons_subset.mpr ⟨hs, List.nil_subset _⟩
  rest := remaining_nil.symm
  nodup := List.nodup_nil
  placed := fun _ h => nomatch h

/-- One more table is joined. -/
theorem Assembled.step {state state' : Plan × List (Option Predicate)} {step : JoinStep}
    (h : Assembled scans ps state)
    (hpredicate : ∀ c ∈ candidates, ps[c.predicateId]? = some c.predicate)
    (hstep : step.Sound candidates (state.1.scans.map (·.id)))
    (hjoin : joinStep scans state step = .ok state') :
    Assembled scans ps state' ∧
      state'.1.scans.map (·.id) = state.1.scans.map (·.id) ++ [step.scanId] := by
  obtain ⟨right, hright, hid, hjoin⟩ := joinStep_eq_ok hjoin
  have hscans : state.1.scans ++ [right] ⊆ scans :=
    List.append_subset.mpr ⟨h.subset, List.cons_subset.mpr ⟨hright, List.nil_subset _⟩⟩
  have hids : (state.1.scans ++ [right]).map (·.id) =
      state.1.scans.map (·.id) ++ [step.scanId] := by
    rw [List.map_append, List.map_singleton, hid]
  rcases hjoin with rfl | ⟨rest, hrest, rfl⟩
  · have hembedded : (Plan.product state.1 (.scan right)).embedded = state.1.embedded :=
      List.append_nil _
    refine ⟨⟨.product right h.leftDeep, hscans, ?_, ?_, ?_⟩, hids⟩
    · rw [Plan.embeddedIds, hembedded]
      exact h.rest
    · rw [Plan.embeddedIds, hembedded]
      exact h.nodup
    · rw [hembedded]
      exact h.placed
  · rw [h.rest] at hrest
    obtain ⟨htable, hnodup, rfl⟩ := foldlM_embed_eq_ok h.nodup hrest
    rw [← Plan.embeddedIds_lookup state.1 right] at hnodup ⊢
    refine ⟨⟨.lookup right _ h.leftDeep, hscans, rfl, hnodup, ?_⟩, hids⟩
    refine List.forall_mem_append.mpr ⟨h.placed, fun x hx => ?_⟩
    obtain ⟨path, hpath, rfl⟩ := List.mem_map.mp hx
    exact ⟨hpredicate path (hstep.candidate path hpath), (htable path hpath).trans hid.symm,
      hstep.lookup path hpath⟩

/-- All tables are joined, one after the other. -/
theorem Assembled.run {state state' : Plan × List (Option Predicate)} {steps : List JoinStep}
    (h : Assembled scans ps state)
    (hpredicate : ∀ c ∈ candidates, ps[c.predicateId]? = some c.predicate)
    (hsteps : JoinStep.SoundAll candidates (state.1.scans.map (·.id)) steps)
    (hjoin : steps.foldlM (joinStep scans) state = .ok state') :
    Assembled scans ps state' ∧
      state'.1.scans.map (·.id) = state.1.scans.map (·.id) ++ steps.map (·.scanId) := by
  induction steps generalizing state with
  | nil =>
    cases hjoin
    rw [List.map_nil, List.append_nil]
    exact ⟨h, rfl⟩
  | cons step steps ih =>
    obtain ⟨next, hnext, hjoin⟩ := Result.bind_eq_ok.mp hjoin
    obtain ⟨hassembled, hids⟩ := h.step hpredicate hsteps.1 hnext
    obtain ⟨hresult, hall⟩ := ih hassembled (hids ▸ hsteps.2) hjoin
    rw [hids, ← List.append_cons] at hall
    exact ⟨hresult, hall⟩

/-! ### Whole orders -/

/-- Tables were joined one after the other, each through some candidates for the predicates of a
list. -/
inductive Branched (inputs : List JoinInput) (ps : List Predicate) : JoinPrefix → Prop
  | root : Branched inputs ps (root inputs)
  | extend {p q : JoinPrefix} {candidates : List AccessPath} {reduction : Float} {id : ScanId} :
      Branched inputs ps p → (∀ c ∈ candidates, ps[c.predicateId]? = some c.predicate) →
      p.extend inputs candidates reduction id = .ok q → Branched inputs ps q

theorem Branched.exists_sound (hp : p.Branched inputs ps) :
    ∃ candidates, (∀ c ∈ candidates, ps[c.predicateId]? = some c.predicate) ∧
      p.Sound inputs candidates := by
  induction hp with
  | root => exact ⟨[], fun _ hc => absurd hc List.not_mem_nil, sound_root inputs []⟩
  | @extend p q offered _ _ _ hoffered h ih =>
    obtain ⟨candidates, hcandidates, hsound⟩ := ih
    have hwider : p.Sound inputs (candidates ++ offered) :=
      ⟨hsound.steps.mono (List.subset_append_left _ _), hsound.perm⟩
    exact ⟨candidates ++ offered, List.forall_mem_append.mpr ⟨hcandidates, hoffered⟩,
      hwider.extend (List.subset_append_right _ _) h⟩

/-- A plan is made of a complete order that begins with a scan. -/
theorem toPlan_eq_ok {plan : Plan} (h : p.toPlan scans ps = .ok plan) :
    p.complete = true ∧ p.steps.length = scans.length ∧
      ∃ first steps leading state, p.steps = first :: steps ∧ leading ∈ scans ∧
        leading.id = first.scanId ∧
        steps.foldlM (joinStep scans) (.scan leading, ps.map some) = .ok state ∧
        plan = .select (state.2.filterMap id) state.1 := by
  rw [toPlan] at h
  split_ifs at h with hcomplete hlength
  rw [Bool.not_eq_true', Bool.not_eq_false] at hcomplete
  refine ⟨hcomplete, not_not.mp hlength, ?_⟩
  split at h
  · cases h
  · rename_i first steps hsteps
    split_ifs at h
    obtain ⟨leading, hleading, h⟩ := Result.bind_eq_ok.mp h
    obtain ⟨state, hstate, h⟩ := Result.bind_eq_ok.mp h
    obtain ⟨hmem, hid⟩ := scanOf_eq_ok hleading
    exact ⟨first, steps, leading, state, hsteps, hmem, hid, hstate, (Except.ok.inj h).symm⟩

/-- The plan of an order is a selection above products grouped to the left. It has all scans, in the
order of the tables. Every predicate is either left to the selection, where they keep their order,
or taken over by one product, once; and there the table it is for is on the right, and all tables it
refers to are in the product, if its path covers them. -/
theorem toPlan_conserves {plan : Plan} (hdistinct : (inputs.map (·.scan.id)).Nodup)
    (hp : p.Branched inputs ps) (h : p.toPlan scans ps = .ok plan) :
    ∃ kept tree, plan = .select (pick ps kept) tree ∧ tree.LeftDeep ∧
      tree.scans.map (·.id) = p.order ∧ tree.scans.Perm scans ∧
      kept.Pairwise (· < ·) ∧
      (kept ++ tree.embedded.map (·.path.predicateId)).Perm (List.range ps.length) ∧
      ∀ x ∈ tree.embedded, x.Placed ps ∧
        ∀ l : Layout, x.path.Covers l → ∀ f ∈ x.path.predicate.columns, ∀ c,
          l.columnOf f = .ok c → c.scanId ∈ (x.left.scans ++ [x.right]).map (·.id) := by
  obtain ⟨candidates, hpredicate, hsound⟩ := hp.exists_sound
  obtain ⟨hcomplete, hlength, first, steps, leading, state, hsteps, hleading, hid, hstate, rfl⟩ :=
    toPlan_eq_ok h
  have hsteps' := hsound.steps
  rw [hsteps] at hsteps'
  have hrest : JoinStep.SoundAll candidates ((Plan.scan leading).scans.map (·.id)) steps := by
    rw [Plan.scans, List.map_singleton, hid]
    exact hsteps'.2
  obtain ⟨hassembled, hids⟩ := (assembled_scan hleading).run hpredicate hrest hstate
  have horder : state.1.scans.map (·.id) = p.order := by
    rw [hids, order, hsteps, List.map_cons, ← hid]
    rfl
  have hnodup : p.order.Nodup := (hsound.order_perm hcomplete).nodup_iff.mpr hdistinct
  -- the scans of the plan are as many as were given, and none occurs twice
  have hscans : state.1.scans.Perm scans := by
    have hsubperm := (List.Nodup.of_map _ (horder ▸ hnodup)).subperm hassembled.subset
    refine hsubperm.perm_of_length_le (Nat.le_of_eq ?_)
    rw [← hlength, ← List.length_map (f := fun s : Scan => s.id), horder, order, List.length_map]
  have hlt : ∀ k ∈ state.1.embeddedIds, k < ps.length := by
    intro k hk
    obtain ⟨x, hx, rfl⟩ := List.mem_map.mp hk
    exact (List.getElem?_eq_some_iff.mp (hassembled.placed x hx).predicate).1
  refine ⟨(List.range ps.length).filter (· ∉ state.1.embeddedIds), state.1, ?_,
    hassembled.leftDeep, horder, hscans, ?_, perm_range hassembled.nodup hlt, fun x hx => ?_⟩
  · rw [hassembled.rest, filterMap_remaining]
  · exact List.pairwise_lt_range.filter _
  · have hplaced := hassembled.placed x hx
    exact ⟨hplaced, fun l hcovers f hf c hc => hplaced.scanId_mem hcovers hf hc⟩

/-- Parcels that meet a zone but do not contain it. -/
def zonedPredicates : List Predicate :=
  let shape : Predicate := .column ⟨some "parcel", "shape"⟩
  let area : Predicate := .column ⟨some "zone", "area"⟩
  [.spatial .intersects shape area, .negate (.spatial .contains shape area)]

theorem branched_zoned : ∃ p : JoinPrefix, p.Branched zonedInputs zonedPredicates ∧
    p.order = [0, 1] ∧ ∃ plan, p.toPlan (zonedInputs.map (·.scan)) zonedPredicates = .ok plan := by
  have hpredicate : ∀ c ∈ zonedCandidates, zonedPredicates[c.predicateId]? = some c.predicate := by
    simp [zonedCandidates, zonedPredicates]
  obtain ⟨p, q, hp, hq, horder, hplan⟩ :
      ∃ p q : JoinPrefix, (root zonedInputs).extend zonedInputs zonedCandidates 10 0 = .ok p ∧
        p.extend zonedInputs zonedCandidates 10 1 = .ok q ∧ q.order = [0, 1] ∧
        ∃ plan, q.toPlan (zonedInputs.map (·.scan)) zonedPredicates = .ok plan :=
    ⟨_, _, rfl, rfl, rfl, _, rfl⟩
  exact ⟨q, .extend (.extend .root hpredicate hp) hpredicate hq, horder, hplan⟩

/-- One of the predicates is left, the other one is taken over. -/
theorem toPlan_conserves_zoned :
    ∃ (p : JoinPrefix) (plan : Plan), p.Branched zonedInputs zonedPredicates ∧
      p.toPlan (zonedInputs.map (·.scan)) zonedPredicates = .ok plan ∧
      ∃ (kept : List Nat) (tree : Plan), plan = .select (pick zonedPredicates kept) tree ∧
        tree.LeftDeep ∧ tree.scans.map (·.id) = [0, 1] ∧ kept.Pairwise (· < ·) ∧
        (kept ++ tree.embedded.map (·.path.predicateId)).Perm [0, 1] := by
  obtain ⟨p, hp, horder, plan, hplan⟩ := branched_zoned
  have hdistinct : (zonedInputs.map (·.scan.id)).Nodup := by decide
  obtain ⟨kept, tree, heq, hleft, hids, -, hkept, hperm, -⟩ := toPlan_conserves hdistinct hp hplan
  exact ⟨p, plan, hp, hplan, kept, tree, heq, hleft, hids.trans horder, hkept, hperm⟩

end JoinPrefix

end SpatialStore
