import SpatialStore.Proofs.Double.Products
import SpatialStore.Proofs.Join.Discovery

/-!
# Searching again in the order that was found

When a search finds an order in which all tables are scanned, and its tables are then searched again
with the input in this order, it is found again (`JoinPrefix.search_repeats`).

The input order decides which orders are discovered first and so what is pruned, but not what an
order costs (`JoinPrefix.Alike`). The second search discovers the order first. Scans only add to the
cost, so none of its beginnings costs more than the order itself. From then on nothing is within
the bound unless it is within the cost of this order. An order that is cheaper would have all of its
beginnings within that cost, and the first search cannot have missed such an order.
-/

namespace SpatialStore

namespace JoinPrefix

variable {inputs inputs' : List JoinInput} {candidates : List AccessPath}
  {reduction bound : Float} {p p' q r : JoinPrefix} {id : ScanId} {ids : List ScanId}

/-! ### Inputs in another order -/

/-- The same tables are joined in the same way, and the others are listed in any order. -/
structure Alike (p q : JoinPrefix) : Prop where
  steps : p.steps = q.steps
  cost : p.cost = q.cost
  pending : p.pending.Perm q.pending

theorem alike_root (hperm : inputs.Perm inputs') : Alike (root inputs) (root inputs') :=
  ⟨rfl, rfl, hperm.map _⟩

/-- The paths to a table depend on the joined tables only. -/
theorem Alike.pathsTo_eq (h : Alike p p') (candidates : List AccessPath) (id : ScanId) :
    p.pathsTo candidates id = p'.pathsTo candidates id := by
  obtain ⟨steps, pending, cost⟩ := p
  obtain ⟨steps', pending', cost'⟩ := p'
  obtain rfl : steps = steps' := h.steps
  rfl

theorem Alike.extend (h : Alike p p') (hperm : inputs.Perm inputs')
    (hdistinct : (inputs'.map (·.scan.id)).Nodup)
    (hq : p.extend inputs candidates reduction id = .ok q) :
    ∃ q', p'.extend inputs' candidates reduction id = .ok q' ∧ Alike q q' := by
  obtain ⟨hid, input, hinput, rfl, rfl⟩ := extend_eq_ok hq
  have hid' := h.pending.mem_iff.mp hid
  refine ⟨⟨p'.steps ++ [⟨input.scan.id, input.rowCount, p'.pathsTo candidates input.scan.id⟩],
    p'.pending.erase input.scan.id, p'.cost.join reduction input.rowCount
      (p'.pathsTo candidates input.scan.id)⟩, ?_, ?_, ?_, h.pending.erase _⟩
  · rw [JoinPrefix.extend, if_neg (not_not.mpr hid'),
      JoinInput.find?_of_mem hdistinct (hperm.mem_iff.mp hinput)]
  · rw [h.steps, h.pathsTo_eq]
  · rw [h.cost, h.pathsTo_eq]

/-- Orders are joined at the same cost, whatever the order of the input is. -/
theorem Alike.extendAll (h : Alike p p') (hperm : inputs.Perm inputs')
    (hdistinct : (inputs'.map (·.scan.id)).Nodup)
    (hq : p.extendAll inputs candidates reduction ids = .ok q) :
    ∃ q', p'.extendAll inputs' candidates reduction ids = .ok q' ∧ Alike q q' := by
  induction ids generalizing p p' with
  | nil =>
    cases hq
    exact ⟨p', rfl, h⟩
  | cons id ids ih =>
    obtain ⟨next, hnext, hq⟩ := Result.bind_eq_ok.mp hq
    obtain ⟨next', hnext', halike⟩ := h.extend hperm hdistinct hnext
    rw [extendAll_cons hnext']
    exact ih halike hq

/-! ### Orders without access paths -/

/-- What is joined first stays joined. -/
theorem steps_of_extendAll (h : p.extendAll inputs candidates reduction ids = .ok q) :
    p.steps <+: q.steps := by
  induction ids generalizing p with
  | nil =>
    cases h
    exact List.prefix_refl _
  | cons id ids ih =>
    obtain ⟨next, hnext, h⟩ := Result.bind_eq_ok.mp h
    obtain ⟨-, input, -, -, rfl⟩ := extend_eq_ok hnext
    exact (List.prefix_append _ _).trans (ih h)

/-- Joining tables by scans multiplies the cost, and builds no index. -/
theorem proportional_le_of_scans (hcount : Countable inputs reduction)
    (h : p.extendAll inputs candidates reduction ids = .ok q)
    (hscans : ∀ step ∈ q.steps, step.paths = []) (hp : 1 ≤ p.cost.proportional) :
    p.cost.proportional ≤ q.cost.proportional ∧ q.cost.constant = p.cost.constant := by
  induction ids generalizing p with
  | nil =>
    cases h
    exact ⟨Double.le_refl (Double.isNaN_of_le hp).2, rfl⟩
  | cons id ids ih =>
    obtain ⟨next, hnext, h⟩ := Result.bind_eq_ok.mp h
    have hsteps := steps_of_extendAll h
    obtain ⟨-, input, hinput, -, rfl⟩ := extend_eq_ok hnext
    have hnone : p.pathsTo candidates id = [] :=
      hscans _ (hsteps.subset (List.mem_append_right _ List.mem_cons_self))
    have hlt := hcount.rowCount input hinput
    have hrows : 1 ≤ Float.ofNat (max input.rowCount 1) :=
      Double.one_le_ofNat (by omega) (by omega)
    rw [hnone] at h
    obtain ⟨hle, hconstant⟩ := ih h (Double.one_le_mul hp hrows)
    exact ⟨Double.le_trans (Double.le_mul hp hrows) hle, hconstant⟩

/-- No beginning of an order by scans costs more than the order. -/
theorem staysWithin_of_scans (hcount : Countable inputs reduction)
    (h : (root inputs).extendAll inputs candidates reduction ids = .ok q)
    (hscans : ∀ step ∈ q.steps, step.paths = []) :
    (root inputs).StaysWithin inputs candidates reduction ids q.cost.total := by
  intro front r hfront _ hr
  obtain ⟨rest, rfl⟩ := hfront
  rw [extendAll_append hr] at h
  have hone : 1 ≤ (root inputs).cost.proportional := by
    change (1 : Float) ≤ 1
    decide +kernel
  have hbefore : ∀ step ∈ r.steps, step.paths = [] :=
    fun step hstep => hscans step ((steps_of_extendAll h).subset hstep)
  obtain ⟨hrle, hrzero⟩ := proportional_le_of_scans hcount hr hbefore hone
  have hrone := Double.le_trans hone hrle
  obtain ⟨hqle, hqzero⟩ := proportional_le_of_scans hcount h hscans hrone
  rw [JoinCost.total, JoinCost.total, hqzero, hrzero]
  exact Double.add_zero_le_add_zero hrone hqle

/-- Joining tables one after the other keeps costs valid. -/
theorem Priced.extendAll (hp : p.Priced inputs candidates reduction)
    (hcount : Countable inputs reduction)
    (h : p.extendAll inputs candidates reduction ids = .ok q) :
    q.Priced inputs candidates reduction ∧ q.order = p.order ++ ids := by
  induction ids generalizing p with
  | nil =>
    cases h
    exact ⟨hp, (List.append_nil _).symm⟩
  | cons id ids ih =>
    obtain ⟨next, hnext, h⟩ := Result.bind_eq_ok.mp h
    obtain ⟨child, hchild, hpriced, -⟩ := hp.exists_extend hcount (extend_eq_ok hnext).1
    obtain rfl := Except.ok.inj (hnext.symm.trans hchild)
    obtain ⟨hq, horder⟩ := ih hpriced h
    refine ⟨hq, ?_⟩
    rw [horder, order_extend hnext, List.append_assoc]
    rfl

/-- One more table within the bound. -/
theorem Priced.staysWithin_extend (hp : p.Priced inputs candidates reduction)
    (hwithin : (root inputs).StaysWithin inputs candidates reduction p.order bound)
    (hq : p.extend inputs candidates reduction id = .ok q) (hle : q.cost.total ≤ bound) :
    (root inputs).StaysWithin inputs candidates reduction q.order bound := by
  intro front r hfront hne hr
  rw [order_extend hq] at hfront
  rcases List.prefix_concat_iff.mp hfront with rfl | hfront
  · rw [extendAll_append hp.built, extendAll_singleton hq] at hr
    cases hr
    exact hle
  · exact hwithin front r hfront hne hr

end JoinPrefix

/-! ### The second search -/

namespace JoinSearch

open JoinPrefix (root)

variable {inputs : List JoinInput} {candidates : List AccessPath} {reduction : Float}
  {p q : JoinPrefix} {id : ScanId} {s : JoinSearch} {n : Nat}

/-- The best order is the given one, or one that is cheaper and has all of its beginnings within the
cost of the given one. -/
def Holds (inputs : List JoinInput) (candidates : List AccessPath) (reduction : Float)
    (q : JoinPrefix) (s : JoinSearch) : Prop :=
  ∃ b ∈ s.best, b = q ∨ b.Priced inputs candidates reduction ∧ b.complete = true ∧
    (root inputs).StaysWithin inputs candidates reduction b.order q.cost.total ∧
    b.cost.total < q.cost.total

theorem Holds.total_le (h : s.Holds inputs candidates reduction q)
    (hq : q.Priced inputs candidates reduction) : ∀ b ∈ s.best, b.cost.total ≤ q.cost.total := by
  obtain ⟨b, hb, h⟩ := h
  intro c hc
  obtain rfl := Option.some.inj (hb.symm.trans hc)
  rcases h with rfl | ⟨-, -, -, hlt⟩
  · exact Double.le_refl hq.cost.total
  · exact Double.le_of_lt hlt

/-- What costs more than the best order is given up. -/
theorem visit_of_prunes {child : JoinPrefix}
    (hchild : p.extend inputs candidates reduction id = .ok child)
    (h : s.prunes child = true) :
    visit inputs candidates reduction n p s id =
      .ok ⟨s.best, s.stats.expanded + 1, s.stats.pruned + 1, s.stats.complete⟩ := by
  rw [visit, Result.bind_of_eq_ok hchild]
  dsimp only
  rw [if_pos h]
  rfl

/-- The state after an extension of a prefix within the cost of the order. What is not given up is
within this cost too. -/
private theorem visit_holds (hcount : JoinPrefix.Countable inputs reduction)
    (hq : q.Priced inputs candidates reduction)
    (hexplore : ∀ {p : JoinPrefix} {s : JoinSearch}, p.Priced inputs candidates reduction →
      p.pending.length ≤ n →
      (root inputs).StaysWithin inputs candidates reduction p.order q.cost.total →
      s.Holds inputs candidates reduction q →
      ∃ t, explore inputs candidates reduction n p s = .ok t ∧
        t.Holds inputs candidates reduction q)
    (hp : p.Priced inputs candidates reduction) (hn : p.pending.length ≤ n + 1)
    (hwithin : (root inputs).StaysWithin inputs candidates reduction p.order q.cost.total)
    (hid : id ∈ p.pending) (hs : s.Holds inputs candidates reduction q) :
    ∃ t, visit inputs candidates reduction n p s id = .ok t ∧
      t.Holds inputs candidates reduction q := by
  obtain ⟨child, hchild, hpriced, hpending⟩ := hp.exists_extend hcount hid
  by_cases hprunes : s.prunes child = true
  · exact ⟨_, visit_of_prunes hchild hprunes, hs⟩
  have hle : child.cost.total ≤ q.cost.total := by
    have ⟨b, hb, _⟩ := hs
    have hnlt : ¬b.cost.total < child.cost.total :=
      fun hlt => hprunes (prunes_iff.mpr ⟨b, hb, hlt⟩)
    have hbq := hs.total_le hq b hb
    exact Double.le_trans (Double.le_of_not_lt (Double.isNaN_of_le hbq).1 hpriced.cost.total
      hnlt) hbq
  have hchildWithin := hp.staysWithin_extend hwithin hchild hle
  have hvisited := visited hchild n s
  generalize visit inputs candidates reduction n p s id = result at hvisited ⊢
  cases hvisited with
  | pruned | worse => exact ⟨_, rfl, hs⟩
  | better hcomplete hlt =>
    have ⟨b, hb, _⟩ := hs
    have hcheaper : child.cost.total < q.cost.total :=
      Double.lt_of_lt_of_le (hlt b hb) (hs.total_le hq b hb)
    exact ⟨_, rfl, child, rfl, .inr ⟨hpriced, hcomplete, hchildWithin, hcheaper⟩⟩
  | further hne =>
    have hshorter : child.pending.length ≤ n := hpending ▸ JoinPrefix.length_erase_le hid hn
    exact hexplore hpriced hshorter hchildWithin hs

/-- Once the order is the best one, going on within its cost leaves it, or finds a cheaper one
within its cost. -/
theorem explore_holds (hcount : JoinPrefix.Countable inputs reduction)
    (hq : q.Priced inputs candidates reduction) (hp : p.Priced inputs candidates reduction)
    (hn : p.pending.length ≤ n)
    (hwithin : (root inputs).StaysWithin inputs candidates reduction p.order q.cost.total)
    (hs : s.Holds inputs candidates reduction q) :
    ∃ t, explore inputs candidates reduction n p s = .ok t ∧
      t.Holds inputs candidates reduction q := by
  induction n generalizing p s with
  | zero => exact ⟨s, rfl, hs⟩
  | succ n ih =>
    rw [explore_succ]
    have hstep : ∀ id ∈ p.pending, ∀ s : JoinSearch, s.Holds inputs candidates reduction q →
        ∃ t, visit inputs candidates reduction n p s id = .ok t ∧
          t.Holds inputs candidates reduction q ∧ True := by
      intro id hid s hs
      obtain ⟨t, ht, hholds⟩ := visit_holds hcount hq ih hp hn hwithin hid hs
      exact ⟨t, ht, hholds, trivial⟩
    obtain ⟨t, ht, hholds, -⟩ := Result.exists_foldlM hstep hs
    exact ⟨t, ht, hholds⟩

/-- An order that joins the pending tables as they are listed is the first to be discovered. -/
theorem explore_first (hcount : JoinPrefix.Countable inputs reduction)
    (hq : q.Priced inputs candidates reduction)
    (hwithin : (root inputs).StaysWithin inputs candidates reduction q.order q.cost.total)
    (hp : p.Priced inputs candidates reduction) (hn : p.pending.length ≤ n)
    (horder : q.order = p.order ++ p.pending) (hne : p.pending ≠ []) (hs : s.best = none) :
    ∃ t, explore inputs candidates reduction n p s = .ok t ∧
      t.Holds inputs candidates reduction q := by
  induction n generalizing p s with
  | zero => exact absurd (List.length_eq_zero_iff.mp (Nat.le_zero.mp hn)) hne
  | succ n ih =>
    obtain ⟨id, rest, hid⟩ := List.exists_cons_of_ne_nil hne
    have hmem : id ∈ p.pending := hid ▸ List.mem_cons_self
    have hpWithin : (root inputs).StaysWithin inputs candidates reduction p.order q.cost.total :=
      fun front r hfront hfne hr =>
        hwithin front r (hfront.trans (horder ▸ List.prefix_append _ _)) hfne hr
    -- the first table leads to the order
    obtain ⟨t, ht, hholds⟩ : ∃ t, visit inputs candidates reduction n p s id = .ok t ∧
        t.Holds inputs candidates reduction q := by
      obtain ⟨child, hchild, hpriced, hpending⟩ := hp.exists_extend hcount hmem
      have hchildOrder : q.order = child.order ++ child.pending := by
        rw [horder, JoinPrefix.order_extend hchild, hpending, hid, List.erase_cons_head,
          List.append_assoc]
        rfl
      have hvisited := visited hchild n s
      generalize visit inputs candidates reduction n p s id = result at hvisited ⊢
      cases hvisited with
      | pruned hb | worse _ hb =>
        rw [hs] at hb
        cases hb
      | better hcomplete =>
        rw [List.isEmpty_iff.mp hcomplete, List.append_nil] at hchildOrder
        have hbuilt := hpriced.built
        rw [← hchildOrder, hq.built] at hbuilt
        exact ⟨_, rfl, child, rfl, .inl (Except.ok.inj hbuilt).symm⟩
      | further hmore =>
        have hshorter : child.pending.length ≤ n :=
          hpending ▸ JoinPrefix.length_erase_le hmem hn
        let stats := { s.stats with expanded := s.stats.expanded + 1 }
        exact ih (s := ⟨s.best, stats⟩) hpriced hshorter hchildOrder hmore hs
    -- the others go on within its cost
    have hstep : ∀ next ∈ rest, ∀ s : JoinSearch, s.Holds inputs candidates reduction q →
        ∃ t, visit inputs candidates reduction n p s next = .ok t ∧
          t.Holds inputs candidates reduction q ∧ True := by
      intro next hnext s hs
      have hlater : next ∈ p.pending := hid ▸ List.mem_cons_of_mem _ hnext
      obtain ⟨t, ht, hholds⟩ := visit_holds hcount hq (explore_holds hcount hq) hp hn hpWithin
        hlater hs
      exact ⟨t, ht, hholds, trivial⟩
    obtain ⟨u, hu, hfinal, -⟩ := Result.exists_foldlM hstep hholds
    refine ⟨u, ?_, hfinal⟩
    rw [explore_succ, hid, List.foldlM_cons, Result.bind_of_eq_ok ht, hu]

end JoinSearch

namespace JoinPrefix

variable {inputs inputs' : List JoinInput} {candidates : List AccessPath} {reduction : Float}
  {best : JoinPrefix} {stats : SearchCounts}

/-- The result of a search is a complete order, and no order is missed whose beginnings are all
within its cost. -/
theorem least_of_search (hcount : Countable inputs reduction)
    (h : search inputs candidates reduction = .ok (best, stats)) :
    best.Priced inputs candidates reduction ∧ best.complete = true ∧
      ∀ ids : List ScanId, ids.Perm (inputs.map (·.scan.id)) → ids ≠ [] →
        ∀ p, (root inputs).extendAll inputs candidates reduction ids = .ok p →
          (root inputs).StaysWithin inputs candidates reduction ids best.cost.total →
            best.cost.total ≤ p.cost.total := by
  obtain ⟨s, hs, hbest, -⟩ := search_eq_ok h
  have hpending := Nat.le_of_eq (length_pending_root inputs)
  obtain ⟨t, ht, hfound, -, hsettled⟩ := JoinSearch.explore_settles hcount
    (priced_root inputs candidates reduction) hpending (s := ⟨none, .zero⟩) fun _ h => by cases h
  obtain rfl := Except.ok.inj (hs.symm.trans ht)
  obtain ⟨hpriced, hcomplete⟩ := hfound best hbest
  refine ⟨hpriced, hcomplete, fun ids hids hne p hp hwithin => ?_⟩
  obtain ⟨b, hb, hsettled⟩ := hsettled ids hids hne
  obtain rfl := Option.some.inj (hbest.symm.trans hb)
  rcases hsettled with ⟨q, hq, hle⟩ | ⟨front, q, hfront, hfne, -, hq, hlt⟩
  · obtain rfl := Except.ok.inj (hq.symm.trans hp)
    exact hle
  · exact absurd hlt (Double.not_lt_of_le (hwithin front q hfront hfne hq))

/-- An order by scans that a search found is found again when the input is put into this order. -/
theorem search_repeats (hcount : Countable inputs reduction)
    (hdistinct : (inputs.map (·.scan.id)).Nodup) (hperm : inputs.Perm inputs')
    (h : search inputs candidates reduction = .ok (best, stats))
    (hscans : ∀ step ∈ best.steps, step.paths = [])
    (horder : inputs'.map (·.scan.id) = best.order) :
    ∃ again stats', search inputs' candidates reduction = .ok (again, stats') ∧
      again.steps = best.steps ∧ again.pending = best.pending := by
  have hdistinct' : (inputs'.map (·.scan.id)).Nodup := (hperm.map _).nodup_iff.mp hdistinct
  have hcount' : Countable inputs' reduction :=
    ⟨fun input hinput => hcount.rowCount input (hperm.mem_iff.mpr hinput), hcount.reduction⟩
  obtain ⟨hbest, hcomplete, hleast⟩ := least_of_search hcount h
  have hne : inputs ≠ [] := by
    rintro rfl
    cases h
  have hne' : inputs' ≠ [] := fun hnil => hne (List.perm_nil.mp (hnil ▸ hperm))
  have hlength := Nat.le_of_eq (length_pending_root inputs')
  -- the order that was found, with the input in this order
  have hroot := priced_root inputs' candidates reduction
  obtain ⟨q, hq, halike⟩ := (alike_root hperm).extendAll hperm hdistinct' hbest.built
  obtain ⟨hpriced, hqorder⟩ := hroot.extendAll hcount' hq
  change q.order = best.order at hqorder
  have hwithin := staysWithin_of_scans hcount' hq (halike.steps ▸ hscans)
  rw [← hqorder] at hwithin
  have hfirst : q.order = (root inputs').order ++ (root inputs').pending :=
    hqorder.trans horder.symm
  obtain ⟨t, ht, b, hb, rfl | ⟨hbpriced, hbcomplete, hbwithin, hlt⟩⟩ :=
    JoinSearch.explore_first hcount' hpriced hwithin hroot hlength hfirst
      (pending_root_ne_nil hne') (s := ⟨none, .zero⟩) rfl
  · refine ⟨b, t.stats, search_of_explore hne' ht hb, halike.steps.symm, ?_⟩
    have hnone := List.isEmpty_iff.mp hcomplete
    rw [hnone]
    exact List.perm_nil.mp (hnone ▸ halike.pending.symm)
  · -- the first search would have found what is cheaper within the cost of its result
    obtain ⟨p, hp, hpalike⟩ := (alike_root hperm.symm).extendAll hperm.symm hdistinct hbpriced.built
    have hids := (hbpriced.sound.order_perm hbcomplete).trans (hperm.map _).symm
    have hids_ne : b.order ≠ [] := by
      intro hnil
      rw [hnil] at hids
      exact hne (List.map_eq_nil_iff.mp hids.nil_eq.symm)
    have hpwithin :
        (root inputs).StaysWithin inputs candidates reduction b.order best.cost.total := by
      intro front r hfront hfne hr
      obtain ⟨r', hr', hralike⟩ := (alike_root hperm).extendAll hperm hdistinct' hr
      rw [hralike.cost, halike.cost]
      exact hbwithin front r' hfront hfne hr'
    have hle := hleast b.order hids hids_ne p hp hpwithin
    rw [halike.cost, ← hpalike.cost] at hle
    exact absurd hlt (Double.not_lt_of_le hle)

end JoinPrefix

end SpatialStore
