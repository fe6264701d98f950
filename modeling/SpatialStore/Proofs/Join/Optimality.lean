import SpatialStore.Proofs.Double.Arithmetic
import SpatialStore.Proofs.Join.Order
import SpatialStore.Settings.Basic

/-!
# Costs of join orders

The search gives a prefix up when it costs more than the best complete order so far. Joining a
table through an index may lower the cost, so an order that would have been cheaper can be given up
for a dear beginning. Otherwise no order is missed: the order that the search yields costs at most
as much as any other order, or less than a beginning of it (`JoinPrefix.search_least`).

Costs are doubles. They are compared with each other, so none of them may be NaN: a cost is *valid*
when both of its parts are at least zero (`JoinCost.Valid`), which holds as long as tables have
fewer than `2 ^ 64` rows. The search is followed by two statements about its best cost: it only
falls, and once a prefix has been gone through, every order that continues it is *settled*
(`JoinSearch.Settled`).
-/

namespace SpatialStore

/-! ### Valid costs -/

/-- Both parts are at least zero, so neither is NaN. -/
structure JoinCost.Valid (c : JoinCost) : Prop where
  proportional : 0 ≤ c.proportional
  constant : 0 ≤ c.constant

namespace JoinCost

variable {c : JoinCost} {reduction : Float} {rowCount : Nat}

theorem valid_initial : initial.Valid := ⟨by decide +kernel, by decide +kernel⟩

theorem Valid.total (hc : c.Valid) : c.total.isNaN = false :=
  (Double.isNaN_of_le (Double.zero_le_add hc.proportional hc.constant)).2

theorem Valid.join (hc : c.Valid) (hreduction : Double.FinitePositive reduction)
    (hrows : rowCount < 2 ^ 64) (paths : List AccessPath) :
    (c.join reduction rowCount paths).Valid := by
  have hcount : Double.FinitePositive (Float.ofNat (max rowCount 1)) :=
    Double.finitePositive_ofNat (by omega) (by omega)
  have hproduct := Double.zero_le_mul hc.proportional hcount
  rw [JoinCost.join]
  dsimp only
  split_ifs
  · exact ⟨hproduct, hc.constant⟩
  · refine ⟨Double.zero_le_div hproduct hreduction, ?_⟩
    -- the rows are added once for every index that is built
    have hrow : 0 ≤ Float.ofNat (max rowCount 1) := hcount.zero_le
    generalize distinct [] _ = built
    induction built generalizing c with
    | nil => exact hc.constant
    | cons _ built ih =>
      exact ih (c := ⟨c.proportional, _⟩) ⟨hc.proportional, Double.zero_le_add hc.constant hrow⟩
        hproduct

end JoinCost

/-- Valid settings have a positive reduction. -/
theorem JoinSettings.finitePositive_reduction {s : JoinSettings} (h : s.validate = .ok ()) :
    Double.FinitePositive s.reduction := by
  rw [validate] at h
  split_ifs at h with hsmall
  rw [Bool.or_eq_true, not_or, Bool.not_eq_true', Bool.not_eq_false, decide_eq_true_iff] at hsmall
  exact Double.finitePositive_of_not_lt_one hsmall.1 hsmall.2

/-! ### Orders one table after the other -/

namespace JoinPrefix

variable {inputs : List JoinInput} {candidates : List AccessPath} {reduction : Float}
  {p q : JoinPrefix} {id : ScanId} {ids : List ScanId}

/-- Join some tables one after the other. -/
def extendAll (inputs : List JoinInput) (candidates : List AccessPath) (reduction : Float)
    (p : JoinPrefix) (ids : List ScanId) : Except PlanError JoinPrefix :=
  ids.foldlM (extend inputs candidates reduction) p

theorem extendAll_cons (h : p.extend inputs candidates reduction id = .ok q) :
    p.extendAll inputs candidates reduction (id :: ids) =
      q.extendAll inputs candidates reduction ids := by
  rw [extendAll, List.foldlM_cons, Result.bind_of_eq_ok h, extendAll]

theorem extendAll_singleton (h : p.extend inputs candidates reduction id = .ok q) :
    p.extendAll inputs candidates reduction [id] = .ok q :=
  extendAll_cons h

theorem extendAll_append (h : p.extendAll inputs candidates reduction ids = .ok q)
    (more : List ScanId) : p.extendAll inputs candidates reduction (ids ++ more) =
      q.extendAll inputs candidates reduction more := by
  rw [extendAll] at h
  rw [extendAll, List.foldlM_append, Result.bind_of_eq_ok h, extendAll]

/-- Nothing continues a complete order. -/
theorem eq_nil_of_complete (hp : p.complete = true) (hids : ids.Perm p.pending) : ids = [] := by
  rw [List.isEmpty_iff.mp hp] at hids
  exact hids.eq_nil

/-- Some proper beginning of an order that continues the prefix costs more than `cost`. -/
def Exceeds (inputs : List JoinInput) (candidates : List AccessPath) (reduction : Float)
    (p : JoinPrefix) (ids : List ScanId) (cost : Float) : Prop :=
  ∃ front q, front <+: ids ∧ front ≠ [] ∧ front ≠ ids ∧
    p.extendAll inputs candidates reduction front = .ok q ∧ cost < q.cost.total

/-- A sound prefix with a valid cost that joining its tables one after the other leads to. -/
structure Priced (inputs : List JoinInput) (candidates : List AccessPath) (reduction : Float)
    (p : JoinPrefix) : Prop where
  sound : p.Sound inputs candidates
  cost : p.cost.Valid
  built : (root inputs).extendAll inputs candidates reduction p.order = .ok p

theorem priced_root (inputs : List JoinInput) (candidates : List AccessPath) (reduction : Float) :
    (root inputs).Priced inputs candidates reduction :=
  ⟨sound_root inputs candidates, JoinCost.valid_initial, rfl⟩

/-- The tables have row counts that are numbers, and the reduction is one. -/
structure Countable (inputs : List JoinInput) (reduction : Float) : Prop where
  rowCount : ∀ input ∈ inputs, input.rowCount < 2 ^ 64
  reduction : Double.FinitePositive reduction

theorem Priced.exists_extend (hp : p.Priced inputs candidates reduction)
    (hcount : Countable inputs reduction) (hid : id ∈ p.pending) :
    ∃ child, p.extend inputs candidates reduction id = .ok child ∧
      child.Priced inputs candidates reduction ∧ child.pending = p.pending.erase id := by
  obtain ⟨child, hchild, hsound, hpending⟩ := hp.sound.exists_extend reduction hid
  obtain ⟨-, input, hinput, -, hq⟩ := extend_eq_ok hchild
  refine ⟨child, hchild, ⟨hsound, ?_, ?_⟩, hpending⟩
  · rw [hq]
    exact hp.cost.join hcount.reduction (hcount.rowCount input hinput) _
  · rw [order_extend hchild, extendAll_append hp.built]
    exact extendAll_singleton hchild

/-- The pending tables can be joined in any order. -/
theorem Priced.exists_extendAll (hp : p.Priced inputs candidates reduction)
    (hcount : Countable inputs reduction) (hids : ids.Perm p.pending) :
    ∃ q, p.extendAll inputs candidates reduction ids = .ok q := by
  induction ids generalizing p with
  | nil => exact ⟨p, rfl⟩
  | cons id ids ih =>
    have hid : id ∈ p.pending := hids.subset List.mem_cons_self
    obtain ⟨child, hchild, hpriced, hpending⟩ := hp.exists_extend hcount hid
    rw [extendAll_cons hchild]
    refine ih hpriced ?_
    rw [hpending]
    exact (List.cons_perm_iff_perm_erase.mp hids).2

end JoinPrefix

/-! ### Searching -/

namespace JoinSearch

variable {inputs : List JoinInput} {candidates : List AccessPath} {reduction : Float}
  {p q : JoinPrefix} {ids : List ScanId} {s t : JoinSearch}

/-- The best order costs at most as much as the best order before. -/
def Improves (t s : JoinSearch) : Prop :=
  ∀ b ∈ s.best, ∃ c ∈ t.best, c.cost.total ≤ b.cost.total

/-- An order of the pending tables is settled when it costs at least as much as the best order, or
when a beginning of it costs more. -/
def Settled (inputs : List JoinInput) (candidates : List AccessPath) (reduction : Float)
    (s : JoinSearch) (p : JoinPrefix) (ids : List ScanId) : Prop :=
  ∃ b ∈ s.best,
    (∃ q, p.extendAll inputs candidates reduction ids = .ok q ∧ b.cost.total ≤ q.cost.total) ∨
    p.Exceeds inputs candidates reduction ids b.cost.total

/-- The best order so far is complete, with a valid cost. -/
def Found (inputs : List JoinInput) (candidates : List AccessPath) (reduction : Float)
    (s : JoinSearch) : Prop :=
  ∀ b ∈ s.best, b.Priced inputs candidates reduction ∧ b.complete = true

theorem Found.improves_refl (hs : s.Found inputs candidates reduction) : s.Improves s :=
  fun b hb => ⟨b, hb, Double.le_refl (hs b hb).1.cost.total⟩

theorem Improves.trans {u : JoinSearch} (hut : u.Improves t) (hts : t.Improves s) :
    u.Improves s := by
  intro b hb
  obtain ⟨c, hc, hcb⟩ := hts b hb
  obtain ⟨d, hd, hdc⟩ := hut c hc
  exact ⟨d, hd, Double.le_trans hdc hcb⟩

/-- What is settled stays settled when the best order gets cheaper. -/
theorem Settled.improve (h : s.Settled inputs candidates reduction p ids) (ht : t.Improves s) :
    t.Settled inputs candidates reduction p ids := by
  obtain ⟨b, hb, h⟩ := h
  obtain ⟨c, hc, hcb⟩ := ht b hb
  refine ⟨c, hc, h.imp ?_ ?_⟩
  · rintro ⟨q, hq, hbq⟩
    exact ⟨q, hq, Double.le_trans hcb hbq⟩
  · rintro ⟨front, q, hfront, hne, hne', hq, hbq⟩
    exact ⟨front, q, hfront, hne, hne', hq, Double.lt_of_le_of_lt hcb hbq⟩

/-- Joining one table first. -/
theorem Settled.cons {id : ScanId} (hchild : p.extend inputs candidates reduction id = .ok q)
    (h : s.Settled inputs candidates reduction q ids) :
    s.Settled inputs candidates reduction p (id :: ids) := by
  obtain ⟨b, hb, h⟩ := h
  refine ⟨b, hb, h.imp ?_ ?_⟩
  · rintro ⟨r, hr, hbr⟩
    exact ⟨r, (JoinPrefix.extendAll_cons hchild).trans hr, hbr⟩
  · rintro ⟨front, r, hfront, -, hne, hr, hbr⟩
    refine ⟨id :: front, r, List.cons_prefix_cons.mpr ⟨rfl, hfront⟩, List.cons_ne_nil _ _, ?_,
      (JoinPrefix.extendAll_cons hchild).trans hr, hbr⟩
    exact fun heq => hne (List.cons.inj heq).2

/-- A table that completes an order settles it if the order is not cheaper than the best. -/
theorem settled_of_le {id : ScanId} {b : JoinPrefix} (hb : b ∈ s.best)
    (hchild : p.extend inputs candidates reduction id = .ok q)
    (hle : b.cost.total ≤ q.cost.total) :
    s.Settled inputs candidates reduction p [id] :=
  ⟨b, hb, .inl ⟨q, JoinPrefix.extendAll_singleton hchild, hle⟩⟩

/-- A prefix that costs more than the best order settles all that continue it. -/
theorem settled_of_lt {id : ScanId} {b : JoinPrefix} (hb : b ∈ s.best)
    (hchild : p.extend inputs candidates reduction id = .ok q)
    (hlt : b.cost.total < q.cost.total) (ids : List ScanId) :
    s.Settled inputs candidates reduction p (id :: ids) := by
  cases ids with
  | nil => exact settled_of_le hb hchild (Double.le_of_lt hlt)
  | cons next ids =>
    have hne : [id] ≠ id :: next :: ids := fun h => nomatch (List.cons.inj h).2
    exact ⟨b, hb, .inr ⟨[id], q, List.prefix_append [id] _, List.cons_ne_nil _ _, hne,
      JoinPrefix.extendAll_singleton hchild, hlt⟩⟩

/-- Going through the extensions of a prefix settles every order of its pending tables. -/
theorem explore_settles (hcount : JoinPrefix.Countable inputs reduction) {n : Nat}
    (hp : p.Priced inputs candidates reduction) (hn : p.pending.length ≤ n)
    (hs : s.Found inputs candidates reduction) :
    ∃ t, explore inputs candidates reduction n p s = .ok t ∧
      t.Found inputs candidates reduction ∧ t.Improves s ∧
      ∀ ids, ids.Perm p.pending → ids ≠ [] → t.Settled inputs candidates reduction p ids := by
  induction n generalizing p s with
  | zero =>
    have hnone := List.length_eq_zero_iff.mp (Nat.le_zero.mp hn)
    refine ⟨s, rfl, hs, hs.improves_refl, fun ids hids hne => absurd ?_ hne⟩
    rw [hnone] at hids
    exact hids.eq_nil
  | succ n ih =>
    rw [explore_succ]
    refine (Result.exists_foldlM_forall (P := Found inputs candidates reduction)
      (R := fun s t => t.Improves s)
      (Q := fun id t => ∀ ids, ids.Perm (p.pending.erase id) →
        t.Settled inputs candidates reduction p (id :: ids))
      (fun s hs => hs.improves_refl) (fun s t u hst htu => htu.trans hst)
      (fun id s t hst h ids hids => (h ids hids).improve hst) (fun id hid s hs => ?extend)
      hs).imp fun t ht => ⟨ht.1, ht.2.1, ht.2.2.1, fun ids hids hne => ?settled⟩
    case settled =>
      cases ids with
      | nil => exact absurd rfl hne
      | cons id ids =>
        obtain ⟨hid, hrest⟩ := List.cons_perm_iff_perm_erase.mp hids
        exact ht.2.2.2 id hid ids hrest
    case extend =>
      obtain ⟨child, hchild, hpriced, hpending⟩ := hp.exists_extend hcount hid
      rw [← hpending]
      have hvisited := visited hchild n s
      generalize visit inputs candidates reduction n p s id = result at hvisited ⊢
      cases hvisited with
      | pruned hb hlt =>
        exact ⟨_, rfl, hs, hs.improves_refl, fun ids _ => settled_of_lt hb hchild hlt ids⟩
      | better hcomplete hlt =>
        refine ⟨_, rfl, ?_, fun b hb => ⟨child, rfl, Double.le_of_lt (hlt b hb)⟩, fun ids hids => ?_⟩
        · rintro _ ⟨⟩
          exact ⟨hpriced, hcomplete⟩
        · rw [JoinPrefix.eq_nil_of_complete hcomplete hids]
          exact settled_of_le rfl hchild (Double.le_refl hpriced.cost.total)
      | worse hcomplete hb hnlt =>
        refine ⟨_, rfl, hs, hs.improves_refl, fun ids hids => ?_⟩
        rw [JoinPrefix.eq_nil_of_complete hcomplete hids]
        exact settled_of_le hb hchild
          (Double.le_of_not_lt hpriced.cost.total (hs _ hb).1.cost.total hnlt)
      | further hne =>
        have hshorter : child.pending.length ≤ n := hpending ▸ JoinPrefix.length_erase_le hid hn
        let stats := { s.stats with expanded := s.stats.expanded + 1 }
        obtain ⟨t, ht, hfound, himproves, hsettled⟩ := ih (s := ⟨s.best, stats⟩) hpriced hshorter hs
        refine ⟨t, ht, hfound, himproves, fun ids hids => .cons hchild (hsettled ids hids ?_)⟩
        rintro rfl
        exact hne (List.nil_perm.mp hids)

end JoinSearch

namespace JoinPrefix

variable {inputs : List JoinInput} {settings : JoinSettings}

/-- The search yields an order of all tables. Any other order costs at least as much, or one of its
beginnings costs more, for which the search gave it up. -/
theorem search_least (candidates : List AccessPath) (hinputs : inputs ≠ [])
    (hrows : ∀ input ∈ inputs, input.rowCount < 2 ^ 64) (hsettings : settings.validate = .ok ()) :
    ∃ best stats, search inputs candidates settings.reduction = .ok (best, stats) ∧
      best.order.Perm (inputs.map (·.scan.id)) ∧
      (root inputs).extendAll inputs candidates settings.reduction best.order = .ok best ∧
      ∀ ids : List ScanId, ids.Perm (inputs.map (·.scan.id)) →
        ∃ p, (root inputs).extendAll inputs candidates settings.reduction ids = .ok p ∧
          (best.cost.total ≤ p.cost.total ∨
            (root inputs).Exceeds inputs candidates settings.reduction ids best.cost.total) := by
  have hcount : Countable inputs settings.reduction :=
    ⟨hrows, JoinSettings.finitePositive_reduction hsettings⟩
  have hroot := priced_root inputs candidates settings.reduction
  have hpending : (root inputs).pending.length ≤ inputs.length :=
    Nat.le_of_eq (List.length_map _)
  obtain ⟨s, hs, hfound, -, hsettled⟩ := JoinSearch.explore_settles hcount hroot hpending
    (s := ⟨none, .zero⟩) fun _ h => nomatch h
  obtain ⟨best, stats, hsearch, hsound, hcomplete⟩ :=
    search_spec candidates settings.reduction hinputs
  have hbest : s.best = some best := by
    rw [search, if_neg (by rwa [List.isEmpty_iff]), Result.bind_of_eq_ok hs] at hsearch
    split at hsearch
    · rename_i b hb
      cases hsearch
      exact hb
    · cases hsearch
  refine ⟨best, stats, hsearch, ?_, (hfound best hbest).1.built, fun ids hids => ?_⟩
  · have hperm := hsound.perm
    rwa [List.isEmpty_iff.mp hcomplete, List.append_nil] at hperm
  · obtain ⟨p, hp⟩ := hroot.exists_extendAll hcount hids
    have hne : ids ≠ [] := by
      rintro rfl
      exact hinputs (List.map_eq_nil_iff.mp (List.nil_perm.mp hids))
    obtain ⟨b, hb, h⟩ := hsettled ids hids hne
    obtain rfl : best = b := Option.some.inj (hbest.symm.trans hb)
    refine ⟨p, hp, h.imp_left ?_⟩
    rintro ⟨q, hq, hle⟩
    rw [hp] at hq
    cases hq
    exact hle

/-- Two tables of one row and one of a hundred. -/
def sampleInputs : List JoinInput :=
  [⟨⟨0, "owner", none, ⟨[⟨"parcel", .int, []⟩]⟩⟩, 1⟩,
    ⟨⟨1, "permit", none, ⟨[⟨"parcel", .int, []⟩]⟩⟩, 1⟩,
    ⟨⟨2, "parcel", none, ⟨[⟨"id", .int, []⟩]⟩⟩, 100⟩]

/-- Once the large table is joined, the indexes of the small ones lead to them. -/
def sampleCandidates : List AccessPath :=
  [⟨0, .compare .eq (.column ⟨some "owner", "parcel"⟩) (.column ⟨none, "id"⟩), 0, "parcel",
      .attribute, false, .column ⟨none, "id"⟩, [2]⟩,
    ⟨1, .compare .eq (.column ⟨some "permit", "parcel"⟩) (.column ⟨none, "id"⟩), 1, "parcel",
      .attribute, false, .column ⟨none, "id"⟩, [2]⟩]

theorem search_least_parcels :
    ∃ best stats,
      search sampleInputs sampleCandidates ({} : JoinSettings).reduction = .ok (best, stats) ∧
      ∃ p, (root sampleInputs).extendAll sampleInputs sampleCandidates
          ({} : JoinSettings).reduction [0, 1, 2] = .ok p ∧
        (best.cost.total ≤ p.cost.total ∨
          (root sampleInputs).Exceeds sampleInputs sampleCandidates
            ({} : JoinSettings).reduction [0, 1, 2] best.cost.total) := by
  have hne : sampleInputs ≠ [] := List.cons_ne_nil _ _
  have hrows : ∀ input ∈ sampleInputs, input.rowCount < 2 ^ 64 := by decide
  have hsettings : ({} : JoinSettings).validate = .ok () := by
    rw [JoinSettings.validate, if_neg (by decide +kernel)]
  obtain ⟨best, stats, hsearch, -, -, h⟩ :=
    search_least sampleCandidates hne hrows hsettings
  exact ⟨best, stats, hsearch, h [0, 1, 2] (by decide)⟩

/-- The indexes of the small tables are tried too late: a search that starts with a small table
gives the large one up. -/
theorem search_not_least :
    ∃ best stats p,
      search sampleInputs sampleCandidates ({} : JoinSettings).reduction = .ok (best, stats) ∧
      [2, 0, 1].Perm (sampleInputs.map (·.scan.id)) ∧
      (root sampleInputs).extendAll sampleInputs sampleCandidates ({} : JoinSettings).reduction
        [2, 0, 1] = .ok p ∧
      p.cost.total < best.cost.total := by
  have h : (match search sampleInputs sampleCandidates ({} : JoinSettings).reduction,
      (root sampleInputs).extendAll sampleInputs sampleCandidates ({} : JoinSettings).reduction
        [2, 0, 1] with
      | .ok (best, _), .ok p => decide (p.cost.total < best.cost.total)
      | _, _ => false) = true := by
    decide +kernel
  split at h
  · rename_i best stats p hbest hp
    exact ⟨best, stats, p, hbest, by decide, hp, decide_eq_true_iff.mp h⟩
  · cases h

end JoinPrefix

end SpatialStore
