import SpatialStore.Proofs.Join.Optimality

/-!
# The order that wins

The search goes through the orders of the tables as a tree, and so comes across them in the order
of the input: of two orders, the one that first joins an earlier table where they differ is
discovered first (`discovery`). A dear beginning may lead to a cheap order, so the search can miss
orders. What it cannot miss are those of which no beginning costs more than the result: all of them
cost as much as the result, and none was discovered before it (`JoinPrefix.search_first`).

The bound only falls while the search goes on. So a beginning that is within the last bound was
within every bound before, and the order was reached. It was followed only by orders that are
strictly cheaper than the best at that time, and such an order would leave it outside the bound.
-/

namespace SpatialStore

namespace JoinPrefix

variable {inputs : List JoinInput} {candidates : List AccessPath} {reduction cost bound : Float}
  {p q : JoinPrefix} {id : ScanId} {ids : List ScanId}

/-- The positions in the input of some tables. Of two orders, the one whose positions are the lesser
list is discovered first. -/
def discovery (inputs : List JoinInput) (ids : List ScanId) : List Nat :=
  ids.map fun id => (inputs.map (·.scan.id)).idxOf id

theorem discovery_append (ids more : List ScanId) :
    discovery inputs (ids ++ more) = discovery inputs ids ++ discovery inputs more :=
  List.map_append

/-- Orders that begin with an earlier table after the same ones are discovered first. -/
theorem discovery_le_of_lt {first next : ScanId}
    (h : (inputs.map (·.scan.id)).idxOf first < (inputs.map (·.scan.id)).idxOf next)
    (front ids more : List ScanId) :
    discovery inputs (front ++ first :: ids) ≤ discovery inputs (front ++ next :: more) := by
  rw [discovery_append, discovery_append]
  exact le_of_lt (List.append_left_lt (List.cons_lt_cons_iff.mpr (.inl h)))

/-- In a part of a list without repetitions elements come in the order of their positions. -/
theorem pairwise_idxOf {xs ys : List ScanId} (hys : ys.Nodup) (h : xs.Sublist ys) :
    xs.Pairwise fun a b => ys.idxOf a < ys.idxOf b := by
  refine List.Pairwise.sublist h (List.pairwise_iff_getElem.mpr fun i j hi hj hij => ?_)
  rwa [hys.idxOf_getElem, hys.idxOf_getElem]

/-- No beginning of an order that continues the prefix costs more than a bound, nor does the whole
order. -/
def StaysWithin (inputs : List JoinInput) (candidates : List AccessPath) (reduction : Float)
    (p : JoinPrefix) (ids : List ScanId) (bound : Float) : Prop :=
  ∀ front q, front <+: ids → front ≠ [] →
    p.extendAll inputs candidates reduction front = .ok q → q.cost.total ≤ bound

theorem staysWithin_iff : p.StaysWithin inputs candidates reduction ids bound ↔
    ∀ front ∈ ids.inits, front ≠ [] →
      ∀ q ∈ (p.extendAll inputs candidates reduction front).toOption, q.cost.total ≤ bound := by
  refine ⟨fun h front hfront hne q hq => ?_, fun h front q hfront hne hq => ?_⟩
  · refine h front q ((List.mem_inits _ _).mp hfront) hne ?_
    cases hresult : p.extendAll inputs candidates reduction front with
    | error e =>
      rw [hresult] at hq
      cases hq
    | ok r =>
      rw [hresult] at hq
      exact congrArg _ (Option.some.inj hq)
  · exact h front ((List.mem_inits _ _).mpr hfront) hne q (by rw [hq]; rfl)

instance : Decidable (p.StaysWithin inputs candidates reduction ids bound) :=
  decidable_of_iff _ staysWithin_iff.symm

theorem StaysWithin.mono (h : p.StaysWithin inputs candidates reduction ids cost)
    (hcost : cost ≤ bound) : p.StaysWithin inputs candidates reduction ids bound :=
  fun front q hfront hne hq => Double.le_trans (h front q hfront hne hq) hcost

/-- The first table is within the bound. -/
theorem StaysWithin.head (h : p.StaysWithin inputs candidates reduction (id :: ids) bound)
    (hchild : p.extend inputs candidates reduction id = .ok q) : q.cost.total ≤ bound :=
  h [id] q (List.prefix_append [id] ids) (List.cons_ne_nil _ _) (extendAll_singleton hchild)

/-- The others go on within it. -/
theorem StaysWithin.tail (h : p.StaysWithin inputs candidates reduction (id :: ids) bound)
    (hchild : p.extend inputs candidates reduction id = .ok q) :
    q.StaysWithin inputs candidates reduction ids bound := fun front r hfront _ hr =>
  h (id :: front) r (List.cons_prefix_cons.mpr ⟨rfl, hfront⟩) (List.cons_ne_nil _ _)
    ((extendAll_cons hchild).trans hr)

end JoinPrefix

/-! ### Searching -/

namespace JoinSearch

open JoinPrefix (discovery)

variable {inputs : List JoinInput} {candidates : List AccessPath} {reduction : Float}
  {p q : JoinPrefix} {id : ScanId} {ids front : List ScanId} {s t u : JoinSearch}

/-- The best order is still the same, or it begins in a given way and is strictly cheaper. -/
def Advances (front : List ScanId) (t s : JoinSearch) : Prop :=
  t.best = s.best ∨
    ∃ c ∈ t.best, front <+: c.order ∧ ∀ b ∈ s.best, c.cost.total < b.cost.total

theorem Advances.trans (hut : u.Advances front t) (hts : t.Advances front s) :
    u.Advances front s := by
  rcases hut with hut | ⟨d, hd, hfront, hdt⟩
  · rwa [Advances, hut]
  rcases hts with hts | ⟨c, hc, -, hcs⟩
  · exact .inr ⟨d, hd, hfront, hts ▸ hdt⟩
  · refine .inr ⟨d, hd, hfront, fun b hb => ?_⟩
    exact Double.lt_of_le_of_lt (Double.le_of_lt (hdt c hc)) (hcs b hb)

/-- What begins with more tables begins with fewer. -/
theorem Advances.mono {more : List ScanId} (h : t.Advances (front ++ more) s) :
    t.Advances front s :=
  h.imp_right fun ⟨c, hc, hfront, hcs⟩ => ⟨c, hc, (List.prefix_append _ _).trans hfront, hcs⟩

/-- The best order so far was discovered before any order that begins in a given way. -/
def Precedes (inputs : List JoinInput) (front : List ScanId) (s : JoinSearch) : Prop :=
  ∀ b ∈ s.best, ∀ ids, discovery inputs b.order ≤ discovery inputs (front ++ ids)

theorem Precedes.append (h : s.Precedes inputs front) (ids : List ScanId) :
    s.Precedes inputs (front ++ ids) := fun b hb more => by
  rw [List.append_assoc]
  exact h b hb (ids ++ more)

/-- What is found under one table comes before what begins with a later one. -/
theorem Precedes.advance {next : ScanId} (h : s.Precedes inputs (front ++ [next]))
    (hlt : (inputs.map (·.scan.id)).idxOf id < (inputs.map (·.scan.id)).idxOf next)
    (ht : t.Advances (front ++ [id]) s) : t.Precedes inputs (front ++ [next]) := by
  rcases ht with ht | ⟨c, hc, ⟨rest, hrest⟩, -⟩
  · rwa [Precedes, ht]
  · intro b hb ids
    obtain rfl := Option.some.inj (hb.symm.trans hc)
    rw [← hrest, List.append_assoc, List.append_assoc]
    exact JoinPrefix.discovery_le_of_lt hlt front rest ids

/-- The best order wins against an order that continues a prefix: if that one stays within its cost,
it is not cheaper and was not discovered before. -/
def Wins (inputs : List JoinInput) (candidates : List AccessPath) (reduction : Float)
    (s : JoinSearch) (p : JoinPrefix) (ids : List ScanId) : Prop :=
  ∃ b ∈ s.best, ∀ q, p.extendAll inputs candidates reduction ids = .ok q →
    p.StaysWithin inputs candidates reduction ids b.cost.total →
      b.cost.total ≤ q.cost.total ∧
        discovery inputs b.order ≤ discovery inputs (p.order ++ ids)

/-- What the best order wins against stays so when the search goes on. A cheaper one would leave no
order of its own cost that was there before. -/
theorem Wins.advance (h : s.Wins inputs candidates reduction p ids) (hne : ids ≠ [])
    (ht : t.Advances front s) : t.Wins inputs candidates reduction p ids := by
  obtain ⟨b, hb, h⟩ := h
  rcases ht with ht | ⟨c, hc, -, hcs⟩
  · exact ⟨b, ht ▸ hb, h⟩
  · refine ⟨c, hc, fun q hq hwithin => ?_⟩
    have hlt := hcs b hb
    have hle := (h q hq (hwithin.mono (Double.le_of_lt hlt))).1
    have hge := hwithin ids q (List.prefix_refl ids) hne hq
    exact absurd hlt (Double.not_lt_of_le (Double.le_trans hle hge))

/-- Joining one table first. -/
theorem Wins.cons (hchild : p.extend inputs candidates reduction id = .ok q)
    (h : s.Wins inputs candidates reduction q ids) :
    s.Wins inputs candidates reduction p (id :: ids) := by
  obtain ⟨b, hb, h⟩ := h
  refine ⟨b, hb, fun r hr hwithin => ?_⟩
  rw [JoinPrefix.extendAll_cons hchild] at hr
  have hwins := h r hr (hwithin.tail hchild)
  rwa [JoinPrefix.order_extend hchild, List.append_assoc] at hwins

/-- A prefix that costs more than the best order is the beginning of no order within its cost. -/
theorem wins_of_lt {b : JoinPrefix} (hb : b ∈ s.best)
    (hchild : p.extend inputs candidates reduction id = .ok q)
    (hlt : b.cost.total < q.cost.total) (ids : List ScanId) :
    s.Wins inputs candidates reduction p (id :: ids) := by
  exact ⟨b, hb, fun r _ hwithin => absurd hlt (Double.not_lt_of_le (hwithin.head hchild))⟩

/-- A complete order that is not cheaper than the best one, which was discovered before. -/
theorem wins_of_le {b : JoinPrefix} (hb : b ∈ s.best)
    (hchild : p.extend inputs candidates reduction id = .ok q)
    (hle : b.cost.total ≤ q.cost.total)
    (hbefore : discovery inputs b.order ≤ discovery inputs (p.order ++ [id])) :
    s.Wins inputs candidates reduction p [id] := by
  refine ⟨b, hb, fun r hr _ => ⟨?_, hbefore⟩⟩
  rw [JoinPrefix.extendAll_singleton hchild] at hr
  cases hr
  exact hle

/-- Going through the extensions of a prefix in the order of the input finds an order that wins
against all that continue the prefix, if the best order so far was discovered before them. -/
theorem explore_wins (hcount : JoinPrefix.Countable inputs reduction)
    (hdistinct : (inputs.map (·.scan.id)).Nodup) {n : Nat}
    (hp : p.Priced inputs candidates reduction) (hn : p.pending.length ≤ n)
    (hpending : p.pending.Sublist (inputs.map (·.scan.id)))
    (hs : s.Found inputs candidates reduction) (hbefore : s.Precedes inputs p.order) :
    ∃ t, explore inputs candidates reduction n p s = .ok t ∧
      t.Found inputs candidates reduction ∧ t.Advances p.order s ∧
      ∀ ids, ids.Perm p.pending → ids ≠ [] → t.Wins inputs candidates reduction p ids := by
  induction n generalizing p s with
  | zero =>
    have hnone := List.length_eq_zero_iff.mp (Nat.le_zero.mp hn)
    refine ⟨s, rfl, hs, .inl rfl, fun ids hids hne => absurd ?_ hne⟩
    rw [hnone] at hids
    exact hids.eq_nil
  | succ n ih =>
    rw [explore_succ]
    refine (Result.exists_foldlM_pairwise (P := Found inputs candidates reduction)
      (R := fun s t => t.Advances p.order s)
      (A := fun id s => s.Precedes inputs (p.order ++ [id]))
      (Q := fun id t => ∀ ids, ids.Perm (p.pending.erase id) →
        t.Wins inputs candidates reduction p (id :: ids))
      (fun _ _ => .inl rfl) (fun _ _ _ hst htu => htu.trans hst)
      (fun id s t hst h ids hids => (h ids hids).advance (List.cons_ne_nil _ _) hst)
      (fun id hid s hs hbefore => ?extend) (JoinPrefix.pairwise_idxOf hdistinct hpending) hs
      fun id _ => hbefore.append [id]).imp
      fun t ht => ⟨ht.1, ht.2.1, ht.2.2.1, fun ids hids hne => ?wins⟩
    case wins =>
      cases ids with
      | nil => exact absurd rfl hne
      | cons id ids =>
        obtain ⟨hid, hrest⟩ := List.cons_perm_iff_perm_erase.mp hids
        exact ht.2.2.2 id hid ids hrest
    case extend =>
      obtain ⟨child, hchild, hpriced, hrest⟩ := hp.exists_extend hcount hid
      have horder := JoinPrefix.order_extend hchild
      have hvisited := visited hchild n s
      generalize visit inputs candidates reduction n p s id = result at hvisited ⊢
      -- whatever the extension leads to comes before what begins with a later table
      suffices h : ∃ t, result = .ok t ∧ t.Found inputs candidates reduction ∧
          t.Advances (p.order ++ [id]) s ∧ ∀ ids, ids.Perm (p.pending.erase id) →
            t.Wins inputs candidates reduction p (id :: ids) by
        obtain ⟨t, ht, hfound, hadvances, hwins⟩ := h
        exact ⟨t, ht, hfound, hadvances.mono, hwins,
          fun next hlt hnext => hnext.advance hlt hadvances⟩
      rw [← hrest]
      cases hvisited with
      | pruned hb hlt => exact ⟨_, rfl, hs, .inl rfl, fun ids _ => wins_of_lt hb hchild hlt ids⟩
      | better hcomplete hlt =>
        refine ⟨_, rfl, ?_, .inr ⟨child, rfl, horder ▸ List.prefix_refl _, hlt⟩, fun ids hids => ?_⟩
        · rintro _ ⟨⟩
          exact ⟨hpriced, hcomplete⟩
        · rw [JoinPrefix.eq_nil_of_complete hcomplete hids]
          exact wins_of_le rfl hchild (Double.le_refl hpriced.cost.total) (horder ▸ le_refl _)
      | worse hcomplete hb hnlt =>
        refine ⟨_, rfl, hs, .inl rfl, fun ids hids => ?_⟩
        have hle := Double.le_of_not_lt hpriced.cost.total (hs _ hb).1.cost.total hnlt
        have hfirst := hbefore _ hb []
        rw [List.append_nil] at hfirst
        rw [JoinPrefix.eq_nil_of_complete hcomplete hids]
        exact wins_of_le hb hchild hle hfirst
      | further hne =>
        have hshorter : child.pending.length ≤ n := hrest ▸ JoinPrefix.length_erase_le hid hn
        have hsublist : child.pending.Sublist (inputs.map (·.scan.id)) :=
          hrest ▸ List.erase_sublist.trans hpending
        let stats := { s.stats with expanded := s.stats.expanded + 1 }
        obtain ⟨t, ht, hfound, hadvances, hwins⟩ :=
          ih (s := ⟨s.best, stats⟩) hpriced hshorter hsublist hs (horder ▸ hbefore)
        refine ⟨t, ht, hfound, horder ▸ hadvances, fun ids hids => .cons hchild (hwins ids hids ?_)⟩
        rintro rfl
        exact hne (List.nil_perm.mp hids)

end JoinSearch

namespace JoinPrefix

variable {inputs : List JoinInput} {reduction : Float}

/-- The first of the cheapest orders that pruning cannot discard is the result: an order of which no
beginning costs more than the result, nor the order itself, costs the same and was not discovered
before. -/
theorem search_first (candidates : List AccessPath) (hinputs : inputs ≠ [])
    (hdistinct : (inputs.map (·.scan.id)).Nodup)
    (hrows : ∀ input ∈ inputs, input.rowCount < 2 ^ 64) (hfinite : reduction.isFinite = true)
    (hreduction : 1 ≤ reduction) :
    ∃ best stats, search inputs candidates reduction = .ok (best, stats) ∧
      best.order.Perm (inputs.map (·.scan.id)) ∧
      (root inputs).extendAll inputs candidates reduction best.order = .ok best ∧
      ∀ ids : List ScanId, ids.Perm (inputs.map (·.scan.id)) →
        ∃ p, (root inputs).extendAll inputs candidates reduction ids = .ok p ∧
          ((root inputs).StaysWithin inputs candidates reduction ids best.cost.total →
            (p.cost.total == best.cost.total) = true ∧
              discovery inputs best.order ≤ discovery inputs ids) := by
  have hcount : Countable inputs reduction :=
    ⟨hrows, Double.finitePositive_of_not_lt_one hfinite (Double.not_lt_of_le hreduction)⟩
  have hroot := priced_root inputs candidates reduction
  have hpending : (root inputs).pending.length ≤ inputs.length :=
    Nat.le_of_eq (List.length_map _)
  obtain ⟨s, hs, hfound, -, hwins⟩ := JoinSearch.explore_wins hcount hdistinct hroot hpending
    (List.Sublist.refl _) (s := ⟨none, .zero⟩) (fun _ h => nomatch h) fun _ h => nomatch h
  obtain ⟨best, stats, hsearch, hsound, hcomplete⟩ := search_spec candidates reduction hinputs
  obtain ⟨t, ht, hbest, -⟩ := search_eq_ok hsearch
  cases hs.symm.trans ht
  refine ⟨best, stats, hsearch, hsound.order_perm hcomplete, (hfound best hbest).1.built,
    fun ids hids => ?_⟩
  have hne : ids ≠ [] := by
    rintro rfl
    exact hinputs (List.map_eq_nil_iff.mp (List.nil_perm.mp hids))
  obtain ⟨p, hp⟩ := hroot.exists_extendAll hcount hids
  refine ⟨p, hp, fun hwithin => ?_⟩
  obtain ⟨b, hb, hwins⟩ := hwins ids hids hne
  cases hbest.symm.trans hb
  obtain ⟨hle, hfirst⟩ := hwins p hp hwithin
  exact ⟨Double.beq_of_le_of_le (hwithin ids p (List.prefix_refl ids) hne hp) hle, hfirst⟩

/-- Without access paths all orders cost the same. -/
theorem search_first_without_paths :
    ∃ best stats, search sampleInputs [] 10 = .ok (best, stats) ∧
      ∃ p, (root sampleInputs).extendAll sampleInputs [] 10 [2, 0, 1] = .ok p ∧
        (p.cost.total == best.cost.total) = true ∧
        discovery sampleInputs best.order ≤ discovery sampleInputs [2, 0, 1] := by
  have hwithin : (match search sampleInputs [] 10 with
      | .ok (best, _) =>
        decide ((root sampleInputs).StaysWithin sampleInputs [] 10 [2, 0, 1] best.cost.total)
      | .error _ => false) = true := by
    decide +kernel
  have hne : sampleInputs ≠ [] := List.cons_ne_nil _ _
  have hfinite : (10 : Float).isFinite = true := by decide +kernel
  obtain ⟨best, stats, hsearch, -, -, h⟩ :=
    search_first [] hne (by decide) (by decide) hfinite (by decide +kernel)
  rw [hsearch] at hwithin
  obtain ⟨p, hp, hfirst⟩ := h [2, 0, 1] (by decide)
  exact ⟨best, stats, hsearch, p, hp, hfirst (decide_eq_true_iff.mp hwithin)⟩

end JoinPrefix

end SpatialStore
