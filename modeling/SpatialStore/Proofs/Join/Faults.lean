import SpatialStore.Join.Optimizer
import SpatialStore.Proofs.Join.Tree

/-!
# Planning without faults

A `PlanFault` says that a join order does not fit the tables or the predicates it is made for. The
optimizer never meets one, whatever the plan, the settings, the row counts and the indexes are
(`Plan.optimize_ne_fault`): once the scans have different ids, every name is resolved and every
table is counted, a selection over a product of scans is planned (`Optimizer.exists_joinScans`), and
whatever is refused before that is refused for what the plan refers to.

The order that the search yields is sound. So the only fault that is left to exclude is that a
predicate is taken over twice, once for each of its sides. The tables of a predicate that was taken
over are joined (`Confined`), while the next table is not.
-/

namespace SpatialStore

/-! ### Predicates of joined tables -/

/-- The predicates at some positions refer to some of the tables only. -/
def Confined (l : Layout) (ps : List Predicate) (taken : List Nat) (tables : List ScanId) : Prop :=
  ∀ k ∈ taken, ∀ e, ps[k]? = some e → ∀ f ∈ e.columns,
    ∃ c, l.columnOf f = .ok c ∧ c.scanId ∈ tables

section Confined

variable {l : Layout} {ps : List Predicate} {candidates : List AccessPath} {taken : List Nat}
  {tables : List ScanId} {step : JoinStep} {steps : List JoinStep} {path : AccessPath}
  {scans : List Scan} {plan : Plan}

/-- Joining a table takes over predicates of this table and of those joined before. -/
theorem Confined.concat (h : Confined l ps taken tables)
    (hoffered : ∀ path ∈ candidates, path.Offered l ps) (hstep : step.Sound candidates tables) :
    Confined l ps (taken ++ step.paths.map (·.predicateId)) (tables ++ [step.scanId]) := by
  intro k hk e he f hf
  rcases List.mem_append.mp hk with hk | hk
  · obtain ⟨c, hc, hmem⟩ := h k hk e he f hf
    exact ⟨c, hc, List.mem_append_left _ hmem⟩
  · obtain ⟨path, hpath, rfl⟩ := List.mem_map.mp hk
    have hof := hoffered path (hstep.candidate path hpath)
    obtain rfl := Option.some.inj (hof.predicate.symm.trans he)
    obtain ⟨target, c, hsides, hc, hid, -⟩ := hof.target
    rcases hsides.mem_columns.mp hf with rfl | hf
    · refine ⟨c, hc, List.mem_append_right _ (List.mem_singleton.mpr ?_)⟩
      rw [hid, hstep.table path hpath]
    · obtain ⟨d, hd, hmem⟩ := hof.lookup f hf
      exact ⟨d, hd, List.mem_append_left _ (hstep.lookup path hpath _ hmem)⟩

/-- An access path to a table that is not joined is for a predicate that was not taken over. -/
theorem Confined.not_taken (h : Confined l ps taken tables) (hof : path.Offered l ps)
    (hnew : path.scanId ∉ tables) : path.predicateId ∉ taken := by
  intro htaken
  obtain ⟨f, c, hsides, hc, hid, -⟩ := hof.target
  obtain ⟨d, hd, hmem⟩ :=
    h _ htaken _ hof.predicate f (hsides.mem_columns.mpr (.inl rfl))
  obtain rfl := Except.ok.inj (hc.symm.trans hd)
  exact hnew (hid ▸ hmem)

/-- A table that is not joined yet can be joined by a sound step. -/
theorem Confined.exists_joinStep (h : Confined l ps taken tables)
    (hoffered : ∀ path ∈ candidates, path.Offered l ps) (hstep : step.Sound candidates tables)
    (hnew : step.scanId ∉ tables) (hscan : ∃ s, JoinPrefix.scanOf scans step.scanId = .ok s)
    (plan : Plan) :
    ∃ next, JoinPrefix.joinStep scans (plan, JoinPrefix.remaining ps taken) step =
      .ok (next, JoinPrefix.remaining ps (taken ++ step.paths.map (·.predicateId))) := by
  obtain ⟨right, hright⟩ := hscan
  rw [JoinPrefix.joinStep, Result.bind_of_eq_ok hright]
  cases hpaths : step.paths with
  | nil =>
    rw [List.map_nil, List.append_nil]
    exact ⟨_, rfl⟩
  | cons first paths =>
    have hembed : step.paths.foldlM (JoinPrefix.embed step.scanId)
        (JoinPrefix.remaining ps taken) =
        .ok (JoinPrefix.remaining ps (taken ++ step.paths.map (·.predicateId))) := by
      refine JoinPrefix.foldlM_embed hstep.table (fun path hpath => ?_) hstep.distinct
        fun path hpath => ?_
      · exact (hoffered path (hstep.candidate path hpath)).predicate
      · refine h.not_taken (hoffered path (hstep.candidate path hpath)) ?_
        rwa [hstep.table path hpath]
    rw [hpaths] at hembed
    exact ⟨_, Result.bind_of_eq_ok hembed⟩

/-- Different tables can be joined one after the other by sound steps. -/
theorem Confined.exists_foldlM (h : Confined l ps taken tables)
    (hoffered : ∀ path ∈ candidates, path.Offered l ps)
    (hsteps : JoinStep.SoundAll candidates tables steps)
    (hdistinct : (tables ++ steps.map (·.scanId)).Nodup)
    (hscans : ∀ step ∈ steps, ∃ s, JoinPrefix.scanOf scans step.scanId = .ok s) (plan : Plan) :
    ∃ state, steps.foldlM (JoinPrefix.joinStep scans) (plan, JoinPrefix.remaining ps taken) =
      .ok state := by
  induction steps generalizing taken tables plan with
  | nil => exact ⟨_, rfl⟩
  | cons step steps ih =>
    obtain ⟨hstep, hsteps⟩ := hsteps
    obtain ⟨hscan, hscans⟩ := List.forall_mem_cons.mp hscans
    rw [List.map_cons] at hdistinct
    have hnew : step.scanId ∉ tables := fun hmem =>
      (List.nodup_append.mp hdistinct).2.2 _ hmem _ List.mem_cons_self rfl
    obtain ⟨next, hnext⟩ := h.exists_joinStep hoffered hstep hnew hscan plan
    rw [List.foldlM_cons, Result.bind_of_eq_ok hnext]
    rw [List.append_cons] at hdistinct
    exact ih (h.concat hoffered hstep) hsteps hdistinct hscans next

end Confined

/-! ### Orders that the search yields -/

/-- A sound and complete order of some scans has a plan. -/
theorem JoinPrefix.exists_toPlan {l : Layout} {ps : List Predicate} {candidates : List AccessPath}
    {scans : List Scan} {p : JoinPrefix} (hoffered : ∀ path ∈ candidates, path.Offered l ps)
    (hne : scans ≠ []) (hdistinct : (scans.map (·.id)).Nodup)
    (hsteps : JoinStep.SoundAll candidates [] p.steps)
    (horder : p.order.Perm (scans.map (·.id))) (hcomplete : p.complete = true) :
    ∃ plan, p.toPlan scans ps = .ok plan := by
  have hlength : p.steps.length = scans.length := by
    rw [← List.length_map (f := fun s : Scan => s.id), ← horder.length_eq, order, List.length_map]
  have hscans : ∀ step ∈ p.steps, ∃ s, scanOf scans step.scanId = .ok s := by
    intro step hstep
    obtain ⟨s, hs, hid⟩ := List.mem_map.mp (horder.mem_iff.mp (List.mem_map_of_mem hstep))
    exact ⟨s, hid ▸ scanOf_of_mem hdistinct hs⟩
  have horder' : (p.steps.map (·.scanId)).Nodup := horder.nodup_iff.mpr hdistinct
  rw [toPlan, hcomplete, if_neg (by simp), if_neg (not_not.mpr hlength)]
  cases hp : p.steps with
  | nil =>
    rw [hp, List.length_nil] at hlength
    exact absurd (List.length_eq_zero_iff.mp hlength.symm) hne
  | cons first steps =>
    rw [hp] at hsteps hscans horder'
    obtain ⟨hfirst, hrest⟩ := hsteps
    obtain ⟨⟨leading, hleading⟩, hscans⟩ := List.forall_mem_cons.mp hscans
    -- no lookup can refer to a table before the first one
    have hpaths : first.paths = [] := by
      refine List.eq_nil_iff_forall_not_mem.mpr fun path hpath => ?_
      have hof := hoffered path (hfirst.candidate path hpath)
      obtain ⟨id, hid⟩ := List.exists_mem_of_ne_nil _ hof.nonempty
      exact absurd (hfirst.lookup path hpath id hid) List.not_mem_nil
    have hstart : Confined l ps [] ([] ++ [first.scanId]) := fun _ h => absurd h List.not_mem_nil
    obtain ⟨state, hstate⟩ := hstart.exists_foldlM hoffered hrest horder' hscans (.scan leading)
    rw [remaining_nil] at hstate
    dsimp only
    rw [hpaths, if_neg (by simp), Result.bind_of_eq_ok hleading, Result.bind_of_eq_ok hstate]
    exact ⟨_, rfl⟩

/-! ### Results without faults -/

/-- A result that is not a fault. -/
def Faultless {α : Type} (x : Except PlanError α) : Prop := ∀ f, x ≠ .error (.fault f)

section Faultless

variable {α β : Type} {x : Except PlanError α}

theorem faultless_ok (a : α) : Faultless (.ok a) := fun _ h => nomatch h

theorem Faultless.bind {g : α → Except PlanError β} (hx : Faultless x)
    (hg : ∀ a, x = .ok a → Faultless (g a)) : Faultless (x >>= g) := by
  cases x with
  | error e =>
    intro f h
    exact hx f (congrArg Except.error (Except.error.inj h))
  | ok a => exact hg a rfl

theorem faultless_mapM {g : α → Except PlanError β} {xs : List α}
    (hg : ∀ a ∈ xs, Faultless (g a)) : Faultless (xs.mapM g) := by
  induction xs with
  | nil => exact faultless_ok []
  | cons a xs ih =>
    obtain ⟨ha, hxs⟩ := List.forall_mem_cons.mp hg
    rw [List.mapM_cons]
    exact ha.bind fun _ _ => (ih hxs).bind fun _ _ => faultless_ok _

theorem Layout.faultless_resolve (l : Layout) (f : FieldName) : Faultless (l.resolve f) := by
  rw [resolve]
  split <;> rintro _ ⟨⟩

end Faultless

namespace Optimizer

open Layout (ofScans)

variable {o : Optimizer} {ps : List Predicate} {scans : List Scan}

theorem faultless_inputOf (o : Optimizer) (s : Scan) : Faultless (o.inputOf s) := by
  rw [inputOf]
  split <;> rintro _ ⟨⟩

/-- No two scans have an id in common. -/
theorem nodup_of_duplicateId? {seen : List ScanId} (h : duplicateId? seen scans = none) :
    (scans.map (·.id)).Nodup ∧ ∀ s ∈ scans, s.id ∉ seen := by
  induction scans generalizing seen with
  | nil => exact ⟨List.nodup_nil, fun _ hs => absurd hs List.not_mem_nil⟩
  | cons s scans ih =>
    rw [duplicateId?] at h
    split_ifs at h with hs
    obtain ⟨hdistinct, hseen⟩ := ih h
    refine ⟨List.nodup_cons.mpr ⟨fun hmem => ?_, hdistinct⟩, List.forall_mem_cons.mpr ⟨hs, ?_⟩⟩
    · obtain ⟨t, ht, hid⟩ := List.mem_map.mp hmem
      exact hseen t ht (hid ▸ List.mem_cons_self)
    · exact fun t ht hmem => hseen t ht (List.mem_cons_of_mem _ hmem)

/-- The inputs of a search are the scans. -/
theorem ids_of_inputs {inputs : List JoinInput} (h : scans.mapM o.inputOf = .ok inputs) :
    inputs.map (·.scan.id) = scans.map (·.id) := by
  rw [Result.mapM_eq_ok] at h
  induction h with
  | nil => rfl
  | @cons s input _ _ hs _ ih =>
    have hscan : input.scan = s := by
      rw [inputOf] at hs
      split at hs
      · cases hs
      · cases hs
      · cases hs
        rfl
    rw [List.map_cons, List.map_cons, ih, hscan]

/-- A selection over a product of scans with different ids is planned, if its names are resolved
and the rows of the tables are counted. -/
theorem exists_joinScans {positions : List Nat} {inputs : List JoinInput} (hne : scans ≠ [])
    (hids : duplicateId? [] scans = none)
    (hpositions : (ofScans scans).resolveAll (Expr.columnsOfAll (Expr.conjunctsOfAll ps)) =
      .ok positions)
    (hinputs : scans.mapM o.inputOf = .ok inputs) : ∃ out, o.joinScans ps scans = .ok out := by
  obtain ⟨candidates, hcandidates, hoffered⟩ : ∃ candidates,
      AccessPath.candidates o.indexes o.settings (ofScans scans) (Expr.conjunctsOfAll ps) =
        .ok candidates ∧
      ∀ path ∈ candidates, path.Offered (ofScans scans) (Expr.conjunctsOfAll ps) := by
    cases o.indexes with
    | none => exact ⟨[], rfl, fun _ h => absurd h List.not_mem_nil⟩
    | some indexes =>
      exact AccessPath.candidates_spec indexes o.settings
        (Result.exists_mapM_iff.mp ⟨positions, hpositions⟩)
  have hsome : inputs ≠ [] := by
    rintro rfl
    exact hne (List.map_eq_nil_iff.mp (ids_of_inputs hinputs).symm)
  obtain ⟨best, stats, hsearch, hsound, hcomplete⟩ :=
    JoinPrefix.search_spec candidates o.settings.reduction hsome
  have horder := hsound.order_perm hcomplete
  rw [ids_of_inputs hinputs] at horder
  obtain ⟨plan, hplan⟩ := JoinPrefix.exists_toPlan hoffered hne (nodup_of_duplicateId? hids).1
    hsound.steps horder hcomplete
  refine ⟨⟨plan, [best.cost], stats⟩, ?_⟩
  rw [joinScans, hids]
  exact (Result.bind_of_eq_ok hpositions).trans ((Result.bind_of_eq_ok hinputs).trans
    ((Result.bind_of_eq_ok hcandidates).trans ((Result.bind_of_eq_ok hsearch).trans
      (Result.bind_of_eq_ok hplan))))

/-- A selection that is refused is refused before the search begins. -/
theorem faultless_joinScans (o : Optimizer) (ps : List Predicate) (hne : scans ≠ []) :
    Faultless (o.joinScans ps scans) := by
  cases hids : duplicateId? [] scans with
  | some id =>
    rw [joinScans, hids]
    exact fun _ h => nomatch h
  | none =>
    have hresolve : Faultless
        ((ofScans scans).resolveAll (Expr.columnsOfAll (Expr.conjunctsOfAll ps))) :=
      faultless_mapM fun f _ => Layout.faultless_resolve _ f
    rw [joinScans, hids]
    refine hresolve.bind fun positions hpositions => ?_
    refine (faultless_mapM fun s _ => o.faultless_inputOf s).bind fun inputs hinputs => ?_
    -- now nothing is left that could be refused
    obtain ⟨out, hout⟩ := exists_joinScans hne hids hpositions hinputs
    rw [joinScans, hids] at hout
    have hrest := (Result.bind_of_eq_ok hpositions).symm.trans hout
    exact (Result.bind_of_eq_ok hinputs).symm.trans hrest ▸ faultless_ok out

end Optimizer

namespace Plan

theorem ne_nil_of_joinable? {p : Plan} {scans : List Scan} (h : p.joinable? = some scans) :
    scans ≠ [] := by
  rintro rfl
  exact absurd (Option.filter_eq_some_iff.mp h).2 (by decide)

/-- The optimizer never meets a fault. -/
theorem optimize_ne_fault (o : Optimizer) (p : Plan) (f : PlanFault) :
    p.optimize o ≠ .error (.fault f) := by
  suffices h : Faultless (p.optimize o) from h f
  induction p with
  | scan s => exact faultless_ok _
  | select ps p ih =>
    refine ih.bind fun input _ => ?_
    cases hscans : input.plan.joinable? with
    | none => exact faultless_ok _
    | some scans =>
      have hjoined := o.faultless_joinScans ps (ne_nil_of_joinable? hscans)
      exact hjoined.bind fun joined _ => faultless_ok _
  | project fields p ih => exact ih.bind fun _ _ => faultless_ok _
  | product p q ihp ihq => exact ihp.bind fun _ _ => ihq.bind fun _ _ => faultless_ok _
  | lookup p s paths ih => exact ih.bind fun _ _ => faultless_ok _

end Plan

end SpatialStore
