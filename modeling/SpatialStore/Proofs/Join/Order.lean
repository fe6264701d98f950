import Mathlib.Data.List.Nodup
import Mathlib.Data.List.Perm.Basic
import SpatialStore.Join.Order
import SpatialStore.Proofs.Result

/-!
# Join orders

A join prefix is *sound* when every table is joined through access paths from tables joined before
it, one for each predicate, and the joined and the pending tables together are the input
(`JoinPrefix.Sound`). The search extends sound prefixes to sound prefixes and succeeds with a
complete one (`JoinPrefix.search_spec`). What orders cost plays no part in this: as long as no
complete order is known, none is given up.

What becomes of an extension is one of four things (`JoinSearch.Visited`). Whatever is said of a
search follows from these by induction on the number of pending tables.
-/

namespace SpatialStore

/-- The access paths of a step are candidates for its table, their lookups refer to tables joined
before, and no two of them are for the same predicate. -/
structure JoinStep.Sound (candidates : List AccessPath) (before : List ScanId) (step : JoinStep) :
    Prop where
  candidate : ∀ path ∈ step.paths, path ∈ candidates
  table : ∀ path ∈ step.paths, path.scanId = step.scanId
  lookup : ∀ path ∈ step.paths, ∀ id ∈ path.lookupScans, id ∈ before
  distinct : (step.paths.map (·.predicateId)).Nodup

/-- Every step is sound after those before it. -/
def JoinStep.SoundAll (candidates : List AccessPath) : List ScanId → List JoinStep → Prop
  | _, [] => True
  | before, step :: steps =>
    step.Sound candidates before ∧ SoundAll candidates (before ++ [step.scanId]) steps

theorem JoinStep.Sound.mono {candidates more : List AccessPath} {before : List ScanId}
    {step : JoinStep} (h : step.Sound candidates before) (hmore : candidates ⊆ more) :
    step.Sound more before :=
  { h with candidate := fun path hpath => hmore (h.candidate path hpath) }

theorem JoinStep.SoundAll.mono {candidates more : List AccessPath} {before : List ScanId}
    {steps : List JoinStep} (h : SoundAll candidates before steps) (hmore : candidates ⊆ more) :
    SoundAll more before steps := by
  induction steps generalizing before with
  | nil => trivial
  | cons step steps ih => exact ⟨h.1.mono hmore, ih h.2⟩

theorem JoinStep.soundAll_concat {candidates : List AccessPath} {before : List ScanId}
    {steps : List JoinStep} {step : JoinStep} (hsteps : SoundAll candidates before steps)
    (hstep : step.Sound candidates (before ++ steps.map (·.scanId))) :
    SoundAll candidates before (steps ++ [step]) := by
  induction steps generalizing before with
  | nil =>
    rw [List.map_nil, List.append_nil] at hstep
    exact ⟨hstep, trivial⟩
  | cons first steps ih =>
    refine ⟨hsteps.1, ih hsteps.2 ?_⟩
    rwa [List.append_assoc]

/-- Tables are found by their ids. -/
theorem JoinInput.find?_of_mem {inputs : List JoinInput} {input : JoinInput}
    (hdistinct : (inputs.map (·.scan.id)).Nodup) (hinput : input ∈ inputs) :
    (inputs.find? fun i => i.scan.id == input.scan.id) = some input := by
  cases hfound : inputs.find? fun i => i.scan.id == input.scan.id with
  | none => exact absurd (beq_self_eq_true _) (List.find?_eq_none.mp hfound input hinput)
  | some found =>
    have hmem := List.mem_of_find?_eq_some hfound
    have hsame := beq_iff_eq.mp (List.find?_some (p := fun i : JoinInput =>
      i.scan.id == input.scan.id) hfound)
    rw [List.inj_on_of_nodup_map hdistinct hmem hinput hsame]

namespace JoinPrefix

variable {inputs : List JoinInput} {candidates : List AccessPath} {reduction : Float}
  {p q : JoinPrefix} {id : ScanId}

/-- The steps are sound one after the other, and no table is lost or joined twice. -/
structure Sound (inputs : List JoinInput) (candidates : List AccessPath) (p : JoinPrefix) :
    Prop where
  steps : JoinStep.SoundAll candidates [] p.steps
  perm : (p.order ++ p.pending).Perm (inputs.map (·.scan.id))

theorem sound_root (inputs : List JoinInput) (candidates : List AccessPath) :
    (root inputs).Sound inputs candidates :=
  ⟨trivial, .refl _⟩

theorem length_pending_root (inputs : List JoinInput) :
    (root inputs).pending.length = inputs.length :=
  List.length_map _

theorem pending_root_ne_nil (h : inputs ≠ []) : (root inputs).pending ≠ [] :=
  mt List.map_eq_nil_iff.mp h

/-- A complete order is one of all tables. -/
theorem Sound.order_perm (hp : p.Sound inputs candidates) (hcomplete : p.complete = true) :
    p.order.Perm (inputs.map (·.scan.id)) := by
  have hperm := hp.perm
  rwa [List.isEmpty_iff.mp hcomplete, List.append_nil] at hperm

/-! ### Extending -/

/-- Adding access paths to a sound step keeps it sound. -/
theorem sound_addPaths {chosen offered : List AccessPath} {rowCount : Nat}
    (hchosen : JoinStep.Sound candidates p.order ⟨id, rowCount, chosen⟩)
    (hcandidate : ∀ path ∈ offered, path ∈ candidates)
    (htable : ∀ path ∈ offered, path.scanId = id) :
    JoinStep.Sound candidates p.order ⟨id, rowCount, p.addPaths chosen offered⟩ := by
  induction offered generalizing chosen with
  | nil => exact hchosen
  | cons path offered ih =>
    obtain ⟨hpath, hcandidate⟩ := List.forall_mem_cons.mp hcandidate
    obtain ⟨hid, htable⟩ := List.forall_mem_cons.mp htable
    rw [addPaths, List.foldl_cons]
    refine ih ?_ hcandidate htable
    -- a path is left out if its predicate is taken or its lookup needs a table not joined yet
    split_ifs with hskip
    · exact hchosen
    rw [Bool.or_eq_true, not_or, Bool.not_eq_true', Bool.not_eq_false, List.all_eq_true] at hskip
    obtain ⟨hnew, hjoined⟩ := hskip
    constructor
    · exact List.forall_mem_append.mpr ⟨hchosen.candidate, List.forall_mem_singleton.mpr hpath⟩
    · exact List.forall_mem_append.mpr ⟨hchosen.table, List.forall_mem_singleton.mpr hid⟩
    · refine List.forall_mem_append.mpr ⟨hchosen.lookup, ?_⟩
      refine List.forall_mem_singleton.mpr fun k hk => ?_
      obtain ⟨step, hstep, hk⟩ := List.any_eq_true.mp (hjoined k hk)
      exact List.mem_map.mpr ⟨step, hstep, beq_iff_eq.mp hk⟩
    · rw [List.map_append, List.map_singleton]
      refine List.nodup_append.mpr ⟨hchosen.distinct, List.nodup_singleton _, ?_⟩
      intro k hk j hj heq
      obtain ⟨other, hother, rfl⟩ := List.mem_map.mp hk
      rw [List.mem_singleton.mp hj] at heq
      exact hnew (List.any_eq_true.mpr ⟨other, hother, beq_iff_eq.mpr heq⟩)

theorem sound_pathsTo (p : JoinPrefix) (candidates : List AccessPath) (id : ScanId)
    (rowCount : Nat) :
    JoinStep.Sound candidates p.order ⟨id, rowCount, p.pathsTo candidates id⟩ := by
  have hof {test : AccessPath → Bool} :
      (∀ path ∈ (candidates.filter (·.scanId == id)).filter test, path ∈ candidates) ∧
        ∀ path ∈ (candidates.filter (·.scanId == id)).filter test, path.scanId = id := by
    simp +contextual [List.mem_filter]
  refine sound_addPaths (sound_addPaths ⟨?_, ?_, ?_, ?_⟩ hof.1 hof.2) hof.1 hof.2
  · exact fun _ h => nomatch h
  · exact fun _ h => nomatch h
  · exact fun _ h => nomatch h
  · exact List.nodup_nil

/-- The table that is joined was pending and is one of the input. -/
theorem extend_eq_ok (h : p.extend inputs candidates reduction id = .ok q) :
    id ∈ p.pending ∧ ∃ input ∈ inputs, input.scan.id = id ∧ q =
      ⟨p.steps ++ [⟨id, input.rowCount, p.pathsTo candidates id⟩], p.pending.erase id,
        p.cost.join reduction input.rowCount (p.pathsTo candidates id)⟩ := by
  rw [extend] at h
  split_ifs at h with hid
  split at h
  · cases h
  · rename_i input hinput
    have hsame := List.find?_some hinput
    exact ⟨hid, input, List.mem_of_find?_eq_some hinput, beq_iff_eq.mp hsame,
      (Except.ok.inj h).symm⟩

theorem order_extend (h : p.extend inputs candidates reduction id = .ok q) :
    q.order = p.order ++ [id] := by
  obtain ⟨-, input, -, -, rfl⟩ := extend_eq_ok h
  rw [order, List.map_append]
  rfl

/-- Extending a sound prefix by any of the candidates keeps it sound. -/
theorem Sound.extend {offered : List AccessPath} (hp : p.Sound inputs candidates)
    (hoffered : offered ⊆ candidates) (h : p.extend inputs offered reduction id = .ok q) :
    q.Sound inputs candidates := by
  obtain ⟨hid, input, -, -, rfl⟩ := extend_eq_ok h
  constructor
  · exact JoinStep.soundAll_concat hp.steps ((sound_pathsTo p offered id _).mono hoffered)
  · refine List.Perm.trans ?_ hp.perm
    rw [order, List.map_append, List.append_assoc]
    exact (List.perm_cons_erase hid).symm.append_left _

/-- A pending table can be joined next. -/
theorem Sound.exists_extend (hp : p.Sound inputs candidates) (reduction : Float)
    (hid : id ∈ p.pending) :
    ∃ child, p.extend inputs candidates reduction id = .ok child ∧
      child.Sound inputs candidates ∧ child.pending = p.pending.erase id := by
  have hmem : id ∈ inputs.map (·.scan.id) :=
    hp.perm.mem_iff.mp (List.mem_append_right _ hid)
  obtain ⟨input, hinput, rfl⟩ := List.mem_map.mp hmem
  obtain ⟨child, hchild, hpending⟩ : ∃ child,
      p.extend inputs candidates reduction input.scan.id = .ok child ∧
        child.pending = p.pending.erase input.scan.id := by
    rw [JoinPrefix.extend, if_neg (not_not.mpr hid)]
    cases hfound : inputs.find? fun i => i.scan.id == input.scan.id with
    | none => exact absurd (beq_self_eq_true _) (List.find?_eq_none.mp hfound input hinput)
    | some found => exact ⟨_, rfl, rfl⟩
  exact ⟨child, hchild, hp.extend (List.Subset.refl _) hchild, hpending⟩

/-- There is one table less to join. -/
theorem length_erase_le {n : Nat} (hid : id ∈ p.pending) (hn : p.pending.length ≤ n + 1) :
    (p.pending.erase id).length ≤ n := by
  rw [List.length_erase_of_mem hid]
  omega

end JoinPrefix

/-! ### Searching -/

namespace JoinSearch

open JoinPrefix (Sound)

variable {inputs : List JoinInput} {candidates : List AccessPath} {reduction : Float} {n : Nat}
  {p child : JoinPrefix} {s t : JoinSearch} {id : ScanId}

/-- What a search does when it comes to an extension of a prefix. -/
def visit (inputs : List JoinInput) (candidates : List AccessPath) (reduction : Float) (n : Nat)
    (p : JoinPrefix) (s : JoinSearch) (id : ScanId) : Except PlanError JoinSearch := do
  let child ← p.extend inputs candidates reduction id
  let stats := { s.stats with expanded := s.stats.expanded + 1 }
  if s.prunes child then
    return ⟨s.best, { stats with pruned := stats.pruned + 1 }⟩
  else if child.complete then
    let stats := { stats with complete := stats.complete + 1 }
    return ⟨if s.improvedBy child then some child else s.best, stats⟩
  else explore inputs candidates reduction n child ⟨s.best, stats⟩

theorem explore_succ : explore inputs candidates reduction (n + 1) p s =
    p.pending.foldlM (visit inputs candidates reduction n p) s :=
  rfl

theorem prunes_iff : s.prunes p = true ↔ ∃ b ∈ s.best, b.cost.total < p.cost.total := by
  cases h : s.best <;> simp [prunes, h]

theorem improvedBy_iff : s.improvedBy p = true ↔ ∀ b ∈ s.best, p.cost.total < b.cost.total := by
  cases h : s.best <;> simp [improvedBy, h]

/-- An extension is given up, or it is an order of all tables, which is better than the best one so
far or is not, or it is extended further. -/
inductive Visited (inputs : List JoinInput) (candidates : List AccessPath) (reduction : Float)
    (n : Nat) (child : JoinPrefix) (s : JoinSearch) : Except PlanError JoinSearch → Prop
  | pruned {b : JoinPrefix} : b ∈ s.best → b.cost.total < child.cost.total →
      Visited inputs candidates reduction n child s
        (.ok ⟨s.best, s.stats.expanded + 1, s.stats.pruned + 1, s.stats.complete⟩)
  | better : child.complete = true → (∀ b ∈ s.best, child.cost.total < b.cost.total) →
      Visited inputs candidates reduction n child s
        (.ok ⟨some child, s.stats.expanded + 1, s.stats.pruned, s.stats.complete + 1⟩)
  | worse {b : JoinPrefix} : child.complete = true → b ∈ s.best →
      ¬child.cost.total < b.cost.total →
      Visited inputs candidates reduction n child s
        (.ok ⟨s.best, s.stats.expanded + 1, s.stats.pruned, s.stats.complete + 1⟩)
  | further : child.pending ≠ [] →
      Visited inputs candidates reduction n child s
        (explore inputs candidates reduction n child
          ⟨s.best, s.stats.expanded + 1, s.stats.pruned, s.stats.complete⟩)

theorem visited (hchild : p.extend inputs candidates reduction id = .ok child) (n : Nat)
    (s : JoinSearch) :
    Visited inputs candidates reduction n child s
      (visit inputs candidates reduction n p s id) := by
  rw [visit, Result.bind_of_eq_ok hchild]
  dsimp only
  split_ifs with hprunes hcomplete himproved
  · obtain ⟨b, hb, hlt⟩ := prunes_iff.mp hprunes
    exact .pruned hb hlt
  · exact .better hcomplete (improvedBy_iff.mp himproved)
  · obtain ⟨b, hb, hnlt⟩ : ∃ b ∈ s.best, ¬child.cost.total < b.cost.total := by
      simpa only [not_forall, exists_prop] using mt improvedBy_iff.mpr himproved
    exact .worse hcomplete hb hnlt
  · exact .further fun h => hcomplete (List.isEmpty_iff.mpr h)

/-- The best order so far is sound and complete. -/
def Reached (inputs : List JoinInput) (candidates : List AccessPath) (s : JoinSearch) : Prop :=
  ∀ b ∈ s.best, b.Sound inputs candidates ∧ b.complete = true

/-- Going through the extensions of a sound prefix succeeds, and with a complete order if there are
extensions. -/
theorem explore_spec (reduction : Float) {n : Nat} {p : JoinPrefix} {s : JoinSearch}
    (hp : p.Sound inputs candidates) (hn : p.pending.length ≤ n)
    (hs : s.Reached inputs candidates) :
    ∃ t, explore inputs candidates reduction n p s = .ok t ∧ t.Reached inputs candidates ∧
      (p.pending ≠ [] → t.best.isSome = true) := by
  induction n generalizing p s with
  | zero =>
    have hnone := List.length_eq_zero_iff.mp (Nat.le_zero.mp hn)
    exact ⟨s, rfl, hs, fun h => absurd hnone h⟩
  | succ n ih =>
    rw [explore_succ]
    refine Result.exists_foldlM (P := Reached inputs candidates) (fun id hid s hs => ?_) hs
    obtain ⟨child, hchild, hsound, hpending⟩ := hp.exists_extend reduction hid
    have hvisited := visited hchild n s
    generalize visit inputs candidates reduction n p s id = result at hvisited ⊢
    cases hvisited with
    | pruned hb => exact ⟨_, rfl, hs, Option.isSome_of_mem hb⟩
    | better hcomplete =>
      refine ⟨_, rfl, ?_, rfl⟩
      rintro _ ⟨⟩
      exact ⟨hsound, hcomplete⟩
    | worse _ hb => exact ⟨_, rfl, hs, Option.isSome_of_mem hb⟩
    | further hne =>
      have hshorter : child.pending.length ≤ n := hpending ▸ JoinPrefix.length_erase_le hid hn
      let stats := { s.stats with expanded := s.stats.expanded + 1 }
      obtain ⟨t, ht, hreached, hsome⟩ := ih (s := ⟨s.best, stats⟩) hsound hshorter hs
      exact ⟨t, ht, hreached, hsome hne⟩

/-- What every extension of a prefix keeps holds of the best order. -/
theorem explore_keeps {P : JoinPrefix → Prop}
    (hextend : ∀ {p q id}, P p → p.extend inputs candidates reduction id = .ok q → P q)
    (hp : P p) (hs : ∀ b ∈ s.best, P b)
    (h : explore inputs candidates reduction n p s = .ok t) : ∀ b ∈ t.best, P b := by
  induction n generalizing p s t with
  | zero =>
    cases h
    exact hs
  | succ n ih =>
    refine Result.foldlM_keeps (P := fun s => ∀ b ∈ s.best, P b) (fun id _ s t hs h => ?_) hs h
    obtain ⟨child, hchild, -⟩ := Result.bind_eq_ok.mp h
    have hvisited := visited hchild n s
    change visit inputs candidates reduction n p s id = .ok t at h
    rw [h] at hvisited
    generalize hresult : Except.ok t = result at hvisited
    cases hvisited with
    | pruned | worse =>
      cases hresult
      exact hs
    | better =>
      cases hresult
      rintro _ ⟨⟩
      exact hextend hp hchild
    | further =>
      let stats := { s.stats with expanded := s.stats.expanded + 1 }
      exact ih (s := ⟨s.best, stats⟩) (hextend hp hchild) hs hresult.symm

end JoinSearch

namespace JoinPrefix

variable {inputs : List JoinInput} {candidates : List AccessPath} {reduction : Float}
  {best : JoinPrefix} {stats : SearchCounts}

/-- A result is the best order of a search that starts with nothing. -/
theorem search_eq_ok (h : search inputs candidates reduction = .ok (best, stats)) :
    ∃ s, JoinSearch.explore inputs candidates reduction inputs.length (root inputs)
      ⟨none, .zero⟩ = .ok s ∧ s.best = some best ∧ s.stats = stats := by
  rw [search] at h
  split_ifs at h
  obtain ⟨s, hs, h⟩ := Result.bind_eq_ok.mp h
  cases hbest : s.best with
  | none =>
    rw [hbest] at h
    cases h
  | some b =>
    rw [hbest] at h
    cases h
    exact ⟨s, hs, hbest, rfl⟩

theorem search_of_explore {s : JoinSearch} (hinputs : inputs ≠ [])
    (h : JoinSearch.explore inputs candidates reduction inputs.length (root inputs)
      ⟨none, .zero⟩ = .ok s) (hbest : s.best = some best) :
    search inputs candidates reduction = .ok (best, s.stats) := by
  rw [search, if_neg (by rwa [List.isEmpty_iff]), Result.bind_of_eq_ok h, hbest]
  rfl

/-- What holds as long as nothing is joined, and is kept when a table is joined, holds of the
result. -/
theorem search_keeps {P : JoinPrefix → Prop}
    (hextend : ∀ {p q id}, P p → p.extend inputs candidates reduction id = .ok q → P q)
    (hroot : P (root inputs)) (h : search inputs candidates reduction = .ok (best, stats)) :
    P best := by
  obtain ⟨s, hs, hbest, -⟩ := search_eq_ok h
  have hstart : ∀ b ∈ (none : Option JoinPrefix), P b := fun _ h => nomatch h
  exact JoinSearch.explore_keeps hextend hroot hstart hs best hbest

/-- The search yields a sound and complete order. -/
theorem search_spec {inputs : List JoinInput} (candidates : List AccessPath) (reduction : Float)
    (hinputs : inputs ≠ []) :
    ∃ best stats, search inputs candidates reduction = .ok (best, stats) ∧
      best.Sound inputs candidates ∧ best.complete = true := by
  have hpending := Nat.le_of_eq (length_pending_root inputs)
  have hstart : JoinSearch.Reached inputs candidates ⟨none, .zero⟩ := fun _ h => nomatch h
  obtain ⟨s, hs, hreached, hsome⟩ :=
    JoinSearch.explore_spec reduction (sound_root inputs candidates) hpending hstart
  obtain ⟨best, hbest⟩ := Option.isSome_iff_exists.mp (hsome (pending_root_ne_nil hinputs))
  exact ⟨best, s.stats, search_of_explore hinputs hs hbest, hreached best hbest⟩

end JoinPrefix

end SpatialStore
