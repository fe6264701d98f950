import SpatialStore.Join.Tree
import SpatialStore.Proofs.Join.Candidates
import SpatialStore.Proofs.Join.Order
import SpatialStore.Proofs.Query.Scans
import SpatialStore.Proofs.Query.Standing

/-!
# The plan of a join order

The tables of a join order are joined one after the other, and each of them may take over some
predicates. `Joined` is the invariant of this: the plan so far yields the rows of the product of the
joined tables on which the predicates taken over are true. A table joined through an index
preserves it, because every row on which the predicates are true is among those that the index finds
(`Joined.step`).

The invariant is claimed only as long as the product of the pending tables has rows. If it has none
then neither has the result, whatever was found before.
-/

namespace SpatialStore

open SpatialStore.Expr (HoldsAll)
open Layout (ofScan ofScans Within)

/-! ### Predicates taken over -/

namespace JoinPrefix

variable {ps : List Predicate} {taken : List Nat} {k : Nat}

/-- The predicates that are left when those at some positions were taken over. -/
def remaining (ps : List Predicate) (taken : List Nat) : List (Option Predicate) :=
  ps.zipIdx.map fun p => if p.2 ∈ taken then none else some p.1

theorem getElem?_remaining :
    (remaining ps taken)[k]? = ps[k]?.map fun e => if k ∈ taken then none else some e := by
  rw [remaining, List.getElem?_map, List.getElem?_zipIdx, Option.map_map, Nat.zero_add]
  rfl

theorem remaining_nil : remaining ps [] = ps.map some := by
  refine List.ext_getElem? fun k => ?_
  rw [getElem?_remaining, List.getElem?_map]
  rfl

theorem set_remaining (k : Nat) :
    (remaining ps taken).set k none = remaining ps (taken ++ [k]) := by
  refine List.ext_getElem? fun j => ?_
  rw [List.getElem?_set', getElem?_remaining, getElem?_remaining]
  cases ps[j]? with
  | none => simp
  | some e => by_cases hj : k = j <;> simp [hj, eq_comm]

theorem mem_remaining {e : Predicate} :
    e ∈ (remaining ps taken).filterMap id ↔ ∃ k, ps[k]? = some e ∧ k ∉ taken := by
  rw [List.mem_filterMap]
  constructor
  · rintro ⟨_, hmem, rfl⟩
    obtain ⟨k, hk⟩ := List.mem_iff_getElem?.mp hmem
    rw [getElem?_remaining, Option.map_eq_some_iff] at hk
    obtain ⟨e', hk, h⟩ := hk
    split_ifs at h with hk'
    cases h
    exact ⟨k, hk, hk'⟩
  · rintro ⟨k, hk, hk'⟩
    refine ⟨some e, List.mem_iff_getElem?.mpr ⟨k, ?_⟩, rfl⟩
    rw [getElem?_remaining, hk, Option.map_some, if_neg hk']

/-- The predicates taken over and those that are left are all predicates. -/
theorem holdsAll_remaining {env : FieldName → Value} :
    HoldsAll env (pick ps taken) ∧ HoldsAll env ((remaining ps taken).filterMap id) ↔
      HoldsAll env ps := by
  constructor
  · rintro ⟨htaken, hrest⟩ e he
    obtain ⟨k, hk⟩ := List.mem_iff_getElem?.mp he
    by_cases hk' : k ∈ taken
    · exact htaken e (List.mem_filterMap.mpr ⟨k, hk', hk⟩)
    · exact hrest e (mem_remaining.mpr ⟨k, hk, hk'⟩)
  · intro h
    refine ⟨fun e he => ?_, fun e he => ?_⟩
    · obtain ⟨k, -, hk⟩ := List.mem_filterMap.mp he
      exact h e (List.mem_of_getElem? hk)
    · obtain ⟨k, hk, -⟩ := mem_remaining.mp he
      exact h e (List.mem_of_getElem? hk)

/-- The predicates of some access paths to a table are taken over. -/
theorem foldlM_embed {table : ScanId} {paths : List AccessPath}
    (htable : ∀ path ∈ paths, path.scanId = table)
    (hpredicate : ∀ path ∈ paths, ps[path.predicateId]? = some path.predicate)
    (hdistinct : (paths.map (·.predicateId)).Nodup)
    (hnew : ∀ path ∈ paths, path.predicateId ∉ taken) :
    paths.foldlM (embed table) (remaining ps taken) =
      .ok (remaining ps (taken ++ paths.map (·.predicateId))) := by
  induction paths generalizing taken with
  | nil =>
    rw [List.map_nil, List.append_nil]
    rfl
  | cons path paths ih =>
    obtain ⟨hid, htable⟩ := List.forall_mem_cons.mp htable
    obtain ⟨he, hpredicate⟩ := List.forall_mem_cons.mp hpredicate
    obtain ⟨hfresh, hnew⟩ := List.forall_mem_cons.mp hnew
    obtain ⟨hother, hdistinct⟩ := List.nodup_cons.mp hdistinct
    have hembed : embed table (remaining ps taken) path =
        .ok (remaining ps (taken ++ [path.predicateId])) := by
      rw [embed, if_neg (not_not.mpr hid), getElem?_remaining, he, Option.map_some, if_neg hfresh]
      exact congrArg Except.ok (set_remaining path.predicateId)
    rw [List.foldlM_cons, Result.bind_of_eq_ok hembed, ih htable hpredicate hdistinct]
    · rw [List.append_assoc, List.map_cons]
      rfl
    · intro other hmem htaken
      rcases List.mem_append.mp htaken with h | h
      · exact hnew other hmem h
      · exact hother (List.mem_map.mpr ⟨other, hmem, List.mem_singleton.mp h⟩)

end JoinPrefix

/-! ### Joined tables -/

/-- Tables that are joined in some order by way of candidates for predicates: what the tables store,
what stands on them, and what is known of the predicates on the rows of the whole product. -/
structure Join (db : Database) (ps : List Predicate) (candidates : List AccessPath)
    (scans : List Scan) : Prop where
  distinct : (scans.map (·.id)).Nodup
  current : ∀ s ∈ scans, db.Current s
  readable : ∀ s ∈ scans, ∃ rows, db.readScan s = .ok rows
  indexed : db.Indexed
  found : ∀ f ∈ Expr.columnsOfAll ps, ∃ i, (ofScans scans).resolve f = .ok i
  offered : ∀ path ∈ candidates, path.Offered (ofScans scans) ps
  meets : ∀ row ∈ (db.scannedAll scans).rows, ∀ e ∈ ps,
    e.Meets ((ofScans scans).read row)

/-- A plan over the tables `ts` has taken over some predicates and left the others. Its rows are
those of the product on which the predicates are true, unless the tables `us` to be joined yet have
none. -/
structure Joined (db : Database) (ps : List Predicate) (ts us : List Scan) (taken : List Nat)
    (rows : List Row) (state : Plan × List (Option Predicate)) : Prop where
  rest : state.2 = JoinPrefix.remaining ps taken
  within : ∀ e ∈ pick ps taken, Within (ts ++ us) ts e
  execute : state.1.execute db = .ok ⟨ofScans ts, rows⟩
  rows : (db.scannedAll us).rows ≠ [] →
    rows.Perm ((db.scannedAll ts).rows.filter fun row =>
      HoldsAll ((ofScans ts).read row) (pick ps taken))

variable {db : Database} {ps new : List Predicate} {candidates : List AccessPath}
  {ts us : List Scan} {t : Scan} {taken : List Nat} {rows stored : List Row}
  {state : Plan × List (Option Predicate)}

theorem Join.current_left (hjoin : Join db ps candidates (ts ++ us)) : ∀ s ∈ ts, db.Current s :=
  fun s hs => hjoin.current s (List.mem_append_left _ hs)

theorem Join.current_next (hjoin : Join db ps candidates (ts ++ t :: us)) : db.Current t :=
  hjoin.current t (List.mem_append_right _ List.mem_cons_self)

theorem Join.readable_next (hjoin : Join db ps candidates (ts ++ t :: us)) :
    ∃ stored, db.readScan t = .ok stored :=
  hjoin.readable t (List.mem_append_right _ List.mem_cons_self)

/-- Rows of the tables joined before, of the next table and of those after it make up a row of the
whole product. -/
theorem mem_scannedAll_append {a b u : Row} (hstored : db.readScan t = .ok stored)
    (ha : a ∈ (db.scannedAll ts).rows) (hb : b ∈ stored) (hu : u ∈ (db.scannedAll us).rows) :
    a ++ b ++ u ∈ (db.scannedAll (ts ++ t :: us)).rows := by
  have hbu : b ++ u ∈ (db.scannedAll (t :: us)).rows := by
    rw [Database.rows_scannedAll_cons hstored]
    exact List.mem_flatMap.mpr ⟨b, hb, List.mem_map.mpr ⟨u, hu, rfl⟩⟩
  rw [Database.scannedAll_append, List.append_assoc]
  exact List.mem_flatMap.mpr ⟨a, ha, List.mem_map.mpr ⟨b ++ u, hbu, rfl⟩⟩

/-- Selecting from a product is joining the selected rows to selected rows. -/
private theorem filter_flatMap_map {α β γ : Type} {xs : List α} {ys : List β} {f : α → β → γ}
    {p : γ → Bool} {q : α → Bool} {r : α → β → Bool}
    (h : ∀ a ∈ xs, ∀ b ∈ ys, p (f a b) = (q a && r a b)) :
    (xs.flatMap fun a => ys.map (f a)).filter p =
      (xs.filter q).flatMap fun a => (ys.filter (r a)).map (f a) := by
  induction xs with
  | nil => rfl
  | cons a xs ih =>
    obtain ⟨ha, hxs⟩ := List.forall_mem_cons.mp h
    rw [List.flatMap_cons, List.filter_append, ih hxs, List.filter_map, List.filter_cons]
    cases hq : q a with
    | true =>
      rw [if_pos rfl, List.flatMap_cons]
      congr 2
      exact List.filter_congr fun b hb => by rw [Function.comp_apply, ha b hb, hq, Bool.true_and]
    | false =>
      rw [if_neg Bool.false_ne_true, List.filter_eq_nil_iff.mpr fun b hb => ?_]
      · rfl
      · rw [Function.comp_apply, ha b hb, hq, Bool.false_and]
        exact Bool.false_ne_true

/-- One more table is joined: what is found for a row are those of its rows on which the new
predicates are true. -/
theorem Joined.perm_join {found : Row → List Row} (hjoin : Join db ps candidates (ts ++ t :: us))
    (h : Joined db ps ts (t :: us) taken rows state) (hstored : db.readScan t = .ok stored)
    (hsubset : ∀ a, found a ⊆ stored)
    (hfound : ∀ a ∈ (db.scannedAll ts).rows,
      ∀ u ∈ (db.scannedAll us).rows,
        (found a).Perm (stored.filter fun b => HoldsAll ((ofScans (ts ++ [t])).read (a ++ b)) new))
    (hus : (db.scannedAll us).rows ≠ []) :
    (rows.flatMap fun a => (found a).map (a ++ ·)).Perm
      ((db.scannedAll (ts ++ [t])).rows.filter fun row =>
        HoldsAll ((ofScans (ts ++ [t])).read row) (pick ps taken ++ new)) := by
  have hts := hjoin.current_left
  have ht := hjoin.current_next
  rw [Database.rows_scannedAll_concat hstored]
  rcases eq_or_ne stored [] with rfl | hne
  · -- a table without rows ends the search for matches
    have hnone : found = fun _ => [] := funext fun a => List.subset_nil.mp (hsubset a)
    have hnil (xs : List Row) : (xs.flatMap fun _ => ([] : List Row)) = [] :=
      List.flatMap_eq_nil_iff.mpr fun _ _ => rfl
    rw [hnone]
    simp only [List.map_nil, hnil, List.filter_nil]
    exact .refl _
  obtain ⟨b, hb⟩ := List.exists_mem_of_ne_nil _ hne
  obtain ⟨u, hu⟩ := List.exists_mem_of_ne_nil _ hus
  have hpending : (db.scannedAll (t :: us)).rows ≠ [] := by
    rw [Database.rows_scannedAll_cons hstored]
    exact List.ne_nil_of_mem (List.mem_flatMap.mpr ⟨b, hb, List.mem_map.mpr ⟨u, hu, rfl⟩⟩)
  rw [filter_flatMap_map (q := fun a => HoldsAll ((ofScans ts).read a) (pick ps taken))
    (r := fun a b => HoldsAll ((ofScans (ts ++ [t])).read (a ++ b)) new)]
  · refine ((h.rows hpending).flatMap_right _).trans (List.Perm.flatMap_left _ fun a ha => ?_)
    exact (hfound a (List.mem_of_mem_filter ha) u hu).map _
  · intro a ha b hb
    rw [← Bool.decide_and, decide_eq_decide, Expr.holdsAll_append]
    refine and_congr_left fun _ => forall₂_congr fun e he => ?_
    rw [Expr.Holds, Expr.Holds, (h.within e he).denote_concat hjoin.distinct
      (Database.length_of_mem_scannedAll hts ha) (Database.length_of_mem_stored ht hstored hb)]

/-! ### Access paths to the next table -/

section AccessPaths

variable {path : AccessPath}

theorem Join.within_lookup (hjoin : Join db ps candidates (ts ++ us)) (hpath : path ∈ candidates)
    (hlookup : ∀ id ∈ path.lookupScans, id ∈ ts.map (·.id)) :
    Within (ts ++ us) ts path.lookup := by
  intro f hf
  obtain ⟨c, hc, hid⟩ := (hjoin.offered path hpath).lookup f hf
  exact ⟨c, hc, hlookup _ hid⟩

theorem Join.within_predicate (hjoin : Join db ps candidates (ts ++ t :: us))
    (hpath : path ∈ candidates) (hlookup : ∀ id ∈ path.lookupScans, id ∈ ts.map (·.id))
    (hid : path.scanId = t.id) : Within (ts ++ t :: us) (ts ++ [t]) path.predicate := by
  obtain ⟨f, c, hsides, hc, hcid, -⟩ := (hjoin.offered path hpath).target
  intro g hg
  rcases hsides.mem_columns.mp hg with rfl | hg
  · refine ⟨c, hc, List.mem_map.mpr ⟨t, ?_, ?_⟩⟩
    · exact List.mem_append_right _ (List.mem_singleton_self t)
    · rw [hcid, hid]
  · exact (hjoin.within_lookup hpath hlookup).mono (List.subset_append_left _ _) g hg

/-- The predicate of an access path to a table that is not joined yet was not taken over before. -/
theorem Joined.not_taken (hjoin : Join db ps candidates (ts ++ t :: us))
    (h : Joined db ps ts (t :: us) taken rows state) (hpath : path ∈ candidates)
    (hid : path.scanId = t.id) : path.predicateId ∉ taken := by
  intro htaken
  have hoffered := hjoin.offered path hpath
  obtain ⟨f, c, hsides, hc, hcid, -⟩ := hoffered.target
  have hmem := List.mem_filterMap.mpr ⟨_, htaken, hoffered.predicate⟩
  obtain ⟨c', hc', hcid'⟩ := h.within _ hmem f (hsides.mem_columns.mpr (.inl rfl))
  rw [hc] at hc'
  cases hc'
  have hdistinct := hjoin.distinct
  rw [List.map_append] at hdistinct
  exact (List.nodup_append.mp hdistinct).2.2 _ hcid' _ List.mem_cons_self (hcid.trans hid)

/-- Where the predicate is true, the lookup reaches the row of the table. -/
theorem Join.reaches (hjoin : Join db ps candidates (ts ++ t :: us))
    (hstored : db.readScan t = .ok stored) (hpath : path ∈ candidates)
    (hlookup : ∀ id ∈ path.lookupScans, id ∈ ts.map (·.id)) (hid : path.scanId = t.id) :
    ∃ j, t.schema.indexOf? path.field = some j ∧
      ∀ a ∈ (db.scannedAll ts).rows, ∀ u ∈ (db.scannedAll us).rows, ∀ b ∈ stored,
        path.predicate.Holds ((ofScans (ts ++ [t])).read (a ++ b)) →
          ∃ w, b[j]? = some w ∧ path.Reaches (path.lookup.denote ((ofScans ts).read a)) w := by
  have hoffered := hjoin.offered path hpath
  obtain ⟨f, c, hsides, hc, hcid, hname, hsupports⟩ := hoffered.target
  obtain ⟨j, hj, hread⟩ := Layout.exists_field_of_columnOf hjoin.distinct hc (hcid.trans hid)
  refine ⟨j, hname ▸ hj, fun a ha u hu b hb hholds => ?_⟩
  have ht := hjoin.current_next
  have hwide := Database.length_of_mem_scannedAll hjoin.current_left ha
  obtain ⟨w, hw, hfits, henv⟩ := hread a b u hwide (ht.fits hstored b hb)
  -- the predicate is true on the row of the whole product
  have hwhole := mem_scannedAll_append hstored ha hb hu
  have hmeets := hjoin.meets _ hwhole path.predicate (List.mem_of_getElem? hoffered.predicate)
  have htrue : path.predicate.Holds ((ofScans (ts ++ t :: us)).read (a ++ b ++ u)) := by
    have hwithin := hjoin.within_predicate hpath hlookup hid
    have hdistinct := hjoin.distinct
    have hab : (a ++ b).length = (ofScans (ts ++ [t])).length := by
      rw [Layout.ofScans_concat, List.length_append, List.length_append, hwide,
        Database.length_of_mem_stored ht hstored hb]
    rw [List.append_cons] at hwithin hdistinct ⊢
    rwa [Expr.Holds, hwithin.denote_append hdistinct hab]
  -- the lookup only sees the tables joined before
  have hvalue : path.lookup.denote ((ofScans (ts ++ t :: us)).read (a ++ b ++ u)) =
      path.lookup.denote ((ofScans ts).read a) := by
    rw [List.append_assoc]
    exact (hjoin.within_lookup hpath hlookup).denote_append hjoin.distinct hwide
  have hreaches := hsides.reaches hsupports (henv.symm ▸ hfits) hmeets htrue
  rw [hvalue, henv] at hreaches
  exact ⟨w, hw, hreaches⟩

end AccessPaths

/-! ### Steps -/

/-- What is found for every row extends the plan by one table. -/
theorem Joined.extend {found : Row → List Row} {ids : List Nat} {plan : Plan}
    (hjoin : Join db ps candidates (ts ++ t :: us))
    (h : Joined db ps ts (t :: us) taken rows state) (hstored : db.readScan t = .ok stored)
    (hwithin : ∀ e ∈ pick ps ids, Within (ts ++ t :: us) (ts ++ [t]) e)
    (hexecute : plan.execute db = .ok (ResultSet.join ⟨ofScans ts, rows⟩ (ofScan t) found))
    (hsubset : ∀ a, found a ⊆ stored)
    (hfound : ∀ a ∈ (db.scannedAll ts).rows, ∀ u ∈ (db.scannedAll us).rows,
      (found a).Perm (stored.filter fun b =>
        HoldsAll ((ofScans (ts ++ [t])).read (a ++ b)) (pick ps ids))) :
    Joined db ps (ts ++ [t]) us (taken ++ ids) (rows.flatMap fun a => (found a).map (a ++ ·))
      (plan, JoinPrefix.remaining ps (taken ++ ids)) where
  rest := rfl
  within e he := by
    rw [← List.append_cons]
    rw [pick_append_positions, List.mem_append] at he
    rcases he with he | he
    · exact (h.within e he).mono (List.subset_append_left _ _)
    · exact hwithin e he
  execute := by
    rw [hexecute, Layout.ofScans_concat]
    rfl
  rows hus := by
    rw [pick_append_positions]
    exact h.perm_join hjoin hstored hsubset hfound hus

/-- A table without access paths is joined by a product. -/
theorem Joined.product (hjoin : Join db ps candidates (ts ++ t :: us))
    (h : Joined db ps ts (t :: us) taken rows state) :
    ∃ rows', Joined db ps (ts ++ [t]) us taken rows' (.product state.1 (.scan t), state.2) := by
  obtain ⟨stored, hstored⟩ := hjoin.readable_next
  have hexecute : (Plan.product state.1 (.scan t)).execute db =
      .ok (ResultSet.join ⟨ofScans ts, rows⟩ (ofScan t) fun _ => stored) := by
    refine Plan.execute_product_eq_ok.mpr ⟨_, db.scanned t, h.execute,
      Plan.execute_scan_eq_ok.mpr ⟨⟨stored, hstored⟩, rfl⟩, ?_⟩
    rw [Database.scanned_of_readScan hstored]
    rfl
  have hall (a : Row) : stored.Perm (stored.filter fun b =>
      HoldsAll ((ofScans (ts ++ [t])).read (a ++ b)) (pick ps [])) := by
    refine .of_eq (List.filter_eq_self.mpr fun b _ => decide_eq_true ?_).symm
    exact fun _ he => absurd he List.not_mem_nil
  have hwithin : ∀ e ∈ pick ps [], Within (ts ++ t :: us) (ts ++ [t]) e :=
    fun _ he => absurd he List.not_mem_nil
  have hextend := h.extend hjoin hstored hwithin hexecute (fun _ => List.Subset.refl _)
    fun a _ _ _ => hall a
  rw [List.append_nil, ← h.rest] at hextend
  exact ⟨_, hextend⟩

/-- A table is joined through its access paths by a lookup product. -/
theorem Joined.lookup {step : JoinStep} {first : AccessPath} {paths : List AccessPath}
    (hjoin : Join db ps candidates (ts ++ t :: us)) (h : Joined db ps ts (t :: us) taken rows state)
    (hstep : step.Sound candidates (ts.map (·.id))) (hid : step.scanId = t.id)
    (hpaths : step.paths = first :: paths) :
    ∃ rows', Joined db ps (ts ++ [t]) us (taken ++ step.paths.map (·.predicateId)) rows'
      (.lookup state.1 t step.paths,
        JoinPrefix.remaining ps (taken ++ step.paths.map (·.predicateId))) := by
  obtain ⟨stored, hstored⟩ := hjoin.readable_next
  have ht := hjoin.current_next
  have hdistinct := hjoin.distinct
  have hpicked : pick ps (step.paths.map (·.predicateId)) = step.paths.map (·.predicate) := by
    rw [pick, List.filterMap_map, ← List.filterMap_eq_map]
    refine List.filterMap_congr fun path hpath => ?_
    exact (hjoin.offered path (hstep.candidate path hpath)).predicate
  have hwithin : ∀ e ∈ step.paths.map (·.predicate), Within (ts ++ t :: us) (ts ++ [t]) e := by
    intro e he
    obtain ⟨path, hpath, rfl⟩ := List.mem_map.mp he
    exact hjoin.within_predicate (hstep.candidate path hpath) (hstep.lookup path hpath)
      ((hstep.table path hpath).trans hid)
  -- the lookup is bound to the columns so far, and the predicates to those of the pair
  have hfirst : first ∈ step.paths := hpaths ▸ List.mem_cons_self
  have hlookup := hjoin.within_lookup (hstep.candidate first hfirst) (hstep.lookup first hfirst)
  obtain ⟨lookup, hbind⟩ := hlookup.exists_bind hdistinct
  obtain ⟨bs, hbs⟩ : ∃ bs, Plan.bindAll (ofScans (ts ++ [t])) (step.paths.map (·.predicate)) =
      .ok bs := by
    refine Result.exists_mapM_iff.mpr fun e he => ?_
    have hwithin := hwithin e he
    rw [List.append_cons] at hwithin hdistinct
    exact hwithin.exists_bind hdistinct
  obtain ⟨j, hj, hreaches⟩ := hjoin.reaches hstored (hstep.candidate first hfirst)
    (hstep.lookup first hfirst) ((hstep.table first hfirst).trans hid)
  obtain ⟨index, hindex, hintact, hfield, hkind, hholds⟩ :=
    hjoin.indexed.exists_indexFor ht hstored hj
  have hexecute : (Plan.lookup state.1 t step.paths).execute db =
      .ok (ResultSet.join ⟨ofScans ts, rows⟩ (ofScan t)
        (Plan.matching first index stored lookup bs)) := by
    rw [Layout.ofScans_concat, hpaths] at hbs
    rw [hpaths, Plan.execute, Result.bind_of_eq_ok h.execute]
    exact Plan.executeLookup_eq_ok.mpr ⟨stored, lookup, bs, index, hstored, hbind, hbs, hindex,
      fun _ _ => Plan.answers_of_intact hintact hfield hkind, rfl⟩
  refine ⟨_, h.extend hjoin hstored (hpicked ▸ hwithin) hexecute
    (fun _ _ => Plan.mem_of_mem_matching) fun a ha u hu => ?_⟩
  -- a row that passes all predicates passes the first one, and so is reached
  have htest (b : Row) : Plan.allTrue bs (a ++ b) =
      decide (HoldsAll ((ofScans (ts ++ [t])).read (a ++ b)) (step.paths.map (·.predicate))) := by
    rw [Bool.eq_iff_iff, Plan.allTrue_iff hbs, decide_eq_true_iff]
  rw [hpicked, ← funext htest]
  refine Plan.filter_hits hintact hfield hkind hholds fun b hb htrue => ?_
  rw [Expr.evaluate_bind a hbind]
  rw [htest, decide_eq_true_iff] at htrue
  exact hreaches a ha u hu b hb (htrue _ (List.mem_map.mpr ⟨first, hfirst, rfl⟩))

/-- Joining one more table keeps the invariant. -/
theorem Joined.step {scans : List Scan} {step : JoinStep}
    (hjoin : Join db ps candidates (ts ++ t :: us)) (h : Joined db ps ts (t :: us) taken rows state)
    (hstep : step.Sound candidates (ts.map (·.id))) (hid : step.scanId = t.id)
    (hscan : JoinPrefix.scanOf scans t.id = .ok t) :
    ∃ state' taken' rows', JoinPrefix.joinStep scans state step = .ok state' ∧
      Joined db ps (ts ++ [t]) us taken' rows' state' := by
  rw [JoinPrefix.joinStep, hid, Result.bind_of_eq_ok hscan]
  cases hpaths : step.paths with
  | nil =>
    obtain ⟨rows', hrows'⟩ := h.product hjoin
    exact ⟨_, taken, rows', rfl, hrows'⟩
  | cons first paths =>
    have hembed : step.paths.foldlM (JoinPrefix.embed t.id) state.2 =
        .ok (JoinPrefix.remaining ps (taken ++ step.paths.map (·.predicateId))) := by
      rw [h.rest]
      refine JoinPrefix.foldlM_embed (fun path hpath => ?_) (fun path hpath => ?_) hstep.distinct
        fun path hpath => ?_
      · exact (hstep.table path hpath).trans hid
      · exact (hjoin.offered path (hstep.candidate path hpath)).predicate
      · exact h.not_taken hjoin (hstep.candidate path hpath) ((hstep.table path hpath).trans hid)
    obtain ⟨rows', hrows'⟩ := h.lookup hjoin hstep hid hpaths
    rw [hpaths] at hembed hrows'
    refine ⟨_, _, rows', ?_, hrows'⟩
    exact Result.bind_of_eq_ok hembed

/-! ### Whole orders -/

/-- Joining all tables keeps the invariant. -/
theorem Joined.run {scans : List Scan} {steps : List JoinStep}
    (hscans : ∀ t ∈ us, JoinPrefix.scanOf scans t.id = .ok t)
    (hjoin : Join db ps candidates (ts ++ us)) (h : Joined db ps ts us taken rows state)
    (hsteps : JoinStep.SoundAll candidates (ts.map (·.id)) steps)
    (hids : steps.map (·.scanId) = us.map (·.id)) :
    ∃ state' taken' rows', steps.foldlM (JoinPrefix.joinStep scans) state = .ok state' ∧
      Joined db ps (ts ++ us) [] taken' rows' state' := by
  induction us generalizing ts taken rows state steps with
  | nil =>
    rw [List.map_nil, List.map_eq_nil_iff] at hids
    subst hids
    rw [List.append_nil]
    exact ⟨state, taken, rows, rfl, h⟩
  | cons t us ih =>
    cases steps with
    | nil => cases hids
    | cons step steps =>
      obtain ⟨hid, hids⟩ := List.cons.inj hids
      change step.scanId = t.id at hid
      obtain ⟨ht, hscans⟩ := List.forall_mem_cons.mp hscans
      obtain ⟨state', taken', rows', hstate', h'⟩ := h.step hjoin hsteps.1 hid ht
      rw [List.append_cons] at hjoin ⊢
      have hsound : JoinStep.SoundAll candidates ((ts ++ [t]).map (·.id)) steps := by
        rw [List.map_append, List.map_singleton, ← hid]
        exact hsteps.2
      rw [List.foldlM_cons, Result.bind_of_eq_ok hstate']
      exact ih hscans hjoin h' hsound hids

/-- The first table is joined to nothing. -/
theorem Joined.leading (hjoin : Join db ps candidates (t :: us)) :
    ∃ rows, Joined db ps [t] us [] rows (.scan t, ps.map some) := by
  obtain ⟨stored, hstored⟩ := hjoin.readable t List.mem_cons_self
  refine ⟨stored, JoinPrefix.remaining_nil.symm, fun e he => absurd he List.not_mem_nil, ?_, ?_⟩
  · refine Plan.execute_scan_eq_ok.mpr ⟨⟨stored, hstored⟩, ?_⟩
    rw [Database.scanned_of_readScan hstored, ofScans, List.flatMap_singleton]
  · intro _
    have hrows : (db.scannedAll [t]).rows = stored := by
      rw [Database.scannedAll, List.map_singleton, ResultSet.productAll, ResultSet.productAll,
        ResultSet.product_unit, Database.scanned_of_readScan hstored]
    rw [hrows]
    refine .of_eq (List.filter_eq_self.mpr fun b _ => decide_eq_true ?_).symm
    exact fun _ he => absurd he List.not_mem_nil

/-- The first table of a sound order has no access paths. -/
theorem Join.paths_eq_nil {first : JoinStep} (hjoin : Join db ps candidates us)
    (hfirst : first.Sound candidates []) : first.paths = [] := by
  refine List.eq_nil_iff_forall_not_mem.mpr fun path hpath => ?_
  have hoffered := hjoin.offered path (hfirst.candidate path hpath)
  obtain ⟨id, hid⟩ := List.exists_mem_of_ne_nil _ hoffered.nonempty
  exact absurd (hfirst.lookup path hpath id hid) List.not_mem_nil

theorem scanOf_of_mem {scans : List Scan} (hdistinct : (scans.map (·.id)).Nodup) (ht : t ∈ scans) :
    JoinPrefix.scanOf scans t.id = .ok t := by
  rw [JoinPrefix.scanOf]
  cases hfound : scans.find? fun s => s.id == t.id with
  | none => exact absurd (beq_self_eq_true t.id) (List.find?_eq_none.mp hfound t ht)
  | some s =>
    have hs := List.mem_of_find?_eq_some hfound
    have hid : s.id = t.id :=
      beq_iff_eq.mp (List.find?_some (p := fun s : Scan => s.id == t.id) hfound)
    rw [List.inj_on_of_nodup_map hdistinct hs ht hid]

/-- The plan of a sound and complete order yields the rows of the product on which all predicates
are true. -/
theorem Join.toPlan_spec {scans os : List Scan} {best : JoinPrefix}
    (hjoin : Join db ps candidates os) (hperm : os.Perm scans) (hne : os ≠ [])
    (hsound : JoinStep.SoundAll candidates [] best.steps) (horder : best.order = os.map (·.id))
    (hcomplete : best.complete = true) :
    ∃ rest input rows, best.toPlan scans ps = .ok (.select rest input) ∧
      (Plan.select rest input).execute db = .ok ⟨ofScans os, rows⟩ ∧
      rows.Perm ((db.scannedAll os).rows.filter fun row =>
        HoldsAll ((ofScans os).read row) ps) := by
  obtain ⟨t, us, rfl⟩ := List.exists_cons_of_ne_nil hne
  have hdistinct : (scans.map (·.id)).Nodup := (hperm.map _).nodup_iff.mp hjoin.distinct
  have hscans : ∀ s ∈ t :: us, JoinPrefix.scanOf scans s.id = .ok s := fun s hs =>
    scanOf_of_mem hdistinct (hperm.mem_iff.mp hs)
  have hlength : best.steps.length = scans.length := by
    rw [← hperm.length_eq, ← List.length_map (f := fun s : Scan => s.id), ← horder,
      JoinPrefix.order, List.length_map]
  rw [JoinPrefix.order] at horder
  rw [JoinPrefix.toPlan, hcomplete, if_neg (by simp), if_neg (not_not.mpr hlength)]
  cases hsteps : best.steps with
  | nil =>
    rw [hsteps] at horder
    cases horder
  | cons first steps =>
    rw [hsteps] at horder hsound
    obtain ⟨hid, hids⟩ := List.cons.inj horder
    change first.scanId = t.id at hid
    obtain ⟨ht, hus⟩ := List.forall_mem_cons.mp hscans
    obtain ⟨stored, hleading⟩ := Joined.leading hjoin
    have hrest : JoinStep.SoundAll candidates ([t].map (·.id)) steps := by
      rw [List.map_singleton, ← hid]
      exact hsound.2
    obtain ⟨state, taken, rows, hstate, hjoined⟩ := hleading.run hus hjoin hrest hids
    -- the predicates that no table took over are left to a selection above
    obtain ⟨bs, hbs⟩ : ∃ bs, Plan.bindAll (ofScans (t :: us)) (state.2.filterMap id) = .ok bs := by
      refine Plan.exists_bindAll_iff.mpr fun f hf => hjoin.found f ?_
      obtain ⟨e, he, hf⟩ := Expr.mem_columnsOfAll.mp hf
      rw [hjoined.rest, JoinPrefix.mem_remaining] at he
      obtain ⟨k, hk, -⟩ := he
      exact Expr.mem_columnsOfAll.mpr ⟨e, List.mem_of_getElem? hk, hf⟩
    refine ⟨state.2.filterMap id, state.1, rows.filter (Plan.allTrue bs), ?_, ?_, ?_⟩
    · dsimp only
      rw [hjoin.paths_eq_nil hsound.1, hid, if_neg (by simp), Result.bind_of_eq_ok ht,
        Result.bind_of_eq_ok hstate]
      rfl
    · exact Plan.execute_select_eq_ok.mpr ⟨_, bs, hjoined.execute, hbs, rfl⟩
    · have hnothing : (db.scannedAll []).rows ≠ [] := List.cons_ne_nil [] []
      refine ((hjoined.rows hnothing).filter _).trans (.of_eq ?_)
      rw [List.filter_filter]
      refine List.filter_congr fun row _ => ?_
      rw [Bool.eq_iff_iff, Bool.and_eq_true, Plan.allTrue_iff hbs, decide_eq_true_iff,
        decide_eq_true_iff, and_comm, hjoined.rest]
      exact JoinPrefix.holdsAll_remaining

end SpatialStore
