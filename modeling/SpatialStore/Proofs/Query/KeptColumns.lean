import SpatialStore.Proofs.Query.Arrangement

/-!
# Columns that an expression does not name

Resolution looks at all columns of a layout, and one column too many makes a name ambiguous. Once
every name of an expression designates a column, though, the other columns do not matter: they may
be dropped and all of them may change their places. The expression can still be bound, it has the
same value, and so do its conjuncts taken together (`Expr.independent_of_other_columns`).

The columns that are named must stay. A name whose column is dropped becomes unknown, as no other
column takes it over (`Layout.resolve_dropped`), so the expression can be bound to what is left of
the layout only if none of its columns is missing (`Expr.exists_bind_project_iff`).
-/

namespace SpatialStore

namespace Layout

variable {l m : Layout} {σ : List Nat} {f : FieldName} {i : Nat}

/-- The layouts that are made of another one by changing the order of its columns and dropping some
of them are the columns at certain positions, none of them taken twice. -/
theorem subperm_iff_exists_project :
    m.Subperm l ↔ ∃ σ : List Nat, σ.Subperm (List.range l.length) ∧ m = l.project σ := by
  constructor
  · intro h
    obtain ⟨whole, hwhole, hm⟩ := List.subperm_iff.mp h
    obtain ⟨τ, hτ, rfl⟩ := exists_project_of_perm hwhole
    obtain ⟨σ, hσ, rfl⟩ := List.sublist_filterMap_iff.mp hm
    exact ⟨σ, hσ.subperm.trans hτ.subperm, rfl⟩
  · rintro ⟨σ, hσ, rfl⟩
    obtain ⟨τ, hτ, hsublist⟩ := List.subperm_iff.mp hσ
    exact (hsublist.filterMap _).subperm.trans (pick_perm hτ).subperm

theorem resolve_of_forall_not (h : ∀ c ∈ l, ¬c.answersTo f = true) :
    l.resolve f = .error (.unknownField f.text) := by
  have hnone : l.zipIdx.filter (fun c => c.1.answersTo f) = [] :=
    List.filter_eq_nil_iff.mpr fun c hc => h c.1 (List.fst_mem_of_mem_zipIdx hc)
  rw [resolve, hnone]

/-- A name whose column is dropped designates no other one. -/
theorem resolve_dropped (h : l.resolve f = .ok i) (hi : i ∉ σ) :
    (l.project σ).resolve f = .error (.unknownField f.text) := by
  obtain ⟨-, hunique⟩ := resolve_eq_ok.mp h
  -- a column that answers to the name did so before, and there was only the one that is gone
  refine resolve_of_forall_not fun c hc hname => ?_
  obtain ⟨j, hj, hjc⟩ := List.mem_filterMap.mp hc
  exact hi (hunique j c hjc hname ▸ hj)

end Layout

namespace Expr

variable {l : Layout} {σ : List Nat} {e : Predicate}

/-- What can be bound to a layout can be bound to some of its columns exactly when all that it names
are among them. -/
theorem exists_bind_project_iff (hσ : σ.Subperm (List.range l.length))
    (h : ∃ b, e.bind l = .ok b) :
    (∃ b, e.bind (l.project σ) = .ok b) ↔ ∀ f ∈ e.columns, ∃ i ∈ σ, l.resolve f = .ok i := by
  constructor
  · intro hproject f hf
    obtain ⟨i, hi⟩ := (exists_bind_iff e).mp h f hf
    obtain ⟨j, hj⟩ := (exists_bind_iff e).mp hproject f hf
    by_contra hnone
    rw [Layout.resolve_dropped hi fun hmem => hnone ⟨i, hmem, hi⟩] at hj
    cases hj
  · intro hkept
    obtain ⟨-, b, -, hb, -⟩ := Layout.bind_kept hσ hkept
    exact ⟨b, hb⟩

/-- Columns may change their places, and those that an expression does not name may be dropped: the
expression and its conjuncts can be bound to the columns that are left, the expression has the same
value on the row that is left, and the conjuncts are all true there when the expression is. -/
theorem independent_of_other_columns (hσ : σ.Subperm (List.range l.length))
    (hkept : ∀ f ∈ e.columns, ∃ i ∈ σ, l.resolve f = .ok i) :
    ∃ b b' bs, e.bind l = .ok b ∧ e.bind (l.project σ) = .ok b' ∧
      Plan.bindAll (l.project σ) e.conjuncts = .ok bs ∧
      ∀ row : Row, row.length = l.length →
        b'.evaluate (Row.project row σ) = b.evaluate row ∧
          (Plan.allTrue bs (Row.project row σ) = true ↔ b.isTrue row = true) := by
  obtain ⟨b, b', hb, hb', hvalue⟩ := Layout.bind_kept hσ hkept
  -- the conjuncts name what the expression names, so they can be bound where it can
  obtain ⟨bs, hbs⟩ := Plan.exists_bindAll_conjuncts_iff.mpr ⟨b', hb'⟩
  refine ⟨b, b', bs, hb, hb', hbs, fun row hrow => ⟨hvalue row hrow, ?_⟩⟩
  rw [Plan.allTrue_conjuncts_iff hb' hbs, isTrue, isTrue, hvalue row hrow]

/-- Lots, and the zones that they lie in. -/
def sampleLots : Layout :=
  .ofScans
    [⟨0, "lot", some "l", ⟨[⟨"id", .int, []⟩, ⟨"owner", .string, []⟩, ⟨"height", .int, []⟩]⟩⟩,
      ⟨1, "zone", none, ⟨[⟨"id", .int, []⟩, ⟨"limit", .int, []⟩]⟩⟩]

/-- The lot is Ada's, and something stands on it that is not higher than the zone allows. -/
def sampleBuilt : Predicate :=
  .conj
    [.compare .eq (.column ⟨some "l", "owner"⟩) (.literal (.string "Ada")),
      .conj
        [.compare .le (.column ⟨none, "height"⟩) (.column ⟨some "zone", "limit"⟩),
          .negate (.compare .eq (.column ⟨some "lot", "height"⟩) (.literal (.int 0)))]]

theorem independent_of_other_columns_lots :
    [4, 2, 1].Subperm (List.range sampleLots.length) ∧
      (∀ f ∈ sampleBuilt.columns, ∃ i ∈ [4, 2, 1], sampleLots.resolve f = .ok i) ∧
      ∃ b b' bs, sampleBuilt.bind sampleLots = .ok b ∧
        sampleBuilt.bind (sampleLots.project [4, 2, 1]) = .ok b' ∧
        Plan.bindAll (sampleLots.project [4, 2, 1]) sampleBuilt.conjuncts = .ok bs ∧
        b'.evaluate [.int 20, .int 12, .string "Ada"] =
          b.evaluate [.int 7, .string "Ada", .int 12, .int 3, .int 20] ∧
        Plan.allTrue bs [.int 20, .int 12, .string "Ada"] = true := by
  have hsubperm : [4, 2, 1].Subperm (List.range sampleLots.length) := by decide
  have hkept : ∀ f ∈ sampleBuilt.columns, ∃ i ∈ [4, 2, 1], sampleLots.resolve f = .ok i := by
    decide
  obtain ⟨b, b', bs, hb, hb', hbs, hrows⟩ := independent_of_other_columns hsubperm hkept
  obtain ⟨hvalue, htrue⟩ := hrows [.int 7, .string "Ada", .int 12, .int 3, .int 20] rfl
  refine ⟨hsubperm, hkept, b, b', bs, hb, hb', hbs, hvalue, htrue.mpr ?_⟩
  cases hb
  decide

end Expr

end SpatialStore
