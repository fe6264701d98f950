import Mathlib.Data.List.Nodup
import SpatialStore.Proofs.Result
import SpatialStore.Query.ResultSet

/-!
# Expressions by name

A bound expression reads positions of a row. Its value only depends on what the row holds under the
field names of the expression as it was written: `Expr.denote` evaluates the written expression in
an environment that gives a value to every name, and binding to a layout and evaluating on a row is
denoting in the environment `Layout.read` of the two (`evaluate_bind`). So positions need not be
followed when columns change their places.

A selection is true on a row when its conjuncts are, however conjunctions are nested
(`holdsAll_conjuncts`).
-/

namespace SpatialStore

namespace Layout

/-- The field name designates the column at a position, and no other one. -/
def Designates (l : Layout) (f : FieldName) (i : Nat) : Prop :=
  (∃ c, l[i]? = some c ∧ c.answersTo f = true) ∧
    ∀ j d, l[j]? = some d → d.answersTo f = true → j = i

theorem resolve_eq_ok {l : Layout} {f : FieldName} {i : Nat} :
    l.resolve f = .ok i ↔ l.Designates f i := by
  have hmem {c : Column} {j : Nat} :
      (c, j) ∈ l.zipIdx.filter (fun c => c.1.answersTo f) ↔
        l[j]? = some c ∧ c.answersTo f = true := by
    rw [List.mem_filter, List.mem_zipIdx_iff_getElem?]
  have hnodup : (l.zipIdx.filter fun c => c.1.answersTo f).Nodup := by
    refine List.Nodup.filter _ (List.Nodup.of_map Prod.snd ?_)
    rw [List.zipIdx_map_snd]
    exact List.nodup_range'
  rw [resolve]
  constructor
  · intro h
    split at h
    · cases h
    · next c j hfound =>
      cases h
      refine ⟨⟨c, hmem.mp (by rw [hfound]; exact List.mem_singleton_self _)⟩, fun k d hk hd => ?_⟩
      have hkd := hmem.mpr ⟨hk, hd⟩
      rw [hfound, List.mem_singleton] at hkd
      exact congrArg Prod.snd hkd
    · cases h
  · rintro ⟨⟨c, hc⟩, hunique⟩
    -- the columns that answer to the name are those of a list with this one only
    have hsingle : l.zipIdx.filter (fun c => c.1.answersTo f) = [(c, i)] := by
      refine List.perm_singleton.mp ?_
      refine (List.perm_ext_iff_of_nodup hnodup (List.nodup_singleton _)).mpr fun x => ?_
      rw [List.mem_singleton]
      constructor
      · intro hx
        obtain ⟨d, j⟩ := x
        obtain ⟨hj, hd⟩ := hmem.mp hx
        obtain rfl := hunique j d hj hd
        rw [hc.1, Option.some.injEq] at hj
        rw [hj]
      · rintro rfl
        exact hmem.mpr hc
    rw [hsingle]

theorem columnOf_eq_ok {l : Layout} {f : FieldName} {c : Column} :
    l.columnOf f = .ok c ↔ ∃ i, l.resolve f = .ok i ∧ l[i]? = some c := by
  rw [columnOf]
  constructor
  · intro h
    obtain ⟨i, hi, h⟩ := Result.bind_eq_ok.mp h
    split at h
    · next d hd =>
      cases h
      exact ⟨i, hi, hd⟩
    · cases h
  · rintro ⟨i, hi, hc⟩
    refine Result.bind_eq_ok.mpr ⟨i, hi, ?_⟩
    rw [hc]
    rfl

theorem exists_columnOf {l : Layout} {f : FieldName} {i : Nat} (h : l.resolve f = .ok i) :
    ∃ c, l.columnOf f = .ok c := by
  obtain ⟨⟨c, hc, -⟩, -⟩ := resolve_eq_ok.mp h
  exact ⟨c, columnOf_eq_ok.mpr ⟨i, h, hc⟩⟩

/-- The value of a row under a field name. -/
def read (l : Layout) (row : Row) (f : FieldName) : Value :=
  match l.resolve f with
  | .ok i => (row[i]?).getD .null
  | .error _ => .null

end Layout

namespace Expr

/-! ### Denotation -/

mutual

/-- The value of an expression where every field name has a value. -/
def denote (env : FieldName → Value) : Predicate → Value
  | .column f => env f
  | .literal v => v
  | .compare op l r => op.apply (denote env l) (denote env r)
  | .spatial op l r => op.apply (denote env l) (denote env r)
  | .conj items => Value.conj (denoteAll env items)
  | .disj items => Value.disj (denoteAll env items)
  | .negate e => (denote env e).negate
  | .call f args => f.apply ((denoteAll env args).headD .null)

/-- The values of a list of expressions. -/
def denoteAll (env : FieldName → Value) : List Predicate → List Value
  | [] => []
  | e :: es => denote env e :: denoteAll env es

end

mutual

/-- The value only depends on the columns of the expression. -/
theorem denote_congr {env env' : FieldName → Value} :
    ∀ e : Predicate, (∀ f ∈ e.columns, env f = env' f) → e.denote env = e.denote env'
  | .column f, h => h f (List.mem_singleton_self f)
  | .literal _, _ => rfl
  | .compare op l r, h => by
    rw [denote, denote, denote_congr l fun f hf => h f (List.mem_append_left _ hf),
      denote_congr r fun f hf => h f (List.mem_append_right _ hf)]
  | .spatial op l r, h => by
    rw [denote, denote, denote_congr l fun f hf => h f (List.mem_append_left _ hf),
      denote_congr r fun f hf => h f (List.mem_append_right _ hf)]
  | .conj items, h => by rw [denote, denote, denoteAll_congr items h]
  | .disj items, h => by rw [denote, denote, denoteAll_congr items h]
  | .negate e, h => by rw [denote, denote, denote_congr e h]
  | .call g args, h => by rw [denote, denote, denoteAll_congr args h]

private theorem denoteAll_congr {env env' : FieldName → Value} :
    ∀ es : List Predicate, (∀ f ∈ columnsOfAll es, env f = env' f) →
      denoteAll env es = denoteAll env' es
  | [], _ => rfl
  | e :: es, h => by
    rw [denoteAll, denoteAll, denote_congr e fun f hf => h f (List.mem_append_left _ hf),
      denoteAll_congr es fun f hf => h f (List.mem_append_right _ hf)]

end

mutual

/-- Evaluating a bound expression is denoting the written one. -/
theorem evaluate_bind {l : Layout} (row : Row) :
    ∀ {e : Predicate} {b : RowExpr}, e.bind l = .ok b → b.evaluate row = e.denote (l.read row)
  | .column f, b, h => by
    obtain ⟨i, hi, h⟩ := Result.bind_eq_ok.mp h
    cases h
    rw [evaluate, denote, Layout.read, hi]
  | .literal v, b, h => by
    cases h
    rfl
  | .compare op x y, b, h => by
    obtain ⟨x', hx, h⟩ := Result.bind_eq_ok.mp h
    obtain ⟨y', hy, h⟩ := Result.bind_eq_ok.mp h
    cases h
    rw [evaluate, denote, evaluate_bind row hx, evaluate_bind row hy]
  | .spatial op x y, b, h => by
    obtain ⟨x', hx, h⟩ := Result.bind_eq_ok.mp h
    obtain ⟨y', hy, h⟩ := Result.bind_eq_ok.mp h
    cases h
    rw [evaluate, denote, evaluate_bind row hx, evaluate_bind row hy]
  | .conj items, b, h => by
    obtain ⟨items', hitems, h⟩ := Result.bind_eq_ok.mp h
    cases h
    rw [evaluate, denote, evaluateAll_bind row hitems]
  | .disj items, b, h => by
    obtain ⟨items', hitems, h⟩ := Result.bind_eq_ok.mp h
    cases h
    rw [evaluate, denote, evaluateAll_bind row hitems]
  | .negate e, b, h => by
    obtain ⟨e', he, h⟩ := Result.bind_eq_ok.mp h
    cases h
    rw [evaluate, denote, evaluate_bind row he]
  | .call g args, b, h => by
    obtain ⟨args', hargs, h⟩ := Result.bind_eq_ok.mp h
    cases h
    rw [evaluate, denote, evaluateAll_bind row hargs]

private theorem evaluateAll_bind {l : Layout} (row : Row) :
    ∀ {es : List Predicate} {bs : List RowExpr}, traverseAll l.resolve es = .ok bs →
      evaluateAll row bs = denoteAll (l.read row) es
  | [], bs, h => by
    cases h
    rfl
  | e :: es, bs, h => by
    obtain ⟨b, hb, h⟩ := Result.bind_eq_ok.mp h
    obtain ⟨bs', hbs, h⟩ := Result.bind_eq_ok.mp h
    cases h
    rw [evaluateAll, denoteAll, evaluate_bind row hb, evaluateAll_bind row hbs]

end

/-! ### Binding -/

mutual

/-- An expression can be bound when its columns can be resolved. -/
theorem exists_bind_iff {l : Layout} :
    ∀ e : Predicate, (∃ b, e.bind l = .ok b) ↔ ∀ f ∈ e.columns, ∃ i, l.resolve f = .ok i
  | .column f => by
    rw [columns, List.forall_mem_singleton]
    exact Result.exists_pure
  | .literal v => ⟨fun _ f hf => absurd hf List.not_mem_nil, fun _ => ⟨.literal v, rfl⟩⟩
  | .compare op x y => by
    rw [columns, List.forall_mem_append, ← exists_bind_iff x, ← exists_bind_iff y]
    exact Result.exists_pure₂
  | .spatial op x y => by
    rw [columns, List.forall_mem_append, ← exists_bind_iff x, ← exists_bind_iff y]
    exact Result.exists_pure₂
  | .conj items => by
    rw [columns, ← exists_traverseAll_iff items]
    exact Result.exists_pure
  | .disj items => by
    rw [columns, ← exists_traverseAll_iff items]
    exact Result.exists_pure
  | .negate e => by
    rw [columns, ← exists_bind_iff e]
    exact Result.exists_pure
  | .call g args => by
    rw [columns, ← exists_traverseAll_iff args]
    exact Result.exists_pure

private theorem exists_traverseAll_iff {l : Layout} :
    ∀ es : List Predicate, (∃ bs, traverseAll l.resolve es = .ok bs) ↔
      ∀ f ∈ columnsOfAll es, ∃ i, l.resolve f = .ok i
  | [] => ⟨fun _ f hf => absurd hf List.not_mem_nil, fun _ => ⟨[], rfl⟩⟩
  | e :: es => by
    rw [columnsOfAll, List.forall_mem_append, ← exists_bind_iff e, ← exists_traverseAll_iff es]
    exact Result.exists_pure₂

end

/-! ### Conjuncts -/

/-- The expression is true, neither false nor unknown. -/
def Holds (env : FieldName → Value) (e : Predicate) : Prop := (e.denote env).isBool true = true

instance (env : FieldName → Value) (e : Predicate) : Decidable (e.Holds env) :=
  inferInstanceAs (Decidable (_ = true))

/-- Every expression is true. -/
def HoldsAll (env : FieldName → Value) (es : List Predicate) : Prop := ∀ e ∈ es, e.Holds env

instance (env : FieldName → Value) (es : List Predicate) : Decidable (HoldsAll env es) :=
  inferInstanceAs (Decidable (∀ e ∈ es, e.Holds env))

theorem holdsAll_append {env : FieldName → Value} {es es' : List Predicate} :
    HoldsAll env (es ++ es') ↔ HoldsAll env es ∧ HoldsAll env es' :=
  List.forall_mem_append

/-- A conjunction of values is true when all of them are. -/
theorem conj_isBool_true {vs : List Value} :
    (Value.conj vs).isBool true = true ↔ ∀ v ∈ vs, v.isBool true = true := by
  have hboth (v : Value) (h : v.isBool true = true) : v.isBool false = false := by
    cases v <;> simp_all [Value.isBool]
  rw [Value.conj]
  -- a false value decides first, then all values have to be true
  split_ifs with hfalse htrue
  · obtain ⟨v, hv, hvfalse⟩ := List.any_eq_true.mp hfalse
    refine iff_of_false (by simp [Value.isBool]) fun h => ?_
    rw [hboth v (h v hv)] at hvfalse
    cases hvfalse
  · exact iff_of_true rfl (List.all_eq_true.mp htrue)
  · refine iff_of_false (by simp [Value.isBool]) fun h => htrue (List.all_eq_true.mpr h)

theorem denoteAll_eq_map (env : FieldName → Value) (es : List Predicate) :
    denoteAll env es = es.map (denote env) := by
  induction es with
  | nil => rfl
  | cons e es ih => rw [denoteAll, ih, List.map_cons]

mutual

/-- A predicate is true when its conjuncts are. -/
theorem holdsAll_conjuncts {env : FieldName → Value} :
    ∀ e : Predicate, HoldsAll env e.conjuncts ↔ e.Holds env
  | .conj items => by
    rw [conjuncts, holdsAll_conjunctsOfAll items, Holds, denote, conj_isBool_true,
      denoteAll_eq_map, List.forall_mem_map]
    rfl
  | .column _ | .literal _ | .compare _ _ _ | .spatial _ _ _ | .disj _ | .negate _ | .call _ _ =>
    List.forall_mem_singleton

/-- Predicates are true when their conjuncts are. -/
theorem holdsAll_conjunctsOfAll {env : FieldName → Value} :
    ∀ es : List Predicate, HoldsAll env (conjunctsOfAll es) ↔ HoldsAll env es
  | [] => Iff.rfl
  | e :: es => by
    rw [conjunctsOfAll, holdsAll_append, holdsAll_conjuncts e, holdsAll_conjunctsOfAll es]
    exact List.forall_mem_cons.symm

end

mutual

/-- The conjuncts of a predicate have its columns. -/
theorem columnsOfAll_conjuncts : ∀ e : Predicate, columnsOfAll e.conjuncts = e.columns
  | .conj items => by rw [conjuncts, columns, columnsOfAll_conjunctsOfAll items]
  | .column _ | .literal _ | .compare _ _ _ | .spatial _ _ _ | .disj _ | .negate _ | .call _ _ =>
    List.append_nil _

/-- The conjuncts of several predicates have their columns. -/
theorem columnsOfAll_conjunctsOfAll :
    ∀ es : List Predicate, columnsOfAll (conjunctsOfAll es) = columnsOfAll es
  | [] => rfl
  | e :: es => by
    have columnsOfAll_append (as bs : List Predicate) :
        columnsOfAll (as ++ bs) = columnsOfAll as ++ columnsOfAll bs := by
      induction as with
      | nil => rfl
      | cons a as ih => rw [List.cons_append, columnsOfAll, columnsOfAll, ih, List.append_assoc]
    rw [conjunctsOfAll, columnsOfAll, columnsOfAll_append, columnsOfAll_conjuncts e,
      columnsOfAll_conjunctsOfAll es]

end

theorem mem_columnsOfAll {f : FieldName} {es : List Predicate} :
    f ∈ columnsOfAll es ↔ ∃ e ∈ es, f ∈ e.columns := by
  induction es with
  | nil => exact ⟨fun h => absurd h List.not_mem_nil, fun ⟨_, h, _⟩ => absurd h List.not_mem_nil⟩
  | cons e es ih =>
    rw [columnsOfAll, List.mem_append, ih, List.exists_mem_cons_iff]

end Expr

/-! ### Selections -/

namespace Plan

open SpatialStore.Expr (HoldsAll)

theorem exists_bindAll_iff {l : Layout} {ps : List Predicate} :
    (∃ bs, bindAll l ps = .ok bs) ↔ ∀ f ∈ Expr.columnsOfAll ps, ∃ i, l.resolve f = .ok i := by
  rw [bindAll, Result.exists_mapM_iff]
  simp only [Expr.exists_bind_iff, Expr.mem_columnsOfAll]
  exact ⟨fun h f ⟨e, he, hf⟩ => h e he f hf, fun h e he f hf => h f ⟨e, he, hf⟩⟩

/-- The bound predicates are true on a row when the written ones hold of it. -/
theorem allTrue_iff {l : Layout} {ps : List Predicate} {bs : List RowExpr}
    (h : bindAll l ps = .ok bs) (row : Row) :
    allTrue bs row = true ↔ HoldsAll (l.read row) ps := by
  rw [allTrue, List.all_eq_true]
  constructor
  · intro hall p hp
    obtain ⟨b, hb, hbind⟩ := Result.exists_of_mem h hp
    rw [Expr.Holds, ← Expr.evaluate_bind row hbind]
    exact hall b hb
  · intro hall b hb
    obtain ⟨p, hp, hbind⟩ := Result.exists_of_mem_result h hb
    rw [Expr.isTrue, Expr.evaluate_bind row hbind]
    exact hall p hp

variable {l : Layout} {e : Predicate}

/-- The conjuncts of a predicate can be bound when the predicate can. -/
theorem exists_bindAll_conjuncts_iff :
    (∃ bs, bindAll l e.conjuncts = .ok bs) ↔ ∃ b, e.bind l = .ok b := by
  rw [exists_bindAll_iff, Expr.columnsOfAll_conjuncts, Expr.exists_bind_iff]

/-- The bound conjuncts are true on the rows on which the bound predicate is. -/
theorem allTrue_conjuncts_iff {b : RowExpr} {bs : List RowExpr} (hb : e.bind l = .ok b)
    (hbs : bindAll l e.conjuncts = .ok bs) (row : Row) :
    allTrue bs row = true ↔ b.isTrue row = true := by
  rw [allTrue_iff hbs, Expr.holdsAll_conjuncts, Expr.Holds, Expr.isTrue, Expr.evaluate_bind row hb]

end Plan

end SpatialStore
