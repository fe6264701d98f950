import SpatialStore.Proofs.Query.Execution
import SpatialStore.Proofs.Schema.Names

/-!
# Columns of several scans

The columns of some scans with different ids come one scan after the other. A name that designates a
column of the first scans designates it among these alone, so an expression over the first scans has
the same value before and after more of them are joined (`Within.denote_append`). A name that
designates a column of a scan reads the value of one field of its rows (`exists_field_of_columnOf`).
-/

namespace SpatialStore

namespace Plan

@[simp]
theorem scans_scan (s : Scan) : (Plan.scan s).scans = [s] := rfl

@[simp]
theorem scans_product (p q : Plan) : (Plan.product p q).scans = p.scans ++ q.scans := rfl

end Plan

namespace Layout

variable {l m : Layout} {f : FieldName} {c : Column} {i j : Nat} {a u : Row}

/-! ### The beginning of a layout -/

theorem resolve_append_left (h : (l ++ m).resolve f = .ok i) (hi : i < l.length) :
    l.resolve f = .ok i := by
  obtain ⟨⟨c, hc, hname⟩, hunique⟩ := resolve_eq_ok.mp h
  rw [List.getElem?_append_left hi] at hc
  refine resolve_eq_ok.mpr ⟨⟨c, hc, hname⟩, fun j d hj hd => hunique j d ?_ hd⟩
  rw [List.getElem?_append_left (List.getElem?_eq_some_iff.mp hj).1, hj]

theorem read_append_left (h : (l ++ m).resolve f = .ok i) (hi : i < l.length)
    (ha : a.length = l.length) : (l ++ m).read (a ++ u) f = l.read a f := by
  rw [read, read, h, resolve_append_left h hi]
  dsimp only
  rw [List.getElem?_append_left (ha ▸ hi)]

/-! ### Scans -/

variable {s t : Scan} {ts us os : List Scan}

theorem getElem?_ofScan : (ofScan s)[j]? =
    s.schema.fields[j]?.map fun f => ⟨s.id, s.table, s.label, f.name, f.type, j⟩ := by
  rw [ofScan, List.getElem?_map, List.getElem?_zipIdx, Option.map_map, Nat.zero_add]
  rfl

theorem ofScans_append (ts us : List Scan) : ofScans (ts ++ us) = ofScans ts ++ ofScans us :=
  List.flatMap_append

theorem ofScans_concat (ts : List Scan) (t : Scan) :
    ofScans (ts ++ [t]) = ofScans ts ++ ofScan t := by
  rw [ofScans_append]
  exact congrArg _ (List.append_nil _)

theorem scanId_of_mem_ofScan (h : c ∈ ofScan s) : c.scanId = s.id := by
  obtain ⟨x, -, rfl⟩ := List.mem_map.mp h
  rfl

theorem scanId_mem_of_mem_ofScans (h : c ∈ ofScans ts) : c.scanId ∈ ts.map (·.id) := by
  obtain ⟨s, hs, hc⟩ := List.mem_flatMap.mp h
  exact List.mem_map.mpr ⟨s, hs, (scanId_of_mem_ofScan hc).symm⟩

/-- A column of one of the first scans is among their columns. -/
theorem lt_of_scanId_mem (hdistinct : ((ts ++ us).map (·.id)).Nodup)
    (hc : (ofScans (ts ++ us))[i]? = some c) (hid : c.scanId ∈ ts.map (·.id)) :
    i < (ofScans ts).length := by
  by_contra hge
  rw [ofScans_append, List.getElem?_append_right (Nat.not_lt.mp hge)] at hc
  have hid' := scanId_mem_of_mem_ofScans (List.mem_of_getElem? hc)
  rw [List.map_append] at hdistinct
  exact (List.nodup_append.mp hdistinct).2.2 _ hid _ hid' rfl

/-- The columns of an expression, looked up among those of some scans, belong to certain scans. -/
def Within (os ts : List Scan) (e : Predicate) : Prop :=
  ∀ f ∈ e.columns, ∃ c, (ofScans os).columnOf f = .ok c ∧ c.scanId ∈ ts.map (·.id)

variable {e : Predicate}

theorem Within.mono (h : Within os ts e) (hts : ts ⊆ us) : Within os us e := fun f hf =>
  (h f hf).imp fun _ hc => ⟨hc.1, List.map_subset _ hts hc.2⟩

private theorem Within.resolve (h : Within (ts ++ us) ts e)
    (hdistinct : ((ts ++ us).map (·.id)).Nodup) :
    ∀ f ∈ e.columns, ∃ i < (ofScans ts).length, (ofScans ts ++ ofScans us).resolve f = .ok i := by
  intro f hf
  obtain ⟨c, hc, hid⟩ := h f hf
  obtain ⟨i, hi, hc⟩ := columnOf_eq_ok.mp hc
  exact ⟨i, lt_of_scanId_mem hdistinct hc hid, ofScans_append ts us ▸ hi⟩

/-- An expression over the first scans can be bound to their columns alone. -/
theorem Within.exists_bind (h : Within (ts ++ us) ts e)
    (hdistinct : ((ts ++ us).map (·.id)).Nodup) : ∃ b, e.bind (ofScans ts) = .ok b := by
  refine (Expr.exists_bind_iff e).mpr fun f hf => ?_
  obtain ⟨i, hi, hresolve⟩ := h.resolve hdistinct f hf
  exact ⟨i, resolve_append_left hresolve hi⟩

/-- An expression over the first scans has the same value when more columns follow. -/
theorem Within.denote_append (h : Within (ts ++ us) ts e)
    (hdistinct : ((ts ++ us).map (·.id)).Nodup) (ha : a.length = (ofScans ts).length) :
    e.denote ((ofScans (ts ++ us)).read (a ++ u)) = e.denote ((ofScans ts).read a) := by
  refine Expr.denote_congr e fun f hf => ?_
  obtain ⟨i, hi, hresolve⟩ := h.resolve hdistinct f hf
  rw [ofScans_append]
  exact read_append_left hresolve hi ha

/-- An expression over the first scans has the same value when one more is joined. -/
theorem Within.denote_concat {b : Row} (h : Within (ts ++ t :: us) ts e)
    (hdistinct : ((ts ++ t :: us).map (·.id)).Nodup) (ha : a.length = (ofScans ts).length)
    (hb : b.length = (ofScan t).length) :
    e.denote ((ofScans (ts ++ [t])).read (a ++ b)) = e.denote ((ofScans ts).read a) := by
  have hmore := h.mono (List.subset_append_left ts [t])
  have hab : (a ++ b).length = (ofScans (ts ++ [t])).length := by
    rw [ofScans_concat, List.length_append, List.length_append, ha, hb]
  have hwhole := h.denote_append (u := b) hdistinct ha
  rw [List.append_cons] at hdistinct hmore hwhole
  rw [← hmore.denote_append (u := []) hdistinct hab, List.append_nil, hwhole]

/-- A name that designates the column of a field designates the first field of its name, as another
one would be designated as well. -/
theorem indexOf?_of_resolve {x : Field} (h : (l ++ ofScan t ++ m).resolve f = .ok (l.length + j))
    (hx : t.schema.fields[j]? = some x) : t.schema.indexOf? x.name = some j := by
  obtain ⟨⟨c, hc, hname⟩, hunique⟩ := resolve_eq_ok.mp h
  have hcolumn {k : Nat} {y : Field} (hy : t.schema.fields[k]? = some y) :
      (l ++ ofScan t ++ m)[l.length + k]? =
        some ⟨t.id, t.table, t.label, y.name, y.type, k⟩ := by
    have hk : (ofScan t)[k]? = some ⟨t.id, t.table, t.label, y.name, y.type, k⟩ := by
      rw [getElem?_ofScan, hy]
      rfl
    rw [List.append_assoc, List.getElem?_append_right (Nat.le_add_right _ _),
      Nat.add_sub_cancel_left, List.getElem?_append_left (List.getElem?_eq_some_iff.mp hk).1, hk]
  rw [hcolumn hx] at hc
  cases hc
  cases hfirst : t.schema.indexOf? x.name with
  | none =>
    exact absurd (Schema.mem_names_of_getElem? hx) (Schema.indexOf?_eq_none_iff.mp hfirst)
  | some k =>
    obtain ⟨y, hy, hyname⟩ := Schema.exists_field_of_indexOf? hfirst
    have hsame := hunique _ _ (hcolumn hy) (by rwa [Column.answersTo, hyname])
    rw [Nat.add_left_cancel hsame]

/-- A name that designates the column of a field reads the field's value. -/
theorem read_of_resolve {x : Field} {b : Row}
    (h : (l ++ ofScan t ++ m).resolve f = .ok (l.length + j))
    (hx : t.schema.fields[j]? = some x) (ha : a.length = l.length)
    (hb : List.Forall₂ (fun v f => Value.fits v f.type = true) b t.schema.fields) :
    ∃ w, b[j]? = some w ∧ w.fits x.type = true ∧
      (l ++ ofScan t ++ m).read (a ++ b ++ u) f = w := by
  obtain ⟨hjfields, hxget⟩ := List.getElem?_eq_some_iff.mp hx
  have hjb : j < b.length := hb.length_eq ▸ hjfields
  refine ⟨b[j], List.getElem?_eq_getElem hjb, ?_, ?_⟩
  · have hfits := hb.get hjb hjfields
    rwa [List.get_eq_getElem, List.get_eq_getElem, hxget] at hfits
  · rw [read, h]
    dsimp only
    rw [List.append_assoc, ← ha, List.getElem?_append_right (Nat.le_add_right _ _),
      Nat.add_sub_cancel_left, List.getElem?_append_left hjb, List.getElem?_eq_getElem hjb]
    rfl

/-- A name that designates a column of a scan reads a field of its rows, which is the first of the
field's name. -/
theorem exists_field_of_columnOf (hdistinct : ((ts ++ t :: us).map (·.id)).Nodup)
    (hc : (ofScans (ts ++ t :: us)).columnOf f = .ok c) (hid : c.scanId = t.id) :
    ∃ j, t.schema.indexOf? c.name = some j ∧
      ∀ a b u : Row, a.length = (ofScans ts).length →
        List.Forall₂ (fun v f => Value.fits v f.type = true) b t.schema.fields →
          ∃ w, b[j]? = some w ∧ w.fits c.type = true ∧
            (ofScans (ts ++ t :: us)).read (a ++ b ++ u) f = w := by
  obtain ⟨i, hi, hget⟩ := columnOf_eq_ok.mp hc
  -- the column is behind those of the scans before `t` and before those of the scans after it
  have hlt : i < (ofScans ts).length + (ofScan t).length := by
    rw [← List.length_append, ← ofScans_concat]
    rw [List.append_cons] at hdistinct hget
    refine lt_of_scanId_mem hdistinct hget (List.mem_map.mpr ⟨t, ?_, hid.symm⟩)
    exact List.mem_append_right _ (List.mem_singleton_self t)
  have hge : (ofScans ts).length ≤ i := by
    by_contra hlt
    rw [ofScans_append, List.getElem?_append_left (Nat.not_le.mp hlt)] at hget
    have hid' := scanId_mem_of_mem_ofScans (List.mem_of_getElem? hget)
    rw [List.map_append] at hdistinct
    exact (List.nodup_append.mp hdistinct).2.2 _ hid' _ List.mem_cons_self hid
  obtain ⟨j, rfl⟩ := Nat.exists_eq_add_of_le hge
  have hsplit : ofScans (ts ++ t :: us) = ofScans ts ++ ofScan t ++ ofScans us := by
    rw [ofScans_append, List.append_assoc]
    rfl
  rw [hsplit] at hi hget ⊢
  rw [List.append_assoc, List.getElem?_append_right (Nat.le_add_right _ _),
    Nat.add_sub_cancel_left, List.getElem?_append_left (Nat.lt_of_add_lt_add_left hlt),
    getElem?_ofScan, Option.map_eq_some_iff] at hget
  obtain ⟨x, hx, rfl⟩ := hget
  exact ⟨j, indexOf?_of_resolve hi hx, fun a b u ha hb => read_of_resolve hi hx ha hb⟩

end Layout

end SpatialStore
