import SpatialStore.Proofs.Result
import SpatialStore.Proofs.Schema.Names
import SpatialStore.Table.Source

/-!
# Proper sources

A source is *proper* when the field names of its schema are different and its rows are as wide as
the schema. This is checked whenever rows come to a source, so every source that is made from a
proper schema is proper (`proper_of_ofRows`), and stays so when it is written (`proper_of_write`).
-/

namespace SpatialStore.Source

/-- The fields of the source have different names, and its rows are as wide as the schema. -/
structure Proper (s : Source) : Prop where
  schema : s.schema.Proper
  width : ∀ row ∈ s.rows, row.length = s.schema.count

variable {s t : Source} {schema : Schema} {rows : List Row}

theorem checkWidths_eq_ok :
    checkWidths schema rows = .ok () ↔ ∀ row ∈ rows, row.length = schema.count := by
  rw [checkWidths]
  constructor
  · intro h row hrow
    split at h
    · cases h
    next hnone =>
      obtain ⟨i, hi⟩ := List.mem_iff_getElem?.mp hrow
      have hsame := List.find?_eq_none.mp hnone (row, i) (List.mem_zipIdx_iff_getElem?.mpr hi)
      simpa using hsame
  · intro h
    have hnone : (rows.zipIdx.find? fun r => r.1.length != schema.count) = none := by
      refine List.find?_eq_none.mpr fun r hr => ?_
      have hmem := List.mem_of_getElem? (List.mem_zipIdx_iff_getElem?.mp hr)
      simp [h r.1 hmem]
    rw [hnone]

/-- A source that is made from rows of a proper schema is proper. -/
theorem proper_of_ofRows {name : String} (hschema : schema.Proper)
    (h : ofRows name schema rows = .ok s) : s.Proper := by
  obtain ⟨⟨⟩, hwidths, rfl⟩ := Result.map_eq_ok.mp h
  rw [checkWidths_eq_ok] at hwidths
  exact ⟨hschema, hwidths⟩

/-- Whatever a source held before, it is proper after rows of a proper schema were written. -/
theorem proper_of_write (hschema : schema.Proper) (h : s.write schema rows = .ok t) :
    t.Proper := by
  obtain ⟨-, -, h⟩ := Result.bind_eq_ok.mp h
  obtain ⟨⟨⟩, hwidths, h⟩ := Result.bind_eq_ok.mp h
  obtain rfl := Except.ok.inj h
  rw [checkWidths_eq_ok] at hwidths
  exact ⟨hschema, hwidths⟩

/-- Rows as wide as the schema are taken by a source that is switched on. -/
theorem exists_write (havailable : s.available = true)
    (hwidth : ∀ row ∈ rows, row.length = schema.count) : ∃ t, s.write schema rows = .ok t := by
  rw [← checkWidths_eq_ok] at hwidth
  rw [write, whenAvailable, if_pos havailable, hwidth]
  exact ⟨_, rfl⟩

/-- Rows as wide as the schema are only refused by a source that is switched off. -/
theorem write_eq_error {e : SourceError} (hwidth : ∀ row ∈ rows, row.length = schema.count)
    (h : s.write schema rows = .error e) : s.available = false ∧ e = .unavailable s.name := by
  cases havailable : s.available with
  | true =>
    obtain ⟨t, ht⟩ := exists_write havailable hwidth
    cases h.symm.trans ht
  | false =>
    rw [write, whenAvailable, havailable] at h
    exact ⟨rfl, (Except.error.inj h).symm⟩

end SpatialStore.Source
