import Mathlib.Data.List.Nodup
import SpatialStore.Schema.Basic

/-!
# Field names

A schema is *proper* when its field names are different, and then a name finds the field that has
it (`Proper.indexOf?_eq_some_iff`). Only proper schemas are made from fields (`ofFields_eq_ok_iff`),
and the operations that change schemas keep them proper.
-/

namespace SpatialStore.Schema

/-- The fields have different names. -/
def Proper (s : Schema) : Prop := s.names.Nodup

instance (s : Schema) : Decidable s.Proper := inferInstanceAs (Decidable s.names.Nodup)

variable {s : Schema} {i j : Nat} {f g : Field} {name : String}

/-! ### Finding fields -/

theorem mem_names_of_getElem? (h : s.fields[i]? = some f) : f.name ∈ s.names :=
  List.mem_map_of_mem (List.mem_of_getElem? h)

/-- A field that is found has the name. -/
theorem exists_field_of_indexOf? (h : s.indexOf? name = some i) :
    ∃ f, s.fields[i]? = some f ∧ f.name = name := by
  obtain ⟨hlt, hname, -⟩ := List.findIdx?_eq_some_iff_getElem.mp h
  exact ⟨s.fields[i], List.getElem?_eq_getElem hlt, beq_iff_eq.mp hname⟩

theorem indexOf?_eq_none_iff : s.indexOf? name = none ↔ name ∉ s.names := by
  rw [indexOf?, List.findIdx?_eq_none_iff]
  simp [names]

theorem hasField_iff : s.hasField name = true ↔ name ∈ s.names := by
  rw [hasField, Option.isSome_iff_ne_none, ne_eq, indexOf?_eq_none_iff, not_not]

/-- Fields with the same name are at the same position. -/
theorem Proper.inj (hs : s.Proper) (hi : s.fields[i]? = some f) (hj : s.fields[j]? = some g)
    (h : f.name = g.name) : i = j := by
  have hi' : s.names[i]? = some f.name := by rw [names, List.getElem?_map, hi]; rfl
  have hj' : s.names[j]? = some f.name := by rw [names, List.getElem?_map, hj, h]; rfl
  obtain ⟨hlt, -⟩ := List.getElem?_eq_some_iff.mp hi'
  exact (List.getElem?_inj hlt hs).mp (hi'.trans hj'.symm)

theorem Proper.indexOf?_eq_some_iff (hs : s.Proper) :
    s.indexOf? name = some i ↔ ∃ f, s.fields[i]? = some f ∧ f.name = name := by
  refine ⟨exists_field_of_indexOf?, ?_⟩
  rintro ⟨f, hf, rfl⟩
  cases hj : s.indexOf? f.name with
  | none =>
    rw [indexOf?_eq_none_iff] at hj
    exact absurd (mem_names_of_getElem? hf) hj
  | some j =>
    obtain ⟨g, hg, hname⟩ := exists_field_of_indexOf? hj
    rw [hs.inj hg hf hname]

/-! ### Changing fields -/

theorem firstDuplicate?_eq_none_iff {seen names : List String} :
    firstDuplicate? seen names = none ↔ names.Nodup ∧ ∀ n ∈ names, n ∉ seen := by
  induction names generalizing seen with
  | nil => simp [firstDuplicate?]
  | cons n names ih =>
    rw [firstDuplicate?, List.nodup_cons, List.forall_mem_cons]
    split_ifs with hn
    · exact iff_of_false (by simp) fun h => h.2.1 hn
    · rw [ih]
      simp only [List.mem_cons, not_or]
      constructor
      · rintro ⟨hnodup, hseen⟩
        exact ⟨⟨fun hmem => (hseen n hmem).1 rfl, hnodup⟩, hn, fun m hm => (hseen m hm).2⟩
      · rintro ⟨⟨hnew, hnodup⟩, -, hseen⟩
        exact ⟨hnodup, fun m hm => ⟨fun heq => hnew (heq ▸ hm), hseen m hm⟩⟩

/-- A schema is made from fields exactly when their names are different. -/
theorem ofFields_eq_ok_iff {fields : List Field} :
    ofFields fields = .ok s ↔ s.Proper ∧ s = ⟨fields⟩ := by
  rw [ofFields]
  cases h : firstDuplicate? [] (fields.map (·.name)) with
  | none =>
    rw [firstDuplicate?_eq_none_iff] at h
    have hproper : Proper ⟨fields⟩ := h.1
    constructor
    · intro hs
      obtain rfl := Except.ok.inj hs
      exact ⟨hproper, rfl⟩
    · rintro ⟨-, rfl⟩
      rfl
  | some name =>
    refine iff_of_false (fun hs => nomatch hs) ?_
    rintro ⟨hproper, rfl⟩
    have hnone : firstDuplicate? [] (fields.map (·.name)) = none := by
      rw [firstDuplicate?_eq_none_iff]
      exact ⟨hproper, fun n _ => List.not_mem_nil⟩
    rw [hnone] at h
    cases h

theorem insertField_eq_ok_iff {t : Schema} :
    s.insertField i f = .ok t ↔
      i ≤ s.count ∧ f.name ∉ s.names ∧ t = ⟨s.fields.insertIdx i f⟩ := by
  simp only [insertField, hasField_iff]
  split_ifs with hi hname
  · simp [Nat.not_le.mpr hi]
  · simp [hname]
  · simp [Nat.not_lt.mp hi, hname, eq_comm]

theorem Proper.insertIdx (hs : s.Proper) (hi : i ≤ s.count) (hf : f.name ∉ s.names) :
    Proper ⟨s.fields.insertIdx i f⟩ := by
  have hperm : (names ⟨s.fields.insertIdx i f⟩).Perm (f.name :: s.names) :=
    (List.perm_insertIdx f s.fields hi).map _
  exact hperm.nodup_iff.mpr (List.nodup_cons.mpr ⟨hf, hs⟩)

theorem Proper.eraseIdx (hs : s.Proper) (i : Nat) : Proper ⟨s.fields.eraseIdx i⟩ :=
  List.Nodup.sublist ((List.eraseIdx_sublist s.fields i).map _) hs

/-- A field that was taken out leaves its name free. -/
theorem Proper.name_not_mem_eraseIdx (hs : s.Proper) (hi : s.fields[i]? = some f) :
    f.name ∉ names ⟨s.fields.eraseIdx i⟩ := by
  intro hmem
  obtain ⟨g, hg, hname⟩ := List.mem_map.mp hmem
  obtain ⟨j, hne, hj⟩ := List.mem_eraseIdx_iff_getElem?.mp hg
  exact hne (hs.inj hj hi hname)

/-- A field can be given a name that no other field has. -/
theorem Proper.rename (hs : s.Proper) (hi : s.fields[i]? = some f)
    (hname : name = f.name ∨ name ∉ s.names) : Proper ⟨s.fields.set i { f with name }⟩ := by
  obtain ⟨hlt, rfl⟩ := List.getElem?_eq_some_iff.mp hi
  rcases hname with rfl | hname
  · have hset : s.fields.set i s.fields[i] = s.fields := List.set_getElem_self hlt
    exact hset.symm ▸ hs
  · have hset : names ⟨s.fields.set i { s.fields[i] with name }⟩ = s.names.set i name :=
      List.map_set
    rw [Proper, hset]
    exact hs.set hname

/-- Renaming succeeds when no other field has the name. -/
theorem Proper.renameField_eq_ok (hs : s.Proper) (hi : s.fields[i]? = some f)
    (hname : name = f.name ∨ name ∉ s.names) :
    s.renameField i name = .ok (f.name, ⟨s.fields.set i { f with name }⟩) := by
  have hfield : s.field? i = some f := hi
  rw [renameField, hfield]
  rcases hname with rfl | hname
  · simp only [hs.indexOf?_eq_some_iff.mpr ⟨f, hi, rfl⟩, if_pos]
  · rw [← indexOf?_eq_none_iff] at hname
    simp only [hname]

end SpatialStore.Schema
