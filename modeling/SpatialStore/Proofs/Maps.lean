import Mathlib.Tactic.SplitIfs
import Std.Data.ExtTreeMap

/-!
# Maps

What a map has for a key after an insertion, a removal or a change. The order of the keys decides
where a map looks; as keys that compare as equal are equal, the results can be stated by equality.
-/

namespace SpatialStore.Maps

variable {α β : Type} [Ord α] [Std.TransOrd α] [Std.LawfulEqOrd α] [DecidableEq α]
  (m : Std.ExtTreeMap α β) (a k : α)

theorem getElem?_insert (v : β) : (m.insert a v)[k]? = if k = a then some v else m[k]? := by
  rw [Std.ExtTreeMap.getElem?_insert]
  simp only [Std.LawfulEqCmp.compare_eq_iff_eq, eq_comm (a := k)]

theorem getElem?_insertIfNew (v : β) :
    (m.insertIfNew a v)[k]? = if k = a then m[k]?.or (some v) else m[k]? := by
  rw [Std.ExtTreeMap.getElem?_insertIfNew]
  simp only [Std.LawfulEqCmp.compare_eq_iff_eq, eq_comm (a := k)]
  by_cases h : a = k
  · subst h
    by_cases hmem : a ∈ m <;> simp [hmem]
  · simp [h]

theorem getElem?_erase : (m.erase a)[k]? = if k = a then none else m[k]? := by
  rw [Std.ExtTreeMap.getElem?_erase]
  simp only [Std.LawfulEqCmp.compare_eq_iff_eq, eq_comm (a := k)]

theorem getElem?_modify (f : β → β) :
    (m.modify a f)[k]? = if k = a then m[k]?.map f else m[k]? := by
  rw [Std.ExtTreeMap.getElem?_modify]
  simp only [Std.LawfulEqCmp.compare_eq_iff_eq, eq_comm (a := k)]
  split_ifs with h
  · rw [h]
  · rfl

end SpatialStore.Maps
