import SpatialStore.Proofs.Editing.Session

/-!
# What holds of every view of a history

Undoing and redoing only bring back views that a workspace had before. So a property that every
view has when it comes about by an edit holds of every view that ever comes back
(`Workspace.Throughout.step`), even if the edits alone would not tell: a row that was deleted, or a
column with its index, is put back as it was recorded.
-/

namespace SpatialStore

open WorkingCopy (View)

/-- Edits lead from one view to another, the first one first, through proper views that all have a
property. -/
inductive Passes (P : View → Prop) : View → List Edit → View → Prop
  | nil {x : View} : P x → Passes P x [] x
  | cons {x y z : View} {e : Edit} {es : List Edit} : P x → x.Proper → e.Leads x y →
      Passes P y es z → Passes P x (e :: es) z

section Passes

variable {P : View → Prop} {x y z : View} {e : Edit} {es : List Edit}

theorem Passes.source (h : Passes P x es y) : P x := by
  cases h with
  | nil hx => exact hx
  | cons hx => exact hx

theorem Passes.target (h : Passes P x es y) : P y := by
  induction h with
  | nil hx => exact hx
  | cons _ _ _ _ ih => exact ih

theorem Passes.concat (h : Passes P x es y) (hy : y.Proper) (hlead : e.Leads y z) (hz : P z) :
    Passes P x (es ++ [e]) z := by
  induction h with
  | nil hx => exact .cons hx hy hlead (.nil hz)
  | cons hx hproper hlead' _ ih => exact .cons hx hproper hlead' (ih hy hlead)

/-- The view before the last edit. -/
theorem Passes.exists_last (h : Passes P x (es ++ [e]) z) :
    ∃ y, Passes P x es y ∧ y.Proper ∧ e.Leads y z := by
  induction es generalizing x with
  | nil =>
    obtain _ | ⟨hx, hproper, hlead, _ | _⟩ := h
    exact ⟨x, .nil hx, hproper, hlead⟩
  | cons d es ih =>
    obtain _ | ⟨hx, hproper, hlead, h⟩ := h
    obtain ⟨y, h, hy⟩ := ih h
    exact ⟨y, .cons hx hproper hlead h, hy⟩

end Passes

namespace Workspace

variable {P : View → Prop} {w w' : Workspace}

/-- The present view and all that can be reached from it by undoing and redoing have a property. -/
structure Throughout (P : View → Prop) (w : Workspace) : Prop where
  past : ∃ x, Passes P x w.undo.reverse w.copy.view
  future : ∃ y, Passes P w.copy.view w.redo y

theorem Throughout.present (ht : w.Throughout P) : P w.copy.view := by
  obtain ⟨x, hx⟩ := ht.past
  exact hx.target

/-- A workspace that was just opened has no other view. -/
theorem throughout_ofRows {schema : Schema} {rows : List Row} {standing : TableIndexes}
    (h : P (ofRows schema rows standing).copy.view) :
    (ofRows schema rows standing).Throughout P :=
  ⟨⟨_, .nil h⟩, ⟨_, .nil h⟩⟩

/-- A step keeps a property of all views if edits lead to views that have it. -/
theorem Throughout.step (ht : w.Throughout P) (hw : w.Sound) (h : w.Step w')
    (hedit : ∀ {e : Edit}, w.Performs e w' → P w'.copy.view) : w'.Throughout P := by
  obtain ⟨⟨x, hpast⟩, ⟨y, hfuture⟩⟩ := ht
  cases h with
  | edit hperforms =>
    have hview := hedit hperforms
    refine ⟨⟨x, ?_⟩, ⟨w'.copy.view, ?_⟩⟩
    · rw [hperforms.undo, List.reverse_cons]
      exact hpast.concat hw.fresh.proper hperforms.leads hview
    · rw [hperforms.redo]
      exact .nil hview
  | undo h =>
    obtain ⟨e, _, -, hundo, -⟩ := undoLast_eq_some h
    rw [hundo, List.reverse_cons] at hpast
    -- the view before the latest edit comes back
    obtain ⟨z, hpast, hz, hlead⟩ := hpast.exists_last
    obtain ⟨v, hv, -, rfl, hundo', hredo⟩ := hw.undoLast hundo hz hlead
    cases h.symm.trans hv
    refine ⟨⟨x, hpast⟩, ⟨y, ?_⟩⟩
    rw [hredo]
    exact .cons hpast.target hz hlead hfuture
  | redo h =>
    obtain ⟨e, _, -, hredo, -⟩ := redoLast_eq_some h
    rw [hredo] at hfuture
    obtain _ | ⟨-, -, hlead, hfuture'⟩ := hfuture
    obtain ⟨v, hv, -, rfl, hundo, hredo'⟩ := hw.redoLast hredo hlead
    cases h.symm.trans hv
    refine ⟨⟨x, ?_⟩, ⟨y, hfuture'⟩⟩
    rw [hundo, List.reverse_cons]
    exact hpast.concat hw.fresh.proper hlead hfuture'.source

end Workspace

namespace EditSession

variable {db db' : Database} {e f : EditSession} {w' : Workspace} {op : EditRequest}
  {reply : EditReply}

/-- The workspace that an answered request leaves was just opened, or was there before, or is a step
on from it. -/
theorem workspace_cases (hsound : ∀ w ∈ e.workspace?, w.Sound)
    (h : e.run db op = .ok (db', f, reply)) (hw' : f.workspace? = some w') :
    (∃ source, db.sources[e.source]? = some source ∧ e.begin db = .ok f ∧
      w' = .ofRows source.schema source.rows (db.indexes.ofTable e.name)) ∨
    ∃ w, e.workspace? = some w ∧ (w' = w ∨ w.Step w') := by
  cases hw : e.workspace? with
  | none =>
    obtain rfl : op = .begin := by
      by_contra hop
      cases (run_of_closed hw hop).symm.trans h
    obtain ⟨g, hg, h⟩ := Result.bind_eq_ok.mp h
    cases h
    obtain ⟨source, -, hstored, rfl⟩ := begin_eq_ok hg
    exact .inl ⟨source, hstored, hg, (Option.some.inj hw').symm⟩
  | some w =>
    obtain rfl | ⟨v, rfl, hstep⟩ := run_cases hw (hsound w hw) h (Option.isSome_of_mem hw')
    · exact .inr ⟨w, rfl, .inl (Option.some.inj (hw'.symm.trans hw))⟩
    · exact .inr ⟨w, rfl, .inr (Option.some.inj hw' ▸ hstep)⟩

end EditSession

end SpatialStore
