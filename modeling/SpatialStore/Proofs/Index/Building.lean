import SpatialStore.Index.InPlace
import SpatialStore.Proofs.Atomic
import SpatialStore.Proofs.Query.Standing

/-!
# Building an index in place

A build in place does what `IndexBuild.run` says (`run_carryOut`), so that a database answers as the
build does that works on its registry (`buildIndex_eq`). The registry is only touched when nothing
can fail any more.

Row `n` is preceded by a poll if `n` is a multiple of the interval, so that poll number `k` comes
before row `k * interval`. As long as the answer is no, every poll is followed by one report
(`quiet`); the first yes is the last thing that passes between the build and its monitor. What has
passed before the first `n` rows are in is found by induction on the rows from the end
(`run_rows_quiet`), and a build that is stopped is one over the rows before the poll, followed by
that poll (`run_rows_stopped`).
-/

namespace SpatialStore.IndexBuild

open MonadExcept (ofExcept)

variable {settings : NodeSettings} {table field : String} {source : Source} {kind : IndexKind}
  {total column : Nat} {index : ColumnIndex} {rows : List Row} {answers : Nat → Bool}
  {r : IndexRegistry}

/-! ### One row -/

/-- An index after a row. -/
def extended (column : Nat) (index : ColumnIndex) (r : Row × Nat) : ColumnIndex :=
  match r.1[column]? with
  | some v => index.insert r.2 v
  | none => index

namespace Site

/-- After a poll. -/
def polled (s : Site) (row : Nat) (stop : Bool) : Site :=
  { s with polls := s.polls + 1, events := s.events ++ [.poll row stop] }

/-- After a report. -/
def told (s : Site) (fraction : Float) : Site :=
  { s with events := s.events ++ [.report fraction] }

@[simp]
theorem reports_polled (s : Site) (row : Nat) (stop : Bool) :
    (s.polled row stop).reports = s.reports := by
  simp [reports, polled]

@[simp]
theorem reports_told (s : Site) (fraction : Float) :
    (s.told fraction).reports = s.reports ++ [fraction] := by
  simp [reports, told]

end Site

theorem run_extended (r : Row × Nat) (s : Site) :
    (match r.1[column]? with
      | some v => return index.insert r.2 v
      | none => return index : Action ColumnIndex).run s = .ok (extended column index r) s := by
  rw [extended]
  cases r.1[column]? <;> rfl

variable {row : Row} {n : Nat} {s : Site}

/-- Most rows are put in without a poll. -/
theorem run_addRow_of_not_poll (hn : n % interval ≠ 0) :
    (addRow table field total column index (row, n)).run s =
      .ok (extended column index (row, n)) s := by
  rw [addRow, if_neg hn]
  exact run_extended (row, n) s

/-- A row before which the answer is no is reported and put in. -/
theorem run_addRow_of_continue (hn : n % interval = 0) (hs : s.answers s.polls = false) :
    (addRow table field total column index (row, n)).run s =
      .ok (extended column index (row, n)) ((s.polled n false).told (fraction total n)) := by
  have hpoll : (poll n).run s = .ok false (s.polled n false) := by
    rw [← hs]
    rfl
  rw [addRow, if_pos hn, run_bind_ok hpoll]
  exact run_extended (row, n) _

/-- A row before which the answer is yes is not put in, and nothing is reported. -/
theorem run_addRow_of_stop (hn : n % interval = 0) (hs : s.answers s.polls = true) :
    (addRow table field total column index (row, n)).run s =
      .error (.cancelled table field) (s.polled n true) := by
  have hpoll : (poll n).run s = .ok true (s.polled n true) := by
    rw [← hs]
    rfl
  rw [addRow, if_pos hn, run_bind_ok hpoll]
  rfl

/-! ### Agreement with the build that keeps nothing -/

/-- The number of polls before the first `n` rows are in. -/
def pollsBefore (n : Nat) : Nat := (n + interval - 1) / interval

theorem pollsBefore_succ_of_poll (hn : n % interval = 0) :
    pollsBefore n = n / interval ∧ pollsBefore (n + 1) = n / interval + 1 := by
  rw [pollsBefore, pollsBefore]
  rw [interval] at *
  omega

theorem pollsBefore_succ_of_not_poll (hn : n % interval ≠ 0) :
    pollsBefore (n + 1) = pollsBefore n := by
  rw [pollsBefore, pollsBefore]
  rw [interval] at *
  omega

/-- Row by row, the build in place reports and inserts what `fill` does. -/
theorem fill_eq (table field : String) (total column : Nat) (rows : List Row) (i : Nat)
    (index : ColumnIndex) (s : Site) (hpolls : s.polls = pollsBefore i) :
    match ((rows.zipIdx i).foldlM (addRow table field total column) index).run s with
    | .ok built t =>
      t.registry = s.registry ∧
        fill s.answers total column s.reports index i rows = (t.reports ++ [1], some built)
    | .error e t =>
      t.registry = s.registry ∧ e = .cancelled table field ∧
        fill s.answers total column s.reports index i rows = (t.reports, none) := by
  induction rows generalizing i index s with
  | nil => exact ⟨rfl, rfl⟩
  | cons row rows ih =>
    have hfill : fill s.answers total column s.reports index i (row :: rows) =
        if i % interval = 0 then
          if s.answers (i / interval) = true then (s.reports, none)
          else fill s.answers total column (s.reports ++ [fraction total i])
            (extended column index (row, i)) (i + 1) rows
        else fill s.answers total column s.reports (extended column index (row, i)) (i + 1)
          rows := rfl
    rw [List.zipIdx_cons, List.foldlM_cons, hfill]
    by_cases hi : i % interval = 0
    · obtain ⟨hnumber, hnext⟩ := pollsBefore_succ_of_poll hi
      rw [if_pos hi]
      cases hstop : s.answers (i / interval) with
      | true =>
        rw [← hnumber, ← hpolls] at hstop
        rw [run_bind_error (run_addRow_of_stop hi hstop), if_pos rfl]
        exact ⟨rfl, rfl, by rw [Site.reports_polled]⟩
      | false =>
        rw [← hnumber, ← hpolls] at hstop
        rw [run_bind_ok (run_addRow_of_continue hi hstop), if_neg Bool.false_ne_true,
          ← Site.reports_polled s i false, ← Site.reports_told]
        refine ih (i + 1) _ _ ?_
        rw [hnext, ← hnumber, ← hpolls]
        rfl
    · rw [run_bind_ok (run_addRow_of_not_poll hi), if_neg hi]
      exact ih (i + 1) _ s (hpolls.trans (pollsBefore_succ_of_not_poll hi).symm)

/-- A source whose field can have an index of some kind. -/
structure Buildable (source : Source) (field : String) (kind : IndexKind) : Prop where
  available : source.available = true
  supported : ∃ column f, source.schema.find? field = some (column, f) ∧
    kind.supports f.type = true

/-- Once the source is read, only the rows are left to be put in. -/
theorem Buildable.carryOut_eq (h : Buildable source field kind) (settings : NodeSettings)
    (table : String) (answers : Nat → Bool) :
    ∃ column : Nat,
      carryOut settings table source field kind =
        addRows settings table field kind column source.rows ∧
      ∀ reports built, fill answers source.rows.length column [] (.empty field kind settings) 0
          source.rows = (reports, built) →
        run settings table source field kind answers =
          ⟨reports, built.elim (.error (.cancelled table field)) .ok⟩ := by
  obtain ⟨column, f, hfind, hsupports⟩ := h.supported
  have hschema : source.readSchema = .ok source.schema := if_pos h.available
  have hrows : source.readRows = .ok source.rows := if_pos h.available
  refine ⟨column, ?_, ?_⟩
  · simp [carryOut, hschema, hrows, Except.mapError, ofExcept, hfind, hsupports]
  · intro reports built hfill
    cases built <;> simp [run, hschema, hrows, hfind, hsupports, hfill]

/-- What cannot be built is refused before the monitor hears of it. -/
theorem run_carryOut_of_not_buildable (h : ¬ Buildable source field kind)
    (settings : NodeSettings) (table : String) (answers : Nat → Bool) (s : Site) :
    ∃ e, (carryOut settings table source field kind).run s = .error e s ∧
      run settings table source field kind answers = ⟨[], .error e⟩ := by
  by_cases havailable : source.available = true
  · have hschema : source.readSchema = .ok source.schema := if_pos havailable
    cases hfind : source.schema.find? field with
    | none =>
      refine ⟨.fieldNotFound table field, ?_, ?_⟩
      · simp [carryOut, hschema, Except.mapError, ofExcept, hfind]
      · simp [run, hschema, hfind]
    | some found =>
      obtain ⟨column, f⟩ := found
      have hsupports : kind.supports f.type = false :=
        Bool.eq_false_of_not_eq_true fun hsupports => h ⟨havailable, column, f, hfind, hsupports⟩
      refine ⟨.incompatibleField table field kind f.type, ?_, ?_⟩
      · simp [carryOut, hschema, Except.mapError, ofExcept, hfind, hsupports]
      · simp [run, hschema, hfind, hsupports]
  · have hschema : source.readSchema = .error (.unavailable source.name) := if_neg havailable
    refine ⟨.sourceUnreadable table (SourceError.unavailable source.name).message, ?_, ?_⟩
    · simp only [carryOut, hschema, Except.mapError, ofExcept]
      rfl
    · simp only [run, hschema]

/-- A build in place comes to the result of `run` and reports the same on the way. The registry has
the new index if there is one, and is left alone otherwise. -/
theorem run_carryOut (settings : NodeSettings) (table : String) (source : Source) (field : String)
    (kind : IndexKind) (r : IndexRegistry) (answers : Nat → Bool) :
    match (carryOut settings table source field kind).run (.start r answers) with
    | .ok _ s => ∃ index, s.registry = r.put table field index ∧
        run settings table source field kind answers = ⟨s.reports, .ok index⟩
    | .error e s => s.registry = r ∧
        run settings table source field kind answers = ⟨s.reports, .error e⟩ := by
  by_cases h : Buildable source field kind
  · obtain ⟨column, hcarryOut, hrun⟩ := h.carryOut_eq settings table answers
    have hfill := fill_eq table field source.rows.length column source.rows 0
      (.empty field kind settings) (.start r answers) rfl
    have hstart : (Site.start r answers).answers = answers := rfl
    have hreports : (Site.start r answers).reports = [] := rfl
    rw [hstart, hreports] at hfill
    rw [hcarryOut, addRows]
    cases hrows : (source.rows.zipIdx.foldlM (addRow table field source.rows.length column)
        (.empty field kind settings)).run (.start r answers) with
    | ok index s =>
      rw [hrows] at hfill
      obtain ⟨hregistry, hfill⟩ := hfill
      rw [← Site.reports_told] at hfill
      rw [run_bind_ok hrows]
      exact ⟨index, congrArg (·.put table field index) hregistry, hrun _ _ hfill⟩
    | error e s =>
      rw [hrows] at hfill
      obtain ⟨hregistry, rfl, hfill⟩ := hfill
      rw [run_bind_error hrows]
      exact ⟨hregistry, hrun _ _ hfill⟩
  · obtain ⟨e, hcarryOut, hrun⟩ := run_carryOut_of_not_buildable h settings table answers
      (.start r answers)
    rw [hcarryOut]
    exact ⟨rfl, hrun⟩

/-- What a database answers to a build, and what it is afterwards, is what the build in place leaves
behind. -/
theorem buildIndex_eq {db : Database} (hsource : db.source? table = some source) :
    db.buildIndex table field kind answers =
      match (carryOut db.settings.nodes table source field kind).run
        (.start db.indexes answers) with
      | .ok _ s => (s.reports, .ok { db with indexes := s.registry })
      | .error e s => (s.reports, .error e) := by
  have hrun := run_carryOut db.settings.nodes table source field kind db.indexes answers
  rw [Database.buildIndex, hsource]
  dsimp only
  cases hoc : (carryOut db.settings.nodes table source field kind).run
      (.start db.indexes answers) with
  | ok _ s =>
    rw [hoc] at hrun
    obtain ⟨index, hregistry, hrun⟩ := hrun
    rw [hrun]
    dsimp only
    rw [hregistry]
    rfl
  | error e s =>
    rw [hoc] at hrun
    rw [hrun.2]
    rfl

/-! ### Polls and reports -/

/-- What passes between a build and its monitor before a row, as long as the answer is no. -/
def quiet (total n : Nat) : List Event :=
  ((List.range n).filter fun row => row % interval = 0).flatMap fun row =>
    [.poll row false, .report (fraction total row)]

theorem quiet_succ_of_poll (hn : n % interval = 0) :
    quiet total (n + 1) = quiet total n ++ [.poll n false, .report (fraction total n)] := by
  simp [quiet, List.range_succ, hn]

theorem quiet_succ_of_not_poll (hn : n % interval ≠ 0) : quiet total (n + 1) = quiet total n := by
  simp [quiet, List.range_succ, hn]

/-- As long as no poll is answered with yes, all rows are put in. -/
theorem run_rows_quiet (hquiet : ∀ k, k * interval < rows.length → answers k = false) :
    (rows.zipIdx.foldlM (addRow table field total column) index).run (.start r answers) =
      .ok (rows.zipIdx.foldl (extended column) index)
        ⟨r, answers, pollsBefore rows.length, quiet total rows.length⟩ := by
  induction rows using List.reverseRecOn with
  | nil => rfl
  | append_singleton rows row ih =>
    have hlength : (rows ++ [row]).length = rows.length + 1 := by simp
    rw [hlength] at hquiet ⊢
    have hbefore := ih fun k hk => hquiet k (by omega)
    rw [List.zipIdx_append, List.foldlM_append, List.foldl_append, run_bind_ok hbefore,
      Nat.zero_add, List.zipIdx_singleton, List.foldlM_cons]
    by_cases hrow : rows.length % interval = 0
    · obtain ⟨hnumber, hnext⟩ := pollsBefore_succ_of_poll hrow
      have hanswer : answers (pollsBefore rows.length) = false := by
        refine hquiet _ ?_
        rw [hnumber, Nat.div_mul_cancel (Nat.dvd_of_mod_eq_zero hrow)]
        omega
      rw [run_bind_ok (run_addRow_of_continue hrow hanswer), hnext, ← hnumber,
        quiet_succ_of_poll hrow]
      simp [Site.polled, Site.told]
    · rw [run_bind_ok (run_addRow_of_not_poll hrow), pollsBefore_succ_of_not_poll hrow,
        quiet_succ_of_not_poll hrow]
      rfl

/-- The first poll that is answered with yes stops the build. -/
theorem run_rows_stopped {k : Nat} (hk : k * interval < rows.length) (hstop : answers k = true)
    (hquiet : ∀ j < k, answers j = false) :
    (rows.zipIdx.foldlM (addRow table field total column) index).run (.start r answers) =
      .error (.cancelled table field)
        ⟨r, answers, k + 1, quiet total (k * interval) ++ [.poll (k * interval) true]⟩ := by
  -- the rows before the poll, the row that it comes before, and the rows after
  have hsplit := List.take_append_drop (k * interval) rows
  rw [List.drop_eq_getElem_cons hk] at hsplit
  have hlength : (rows.take (k * interval)).length = k * interval := by
    rw [List.length_take, Nat.min_eq_left (by omega)]
  have hpolls : pollsBefore (k * interval) = k := by
    rw [pollsBefore, interval]
    omega
  have hbefore : ∀ j, j * interval < (rows.take (k * interval)).length → answers j = false := by
    intro j hj
    rw [hlength, interval] at hj
    exact hquiet j (by omega)
  have hstopped (built : ColumnIndex) :
      (addRow table field total column built (rows[k * interval], k * interval)).run
          ⟨r, answers, k, quiet total (k * interval)⟩ =
        .error (.cancelled table field)
          ⟨r, answers, k + 1, quiet total (k * interval) ++ [.poll (k * interval) true]⟩ :=
    run_addRow_of_stop (Nat.mul_mod_left k interval) hstop
  rw [← hsplit, List.zipIdx_append, hlength, Nat.zero_add, List.zipIdx_cons, List.foldlM_append,
    run_bind_ok (run_rows_quiet hbefore), hlength, hpolls, List.foldlM_cons,
    run_bind_error (hstopped _)]

/-! ### All or nothing -/

/-- How a build comes out that starts with some registry and a monitor that gives some answers. -/
structure AllOrNothing (table : String) (source : Source) (field : String) (kind : IndexKind)
    (r : IndexRegistry) (answers : Nat → Bool) (outcome : EStateM.Result IndexError Site Unit) :
    Prop where
  /-- A build that fails leaves the registry alone. -/
  failed : ∀ (e : IndexError) (s : Site), outcome = .error e s → s.registry = r
  /-- A build that succeeds changes the registry at the field and nowhere else. The index that is
  found there has the entries of the rows, numbered by position. -/
  succeeded : ∀ s : Site, outcome = .ok () s → ∃ (column : Nat) (index : ColumnIndex),
    source.schema.indexOf? field = some column ∧ index.field = field ∧ index.kind = kind ∧
      index.Intact ∧
      index.entries = IndexEntry.ofValues kind (ColumnIndex.column source.rows column) ∧
      ∀ t f : String, s.registry.get? t f =
        if t = table ∧ f = field then some index else r.get? t f
  /-- A build that is not possible fails before the monitor hears of it. -/
  refused : ¬ Buildable source field kind → ∃ e, outcome = .error e (.start r answers)
  /-- The monitor is asked before every 1024th row, and nothing but a yes cancels a build that is
  possible. -/
  cancelled_iff : Buildable source field kind →
    ((∃ s, outcome = .error (.cancelled table field) s) ↔
      ∃ k, k * 1024 < source.rows.length ∧ answers k = true)
  /-- Nothing passes between the build and the monitor after the first yes. -/
  stopped : Buildable source field kind → ∀ k, k * 1024 < source.rows.length →
    answers k = true → (∀ j < k, answers j = false) →
      ∃ s, outcome = .error (.cancelled table field) s ∧
        s.events = quiet source.rows.length (k * 1024) ++ [.poll (k * 1024) true]
  /-- Without a yes, every poll is followed by a report, and the last report is 1. -/
  completed : Buildable source field kind →
    (∀ k, k * 1024 < source.rows.length → answers k = false) →
      ∃ s, outcome = .ok () s ∧
        s.events = quiet source.rows.length source.rows.length ++ [.report 1]

variable (settings table r)

theorem Buildable.run_stopped (h : Buildable source field kind) {k : Nat}
    (hk : k * interval < source.rows.length) (hstop : answers k = true)
    (hquiet : ∀ j < k, answers j = false) :
    ∃ s, (carryOut settings table source field kind).run (.start r answers) =
        .error (.cancelled table field) s ∧
      s.events = quiet source.rows.length (k * interval) ++ [.poll (k * interval) true] := by
  obtain ⟨column, hcarryOut, -⟩ := h.carryOut_eq settings table answers
  rw [hcarryOut, addRows, run_bind_error (run_rows_stopped hk hstop hquiet)]
  exact ⟨_, rfl, rfl⟩

theorem Buildable.run_completed (h : Buildable source field kind)
    (hquiet : ∀ k, k * interval < source.rows.length → answers k = false) :
    ∃ s, (carryOut settings table source field kind).run (.start r answers) = .ok () s ∧
      s.events = quiet source.rows.length source.rows.length ++ [.report 1] := by
  obtain ⟨column, hcarryOut, -⟩ := h.carryOut_eq settings table answers
  rw [hcarryOut, addRows, run_bind_ok (run_rows_quiet hquiet)]
  exact ⟨_, rfl, rfl⟩

/-- Whatever the monitor answers, a build puts the whole index into the registry or nothing. -/
theorem carryOut_all_or_nothing (settings : NodeSettings) (table : String) (source : Source)
    (field : String) (kind : IndexKind) (r : IndexRegistry) (answers : Nat → Bool) :
    AllOrNothing table source field kind r answers
      ((carryOut settings table source field kind).run (.start r answers)) where
  failed e s hfailed := by
    have hrun := run_carryOut settings table source field kind r answers
    rw [hfailed] at hrun
    exact hrun.1
  succeeded s hsucceeded := by
    have hrun := run_carryOut settings table source field kind r answers
    rw [hsucceeded] at hrun
    obtain ⟨index, hregistry, hrun⟩ := hrun
    obtain ⟨column, f, hcolumn, -, -, rfl⟩ := run_eq_ok (congrArg Outcome.result hrun)
    have hnodup := ColumnIndex.nodup_column source.rows column
    obtain ⟨hholds, hfield, hkind⟩ := ColumnIndex.holds_build field kind settings hnodup
    have hentries := hholds.entries_eq (ColumnIndex.ascending_column source.rows column)
    rw [hkind] at hentries
    refine ⟨column, _, hcolumn, hfield, hkind, ColumnIndex.intact_build _ _ _ hnodup, hentries, ?_⟩
    intro t f
    rw [hregistry, IndexRegistry.get?_put]
  refused h := by
    obtain ⟨e, hrefused, -⟩ := run_carryOut_of_not_buildable h settings table answers
      (.start r answers)
    exact ⟨e, hrefused⟩
  cancelled_iff h := by
    constructor
    · rintro ⟨s, hcancelled⟩
      by_contra hnone
      have hquiet : ∀ k, k * 1024 < source.rows.length → answers k = false := by
        simpa using hnone
      obtain ⟨t, hok, -⟩ := h.run_completed settings table r hquiet
      cases hok.symm.trans hcancelled
    · intro hyes
      obtain ⟨k, ⟨hk, hstop⟩, hfirst⟩ : ∃ k, (k * 1024 < source.rows.length ∧ answers k = true) ∧
          ∀ j < k, ¬ (j * 1024 < source.rows.length ∧ answers j = true) :=
        ⟨Nat.find hyes, Nat.find_spec hyes, fun _ => Nat.find_min hyes⟩
      -- every poll before the first yes comes before one of the rows
      have hquiet : ∀ j < k, answers j = false := by
        intro j hj
        have hrow : j * 1024 < source.rows.length :=
          (Nat.mul_le_mul_right 1024 hj.le).trans_lt hk
        simpa [hrow] using hfirst j hj
      obtain ⟨s, hcancelled, -⟩ := h.run_stopped settings table r hk hstop hquiet
      exact ⟨s, hcancelled⟩
  stopped h _ hk hstop hquiet := h.run_stopped settings table r hk hstop hquiet
  completed h hquiet := h.run_completed settings table r hquiet

end SpatialStore.IndexBuild
