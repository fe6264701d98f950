import SpatialStore.Proofs.Editing.Unindexed

/-!
# Sessions through their lives

A session is opened, used and closed any number of times, while other things happen to its database
(`EditSession.Lives`). As long as these leave its source proper, the session is `Steady`: whenever
it is open, its workspace without the indexes is sound. Nothing is assumed of the indexes that
stand, which may be built and dropped by others at any time.
-/

namespace SpatialStore

/-- The source at a position is proper. -/
def Database.HoldsProper (db : Database) (i : Nat) : Prop :=
  ∃ source, db.sources[i]? = some source ∧ source.Proper

/-- A workspace that was just opened on the rows of a proper source is sound without its indexes. -/
theorem Source.Proper.sound_unindexed {source : Source} (h : source.Proper)
    (standing : TableIndexes) :
    (Workspace.ofRows source.schema source.rows standing).unindexed.Sound := by
  have hempty : (Workspace.ofRows source.schema source.rows ∅).Sound :=
    Workspace.sound_ofRows h.schema h.width fun _ hindex => by
      rw [Std.ExtTreeMap.getElem?_empty] at hindex
      cases hindex
  have hindexes : (∅ : TableIndexes).filter (fun name _ => source.schema.hasField name) = ∅ :=
    Std.ExtTreeMap.filter_eq_empty_iff.mpr (by simp)
  have hcopy : (Workspace.ofRows source.schema source.rows ∅).copy =
      (Workspace.ofRows source.schema source.rows standing).unindexed.copy :=
    congrArg (WorkingCopy.mk _ _ _) hindexes
  obtain ⟨hfresh, hpast, hfuture, hrows, hedits⟩ := hempty
  rw [hcopy] at *
  exact ⟨hfresh, hpast, hfuture, hrows, hedits⟩

namespace EditSession

variable {name : String} {i : Nat} {db db' : Database} {e f : EditSession} {w : Workspace}
  {op : EditRequest} {reply : EditReply}

/-- A session on a source, from its creation on, with its database: whatever is asked of it, and
whatever else happens to the database, as long as the source stays proper. -/
inductive Lives (name : String) (i : Nat) : Database → EditSession → Prop
  | create {db : Database} : db.HoldsProper i → Lives name i db (create name i)
  | perform {db : Database} {e : EditSession} (op : EditRequest) : Lives name i db e →
      Lives name i (e.perform db op).1 (e.perform db op).2.1
  | meanwhile {db db' : Database} {e : EditSession} : Lives name i db e → db'.HoldsProper i →
      Lives name i db' e

/-- What holds of a session all its life. -/
structure Steady (name : String) (i : Nat) (db : Database) (e : EditSession) : Prop where
  name : e.name = name
  source : e.source = i
  proper : db.HoldsProper i
  sound : ∀ {w : Workspace}, e.workspace? = some w → w.unindexed.Sound

theorem Steady.run (he : Steady name i db e) (h : e.run db op = .ok (db', f, reply)) :
    Steady name i db' f := by
  obtain ⟨hname, hsource, hdb⟩ := run_eq_ok h
  refine ⟨hname.trans he.name, hsource.trans he.source, ?_, fun {w'} hw' => ?_⟩
  · rcases hdb with rfl | ⟨-, w, hw, -, hwrite⟩
    · exact he.proper
    · obtain ⟨former, hformer, rfl⟩ := write_eq_ok hwrite
      have hproper := (he.sound hw).fresh.proper
      rw [he.source] at hformer ⊢
      obtain ⟨hlt, -⟩ := List.getElem?_eq_some_iff.mp hformer
      refine ⟨_, List.getElem?_set_self hlt, hproper.schema, fun row hrow => ?_⟩
      obtain ⟨r, hr, rfl⟩ := List.mem_map.mp hrow
      exact hproper.width r hr
  · cases hw : e.workspace? with
    | none =>
      obtain rfl : op = .begin := by
        by_contra hop
        cases (run_of_closed hw hop).symm.trans h
      obtain ⟨g, hg, h⟩ := Result.bind_eq_ok.mp h
      cases h
      obtain ⟨source, -, hstored, rfl⟩ := begin_eq_ok hg
      obtain ⟨source', hstored', hproper⟩ := he.proper
      rw [he.source] at hstored
      obtain rfl := Option.some.inj (hstored.symm.trans hstored')
      cases hw'
      exact hproper.sound_unindexed _
    | some w =>
      obtain ⟨v, rfl, hv⟩ := step_unindexed hw (he.sound hw) h (Option.isSome_of_mem hw')
      cases hw'
      rcases hv with hv | hv
      · exact hv ▸ he.sound hw
      · exact (he.sound hw).step hv

theorem Steady.perform (he : Steady name i db e) (op : EditRequest) :
    Steady name i (e.perform db op).1 (e.perform db op).2.1 := by
  rw [EditSession.perform]
  cases hrun : e.run db op with
  | error err => exact he
  | ok result => exact he.run hrun

theorem Lives.steady (h : Lives name i db e) : Steady name i db e := by
  induction h with
  | create hproper => exact ⟨rfl, rfl, hproper, fun hw => nomatch hw⟩
  | perform op _ ih => exact ih.perform op
  | meanwhile _ hproper ih => exact ⟨ih.name, ih.source, hproper, ih.sound⟩

/-- A commit that is refused by the source stores the workspace when it is repeated, in whatever
database, as soon as the source is switched on. -/
theorem Steady.exists_commit {err : SourceError} (he : Steady name i db e)
    (h : e.commit db = .error (.storage err)) :
    ∃ w, e.workspace? = some w ∧ ∀ {db' : Database} {former : Source},
      db'.sources[e.source]? = some former → former.available = true →
        ∃ d, e.commit db' = .ok (d, { e with state := .committed }) ∧ d.sources[e.source]? = some
          { former with
            schema := w.copy.schema, rows := w.copy.values, writes := former.writes + 1 } := by
  obtain hclosed | ⟨w, hw, hmodified, hwrite⟩ := commit_eq_error h
  · cases hclosed
  refine ⟨w, hw, fun {db' former} hformer havailable => ?_⟩
  -- the rows are as wide as the schema, so nothing but the source has stood in the way
  have hwidth : ∀ row ∈ w.copy.values, row.length = w.copy.schema.count :=
    List.forall_mem_map.mpr (he.sound hw).fresh.proper.width
  obtain ⟨d, hd⟩ : ∃ d, write db' e.name e.source w = .ok d :=
    exists_write (firstViolation?_of_write hwrite) hwidth hformer havailable
  refine ⟨d, commit_of_write hw hmodified hd, ?_⟩
  obtain ⟨former', hformer', rfl⟩ := write_eq_ok hd
  obtain rfl := Option.some.inj (hformer.symm.trans hformer')
  obtain ⟨hlt, -⟩ := List.getElem?_eq_some_iff.mp hformer
  exact List.getElem?_set_self hlt

end EditSession

end SpatialStore
