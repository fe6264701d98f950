import SpatialStore.Index.Building
import SpatialStore.Index.Registry

/-!
# Databases

A database names the tables that queries can use, and keeps the indexes that stand on them. A name
stands for a source. Registering another source under the same name leaves the former one alone,
as sessions that were opened on it still write to it; so all sources are kept, and a name stands
for the position of one.
-/

namespace SpatialStore

/-- Sources, table names and standing indexes. -/
structure Database where
  settings : Settings
  /-- Every source that was ever registered. -/
  sources : List Source
  /-- Positions of the sources that table names stand for. -/
  tables : Std.ExtTreeMap String Nat
  indexes : IndexRegistry

namespace Database

def empty (settings : Settings) : Database := ⟨settings, [], ∅, .empty⟩

/-- The database with a source registered under its name. -/
def register (db : Database) (source : Source) : Database :=
  { db with
    sources := db.sources ++ [source]
    tables := db.tables.insert source.name db.sources.length }

/-- The registered names, in alphabetical order. -/
def tableNames (db : Database) : List String := db.tables.keys

/-- The source that a name stands for. -/
def source? (db : Database) (table : String) : Option Source :=
  db.tables[table]?.bind fun i => db.sources[i]?

/-- The database with another source at a position. -/
def setSource (db : Database) (i : Nat) (source : Source) : Database :=
  { db with sources := db.sources.set i source }

/-- The database with a changed source for a name. -/
def modifySource (db : Database) (table : String) (f : Source → Source) : Database :=
  match db.tables[table]? with
  | none => db
  | some i => { db with sources := db.sources.modify i f }

/-- Number of rows of a table; a name that is not registered has none. -/
def rowCount (db : Database) (table : String) : Except SourceError (Option Nat) :=
  match db.source? table with
  | none => .ok none
  | some source => source.rowCount.map some

/-- Build the index of a field, asking `cancelled` at every poll. The fractions reported on the
way come with the result. -/
def buildIndex (db : Database) (table field : String) (kind : IndexKind)
    (cancelled : Nat → Bool) : List Float × Except IndexError Database :=
  match db.source? table with
  | none => ([], .error (.sourceUnreadable table "table is not registered"))
  | some source =>
    let outcome := IndexBuild.run db.settings.nodes table source field kind cancelled
    (outcome.reports, outcome.result.map fun index =>
      { db with indexes := db.indexes.put table field index })

/-- The database without the index of a field. -/
def dropIndex (db : Database) (table field : String) : Database :=
  { db with indexes := db.indexes.drop table field }

end Database

end SpatialStore
