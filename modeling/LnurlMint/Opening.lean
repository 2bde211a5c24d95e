import LnurlMint.Lib.Sql
import LnurlMint.Ownership

/-!
# Opening an old database

There is no migration mechanism beyond the statements that `NoteStore.conn` runs each time it opens
a database: create the tables that are missing, give the columns that were renamed their new names,
add the columns that are missing, and accept the key of every share on file. They run in that order
on whatever an earlier version left, so a renaming must not be pre-empted by an addition of the new
name, and every statement must do nothing once it has been run.

The database of this module is SQLite's, with its schema. The one that the other modules speak of
is what is read off it once it is open, and `openStore_ofStore` is how they meet: opening a database
of this version does to its tables what `NoteStore.reopen` says.

## Main definitions

* `SetUp` — the statements
* `openStore` — `NoteStore.conn`, the first time
* `schema` — what the code reads, with the former names and the stated defaults
* `WrittenEarlier` — the databases of earlier versions

## Main results

* `Current.openStore` — a database of this version is opened without a change
* `opening_loses_nothing`
* `openStore_ofStore`
-/

namespace LnurlMint

namespace Opening

open Sql

/-! ## The statements -/

/-- `_rename_column_if_present`. -/
def renameColumnIfPresent (db : Database) (table old new : String) : Except Error Database :=
  let columns := db.tableInfo table
  if old ∈ columns ∧ new ∉ columns then db.alter table fun r => r.renameColumn old new
  else .ok db

/-- `_add_column_if_missing`. -/
def addColumnIfMissing (db : Database) (table : String) (column : Column) :
    Except Error Database :=
  let columns := db.tableInfo table
  if column.name ∉ columns then db.alter table fun r => r.addColumn column
  else .ok db

/-- `CASE WHEN length(cx1) = 128 THEN substr(cx1, 1, 64) ELSE substr(cx1, 67, 64) END`. -/
def keyOfShare : Value → Value
  | .null => .null
  | .int n => .text (NoteStore.backfillKey (toString n).toList)
  | .text cx1 => .text (NoteStore.backfillKey cx1)

/-- `INSERT OR IGNORE INTO accepted_keys (xp) SELECT … FROM usernames`. -/
def backfill (db : Database) : Except Error Database := do
  let shares ← db.select "usernames" ["cx1"] []
  db.alter "accepted_keys" fun r =>
    if "xp" ∈ r.names then
      .ok (r.insertOrIgnoreEach "xp" (shares.map fun row => keyOfShare (row.headD .null)))
    else .error .noSuchColumn

/-- A statement of the set-up. -/
inductive SetUp
  /-- `PRAGMA busy_timeout`. -/
  | busyTimeout
  /-- `CREATE TABLE IF NOT EXISTS`. -/
  | create (table : String) (r : Relation)
  | rename (table old new : String)
  | add (table : String) (column : Column)
  | backfill
  /-- `CREATE INDEX IF NOT EXISTS`. -/
  | index (name table column : String)
  | commit

/-- What a statement does. -/
def SetUp.exec (db : Database) : SetUp → Except Error Database
  | busyTimeout | commit => .ok db
  | create table r => .ok (db.createTable table r)
  | rename table old new => renameColumnIfPresent db table old new
  | add table column => addColumnIfMissing db table column
  | backfill => Opening.backfill db
  | index name table column => db.createIndex name table column

/-! ## The tables as they are created -/

/-- A column that may be null. -/
def nullable (name : String) : Column := ⟨name, false, .null⟩

theorem admits_nullable (name : String) (v : Value) : (nullable name).Admits v := by
  intro h
  cases h

/-- `NOT NULL`. -/
def required (name : String) : Column := ⟨name, true, .null⟩

/-- `INTEGER NOT NULL DEFAULT 0`. -/
def counter (name : String) : Column := ⟨name, true, .int 0⟩

def notes : Relation :=
  .empty [nullable "id", required "amount_msat", counter "spent", counter "pending",
    nullable "pending_payment_hash"] 0 (by decide) (by decide)

def mints : Relation :=
  .empty [nullable "payment_hash", required "pr", required "amount_msat", counter "minted",
    nullable "note_id"] 0 (by decide) (by decide)

def melts : Relation :=
  .empty [nullable "payment_hash", required "pr", counter "settled"] 0 (by decide) (by decide)

def burns : Relation :=
  .empty [nullable "burn_key", required "id", nullable "id2", required "amount1_msat",
    nullable "amount2_msat"] 0 (by decide) (by decide)

def usernames : Relation :=
  .empty [nullable "username", required "cx1", counter "next_index"] 0 (by decide) (by decide)

def acceptedKeys : Relation := .empty [nullable "xp"] 0 (by decide) (by decide)

def addressFees : Relation :=
  .empty [nullable "payment_hash", required "pr", required "username", required "cx1",
    nullable "nostr_pubkey", required "amount_msat", required "created_at", required "expires_at",
    counter "paid"] 0 (by decide) (by decide)

/-! ## The set-up -/

/-- The tables that come first. -/
def creations : List (String × Relation) :=
  [("notes", notes), ("mints", mints), ("melts", melts), ("burns", burns),
    ("usernames", usernames)]

/-- The columns that were renamed. -/
def renamings : List (String × String × String) :=
  [("mints", "comment_hash", "note_id"), ("burns", "h", "id"), ("burns", "h2", "id2")]

/-- The columns that came later. -/
def additions : List (String × Column) :=
  [("mints", ⟨"pr", true, .text []⟩), ("notes", counter "pending"),
    ("notes", nullable "pending_payment_hash"), ("mints", nullable "note_id"),
    ("notes", counter "locked_at"), ("melts", counter "settled"),
    ("mints", nullable "zap_request"), ("mints", nullable "zap_receipt"),
    ("mints", counter "created_at"), ("usernames", nullable "nostr_pubkey"),
    ("mints", nullable "username"), ("burns", nullable "to_username")]

/-- The statements about these tables. -/
def setUpTables : List SetUp :=
  .busyTimeout :: (creations.map (fun q => .create q.1 q.2) ++
    (renamings.map (fun q => .rename q.1 q.2.1 q.2.2) ++ additions.map fun q => .add q.1 q.2))

/-- The statements about the tables that came later. -/
def setUpLater : List SetUp :=
  [.create "accepted_keys" acceptedKeys, .backfill, .create "address_fees" addressFees,
    .index "address_fees_username" "address_fees" "username", .commit]

/-- The statements of `NoteStore.conn`. -/
def setUp : List SetUp := setUpTables ++ setUpLater

/-- `NoteStore.conn` on a database that is not open yet. -/
def openStore (db : Database) : Except Error Database := setUp.foldlM SetUp.exec db

/-! ## What the code reads -/

/-- A column that every version has. -/
def always (name : String) : Sql.Field := ⟨name, .null, none⟩

/-- A column that came later, with what the rows from before it read as. -/
def later (name : String) (default : Value) : Sql.Field := ⟨name, default, none⟩

def notesFields : List Sql.Field :=
  [always "id", always "amount_msat", always "spent", later "pending" (.int 0),
    later "pending_payment_hash" .null, later "locked_at" (.int 0)]

def mintsFields : List Sql.Field :=
  [always "payment_hash", later "pr" (.text []), always "amount_msat", always "minted",
    ⟨"note_id", .null, some "comment_hash"⟩, later "zap_request" .null, later "zap_receipt" .null,
    later "created_at" (.int 0), later "username" .null]

def meltsFields : List Sql.Field :=
  [always "payment_hash", always "pr", later "settled" (.int 0)]

def burnsFields : List Sql.Field :=
  [always "burn_key", ⟨"id", .null, some "h"⟩, ⟨"id2", .null, some "h2"⟩, always "amount1_msat",
    always "amount2_msat", later "to_username" .null]

def usernamesFields : List Sql.Field :=
  [always "username", always "cx1", always "next_index", later "nostr_pubkey" .null]

/-- The columns of this version, with the names that some had and the stated defaults. -/
def schema : List (String × List Sql.Field) :=
  [("notes", notesFields), ("mints", mintsFields), ("melts", meltsFields),
    ("burns", burnsFields), ("usernames", usernamesFields)]

/-- The columns that an earlier version may lack. -/
def laterColumns : List (String × String) := additions.map fun p => (p.1, p.2.name)

/-- `find_burn`. -/
def findBurn (db : Database) (noteIds : List Str) : Except Error (Option Row) :=
  (db.select "burns" ["id", "id2", "amount1_msat", "amount2_msat"]
    [("burn_key", .text (NoteStore.burnKey noteIds))]).map List.head?

/-- What the rows of an earlier database say `find_burn` answers. -/
def burnSaid (db : Database) (noteIds : List Str) : Option Row :=
  (db.tell "burns" [⟨"id", .null, some "h"⟩, ⟨"id2", .null, some "h2"⟩, always "amount1_msat",
    always "amount2_msat"] [(always "burn_key", .text (NoteStore.burnKey noteIds))]).head?

/-- The shares that the rows of `usernames` say are on file. -/
def sharesOnFile (db : Database) : List Row := db.tell "usernames" [always "cx1"] []

/-- A key is in `accepted_keys`. -/
def Accepted (db : Database) (xp : Str) : Prop :=
  [.text xp] ∈ db.tell "accepted_keys" [always "xp"] []

/-- A database that an earlier version wrote, or this one. -/
structure WrittenEarlier (db : Database) : Prop where
  /-- A table has the columns that are not later ones, under their names or the former ones. -/
  columns : ∀ p ∈ schema, (db.tables p.1).isSome → ∀ f ∈ p.2, (p.1, f.name) ∉ laterColumns →
    db.Has p.1 f.name ∨ ∃ c ∈ f.formerly, db.Has p.1 c
  /-- The tables that came later are as they are now. -/
  acceptedKeys : ∀ r ∈ db.tables "accepted_keys",
    r.columns = acceptedKeys.columns ∧ r.key = acceptedKeys.key
  addressFees : ∀ r ∈ db.tables "address_fees",
    r.columns = addressFees.columns ∧ r.key = addressFees.key
  /-- What is on file are shares, of either length. -/
  shares : ∀ row ∈ sharesOnFile db, ∃ cx1, row = [.text cx1] ∧ IsShare cx1

/-! ## One statement -/

variable {db db' db₀ : Database}

theorem renameColumnIfPresent_cases (db : Database) (table old new : String) :
    (renameColumnIfPresent db table old new = .ok db ∧
      (db.Has table old → db.Has table new)) ∨
    ∃ r r', db.tables table = some r ∧ r.renameColumn old new = .ok r' ∧
      renameColumnIfPresent db table old new = .ok (db.put table r') := by
  by_cases hguard : old ∈ db.tableInfo table ∧ new ∉ db.tableInfo table
  · right
    obtain ⟨r, hr, hold⟩ := db.has_iff.1 hguard.1
    have hnew : new ∉ r.names := fun hm => hguard.2 (db.has_iff.2 ⟨r, hr, hm⟩)
    obtain ⟨r', hok⟩ := r.renameColumn_isOk hold hnew
    refine ⟨r, r', hr, hok, ?_⟩
    rw [renameColumnIfPresent]
    exact (if_pos hguard).trans (db.alter_of_eq hr hok)
  · left
    refine ⟨if_neg hguard, fun hold => ?_⟩
    by_contra hnew
    exact hguard ⟨hold, hnew⟩

theorem addColumnIfMissing_cases {table : String} {column : Column}
    (hsome : (db.tables table).isSome) (hadm : column.Admits column.default) :
    (addColumnIfMissing db table column = .ok db ∧ db.Has table column.name) ∨
    ∃ r r', db.tables table = some r ∧ r.addColumn column = .ok r' ∧
      addColumnIfMissing db table column = .ok (db.put table r') := by
  by_cases hname : column.name ∈ db.tableInfo table
  · exact .inl ⟨if_neg (not_not.2 hname), hname⟩
  · right
    obtain ⟨r, hr⟩ := Option.isSome_iff_exists.1 hsome
    obtain ⟨r', hok⟩ := r.addColumn_isOk (fun hm => hname (db.has_iff.2 ⟨r, hr, hm⟩)) hadm
    refine ⟨r, r', hr, hok, ?_⟩
    rw [addColumnIfMissing]
    exact (if_pos hname).trans (db.alter_of_eq hr hok)

/-! ## What the set-up keeps -/

/-- What the statements about the tables of the schema keep of the database they began on. -/
structure Carries (db₀ db : Database) : Prop where
  alike : ∀ p ∈ schema, Database.Alike p.1 p.2 db₀ db
  others : ∀ t, t ∉ schema.map Prod.fst → db.tables t = db₀.tables t
  indexes : db.indexes = db₀.indexes
  columns : ∀ p ∈ schema, (db.tables p.1).isSome → ∀ f ∈ p.2, (p.1, f.name) ∉ laterColumns →
    db.Has p.1 f.name ∨ ∃ c ∈ f.formerly, db.Has p.1 c

/-- The tables of the schema are there. -/
def Created (db : Database) : Prop := ∀ p ∈ schema, (db.tables p.1).isSome

/-- No column of the schema stands under its former name alone. -/
def Settled (db : Database) : Prop :=
  ∀ p ∈ schema, ∀ r, db.tables p.1 = some r → ∀ f ∈ p.2, r.Settled f

theorem WrittenEarlier.carries (h : WrittenEarlier db) : Carries db db where
  alike := fun _ _ => .refl ..
  others := fun _ _ => rfl
  indexes := rfl
  columns := h.columns

/-! ### Creating -/

theorem rows_creations : ∀ q ∈ creations, q.2.rows = [] := by decide

theorem tables_creations : ∀ q ∈ creations, q.1 ∈ schema.map Prod.fst := by decide

theorem names_creations : ∀ q ∈ creations, ∀ p ∈ schema, p.1 = q.1 → ∀ f ∈ p.2,
    (p.1, f.name) ∉ laterColumns → f.name ∈ q.2.names := by decide

theorem Carries.create (h : Carries db₀ db) {q : String × Relation} (hq : q ∈ creations) :
    Carries db₀ (db.createTable q.1 q.2) where
  alike := fun p hp => (h.alike p hp).trans
    (Database.alike_createTable (rows_creations q hq) p.1 p.2)
  others := fun t ht => by
    have hne : t ≠ q.1 := fun e => ht (e ▸ tables_creations q hq)
    rw [db.tables_createTable_of_ne hne, h.others t ht]
  indexes := by rw [db.indexes_createTable, h.indexes]
  columns := by
    intro p hp hsome f hf hlater
    by_cases hold : (db.tables p.1).isSome
    · rcases h.columns p hp hold f hf hlater with hname | ⟨c, hc, hname⟩
      · exact .inl (db.has_createTable hname)
      · exact .inr ⟨c, hc, db.has_createTable hname⟩
    · by_cases ht : p.1 = q.1
      · refine .inl (Database.has_iff _ |>.2 ⟨q.2, ?_, names_creations q hq p hp ht f hf hlater⟩)
        have hnone : db.tables q.1 = none := by simpa [ht] using hold
        rw [ht, db.tables_createTable, hnone, Option.getD_none]
      · rw [db.tables_createTable_of_ne ht] at hsome
        exact absurd hsome hold

/-- The tables are created, and what the database says stays. -/
theorem creations_ok (h : Carries db₀ db) :
    ∃ db', (creations.map fun q => SetUp.create q.1 q.2).foldlM SetUp.exec db = .ok db' ∧
      Carries db₀ db' ∧ Created db' := by
  obtain ⟨db', hok, hcarries, hall, -⟩ := foldlM_ok
    (f := fun db q => SetUp.exec db (.create q.1 q.2)) (P := Carries db₀)
    (Q := fun q db => (db.tables q.1).isSome) (L := creations)
    (fun q hq db h => ⟨_, rfl, h.create hq, by rw [db.tables_createTable]; rfl, fun q' _ hq' => by
      by_cases ht : q'.1 = q.1
      · rw [ht, db.tables_createTable]; rfl
      · rwa [db.tables_createTable_of_ne ht]⟩) (List.Subset.refl _) h
  refine ⟨db', by rwa [List.foldlM_map], hcarries, fun p hp => ?_⟩
  have hmem : p.1 ∈ creations.map Prod.fst := by
    have : ∀ p ∈ schema, p.1 ∈ creations.map Prod.fst := by decide
    exact this p hp
  obtain ⟨q, hq, hp⟩ := List.mem_map.1 hmem
  rw [← hp]
  exact hall q hq

/-! ### Renaming -/

theorem fits_renamings : ∀ q ∈ renamings, ∀ p ∈ schema, p.1 = q.1 → ∀ f ∈ p.2,
    f.FitsRename q.2.1 q.2.2 := by decide

theorem tables_renamings : ∀ q ∈ renamings, q.1 ∈ schema.map Prod.fst := by decide

/-- No column gets a former name, and none loses a present one. -/
theorem apart_renamings : ∀ q ∈ renamings, ∀ q' ∈ renamings, q'.1 = q.1 →
    q'.2.1 ≠ q.2.2 ∧ q'.2.2 ≠ q.2.1 := by decide

theorem formerly_renamed : ∀ p ∈ schema, ∀ f ∈ p.2, ∀ c ∈ f.formerly,
    (p.1, c, f.name) ∈ renamings := by decide

theorem created_put (h : Created db) (t : String) (r : Relation) : Created (db.put t r) := by
  intro p hp
  by_cases ht : p.1 = t
  · rw [ht, db.tables_put]; rfl
  · rw [db.tables_put_of_ne ht]
    exact h p hp

theorem has_put_of_ne {t t' c : String} (h : t ≠ t') (r : Relation) :
    (db.put t' r).Has t c ↔ db.Has t c := by
  rw [Database.has_iff, Database.has_iff, db.tables_put_of_ne h]

theorem has_put {t c : String} {r : Relation} : (db.put t r).Has t c ↔ c ∈ r.names := by
  rw [Database.has_iff, db.tables_put]
  simp

theorem Carries.rename (h : Carries db₀ db) {q : String × String × String} (hq : q ∈ renamings)
    {r r' : Relation} (hr : db.tables q.1 = some r) (hok : r.renameColumn q.2.1 q.2.2 = .ok r') :
    Carries db₀ (db.put q.1 r') where
  alike := fun p hp => (h.alike p hp).trans
    (Database.alike_rename hr hok fun ht => fits_renamings q hq p hp ht)
  others := fun t ht => by
    have hne : t ≠ q.1 := fun e => ht (e ▸ tables_renamings q hq)
    rw [db.tables_put_of_ne hne, h.others t ht]
  indexes := h.indexes
  columns := by
    intro p hp hsome f hf hlater
    by_cases ht : p.1 = q.1
    · rw [ht] at hlater ⊢
      simp only [has_put, Relation.mem_names_renameColumn hok]
      have hcols := h.columns p hp (by rw [ht, hr]; rfl) f hf (ht ▸ hlater)
      simp only [ht, Database.has_iff, hr, Option.some.injEq, exists_eq_left'] at hcols
      rcases fits_renamings q hq p hp ht f hf with ⟨-, hnew⟩ | ⟨hold, hnew⟩
      · exact .inl (.inl hnew)
      · rcases hcols with hname | ⟨c, hc, hname⟩
        · exact .inl (.inr ⟨hname, hold.1⟩)
        · exact .inr ⟨c, hc, .inr ⟨hname, fun e => hold.2 (e ▸ hc)⟩⟩
    · simp only [has_put_of_ne ht]
      rw [db.tables_put_of_ne ht] at hsome
      exact h.columns p hp hsome f hf hlater

/-- A renaming leaves no column under its former name alone, and none that another left. -/
theorem rename_step {q : String × String × String} (hq : q ∈ renamings) (h : Carries db₀ db)
    (hc : Created db) :
    ∃ db', renameColumnIfPresent db q.1 q.2.1 q.2.2 = .ok db' ∧
      (Carries db₀ db' ∧ Created db') ∧ (db'.Has q.1 q.2.1 → db'.Has q.1 q.2.2) ∧
      ∀ q' ∈ renamings, (db.Has q'.1 q'.2.1 → db.Has q'.1 q'.2.2) →
        (db'.Has q'.1 q'.2.1 → db'.Has q'.1 q'.2.2) := by
  rcases renameColumnIfPresent_cases db q.1 q.2.1 q.2.2 with ⟨hok, hdone⟩ | ⟨r, r', hr, hren, hok⟩
  · exact ⟨db, hok, ⟨h, hc⟩, hdone, fun _ _ hq' => hq'⟩
  refine ⟨_, hok, ⟨h.rename hq hr hren, created_put hc _ _⟩, fun _ => ?_, ?_⟩
  · exact has_put.2 ((Relation.mem_names_renameColumn hren).2 (.inl rfl))
  intro q' hq' hdone
  by_cases ht : q'.1 = q.1
  · obtain ⟨hold, hnew⟩ := apart_renamings q hq q' hq' ht
    rw [ht, Database.has_iff, Database.has_iff, hr] at hdone
    simp only [Option.some.injEq, exists_eq_left'] at hdone
    rw [ht, has_put, has_put, Relation.mem_names_renameColumn hren,
      Relation.mem_names_renameColumn hren]
    rintro (hm | ⟨hm, -⟩)
    · exact absurd hm hold
    · exact .inr ⟨hdone hm, hnew⟩
  · rwa [has_put_of_ne ht, has_put_of_ne ht]

/-- The columns get their names, and what the database says stays. -/
theorem renamings_ok (h : Carries db₀ db) (hc : Created db) :
    ∃ db', (renamings.map fun q => SetUp.rename q.1 q.2.1 q.2.2).foldlM SetUp.exec db = .ok db' ∧
      Carries db₀ db' ∧ Created db' ∧ Settled db' := by
  obtain ⟨db', hok, ⟨hcarries, hcreated⟩, hall, -⟩ := foldlM_ok
    (f := fun db (q : String × String × String) => SetUp.exec db (.rename q.1 q.2.1 q.2.2))
    (P := fun db => Carries db₀ db ∧ Created db)
    (Q := fun q db => db.Has q.1 q.2.1 → db.Has q.1 q.2.2) (L := renamings)
    (fun q hq db h => rename_step hq h.1 h.2) (List.Subset.refl _) ⟨h, hc⟩
  refine ⟨db', by rwa [List.foldlM_map], hcarries, hcreated, fun p hp r hr f hf c hc hm => ?_⟩
  have hhas : db'.Has p.1 c → db'.Has p.1 f.name := hall _ (formerly_renamed p hp f hf c hc)
  rw [Database.has_iff, Database.has_iff, hr] at hhas
  simpa using hhas ⟨r, rfl, hm⟩

/-! ### Adding -/

theorem fits_additions : ∀ q ∈ additions, ∀ p ∈ schema, p.1 = q.1 → ∀ f ∈ p.2,
    f.FitsAdd q.2 := by decide

theorem tables_additions : ∀ q ∈ additions, q.1 ∈ schema.map Prod.fst := by decide

theorem admits_additions : ∀ q ∈ additions, q.2.Admits q.2.default := by decide

theorem Carries.add (h : Carries db₀ db) (hs : Settled db) {q : String × Column}
    (hq : q ∈ additions) {r r' : Relation} (hr : db.tables q.1 = some r)
    (hok : r.addColumn q.2 = .ok r') : Carries db₀ (db.put q.1 r') where
  alike := fun p hp => (h.alike p hp).trans (Database.alike_add hr hok fun ht f hf =>
    ⟨fits_additions q hq p hp ht f hf, hs p hp r (ht ▸ hr) f hf⟩)
  others := fun t ht => by
    have hne : t ≠ q.1 := fun e => ht (e ▸ tables_additions q hq)
    rw [db.tables_put_of_ne hne, h.others t ht]
  indexes := h.indexes
  columns := by
    obtain ⟨-, hnames, -⟩ := Relation.addColumn_ok hok
    intro p hp hsome f hf hlater
    by_cases ht : p.1 = q.1
    · rw [ht] at hlater ⊢
      simp only [has_put, hnames, List.mem_append]
      have hcols := h.columns p hp (by rw [ht, hr]; rfl) f hf (ht ▸ hlater)
      simp only [ht, Database.has_iff, hr, Option.some.injEq, exists_eq_left'] at hcols
      rcases hcols with hname | ⟨c, hc, hname⟩
      · exact .inl (.inl hname)
      · exact .inr ⟨c, hc, .inl hname⟩
    · simp only [has_put_of_ne ht]
      rw [db.tables_put_of_ne ht] at hsome
      exact h.columns p hp hsome f hf hlater

theorem Settled.add (hs : Settled db) {q : String × Column} (hq : q ∈ additions) {r r' : Relation}
    (hr : db.tables q.1 = some r) (hok : r.addColumn q.2 = .ok r') : Settled (db.put q.1 r') := by
  obtain ⟨-, hnames, -⟩ := Relation.addColumn_ok hok
  intro p hp r₁ hr₁ f hf c hc hm
  by_cases ht : p.1 = q.1
  · rw [ht, db.tables_put] at hr₁
    cases hr₁
    rw [hnames, List.mem_append, List.mem_singleton] at hm ⊢
    rcases hm with hm | rfl
    · exact .inl (hs p hp r (ht ▸ hr) f hf c hc hm)
    · -- what is added is no former name, unless of a column that it brings
      rcases fits_additions q hq p hp ht f hf with ⟨hname, -⟩ | hapart
      · exact .inr hname
      · exact absurd hc hapart.2
  · rw [db.tables_put_of_ne ht] at hr₁
    exact hs p hp r₁ hr₁ f hf c hc hm

/-- An addition brings its column, and takes none. -/
theorem add_step {q : String × Column} (hq : q ∈ additions) (h : Carries db₀ db)
    (hc : Created db) (hs : Settled db) :
    ∃ db', addColumnIfMissing db q.1 q.2 = .ok db' ∧
      (Carries db₀ db' ∧ Created db' ∧ Settled db') ∧ db'.Has q.1 q.2.name ∧
      ∀ q' ∈ additions, db.Has q'.1 q'.2.name → db'.Has q'.1 q'.2.name := by
  have hsome : (db.tables q.1).isSome := by
    obtain ⟨p, hp, hq'⟩ := List.mem_map.1 (tables_additions q hq)
    exact hq' ▸ hc p hp
  rcases addColumnIfMissing_cases hsome (admits_additions q hq) with
    ⟨hok, hhas⟩ | ⟨r, r', hr, hadd, hok⟩
  · exact ⟨db, hok, ⟨h, hc, hs⟩, hhas, fun _ _ hq' => hq'⟩
  obtain ⟨-, hnames, -⟩ := Relation.addColumn_ok hadd
  refine ⟨_, hok, ⟨h.add hs hq hr hadd, created_put hc _ _, hs.add hq hr hadd⟩, ?_, ?_⟩
  · rw [has_put, hnames]
    exact List.mem_append_right _ (List.mem_singleton_self _)
  intro q' _ hhas
  by_cases ht : q'.1 = q.1
  · rw [ht, Database.has_iff, hr] at hhas
    simp only [Option.some.injEq, exists_eq_left'] at hhas
    rw [ht, has_put, hnames]
    exact List.mem_append_left _ hhas
  · rwa [has_put_of_ne ht]

/-- The columns of the schema are there. -/
def Complete (db : Database) : Prop := ∀ p ∈ schema, ∀ f ∈ p.2, db.Has p.1 f.name

theorem usernames_mem_schema : ("usernames", usernamesFields) ∈ schema := by decide

theorem burns_mem_schema : ("burns", burnsFields) ∈ schema := by decide

theorem Complete.has_cx1 (h : Complete db) : db.Has "usernames" "cx1" :=
  h _ usernames_mem_schema (always "cx1") (by decide)

/-- The missing columns are added, and what the database says stays. -/
theorem additions_ok (h : Carries db₀ db) (hc : Created db) (hs : Settled db) :
    ∃ db', (additions.map fun q => SetUp.add q.1 q.2).foldlM SetUp.exec db = .ok db' ∧
      Carries db₀ db' ∧ Created db' ∧ Complete db' := by
  obtain ⟨db', hok, ⟨hcarries, hcreated, hsettled⟩, hall, -⟩ := foldlM_ok
    (f := fun db (q : String × Column) => SetUp.exec db (.add q.1 q.2))
    (P := fun db => Carries db₀ db ∧ Created db ∧ Settled db)
    (Q := fun q db => db.Has q.1 q.2.name) (L := additions)
    (fun q hq db h => add_step hq h.1 h.2.1 h.2.2) (List.Subset.refl _) ⟨h, hc, hs⟩
  refine ⟨db', by rwa [List.foldlM_map], hcarries, hcreated, fun p hp f hf => ?_⟩
  by_cases hlater : (p.1, f.name) ∈ laterColumns
  · obtain ⟨q, hq, he⟩ := List.mem_map.1 hlater
    have hhas := hall q hq
    rwa [(Prod.mk.inj he).1, (Prod.mk.inj he).2] at hhas
  · rcases hcarries.columns p hp (hcreated p hp) f hf hlater with hname | ⟨c, hc, hname⟩
    · exact hname
    · obtain ⟨r, hr, hm⟩ := Database.has_iff _ |>.1 hname
      exact Database.has_iff _ |>.2 ⟨r, hr, hsettled p hp r hr f hf c hc hm⟩

/-- The tables of the schema are brought to it, and what the database says stays. -/
theorem setUpTables_ok (h : Carries db₀ db) :
    ∃ db', setUpTables.foldlM SetUp.exec db = .ok db' ∧ Carries db₀ db' ∧ Created db' ∧
      Complete db' := by
  obtain ⟨db₁, hok₁, h₁, hc₁⟩ := creations_ok h
  obtain ⟨db₂, hok₂, h₂, hc₂, hs₂⟩ := renamings_ok h₁ hc₁
  obtain ⟨db₃, hok₃, h₃, hc₃, hm₃⟩ := additions_ok h₂ hc₂ hs₂
  refine ⟨db₃, ?_, h₃, hc₃, hm₃⟩
  rw [setUpTables]
  exact foldlM_cons_ok rfl (foldlM_append_ok hok₁ (foldlM_append_ok hok₂ hok₃))

theorem renamed_mem_schema : ∀ q ∈ renamings, ∃ p ∈ schema, p.1 = q.1 ∧
    ∃ f ∈ p.2, f.name = q.2.2 := by decide

theorem added_mem_schema : ∀ q ∈ additions, ∃ p ∈ schema, p.1 = q.1 ∧
    ∃ f ∈ p.2, f.name = q.2.name := by decide

/-- Tables that have the schema are left as they are. -/
theorem setUpTables_eq_self (hc : Created db) (hm : Complete db) :
    setUpTables.foldlM SetUp.exec db = .ok db := by
  refine foldlM_eq_self ?_
  rw [setUpTables, List.forall_mem_cons, List.forall_mem_append, List.forall_mem_append,
    List.forall_mem_map, List.forall_mem_map, List.forall_mem_map]
  refine ⟨rfl, fun q hq => ?_, fun q hq => ?_, fun q hq => ?_⟩
  · obtain ⟨p, hp, ht⟩ := List.mem_map.1 (tables_creations q hq)
    exact congrArg Except.ok (db.createTable_of_isSome (ht ▸ hc p hp) q.2)
  · obtain ⟨p, hp, ht, f, hf, hname⟩ := renamed_mem_schema q hq
    have hhas : q.2.2 ∈ db.tableInfo q.1 := ht ▸ hname ▸ hm p hp f hf
    exact if_neg fun hguard => hguard.2 hhas
  · obtain ⟨p, hp, ht, f, hf, hname⟩ := added_mem_schema q hq
    have hhas : q.2.name ∈ db.tableInfo q.1 := ht ▸ hname ▸ hm p hp f hf
    exact if_neg (not_not.2 hhas)

/-! ### The later tables -/

/-- The keys that the backfill accepts. -/
def keysOnFile (db : Database) : List Value :=
  (sharesOnFile db).map fun row => keyOfShare (row.headD .null)

/-- What the statements about the later tables make of a database. -/
structure Finished (db db' : Database) : Prop where
  tables : ∀ t, t ≠ "accepted_keys" → t ≠ "address_fees" → db'.tables t = db.tables t
  acceptedKeys : db'.tables "accepted_keys" = some
    (((db.tables "accepted_keys").getD acceptedKeys).insertOrIgnoreEach "xp" (keysOnFile db))
  addressFees : db'.tables "address_fees" = some ((db.tables "address_fees").getD addressFees)
  indexes : db'.indexes = if "address_fees_username" ∈ db.indexes then db.indexes
    else db.indexes ++ ["address_fees_username"]

theorem backfill_eq {r : Relation} (hr : db.tables "accepted_keys" = some r)
    (hxp : r.columns = acceptedKeys.columns) (hcx1 : db.Has "usernames" "cx1") :
    backfill db = .ok (db.put "accepted_keys" (r.insertOrIgnoreEach "xp" (keysOnFile db))) := by
  have hsel : db.select "usernames" ["cx1"] [] = .ok (sharesOnFile db) := by
    refine db.select_eq "usernames" [always "cx1"] [] ?_ ?_
    · obtain ⟨r, hr, -⟩ := db.has_iff.1 hcx1
      rw [hr]; rfl
    · rintro f (_ | ⟨_, ⟨⟩⟩)
      exact hcx1
  have hnames : "xp" ∈ r.names := by rw [Relation.names, hxp]; decide
  rw [backfill, hsel]
  exact db.alter_of_eq hr (if_pos hnames)

theorem sharesOnFile_congr (h : db'.tables "usernames" = db.tables "usernames") :
    sharesOnFile db' = sharesOnFile db := by
  have halike : Database.Alike "usernames" [always "cx1"] db db' := .of_eq h
  exact halike.tell (by simp) (by simp)

theorem createIndex_ok {i t c : String} (h : db.Has t c) :
    ∃ db', db.createIndex i t c = .ok db' ∧ db'.tables = db.tables ∧
      db'.indexes = if i ∈ db.indexes then db.indexes else db.indexes ++ [i] := by
  obtain ⟨r, hr, -⟩ := db.has_iff.1 h
  have hsome : ¬(db.tables t).isNone := by simp [hr]
  have hcol : ¬c ∉ db.tableInfo t := not_not.2 h
  rw [Database.createIndex, if_neg hsome]
  by_cases hi : i ∈ db.indexes
  · rw [if_pos hi]
    exact ⟨db, rfl, rfl, (if_pos hi).symm⟩
  · rw [if_neg hi, if_neg hcol]
    exact ⟨_, rfl, rfl, (if_neg hi).symm⟩

/-- The later tables are brought to this version. -/
theorem setUpLater_ok (hcx1 : db.Has "usernames" "cx1")
    (hacc : ∀ r, db.tables "accepted_keys" = some r → r.columns = acceptedKeys.columns)
    (hfee : ∀ r, db.tables "address_fees" = some r → r.columns = addressFees.columns) :
    ∃ db', setUpLater.foldlM SetUp.exec db = .ok db' ∧ Finished db db' := by
  let ra := (db.tables "accepted_keys").getD acceptedKeys
  let rf := (db.tables "address_fees").getD addressFees
  let db₁ := db.createTable "accepted_keys" acceptedKeys
  let db₂ := db₁.put "accepted_keys" (ra.insertOrIgnoreEach "xp" (keysOnFile db))
  let db₃ := db₂.createTable "address_fees" addressFees
  have hxp : ra.columns = acceptedKeys.columns := by
    cases h : db.tables "accepted_keys" with
    | none => simp only [ra, h, Option.getD_none]
    | some r => simpa only [ra, h, Option.getD_some] using hacc r h
  have hname : rf.columns = addressFees.columns := by
    cases h : db.tables "address_fees" with
    | none => simp only [rf, h, Option.getD_none]
    | some r => simpa only [rf, h, Option.getD_some] using hfee r h
  have hnames : db₁.tables "usernames" = db.tables "usernames" :=
    db.tables_createTable_of_ne (by decide) _
  have hkeys : keysOnFile db₁ = keysOnFile db := by
    rw [keysOnFile, keysOnFile, sharesOnFile_congr hnames]
  have hback : backfill db₁ = .ok db₂ := by
    rw [backfill_eq (db.tables_createTable _ _) hxp (db.has_createTable hcx1), hkeys]
  have hfees : db₂.tables "address_fees" = db.tables "address_fees" := by
    rw [db₁.tables_put_of_ne (by decide), db.tables_createTable_of_ne (by decide)]
  have hfees₃ : db₃.tables "address_fees" = some rf := by
    rw [db₂.tables_createTable, hfees]
  have hhas : db₃.Has "address_fees" "username" := by
    refine db₃.has_iff.2 ⟨rf, hfees₃, ?_⟩
    rw [Relation.names, hname]
    decide
  obtain ⟨db₄, hindex, htables, hindexes⟩ := createIndex_ok (i := "address_fees_username") hhas
  refine ⟨db₄, ?_, ⟨fun t hta htf => ?_, ?_, ?_, ?_⟩⟩
  · have hacc' : SetUp.exec db (.create "accepted_keys" acceptedKeys) = .ok db₁ := rfl
    have hfee' : SetUp.exec db₂ (.create "address_fees" addressFees) = .ok db₃ := rfl
    rw [setUpLater]
    refine foldlM_cons_ok hacc' (foldlM_cons_ok hback ?_)
    exact foldlM_cons_ok hfee' (foldlM_cons_ok hindex (foldlM_cons_ok rfl rfl))
  · rw [htables, db₂.tables_createTable_of_ne htf, db₁.tables_put_of_ne hta,
      db.tables_createTable_of_ne hta]
  · rw [htables, db₂.tables_createTable_of_ne (by decide), db₁.tables_put]
  · rw [htables, hfees₃]
  · simpa only [db₃, db₂, db₁, Database.indexes_createTable, Database.indexes_put] using hindexes

/-! ## Databases of this version -/

/-- A database of this version, every share on file accepted. -/
structure Current (db : Database) : Prop where
  created : Created db
  complete : Complete db
  acceptedKeys : ∃ r, db.tables "accepted_keys" = some r ∧ r.columns = acceptedKeys.columns ∧
    r.key = acceptedKeys.key ∧ ∀ v ∈ keysOnFile db, v ≠ .null ∧ [v] ∈ r.rows
  addressFees : ∃ r, db.tables "address_fees" = some r ∧ r.columns = addressFees.columns
  index : "address_fees_username" ∈ db.indexes

/-- The statements about the later tables leave a database of this version as it is. -/
theorem Current.finished (h : Current db) (hf : Finished db db') : db' = db := by
  obtain ⟨ra, hra, hcols, hkey, hkeys⟩ := h.acceptedKeys
  obtain ⟨rf, hrf, -⟩ := h.addressFees
  refine Database.ext (funext fun t => ?_) ?_
  · by_cases hta : t = "accepted_keys"
    · rw [hta, hf.acceptedKeys, hra, Option.getD_some]
      exact congrArg some (Relation.insertOrIgnoreEach_of_mem (c := nullable "xp") hcols hkey
        (fun v hv => (hkeys v hv).1) fun v hv => (hkeys v hv).2)
    · by_cases htf : t = "address_fees"
      · rw [htf, hf.addressFees, hrf, Option.getD_some]
      · exact hf.tables t hta htf
  · rw [hf.indexes, if_pos h.index]

/-- **A database of this version is opened without a change.** -/
theorem Current.openStore (h : Current db) : openStore db = .ok db := by
  obtain ⟨ra, hra, hcols, -⟩ := h.acceptedKeys
  obtain ⟨rf, hrf, hcols'⟩ := h.addressFees
  have hcx1 : db.Has "usernames" "cx1" := h.complete.has_cx1
  obtain ⟨db', hok, hfinished⟩ := setUpLater_ok hcx1
    (fun r hr => by cases hra.symm.trans hr; exact hcols)
    (fun r hr => by cases hrf.symm.trans hr; exact hcols')
  rw [h.finished hfinished] at hok
  rw [Opening.openStore, setUp]
  exact foldlM_append_ok (setUpTables_eq_self h.created h.complete) hok

/-! ## Opening an old database -/

theorem Carries.sharesOnFile (h : Carries db₀ db) : sharesOnFile db = sharesOnFile db₀ :=
  (h.alike _ usernames_mem_schema).tell (by decide) (by simp)

theorem mem_tell_acceptedKeys {r : Relation} (hr : db.tables "accepted_keys" = some r)
    (hcols : r.columns = acceptedKeys.columns) (hkey : r.key = acceptedKeys.key) (v : Value) :
    [v] ∈ db.tell "accepted_keys" [always "xp"] [] ↔ [v] ∈ r.rows := by
  have hsaid : ∀ row ∈ r.rows, [r.said (always "xp") row] = row := by
    intro row hrow
    obtain ⟨w, rfl⟩ : ∃ w, row = [w] :=
      ⟨_, Relation.eq_single_of_mem (c := nullable "xp") hcols hkey hrow⟩
    have hxp : (always "xp").name ∈ r.names := by rw [Relation.names, hcols]; decide
    have hcell : r.cell "xp" [w] = some w := by
      rw [Relation.cell, Relation.names, hcols]
      exact List.lookup_cons_self
    rw [r.said_of_mem hxp hrow]
    exact congrArg (fun o : Option Value => [o.getD .null]) hcell
  rw [db.tell_of_eq_some hr, List.mem_map]
  constructor
  · rintro ⟨row, hrow, he⟩
    rw [← he]
    exact Eq.subst (motive := (· ∈ r.rows)) (hsaid row hrow).symm hrow
  · exact fun hv => ⟨[v], hv, hsaid [v] hv⟩

/-- Every key that the backfill accepts is that of a share. -/
theorem keyOfShare_of_mem (h : ∀ row ∈ sharesOnFile db, ∃ cx1, row = [.text cx1] ∧ IsShare cx1)
    {v : Value} (hv : v ∈ keysOnFile db) : ∃ xp, v = .text xp := by
  obtain ⟨row, hrow, rfl⟩ := List.mem_map.1 hv
  obtain ⟨cx1, rfl, -⟩ := h row hrow
  exact ⟨_, rfl⟩

theorem schema_apart : ∀ p ∈ schema, p.1 ≠ "accepted_keys" ∧ p.1 ≠ "address_fees" := by decide

/-- What the statements about the later tables keep of those of the schema. -/
theorem Finished.carries (hf : Finished db db') (hc : Carries db₀ db) (hm : Complete db) :
    (∀ p ∈ schema, Database.Alike p.1 p.2 db₀ db') ∧ Complete db' := by
  have htables : ∀ p ∈ schema, db'.tables p.1 = db.tables p.1 := fun p hp =>
    hf.tables _ (schema_apart p hp).1 (schema_apart p hp).2
  refine ⟨fun p hp => (hc.alike p hp).trans (.of_eq (htables p hp)), fun p hp f hf => ?_⟩
  have := hm p hp f hf
  rwa [Database.has_iff, ← htables p hp, ← Database.has_iff] at this

theorem Complete.created (h : Complete db) : Created db := by
  intro p hp
  have hne : ∃ f, f ∈ p.2 := by
    have : ∀ p ∈ schema, ∃ f ∈ p.2, f.name = f.name := by decide
    obtain ⟨f, hf, -⟩ := this p hp
    exact ⟨f, hf⟩
  obtain ⟨f, hf⟩ := hne
  obtain ⟨r, hr, -⟩ := db.has_iff.1 (h p hp f hf)
  rw [hr]; rfl

/-- A database that has the schema answers `find_burn` with what its rows say. -/
theorem Complete.findBurn (h : Complete db) (noteIds : List Str) :
    findBurn db noteIds = .ok (burnSaid db noteIds) := by
  refine congrArg (Except.map List.head?) (db.select_eq "burns"
    [⟨"id", .null, some "h"⟩, ⟨"id2", .null, some "h2"⟩, always "amount1_msat",
      always "amount2_msat"]
    [(always "burn_key", .text (NoteStore.burnKey noteIds))]
    (h.created _ burns_mem_schema) fun f hf => h _ burns_mem_schema f ?_)
  have hall : ∀ f ∈ [(⟨"id", .null, some "h"⟩ : Sql.Field), ⟨"id2", .null, some "h2"⟩,
      always "amount1_msat", always "amount2_msat"] ++ [always "burn_key"],
      f ∈ burnsFields := by decide
  exact hall f hf

/-! ## The store of the other modules -/

open Relational (Table)

/-- A flag's column. -/
def flag (b : Bool) : Value := .int (if b then 1 else 0)

/-- The column of a text that may be missing. -/
def textOrNull : Option Str → Value
  | none => .null
  | some s => .text s

/-- The column of a number that may be missing. -/
def intOrNull : Option ℤ → Value
  | none => .null
  | some n => .int n

/-- A table's relation: its rows cell by cell, the key first. -/
def ofTable {ρ : Type} {key : ρ → Str} (t : Table key) (columns : List Column)
    (row : ρ → Row) (distinct : (columns.map Column.name).Nodup) (hlt : 0 < columns.length)
    (hfits : ∀ r, List.Forall₂ Column.Admits columns (row r))
    (hkey : ∀ r, (row r).getD 0 .null = .text (key r)) : Relation where
  columns
  distinct
  key := 0
  key_lt := hlt
  rows := t.rows.map row
  fits := by
    rw [List.forall_mem_map]
    exact fun r _ => hfits r
  keyed := by
    have hne : t.rows.Pairwise fun r r' => key r ≠ key r' := List.pairwise_map.1 t.nodup
    refine List.pairwise_map.2 (hne.imp fun {r r'} hne he => ?_)
    rw [hkey, hkey] at he
    exact absurd (Value.text.inj he) hne

def notesOf (s : NoteStore) : Relation :=
  ofTable s.notes (notes.columns ++ [counter "locked_at"])
    (fun n => [.text n.id, .int n.amountMsat, flag n.spent, flag n.pending,
      textOrNull n.pendingPaymentHash, .int n.lockedAt])
    (by decide) (by decide)
    (fun n => by simp [notes, Relation.empty, Column.Admits, nullable, required, counter, flag])
    fun _ => rfl

def mintsOf (s : NoteStore) : Relation :=
  ofTable s.mints (mints.columns ++ [nullable "zap_request", nullable "zap_receipt",
      counter "created_at", nullable "username"])
    (fun m => [.text m.paymentHash, .text m.pr, .int m.amountMsat, flag m.minted,
      textOrNull m.noteId, textOrNull m.zapRequest, textOrNull m.zapReceipt, .int m.createdAt,
      textOrNull m.username])
    (by decide) (by decide)
    (fun m => by simp [mints, Relation.empty, Column.Admits, nullable, required, counter, flag])
    fun _ => rfl

def meltsOf (s : NoteStore) : Relation :=
  ofTable s.melts melts.columns (fun m => [.text m.paymentHash, .text m.pr, flag m.settled])
    (by decide) (by decide)
    (fun m => by simp [melts, Relation.empty, Column.Admits, nullable, required, counter, flag])
    fun _ => rfl

def burnsOf (s : NoteStore) : Relation :=
  ofTable s.burns (burns.columns ++ [nullable "to_username"])
    (fun b => [.text b.burnKey, .text b.id, textOrNull b.id2, .int b.amount1Msat,
      intOrNull b.amount2Msat, textOrNull b.toUsername])
    (by decide) (by decide)
    (fun b => by simp [burns, Relation.empty, Column.Admits, nullable, required])
    fun _ => rfl

def usernamesOf (s : NoteStore) : Relation :=
  ofTable s.usernames (usernames.columns ++ [nullable "nostr_pubkey"])
    (fun u => [.text u.username, .text u.cx1, .int u.nextIndex, textOrNull u.nostrPubkey])
    (by decide) (by decide)
    (fun u => by simp [usernames, Relation.empty, Column.Admits, nullable, required, counter])
    fun _ => rfl

def acceptedKeysOf (s : NoteStore) : Relation :=
  ofTable s.acceptedKeys acceptedKeys.columns (fun xp => [.text xp]) (by decide) (by decide)
    (fun xp => by simp [acceptedKeys, Relation.empty, Column.Admits, nullable])
    fun _ => rfl

def addressFeesOf (s : NoteStore) : Relation :=
  ofTable s.addressFees addressFees.columns
    (fun f => [.text f.paymentHash, .text f.pr, .text f.username, .text f.cx1,
      textOrNull f.nostrPubkey, .int f.amountMsat, .int f.createdAt, .int f.expiresAt, flag f.paid])
    (by decide) (by decide)
    (fun f => by
      simp [addressFees, Relation.empty, Column.Admits, nullable, required, counter, flag])
    fun _ => rfl

/-- The database that a store is read off. -/
def ofStore (s : NoteStore) : Database where
  tables t :=
    if t = "notes" then some (notesOf s)
    else if t = "mints" then some (mintsOf s)
    else if t = "melts" then some (meltsOf s)
    else if t = "burns" then some (burnsOf s)
    else if t = "usernames" then some (usernamesOf s)
    else if t = "accepted_keys" then some (acceptedKeysOf s)
    else if t = "address_fees" then some (addressFeesOf s)
    else none
  indexes := ["address_fees_username"]

theorem complete_ofStore (s : NoteStore) : Complete (ofStore s) := by
  have hempty : ∀ p ∈ schema, ∀ f ∈ p.2, f.name ∈ (ofStore .empty).tableInfo p.1 := by decide
  have hinfo : ∀ t, (ofStore s).tableInfo t = (ofStore .empty).tableInfo t := by
    intro t
    simp only [Database.tableInfo, ofStore]
    repeat' split
    all_goals rfl
  intro p hp f hf
  rw [Database.Has, hinfo]
  exact hempty p hp f hf

/-- The backfill's keys are those of the shares on file. -/
theorem keysOnFile_ofStore (s : NoteStore) :
    keysOnFile (ofStore s) =
      s.usernames.rows.map fun u => .text (NoteStore.backfillKey u.cx1) := by
  rw [keysOnFile, sharesOnFile, Database.tell_of_eq_some (r := usernamesOf s) _ rfl, List.map_map]
  show (s.usernames.rows.map _).map _ = _
  rw [List.map_map]
  exact List.map_congr_left fun u _ => rfl

theorem rows_insertOrIgnore (keys : Table fun xp : Str => xp) (xp : Str) :
    (keys.insertOrIgnore xp).rows = if xp ∈ keys.rows then keys.rows else keys.rows ++ [xp] := by
  rw [Table.insertOrIgnore, Table.insert?]
  by_cases h : xp ∈ keys.rows
  · rw [dif_pos (by simpa using h), if_pos h, Option.getD_none]
  · rw [dif_neg (by simpa using h), if_neg h, Option.getD_some]

/-- `INSERT OR IGNORE` on the relation is that on the table. -/
theorem insertOrIgnore_acceptedKeysOf (s : NoteStore) (xp : Str) :
    (acceptedKeysOf s).insertOrIgnore [("xp", .text xp)] =
      acceptedKeysOf { s with acceptedKeys := s.acceptedKeys.insertOrIgnore xp } := by
  have hrow : (acceptedKeysOf s).rowOf [("xp", .text xp)] = [.text xp] :=
    Relation.rowOf_single (c := nullable "xp") rfl _
  have hkeys : (acceptedKeysOf s).rows.map (acceptedKeysOf s).keyOf =
      s.acceptedKeys.rows.map Value.text := List.map_map
  have hacc : (acceptedKeysOf s).Accepts [.text xp] ↔ xp ∉ s.acceptedKeys.rows := by
    have hmem : Value.text xp ∈ s.acceptedKeys.rows.map Value.text ↔ xp ∈ s.acceptedKeys.rows :=
      List.mem_map_of_injective (fun _ _ => Value.text.inj)
    rw [Relation.Accepts, hkeys]
    constructor
    · rintro ⟨-, hnull | hfree⟩
      · cases hnull
      · exact fun hm => hfree (hmem.2 hm)
    · exact fun hm => ⟨.cons (admits_nullable _ _) .nil, .inr fun hm' => hm (hmem.1 hm')⟩
  refine Relation.ext (Relation.columns_insertOrIgnore _ _) (Relation.key_insertOrIgnore _ _) ?_
  show _ = (s.acceptedKeys.insertOrIgnore xp).rows.map fun xp => [Value.text xp]
  rw [rows_insertOrIgnore, Relation.insertOrIgnore]
  by_cases h : xp ∈ s.acceptedKeys.rows
  · rw [dif_neg (by rw [hrow, hacc]; exact not_not.2 h), if_pos h]
    rfl
  · rw [dif_pos (by rw [hrow, hacc]; exact h), if_neg h, List.map_append]
    exact congrArg _ (congrArg (fun row => [row]) hrow)

theorem insertOrIgnoreEach_acceptedKeysOf (s : NoteStore) (rows : List UsernameRow) :
    (acceptedKeysOf s).insertOrIgnoreEach "xp"
        (rows.map fun u => .text (NoteStore.backfillKey u.cx1)) =
      acceptedKeysOf { s with
        acceptedKeys := rows.foldl
          (fun keys u => keys.insertOrIgnore (NoteStore.backfillKey u.cx1)) s.acceptedKeys } := by
  induction rows generalizing s with
  | nil => rfl
  | cons u rows ih =>
    rw [List.map_cons, Relation.insertOrIgnoreEach, List.foldl_cons,
      insertOrIgnore_acceptedKeysOf]
    exact ih _

/-- **Opening a database of this version does what `NoteStore.reopen` says.** -/
theorem openStore_ofStore (s : NoteStore) :
    Opening.openStore (ofStore s) = .ok (ofStore s.reopen) := by
  have hcomplete := complete_ofStore s
  obtain ⟨db', hok, hfin⟩ := setUpLater_ok hcomplete.has_cx1
    (by rintro r ⟨⟩; rfl) (by rintro r ⟨⟩; rfl)
  have he : db' = ofStore s.reopen := by
    refine Database.ext (funext fun t => ?_) ?_
    · by_cases hta : t = "accepted_keys"
      · rw [hta, hfin.acceptedKeys, keysOnFile_ofStore]
        exact congrArg some (insertOrIgnoreEach_acceptedKeysOf s s.usernames.rows)
      · by_cases htf : t = "address_fees"
        · rw [htf, hfin.addressFees]
          rfl
        · rw [hfin.tables t hta htf]
          simp only [ofStore, if_neg hta]
          rfl
    · rw [hfin.indexes]
      rfl
  rw [Opening.openStore, setUp, ← he]
  exact foldlM_append_ok (setUpTables_eq_self hcomplete.created hcomplete) hok

/-- `find_burn` on the database answers what the store's does. -/
theorem findBurn_ofStore (s : NoteStore) (noteIds : List Str) :
    findBurn (ofStore s) noteIds = .ok ((s.findBurn noteIds).map fun b =>
      [.text b.1, textOrNull b.2.1, .int b.2.2.1, intOrNull b.2.2.2]) := by
  have hsaid : (ofStore s).telling "burns" = s.burns.rows.map fun b f => (burnsOf s).said f
      [.text b.burnKey, .text b.id, textOrNull b.id2, .int b.amount1Msat,
        intOrNull b.amount2Msat, textOrNull b.toUsername] := List.map_map
  rw [(complete_ofStore s).findBurn, burnSaid, Database.tell, hsaid, List.filter_map, List.map_map,
    List.head?_map, List.head?_filter, NoteStore.findBurn, Table.find?, Option.map_map]
  have hpred : (fun b : BurnRow => decide (b.burnKey = NoteStore.burnKey noteIds)) =
      fun b => decide (Value.text b.burnKey = .text (NoteStore.burnKey noteIds)) := by
    funext b
    rw [decide_eq_decide]
    exact ⟨congrArg _, Value.text.inj⟩
  rw [hpred]
  refine congrArg Except.ok (congrArg₂ Option.map (funext fun b => rfl)
    (congrArg (s.burns.rows.find? ·) (funext fun b => ?_)))
  exact Bool.and_true _

/-! ## Nothing is lost -/

/-- **Opening an old database loses nothing.** It is opened; then every row reads as what the
database said before, under this version's names and with the stated defaults, `find_burn` answers
what the old rows said, the key of every share on file is accepted and so is every key that was,
and no other table has changed. And opening the database again changes nothing. Of the database that
a store is read off, opening it makes what `NoteStore.reopen` says of the store, and `find_burn`
answers what the store's does. -/
theorem opening_loses_nothing (h : WrittenEarlier db) :
    ∃ db', openStore db = .ok db' ∧
      (∀ p ∈ schema, db'.select p.1 (p.2.map Sql.Field.name) [] = .ok (db.tell p.1 p.2 [])) ∧
      (∀ noteIds, findBurn db' noteIds = .ok (burnSaid db noteIds)) ∧
      (∀ cx1, [.text cx1] ∈ sharesOnFile db →
        ∃ xp, shareXp cx1 = .ok (some xp) ∧ Accepted db' (hex xp)) ∧
      (∀ xp, Accepted db xp → Accepted db' xp) ∧
      (∀ t r, t ∉ schema.map Prod.fst → t ≠ "accepted_keys" → db.tables t = some r →
        db'.tables t = some r) ∧
      openStore db' = .ok db' ∧
      ∀ s : NoteStore, openStore (ofStore s) = .ok (ofStore s.reopen) ∧
        ∀ noteIds, findBurn (ofStore s) noteIds = .ok ((s.findBurn noteIds).map fun b =>
          [.text b.1, textOrNull b.2.1, .int b.2.2.1, intOrNull b.2.2.2]) := by
  obtain ⟨db₁, hok₁, hcarries, -, hcomplete₁⟩ := setUpTables_ok h.carries
  have hacc₁ : db₁.tables "accepted_keys" = db.tables "accepted_keys" :=
    hcarries.others _ (by decide)
  have hfee₁ : db₁.tables "address_fees" = db.tables "address_fees" :=
    hcarries.others _ (by decide)
  obtain ⟨db', hok', hfin⟩ := setUpLater_ok hcomplete₁.has_cx1
    (fun r hr => (h.acceptedKeys r (hacc₁ ▸ hr)).1) fun r hr => (h.addressFees r (hfee₁ ▸ hr)).1
  obtain ⟨halike, hcomplete⟩ := hfin.carries hcarries hcomplete₁
  have hcreated := hcomplete.created
  have hshares₁ : sharesOnFile db₁ = sharesOnFile db := hcarries.sharesOnFile
  -- the accepted keys: those there were, and those of the shares on file
  let ra := (db.tables "accepted_keys").getD acceptedKeys
  have hra : ra.columns = acceptedKeys.columns ∧ ra.key = acceptedKeys.key := by
    cases hr : db.tables "accepted_keys" with
    | none => simp only [ra, hr, Option.getD_none, and_self]
    | some r => simpa only [ra, hr, Option.getD_some] using h.acceptedKeys r hr
  have hkeys : db'.tables "accepted_keys" = some (ra.insertOrIgnoreEach "xp" (keysOnFile db)) := by
    have hon : keysOnFile db₁ = keysOnFile db := by rw [keysOnFile, hshares₁, keysOnFile]
    rw [hfin.acceptedKeys, hacc₁, hon]
  have hcols : (ra.insertOrIgnoreEach "xp" (keysOnFile db)).columns = acceptedKeys.columns := by
    rw [Relation.columns_insertOrIgnoreEach, hra.1]
  have hkey : (ra.insertOrIgnoreEach "xp" (keysOnFile db)).key = acceptedKeys.key := by
    rw [Relation.key_insertOrIgnoreEach, hra.2]
  have hin : ∀ v ∈ keysOnFile db, [v] ∈ (ra.insertOrIgnoreEach "xp" (keysOnFile db)).rows :=
    fun v hv => Relation.single_mem_insertOrIgnoreEach (c := nullable "xp") hra.1 hra.2 hv
      (admits_nullable _ _)
  refine ⟨db', foldlM_append_ok hok₁ hok', fun p hp => ?_, fun noteIds => ?_, fun cx1 hcx1 => ?_,
    fun xp hxp => ?_, fun t r ht hta hr => ?_, ?_,
    fun s => ⟨openStore_ofStore s, findBurn_ofStore s⟩⟩
  · rw [← (halike p hp).tell (fun _ => id) (by simp)]
    exact db'.select_eq p.1 p.2 [] (hcreated p hp) (by simpa using hcomplete p hp)
  · rw [hcomplete.findBurn, burnSaid, burnSaid,
      (halike _ burns_mem_schema).tell (by decide) (by simp [burnsFields])]
  · obtain ⟨cx1', he, hshare⟩ := h.shares _ hcx1
    cases he
    obtain ⟨xp, hxp, hback⟩ := hshare.shareXp
    refine ⟨xp, hxp, (mem_tell_acceptedKeys hkeys hcols hkey _).2 (hin _ ?_)⟩
    rw [← hback]
    exact List.mem_map.2 ⟨_, hcx1, rfl⟩
  · refine (mem_tell_acceptedKeys hkeys hcols hkey _).2 (Relation.mem_insertOrIgnoreEach _ ?_)
    cases hr : db.tables "accepted_keys" with
    | none => simp [Accepted, Database.tell, Database.telling, hr] at hxp
    | some r =>
      have := (mem_tell_acceptedKeys hr (h.acceptedKeys r hr).1 (h.acceptedKeys r hr).2 _).1 hxp
      simpa only [ra, hr, Option.getD_some] using this
  · by_cases htf : t = "address_fees"
    · rw [htf] at hr ⊢
      rw [hfin.addressFees, hfee₁, hr, Option.getD_some]
    · rw [hfin.tables t hta htf, hcarries.others t ht, hr]
  · refine Current.openStore ⟨hcreated, hcomplete, ⟨_, hkeys, hcols, hkey, fun v hv => ?_⟩, ?_, ?_⟩
    · have hon : keysOnFile db' = keysOnFile db := by
        have : sharesOnFile db' = sharesOnFile db :=
          (halike _ usernames_mem_schema).tell (by decide) (by simp)
        rw [keysOnFile, this, keysOnFile]
      rw [hon] at hv
      obtain ⟨xp, rfl⟩ := keyOfShare_of_mem h.shares hv
      exact ⟨by simp, hin _ hv⟩
    · refine ⟨_, hfin.addressFees, ?_⟩
      rw [hfee₁]
      cases hr : db.tables "address_fees" with
      | none => rfl
      | some r => exact (h.addressFees r hr).1
    · rw [hfin.indexes]
      split
      · assumption
      · simp

/-- A share of the superseded form. -/
def oldShare : Str := hex (.replicate 64 170)

/-- A database from before the columns got their names: a note, an invoice that names it, a burn
and an address, and nothing of what came later. -/
def oldDatabase : Database where
  tables t :=
    if t = "notes" then some
      { columns := [nullable "id", required "amount_msat", counter "spent"], distinct := by decide
        key := 0, key_lt := by decide, rows := [[.text ['a'], .int 5000, .int 1]]
        fits := by decide, keyed := by decide }
    else if t = "mints" then some
      { columns := [nullable "payment_hash", required "amount_msat", counter "minted",
          nullable "comment_hash"], distinct := by decide
        key := 0, key_lt := by decide, rows := [[.text ['p'], .int 5000, .int 1, .text ['a']]]
        fits := by decide, keyed := by decide }
    else if t = "burns" then some
      { columns := [nullable "burn_key", required "h", nullable "h2", required "amount1_msat",
          nullable "amount2_msat"], distinct := by decide
        key := 0, key_lt := by decide
        rows := [[.text ['a'], .text ['b'], .null, .int 5000, .null]]
        fits := by decide, keyed := by decide }
    else if t = "usernames" then some
      { columns := [nullable "username", required "cx1", counter "next_index"]
        distinct := by decide, key := 0, key_lt := by decide
        rows := [[.text ['o', 'l', 'd'], .text oldShare, .int 0]]
        fits := by decide, keyed := by decide }
    else none
  indexes := []

theorem writtenEarlier_oldDatabase : WrittenEarlier oldDatabase where
  columns := by decide
  acceptedKeys := by decide
  addressFees := by decide
  shares := by
    have hshares : sharesOnFile oldDatabase = [[.text oldShare]] := rfl
    rw [hshares, List.forall_mem_singleton]
    exact ⟨oldShare, rfl, .replicate 64 170, rfl, .inl rfl⟩

theorem opening_oldDatabase :
    ∃ db', openStore oldDatabase = .ok db' ∧
      db'.select "notes" (notesFields.map Sql.Field.name) [] =
        .ok [[.text ['a'], .int 5000, .int 1, .int 0, .null, .int 0]] ∧
      findBurn db' [['a']] = .ok (some [.text ['b'], .null, .int 5000, .null]) ∧
      (∃ xp, shareXp oldShare = .ok (some xp) ∧ Accepted db' (hex xp)) ∧
      openStore db' = .ok db' := by
  obtain ⟨db', hok, hselect, hburn, hshares, -, -, hagain, -⟩ :=
    opening_loses_nothing writtenEarlier_oldDatabase
  refine ⟨db', hok, ?_, ?_, hshares oldShare ?_, hagain⟩
  · exact (hselect ("notes", notesFields) (by decide)).trans rfl
  · exact (hburn [['a']]).trans (congrArg Except.ok (by decide))
  · exact List.mem_singleton.2 rfl

end Opening

end LnurlMint
