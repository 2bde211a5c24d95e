import Mathlib.Data.Int.Notation
import Mathlib.Data.List.Forall2
import Mathlib.Data.List.Nodup
import Mathlib.Logic.Function.Basic

/-!
# A relational database and its data definition language

Relations with named columns, and the statements a client issues to bring a database that an
earlier version of it made to the schema it has now: create a relation, rename a column, add one.

A relation's rows are positional and its columns say what the positions are called. So renaming a
column touches no row, and adding one appends its default to every row.

What a database *says* is a matter of the reader's schema, not of the database's own: a `Field` is
a column together with the name it had once and the value it has where it is missing altogether.
`Relation.said` reads a row that way, whatever the relation's own columns are, and this is what a
renaming or an addition must leave alone. It does, on two conditions, which `Field.Fits` and
`Relation.Settled` name: the statement is about this field or about none of its names, and a
column that was renamed is not added under its new name while the old one still stands.

## Main definitions

* `Value`, `Column`, `Relation`, `Database`
* `Relation.renameColumn`, `Relation.addColumn`, `Relation.insertOrIgnore`, `Relation.select`
* `Field`, `Relation.said`, `Database.tell`

## Main results

* `Relation.said_renameColumn`, `Relation.said_addColumn`
* `Relation.select_eq` — a relation that has a schema's columns is read under their names
-/

namespace Sql

/-! ## Values, columns and relations -/

/-- What a cell holds. -/
inductive Value
  | null
  | int (n : ℤ)
  | text (s : List Char)
deriving DecidableEq

/-- A column as it is declared. -/
structure Column where
  name : String
  notNull : Bool
  /-- The value of a row that names none. -/
  default : Value
deriving DecidableEq

/-- Whether a column may hold a value. -/
def Column.Admits (c : Column) (v : Value) : Prop := c.notNull = true → v ≠ .null

instance (c : Column) (v : Value) : Decidable (c.Admits v) :=
  inferInstanceAs (Decidable (_ → _))

/-- A row, one cell a column. -/
abbrev Row := List Value

/-- What a statement raises. -/
inductive Error
  | noSuchTable
  | noSuchColumn
  | duplicateColumn
  /-- A column that may not be null is added without a default. -/
  | nullDefault
deriving DecidableEq

/-- A relation with a primary key of one column. -/
@[ext]
structure Relation where
  columns : List Column
  distinct : (columns.map Column.name).Nodup
  /-- The position of the primary key. -/
  key : ℕ
  key_lt : key < columns.length
  /-- The rows in insertion order. -/
  rows : List Row
  fits : ∀ row ∈ rows, List.Forall₂ Column.Admits columns row
  /-- No two rows share a key, unless it is null. -/
  keyed : rows.Pairwise fun row row' =>
    row.getD key .null = row'.getD key .null → row.getD key .null = .null

namespace Relation

variable (r : Relation)

/-- The relation's columns by name. -/
def names : List String := r.columns.map Column.name

/-- The cell of a row under a column. -/
def cell (c : String) (row : Row) : Option Value := (r.names.zip row).lookup c

/-- A relation without rows. -/
def empty (columns : List Column) (key : ℕ) (distinct : (columns.map Column.name).Nodup)
    (key_lt : key < columns.length) : Relation where
  columns
  distinct
  key
  key_lt
  rows := []
  fits := by simp
  keyed := .nil

theorem length_row {row : Row} (h : row ∈ r.rows) : row.length = r.names.length := by
  rw [names, List.length_map]
  exact (r.fits row h).length_eq.symm

/-! ## Renaming a column -/

/-- What a column name becomes when `old` is renamed to `new`. -/
def renamed (old new n : String) : String := if n = old then new else n

theorem nodup_map_renamed {old new : String} {ns : List String} (h : ns.Nodup) (hnew : new ∉ ns) :
    (ns.map (renamed old new)).Nodup := by
  refine h.map_on fun n hn n' hn' he => ?_
  have hne : n ≠ new := fun e => hnew (e ▸ hn)
  have hne' : n' ≠ new := fun e => hnew (e ▸ hn')
  grind [renamed]

/-- `ALTER TABLE … RENAME COLUMN old TO new`. -/
def renameColumn (old new : String) : Except Error Relation :=
  if old ∉ r.names then .error .noSuchColumn
  else if h : new ∈ r.names then .error .duplicateColumn
  else .ok { r with
    columns := r.columns.map fun c => { c with name := renamed old new c.name }
    distinct := by
      have hnodup : ((r.columns.map Column.name).map (renamed old new)).Nodup :=
        nodup_map_renamed r.distinct h
      simpa [Function.comp_def] using hnodup
    key_lt := by simpa using r.key_lt
    fits := fun row hrow => by
      rw [List.forall₂_map_left_iff]
      exact (r.fits row hrow).imp fun c v hv => hv }

theorem renameColumn_ok {r r' : Relation} {old new : String} (h : r.renameColumn old new = .ok r') :
    old ∈ r.names ∧ new ∉ r.names ∧ r'.names = r.names.map (renamed old new) ∧
      r'.rows = r.rows := by
  rw [renameColumn] at h
  split at h
  · cases h
  rename_i hold
  split at h
  · cases h
  rename_i hnew
  cases h
  exact ⟨not_not.1 hold, hnew, by simp [names, Function.comp_def], rfl⟩

theorem mem_names_renameColumn {r r' : Relation} {old new c : String}
    (h : r.renameColumn old new = .ok r') :
    c ∈ r'.names ↔ c = new ∨ (c ∈ r.names ∧ c ≠ old) := by
  obtain ⟨hold, -, hnames, -⟩ := renameColumn_ok h
  rw [hnames, List.mem_map]
  constructor
  · rintro ⟨n, hn, rfl⟩
    by_cases ho : n = old
    · exact .inl (if_pos ho)
    · rw [show renamed old new n = n from if_neg ho]
      exact .inr ⟨hn, ho⟩
  · rintro (rfl | ⟨hc, hne⟩)
    · exact ⟨old, hold, if_pos rfl⟩
    · exact ⟨c, hc, if_neg hne⟩

theorem renameColumn_isOk {old new : String} (hold : old ∈ r.names) (hnew : new ∉ r.names) :
    ∃ r', r.renameColumn old new = .ok r' := by
  rw [renameColumn, if_neg (not_not.2 hold), dif_neg hnew]
  exact ⟨_, rfl⟩

/-! ## Adding a column -/

theorem getD_append_of_lt {row : Row} {v : Value} {k : ℕ} (h : k < row.length) :
    (row ++ [v]).getD k .null = row.getD k .null := by
  rw [List.getD_eq_getElem?_getD, List.getElem?_append_left h, List.getD_eq_getElem?_getD]

/-- `ALTER TABLE … ADD COLUMN c`. -/
def addColumn (c : Column) : Except Error Relation :=
  if h : c.name ∈ r.names then .error .duplicateColumn
  else if hc : c.Admits c.default then .ok
    { columns := r.columns ++ [c]
      distinct := by
        rw [List.map_append, List.map_singleton, ← List.concat_eq_append]
        exact r.distinct.concat h
      key := r.key
      key_lt := by
        rw [List.length_append]
        exact Nat.lt_add_right _ r.key_lt
      rows := r.rows.map fun row => row ++ [c.default]
      fits := by
        rw [List.forall_mem_map]
        intro row hrow
        exact List.rel_append (r.fits row hrow) (.cons hc .nil)
      keyed := by
        rw [List.pairwise_map]
        refine r.keyed.imp_of_mem fun {row row'} hrow hrow' hk => ?_
        have hl : r.key < row.length := (r.fits row hrow).length_eq ▸ r.key_lt
        have hl' : r.key < row'.length := (r.fits row' hrow').length_eq ▸ r.key_lt
        rwa [getD_append_of_lt hl, getD_append_of_lt hl'] }
  else .error .nullDefault

theorem addColumn_ok {r r' : Relation} {c : Column} (h : r.addColumn c = .ok r') :
    c.name ∉ r.names ∧ r'.names = r.names ++ [c.name] ∧
      r'.rows = r.rows.map fun row => row ++ [c.default] := by
  rw [addColumn] at h
  split at h
  · cases h
  rename_i hname
  split at h
  · cases h
    exact ⟨hname, by simp [names], rfl⟩
  · cases h

theorem addColumn_isOk {c : Column} (hname : c.name ∉ r.names) (hc : c.Admits c.default) :
    ∃ r', r.addColumn c = .ok r' := by
  rw [addColumn, dif_neg hname, dif_pos hc]
  exact ⟨_, rfl⟩

/-! ## Inserting a row -/

/-- The cell under the primary key. -/
def keyOf (row : Row) : Value := row.getD r.key .null

/-- The row that names some of its cells. -/
def rowOf (given : List (String × Value)) : Row :=
  r.columns.map fun c => (given.lookup c.name).getD c.default

/-- Whether a row is within the relation's constraints. -/
def Accepts (row : Row) : Prop :=
  List.Forall₂ Column.Admits r.columns row ∧
    (r.keyOf row = .null ∨ r.keyOf row ∉ r.rows.map r.keyOf)

instance (row : Row) : Decidable (r.Accepts row) := inferInstanceAs (Decidable (_ ∧ _))

/-- `INSERT OR IGNORE INTO …`: a row that breaks a constraint is left out. -/
def insertOrIgnore (given : List (String × Value)) : Relation :=
  if h : r.Accepts (r.rowOf given) then
    { r with
      rows := r.rows ++ [r.rowOf given]
      fits := by
        intro row hrow
        rcases List.mem_append.1 hrow with hrow | hrow
        · exact r.fits row hrow
        · rw [List.mem_singleton.1 hrow]
          exact h.1
      keyed := by
        rw [List.pairwise_append]
        refine ⟨r.keyed, List.pairwise_singleton _ _, fun row hrow row' hrow' he => ?_⟩
        rw [List.mem_singleton.1 hrow'] at he
        rcases h.2 with hnull | hfree
        · exact he.trans hnull
        · exact absurd (List.mem_map.2 ⟨row, hrow, he⟩) hfree }
  else r

@[simp] theorem columns_insertOrIgnore (given : List (String × Value)) :
    (r.insertOrIgnore given).columns = r.columns := by
  rw [insertOrIgnore]
  split <;> rfl

@[simp] theorem key_insertOrIgnore (given : List (String × Value)) :
    (r.insertOrIgnore given).key = r.key := by
  rw [insertOrIgnore]
  split <;> rfl

theorem mem_insertOrIgnore {given : List (String × Value)} {row : Row} (h : row ∈ r.rows) :
    row ∈ (r.insertOrIgnore given).rows := by
  rw [insertOrIgnore]
  split
  · exact List.mem_append_left _ h
  · exact h

/-- A row that breaks no constraint of its own is in the relation afterwards, or another under its
key. -/
theorem key_mem_insertOrIgnore {given : List (String × Value)}
    (h : List.Forall₂ Column.Admits r.columns (r.rowOf given)) :
    r.keyOf (r.rowOf given) ∈ (r.insertOrIgnore given).rows.map r.keyOf := by
  rw [insertOrIgnore]
  split
  · exact List.mem_map_of_mem (by simp)
  · rename_i hacc
    by_contra hkey
    exact hacc ⟨h, .inr hkey⟩

/-- A row whose key is taken is left out. -/
theorem insertOrIgnore_of_mem {given : List (String × Value)}
    (hnull : r.keyOf (r.rowOf given) ≠ .null)
    (hmem : r.keyOf (r.rowOf given) ∈ r.rows.map r.keyOf) : r.insertOrIgnore given = r := by
  rw [insertOrIgnore, dif_neg]
  rintro ⟨-, hkey | hkey⟩
  · exact hnull hkey
  · exact hkey hmem

/-- The same for each of some values of one column. -/
def insertOrIgnoreEach (c : String) (vs : List Value) : Relation :=
  vs.foldl (fun r v => r.insertOrIgnore [(c, v)]) r

@[simp] theorem columns_insertOrIgnoreEach (c : String) (vs : List Value) :
    (r.insertOrIgnoreEach c vs).columns = r.columns := by
  induction vs generalizing r with
  | nil => rfl
  | cons v vs ih => exact (ih _).trans (columns_insertOrIgnore _ _)

@[simp] theorem key_insertOrIgnoreEach (c : String) (vs : List Value) :
    (r.insertOrIgnoreEach c vs).key = r.key := by
  induction vs generalizing r with
  | nil => rfl
  | cons v vs ih => exact (ih _).trans (key_insertOrIgnore _ _)

theorem mem_insertOrIgnoreEach {c : String} {vs : List Value} {row : Row} (h : row ∈ r.rows) :
    row ∈ (r.insertOrIgnoreEach c vs).rows := by
  induction vs generalizing r with
  | nil => exact h
  | cons v vs ih => exact ih _ (r.mem_insertOrIgnore h)

section OneColumn

variable {r} {c : Column}

theorem rowOf_single (hc : r.columns = [c]) (v : Value) : r.rowOf [(c.name, v)] = [v] := by
  simp [rowOf, hc]

theorem keyOf_single (hkey : r.key = 0) (v : Value) : r.keyOf [v] = v := by
  rw [keyOf, hkey]
  rfl

theorem eq_single_of_mem (hc : r.columns = [c]) (hkey : r.key = 0) {row : Row}
    (hrow : row ∈ r.rows) : row = [r.keyOf row] := by
  have hl : row.length = 1 := by rw [r.length_row hrow, names, hc]; rfl
  obtain ⟨v, rfl⟩ := List.length_eq_one_iff.1 hl
  rw [keyOf_single hkey]

theorem single_mem_insertOrIgnore (hc : r.columns = [c]) (hkey : r.key = 0) {v : Value}
    (hadm : c.Admits v) : [v] ∈ (r.insertOrIgnore [(c.name, v)]).rows := by
  have hfits : List.Forall₂ Column.Admits r.columns (r.rowOf [(c.name, v)]) := by
    rw [rowOf_single hc, hc]
    exact .cons hadm .nil
  obtain ⟨row, hrow, hk⟩ := List.mem_map.1 (r.key_mem_insertOrIgnore hfits)
  rw [rowOf_single hc, keyOf_single hkey] at hk
  have hkey' : (r.insertOrIgnore [(c.name, v)]).keyOf row = v := by
    rw [keyOf, key_insertOrIgnore]
    exact hk
  have hone : row = [v] := hkey' ▸ eq_single_of_mem ((columns_insertOrIgnore _ _).trans hc)
    ((key_insertOrIgnore _ _).trans hkey) hrow
  rwa [hone] at hrow

/-- A relation of one column takes each value that the column admits. -/
theorem single_mem_insertOrIgnoreEach (hc : r.columns = [c]) (hkey : r.key = 0)
    {vs : List Value} {v : Value} (hv : v ∈ vs) (hadm : c.Admits v) :
    [v] ∈ (r.insertOrIgnoreEach c.name vs).rows := by
  induction vs generalizing r with
  | nil => cases hv
  | cons w vs ih =>
    have hc' := (columns_insertOrIgnore r [(c.name, w)]).trans hc
    have hkey' := (key_insertOrIgnore r [(c.name, w)]).trans hkey
    rcases List.mem_cons.1 hv with rfl | hv
    · exact mem_insertOrIgnoreEach (r.insertOrIgnore _) (single_mem_insertOrIgnore hc hkey hadm)
    · exact ih hc' hkey' hv

/-- A relation of one column that has each value already is left as it is. -/
theorem insertOrIgnoreEach_of_mem (hc : r.columns = [c]) (hkey : r.key = 0) {vs : List Value}
    (hnull : ∀ v ∈ vs, v ≠ .null) (hmem : ∀ v ∈ vs, [v] ∈ r.rows) :
    r.insertOrIgnoreEach c.name vs = r := by
  induction vs with
  | nil => rfl
  | cons v vs ih =>
    rw [List.forall_mem_cons] at hnull hmem
    have hrow : r.keyOf (r.rowOf [(c.name, v)]) = v := by
      rw [rowOf_single hc, keyOf_single hkey]
    have hone : r.insertOrIgnore [(c.name, v)] = r := by
      refine r.insertOrIgnore_of_mem ?_ (List.mem_map.2 ⟨[v], hmem.1, ?_⟩)
      · rw [hrow]
        exact hnull.1
      · rw [hrow, keyOf_single hkey]
    rw [insertOrIgnoreEach, List.foldl_cons, hone]
    exact ih hnull.2 hmem.2

end OneColumn

/-! ## Reading rows -/

/-- `SELECT cs FROM … WHERE c = v AND …`. -/
def select (cs : List String) (conds : List (String × Value)) : Except Error (List Row) :=
  if ∀ c ∈ cs ++ conds.map Prod.fst, c ∈ r.names then
    .ok ((r.rows.filter fun row => conds.all fun p => (r.cell p.1 row).getD .null = p.2).map
      fun row => cs.map fun c => (r.cell c row).getD .null)
  else .error .noSuchColumn

theorem cell_of_notMem {c : String} (h : c ∉ r.names) (row : Row) : r.cell c row = none := by
  rw [cell, List.lookup_eq_none_iff]
  rintro ⟨n, v⟩ hp
  have hne : c ≠ n := by
    rintro rfl
    exact h (List.of_mem_zip hp).1
  simpa using hne

theorem lookup_cons_of_ne {c n : String} (h : c ≠ n) (v : Value) (l : List (String × Value)) :
    ((n, v) :: l).lookup c = l.lookup c := by
  rw [List.lookup_cons, beq_false_of_ne h]

theorem lookup_zip_isSome {c : String} : ∀ {ns : List String} {row : Row}, c ∈ ns →
    row.length = ns.length → ((ns.zip row).lookup c).isSome
  | n :: ns, v :: row, hc, hl => by
    rw [List.zip_cons_cons]
    by_cases hn : c = n
    · rw [hn, List.lookup_cons_self, Option.isSome_some]
    · rw [lookup_cons_of_ne hn]
      exact lookup_zip_isSome ((List.mem_cons.1 hc).resolve_left hn) (by simpa using hl)

theorem cell_isSome {c : String} (h : c ∈ r.names) {row : Row} (hrow : row ∈ r.rows) :
    ∃ v, r.cell c row = some v :=
  Option.isSome_iff_exists.1 (lookup_zip_isSome h (r.length_row hrow))

theorem lookup_zip_renamed {old new : String} {ns : List String} (hnew : new ∉ ns) (row : Row) :
    ((ns.map (renamed old new)).zip row).lookup new = (ns.zip row).lookup old := by
  induction ns generalizing row with
  | nil => simp
  | cons n ns ih =>
    cases row with
    | nil => simp
    | cons v row =>
      have hn : new ≠ n := fun e => hnew (e ▸ List.mem_cons_self)
      have ih := ih (fun hm => hnew (List.mem_cons_of_mem _ hm)) row
      rw [List.map_cons, List.zip_cons_cons, List.zip_cons_cons, renamed]
      by_cases ho : n = old
      · rw [if_pos ho, ho, List.lookup_cons_self, List.lookup_cons_self]
      · rw [if_neg ho, lookup_cons_of_ne hn, lookup_cons_of_ne (Ne.symm ho), ih]

theorem lookup_zip_renamed_of_ne {old new c : String} (hold : c ≠ old) (hnew : c ≠ new)
    (ns : List String) (row : Row) :
    ((ns.map (renamed old new)).zip row).lookup c = (ns.zip row).lookup c := by
  induction ns generalizing row with
  | nil => simp
  | cons n ns ih =>
    cases row with
    | nil => simp
    | cons v row =>
      rw [List.map_cons, List.zip_cons_cons, List.zip_cons_cons, renamed]
      by_cases ho : n = old
      · rw [if_pos ho, ho, lookup_cons_of_ne hnew, lookup_cons_of_ne hold, ih]
      · rw [if_neg ho, List.lookup_cons, List.lookup_cons, ih]

theorem lookup_zip_append {ns : List String} {row : Row} (hl : row.length = ns.length)
    (n c : String) (v : Value) :
    ((ns ++ [n]).zip (row ++ [v])).lookup c =
      ((ns.zip row).lookup c).or (if c = n then some v else none) := by
  rw [List.zip_append hl.symm, List.lookup_append, List.zip_cons_cons, List.zip_nil_left]
  by_cases hn : c = n
  · rw [if_pos hn, hn, List.lookup_cons_self]
  · rw [if_neg hn, lookup_cons_of_ne hn, List.lookup_nil]

end Relation

/-! ## What a relation says -/

/-- A column of a reader's schema. -/
structure Field where
  name : String
  /-- What it is where it is missing. -/
  default : Value
  /-- The name it had once. -/
  formerly : Option String
deriving DecidableEq

namespace Field

variable (f : Field)

/-- A column is none of the field's. -/
def Apart (c : String) : Prop := f.name ≠ c ∧ f.formerly ≠ some c

/-- A renaming brings the field its name, or is about another one. -/
def FitsRename (old new : String) : Prop :=
  (f.formerly = some old ∧ f.name = new) ∨ (f.Apart old ∧ f.Apart new)

/-- An addition brings the field its default, or is about another one. -/
def FitsAdd (c : Column) : Prop := (f.name = c.name ∧ f.default = c.default) ∨ f.Apart c.name

instance (c : String) : Decidable (f.Apart c) := inferInstanceAs (Decidable (_ ∧ _))

instance (old new : String) : Decidable (f.FitsRename old new) :=
  inferInstanceAs (Decidable (_ ∨ _))

instance (c : Column) : Decidable (f.FitsAdd c) := inferInstanceAs (Decidable (_ ∨ _))

end Field

namespace Relation

variable (r : Relation)

/-- What a row says of a field: its cell under the field's name, or under the name it had once, or
the field's default. -/
def said (f : Field) (row : Row) : Value :=
  ((r.cell f.name row).or (f.formerly.bind fun c => r.cell c row)).getD f.default

/-- A field's former name does not stand alone. -/
def Settled (f : Field) : Prop :=
  ∀ c, f.formerly = some c → c ∈ r.names → f.name ∈ r.names

theorem said_of_mem {f : Field} (h : f.name ∈ r.names) {row : Row} (hrow : row ∈ r.rows) :
    r.said f row = (r.cell f.name row).getD .null := by
  obtain ⟨v, hv⟩ := r.cell_isSome h hrow
  rw [said, hv, Option.some_or, Option.getD_some, Option.getD_some]

theorem said_of_apart {r r' : Relation} {f : Field} {row row' : Row}
    (h : ∀ c, c = f.name ∨ f.formerly = some c → r'.cell c row' = r.cell c row) :
    r'.said f row' = r.said f row := by
  rw [said, said, h _ (.inl rfl)]
  cases hf : f.formerly with
  | none => rfl
  | some c => rw [Option.bind_some, Option.bind_some, h c (.inr hf)]

/-- **A renaming leaves what a row says.** -/
theorem said_renameColumn {r r' : Relation} {old new : String}
    (h : r.renameColumn old new = .ok r') {f : Field} (hf : f.FitsRename old new) (row : Row) :
    r'.said f row = r.said f row := by
  obtain ⟨hold, hnew, hnames, -⟩ := renameColumn_ok h
  have hne : old ≠ new := fun e => hnew (e ▸ hold)
  rcases hf with ⟨hformer, rfl⟩ | ⟨hao, han⟩
  · -- what was under the old name is under the new one, and nothing is under the old one
    have hcell : r'.cell f.name row = r.cell old row := by
      rw [cell, hnames, lookup_zip_renamed hnew]
      rfl
    have hgone : old ∉ r'.names := fun hm =>
      ((mem_names_renameColumn h).1 hm).elim hne fun hm => hm.2 rfl
    rw [said, said, hformer, Option.bind_some, Option.bind_some, hcell, r'.cell_of_notMem hgone,
      r.cell_of_notMem hnew, Option.or_none, Option.none_or]
  · refine said_of_apart fun c hc => ?_
    have hco : c ≠ old := by
      rcases hc with rfl | hc
      · exact hao.1
      · exact fun e => hao.2 (e ▸ hc)
    have hcn : c ≠ new := by
      rcases hc with rfl | hc
      · exact han.1
      · exact fun e => han.2 (e ▸ hc)
    rw [cell, hnames, lookup_zip_renamed_of_ne hco hcn]
    rfl

/-- **An addition leaves what a row says**, once the field has its name. -/
theorem said_addColumn {r r' : Relation} {c : Column} (h : r.addColumn c = .ok r') {f : Field}
    (hf : f.FitsAdd c) (hs : r.Settled f) {row : Row} (hrow : row ∈ r.rows) :
    r'.said f (row ++ [c.default]) = r.said f row := by
  obtain ⟨hname, hnames, -⟩ := addColumn_ok h
  have hcell : ∀ n, r'.cell n (row ++ [c.default]) =
      (r.cell n row).or (if n = c.name then some c.default else none) := by
    intro n
    rw [cell, hnames, lookup_zip_append (r.length_row hrow)]
    rfl
  rcases hf with ⟨hfn, hdef⟩ | hapart
  · -- the field is missing, under its former name too
    have hformer : (f.formerly.bind fun n => r.cell n row) = none := by
      cases hfo : f.formerly with
      | none => rfl
      | some n => exact r.cell_of_notMem (fun hm => hname (hfn ▸ hs n hfo hm)) row
    have hmissing : r.cell f.name row = none := r.cell_of_notMem (hfn ▸ hname) row
    have hadded : r'.cell f.name (row ++ [c.default]) = some c.default := by
      rw [hcell, hmissing, Option.none_or]
      exact if_pos hfn
    rw [said, said, hadded, hmissing, hformer, hdef]
    rfl
  · refine said_of_apart fun n hn => ?_
    have hne : n ≠ c.name := by
      rcases hn with rfl | hn
      · exact hapart.1
      · exact fun e => hapart.2 (e ▸ hn)
    rw [hcell, if_neg hne, Option.or_none]

end Relation

/-! ## Databases -/

/-- A database: its relations by name, and the names of its indexes. -/
@[ext]
structure Database where
  tables : String → Option Relation
  indexes : List String

namespace Database

variable (db : Database)

/-- The database without relations. -/
def empty : Database := ⟨fun _ => none, []⟩

/-- The database with a relation in place of another. -/
def put (t : String) (r : Relation) : Database :=
  { db with tables := Function.update db.tables t (some r) }

@[simp] theorem tables_put (t : String) (r : Relation) : (db.put t r).tables t = some r :=
  Function.update_self _ _ _

theorem tables_put_of_ne {t t' : String} (h : t' ≠ t) (r : Relation) :
    (db.put t r).tables t' = db.tables t' :=
  Function.update_of_ne h _ _

@[simp] theorem indexes_put (t : String) (r : Relation) : (db.put t r).indexes = db.indexes := rfl

/-- The column names of `PRAGMA table_info`. -/
def tableInfo (t : String) : List String := (db.tables t).elim [] Relation.names

/-- `CREATE TABLE IF NOT EXISTS`. -/
def createTable (t : String) (r : Relation) : Database :=
  if (db.tables t).isSome then db else db.put t r

theorem tables_createTable (t : String) (r : Relation) :
    (db.createTable t r).tables t = some ((db.tables t).getD r) := by
  rw [createTable]
  cases h : db.tables t with
  | none => exact db.tables_put t r
  | some r' => exact h

theorem tables_createTable_of_ne {t t' : String} (h : t' ≠ t) (r : Relation) :
    (db.createTable t r).tables t' = db.tables t' := by
  rw [createTable]
  split
  · rfl
  · exact db.tables_put_of_ne h r

theorem createTable_of_isSome {t : String} (h : (db.tables t).isSome) (r : Relation) :
    db.createTable t r = db := if_pos h

@[simp] theorem indexes_createTable (t : String) (r : Relation) :
    (db.createTable t r).indexes = db.indexes := by
  rw [createTable]
  split <;> rfl

/-- A statement about one relation. -/
def alter (t : String) (f : Relation → Except Error Relation) : Except Error Database :=
  match db.tables t with
  | none => .error .noSuchTable
  | some r => (f r).map (db.put t)

/-- `CREATE INDEX IF NOT EXISTS i ON t (c)`. -/
def createIndex (i t c : String) : Except Error Database :=
  if (db.tables t).isNone then .error .noSuchTable
  else if i ∈ db.indexes then .ok db
  else if c ∉ db.tableInfo t then .error .noSuchColumn
  else .ok { db with indexes := db.indexes ++ [i] }

/-- `SELECT cs FROM t WHERE c = v AND …`. -/
def select (t : String) (cs : List String) (conds : List (String × Value)) :
    Except Error (List Row) :=
  match db.tables t with
  | none => .error .noSuchTable
  | some r => r.select cs conds

/-- What the rows of a relation say, one function of the field a row. A missing relation has no
rows. -/
def telling (t : String) : List (Field → Value) :=
  (db.tables t).elim [] fun r => r.rows.map fun row f => r.said f row

/-- What the rows that meet some conditions say of some fields. -/
def tell (t : String) (fs : List Field) (conds : List (Field × Value)) : List Row :=
  ((db.telling t).filter fun g => conds.all fun p => g p.1 = p.2).map fs.map

theorem tell_of_eq_some {t : String} {r : Relation} (hr : db.tables t = some r)
    (fs : List Field) : db.tell t fs [] = r.rows.map fun row => fs.map fun f => r.said f row := by
  simp [tell, telling, hr, Function.comp_def]

/-- A relation has a column. -/
def Has (t c : String) : Prop := c ∈ db.tableInfo t

instance (t c : String) : Decidable (db.Has t c) := inferInstanceAs (Decidable (_ ∈ _))

theorem has_iff {t c : String} : db.Has t c ↔ ∃ r, db.tables t = some r ∧ c ∈ r.names := by
  rw [Has, tableInfo]
  cases db.tables t <;> simp

theorem has_createTable {t t' c : String} {r : Relation} (h : db.Has t c) :
    (db.createTable t' r).Has t c := by
  obtain ⟨r', hr', hc⟩ := db.has_iff.1 h
  rw [has_iff]
  refine ⟨r', ?_, hc⟩
  by_cases ht : t = t'
  · subst ht
    rw [tables_createTable, hr', Option.getD_some]
  · rw [tables_createTable_of_ne _ ht, hr']

theorem alter_of_eq {t : String} {r r' : Relation} {f : Relation → Except Error Relation}
    (hr : db.tables t = some r) (hf : f r = .ok r') : db.alter t f = .ok (db.put t r') := by
  rw [alter, hr]
  show (f r).map (db.put t) = _
  rw [hf]
  rfl

/-- **A relation that has a schema's columns is read under their names.** -/
theorem select_eq (t : String) (fs : List Field) (conds : List (Field × Value))
    (hsome : (db.tables t).isSome) (h : ∀ f ∈ fs ++ conds.map Prod.fst, db.Has t f.name) :
    db.select t (fs.map Field.name) (conds.map fun p => (p.1.name, p.2)) =
      .ok (db.tell t fs conds) := by
  obtain ⟨r, hr⟩ := Option.isSome_iff_exists.1 hsome
  have hnames : ∀ f ∈ fs ++ conds.map Prod.fst, f.name ∈ r.names := by
    intro f hf
    have := h f hf
    rwa [Has, tableInfo, hr] at this
  have hsaid : ∀ f ∈ fs ++ conds.map Prod.fst, ∀ row ∈ r.rows,
      (r.cell f.name row).getD .null = r.said f row := fun f hf row hrow =>
    (r.said_of_mem (hnames f hf) hrow).symm
  have hcols : ∀ c ∈ fs.map Field.name ++ (conds.map fun p => (p.1.name, p.2)).map Prod.fst,
      c ∈ r.names := by
    intro c hc
    have hc' : c ∈ (fs ++ conds.map Prod.fst).map Field.name := by
      simpa [Function.comp_def] using hc
    obtain ⟨f, hf, rfl⟩ := List.mem_map.1 hc'
    exact hnames f hf
  rw [select, hr]
  show r.select _ _ = _
  rw [Relation.select, if_pos hcols, tell, telling, hr, Option.elim_some, List.filter_map,
    List.map_map]
  congr 1
  have hfilter : (r.rows.filter fun row => (conds.map fun p => (p.1.name, p.2)).all fun p =>
        (r.cell p.1 row).getD .null = p.2) =
      r.rows.filter ((fun g => conds.all fun p => g p.1 = p.2) ∘ fun row f => r.said f row) := by
    refine List.filter_congr fun row hrow => ?_
    rw [List.all_map, Function.comp_apply, Bool.eq_iff_iff, List.all_eq_true, List.all_eq_true]
    refine forall₂_congr fun p hp => ?_
    rw [Function.comp_apply,
      hsaid p.1 (List.mem_append_right _ (List.mem_map_of_mem hp)) row hrow]
  rw [hfilter]
  refine List.map_congr_left fun row hrow => ?_
  rw [List.map_map, Function.comp_apply]
  refine List.map_congr_left fun f hf => ?_
  exact hsaid f (List.mem_append_left _ hf) row (List.mem_of_mem_filter hrow)

/-! ## Databases that say the same -/

/-- Two databases say the same of some fields of a relation. -/
def Alike (t : String) (fs : List Field) (db db' : Database) : Prop :=
  List.Forall₂ (fun g g' : Field → Value => ∀ f ∈ fs, g' f = g f) (db.telling t) (db'.telling t)

variable {db}

theorem Alike.refl (t : String) (fs : List Field) (db : Database) : Alike t fs db db :=
  List.forall₂_same.2 fun _ _ _ _ => rfl

theorem Alike.of_eq {t : String} {fs : List Field} {db' : Database}
    (h : db'.tables t = db.tables t) : Alike t fs db db' := by
  rw [Alike, telling, telling, h]
  exact List.forall₂_same.2 fun _ _ _ _ => rfl

theorem Alike.trans {t : String} {fs : List Field} {db' db'' : Database}
    (h : Alike t fs db db') (h' : Alike t fs db' db'') : Alike t fs db db'' := by
  rw [Alike] at h h' ⊢
  generalize db.telling t = l at h
  generalize db'.telling t = l' at h h'
  generalize db''.telling t = l'' at h'
  induction h generalizing l'' with
  | nil => cases h'; exact .nil
  | cons hg _ ih =>
    cases h' with
    | cons hg' hrest => exact .cons (fun f hf => (hg' f hf).trans (hg f hf)) (ih _ hrest)

theorem Alike.tell {t : String} {fs gs : List Field} {conds : List (Field × Value)}
    {db' : Database} (h : Alike t fs db db') (hgs : ∀ f ∈ gs, f ∈ fs)
    (hconds : ∀ p ∈ conds, p.1 ∈ fs) : db'.tell t gs conds = db.tell t gs conds := by
  rw [Alike] at h
  rw [Database.tell, Database.tell]
  generalize db.telling t = l at h
  generalize db'.telling t = l' at h
  induction h with
  | nil => rfl
  | @cons g g' l l' hg _ ih =>
    have hcond : (conds.all fun p => g' p.1 = p.2) = conds.all fun p => g p.1 = p.2 := by
      rw [Bool.eq_iff_iff, List.all_eq_true, List.all_eq_true]
      exact forall₂_congr fun p hp => by rw [hg p.1 (hconds p hp)]
    have hrow : gs.map g' = gs.map g := List.map_congr_left fun f hf => hg f (hgs f hf)
    rw [List.filter_cons, List.filter_cons, hcond]
    split
    · rw [List.map_cons, List.map_cons, hrow, ih]
    · exact ih

theorem alike_createTable {t' : String} {r : Relation} (hr : r.rows = []) (t : String)
    (fs : List Field) : Alike t fs db (db.createTable t' r) := by
  rw [createTable]
  split
  · exact .refl ..
  rename_i hnone
  by_cases ht : t = t'
  · subst ht
    have hn : db.tables t = none := by simpa using hnone
    rw [Alike, telling, telling, hn, tables_put, Option.elim_none, Option.elim_some, hr,
      List.map_nil]
    exact .nil
  · exact .of_eq (tables_put_of_ne _ ht _)

theorem alike_put {t : String} {fs : List Field} {r r' : Relation} {g : Row → Row}
    (hr : db.tables t = some r) (hrows : r'.rows = r.rows.map g)
    (hsaid : ∀ f ∈ fs, ∀ row ∈ r.rows, r'.said f (g row) = r.said f row) :
    Alike t fs db (db.put t r') := by
  rw [Alike, telling, telling, hr, tables_put, Option.elim_some, Option.elim_some, hrows,
    List.map_map, List.forall₂_map_left_iff, List.forall₂_map_right_iff, List.forall₂_same]
  exact fun row hrow f hf => hsaid f hf row hrow

theorem alike_rename {t t' old new : String} {fs : List Field} {r r' : Relation}
    (hr : db.tables t' = some r) (h : r.renameColumn old new = .ok r')
    (hfs : t = t' → ∀ f ∈ fs, f.FitsRename old new) : Alike t fs db (db.put t' r') := by
  by_cases ht : t = t'
  · subst ht
    obtain ⟨-, -, -, hrows⟩ := Relation.renameColumn_ok h
    refine alike_put (g := id) hr (by rw [hrows, List.map_id]) fun f hf row _ => ?_
    exact Relation.said_renameColumn h (hfs rfl f hf) row
  · exact .of_eq (db.tables_put_of_ne ht r')

theorem alike_add {t t' : String} {c : Column} {fs : List Field} {r r' : Relation}
    (hr : db.tables t' = some r) (h : r.addColumn c = .ok r')
    (hfs : t = t' → ∀ f ∈ fs, f.FitsAdd c ∧ r.Settled f) : Alike t fs db (db.put t' r') := by
  by_cases ht : t = t'
  · subst ht
    obtain ⟨-, -, hrows⟩ := Relation.addColumn_ok h
    exact alike_put hr hrows fun f hf row hrow =>
      Relation.said_addColumn h (hfs rfl f hf).1 (hfs rfl f hf).2 hrow
  · exact .of_eq (db.tables_put_of_ne ht r')

end Database

/-! ## Scripts -/

theorem foldlM_cons_ok {σ α ε : Type} {f : σ → α → Except ε σ} {a : α} {l : List α} {s s₁ : σ}
    {r : Except ε σ} (h : f s a = .ok s₁) (h' : l.foldlM f s₁ = r) : (a :: l).foldlM f s = r := by
  rw [List.foldlM_cons, h]
  exact h'

theorem foldlM_append_ok {σ α ε : Type} {f : σ → α → Except ε σ} {l l' : List α} {s s₁ : σ}
    {r : Except ε σ} (h : l.foldlM f s = .ok s₁) (h' : l'.foldlM f s₁ = r) :
    (l ++ l').foldlM f s = r := by
  rw [List.foldlM_append, h]
  exact h'

/-- **A script of statements runs to its end** when each statement succeeds from where the others
may leave the state. What they all keep holds in the end, and so does what each brings about. -/
theorem foldlM_ok {σ α ε : Type} {f : σ → α → Except ε σ} {P : σ → Prop} {Q : α → σ → Prop}
    {L : List α} (h : ∀ a ∈ L, ∀ s, P s →
      ∃ s', f s a = .ok s' ∧ P s' ∧ Q a s' ∧ ∀ b ∈ L, Q b s → Q b s') :
    ∀ {l : List α}, l ⊆ L → ∀ {s : σ}, P s →
      ∃ s', l.foldlM f s = .ok s' ∧ P s' ∧ (∀ a ∈ l, Q a s') ∧ ∀ b ∈ L, Q b s → Q b s'
  | [], _, s, hs => ⟨s, rfl, hs, by simp, fun _ _ hb => hb⟩
  | a :: l, hl, s, hs => by
    obtain ⟨ha, hl⟩ := List.cons_subset.1 hl
    obtain ⟨s₁, h₁, hP₁, hQ₁, hkeep₁⟩ := h a ha s hs
    obtain ⟨s₂, h₂, hP₂, hQ₂, hkeep₂⟩ := foldlM_ok h hl hP₁
    refine ⟨s₂, foldlM_cons_ok h₁ h₂, hP₂, ?_, fun b hb hQ => hkeep₂ b hb (hkeep₁ b hb hQ)⟩
    rw [List.forall_mem_cons]
    exact ⟨hkeep₂ a ha hQ₁, hQ₂⟩

/-- A script none of whose statements changes anything changes nothing. -/
theorem foldlM_eq_self {σ α ε : Type} {f : σ → α → Except ε σ} {s : σ} {l : List α}
    (h : ∀ a ∈ l, f s a = .ok s) : l.foldlM f s = .ok s := by
  induction l with
  | nil => rfl
  | cons a l ih =>
    rw [List.forall_mem_cons] at h
    exact foldlM_cons_ok h.1 (ih h.2)

end Sql
