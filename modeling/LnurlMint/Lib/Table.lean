import Mathlib.Algebra.BigOperators.Group.List.Basic
import Mathlib.Data.List.Nodup
import Mathlib.Data.List.Sort
import Mathlib.Tactic.Abel

/-!
# Tables with a primary key

A relational table, as the rows it holds in insertion order together with the proof that no two
of them share a key. Nothing else is assumed of the rows, so a schema is a choice of row type and
key function.

The four operations are those a statement-at-a-time client issues: look a key up, insert a row
(refused when the key is taken), rewrite the row under a key, delete it. `modifyEach` is the loop
`for k in ks: UPDATE … WHERE key = k`, which clients write far more often than a set-valued
update; its lemmas need the rewrite to be idempotent, since a list of keys may repeat itself.

## Main definitions

* `Table` — rows with distinct keys
* `Table.find?`, `Table.insert?`, `Table.modify`, `Table.modifyEach`, `Table.erase`
* `Table.sum` — a column total

## Main results

* `Table.find?_insert?`, `Table.find?_modify`, `Table.find?_modifyEach`, `Table.find?_erase` — each
  operation as an update of the finite map `find?`
* `Table.sum_insert?`, `Table.sum_modify`, `Table.sum_modifyEach` — how a column total moves
* `Table.sum_ite_mem` — the total over the rows under some keys
-/

namespace Relational

/-- The rows of a table whose primary key is `key`, in insertion order. -/
structure Table {ρ κ : Type} (key : ρ → κ) where
  /-- The rows themselves. -/
  rows : List ρ
  /-- No two rows share a key. -/
  nodup : (rows.map key).Nodup

namespace Table

variable {ρ κ : Type} {key : ρ → κ}

/-- The table with no rows. -/
def empty : Table key := ⟨[], List.nodup_nil⟩

instance : Inhabited (Table key) := ⟨empty⟩

@[simp] theorem rows_empty : (empty : Table key).rows = [] := rfl

theorem eq_of_key {t : Table key} {r r' : ρ} (hr : r ∈ t.rows) (hr' : r' ∈ t.rows)
    (h : key r = key r') : r = r' :=
  List.inj_on_of_nodup_map t.nodup hr hr' h

/-! ## The operations -/

theorem nodup_append_singleton {t : Table key} {r : ρ} (h : key r ∉ t.rows.map key) :
    ((t.rows ++ [r]).map key).Nodup := by
  rw [List.map_append, List.map_singleton, ← List.concat_eq_append]
  exact t.nodup.concat h

variable [DecidableEq κ]

/-- The row under `k`. -/
def find? (t : Table key) (k : κ) : Option ρ := t.rows.find? fun r => key r = k

/-- Insert a row, or `none` if its key is taken: what a primary key constraint refuses. -/
def insert? (t : Table key) (r : ρ) : Option (Table key) :=
  if h : key r ∈ t.rows.map key then none else some ⟨t.rows ++ [r], nodup_append_singleton h⟩

/-- Insert a row unless its key is taken. -/
def insertOrIgnore (t : Table key) (r : ρ) : Table key := (t.insert? r).getD t

/-- Rewrite the row under `k`. The rewrite may not move a row to another key. -/
def modify (t : Table key) (k : κ) (f : ρ → ρ)
    (hf : ∀ r, key (f r) = key r := by exact fun _ => rfl) : Table key where
  rows := t.rows.map fun r => if key r = k then f r else r
  nodup := by
    have : (fun r => key (if key r = k then f r else r)) = key := by
      funext r; split <;> simp [hf]
    simpa [List.map_map, Function.comp_def, this] using t.nodup

/-- Rewrite the row under each of `ks` in turn, one statement a key. -/
def modifyEach (t : Table key) (ks : List κ) (f : ρ → ρ)
    (hf : ∀ r, key (f r) = key r := by exact fun _ => rfl) : Table key :=
  ks.foldl (fun t k => t.modify k f hf) t

/-- Delete the row under `k`. -/
def erase (t : Table key) (k : κ) : Table key where
  rows := t.rows.filter fun r => key r ≠ k
  nodup := t.nodup.sublist (List.Sublist.map _ List.filter_sublist)

/-- The total of a column. -/
def sum {M : Type} [AddMonoid M] (t : Table key) (g : ρ → M) : M := (t.rows.map g).sum

/-! ## Each operation on the finite map `find?` -/

@[simp] theorem find?_empty (k : κ) : (empty : Table key).find? k = none := rfl

theorem find?_eq_some {t : Table key} {k : κ} {r : ρ} :
    t.find? k = some r ↔ r ∈ t.rows ∧ key r = k := by
  constructor
  · intro h
    exact ⟨List.mem_of_find?_eq_some h, by simpa using List.find?_some h⟩
  · rintro ⟨hr, rfl⟩
    cases h : t.find? (key r) with
    | none =>
      have := List.find?_eq_none.1 h r hr
      simp at this
    | some r' =>
      have hk : key r' = key r := by simpa using List.find?_some h
      rw [eq_of_key (List.mem_of_find?_eq_some h) hr hk]

theorem find?_eq_none {t : Table key} {k : κ} : t.find? k = none ↔ ∀ r ∈ t.rows, key r ≠ k := by
  simp [find?, List.find?_eq_none]

theorem find?_of_mem {t : Table key} {r : ρ} (h : r ∈ t.rows) : t.find? (key r) = some r :=
  find?_eq_some.2 ⟨h, rfl⟩

theorem mem_of_find? {t : Table key} {k : κ} {r : ρ} (h : t.find? k = some r) : r ∈ t.rows :=
  (find?_eq_some.1 h).1

theorem key_of_find? {t : Table key} {k : κ} {r : ρ} (h : t.find? k = some r) : key r = k :=
  (find?_eq_some.1 h).2

theorem insert?_eq_none {t : Table key} {r : ρ} :
    t.insert? r = none ↔ t.find? (key r) ≠ none := by
  rw [Ne, find?_eq_none]
  unfold insert?
  split
  · rename_i h
    simpa using h
  · rename_i h
    simp only [reduceCtorEq, false_iff, not_not]
    exact fun r' hr' e => h (e ▸ List.mem_map_of_mem hr')

theorem insert?_eq_some {t t' : Table key} {r : ρ} :
    t.insert? r = some t' ↔ t.find? (key r) = none ∧ t'.rows = t.rows ++ [r] := by
  rw [find?_eq_none]
  unfold insert?
  split
  · simp_all
  · rename_i h
    constructor
    · rintro ⟨rfl⟩
      exact ⟨fun r' hr' e => h (e ▸ List.mem_map_of_mem hr'), rfl⟩
    · rintro ⟨-, hr⟩
      cases t'
      simp_all

theorem find?_insert? {t t' : Table key} {r : ρ} (h : t.insert? r = some t') (k : κ) :
    t'.find? k = if key r = k then some r else t.find? k := by
  obtain ⟨hn, hr⟩ := insert?_eq_some.1 h
  unfold find? at *
  rw [hr, List.find?_append]
  split
  · rename_i hk
    subst hk
    simp [hn]
  · rename_i hk
    cases t.rows.find? (fun r => decide (key r = k)) <;> simp [hk]

/-- Inserting a row loses none. -/
theorem find?_of_insert? {t t' : Table key} {r x : ρ} {k : κ} (h : t.insert? r = some t')
    (hx : t.find? k = some x) : t'.find? k = some x := by
  rw [find?_insert? h]
  split
  · rename_i hk
    subst hk
    rw [(insert?_eq_some.1 h).1] at hx
    cases hx
  · exact hx

theorem mem_insert? {t t' : Table key} {r r' : ρ} (h : t.insert? r = some t') :
    r' ∈ t'.rows ↔ r' ∈ t.rows ∨ r' = r := by
  rw [(insert?_eq_some.1 h).2]; simp

theorem find?_insertOrIgnore (t : Table key) (r : ρ) (k : κ) :
    (t.insertOrIgnore r).find? k = if key r = k then some ((t.find? k).getD r) else t.find? k := by
  unfold insertOrIgnore
  cases h : t.insert? r with
  | none =>
    obtain ⟨r', hr'⟩ := Option.ne_none_iff_exists'.1 (insert?_eq_none.1 h)
    split
    · rename_i hk
      subst hk
      simp [hr']
    · rfl
  | some t' =>
    rw [Option.getD_some, find?_insert? h]
    split
    · rename_i hk
      subst hk
      simp [(insert?_eq_some.1 h).1]
    · rfl

@[simp] theorem rows_modify (t : Table key) (k : κ) (f : ρ → ρ) (hf) :
    (t.modify k f hf).rows = t.rows.map fun r => if key r = k then f r else r := rfl

theorem find?_modify (t : Table key) (k : κ) (f : ρ → ρ) (hf) (k' : κ) :
    (t.modify k f hf).find? k' = (t.find? k').map fun r => if k' = k then f r else r := by
  cases h : t.find? k' with
  | none =>
    rw [find?_eq_none] at h
    simp only [Option.map_none, find?_eq_none, rows_modify, List.mem_map]
    rintro _ ⟨r, hr, rfl⟩
    split <;> simp [hf, h r hr]
  | some r =>
    obtain ⟨hr, rfl⟩ := find?_eq_some.1 h
    simp only [Option.map_some, find?_eq_some, rows_modify, List.mem_map]
    exact ⟨⟨r, hr, rfl⟩, by split <;> simp [hf]⟩

@[simp] theorem modifyEach_nil (t : Table key) (f : ρ → ρ) (hf) : t.modifyEach [] f hf = t := rfl

@[simp] theorem modifyEach_cons (t : Table key) (k : κ) (ks : List κ) (f : ρ → ρ) (hf) :
    t.modifyEach (k :: ks) f hf = (t.modify k f hf).modifyEach ks f hf := rfl

theorem rows_modifyEach (t : Table key) (ks : List κ) (f : ρ → ρ) (hf)
    (idem : ∀ r, f (f r) = f r) [dec : ∀ r, Decidable (key r ∈ ks)] :
    (t.modifyEach ks f hf).rows = t.rows.map fun r => if key r ∈ ks then f r else r := by
  revert dec
  induction ks generalizing t with
  | nil => simp
  | cons k ks ih =>
    intro dec
    rw [modifyEach_cons, ih, rows_modify, List.map_map]
    refine List.map_congr_left fun r _ => ?_
    by_cases hk : key r = k <;> by_cases hks : key r ∈ ks <;> simp_all

/-- The loop rewrites the rows its keys name, however often they are named. -/
theorem find?_modifyEach (t : Table key) (ks : List κ) (f : ρ → ρ) (hf)
    (idem : ∀ r, f (f r) = f r) (k : κ) [dec : Decidable (k ∈ ks)] :
    (t.modifyEach ks f hf).find? k = (t.find? k).map fun r => if k ∈ ks then f r else r := by
  revert dec
  induction ks generalizing t with
  | nil => simp
  | cons k' ks ih =>
    intro dec
    rw [modifyEach_cons, ih, find?_modify]
    cases t.find? k with
    | none => rfl
    | some r =>
      by_cases hk : k = k' <;> by_cases hks : k ∈ ks <;> simp_all

theorem find?_erase (t : Table key) (k k' : κ) :
    (t.erase k).find? k' = if k' = k then none else t.find? k' := by
  split
  · rename_i h
    subst h
    simp [find?_eq_none, erase]
  · rename_i h
    cases hf : t.find? k' with
    | none =>
      rw [find?_eq_none] at hf ⊢
      exact fun r hr => hf r (List.mem_of_mem_filter hr)
    | some r =>
      obtain ⟨hr, rfl⟩ := find?_eq_some.1 hf
      exact find?_eq_some.2 ⟨by simp [erase, hr, h], rfl⟩

/-! ## Sorted and limited selections -/

omit [DecidableEq κ] in
/-- The keys of `SELECT … WHERE p ORDER BY r LIMIT n`, each once. -/
theorem nodup_keys_selected (t : Table key) (p : ρ → Bool) (r : ρ → ρ → Prop) [DecidableRel r]
    (n : ℕ) : ((((t.rows.filter p).insertionSort r).take n).map key).Nodup := by
  refine List.Nodup.sublist (List.Sublist.map key (List.take_sublist n _)) ?_
  have hfilter : ((t.rows.filter p).map key).Nodup :=
    t.nodup.sublist (List.Sublist.map key List.filter_sublist)
  exact ((List.perm_insertionSort r _).map key).nodup_iff.2 hfilter

theorem find?_of_selected {t : Table key} {p : ρ → Bool} {r : ρ → ρ → Prop} [DecidableRel r]
    {n : ℕ} {k : κ} (h : k ∈ (((t.rows.filter p).insertionSort r).take n).map key) :
    ∃ x, t.find? k = some x ∧ p x = true := by
  obtain ⟨x, hx, rfl⟩ := List.mem_map.1 h
  have hsorted := (List.perm_insertionSort r _).mem_iff.1 (List.mem_of_mem_take hx)
  obtain ⟨hrow, hp⟩ := List.mem_filter.1 hsorted
  exact ⟨x, find?_of_mem hrow, hp⟩

/-! ## Column totals -/

section Sum

variable {M : Type} [AddCommGroup M]

omit [DecidableEq κ] in
@[simp] theorem sum_empty (g : ρ → M) : (empty : Table key).sum g = 0 := rfl

theorem sum_insert? {t t' : Table key} {r : ρ} (h : t.insert? r = some t') (g : ρ → M) :
    t'.sum g = t.sum g + g r := by
  simp [sum, (insert?_eq_some.1 h).2]

omit [DecidableEq κ] in
theorem sum_add (t : Table key) (g g' : ρ → M) :
    t.sum (fun r => g r + g' r) = t.sum g + t.sum g' :=
  List.sum_map_add

omit [DecidableEq κ] in
theorem sum_congr {t : Table key} {g g' : ρ → M} (h : ∀ r ∈ t.rows, g r = g' r) :
    t.sum g = t.sum g' := by
  rw [sum, sum, List.map_congr_left h]

theorem sum_modifyEach (t : Table key) (ks : List κ) (f : ρ → ρ) (hf) (idem : ∀ r, f (f r) = f r)
    (g : ρ → M) : (t.modifyEach ks f hf).sum g =
      t.sum fun r => g (if key r ∈ ks then f r else r) := by
  rw [sum, rows_modifyEach t ks f hf idem, List.map_map]
  rfl

/-- The total over the row under one key. -/
theorem sum_ite_key (t : Table key) (k : κ) (g : ρ → M) :
    t.sum (fun r => if key r = k then g r else 0) = (t.find? k).elim 0 g := by
  cases h : t.find? k with
  | none =>
    rw [find?_eq_none] at h
    have zeros : ∀ r ∈ t.rows, (if key r = k then g r else 0) = 0 := fun r hr => if_neg (h r hr)
    rw [sum_congr zeros]
    simp [sum]
  | some r =>
    obtain ⟨hr, rfl⟩ := find?_eq_some.1 h
    obtain ⟨l₁, l₂, hl⟩ := List.append_of_mem hr
    have hn := t.nodup
    rw [hl, List.map_append, List.map_cons, List.nodup_middle] at hn
    have hne : ∀ r' ∈ l₁ ++ l₂, key r' ≠ key r := fun r' hr' e =>
      (List.nodup_cons.1 hn).1 (by rw [← List.map_append, ← e]; exact List.mem_map_of_mem hr')
    have zeros : ∀ l : List ρ, (∀ r' ∈ l, r' ∈ l₁ ++ l₂) →
        (l.map fun r' => if key r' = key r then g r' else 0).sum = 0 := fun l hsub =>
      List.sum_eq_zero fun x hx => by
        obtain ⟨r', hr', rfl⟩ := List.mem_map.1 hx
        exact if_neg (hne r' (hsub r' hr'))
    rw [sum, hl, List.map_append, List.map_cons, List.sum_append, List.sum_cons,
      zeros l₁ fun r' hr' => by simp [hr'], zeros l₂ fun r' hr' => by simp [hr']]
    simp

/-- Rewriting one row moves a column total by the difference it makes there. -/
theorem sum_modify (t : Table key) (k : κ) (f : ρ → ρ) (hf) (g : ρ → M) :
    (t.modify k f hf).sum g = t.sum g + (t.find? k).elim 0 fun r => g (f r) - g r := by
  rw [← sum_ite_key, ← sum_add, sum, rows_modify, List.map_map]
  refine congrArg List.sum (List.map_congr_left fun r _ => ?_)
  by_cases hk : key r = k <;> simp [hk]

/-- Rewriting one row where it makes no difference to a column leaves its total alone. -/
theorem sum_modify_of_eq (t : Table key) (k : κ) (f : ρ → ρ) (hf) (g : ρ → M)
    (h : ∀ r, g (f r) = g r) : (t.modify k f hf).sum g = t.sum g := by
  rw [sum_modify]
  cases t.find? k <;> simp [h]

/-- The total over the rows under some distinct keys. -/
theorem sum_ite_mem (t : Table key) {ks : List κ} (hks : ks.Nodup) (g : ρ → M)
    [dec : ∀ r, Decidable (key r ∈ ks)] :
    t.sum (fun r => if key r ∈ ks then g r else 0) =
      (ks.map fun k => (t.find? k).elim 0 g).sum := by
  revert dec
  induction ks with
  | nil => simp [sum]
  | cons k ks ih =>
    intro dec
    obtain ⟨hk, hks⟩ := List.nodup_cons.1 hks
    have parts : ∀ r ∈ t.rows, (if key r ∈ k :: ks then g r else 0) =
        (if key r = k then g r else 0) + if key r ∈ ks then g r else 0 := fun r _ => by
      by_cases he : key r = k
      · simp [he, hk]
      · simp [he]
    rw [sum_congr parts, sum_add, sum_ite_key, ih hks, List.map_cons, List.sum_cons]

end Sum

end Table

end Relational
