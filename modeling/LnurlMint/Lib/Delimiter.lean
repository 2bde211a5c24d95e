import Mathlib.Data.List.Basic
import Mathlib.Data.List.TakeWhile

/-!
# Cutting a list at a delimiter

A list that is written as fields with a delimiter between them is read back by cutting it: at the
first delimiter, where the field before it has none, or at the last, where the field after it has
none. What the other side holds does not matter.

## Main definitions

* `before`, `afterFirst`, `afterLast` — the two cuts

## Main results

* `before_append`, `before_append_eq_iff`
* `append_eq_append_iff_of_notMem` — the last delimiter fixes both sides
-/

namespace Delimiter

variable {α : Type*} [DecidableEq α] {sep : α} {s s' t t' : List α}

/-- What stands before the first delimiter, or everything. -/
def before (sep : α) (l : List α) : List α := l.takeWhile (· ≠ sep)

/-- What stands after the first delimiter, or nothing. -/
def afterFirst (sep : α) (l : List α) : List α := (l.dropWhile (· ≠ sep)).drop 1

/-- What stands after the last delimiter, or everything. -/
def afterLast (sep : α) (l : List α) : List α := (before sep l.reverse).reverse

theorem sep_notMem_before (sep : α) (l : List α) : sep ∉ before sep l := by
  intro h
  have := List.mem_takeWhile_imp h
  simp at this

theorem before_isPrefix (sep : α) (l : List α) : before sep l <+: l := List.takeWhile_prefix _

theorem before_of_notMem (h : sep ∉ s) : before sep s = s := by
  refine List.takeWhile_eq_self_iff.2 fun x hx => ?_
  have hne : x ≠ sep := ne_of_mem_of_not_mem hx h
  exact decide_eq_true hne

theorem before_append (h : sep ∉ s) (t : List α) : before sep (s ++ sep :: t) = s := by
  have hall : ∀ x ∈ s, decide (x ≠ sep) = true := fun x hx =>
    decide_eq_true (ne_of_mem_of_not_mem hx h)
  rw [before, List.takeWhile_append_of_pos hall, List.takeWhile_cons]
  simp

theorem mem_of_mem_before {a : α} (h : a ∈ before sep s) : a ∈ s := (before_isPrefix sep s).subset h

theorem mem_of_mem_afterFirst {a : α} (h : a ∈ afterFirst sep s) : a ∈ s :=
  (List.dropWhile_suffix _).subset (List.mem_of_mem_drop h)

theorem mem_of_mem_afterLast {a : α} (h : a ∈ afterLast sep s) : a ∈ s := by
  rw [afterLast, List.mem_reverse] at h
  exact List.mem_reverse.1 (mem_of_mem_before h)

theorem before_append_of_mem (h : sep ∈ s) (t : List α) : before sep (s ++ t) = before sep s := by
  obtain ⟨a, b, rfl, ha⟩ := List.eq_append_cons_of_mem h
  rw [List.append_assoc, List.cons_append, before_append ha, before_append ha]

theorem afterFirst_append_of_mem (h : sep ∈ s) (t : List α) :
    afterFirst sep (s ++ t) = afterFirst sep s ++ t := by
  obtain ⟨a, b, rfl, ha⟩ := List.eq_append_cons_of_mem h
  have hall : ∀ x ∈ a, decide (x ≠ sep) = true := fun x hx =>
    decide_eq_true (ne_of_mem_of_not_mem hx ha)
  have hafter : ∀ b, afterFirst sep (a ++ sep :: b) = b := fun b => by
    rw [afterFirst, List.dropWhile_append_of_pos hall, List.dropWhile_cons]
    simp
  rw [List.append_assoc, List.cons_append, hafter, hafter]

/-- A list with a delimiter is its two sides. -/
theorem exists_of_mem (h : sep ∈ s) : ∃ t, s = before sep s ++ sep :: t := by
  obtain ⟨a, t, rfl, ha⟩ := List.eq_append_cons_of_mem h
  exact ⟨t, by rw [before_append ha]⟩

theorem afterLast_append (s : List α) (h : sep ∉ t) : afterLast sep (s ++ sep :: t) = t := by
  rw [afterLast, List.reverse_append, List.reverse_cons, List.append_assoc, List.singleton_append,
    before_append (by rwa [List.mem_reverse]), List.reverse_reverse]

theorem afterLast_of_notMem (h : sep ∉ s) : afterLast sep s = s := by
  rw [afterLast, before_of_notMem (by rwa [List.mem_reverse]), List.reverse_reverse]

omit [DecidableEq α] in
/-- A list with a delimiter is the two sides of its last one. -/
theorem exists_last (h : sep ∈ s) : ∃ t u, s = t ++ sep :: u ∧ sep ∉ u := by
  obtain ⟨front, rest, heq, hfront⟩ := List.eq_append_cons_of_mem (List.mem_reverse.2 h)
  refine ⟨rest.reverse, front.reverse, ?_, by rwa [List.mem_reverse]⟩
  rw [← List.reverse_reverse s, heq]
  simp

theorem sep_notMem_afterLast (sep : α) (l : List α) : sep ∉ afterLast sep l := by
  rw [afterLast, List.mem_reverse]
  exact sep_notMem_before sep _

/-- **The last delimiter fixes both sides.** -/
theorem append_eq_append_iff_of_notMem (h : sep ∉ t) (h' : sep ∉ t') :
    s ++ sep :: t = s' ++ sep :: t' ↔ s = s' ∧ t = t' := by
  constructor
  · intro he
    have ht : t = t' := by
      rw [← afterLast_append s h, he, afterLast_append s' h']
    subst ht
    exact ⟨List.append_cancel_right he, rfl⟩
  · rintro ⟨rfl, rfl⟩
    rfl

end Delimiter
