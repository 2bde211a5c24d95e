import Mathlib.Data.List.Basic

/-!
# Paging through a list that grows

A list is read in pages of a fixed size, each at the offset after the last, while elements are
inserted anywhere between two reads. Nothing is removed, so an element only ever moves to a later
position; one that has not been read yet is at or beyond the next offset, however the list grows. A
page that is not full therefore leaves nothing unread. What was read twice is read twice.

## Main definitions

* `page`, `pages` — the page of one read, and of all reads so far

## Main results

* `exists_split` — what the list held at first is what was read of it and what lies ahead
* `sublist_pages` — at a page that is not full, nothing lies ahead
-/

namespace Paging

open List

variable {α : Type*} (n : ℕ) (L : ℕ → List α)

/-- Page `k`, read when the list is `L k`. -/
def page (k : ℕ) : List α := ((L k).drop (n * k)).take n

/-- The pages before page `k`. -/
def pages (k : ℕ) : List α := (List.range k).flatMap (page n L)

theorem pages_succ (k : ℕ) : pages n L (k + 1) = pages n L k ++ page n L k := by
  rw [pages, List.range_succ, List.flatMap_append, List.flatMap_singleton]
  rfl

/-- What is at an offset is a page and what is at the next one. -/
theorem page_append_drop (k : ℕ) :
    page n L k ++ (L k).drop (n * (k + 1)) = (L k).drop (n * k) := by
  rw [page, Nat.mul_add, Nat.mul_one, ← List.drop_drop, List.take_append_drop]

theorem drop_eq_nil_of_short {k : ℕ} (h : (page n L k).length < n) :
    (L k).drop (n * (k + 1)) = [] := by
  rw [page, List.length_take, List.length_drop] at h
  refine List.drop_eq_nil_of_le ?_
  rw [Nat.mul_add, Nat.mul_one]
  omega

variable {L} {start : List α} (hgrow : ∀ k, L k <+ L (k + 1)) (hstart : start <+ L 0)
include hgrow hstart

/-- **Whatever is not read yet lies ahead.** The induction is on the reads: a page is split off
what lies ahead, and what is left only moves back as the list grows. -/
theorem exists_split (k : ℕ) : ∃ seen ahead, start = seen ++ ahead ∧ seen <+ pages n L k ∧
    ahead <+ (L k).drop (n * k) := by
  induction k with
  | zero => exact ⟨[], start, rfl, List.nil_sublist _, hstart⟩
  | succ k ih =>
    obtain ⟨seen, ahead, rfl, hseen, hahead⟩ := ih
    rw [← page_append_drop n L k, List.sublist_append_iff] at hahead
    obtain ⟨now, later, rfl, hnow, hlater⟩ := hahead
    refine ⟨seen ++ now, later, (List.append_assoc ..).symm, ?_, hlater.trans ?_⟩
    · rw [pages_succ]
      exact hseen.append hnow
    · exact (hgrow k).drop _

/-- **A page that is not full leaves nothing unread.** -/
theorem sublist_pages {k : ℕ} (h : (page n L k).length < n) : start <+ pages n L (k + 1) := by
  obtain ⟨seen, ahead, rfl, hseen, hahead⟩ := exists_split n hgrow hstart k
  rw [← page_append_drop n L k, drop_eq_nil_of_short n L h, List.append_nil] at hahead
  rw [pages_succ]
  exact hseen.append hahead

end Paging
