import Mathlib.Data.Finset.Card
import Mathlib.Data.Finset.Dedup

/-!
# What was touched most recently

A register that must not grow without bound keeps the keys that were touched last: a key that is
touched moves to the front, and what is then beyond the limit is dropped from the back. So it is
known exactly what it holds: a key is in it if it was touched, and fewer other keys than the limit
were touched since.

## Main definitions

* `touch` — a key is touched
* `recent` — what is held after keys were touched, the last first
* `distinct` — what would be held without a limit

## Main results

* `recent_eq` — the register is the beginning of the unlimited one
* `mem_recent_iff`
-/

namespace Recency

variable {α : Type*} [DecidableEq α] {x y : α} {l xs : List α} {limit : ℕ}

/-- A key is touched: it moves to the front, and what is beyond the limit is dropped. -/
def touch (limit : ℕ) (x : α) (l : List α) : List α := (x :: l.filter (· ≠ x)).take limit

/-- What a register holds that was empty, after these keys were touched, the last first. -/
def recent (limit : ℕ) : List α → List α
  | [] => []
  | x :: xs => touch limit x (recent limit xs)

/-- The keys that were touched, each once, the last first. -/
def distinct : List α → List α
  | [] => []
  | x :: xs => x :: (distinct xs).filter (· ≠ x)

theorem mem_distinct : x ∈ distinct xs ↔ x ∈ xs := by
  induction xs with
  | nil => rfl
  | cons y xs ih =>
    rw [distinct, List.mem_cons, List.mem_filter, ih, List.mem_cons, decide_eq_true_eq]
    tauto

theorem nodup_distinct : (distinct xs).Nodup := by
  induction xs with
  | nil => exact List.nodup_nil
  | cons x xs ih => exact List.nodup_cons.2 ⟨fun h => by simp at h, ih.filter _⟩

theorem length_distinct : (distinct xs).length = xs.toFinset.card := by
  rw [← List.toFinset_card_of_nodup nodup_distinct]
  exact congrArg Finset.card (Finset.ext fun x => by simp [mem_distinct])

/-! ## The limit -/

/-- Without one key, of which there is at most one copy, a beginning of a list is a beginning of
what is left of it, and misses at most one element at its end. -/
theorem take_filter_take (h : l.Nodup) (n : ℕ) :
    ((l.take (n + 1)).filter (· ≠ x)).take n = (l.filter (· ≠ x)).take n := by
  induction l generalizing n with
  | nil => rfl
  | cons y l ih =>
    obtain ⟨hy, hl⟩ := List.nodup_cons.1 h
    rw [List.take_succ_cons]
    by_cases hxy : y = x
    · subst hxy
      -- there is no other copy, and one element less is taken
      have hrest : l.filter (· ≠ y) = l :=
        List.filter_eq_self.2 fun z hz => decide_eq_true fun he => hy (he ▸ hz)
      have htake : (l.take n).filter (· ≠ y) = l.take n :=
        List.filter_eq_self.2 fun z hz => decide_eq_true fun he =>
          hy (he ▸ List.mem_of_mem_take hz)
      rw [List.filter_cons_of_neg (by simp), List.filter_cons_of_neg (by simp), hrest, htake,
        List.take_take, Nat.min_self]
    · rw [List.filter_cons_of_pos (by simpa using hxy),
        List.filter_cons_of_pos (by simpa using hxy)]
      cases n with
      | zero => rfl
      | succ n => rw [List.take_succ_cons, List.take_succ_cons, ih hl]

/-- **A register with a limit is the beginning of the one without.** -/
theorem recent_eq : recent limit xs = (distinct xs).take limit := by
  induction xs with
  | nil => rw [recent, distinct, List.take_nil]
  | cons x xs ih =>
    rw [recent, touch, ih, distinct]
    cases limit with
    | zero => rfl
    | succ n => rw [List.take_succ_cons, List.take_succ_cons, take_filter_take nodup_distinct]

/-- What was touched since is at the front. -/
theorem distinct_append (h : x ∉ xs) (l : List α) :
    ∃ rest, distinct (xs ++ x :: l) = distinct xs ++ x :: rest := by
  induction xs with
  | nil => exact ⟨_, rfl⟩
  | cons y xs ih =>
    obtain ⟨hxy, hx⟩ := not_or.1 (mt List.mem_cons.2 h)
    obtain ⟨rest, hrest⟩ := ih hx
    refine ⟨rest.filter (· ≠ y), ?_⟩
    rw [List.cons_append, distinct, hrest, List.filter_append,
      List.filter_cons_of_pos (by simpa using hxy), distinct, List.cons_append]

/-- **A key is held if it was touched, and fewer others than the limit were touched since.** -/
theorem mem_recent_iff : x ∈ recent limit xs ↔
    ∃ since rest, xs = since ++ x :: rest ∧ x ∉ since ∧ since.toFinset.card < limit := by
  have held : ∀ since rest : List α, x ∉ since →
      (x ∈ recent limit (since ++ x :: rest) ↔ since.toFinset.card < limit) := by
    intro since rest hnot
    obtain ⟨tail, htail⟩ := distinct_append hnot rest
    have hx : x ∉ distinct since := fun h => hnot (mem_distinct.1 h)
    rw [recent_eq, htail, List.take_append, List.mem_append, length_distinct]
    refine ⟨fun h => ?_, fun h => .inr ?_⟩
    · by_contra hle
      rw [Nat.sub_eq_zero_of_le (Nat.not_lt.1 hle), List.take_zero] at h
      exact h.elim (fun h => hx (List.mem_of_mem_take h)) fun h => by cases h
    · obtain ⟨n, hn⟩ := Nat.exists_eq_add_of_lt h
      rw [show limit - since.toFinset.card = n + 1 by omega]
      exact List.mem_cons_self
  constructor
  · intro h
    have hmem : x ∈ xs := by
      rw [recent_eq] at h
      exact mem_distinct.1 (List.mem_of_mem_take h)
    obtain ⟨since, rest, rfl, hnot⟩ := List.eq_append_cons_of_mem hmem
    exact ⟨since, rest, rfl, hnot, (held since rest hnot).1 h⟩
  · rintro ⟨since, rest, rfl, hnot, hcard⟩
    exact (held since rest hnot).2 hcard

end Recency
