import Mathlib.Data.Nat.Find

/-!
# Loops without a bound

A `while True` loop leaves by its body, or never. Whether it leaves is a statement about all its
turns at once; that it does so within a number of turns can be computed. The two agree, and a loop
that counts upwards is a search: it leaves at the first number at which its body does.

## Main definitions

* `Leaves` — a loop leaves with an outcome
* `turnsOf` — what a number of turns leads to

## Main results

* `turnsOf_mono`, `leaves_iff_turns`, `Leaves.unique`
* `leaves_search` — a loop that counts leaves at the first number that its body leaves at
* `search_within` — where the body leaves nowhere first beyond a number, so many turns are enough
-/

namespace Loop

variable {σ β : Type}

/-- The loop with this body leaves with outcome `b` when it is entered in state `s`. -/
inductive Leaves (body : σ → σ ⊕ β) : σ → β → Prop
  | leave {s : σ} {b : β} (h : body s = .inr b) : Leaves body s b
  | again {s s' : σ} {b : β} (h : body s = .inl s') (hl : Leaves body s' b) : Leaves body s b

/-- The outcome that the loop leaves with in so many turns. -/
def turnsOf (body : σ → σ ⊕ β) : ℕ → σ → Option β
  | 0, _ => none
  | n + 1, s =>
    match body s with
    | .inl s' => turnsOf body n s'
    | .inr b => some b

variable {body : σ → σ ⊕ β} {s s' : σ} {b b' : β}

theorem turnsOf_leave (h : body s = .inr b) (n : ℕ) : turnsOf body (n + 1) s = some b := by
  rw [turnsOf, h]

theorem turnsOf_again (h : body s = .inl s') (n : ℕ) :
    turnsOf body (n + 1) s = turnsOf body n s' := by
  rw [turnsOf, h]

theorem leaves_of_turns {n : ℕ} (h : turnsOf body n s = some b) : Leaves body s b := by
  induction n generalizing s with
  | zero => cases h
  | succ n ih =>
    cases hs : body s with
    | inl s' =>
      rw [turnsOf_again hs] at h
      exact .again hs (ih h)
    | inr b' =>
      rw [turnsOf_leave hs] at h
      cases h
      exact .leave hs

/-- More turns lead no further. -/
theorem turnsOf_mono {n k : ℕ} (h : turnsOf body n s = some b) (hle : n ≤ k) :
    turnsOf body k s = some b := by
  induction n generalizing s k with
  | zero => cases h
  | succ n ih =>
    obtain ⟨k, rfl⟩ : ∃ k', k = k' + 1 := ⟨k - 1, by omega⟩
    cases hs : body s with
    | inl s' =>
      rw [turnsOf_again hs] at h ⊢
      exact ih h (by omega)
    | inr b' =>
      rw [turnsOf_leave hs] at h ⊢
      exact h

/-- A loop leaves exactly if some number of turns shows it. -/
theorem leaves_iff_turns : Leaves body s b ↔ ∃ n, turnsOf body n s = some b := by
  constructor
  · intro h
    induction h with
    | leave hs => exact ⟨1, turnsOf_leave hs 0⟩
    | again hs _ ih =>
      obtain ⟨n, hn⟩ := ih
      exact ⟨n + 1, (turnsOf_again hs n).trans hn⟩
  · rintro ⟨n, h⟩
    exact leaves_of_turns h

/-- A loop leaves in one way. -/
theorem Leaves.unique (h : Leaves body s b) (h' : Leaves body s b') : b = b' := by
  induction h with
  | leave hs =>
    cases h' with
    | leave hs' => exact Sum.inr.inj (hs.symm.trans hs')
    | again hs' => cases hs.symm.trans hs'
  | again hs _ ih =>
    cases h' with
    | leave hs' => cases hs.symm.trans hs'
    | again hs' hl =>
      cases hs.symm.trans hs'
      exact ih hl

/-! ## Loops that count -/

section Search

variable {body : ℕ → ℕ ⊕ β} {i N : ℕ}

/-- **A loop that counts leaves at the first number at which its body does.** -/
theorem leaves_search (hcount : ∀ j j', body j = .inl j' → j' = j + 1) :
    Leaves body i b ↔
      ∃ j, i ≤ j ∧ body j = .inr b ∧ ∀ k, i ≤ k → k < j → body k = .inl (k + 1) := by
  constructor
  · intro h
    induction h with
    | @leave i b hi => exact ⟨i, le_refl i, hi, fun k hk hk' => absurd hk (by omega)⟩
    | @again i i' b hi _ ih =>
      obtain rfl := hcount i i' hi
      obtain ⟨j, hij, hj, hbefore⟩ := ih
      refine ⟨j, by omega, hj, fun k hk hk' => ?_⟩
      by_cases hki : k = i
      · rw [hki, hi]
      · exact hbefore k (by omega) hk'
  · rintro ⟨j, hij, hj, hbefore⟩
    obtain ⟨n, rfl⟩ := Nat.exists_eq_add_of_le hij
    induction n generalizing i with
    | zero => exact .leave hj
    | succ n ih =>
      refine .again (hbefore i (le_refl i) (by omega)) (ih (by omega) ?_ ?_)
      · rw [← hj]
        congr 1
        omega
      · exact fun k hk hk' => hbefore k (by omega) (by omega)

/-- It leaves exactly if its body does somewhere from there on. -/
theorem exists_leaves_search (hcount : ∀ j j', body j = .inl j' → j' = j + 1) :
    (∃ b, Leaves body i b) ↔ ∃ j, i ≤ j ∧ ∃ b, body j = .inr b := by
  constructor
  · rintro ⟨b, h⟩
    obtain ⟨j, hij, hj, -⟩ := (leaves_search hcount).1 h
    exact ⟨j, hij, b, hj⟩
  · intro h
    classical
    obtain ⟨hij, b, hb⟩ := Nat.find_spec h
    refine ⟨b, (leaves_search hcount).2 ⟨_, hij, hb, fun k hk hk' => ?_⟩⟩
    cases hbody : body k with
    | inl k' => rw [hcount k k' hbody]
    | inr b' => exact absurd ⟨hk, b', hbody⟩ (Nat.find_min h hk')

/-- **Where the body leaves nowhere first beyond a number, the turns up to it are enough.** -/
theorem search_within (hcount : ∀ j j', body j = .inl j' → j' = j + 1)
    (hbound : ∀ j, i < j → N < j → ∀ b, body j = .inr b →
      ∃ k b', i ≤ k ∧ k < j ∧ body k = .inr b') :
    Leaves body i b ↔ turnsOf body (N - i + 1) i = some b := by
  refine ⟨fun h => ?_, leaves_of_turns⟩
  obtain ⟨j, hij, hj, hbefore⟩ := (leaves_search hcount).1 h
  have hin : j - i ≤ N - i := by
    by_contra hlt
    obtain ⟨k, b', hk, hk', hbody⟩ := hbound j (by omega) (by omega) b hj
    rw [hbefore k hk hk'] at hbody
    cases hbody
  generalize N - i = n at hin
  clear h hbound
  induction n generalizing i with
  | zero =>
    obtain rfl : j = i := by omega
    exact turnsOf_leave hj 0
  | succ n ih =>
    by_cases hji : j = i
    · rw [← hji]
      exact turnsOf_leave hj _
    · rw [turnsOf_again (hbefore i (le_refl i) (by omega))]
      exact ih (by omega) (fun k hk hk' => hbefore k (by omega) hk') (by omega)

end Search

end Loop
