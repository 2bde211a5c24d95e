import Mathlib.Data.Int.ConditionallyCompleteOrder
import Mathlib.Data.Int.GCD
import Mathlib.Order.Monotone.Basic
import Mathlib.Tactic.Linarith
import Mathlib.Tactic.Ring

/-!
# Charges in whole units

A charge that depends on the amount it is taken from and is always a whole number of units: a fee
that a price list rounds up. It never falls as the amount grows, and it rises by at most one unit
over any two units of amount. What remains of an amount is its `net`.

The net is not monotone. Where the charge steps up it falls by a unit, and it takes most of a unit
of amount to make up for that. Two amounts at least a unit apart, though, have their nets in order
(`Charge.net_le_of_add_le`). So the least net above a given amount, and the greatest below one, are
decided within one unit of it, and the two results here say by what.

## Main definitions

* `net` — what is left of an amount
* `Charge` — such a charge
* `firstOnStride` — a bounded search along multiples of a stride

## Main results

* `Charge.forall_le_net_iff` — when every amount from one that clears a floor on clears it
* `Charge.forall_net_le_iff` — when no amount that clears a floor nets more than the largest
* `firstOnStride_eq_some`, `firstOnStride_isSome_iff` — what the search finds, and when it does
-/

namespace Rounding

/-- What is left of an amount. -/
def net (charge : ℤ → ℤ) (a : ℤ) : ℤ := a - charge a

/-- A charge in whole units of `w`. -/
structure Charge (w : ℤ) (charge : ℤ → ℤ) : Prop where
  unit_pos : 0 < w
  mono : Monotone charge
  dvd : ∀ a, w ∣ charge a
  growth : ∀ a, charge (a + 2 * w) ≤ charge a + w

namespace Charge

variable {w : ℤ} {charge : ℤ → ℤ} (h : Charge w charge)

include h

/-- Charges that differ, differ by a unit. -/
theorem add_unit_le {a b : ℤ} (hab : charge a < charge b) : charge a + w ≤ charge b := by
  obtain ⟨m, hm⟩ := h.dvd a
  obtain ⟨n, hn⟩ := h.dvd b
  rw [hm, hn] at hab
  have hmn : m < n := lt_of_mul_lt_mul_left hab h.unit_pos.le
  have hstep : w * (m + 1) ≤ w * n := mul_le_mul_of_nonneg_left (by omega) h.unit_pos.le
  rw [hm, hn]
  linarith

theorem le_add_unit {a b : ℤ} (hab : b ≤ a + 2 * w) : charge b ≤ charge a + w :=
  (h.mono hab).trans (h.growth a)

/-- Over `k + 2` units of amount the charge rises by at most `k + 1`. -/
theorem le_add_units (k : ℕ) : ∀ {a b : ℤ},
    b ≤ a + (k + 2) * w → charge b ≤ charge a + (k + 1) * w := by
  induction k with
  | zero =>
    intro a b hab
    have := h.le_add_unit (a := a) (b := b) (by push_cast at hab; linarith)
    push_cast
    linarith
  | succ k ih =>
    intro a b hab
    push_cast at hab ⊢
    have hback := ih (a := a) (b := b - w) (by linarith)
    have hlast := h.le_add_unit (a := b - w) (b := b) (by linarith [h.unit_pos])
    linarith

/-- Amounts a unit apart have their nets in order. -/
theorem net_le_of_add_le {a b : ℤ} (hab : a + w ≤ b) : net charge a ≤ net charge b := by
  have hw := h.unit_pos
  -- `b` lies `k + 1` whole units and a part of one above `a`
  obtain ⟨k, hk⟩ : ∃ k : ℕ, (k : ℤ) = (b - a - w) / w :=
    ⟨((b - a - w) / w).toNat, Int.toNat_of_nonneg (Int.ediv_nonneg (by linarith) hw.le)⟩
  have hlow : k * w ≤ b - a - w := by rw [hk]; exact Int.ediv_mul_le _ hw.ne'
  have hhigh : b - a - w < (k + 1) * w := by rw [hk]; exact Int.lt_ediv_add_one_mul_self _ hw
  have hrise := h.le_add_units k (a := a) (b := b) (by linarith)
  simp only [net]
  linarith

/-- Along a stride of one unit the net never falls. -/
theorem net_le_stride (a : ℤ) {i j : ℕ} (hij : i ≤ j) :
    net charge (a + i * w) ≤ net charge (a + j * w) := by
  rcases hij.eq_or_lt with rfl | hlt
  · exact le_rfl
  · refine h.net_le_of_add_le ?_
    have : ((i : ℤ) + 1) * w ≤ j * w :=
      mul_le_mul_of_nonneg_right (by exact_mod_cast hlt) h.unit_pos.le
    linarith

/-- From an amount `m` that clears the floor on, every amount up to `top` clears it exactly when
the charge does not step up again before an amount that can bear it. -/
theorem forall_le_net_iff {floor m top : ℤ} (hm : floor ≤ net charge m) :
    (∀ a, m ≤ a → a ≤ top → floor ≤ net charge a) ↔
      charge (min top (floor + charge m + (w - 1))) ≤ charge m := by
  have hw := h.unit_pos
  simp only [net] at hm ⊢
  constructor
  · intro hall
    by_contra hstep
    rw [not_le] at hstep
    have hunit := h.add_unit_le hstep
    have hlt : m < min top (floor + charge m + (w - 1)) := h.mono.reflect_lt hstep
    have hclear := hall _ hlt.le (min_le_left _ _)
    have hright := min_le_right top (floor + charge m + (w - 1))
    linarith
  · intro hstep a hma htop
    by_cases hnear : a ≤ floor + charge m + (w - 1)
    · have hcharge := (h.mono (le_min htop hnear)).trans hstep
      linarith
    · by_cases hfar : m + w ≤ a
      · have := h.net_le_of_add_le hfar
        simp only [net] at this
        linarith
      · have := h.le_add_unit (a := m) (b := a) (by linarith)
        omega

/-- No amount between `low` and `top` that clears the floor nets more than `top` exactly when the
charge of `top` is already due at the least amount that could. -/
theorem forall_net_le_iff (floor low top : ℤ) :
    (∀ a, low ≤ a → a ≤ top → floor ≤ net charge a → net charge a ≤ net charge top) ↔
      charge top ≤ charge (max low (max (top - (w - 1)) (floor + charge top - w))) := by
  have hw := h.unit_pos
  simp only [net]
  set l := max low (max (top - (w - 1)) (floor + charge top - w)) with hl
  have hlow : low ≤ l := le_max_left _ _
  have hnear : top - (w - 1) ≤ l := (le_max_left _ _).trans (le_max_right _ _)
  have hfloor : floor + charge top - w ≤ l := (le_max_right _ _).trans (le_max_right _ _)
  constructor
  · intro hall
    by_contra hstep
    rw [not_le] at hstep
    have hltop : l < top := h.mono.reflect_lt hstep
    have hunit := h.add_unit_le hstep
    have hone := h.le_add_unit (a := l) (b := top) (by linarith)
    have := hall l hlow hltop.le (by linarith)
    linarith
  · intro hstep a hla htop hclear
    by_cases hal : l ≤ a
    · have := h.mono hal
      linarith
    · rw [not_le] at hal
      -- `a` is far below `top`, or so close to its floor that its charge is two units less
      have hfar : a + w ≤ top := by
        rcases lt_max_iff.1 hal with hlt | hlt
        · linarith
        · rcases lt_max_iff.1 hlt with hlt | hlt
          · linarith
          · by_contra hclose
            have := h.le_add_unit (a := a) (b := top) (by linarith)
            linarith
      simpa only [net] using h.net_le_of_add_le hfar

end Charge

/-! ## A bounded search -/

/-- The first of `a`, `a + stride`, …, `steps` of them, that `good` accepts. -/
def firstOnStride (good : ℤ → Bool) (stride : ℤ) : ℕ → ℤ → Option ℤ
  | 0, _ => none
  | steps + 1, a => if good a then some a else firstOnStride good stride steps (a + stride)

section FirstOnStride

variable {good : ℤ → Bool} {stride : ℤ}

/-- What the search finds. -/
theorem firstOnStride_eq_some {steps : ℕ} : ∀ {a r : ℤ},
    firstOnStride good stride steps a = some r →
      ∃ k < steps, r = a + k * stride ∧ good r = true ∧ ∀ i < k, good (a + i * stride) = false := by
  induction steps with
  | zero => intro a r h; simp [firstOnStride] at h
  | succ steps ih =>
    intro a r h
    by_cases hgood : good a = true
    · have hr : a = r := by simpa [firstOnStride, hgood] using h
      exact ⟨0, by omega, by simp [hr], hr ▸ hgood, by simp⟩
    · obtain ⟨k, hk, hr, hgr, hbefore⟩ := ih (by simpa [firstOnStride, hgood] using h)
      refine ⟨k + 1, by omega, ?_, hgr, ?_⟩
      · rw [hr]; push_cast; ring
      · intro i hi
        cases i with
        | zero => simpa using hgood
        | succ i =>
          have hcast : a + ((i + 1 : ℕ) : ℤ) * stride = a + stride + i * stride := by
            push_cast; ring
          rw [hcast]
          exact hbefore i (by omega)

/-- It finds something exactly when there is something to find. -/
theorem firstOnStride_isSome_iff {steps : ℕ} : ∀ {a : ℤ},
    (firstOnStride good stride steps a).isSome ↔ ∃ k < steps, good (a + k * stride) = true := by
  induction steps with
  | zero => intro a; simp [firstOnStride]
  | succ steps ih =>
    intro a
    by_cases hgood : good a = true
    · simp only [firstOnStride, hgood, if_true, Option.isSome_some, true_iff]
      exact ⟨0, by omega, by simpa using hgood⟩
    · rw [firstOnStride, if_neg hgood, ih]
      constructor
      · rintro ⟨k, hk, hk'⟩
        refine ⟨k + 1, by omega, ?_⟩
        rw [← hk']
        congr 1
        push_cast; ring
      · rintro ⟨k, hk, hk'⟩
        cases k with
        | zero => exact absurd (by simpa using hk') hgood
        | succ k =>
          refine ⟨k, by omega, ?_⟩
          rw [← hk']
          congr 1
          push_cast; ring

end FirstOnStride

end Rounding
