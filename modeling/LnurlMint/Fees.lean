import LnurlMint.Lib.Charge
import LnurlMint.Router.Address

/-!
# What the mint advertises to payers

A payRequest names a least and a greatest amount, and the mint address and the frontend name the
greatest value a note can have. All three are computed from the fee, and the fee is rounded up to
whole sats, so that it is a `Charge` in units of 1000 msat: the value a payment mints falls by a
sat wherever the fee steps up.

Each of the three is right only where no step of the fee comes in the way. The walk that finds the
least amount stops at the first that mints enough, and the next step may leave a larger one short.
The greatest value is taken at the greatest amount, though a step just below that leaves a smaller
amount worth more. And the walk takes 100000 steps of a sat, while nothing bounds how far the
settings make it go.

## Main definitions

* `advertisingFloor` — where the walk starts
* `FeeStepsFit` — no step of the fee leaves an amount short

## Main results

* `advertised_range_accepted_iff` — when every amount of the advertised range is accepted
* `minSendable_found_iff` — when the walk finds the least amount
* `maxMintable_bounds_iff` — when no accepted amount mints more than the advertised ceiling
-/

namespace LnurlMint

open Interleave Rounding

variable {d : Deps} (cfg : Settings d)

/-- The fee is a charge in whole sats. -/
theorem mintFeeMsat_charge : Charge 1000 (mintFeeMsat cfg) where
  unit_pos := by decide
  mono := by
    intro a b hab
    have hppm : a * cfg.feePpm ≤ b * cfg.feePpm :=
      mul_le_mul_of_nonneg_right hab (Int.natCast_nonneg _)
    simp only [mintFeeMsat]
    omega
  dvd a := ⟨_, mul_comm _ _⟩
  growth a := by
    -- two sats are charged 200 msat at the most
    have hppm := cfg.feePpm_le
    have hsplit : (a + 2 * 1000) * (cfg.feePpm : ℤ) = a * cfg.feePpm + 2000 * cfg.feePpm := by ring
    simp only [mintFeeMsat, hsplit]
    omega

/-- What the amount checks of `_pay_callback` accept. -/
theorem checkAmount_eq_pure_iff (amount : ℤ) :
    checkAmount cfg amount = pure () ↔ cfg.minSendableMsat ≤ amount ∧ amount ≤ cfg.maxSendableMsat ∧
      cfg.minMintMsat ≤ net (mintFeeMsat cfg) amount := by
  show (Prog.raiseIf _ _ >>= fun _ => Prog.raiseIf _ _ >>= fun _ => Prog.raiseIf _ _) = _ ↔ _
  by_cases hlow : amount < cfg.minSendableMsat
  · have hlow' := not_le.2 hlow
    simp [Prog.raiseIf, Prog.thenE, Prog.onOk, hlow, hlow']
  · by_cases hhigh : (cfg.maxSendableMsat : ℤ) < amount
    · have hhigh' := not_le.2 hhigh
      simp [Prog.raiseIf, Prog.thenE, Prog.onOk, hlow, hhigh, hhigh']
    · by_cases hnet : amount - mintFeeMsat cfg amount < cfg.minMintMsat
      · have hnet' := not_le.2 hnet
        simp [Prog.raiseIf, Prog.thenE, Prog.onOk, net, hlow, hhigh, hnet, hnet']
      · have hall : _ ∧ _ ∧ _ := ⟨not_lt.1 hlow, not_lt.1 hhigh, not_lt.1 hnet⟩
        simp only [Prog.raiseIf, hlow, hhigh, hnet]
        exact iff_of_true rfl hall

/-! ## The least amount -/

/-- Where the walk of `_min_sendable_msat` starts. -/
def advertisingFloor : ℤ := max cfg.minSendableMsat cfg.minMintMsat

/-- The walk is a bounded search on a stride of one sat. -/
theorem minSendableWalk_eq (steps : ℕ) : ∀ a : ℤ, minSendableWalk cfg steps a =
    firstOnStride (fun a => (cfg.minMintMsat : ℤ) ≤ net (mintFeeMsat cfg) a) 1000 steps a := by
  induction steps with
  | zero => intro a; rfl
  | succ steps ih =>
    intro a
    by_cases hclear : (cfg.minMintMsat : ℤ) ≤ net (mintFeeMsat cfg) a
    · have hclear' : (cfg.minMintMsat : ℤ) ≤ a - mintFeeMsat cfg a := hclear
      simp [minSendableWalk, firstOnStride, hclear, hclear']
    · have hclear' : ¬(cfg.minMintMsat : ℤ) ≤ a - mintFeeMsat cfg a := hclear
      simp [minSendableWalk, firstOnStride, hclear, hclear', ih]

/-- The least amount is the first on the stride that clears the least value of a note. -/
theorem minSendableMsat_eq_some {m : ℤ} (hm : minSendableMsat cfg = some m) :
    ∃ k : ℕ, m = advertisingFloor cfg + k * 1000 ∧ cfg.minMintMsat ≤ net (mintFeeMsat cfg) m ∧
      ∀ i < k, net (mintFeeMsat cfg) (advertisingFloor cfg + i * 1000) < cfg.minMintMsat := by
  rw [minSendableMsat, minSendableWalk_eq] at hm
  obtain ⟨k, -, hmk, hclear, hbefore⟩ := firstOnStride_eq_some hm
  refine ⟨k, hmk, of_decide_eq_true hclear, ?_⟩
  intro i hi
  exact not_le.1 (of_decide_eq_false (hbefore i hi))

/-- Wherever, on the stride, an amount clears the least value of a note, the fee stays what it is
until an amount that can bear a greater one. -/
def FeeStepsFit : Prop :=
  ∀ k : ℕ, ∀ a : ℤ, a = advertisingFloor cfg + k * 1000 →
    cfg.minMintMsat ≤ a - mintFeeMsat cfg a →
      mintFeeMsat cfg (min cfg.maxSendableMsat (cfg.minMintMsat + mintFeeMsat cfg a + 999)) ≤
        mintFeeMsat cfg a

/-- **The advertised range.** Every amount from the advertised least to the advertised greatest
passes the amount checks exactly when the steps of the fee fit. -/
theorem advertised_range_accepted_iff {m : ℤ} (hm : minSendableMsat cfg = some m) :
    (∀ amount, m ≤ amount → amount ≤ cfg.maxSendableMsat → checkAmount cfg amount = pure ()) ↔
      FeeStepsFit cfg := by
  obtain ⟨k, hmk, hclear, hbefore⟩ := minSendableMsat_eq_some cfg hm
  have hfloor : (cfg.minSendableMsat : ℤ) ≤ m := by
    have : (cfg.minSendableMsat : ℤ) ≤ advertisingFloor cfg := le_max_left _ _
    omega
  have hchecks : (∀ amount, m ≤ amount → amount ≤ cfg.maxSendableMsat →
      checkAmount cfg amount = pure ()) ↔
      ∀ amount, m ≤ amount → amount ≤ (cfg.maxSendableMsat : ℤ) →
        cfg.minMintMsat ≤ net (mintFeeMsat cfg) amount := by
    constructor
    · intro hall amount hlow hhigh
      exact ((checkAmount_eq_pure_iff cfg amount).1 (hall amount hlow hhigh)).2.2
    · intro hall amount hlow hhigh
      exact (checkAmount_eq_pure_iff cfg amount).2
        ⟨hfloor.trans hlow, hhigh, hall amount hlow hhigh⟩
  rw [hchecks]
  constructor
  · intro hall j a haj hnet
    -- `a` is no lower than `m`, which is the first to clear
    have hkj : k ≤ j := by
      by_contra hlt
      rw [not_le] at hlt
      exact absurd (hbefore j hlt) (not_lt.2 (haj ▸ hnet))
    refine ((mintFeeMsat_charge cfg).forall_le_net_iff hnet).1 ?_
    intro amount hlow hhigh
    exact hall amount (by omega) hhigh
  · intro hfit
    exact ((mintFeeMsat_charge cfg).forall_le_net_iff hclear).2 (hfit k m hmk hclear)

/-- One percent, on a range that starts and ends inside a sat's step. -/
def Settings.onePercent : Settings .standIn := { Settings.standIn with
  minSendableMsat := 100000
  maxSendableMsat := 1000100
  one_le_minSendable := by decide
  sendable_ordered := by decide
  feePpm := 10000
  feePpm_le := by decide
  minMintMsat := 99000 }

/-- The same, with notes that are worth far less than the least amount. -/
def Settings.roomy : Settings .standIn := { Settings.onePercent with minMintMsat := 1000 }

/-- Where a note may be worth a sat, one percent leaves none of the advertised amounts short. -/
theorem advertised_range_accepted_roomy : 0 < Settings.roomy.feePpm ∧
    ∀ amount, (100000 : ℤ) ≤ amount → amount ≤ Settings.roomy.maxSendableMsat →
      checkAmount Settings.roomy amount = pure () := by
  refine ⟨by decide, (advertised_range_accepted_iff Settings.roomy (by decide +kernel)).2 ?_⟩
  intro k a ha _
  have hfloor : advertisingFloor Settings.roomy = 100000 := by decide
  refine (mintFeeMsat_charge Settings.roomy).mono (min_le_of_right_le ?_)
  -- a fee of one percent, rounded up to a sat, is less than what the least amount exceeds a sat by
  show (1000 : ℤ) + mintFeeMsat Settings.roomy a + 999 ≤ a
  have hppm : Settings.roomy.feePpm = 10000 := rfl
  have hbase : Settings.roomy.baseFeeMsat = 0 := rfl
  rw [mintFeeMsat, hppm, hbase]
  omega

/-- 100100 msat lie in the advertised range and are refused: the fee of 1000 msat has become 2000
and leaves 98100. -/
theorem advertised_range_refused : ∃ m, minSendableMsat Settings.onePercent = some m ∧
    Settings.onePercent.sunsetMint = false ∧ m ≤ 100100 ∧
    (100100 : ℤ) ≤ Settings.onePercent.maxSendableMsat ∧
    checkAmount Settings.onePercent 100100 ≠ pure () := by
  refine ⟨100000, by decide +kernel, by decide, by decide, by decide, ?_⟩
  rw [Ne, checkAmount_eq_pure_iff]
  decide +kernel

/-- **The walk.** It finds an amount, and one that has what the docstring promises, exactly when
the last amount it tries clears the least value of a note. -/
theorem minSendable_found_iff :
    (∃ r, minSendableMsat cfg = some r ∧ (cfg.minSendableMsat : ℤ) ≤ r ∧ (cfg.minMintMsat : ℤ) ≤ r ∧
      cfg.minMintMsat ≤ r - mintFeeMsat cfg r) ↔
    cfg.minMintMsat ≤ advertisingFloor cfg + 99999000 -
      mintFeeMsat cfg (advertisingFloor cfg + 99999000) := by
  constructor
  · rintro ⟨r, hr, -⟩
    rw [minSendableMsat, minSendableWalk_eq] at hr
    obtain ⟨k, hk, hrk, hclear, -⟩ := firstOnStride_eq_some hr
    -- the net does not fall from there to the last step
    have hmono := (mintFeeMsat_charge cfg).net_le_stride (max cfg.minSendableMsat cfg.minMintMsat)
      (show k ≤ 99999 by omega)
    rw [← hrk] at hmono
    exact (of_decide_eq_true hclear).trans (by simpa [advertisingFloor, net] using hmono)
  · intro hlast
    have hsome : (minSendableMsat cfg).isSome := by
      rw [minSendableMsat, minSendableWalk_eq, firstOnStride_isSome_iff]
      exact ⟨99999, by omega, decide_eq_true (by simpa [advertisingFloor, net] using hlast)⟩
    obtain ⟨r, hr⟩ := Option.isSome_iff_exists.1 hsome
    obtain ⟨k, hrk, hclear, -⟩ := minSendableMsat_eq_some cfg hr
    have hlow : (cfg.minSendableMsat : ℤ) ≤ advertisingFloor cfg := le_max_left _ _
    have hhigh : (cfg.minMintMsat : ℤ) ≤ advertisingFloor cfg := le_max_right _ _
    exact ⟨r, hr, by omega, by omega, hclear⟩

/-- Notes of a million sats at the least, at the highest fee the settings take. -/
def Settings.largeNotes : Settings .standIn := { Settings.standIn with
  maxSendableMsat := 2000000000
  sendable_ordered := by decide
  feePpm := 100000
  feePpm_le := by decide
  minMintMsat := 1000000000 }

/-- The walk gives up, though paying 1200000000 msat would be accepted. -/
theorem minSendable_not_found : minSendableMsat Settings.largeNotes = none ∧
    checkAmount Settings.largeNotes 1200000000 = pure () := by
  constructor
  · rw [minSendableMsat, minSendableWalk_eq, ← Option.not_isSome_iff_eq_none,
      firstOnStride_isSome_iff]
    rintro ⟨k, hk, hclear⟩
    have hmono := (mintFeeMsat_charge Settings.largeNotes).net_le_stride
      (max Settings.largeNotes.minSendableMsat Settings.largeNotes.minMintMsat)
      (show k ≤ 99999 by omega)
    have hlast := (of_decide_eq_true hclear).trans hmono
    exact absurd hlast (by decide +kernel)
  · rw [checkAmount_eq_pure_iff]
    decide +kernel

/-! ## The greatest value -/

/-- **The advertised ceiling.** No amount that passes the checks mints more than the ceiling exactly
when the fee of the greatest amount is already due at the least of the amounts that could. -/
theorem maxMintable_bounds_iff :
    (∀ amount, checkAmount cfg amount = pure () →
      amount - mintFeeMsat cfg amount ≤ maxMintableMsat cfg) ↔
    mintFeeMsat cfg cfg.maxSendableMsat ≤ mintFeeMsat cfg (max cfg.minSendableMsat
      (max (cfg.maxSendableMsat - 999)
        (cfg.minMintMsat + mintFeeMsat cfg cfg.maxSendableMsat - 1000))) := by
  refine Iff.trans ?_ ((mintFeeMsat_charge cfg).forall_net_le_iff cfg.minMintMsat
    cfg.minSendableMsat cfg.maxSendableMsat)
  constructor
  · intro hall amount hlow hhigh hclear
    exact hall amount ((checkAmount_eq_pure_iff cfg amount).2 ⟨hlow, hhigh, hclear⟩)
  · intro hall amount haccepted
    obtain ⟨hlow, hhigh, hclear⟩ := (checkAmount_eq_pure_iff cfg amount).1 haccepted
    exact hall amount hlow hhigh hclear

/-- 1000099 msat pass the checks and mint 990099, above the advertised ceiling of 989100. -/
theorem maxMintable_exceeded : checkAmount Settings.onePercent 1000099 = pure () ∧
    maxMintableMsat Settings.onePercent <
      1000099 - mintFeeMsat Settings.onePercent 1000099 := by
  rw [checkAmount_eq_pure_iff]
  decide +kernel

end LnurlMint
