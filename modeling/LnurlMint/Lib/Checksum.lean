import LnurlMint.Lib.Bits

/-!
# Checksums of a linear register

A checksum register takes in one digit after another: it moves up by a digit, and what moves out at
its top is fed back. Where feeding back is linear in exclusive or, so is the register, and a message
can be completed to any value of it by one choice of its last digits only.

## Main definitions

* `Register`, `Register.step`, `Register.run`
* `digitsOf` — the digits of a number

## Main results

* `Register.run_append_iff` — the last digits of a message, given the value it leads to
-/

namespace Checksum

open Bits

/-- A register of `rest + 1` digits, and what it is fed with for what moves out. -/
structure Register where
  width : ℕ
  rest : ℕ
  feed : ℕ → ℕ
  feed_xor (a b : ℕ) : feed (a ^^^ b) = feed a ^^^ feed b
  feed_lt (a : ℕ) : feed a < 2 ^ (width * (rest + 1))

/-! ## Digits -/

/-- The last `k` digits of a number, the most significant first. -/
def digitsOf (width : ℕ) : ℕ → ℕ → List ℕ
  | 0, _ => []
  | k + 1, x => ((x >>> (width * k)) &&& (2 ^ width - 1)) :: digitsOf width k x

@[simp] theorem length_digitsOf (width k x : ℕ) : (digitsOf width k x).length = k := by
  induction k with
  | zero => rfl
  | succ k ih => rw [digitsOf, List.length_cons, ih]

theorem fits_digitsOf (width k x : ℕ) : Fits width (digitsOf width k x) := by
  induction k with
  | zero => intro v hv; cases hv
  | succ k ih =>
    rw [digitsOf]
    exact List.forall_mem_cons.2 ⟨mask_lt width _, ih⟩

theorem bitsOf_digitsOf (width k x : ℕ) :
    bitsOf width (digitsOf width k x) = low (width * k) x := by
  induction k with
  | zero => rfl
  | succ k ih =>
    rw [digitsOf, bitsOf_cons, low_mask, ih, Nat.mul_succ, Nat.add_comm, low_add]

namespace Register

variable (r : Register)

/-- One digit more. -/
def step (chk v : ℕ) : ℕ :=
  (((chk &&& (2 ^ (r.width * r.rest) - 1)) <<< r.width) ^^^ v) ^^^
    r.feed (chk >>> (r.width * r.rest))

/-- A message, digit by digit. -/
def run (chk : ℕ) (vs : List ℕ) : ℕ := vs.foldl r.step chk

variable {r}

theorem run_cons (chk v : ℕ) (vs : List ℕ) : r.run chk (v :: vs) = r.run (r.step chk v) vs := rfl

theorem run_append (chk : ℕ) (us vs : List ℕ) :
    r.run chk (us ++ vs) = r.run (r.run chk us) vs :=
  List.foldl_append

theorem feed_zero : r.feed 0 = 0 := by
  have h := r.feed_xor 0 0
  rwa [Nat.xor_self, Nat.xor_self] at h

/-- The register is linear. -/
theorem step_xor (a b v : ℕ) : r.step (a ^^^ b) v = r.step a 0 ^^^ r.step b v := by
  rw [step, step, step, Nat.and_xor_distrib_right, Nat.shiftLeft_xor_distrib,
    Nat.shiftRight_xor_distrib, r.feed_xor, Nat.xor_zero]
  ac_rfl

theorem run_xor (a b : ℕ) (vs : List ℕ) :
    r.run (a ^^^ b) vs = r.run a (List.replicate vs.length 0) ^^^ r.run b vs := by
  induction vs generalizing a b with
  | nil => rfl
  | cons v vs ih =>
    rw [run_cons, run_cons, step_xor, ih, List.length_cons, List.replicate_succ, run_cons]

theorem step_lt {chk v : ℕ} (hv : v < 2 ^ (r.width * (r.rest + 1))) :
    r.step chk v < 2 ^ (r.width * (r.rest + 1)) := by
  refine Nat.xor_lt_two_pow (Nat.xor_lt_two_pow ?_ hv) (r.feed_lt _)
  rw [Nat.shiftLeft_eq, Nat.mul_succ, Nat.pow_add]
  exact Nat.mul_lt_mul_of_pos_right (mask_lt _ _) (Nat.two_pow_pos _)

theorem run_zeros_lt (chk n : ℕ) :
    r.run chk (List.replicate (n + 1) 0) < 2 ^ (r.width * (r.rest + 1)) := by
  rw [List.replicate_succ', run_append]
  exact step_lt (Nat.two_pow_pos _)

/-- While nothing moves out, a digit is put behind the others. -/
theorem step_of_lt {n v j : ℕ} (hn : n < 2 ^ (r.width * j)) (hj : j ≤ r.rest)
    (hv : v < 2 ^ r.width) : r.step n v < 2 ^ (r.width * (j + 1)) ∧
      low (r.width * (j + 1)) (r.step n v) = low (r.width * j) n ++ low r.width v := by
  have hrest : n < 2 ^ (r.width * r.rest) :=
    lt_of_lt_of_le hn (Nat.pow_le_pow_right (by decide) (Nat.mul_le_mul_left _ hj))
  have hstep : r.step n v = (n <<< r.width) ^^^ v := by
    rw [step, Nat.and_two_pow_sub_one_of_lt_two_pow hrest, Nat.shiftRight_eq_div_pow,
      Nat.div_eq_of_lt hrest, feed_zero, Nat.xor_zero]
  rw [hstep]
  constructor
  · refine Nat.xor_lt_two_pow ?_ (lt_of_lt_of_le hv
      (Nat.pow_le_pow_right (by decide) (Nat.le_mul_of_pos_right _ (Nat.succ_pos j))))
    rw [Nat.shiftLeft_eq, Nat.mul_succ, Nat.pow_add]
    exact Nat.mul_lt_mul_of_pos_right hn (Nat.two_pow_pos _)
  · rw [Nat.mul_succ, low_add]
    congr 1
    · refine low_congr fun i _ => ?_
      have hhigh : v.testBit (r.width + i) = false := by
        refine Nat.testBit_lt_two_pow (lt_of_lt_of_le hv ?_)
        exact Nat.pow_le_pow_right (by decide) (Nat.le_add_right _ i)
      rw [Nat.testBit_shiftRight, Nat.testBit_xor, hhigh, Bool.xor_false, Nat.testBit_shiftLeft,
        decide_eq_true (Nat.le_add_right _ i), Bool.true_and, Nat.add_sub_cancel_left]
    · refine low_congr fun i hi => ?_
      rw [Nat.testBit_xor, Nat.testBit_shiftLeft, decide_eq_false (by omega), Bool.false_and,
        Bool.false_xor]

theorem run_of_lt {n j : ℕ} {vs : List ℕ} (hn : n < 2 ^ (r.width * j))
    (hj : j + vs.length ≤ r.rest + 1) (hv : Fits r.width vs) :
    r.run n vs < 2 ^ (r.width * (j + vs.length)) ∧
      low (r.width * (j + vs.length)) (r.run n vs) = low (r.width * j) n ++ bitsOf r.width vs := by
  induction vs generalizing n j with
  | nil => exact ⟨hn, by rw [bitsOf_nil, List.append_nil]; rfl⟩
  | cons v vs ih =>
    rw [List.length_cons] at hj ⊢
    obtain ⟨hlt, hlow⟩ := step_of_lt hn (by omega) (hv v List.mem_cons_self)
    obtain ⟨hlt', hlow'⟩ := ih hlt (by omega) fun u hu => hv u (List.mem_cons_of_mem _ hu)
    rw [show j + 1 + vs.length = j + (vs.length + 1) by omega] at hlt' hlow'
    exact ⟨hlt', by rw [run_cons, hlow', hlow, bitsOf_cons, List.append_assoc]⟩

/-- From nothing, a register that is not overrun holds its digits. -/
theorem run_zero_iff {vs : List ℕ} {x : ℕ} (hw : 0 < r.width) (hlen : vs.length = r.rest + 1)
    (hv : Fits r.width vs) (hx : x < 2 ^ (r.width * (r.rest + 1))) :
    r.run 0 vs = x ↔ vs = digitsOf r.width (r.rest + 1) x := by
  obtain ⟨hlt, hlow⟩ := run_of_lt (n := 0) (j := 0) (Nat.two_pow_pos _) (by omega) hv
  rw [Nat.zero_add, hlen] at hlt hlow
  rw [Nat.mul_zero, low_zero_width, List.nil_append] at hlow
  constructor
  · rintro rfl
    refine eq_of_bitsOf hw hv (fits_digitsOf _ _ _) ?_
    rw [bitsOf_digitsOf, hlow]
  · intro h
    refine eq_of_low hlt hx ?_
    rw [hlow, h, bitsOf_digitsOf]

/-- **A message leads to a value by one choice of its last digits**: those of the difference
between the value and where zeros in their place lead to. -/
theorem run_append_iff {us vs : List ℕ} {chk goal : ℕ} (hw : 0 < r.width)
    (hlen : vs.length = r.rest + 1) (hv : Fits r.width vs)
    (hgoal : goal < 2 ^ (r.width * (r.rest + 1))) :
    r.run chk (us ++ vs) = goal ↔ vs = digitsOf r.width (r.rest + 1)
      (r.run chk (us ++ List.replicate (r.rest + 1) 0) ^^^ goal) := by
  set zeros := r.run chk (us ++ List.replicate (r.rest + 1) 0) with hzeros
  have hsplit : r.run chk (us ++ vs) = zeros ^^^ r.run 0 vs := by
    have h : r.run (r.run chk us ^^^ 0) vs = _ := run_xor _ 0 vs
    rw [Nat.xor_zero, hlen] at h
    rw [run_append, h, hzeros, run_append]
  have hlt : zeros < 2 ^ (r.width * (r.rest + 1)) := by
    rw [hzeros, run_append]
    exact run_zeros_lt _ _
  rw [← run_zero_iff hw hlen hv (Nat.xor_lt_two_pow hlt hgoal), hsplit]
  constructor
  · intro h
    rw [← h, ← Nat.xor_assoc, Nat.xor_self, Nat.zero_xor]
  · intro h
    rw [h, ← Nat.xor_assoc, Nat.xor_self, Nat.zero_xor]

end Register

end Checksum
