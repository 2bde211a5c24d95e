import Mathlib.Data.Nat.Bitwise
import Mathlib.Tactic.Ring

/-!
# Regrouping bits

Numbers of one width are written as numbers of another by running through their bits, the most
significant first, and cutting the run anew. The run need not divide evenly. A writer pads its end
with zeros; a reader takes a padding that is shorter than both widths and consists of zeros, and
nothing else.

The procedure is the usual one: an accumulator holds the bits that were read and not yet cut off,
and is cut down to as many bits as it can need.

## Main definitions

* `low` — the last bits of a number
* `bitsOf` — the bits of a list of numbers
* `regroup` — the procedure

## Main results

* `regroup_pad`, `regroup_strict_iff` — what a writer and a reader do to the bits
* `regroup_inverse` — the reader of the other widths undoes the writer, and accepts nothing else
-/

namespace Bits

/-! ## The bits of a number -/

/-- The last `n` bits of a number, the most significant first. -/
def low : ℕ → ℕ → List Bool
  | 0, _ => []
  | n + 1, a => a.testBit n :: low n a

@[simp] theorem low_zero_width (a : ℕ) : low 0 a = [] := rfl

@[simp] theorem length_low (n a : ℕ) : (low n a).length = n := by
  induction n with
  | zero => rfl
  | succ n ih => rw [low, List.length_cons, ih]

theorem low_congr {n a b : ℕ} (h : ∀ i < n, a.testBit i = b.testBit i) : low n a = low n b := by
  induction n with
  | zero => rfl
  | succ n ih => rw [low, low, h n (Nat.lt_succ_self n), ih fun i hi => h i (by omega)]

theorem testBit_of_low {n a b : ℕ} (h : low n a = low n b) :
    ∀ i < n, a.testBit i = b.testBit i := by
  induction n with
  | zero => intro i hi; omega
  | succ n ih =>
    intro i hi
    obtain ⟨hn, hrest⟩ := List.cons.inj h
    by_cases hin : i = n
    · rw [hin, hn]
    · exact ih hrest i (by omega)

/-- A number is its bits. -/
theorem eq_of_low {n a b : ℕ} (ha : a < 2 ^ n) (hb : b < 2 ^ n) (h : low n a = low n b) :
    a = b := by
  refine Nat.eq_of_testBit_eq fun i => ?_
  by_cases hi : i < n
  · exact testBit_of_low h i hi
  · have hle : 2 ^ n ≤ 2 ^ i := Nat.pow_le_pow_right (by decide) (by omega)
    rw [Nat.testBit_lt_two_pow (lt_of_lt_of_le ha hle),
      Nat.testBit_lt_two_pow (lt_of_lt_of_le hb hle)]

theorem low_add (m n a : ℕ) : low (m + n) a = low m (a >>> n) ++ low n a := by
  induction m with
  | zero => rw [Nat.zero_add, low_zero_width, List.nil_append]
  | succ m ih =>
    rw [show m + 1 + n = m + n + 1 by omega, low, low, ih, Nat.testBit_shiftRight,
      Nat.add_comm n m, List.cons_append]

theorem low_mask (n a : ℕ) : low n (a &&& (2 ^ n - 1)) = low n a := by
  refine low_congr fun i hi => ?_
  rw [Nat.testBit_and, Nat.testBit_two_pow_sub_one, decide_eq_true hi, Bool.and_true]

theorem low_shiftLeft (m n a : ℕ) : low (m + n) (a <<< n) = low m a ++ List.replicate n false := by
  have hzeros : low n (a <<< n) = List.replicate n false := by
    have hlow : ∀ k ≤ n, low k (a <<< n) = List.replicate k false := by
      intro k
      induction k with
      | zero => exact fun _ => rfl
      | succ k ih =>
        intro hk
        rw [low, List.replicate_succ, ih (by omega), Nat.testBit_shiftLeft]
        simp [show ¬n ≤ k by omega]
    exact hlow n (le_refl n)
  rw [low_add, Nat.shiftLeft_shiftRight, hzeros]

theorem mask_lt (n a : ℕ) : a &&& (2 ^ n - 1) < 2 ^ n :=
  lt_of_le_of_lt Nat.and_le_right (Nat.sub_lt (Nat.two_pow_pos n) Nat.one_pos)

/-! ## The bits of a list of numbers -/

/-- The bits of numbers of this width. -/
def bitsOf (width : ℕ) (values : List ℕ) : List Bool := values.flatMap (low width)

@[simp] theorem bitsOf_nil (width : ℕ) : bitsOf width [] = [] := rfl

theorem bitsOf_cons (width v : ℕ) (vs : List ℕ) :
    bitsOf width (v :: vs) = low width v ++ bitsOf width vs := rfl

theorem bitsOf_append (width : ℕ) (vs us : List ℕ) :
    bitsOf width (vs ++ us) = bitsOf width vs ++ bitsOf width us := by
  rw [bitsOf, List.flatMap_append]
  rfl

@[simp] theorem length_bitsOf (width : ℕ) (vs : List ℕ) :
    (bitsOf width vs).length = width * vs.length := by
  induction vs with
  | nil => rfl
  | cons v vs ih =>
    rw [bitsOf_cons, List.length_append, length_low, ih, List.length_cons]
    ring

/-- Every number fits the width. -/
def Fits (width : ℕ) (values : List ℕ) : Prop := ∀ v ∈ values, v < 2 ^ width

theorem Fits.append {width : ℕ} {vs us : List ℕ} (hv : Fits width vs) (hu : Fits width us) :
    Fits width (vs ++ us) := by
  intro v hmem
  rcases List.mem_append.1 hmem with h | h
  · exact hv v h
  · exact hu v h

/-- Numbers that fit are their bits, if there is a width. -/
theorem eq_of_bitsOf {width : ℕ} (hw : 0 < width) {vs us : List ℕ} (hv : Fits width vs)
    (hu : Fits width us) (h : bitsOf width vs = bitsOf width us) : vs = us := by
  have hlen : vs.length = us.length := by
    have := congrArg List.length h
    rw [length_bitsOf, length_bitsOf] at this
    exact Nat.eq_of_mul_eq_mul_left hw this
  induction vs generalizing us with
  | nil => rw [List.length_nil] at hlen; exact (List.length_eq_zero_iff.1 hlen.symm).symm
  | cons v vs ih =>
    cases us with
    | nil => cases hlen
    | cons u us =>
      rw [bitsOf_cons, bitsOf_cons] at h
      obtain ⟨hhead, hrest⟩ := List.append_inj h (by rw [length_low, length_low])
      rw [eq_of_low (hv v List.mem_cons_self) (hu u List.mem_cons_self) hhead,
        ih (fun w hw => hv w (List.mem_cons_of_mem _ hw))
          (fun w hw => hu w (List.mem_cons_of_mem _ hw)) hrest (Nat.succ.inj hlen)]

/-- Numbers whose bits begin another's run, up to less than a width at its end, begin that list. -/
theorem exists_append_of_bitsOf {width : ℕ} {vs us : List ℕ} {run tail : List Bool}
    (hv : Fits width vs) (hu : Fits width us) (htail : tail.length < width)
    (h : bitsOf width vs ++ run = bitsOf width us ++ tail) :
    ∃ rest, us = vs ++ rest ∧ run = bitsOf width rest ++ tail := by
  have hle : vs.length ≤ us.length := by
    have hlen := congrArg List.length h
    rw [List.length_append, List.length_append, length_bitsOf, length_bitsOf] at hlen
    by_contra hlt
    have : width * (us.length + 1) ≤ width * vs.length := Nat.mul_le_mul_left _ (by omega)
    rw [Nat.mul_add] at this
    omega
  have hsplit : us = us.take vs.length ++ us.drop vs.length := (List.take_append_drop _ _).symm
  rw [hsplit, bitsOf_append, List.append_assoc] at h
  obtain ⟨hhead, hrun⟩ := List.append_inj h (by
    rw [length_bitsOf, length_bitsOf, List.length_take, Nat.min_eq_left hle])
  refine ⟨us.drop vs.length, ?_, hrun⟩
  have htake := eq_of_bitsOf (Nat.zero_lt_of_lt htail) hv
    (fun v hmem => hu v (List.mem_of_mem_take hmem)) hhead
  exact hsplit.trans (congrArg (· ++ us.drop vs.length) htake.symm)

/-! ## The procedure -/

/-- The inner loop: whole numbers of width `t` are cut off the accumulator, as long as it holds so
many bits. What is cut off, and how many bits are left. -/
def drain (t acc : ℕ) : ℕ → ℕ → List ℕ × ℕ
  | 0, bits => ([], bits)
  | fuel + 1, bits =>
    if t ≤ bits then
      let rest := drain t acc fuel (bits - t)
      (((acc >>> (bits - t)) &&& (2 ^ t - 1)) :: rest.1, rest.2)
    else ([], bits)

/-- The end: a writer pads what is left, a reader checks that it is a padding. -/
def finish (f t : ℕ) (pad : Bool) (acc bits : ℕ) : Option (List ℕ) :=
  let last := (acc <<< (t - bits)) &&& (2 ^ t - 1)
  if pad then some (if bits = 0 then [] else [last])
  else if f ≤ bits ∨ last ≠ 0 then none
  else some []

/-- The outer loop, over numbers of width `f`, with so many bits in the accumulator. -/
def regroupFrom (f t : ℕ) (pad : Bool) : ℕ → ℕ → List ℕ → Option (List ℕ)
  | acc, bits, [] => finish f t pad acc bits
  | acc, bits, v :: vs =>
    if v >>> f ≠ 0 then none
    else
      let acc := ((acc <<< f) ||| v) &&& (2 ^ (f + t - 1) - 1)
      let cut := drain t acc (bits + f) (bits + f)
      (regroupFrom f t pad acc cut.2 vs).map (cut.1 ++ ·)

/-- Numbers of width `f` as numbers of width `t`. -/
def regroup (f t : ℕ) (pad : Bool) (values : List ℕ) : Option (List ℕ) :=
  regroupFrom f t pad 0 0 values

variable {f t acc bits : ℕ} {vs out : List ℕ}

/-- What is cut off and what is left are the bits that the accumulator held. -/
theorem drain_spec (ht : 0 < t) (acc : ℕ) {fuel bits : ℕ} (hfuel : bits ≤ fuel) :
    (drain t acc fuel bits).2 < t ∧ Fits t (drain t acc fuel bits).1 ∧
      low bits acc = bitsOf t (drain t acc fuel bits).1 ++ low (drain t acc fuel bits).2 acc := by
  induction fuel generalizing bits with
  | zero =>
    obtain rfl : bits = 0 := by omega
    exact ⟨ht, by simp [drain, Fits], rfl⟩
  | succ fuel ih =>
    rw [drain]
    by_cases hcut : t ≤ bits
    · rw [if_pos hcut]
      obtain ⟨hleft, hfits, hbits⟩ := ih (show bits - t ≤ fuel by omega)
      refine ⟨hleft, ?_, ?_⟩
      · intro v hv
        rcases List.mem_cons.1 hv with rfl | hv
        · exact mask_lt t _
        · exact hfits v hv
      · dsimp only
        rw [bitsOf_cons, low_mask, List.append_assoc, ← hbits, ← low_add, Nat.add_sub_cancel' hcut]
    · rw [if_neg hcut]
      exact ⟨not_le.1 hcut, by simp [Fits], rfl⟩

/-- The accumulator takes a number in, and the bits that its mask drops are none that it holds. -/
theorem low_take_in (hb : bits < t) {v : ℕ} (hv : v < 2 ^ f) (acc : ℕ) :
    low (bits + f) (((acc <<< f) ||| v) &&& (2 ^ (f + t - 1) - 1)) = low bits acc ++ low f v := by
  have hmask : low (bits + f) (((acc <<< f) ||| v) &&& (2 ^ (f + t - 1) - 1)) =
      low (bits + f) ((acc <<< f) ||| v) := by
    refine low_congr fun i hi => ?_
    rw [Nat.testBit_and, Nat.testBit_two_pow_sub_one, decide_eq_true (by omega), Bool.and_true]
  rw [hmask, low_add]
  congr 1
  · refine low_congr fun i _ => ?_
    have hhigh : v.testBit (f + i) = false := by
      refine Nat.testBit_lt_two_pow (lt_of_lt_of_le hv ?_)
      exact Nat.pow_le_pow_right (by decide) (Nat.le_add_right f i)
    rw [Nat.testBit_shiftRight, Nat.testBit_or, hhigh, Bool.or_false, Nat.testBit_shiftLeft,
      decide_eq_true (Nat.le_add_right f i), Bool.true_and, Nat.add_sub_cancel_left]
  · refine low_congr fun i hi => ?_
    rw [Nat.testBit_or, Nat.testBit_shiftLeft, decide_eq_false (by omega), Bool.false_and,
      Bool.false_or]

theorem shiftRight_eq_zero_iff {v : ℕ} : v >>> f = 0 ↔ v < 2 ^ f := by
  rw [Nat.shiftRight_eq_div_pow, Nat.div_eq_zero_iff_lt (Nat.two_pow_pos f)]

theorem low_last (hb : bits ≤ t) (acc : ℕ) :
    low t ((acc <<< (t - bits)) &&& (2 ^ t - 1)) =
      low bits acc ++ List.replicate (t - bits) false := by
  rw [low_mask, ← low_shiftLeft, Nat.add_sub_cancel' hb]

theorem finish_pad (hb : bits < t) (f acc : ℕ) : ∃ out k, k < t ∧ Fits t out ∧
    finish f t true acc bits = some out ∧
      bitsOf t out = low bits acc ++ List.replicate k false := by
  rw [finish, if_pos rfl]
  by_cases hzero : bits = 0
  · exact ⟨[], 0, by omega, by simp [Fits], by rw [if_pos hzero], by rw [hzero]; rfl⟩
  · refine ⟨_, t - bits, by omega, ?_, by rw [if_neg hzero], ?_⟩
    · intro v hv
      rw [List.mem_singleton.1 hv]
      exact mask_lt t _
    · rw [bitsOf_cons, bitsOf_nil, List.append_nil, low_last hb.le]

theorem finish_strict_iff (hb : bits < t) : finish f t false acc bits = some out ↔
    out = [] ∧ bits < f ∧ low bits acc = List.replicate bits false := by
  have hlast : (acc <<< (t - bits)) &&& (2 ^ t - 1) = 0 ↔
      low bits acc = List.replicate bits false := by
    have hzero : low t 0 = List.replicate t false := by
      have := low_shiftLeft 0 t 0
      rwa [Nat.zero_add, Nat.zero_shiftLeft, low_zero_width, List.nil_append] at this
    have hsplit : List.replicate t false =
        List.replicate bits false ++ List.replicate (t - bits) false := by
      rw [List.replicate_append_replicate, Nat.add_sub_cancel' hb.le]
    constructor
    · intro h
      have hlow := low_last hb.le acc
      rw [h, hzero, hsplit] at hlow
      exact (List.append_inj hlow (by rw [List.length_replicate, length_low])).1.symm
    · intro h
      refine eq_of_low (mask_lt t _) (Nat.two_pow_pos t) ?_
      rw [low_last hb.le, h, hzero, hsplit]
  rw [finish, if_neg Bool.false_ne_true, ← hlast]
  by_cases hrest : f ≤ bits ∨ (acc <<< (t - bits)) &&& (2 ^ t - 1) ≠ 0
  · rw [if_pos hrest]
    refine iff_of_false (by simp) fun h => ?_
    rcases hrest with hle | hne
    · omega
    · exact hne h.2.2
  · rw [if_neg hrest]
    rw [not_or, not_le, not_not] at hrest
    rw [Option.some.injEq]
    exact ⟨fun h => ⟨h.symm, hrest⟩, fun h => h.1.symm⟩

/-- One turn of the outer loop, over a number that fits. -/
theorem regroupFrom_cons {v : ℕ} (ht : 0 < t) (hb : bits < t) (hv : v < 2 ^ f) (pad : Bool)
    (acc : ℕ) (vs : List ℕ) :
    ∃ cut acc' bits', bits' < t ∧ Fits t cut ∧
      low bits acc ++ low f v = bitsOf t cut ++ low bits' acc' ∧
      regroupFrom f t pad acc bits (v :: vs) =
        (regroupFrom f t pad acc' bits' vs).map (cut ++ ·) := by
  obtain ⟨hleft, hfits, hbits⟩ := drain_spec ht (((acc <<< f) ||| v) &&& (2 ^ (f + t - 1) - 1))
    (le_refl (bits + f))
  refine ⟨_, ((acc <<< f) ||| v) &&& (2 ^ (f + t - 1) - 1), _, hleft, hfits, ?_, ?_⟩
  · rw [← hbits, low_take_in hb hv]
  · rw [regroupFrom, if_neg (not_not.2 (shiftRight_eq_zero_iff.2 hv))]

/-- **A writer keeps the bits**, and pads them with less than a number's width of zeros. -/
theorem regroupFrom_pad (acc : ℕ) (ht : 0 < t) (hb : bits < t) (hv : Fits f vs) : ∃ out k, k < t ∧
    Fits t out ∧ regroupFrom f t true acc bits vs = some out ∧
    bitsOf t out = low bits acc ++ bitsOf f vs ++ List.replicate k false := by
  induction vs generalizing acc bits with
  | nil =>
    rw [bitsOf_nil, List.append_nil]
    exact finish_pad hb f acc
  | cons v vs ih =>
    obtain ⟨cut, acc', bits', hb', hcut, hbits, heq⟩ := regroupFrom_cons ht hb
      (hv v List.mem_cons_self) true acc vs
    obtain ⟨out, k, hk, hfits, hout, hrun⟩ := ih acc' hb' fun u hu =>
      hv u (List.mem_cons_of_mem _ hu)
    refine ⟨cut ++ out, k, hk, hcut.append hfits, by rw [heq, hout]; rfl, ?_⟩
    rw [bitsOf_append, hrun, bitsOf_cons, ← List.append_assoc (low bits acc), hbits]
    simp only [List.append_assoc]

/-- **A reader takes numbers that fit, and of what is left over a padding only.** -/
theorem regroupFrom_strict_iff (ht : 0 < t) (hb : bits < t) :
    regroupFrom f t false acc bits vs = some out ↔ Fits f vs ∧ Fits t out ∧
      ∃ k, k < t ∧ k < f ∧
        low bits acc ++ bitsOf f vs = bitsOf t out ++ List.replicate k false := by
  induction vs generalizing acc bits out with
  | nil =>
    rw [regroupFrom, finish_strict_iff hb, bitsOf_nil, List.append_nil]
    constructor
    · rintro ⟨rfl, hf, hlow⟩
      exact ⟨by simp [Fits], by simp [Fits], bits, hb, hf, by rw [hlow]; rfl⟩
    · rintro ⟨-, hfits, k, hk, hkf, hlow⟩
      have hlen := congrArg List.length hlow
      rw [length_low, List.length_append, length_bitsOf, List.length_replicate] at hlen
      have hout : out = [] := by
        by_contra hne
        have hpos := List.length_pos_iff.2 hne
        have : t * 1 ≤ t * out.length := Nat.mul_le_mul_left t hpos
        omega
      subst hout
      rw [List.length_nil, Nat.mul_zero, Nat.zero_add] at hlen
      exact ⟨rfl, by omega, by rw [hlow, hlen]; rfl⟩
  | cons v vs ih =>
    by_cases hv : v < 2 ^ f
    · obtain ⟨cut, acc', bits', hb', hcut, hbits, heq⟩ := regroupFrom_cons ht hb hv false acc vs
      rw [heq, bitsOf_cons, ← List.append_assoc, hbits, List.append_assoc, Option.map_eq_some_iff]
      constructor
      · rintro ⟨rest, hrest, rfl⟩
        obtain ⟨hfits, hout, k, hk, hkf, hrun⟩ := (ih hb').1 hrest
        refine ⟨List.forall_mem_cons.2 ⟨hv, hfits⟩, hcut.append hout, k, hk, hkf, ?_⟩
        rw [hrun, bitsOf_append, List.append_assoc]
      · rintro ⟨hfits, hout, k, hk, hkf, hrun⟩
        obtain ⟨rest, rfl, hrest⟩ := exists_append_of_bitsOf hcut hout
          (by rwa [List.length_replicate]) hrun
        refine ⟨rest, (ih hb').2 ⟨fun u hu => hfits u (List.mem_cons_of_mem _ hu),
          fun u hu => hout u (List.mem_append_right _ hu), k, hk, hkf, hrest⟩, rfl⟩
    · rw [regroupFrom, if_pos (fun h => hv (shiftRight_eq_zero_iff.1 h))]
      refine iff_of_false (by simp) fun h => hv (h.1 v List.mem_cons_self)

/-! ## Writing and reading back -/

theorem regroup_pad_iff (ht : 0 < t) (hv : Fits f vs) :
    regroup f t true vs = some out ↔ Fits t out ∧
      ∃ k, k < t ∧ bitsOf t out = bitsOf f vs ++ List.replicate k false := by
  obtain ⟨out', k', hk', hfits', hout', hrun'⟩ := regroupFrom_pad 0 ht ht hv
  rw [low_zero_width, List.nil_append] at hrun'
  rw [regroup, hout']
  constructor
  · rintro h
    cases h
    exact ⟨hfits', k', hk', hrun'⟩
  · rintro ⟨hfits, k, hk, hrun⟩
    have hlen := congrArg List.length hrun
    have hlen' := congrArg List.length hrun'
    rw [List.length_append, length_bitsOf, List.length_replicate] at hlen hlen'
    -- a width of padding more would be a number more
    have hcount : out.length = out'.length := by
      rcases Nat.lt_trichotomy out.length out'.length with h | h | h
      · have := Nat.mul_le_mul_left t (Nat.succ_le_of_lt h)
        rw [Nat.mul_succ] at this
        omega
      · exact h
      · have := Nat.mul_le_mul_left t (Nat.succ_le_of_lt h)
        rw [Nat.mul_succ] at this
        omega
    have hkk : k = k' := by
      rw [hcount] at hlen
      omega
    rw [eq_of_bitsOf ht hfits' hfits (by rw [hrun, hrun', hkk])]

theorem regroup_strict_iff (ht : 0 < t) :
    regroup f t false vs = some out ↔ Fits f vs ∧ Fits t out ∧
      ∃ k, k < t ∧ k < f ∧ bitsOf f vs = bitsOf t out ++ List.replicate k false := by
  rw [regroup, regroupFrom_strict_iff ht ht, low_zero_width, List.nil_append]

/-- **Reading undoes writing, and reads nothing that is not written so**, where the numbers written
are no wider than those they write. -/
theorem regroup_inverse (ht : 0 < t) (hle : t ≤ f) (hv : Fits f vs) :
    regroup f t true vs = some out ↔ regroup t f false out = some vs := by
  rw [regroup_pad_iff ht hv, regroup_strict_iff (lt_of_lt_of_le ht hle)]
  constructor
  · rintro ⟨hfits, k, hk, hrun⟩
    exact ⟨hfits, hv, k, by omega, hk, hrun⟩
  · rintro ⟨hfits, -, k, -, hk, hrun⟩
    exact ⟨hfits, k, hk, hrun⟩

/-- A writer writes whatever fits. -/
theorem exists_regroup_pad (ht : 0 < t) (hv : Fits f vs) :
    ∃ out, regroup f t true vs = some out ∧ Fits t out := by
  obtain ⟨out, -, -, hfits, hout, -⟩ := regroupFrom_pad 0 ht ht hv
  exact ⟨out, hout, hfits⟩

end Bits
