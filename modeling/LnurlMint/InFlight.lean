import LnurlMint.Lib.Owing
import LnurlMint.Powers
import LnurlMint.Histories

/-!
# The registry of live melts

`_in_flight_melts` counts, for every payment hash, the attempts that are live in this process.
Reconciliation skips a hash that is in it and resolves one that is not, so a count that is too low
gives a note back while its payment is going out, and one that is too high leaves a note pending for
as long as the process lives.

The count is kept by two programs together: the request adds one before it schedules the payment,
and the payment takes one off in its `finally`. Between the request's two acts the invoice is
recorded and the `verify` URL made up. Where either raises, nothing is scheduled, and the request
takes off what it added before it hands the error on.

## Main definitions

* `meltCounter` — the registry as a counter
* `Task.melts` — the tasks that it counts

## Main results

* `body_owes` — every task's program keeps track
* `in_flight_exact`
-/

namespace LnurlMint

open Interleave Relational

variable {d : Deps} {cfg : Settings d}

/-! ## The counter -/

theorem ite_le_one (p : Prop) [Decidable p] : (if p then 1 else 0) ≤ 1 := by
  split <;> decide

/-- The task is an attempt to pay for this hash. -/
def Task.melts (h : Str) : Task → Bool
  | .meltPay _ _ decoded => decoded.paymentHash = some h
  | _ => false

/-- The tasks that change the count. -/
def Task.counts : Task → Bool
  | .meltPay .. | .request ⟨_, .getWithdrawCallback _ (some _) _ _ _⟩ => true
  | _ => false

/-- A payment that can be scheduled: its invoice has an amount and a payment hash. -/
def Task.Payable : Task → Prop
  | .meltPay _ _ decoded => decoded.amountMsat.isSome = true ∧ decoded.paymentHash.isSome = true
  | _ => True

/-- What an operation adds to the count of this hash. -/
def Op.meltGain (h : Str) : Op → ℤ
  | .trackMeltStart h' => if h' = h then 1 else 0
  | .trackMeltEnd h' => if h' = h then -1 else 0
  | _ => 0

theorem exec_meltGain {h : Str} {o : Op} {i : Input} {s s' : State} {out : o.Out}
    (hx : exec o i s = some (out, s')) (hle : 0 ≤ s.inFlight h + o.meltGain h) :
    (s'.inFlight h : ℤ) = s.inFlight h + o.meltGain h := by
  cases o with
  | write u =>
    obtain ⟨_, -, he⟩ := Option.map_eq_some_iff.1 hx
    cases he
    exact (add_zero _).symm
  | trackMeltStart h' =>
    cases hx
    by_cases he : h' = h
    · subst he
      simp [Op.meltGain]
    · simp [Op.meltGain, he, Function.update_of_ne (Ne.symm he)]
  | trackMeltEnd h' =>
    cases hx
    by_cases he : h' = h
    · subst he
      simp only [Op.meltGain, if_true, Function.update_self] at hle ⊢
      omega
    · simp [Op.meltGain, he, Function.update_of_ne (Ne.symm he)]
  | _ =>
    cases hx
    exact (add_zero _).symm

variable (cfg) in
/-- `_in_flight_melts`, at one hash. -/
def meltCounter (h : Str) : Counter (mint cfg) where
  value s := s.inFlight h
  gain o := o.meltGain h
  owed t := if t.melts h then 1 else 0
  most t := if t.counts then 1 else 0
  sound := Task.Payable
  value_exec := exec_meltGain
  value_stir hs := by
    rename_i m cs s s'
    show s'.inFlight h = s.inFlight h
    cases m <;> simp only [stir] at hs <;> split at hs <;> cases hs <;> rfl
  value_restart _ _ := rfl
  external {t} ht := by
    cases t with
    | meltPay => cases ht
    | _ => exact ⟨trivial, rfl⟩
  owed_le_most t := by
    cases t with
    | meltPay => exact (ite_le_one _).trans_eq rfl
    | _ => exact Nat.zero_le _

/-- What neither counts nor schedules. -/
def uncounted : Scope mintSig where
  op o := ∀ h, o.meltGain h = 0
  call _ := True
  task _ := False

/-- And does not give way either. -/
def uncountedStep : Scope mintSig where
  op := uncounted.op
  call _ := False
  task _ := False

/-! ## The programs -/

section Programs

variable {h : Str} {α : Type} {n : ℕ}

/-- The program accounts for nothing in the end. -/
abbrev ClearsMelts (cfg : Settings d) (h : Str) (rest n : ℕ) (p : Mint α) : Prop :=
  p.Owes (meltCounter cfg h) 1 rest (fun _ m => m = 0) n

theorem owes_uncounted {most : ℕ} {p : Mint α} {P : α → Prop} (hp : p.Within uncounted P)
    (hn : n ≤ most) :
    p.Owes (meltCounter cfg h) most n (fun r m => m = n ∧ ∀ x, r = .ok x → P x) n :=
  .of_within hp hn (fun _ ho => ho h) (fun _ _ => rfl) fun _ => False.elim

theorem clears_uncounted {p : Mint α} {P : α → Prop} (hp : p.Within uncounted P) :
    ClearsMelts cfg h 0 0 p :=
  (owes_uncounted hp (Nat.zero_le _)).mono fun _ _ hm => hm.1

theorem clears_bind {β : Type} {p : Mint α} {P : α → Prop} {f : α → Mint β}
    (hp : p.Within uncounted P) (hf : ∀ x, P x → ClearsMelts cfg h 0 0 (f x)) :
    ClearsMelts cfg h 0 0 (p >>= f) :=
  (owes_uncounted hp (Nat.zero_le _)).bind (fun x m hm => by
    obtain ⟨rfl, hx⟩ := hm
    exact hf x (hx x rfl)) fun _ _ hm => hm.1

theorem looks_uncounted : Looks uncounted := ⟨fun _ _ => rfl, fun _ => rfl, fun _ => rfl⟩

theorem settlesMint_uncounted (h : Str) : SettlesMint d uncounted h := ⟨trivial, fun _ => rfl⟩

theorem within_write_uncounted {u : Update} : (write u).Within uncounted fun _ => True :=
  within_write fun _ => rfl

theorem owed_meltPay {ids : List Str} {pr paymentHash : Str} {inv : Invoice}
    (hh : inv.paymentHash = some paymentHash) :
    (meltCounter cfg h).owed (.meltPay ids pr inv) = if paymentHash = h then 1 else 0 := by
  simp [meltCounter, Task.melts, hh]

theorem meltGain_start (paymentHash : Str) :
    ((if paymentHash = h then 1 else 0 : ℕ) : ℤ) =
      (0 : ℕ) + (meltCounter cfg h).gain (.trackMeltStart paymentHash) := by
  show _ = (0 : ℤ) + Op.meltGain h (.trackMeltStart paymentHash)
  rw [Op.meltGain]
  split <;> rfl

theorem meltGain_end (paymentHash : Str) :
    ((0 : ℕ) : ℤ) = ((if paymentHash = h then 1 else 0 : ℕ) : ℤ) +
      (meltCounter cfg h).gain (.trackMeltEnd paymentHash) := by
  show _ = _ + Op.meltGain h (.trackMeltEnd paymentHash)
  rw [Op.meltGain]
  split <;> rfl

theorem owes_uncountedStep {most rest : ℕ} {p : Mint α} {P : α → Prop}
    (hp : p.Within uncountedStep P) (hn : n ≤ most) :
    p.Owes (meltCounter cfg h) most rest (fun r m => m = n ∧ ∀ x, r = .ok x → P x) n :=
  .of_within hp hn (fun _ ho => ho h) (fun _ => False.elim) fun _ => False.elim

/-- The request hands over what it added, or still accounts for it where something raises. -/
theorem owes_recordAndSpawn {baseUrl pr paymentHash : Str} {noteIds : List Str}
    {decoded : Invoice} (ha : decoded.amountMsat.isSome = true)
    (hh : decoded.paymentHash = some paymentHash) :
    (recordAndSpawn cfg baseUrl noteIds pr paymentHash decoded).Owes (meltCounter cfg h) 1 0
      (fun r m => m = if r.toOption.isSome then 0 else if paymentHash = h then 1 else 0)
      (if paymentHash = h then 1 else 0) := by
  have hrecord : (write (.recordMelt paymentHash pr) : Mint Unit).Within uncountedStep
      fun _ => True := within_write fun _ => rfl
  refine (owes_uncountedStep hrecord (ite_le_one _)).bind (fun _ m hm => ?_) fun _ _ hm => hm.1
  rw [hm.1]
  refine (owes_uncountedStep within_verifyUrl (ite_le_one _)).bind (fun url m hm => ?_)
    fun _ _ hm => hm.1
  rw [hm.1]
  refine ⟨⟨ha, by rw [hh]; rfl⟩, 0, ?_, rfl⟩
  rw [owed_meltPay hh, Nat.zero_add]

/-- The request adds one and hands it to the payment, or takes it off again. -/
theorem clears_reserveAndSpawn {baseUrl pr paymentHash : Str} {noteIds : List Str}
    {decoded : Invoice} (ha : decoded.amountMsat.isSome = true)
    (hh : decoded.paymentHash = some paymentHash) :
    ClearsMelts cfg h 0 0 (reserveAndSpawn cfg baseUrl noteIds pr paymentHash decoded) := by
  refine clears_bind (within_burnErrorsAnswered within_write_uncounted) fun _ _ => ?_
  have hspawns : (tryCatch (recordAndSpawn cfg baseUrl noteIds pr paymentHash decoded) fun e => do
      perform (.trackMeltEnd paymentHash)
      throw e : Mint (Option Str)).Owes (meltCounter cfg h) 1 0 (fun _ m => m = 0)
        (if paymentHash = h then 1 else 0) := by
    refine (owes_recordAndSpawn ha hh).thenE ?_
    rintro (e | url) m rfl
    · exact ⟨0, meltGain_end paymentHash, Nat.zero_le _, fun _ => rfl⟩
    · rfl
  refine ⟨_, meltGain_start paymentHash, ite_le_one _, fun _ => ?_⟩
  exact hspawns.bind (fun _ _ hm => hm) fun _ _ hm => hm

theorem clears_melt {baseUrl pr : Str} {notes : List Verified} :
    ClearsMelts cfg h 0 0 (melt cfg baseUrl notes pr) := by
  refine clears_bind within_unspentTotal fun totalMsat _ => ?_
  split
  · rfl
  · next inv hinv =>
    refine clears_bind (.raiseIf _ _) fun _ hamount => ?_
    split
    · exact clears_bind within_requireFundingSource fun _ _ => rfl
    · next paymentHash hh =>
      refine clears_bind (within_read looks_uncounted) fun fee _ => ?_
      split
      · refine clears_bind (.raiseIf _ _) fun _ _ => ?_
        refine clears_bind (within_burnErrorsAnswered within_write_uncounted) fun _ _ => ?_
        exact clears_bind within_verifyUrl fun _ _ => rfl
      · refine clears_bind (within_read looks_uncounted) fun _ _ => ?_
        refine clears_bind (.raiseIf _ _) fun _ _ => ?_
        refine clears_bind (within_read looks_uncounted) fun _ _ => ?_
        refine clears_bind (.raiseIf _ _) fun _ _ => ?_
        refine clears_bind within_requireFundingSource fun _ _ => ?_
        exact clears_reserveAndSpawn (by rw [not_not.1 hamount]; rfl) hh

theorem clears_meltRequest {baseUrl pr : Str} {k1 : List Str} {amount : Option ℤ}
    (p1 p2 : Option Str) :
    ClearsMelts cfg h 0 0 (getWithdrawCallback cfg baseUrl k1 (some pr) amount p1 p2) := by
  refine clears_bind (P := fun _ => True) ?_ fun _ _ => ?_
  · refine .bind (.raiseIf _ _) fun _ _ => .bind (.raiseIf _ _) fun _ _ => ?_
    refine .bind (.raiseIf _ _) fun _ _ => ?_
    exact (Prog.Within.raiseIf _ _).weaken fun _ _ => trivial
  · refine clears_bind (within_verifiedNotes looks_uncounted settlesMint_uncounted) fun _ _ => ?_
    exact clears_melt

/-- The payment takes one off, whatever it comes to. -/
theorem clears_meltPay {ids : List Str} {pr : Str} {inv : Invoice}
    (ht : (Task.meltPay ids pr inv).Payable) :
    ClearsMelts cfg h ((meltCounter cfg h).owed (.meltPay ids pr inv))
      ((meltCounter cfg h).owed (.meltPay ids pr inv)) (meltPay cfg ids pr inv) := by
  obtain ⟨ha, hh⟩ := ht
  obtain ⟨amountMsat, hamount⟩ := Option.isSome_iff_exists.1 ha
  obtain ⟨paymentHash, hhash⟩ := Option.isSome_iff_exists.1 hh
  rw [meltPay, hamount]
  have hdrop : ∀ r : Except Exn Unit, ClearsMelts cfg h
      ((meltCounter cfg h).owed (.meltPay ids pr inv))
      ((meltCounter cfg h).owed (.meltPay ids pr inv))
      (Prog.thenE (do
        let paymentHash ← Prog.orRaise inv.paymentHash .other
        perform (.trackMeltEnd paymentHash) : Mint Unit) (Prog.onOk fun _ => .done r)) := by
    intro r
    rw [hhash]
    rw [owed_meltPay hhash]
    exact ⟨0, meltGain_end paymentHash, Nat.zero_le _, fun _ => rfl⟩
  have hpays : (payAndResolve cfg ids pr inv amountMsat).Within uncounted fun _ => True := by
    refine .bind (.ask trivial) fun paid _ => ?_
    split
    · refine .bind within_write_uncounted fun _ _ => ?_
      split
      · exact within_write_uncounted
      · exact .pure trivial
    · split
      · exact .pure trivial
      · refine .bind (within_confirmPayment trivial fun _ _ => trivial) fun completed _ => ?_
        split
        · exact .pure trivial
        · exact within_write_uncounted
        · exact .bind within_write_uncounted fun _ _ => within_write_uncounted
  exact (owes_uncounted hpays (ite_le_one _)).thenE fun r m hm => by
    rw [hm.1]
    exact hdrop r

theorem powers_uncounted {t : Task} (ht : t.counts = false) : t.powers cfg ≤ uncounted := by
  refine ⟨fun o ho h => ?_, fun _ _ => trivial, ?_⟩
  · cases o with
    | trackMeltStart =>
      obtain ⟨_, _, _, _, _, rfl, -⟩ := ho
      cases ht
    | trackMeltEnd =>
      rcases ho with ⟨_, _, _, rfl, -⟩ | ⟨_, _, _, _, _, rfl, -⟩ <;> cases ht
    | _ => rfl
  · rintro t' ⟨⟨baseUrl, endpoint⟩, rfl, hs⟩
    cases endpoint with
    | getWithdrawCallback k1 pr =>
      obtain _ | pr := pr
      · cases hs
      · cases ht
    | _ => cases hs

/-- Every task's program keeps track. -/
theorem body_owes {t : Task} (ht : t.Payable) :
    (body cfg t).Clears (meltCounter cfg h) t ((meltCounter cfg h).owed t) := by
  by_cases hc : t.counts = true
  · cases t with
    | meltPay ids pr inv =>
      exact (clears_meltPay ht).thenE fun _ _ hm => hm
    | request r =>
      obtain ⟨baseUrl, endpoint⟩ := r
      cases endpoint with
      | getWithdrawCallback k1 pr amount p1 p2 =>
        obtain _ | pr := pr
        · cases hc
        · refine (clears_meltRequest p1 p2).thenE fun r m hm => ?_
          obtain rfl : m = 0 := hm
          obtain e | x := r
          · cases e with
            | http detail => rfl
            | _ =>
              exact clears_uncounted (P := fun _ => True)
                (.bind (within_logInternalError looks_uncounted) fun _ _ => .pure trivial)
          · rfl
      | _ => cases hc
    | _ => cases hc
  · have hc : t.counts = false := Bool.eq_false_iff.2 hc
    have howed : (meltCounter cfg h).owed t = 0 := by
      cases t with
      | meltPay => cases hc
      | _ => rfl
    have hw := (body_within cfg t).mono (powers_uncounted hc) fun _ => id
    rw [Prog.Clears, howed]
    exact (owes_uncounted hw (Nat.zero_le _)).mono fun _ _ hm => hm.1

end Programs

/-! ## Every run -/

/-- How many attempts to pay for this hash are waiting. -/
def liveMelts (c : Config (mint cfg)) (h : Str) : ℕ := c.pool.countP fun x => x.1.task.melts h

theorem meltCounter_total (pool : List (Actor mintSig × Phase (mint cfg))) (h : Str) :
    (meltCounter cfg h).total pool = pool.countP fun x => x.1.task.melts h := by
  induction pool with
  | nil => rfl
  | cons x pool ih =>
    rw [List.countP_cons, ← ih, Counter.total, List.map_cons, List.sum_cons, Nat.add_comm]
    rfl

/-- **The registry counts the live melts.** In every run from a mint that was just set up, whatever
interleaves and wherever the process is killed, the count of a hash is never below the number of
attempts to pay for it that are waiting, and at most one above it while a melt is being scheduled or
finished. It is exact at every moment at which anything else runs. -/
theorem in_flight_exact {c : Config (mint cfg)} (hc : Reach State.initial c) (h : Str) :
    liveMelts c h ≤ c.w.st.inFlight h ∧ c.w.st.inFlight h ≤ liveMelts c h + 1 ∧
      ((∀ a p, c.running = some (a, p) → a.task.counts = false) →
        c.w.st.inFlight h = liveMelts c h) := by
  obtain ⟨-, n, hn, hnone, hrun⟩ := hc.counted (meltCounter cfg h) rfl lawful_body
    fun t => body_owes
  rw [meltCounter_total] at hn
  have hvalue : c.w.st.inFlight h = liveMelts c h + n := hn
  have hmost : ∀ a p, c.running = some (a, p) → n ≤ if a.task.counts then 1 else 0 :=
    fun a p he => (hrun a p he).1
  cases hr : c.running with
  | none =>
    have := hnone hr
    omega
  | some x =>
    have hle := (hmost x.1 x.2 hr).trans (ite_le_one _)
    refine ⟨by omega, by omega, fun hother => ?_⟩
    have hzero := hmost x.1 x.2 hr
    rw [hother x.1 x.2 rfl] at hzero
    have : n = 0 := Nat.le_zero.1 hzero
    omega

/-- A note is minted and melted; its payment has not begun. -/
def scheduledRun : List (Choice standInMint) :=
  standInMints 0 "h".toList (standInKey '1') ++ standInMelts 5 (standInKey '1') "p".toList

theorem in_flight_exact_scheduled : ∃ c : Config standInMint, Reach State.initial c ∧
    c.w.st.inFlight "p".toList = 1 ∧ liveMelts c "p".toList = 1 := by
  have hrun : (standInRun scheduledRun).any (fun c => decide (c.running = none) &&
      decide (c.w.st.inFlight "p".toList = 1)) = true := by decide +kernel
  obtain ⟨c, hc, h⟩ := exists_standInRun hrun
  obtain ⟨hnone, hone⟩ := (Bool.and_eq_true _ _).mp h
  have hcount := of_decide_eq_true hone
  have hexact := (in_flight_exact hc "p".toList).2.2 fun a p he => by
    rw [of_decide_eq_true hnone] at he
    cases he
  exact ⟨c, hc, hcount, hexact ▸ hcount⟩

end LnurlMint
