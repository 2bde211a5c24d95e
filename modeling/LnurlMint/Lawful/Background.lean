import LnurlMint.Lawful.Redeem

/-!
# Background tasks keep the law, and so does every history

The payment of a melt, the reconciliation of pending melts and the periodic rounds. With them every
task is accounted for, and `Reach.law` says that every history of the mint is a lawful one. That is
all that later results know of the programs.

## Main results

* `lawful_meltPay`, `lawful_reconcilePendingMelts`
* `Reach.law` — every history is lawful
-/

namespace LnurlMint

open Interleave

variable {d : Deps} {cfg : Settings d} {a : Actor mintSig} {w w' : World (mint cfg)}

/-! ## Asking whether a payment is complete -/

theorem wp_isPaymentComplete {h : Str} {Q : Except Exn (Except Exn Bool) → World (mint cfg) → Prop}
    (hr : Unreserved w a) (hc : MayCall cfg w a (.isPaymentComplete h))
    (hQ : ∀ r w', Later a w w' → Idle w' a →
      (∃ pre, Event.called a (.isPaymentComplete h) pre ∈ w'.hist) →
      (∀ b, r = .ok b → ∃ pre rest,
        w'.hist = .answered a (.isPaymentComplete h) (.ok b) pre :: rest) → Q (.ok r) w') :
    wp (law cfg) a (Prog.attempt (isPaymentComplete h)) Q w := by
  refine wp_attempt.2 (wp_bind.2 (wp_ask hr hc fun ans w₁ hl hcalled ⟨pre, rest, hh⟩ => ?_))
  refine wp_answer (fun b hb => hQ _ _ hl (.of_answered hh) hcalled ?_)
    fun _ => hQ _ _ hl (.of_answered hh) hcalled (by simp)
  rintro _ ⟨⟩
  exact ⟨pre, rest, by rw [hh, hb]⟩

/-- Whatever the retries, the answer that is taken was just given. -/
theorem wp_confirmPayment {h : Str} {delays : List ℕ}
    {Q : Except Exn (Option Bool) → World (mint cfg) → Prop} (hr : Unreserved w a)
    (ht : a.task ≠ .reconcilePendingMelts)
    (hQ : ∀ r w', Later a w w' → Idle w' a →
      (∀ b, r = some b → ∃ pre rest,
        w'.hist = .answered a (.isPaymentComplete h) (.ok b) pre :: rest) → Q (.ok r) w') :
    wp (law cfg) a (confirmPayment h delays) Q w := by
  induction delays generalizing w with
  | nil =>
    refine wp_bind.2 (wp_isPaymentComplete hr (fun he => absurd he ht) fun r w₁ hl hi _ hb => ?_)
    cases r with
    | ok b => exact hQ _ _ hl hi fun b' hb' => hb b' (by cases hb'; rfl)
    | error e => exact hQ _ _ hl hi (by simp)
  | cons delay delays ih =>
    refine wp_bind.2 (wp_isPaymentComplete hr (fun he => absurd he ht) fun r w₁ hl hi _ hb => ?_)
    cases r with
    | ok b => exact hQ _ _ hl hi fun b' hb' => hb b' (by cases hb'; rfl)
    | error e =>
      refine wp_bind.2 (wp_ask (hr.later hl) trivial fun _ w₂ hl₂ _ _ => ?_)
      have hl₂ := hl.trans hl₂
      exact ih (hr.later hl₂) fun r w₃ hl₃ => hQ r w₃ (hl₂.trans hl₃)

/-! ## Paying a melt -/

/-- Where the payment of a melt stands once the funding source was asked to pay the invoice. -/
structure Attempted (w : World (mint cfg)) (a : Actor mintSig) (pr : Str) : Prop where
  unreserved : Unreserved w a
  idle : Idle w a
  asked : ∃ limit pre, Event.called a (.payInvoice pr limit) pre ∈ w.hist
  tracked : ∀ h i pre, Event.did a (.trackMeltEnd h) i () pre ∉ w.hist

theorem Attempted.wrote {u : Update} {i : Input} {r : Except Exn u.Out} {s : State}
    {pr : Str} (h : Attempted w a pr) (hu : ∀ ids hash, u ≠ .markPending ids hash) :
    Attempted (w.record (.did a (.write u) i r w.st) s) a pr where
  unreserved := h.unreserved.wrote hu
  idle := h.idle.did
  asked := by
    obtain ⟨limit, pre, he⟩ := h.asked
    exact ⟨limit, pre, List.mem_cons_of_mem _ he⟩
  tracked := by
    rintro hash i' pre (_ | ⟨_, he⟩)
    exact h.tracked hash i' pre he

theorem Clean.not_tracked (h : Clean w a) (hash : Str) (i : Input) (pre : State) :
    Event.did a (.trackMeltEnd hash) i () pre ∉ w.hist := fun he => h _ he rfl

/-- A resolution: notes finalized or restored, and perhaps the melt marked settled. -/
theorem wp_resolve {u : Update} {pr : Str} {Q : Except Exn u.Out → World (mint cfg) → Prop}
    (h : Attempted w a pr) (hu : MayWrite cfg w a u) (hm : ∀ ids hash, u ≠ .markPending ids hash)
    (hQ : ∀ r w', Attempted w' a pr → Q r w') : wp (law cfg) a (write u) Q w :=
  wp_write hu fun _ _ _ _ => hQ _ _ (h.wrote hm)

theorem wp_payAndResolve {ids : List Str} {pr : Str} {inv : Invoice} {amountMsat : ℤ}
    {Q : Except Exn Unit → World (mint cfg) → Prop} (ha : a.task = .meltPay ids pr inv)
    (hf : Fresh w a.tid) (hQ : ∀ r w', Attempted w' a pr → Q r w') :
    wp (law cfg) a (payAndResolve cfg ids pr inv amountMsat) Q w := by
  have hc := Clean.of_fresh hf
  have ht : a.task ≠ .reconcilePendingMelts := by rw [ha]; exact Task.noConfusion
  have hnc : NoCallback a.task := by rw [ha]; rfl
  have hcall : MayCall cfg w a (.payInvoice pr (meltFeeLimitMsat cfg amountMsat)) :=
    ⟨⟨ids, inv, ha⟩, fun _ _ _ he => hf _ he rfl⟩
  refine wp_bind.2 (wp_ask hc.unreserved hcall fun paid w₁ hl ⟨pre₀, hcalled⟩ ⟨pre, rest, hh⟩ => ?_)
  have attempted : ∀ {w₂}, Later a w₁ w₂ → Idle w₂ a → Attempted w₂ a pr := fun hl₂ hi =>
    ⟨(hc.later (hl.trans hl₂)).unreserved, hi, ⟨_, pre₀, hl₂.mem hcalled⟩,
      (hc.later (hl.trans hl₂)).not_tracked⟩
  have hc := hc.later hl
  rcases paid with ⟨⟩ | fee
  · simp only [Prog.onOk_ok]
    split
    · exact hQ _ _ (attempted (.refl _) (.of_answered hh))
    rename_i h hhash
    refine wp_bind.2 (wp_confirmPayment hc.unreserved ht fun r w₂ hl₂ hi hb => ?_)
    have h₂ := attempted hl₂ hi
    have herr : ∃ limit, Heard w₂ a (.payInvoice pr limit) (.error ()) :=
      ⟨_, pre, hl₂.mem (by rw [hh]; exact List.mem_cons_self)⟩
    rcases r with _ | _ | _
    · exact hQ _ _ h₂
    · obtain ⟨pre', rest', hh'⟩ := hb false rfl
      exact wp_resolve h₂ (.inl ⟨pr, inv, ha, hc.later hl₂, herr, h, pre', rest', hhash, hh'⟩)
        (by simp) hQ
    · obtain ⟨pre', rest', hh'⟩ := hb true rfl
      refine wp_bind.2 (wp_resolve h₂ (.inl ⟨pr, inv, ha, hc.later hl₂, .inr
        ⟨h, pre', rest', hhash, hh'⟩⟩) (by simp) fun r w₃ h₃ => ?_)
      cases r with
      | error e => exact hQ _ _ h₃
      | ok _ => exact wp_resolve h₃ hnc (by simp) hQ
  · have h₁ := attempted (.refl _) (.of_answered hh)
    refine wp_bind.2 (wp_resolve h₁ (.inl ⟨pr, inv, ha, hc, .inl ⟨_, fee, pre, rest, hh⟩⟩)
      (by simp) fun r w₂ h₂ => ?_)
    cases r with
    | error e => exact hQ _ _ h₂
    | ok _ =>
      simp only [Prog.onOk_ok]
      split
      · exact wp_resolve h₂ hnc (by simp) hQ
      · exact hQ _ _ h₂

theorem lawful_meltPay {ids : List Str} {pr : Str} {inv : Invoice}
    (ha : a.task = .meltPay ids pr inv) (hf : Fresh w a.tid) :
    wp (law cfg) a (safely (meltPay cfg ids pr inv)) (fun r w => (law cfg).finished w a r) w := by
  have done : ∀ {w' : World (mint cfg)}, Recorded w' a →
      (inv.amountMsat = none ∨ inv.paymentHash = none ∨
        ∃ h i pre, Event.did a (.trackMeltEnd h) i () pre ∈ w'.hist) →
      (law cfg).finished w' a (.ok .nothing) := fun hr h =>
    ⟨hr, ⟨_, rfl⟩, by rintro _ ⟨⟩; simpa only [Rested, ha] using h⟩
  refine wp_thenE.2 (wp_bind.2 (wp_orRaise.2 ⟨fun hn => ?_, fun amountMsat _ => ?_⟩))
  · exact done (Clean.of_fresh hf).unreserved.recorded (.inl hn)
  refine wp_thenE.2 (wp_payAndResolve ha hf fun r w₁ h₁ => ?_)
  refine wp_thenE.2 (wp_bind.2 (wp_orRaise.2 ⟨fun hn => ?_, fun h hh => ?_⟩))
  · exact done h₁.unreserved.recorded (.inr (.inl hn))
  refine wp_perform.2 fun i out s hx =>
    ⟨.inl ⟨ids, pr, inv, ha, hh, h₁.idle, h₁.asked, h₁.tracked⟩, ?_⟩
  cases hx
  exact done (h₁.unreserved.record (by simp)).recorded
    (.inr (.inr ⟨h, i, w₁.st, List.mem_cons_self⟩))

/-! ## Reconciling and the periodic rounds -/

theorem lawful_reconcileAll {grouped rest : List (Str × List Str)}
    {Q : Except Exn Unit → World (mint cfg) → Prop} (ha : a.task = .reconcilePendingMelts)
    (hr : Unreserved w a) (hs : Saw w a .pendingMelts grouped) (hsub : ∀ x ∈ rest, x ∈ grouped)
    (hQ : ∀ r w', Unreserved w' a → Q r w') : wp (law cfg) a (reconcileAll rest) Q w := by
  induction rest generalizing w with
  | nil => exact hQ _ _ hr
  | cons x rest ih =>
    obtain ⟨h, ids⟩ := x
    have hmem := hsub _ List.mem_cons_self
    have hrest : ∀ x ∈ rest, x ∈ grouped := fun x hx => hsub x (List.mem_cons_of_mem _ hx)
    refine wp_bind.2 (wp_meltInFlight fun w₁ hl hst => ?_)
    have hr := hr.later hl
    have hs := hs.later hl
    simp only [Prog.onOk_ok, decide_eq_true_eq]
    split
    · exact ih hr hs hrest
    rename_i hfl
    have hcall : MayCall cfg w₁ a (.isPaymentComplete h) := fun _ =>
      ⟨by rw [hst]; exact not_not.1 hfl, grouped, ids, hs, hmem⟩
    refine wp_bind.2 (wp_bind.2 (wp_isPaymentComplete hr hcall fun r w₂ hl₂ _ hcalled hb => ?_))
    have hr := hr.later hl₂
    have hs := hs.later hl₂
    -- What was read of the pending melts outlives the resolution of one of them.
    have saw : ∀ {u : Update} {i : Input} {r : Except Exn u.Out} {w : World (mint cfg)} {s : State},
        Saw w a .pendingMelts grouped →
        Saw (w.record (.did a (.write u) i r w.st) s) a .pendingMelts grouped := by
      rintro u i r w s ⟨i', pre, he⟩
      exact ⟨i', pre, List.mem_cons_of_mem _ he⟩
    rcases r with e | _ | _
    · exact ih hr hs hrest
    · obtain ⟨pre, rest', hh⟩ := hb false rfl
      refine wp_bind.2 (wp_write (.inr ⟨ha, h, pre, rest', hh, hcalled, grouped, hs, hmem⟩)
        fun i r s _ => ?_)
      have hr := hr.wrote (i := i) (r := r) (s := { w₂.st with store := s }) (by simp)
      cases r with
      | error e => exact hQ _ _ hr
      | ok _ => exact ih hr (saw hs) hrest
    · obtain ⟨pre, rest', hh⟩ := hb true rfl
      refine wp_bind.2 (wp_write (.inr ⟨ha, h, pre, rest', hh, hcalled, grouped, hs, hmem⟩)
        fun i r s _ => ?_)
      have hr := hr.wrote (i := i) (r := r) (s := { w₂.st with store := s }) (by simp)
      cases r with
      | error e => exact hQ _ _ hr
      | ok _ =>
        refine wp_bind.2 (wp_write (show NoCallback a.task by rw [ha]; rfl) fun i' r' s' _ => ?_)
        have hr := hr.wrote (i := i') (r := r') (s := { w₂.st with store := s' }) (by simp)
        cases r' with
        | error e => exact hQ _ _ hr
        | ok _ => exact ih hr (saw (saw hs)) hrest

theorem wp_forEach {α : Type} {f : α → Mint Unit} {xs : List α}
    {Q : Except Exn Unit → World (mint cfg) → Prop}
    (hf : ∀ x w, Unreserved w a → wp (law cfg) a (f x) (fun _ w' => Unreserved w' a) w)
    (hr : Unreserved w a) (hQ : ∀ r w', Unreserved w' a → Q r w') :
    wp (law cfg) a (forEach f xs) Q w := by
  induction xs generalizing w with
  | nil => exact hQ _ _ hr
  | cons x xs ih =>
    refine wp_bind.2 (wp_mono (hf x w hr) fun r w₁ hr₁ => ?_)
    cases r with
    | error e => exact hQ _ _ hr₁
    | ok _ => exact ih hr₁

theorem wp_settlePolledMints {Q : Except Exn Unit → World (mint cfg) → Prop}
    (ht : NoCallback a.task) (hr : Unreserved w a) (hQ : ∀ r w', Unreserved w' a → Q r w') :
    wp (law cfg) a (settlePolledMints cfg) Q w := by
  refine wp_bind.2 (wp_now fun t w₁ hl _ _ => wp_bind.2 (wp_read fun i w₂ hl₂ _ _ => ?_))
  have hr := (hr.later hl).later hl₂
  refine wp_bind.2 (wp_forEach (fun h w hr => wp_bind.2 (wp_mintSettled hr ht fun r w' hl => ?_)) hr
    fun r w₃ hr => ?_)
  · cases r <;> exact hr.later hl
  cases r with
  | error e => exact hQ _ _ hr
  | ok _ =>
  refine wp_bind.2 (wp_read fun i w₄ hl₄ _ _ => ?_)
  refine wp_forEach (fun h w hr => wp_bind.2 (wp_addressFeeSettled hr ht fun r w' hl => ?_))
    (hr.later hl₄) hQ
  cases r <;> exact hr.later hl

theorem wp_publishZapReceipt {secret : Str} {zap : Str × Str × Str} (ht : NoCallback a.task)
    (hr : Unreserved w a) :
    wp (law cfg) a (publishZapReceipt cfg secret zap) (fun _ w' => Unreserved w' a) w := by
  refine wp_bind.2 (wp_ofExcept.2 ?_)
  cases d.jsonLoads zap.2.2 with
  | error e => exact hr
  | ok request =>
  refine wp_bind.2 (wp_mintPreimage hr fun r w₁ hl => ?_)
  have hr := hr.later hl
  cases r with
  | error e => exact hr
  | ok preimage =>
  refine wp_bind.2 (wp_now fun t w₂ hl₂ _ _ => ?_)
  have hr := hr.later hl₂
  refine wp_bind.2 (wp_orRaise.2 ⟨fun _ => hr, fun receipt _ => ?_⟩)
  refine wp_bind.2 (wp_orRaise.2 ⟨fun _ => hr, fun tags _ => ?_⟩)
  refine wp_bind.2 (wp_ask hr trivial fun accepted w₃ hl₃ _ _ => ?_)
  have hr := hr.later hl₃
  simp only [Prog.onOk_ok]
  split
  · exact wp_write ht fun i r s _ => hr.wrote (by simp)
  · exact hr

theorem wp_publishZapReceipts {Q : Except Exn Unit → World (mint cfg) → Prop}
    (ht : NoCallback a.task) (hr : Unreserved w a) (hQ : ∀ r w', Unreserved w' a → Q r w') :
    wp (law cfg) a (publishZapReceipts cfg) Q w := by
  refine wp_bind.2 (wp_settlePolledMints ht hr fun r w₁ hr => ?_)
  cases r with
  | error e => exact hQ _ _ hr
  | ok _ =>
  refine wp_bind.2 (wp_orRaise.2 ⟨fun _ => hQ _ _ hr, fun secret _ => ?_⟩)
  refine wp_bind.2 (wp_read fun i w₂ hl _ _ => ?_)
  exact wp_forEach (fun zap w hr => wp_publishZapReceipt ht hr) (hr.later hl) hQ

/-! ## The machine -/

/-- A periodic round answers nobody. -/
theorem lawful_safely {p : Mint Unit} (hvac : ∀ w, Rested cfg w a .nothing)
    (h : wp (law cfg) a p (fun _ w' => Unreserved w' a) w) :
    wp (law cfg) a (safely p) (fun r w => (law cfg).finished w a r) w := by
  refine wp_thenE.2 (wp_mono h fun r w₁ hr => ⟨hr.recorded, ⟨_, rfl⟩, ?_⟩)
  rintro _ ⟨⟩
  exact hvac w₁

theorem lawful_request {r : Request} (ha : a.task = .request r) (hf : Fresh w a.tid) :
    wp (law cfg) a (lnurlErrorResponse (route cfg r)) (fun r w => (law cfg).finished w a r) w := by
  have hc := Clean.of_fresh hf
  have hr := hc.unreserved
  have ht' : a.task ≠ .reconcilePendingMelts := by rw [ha]; exact Task.noConfusion
  obtain ⟨baseUrl, endpoint⟩ := r
  cases endpoint with
  | registerUsername name form =>
    exact wp_lnurlErrorResponse (fun w reason => by simp [Rested, ha])
      (serves_registerUsername ha hr)
  | updateRegisteredUsername name form =>
    exact wp_lnurlErrorResponse (fun w reason => by simp [Rested, ha])
      (serves_updateRegisteredUsername ha hr)
  | deleteRegisteredUsername name form =>
    exact wp_lnurlErrorResponse (fun w reason => by simp [Rested, ha])
      (serves_deleteRegisteredUsername ha hr)
  | getNip05 name =>
    have hu : Unaccountable cfg a := fun w resp => by simp [Rested, ha]
    exact wp_lnurlErrorResponse (fun _ _ => hu _ _) (serves_getNip05 hu hr)
  | getLnaddress name =>
    exact wp_lnurlErrorResponse (fun w reason => by simp [Rested, ha]) (serves_getLnaddress ha hr)
  | getPayCallback amount comment nostr =>
    have hu : Unaccountable cfg a := fun w resp => by simp [Rested, ha]
    exact wp_lnurlErrorResponse (fun _ _ => hu _ _)
      (serves_payCallback hu (by rw [ha]; rfl) hr (by simp))
  | getPayCallbackForUsername name amount comment nostr k1 =>
    refine wp_lnurlErrorResponse (fun w reason => ?_) (serves_getPayCallbackForUsername ha hr)
    cases k1 <;> simp [Rested, ha]
  | verifyInvoice h =>
    have hu : Unaccountable cfg a := fun w resp => by simp [Rested, ha]
    exact wp_lnurlErrorResponse (fun _ _ => hu _ _)
      (serves_verifyInvoice hu (by rw [ha]; rfl) ht' hr)
  | getWithdraw k1 p amount =>
    have hu : Unaccountable cfg a := fun w resp => by simp [Rested, ha]
    exact wp_lnurlErrorResponse (fun _ _ => hu _ _)
      (serves_getWithdraw amount hu (by rw [ha]; rfl) hr)
  | getWithdrawCallback k1 pr amount p1 p2 =>
    cases pr with
    | none => exact lawful_swapRequest ha hc
    | some pr => exact lawful_meltRequest ha hc

/-- Every task keeps the law. -/
theorem lawful_body (a : Actor mintSig) (w : World (mint cfg)) (hf : Fresh w a.tid) :
    wp (law cfg) a (body cfg a.task) (fun r w => (law cfg).finished w a r) w := by
  have hr := (Clean.of_fresh hf).unreserved
  cases ha : a.task with
  | request r => exact lawful_request ha hf
  | meltPay ids pr inv => exact lawful_meltPay ha hf
  | reconcilePendingMelts =>
    refine lawful_safely (fun w => by simp [Rested, ha])
      (wp_bind.2 (wp_read fun i w₁ hl hst hs => ?_))
    exact lawful_reconcileAll ha (hr.later hl) hs (fun _ hx => hx) fun _ _ h => h
  | settlePolledMints =>
    exact lawful_safely (fun w => by simp [Rested, ha])
      (wp_settlePolledMints (by rw [ha]; rfl) hr fun _ _ h => h)
  | publishZapReceipts =>
    exact lawful_safely (fun w => by simp [Rested, ha])
      (wp_publishZapReceipts (by rw [ha]; rfl) hr fun _ _ h => h)

/-- **Every history of the mint is lawful**, whatever arrives, in whichever order programs go on,
whatever they are answered, and wherever the process dies. -/
theorem Reach.law {s : State} {c : Config (mint cfg)} (h : Reach s c) : Run (law cfg) s c.w :=
  Reach.run h lawful_body

end LnurlMint
