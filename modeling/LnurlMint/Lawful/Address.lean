import LnurlMint.Lawful.Settle

/-!
# Minting and Lightning Addresses keep the law

One rule for each handler, in the order of `LnurlMint.Router.Address`. A handler serves its request
if it keeps the law and its answer rests on what the law says it must; errors rest on nothing here,
so a handler only has to account for the answers it gives.

## Main definitions

* `Serves` — a handler keeps the law to the end of its request

## Main results

* `wp_lnurlErrorResponse` — what it is enough to show of a handler
* `serves_registerUsername`, `serves_updateRegisteredUsername`, … — one for each handler
-/

namespace LnurlMint

open Interleave

variable {d : Deps} {cfg : Settings d} {a : Actor mintSig} {w w' : World (mint cfg)}

theorem Recorded.later (h : Recorded w a) (hl : Later a w w') : Recorded w' a := by
  obtain ⟨es, heq, hes⟩ := hl.hist
  rintro ids hash ⟨i, pre, he⟩
  rw [heq] at he
  rcases List.mem_append.1 he with he | he
  · exact absurd (hes _ he rfl) id
  · obtain ⟨pr, hp⟩ := h ids hash ⟨i, pre, he⟩
    exact ⟨pr, hp.later hl⟩

/-- What a handler owes: every reservation it made is recorded, and its answer rests on what it
must. -/
def Serves (cfg : Settings d) (a : Actor mintSig) (w : World (mint cfg)) (p : Mint Response) :
    Prop :=
  wp (law cfg) a p
    (fun r w' => Recorded w' a ∧ ∀ resp, r = .ok resp → Rested cfg w' a resp) w

/-- What an exception owes: whatever the client is told of it, the answer rests on what it must. -/
def Excusable (cfg : Settings d) (a : Actor mintSig) (w : World (mint cfg)) : Prop :=
  ∀ w', Later a w w' → w'.st = w.st → ∀ reason, Rested cfg w' a (.error reason)

theorem wp_answered {p : Mint Response}
    (h : wp (law cfg) a p (fun r w' => Recorded w' a ∧
      (∀ resp, r = .ok resp → Rested cfg w' a resp) ∧
      ((∃ e, r = .error e) → Excusable cfg a w')) w) :
    wp (law cfg) a (lnurlErrorResponse p) (fun r w => (law cfg).finished w a r) w := by
  unfold lnurlErrorResponse
  rw [Prog.tryCatch_eq, wp_thenE]
  refine wp_mono h fun r w₁ ⟨hr, hok, herr⟩ => ?_
  cases r with
  | ok resp => exact ⟨hr, ⟨resp, rfl⟩, hok⟩
  | error e =>
    have hx : Excusable cfg a w₁ := herr ⟨e, rfl⟩
    have internal : wp (law cfg) a
        (do let reason ← logInternalError "Internal error"; return Response.error reason)
        (fun r w => (law cfg).finished w a r) w₁ := by
      refine wp_bind.2 (wp_logInternalError fun detail w₂ hl hst =>
        ⟨hr.later hl, ⟨_, rfl⟩, ?_⟩)
      rintro _ ⟨⟩
      exact hx w₂ hl hst detail
    cases e with
    | http detail =>
      refine ⟨hr, ⟨_, rfl⟩, ?_⟩
      rintro _ ⟨⟩
      exact hx w₁ (.refl w₁) rfl detail
    | _ => exact internal

/-- An exception's answer rests on nothing, unless the request is one of those that have to excuse
themselves. -/
theorem wp_lnurlErrorResponse {p : Mint Response}
    (hvac : ∀ w reason, Rested cfg w a (.error reason)) (h : Serves cfg a w p) :
    wp (law cfg) a (lnurlErrorResponse p) (fun r w => (law cfg).finished w a r) w :=
  wp_answered (wp_mono h fun _ _ hs => ⟨hs.1, hs.2, fun _ w' _ _ reason => hvac w' reason⟩)

/-- An exception is no answer. -/
theorem Unreserved.raise (h : Unreserved w a) {e : Exn} :
    Recorded w a ∧ ∀ resp, (Except.error e : Except Exn Response) = .ok resp →
      Rested cfg w a resp :=
  ⟨h.recorded, by simp⟩

theorem Unreserved.answer (h : Unreserved w a) {resp : Response} (hr : Rested cfg w a resp) :
    Recorded w a ∧ ∀ resp', (Except.ok resp : Except Exn Response) = .ok resp' →
      Rested cfg w a resp' :=
  ⟨h.recorded, by rintro _ ⟨⟩; exact hr⟩

/-- A transaction other than a reservation reserves nothing. -/
theorem Unreserved.wrote {u : Update} {i : Input} {r : Except Exn u.Out} {s : State}
    (h : Unreserved w a) (hu : ∀ ids hash, u ≠ .markPending ids hash) :
    Unreserved (w.record (.did a (.write u) i r w.st) s) a :=
  h.record fun ids hash i pre he => by
    cases he
    exact hu ids hash rfl

theorem wrote_record {u : Update} {i : Input} {r : Except Exn u.Out} {s : State} :
    Wrote (w.record (.did a (.write u) i r w.st) s) a u r :=
  ⟨i, w.st, List.mem_cons_self⟩

/-! ## Registrations -/

theorem decodeCx1_length {s : Str} {share : Bytes} (h : decodeCx1 d s = some share) :
    share.length = 65 := by
  obtain ⟨data, -, h⟩ := Option.bind_eq_some_iff.1 h
  split at h
  · rename_i hd
    cases h
    exact hd.1
  · cases h

theorem wp_registeredNpub {npub : Option Str}
    {Q : Except Exn (Option Str) → World (mint cfg) → Prop} (hQ : ∀ r, Q r w) :
    wp (law cfg) a (registeredNpub cfg npub) Q w := by
  unfold registeredNpub
  split
  · exact hQ _
  · exact wp_bind.2 (wp_raiseIf.2 ⟨fun _ => hQ _, fun _ =>
      wp_bind.2 (wp_orRaise.2 ⟨fun _ => hQ _, fun _ _ => hQ _⟩)⟩)

theorem wp_paymentHashOf {pr : Str} {preimage : Option Bytes}
    {Q : Except Exn Str → World (mint cfg) → Prop}
    (hok : ∀ h, createdHash d pr preimage = some h → Q (.ok h) w)
    (herr : ∀ e w', Later a w w' → Q (.error e) w') :
    wp (law cfg) a (paymentHashOf d pr preimage) Q w := by
  unfold paymentHashOf
  split
  · exact hok _ rfl
  · unfold createdInvoicePaymentHash
    split
    · exact wp_raiseInternal fun _ _ hl _ => herr _ _ hl
    rename_i inv hdec
    split
    · exact wp_raiseInternal fun _ _ hl _ => herr _ _ hl
    · rename_i h hh
      exact hok h (by simp [createdHash, invoiceHash, hdec, hh])

theorem wp_requireFundingSource {Q : Except Exn Unit → World (mint cfg) → Prop}
    (hQ : ∀ r, Q r w) : wp (law cfg) a (requireFundingSource cfg) Q w :=
  wp_raiseIf.2 ⟨fun _ => hQ _, fun _ => hQ _⟩

theorem wp_addressFeeInvoice {username host : Str} {feeMsat : ℕ}
    {Q : Except Exn (Str × Option Bytes × ℤ) → World (mint cfg) → Prop} (hr : Unreserved w a)
    (hQ : ∀ r w', Later a w w' → (∀ pr preimage expiryTime, r = .ok (pr, preimage, expiryTime) →
      ∃ amount memo expiry,
        JustHeard w' a (.createInvoice amount memo none expiry) (.ok (pr, preimage))) → Q r w') :
    wp (law cfg) a (addressFeeInvoice (d := d) username host feeMsat) Q w := by
  refine wp_bind.2 (wp_createInvoice hr fun r w₁ hl hh => ?_)
  rcases r with e | ⟨pr, preimage⟩
  · exact hQ _ _ hl (by simp)
  simp only [Prog.onOk_ok]
  split
  · exact hQ _ _ hl (by simp)
  · refine hQ _ _ hl ?_
    rintro _ _ _ ⟨⟩
    exact ⟨_, _, _, hh _ rfl⟩

theorem wp_holdForAddressFee {baseUrl username : Str} {share : Bytes} {npub : Option Str}
    {feeMsat : ℕ} {Q : Except Exn Response → World (mint cfg) → Prop} (ht : NoCallback a.task)
    (hr : Unreserved w a) (hs : share.length = 65) (hname : registrableUsername cfg username = true)
    (hok : ∀ resp w', Unreserved w' a → (∃ h pr amountMsat expiresAt, Wrote w' a
      (.holdUsername h pr username (hex share) (hex (share.drop 33)) npub amountMsat expiresAt)
      (.ok ())) → Q (.ok resp) w')
    (herr : ∀ e w', Unreserved w' a → Q (.error e) w') :
    wp (law cfg) a (holdForAddressFee cfg baseUrl username share npub feeMsat) Q w := by
  refine wp_bind.2 (wp_read fun i w₁ hl _ _ => ?_)
  refine wp_bind.2 (wp_raiseIf.2 ⟨fun _ => herr _ _ (hr.later hl), fun _ => ?_⟩)
  refine wp_bind.2 (wp_requireFundingSource fun r => ?_)
  cases r with
  | error e => exact herr _ _ (hr.later hl)
  | ok _ =>
  refine wp_bind.2 (wp_ofExcept_cases.2
    ⟨fun _ _ => herr _ _ (hr.later hl), fun ⟨base, host⟩ _ => ?_⟩)
  refine wp_bind.2 (wp_attempt.2 (wp_addressFeeInvoice (hr.later hl) fun r w₂ hl₂ hh => ?_))
  have hr₂ := (hr.later hl).later hl₂
  rcases r with e | ⟨pr, preimage, expiryTime⟩
  · exact wp_raiseInternal fun _ _ hl _ => herr _ _ (hr₂.later hl)
  obtain ⟨amount, memo, expiry, hheard⟩ := hh _ _ _ rfl
  refine wp_bind.2 (wp_paymentHashOf (fun paymentHash hhash => ?_)
    fun e w₃ hl₃ => herr _ _ (hr₂.later hl₃))
  refine wp_bind.2 (wp_valueErrorsAnswered
    (wp_write ⟨ht, ⟨share, hs, rfl, rfl⟩, hname, amount, memo,
    expiry, preimage, hheard, hhash⟩ fun i r s' h => ?_))
  have hr₃ := hr₂.wrote (i := i) (r := r) (s := { w₂.st with store := s' }) (by simp)
  refine ⟨fun x hx => hok _ _ hr₃ ⟨paymentHash, pr, feeMsat, expiryTime, ?_⟩,
    fun _ e => herr _ _ hr₃⟩
  cases hx
  exact wrote_record

theorem serves_registerUsername {baseUrl name : Str} {form : Form}
    (ha : a.task = .request ⟨baseUrl, .registerUsername name form⟩) (hr : Unreserved w a) :
    Serves cfg a w (registerUsername cfg baseUrl name form) := by
  have ht : NoCallback a.task := by rw [ha]; rfl
  unfold Serves registerUsername
  refine wp_bind.2 (wp_raiseIf.2 ⟨fun _ => hr.raise, fun _ => ?_⟩)
  refine wp_bind.2 (wp_orRaise.2 ⟨fun _ => hr.raise, fun cx1 hc => ?_⟩)
  refine wp_bind.2 (wp_orRaise.2 ⟨fun _ => hr.raise, fun sig hsig => ?_⟩)
  refine wp_bind.2 (wp_raiseIf.2 ⟨fun _ => hr.raise, fun hname => ?_⟩)
  have hname := Bool.eq_true_of_not_eq_false hname
  refine wp_bind.2 (wp_orRaise.2 ⟨fun _ => hr.raise, fun share hs => ?_⟩)
  have hlen := decodeCx1_length hs
  refine wp_bind.2 (wp_registeredNpub fun r => ?_)
  cases r with
  | error e => exact hr.raise
  | ok npub =>
  refine wp_bind.2 (wp_domain (fun dom hdom => ?_) fun _ _ => hr.raise)
  refine wp_bind.2 (wp_raiseIf.2 ⟨fun _ => hr.raise, fun hproof => ?_⟩)
  have hproof := Bool.eq_true_of_not_eq_false hproof
  simp only [Prog.onOk_ok]
  split
  · refine wp_bind.2 (wp_valueErrorsAnswered (wp_write ⟨ht, ⟨share, hlen, rfl, rfl⟩, hname⟩
      fun i r s' _ => ?_))
    have hr' := hr.wrote (i := i) (r := r) (s := { w.st with store := s' }) (by simp)
    refine ⟨fun x hx => hr'.answer ?_, fun _ e => hr'.raise⟩
    cases hx
    simp only [Rested, ha]
    exact fun _ => ⟨cx1, share, sig, dom, hc, hs, hsig, hdom, hproof, .inl ⟨_, _, wrote_record⟩⟩
  · refine wp_holdForAddressFee ht hr hlen hname (fun resp w₁ hr₁ hw => hr₁.answer ?_)
      fun _ _ h => h.raise
    obtain ⟨h, pr, amountMsat, expiresAt, hw⟩ := hw
    simp only [Rested, ha]
    exact fun _ => ⟨cx1, share, sig, dom, hc, hs, hsig, hdom, hproof, .inr ⟨_, _, _, _, _, _, hw⟩⟩

theorem serves_updateRegisteredUsername {baseUrl name : Str} {form : Form}
    (ha : a.task = .request ⟨baseUrl, .updateRegisteredUsername name form⟩)
    (hr : Unreserved w a) : Serves cfg a w (updateRegisteredUsername cfg baseUrl name form) := by
  have ht : NoCallback a.task := by rw [ha]; rfl
  unfold Serves updateRegisteredUsername
  refine wp_bind.2 (wp_raiseIf.2 ⟨fun _ => hr.raise, fun _ => ?_⟩)
  refine wp_bind.2 (wp_orRaise.2 ⟨fun _ => hr.raise, fun cx1 hc => ?_⟩)
  refine wp_bind.2 (wp_orRaise.2 ⟨fun _ => hr.raise, fun sig hsig => ?_⟩)
  refine wp_bind.2 (wp_orRaise.2 ⟨fun _ => hr.raise, fun newsig _ => ?_⟩)
  refine wp_bind.2 (wp_read fun i w₁ hl _ _ => ?_)
  have hr := hr.later hl
  refine wp_bind.2 (wp_orRaise.2 ⟨fun _ => hr.raise, fun onFile _ => ?_⟩)
  refine wp_bind.2 (wp_orRaise.2 ⟨fun _ => hr.raise, fun share hs => ?_⟩)
  have hlen := decodeCx1_length hs
  refine wp_bind.2 (wp_ofExcept.2 ?_)
  cases shareXp onFile with
  | error e => exact hr.raise
  | ok onFileXp =>
  refine wp_bind.2 (wp_domain (fun dom hdom => ?_) fun _ _ => hr.raise)
  refine wp_bind.2 (wp_orRaise.2 ⟨fun _ => hr.raise, fun xp _ => ?_⟩)
  refine wp_bind.2 (wp_raiseIf.2 ⟨fun _ => hr.raise, fun hproof => ?_⟩)
  have hproof := Bool.eq_true_of_not_eq_false (not_or.1 hproof).1
  refine wp_bind.2 (wp_valueErrorsAnswered (wp_write ⟨ht, share, hlen, rfl, rfl⟩
    fun i r s' _ => ?_))
  have hr' := hr.wrote (i := i) (r := r) (s := { w₁.st with store := s' }) (by simp)
  refine ⟨fun x hx => hr'.answer ?_, fun _ e => hr'.raise⟩
  cases hx
  simp only [Rested, ha]
  exact fun _ => ⟨cx1, share, sig, dom, xp, _, hc, hs, hsig, hdom, hproof, wrote_record⟩

theorem serves_deleteRegisteredUsername {baseUrl name : Str} {form : Form}
    (ha : a.task = .request ⟨baseUrl, .deleteRegisteredUsername name form⟩)
    (hr : Unreserved w a) : Serves cfg a w (deleteRegisteredUsername cfg baseUrl name form) := by
  unfold Serves deleteRegisteredUsername
  refine wp_bind.2 (wp_raiseIf.2 ⟨fun _ => hr.raise, fun _ => ?_⟩)
  refine wp_bind.2 (wp_orRaise.2 ⟨fun _ => hr.raise, fun sig hsig => ?_⟩)
  refine wp_bind.2 (wp_read fun i w₁ hl hst _ => ?_)
  have hr := hr.later hl
  refine wp_bind.2 (wp_orRaise.2 ⟨fun _ => hr.raise, fun onFile hf => ?_⟩)
  refine wp_bind.2 (wp_ofExcept.2 ?_)
  cases hx : shareXp onFile with
  | error e => exact hr.raise
  | ok onFileXp =>
  refine wp_bind.2 (wp_orRaise.2 ⟨fun _ => hr.raise, fun xp hxp => ?_⟩)
  subst hxp
  refine wp_bind.2 (wp_domain (fun dom hdom => ?_) fun _ _ => hr.raise)
  refine wp_bind.2 (wp_raiseIf.2 ⟨fun _ => hr.raise, fun hp => ?_⟩)
  obtain ⟨row, hrow, rfl⟩ : ∃ row, w₁.st.store.usernames.find? (d.lower name) = some row ∧
      row.cx1 = onFile := by
    rw [hst]
    exact Option.map_eq_some_iff.1 hf
  have hu : MayWrite cfg w₁ a (.deleteUsername (d.lower name)) :=
    ⟨baseUrl, name, form, sig, row, xp, dom, ha, rfl, hsig, hrow, hx, hdom, by simpa using hp⟩
  refine wp_bind.2 (wp_write hu fun i r s' h => ?_)
  have hr' := hr.wrote (i := i) (r := r) (s := { w₁.st with store := s' }) (by simp)
  cases r with
  | error e => exact hr'.raise
  | ok _ =>
    refine hr'.answer ?_
    simp only [Rested, ha]
    exact fun _ => wrote_record

/-! ## The payRequest -/

theorem wp_registeredUsernameBranch {username : Str}
    {Q : Except Exn (Option Str) → World (mint cfg) → Prop}
    (hQ : ∀ branch w', Later a w w' →
      (∀ share, branch = some share →
        Saw w' a (.usernameBranch (d.lower username)) (some share)) → Q (.ok branch) w') :
    wp (law cfg) a (registeredUsernameBranch cfg username) Q w := by
  unfold registeredUsernameBranch
  split
  · exact wp_read fun i w₁ hl _ hs => hQ _ _ hl fun share hb => hb ▸ hs
  · exact hQ _ _ (.refl w) (by simp)

theorem wp_heldAndPaid {username : Str} {Q : Except Exn Bool → World (mint cfg) → Prop}
    (hr : Unreserved w a) (ht : NoCallback a.task) (hQ : ∀ r w', Later a w w' → Q r w') :
    wp (law cfg) a (heldAndPaid cfg username) Q w := by
  unfold heldAndPaid
  split
  · refine wp_bind.2 (wp_read fun i w₁ hl _ _ => ?_)
    simp only [Prog.onOk_ok]
    split
    · exact hQ _ _ hl
    refine wp_bind.2 (wp_addressFeeSettled (hr.later hl) ht fun r w₂ hl₂ => ?_)
    have hl₂ := hl.trans hl₂
    cases r with
    | error e => exact hQ _ _ hl₂
    | ok settled =>
      cases settled with
      | false => exact hQ _ _ hl₂
      | true =>
        exact wp_bind.2 (wp_registeredUsernameBranch fun _ _ hl₃ _ => hQ _ _ (hl₂.trans hl₃))
  · exact hQ _ _ (.refl w)

theorem wp_answersFor {username : Str} {Q : Except Exn Bool → World (mint cfg) → Prop}
    (hr : Unreserved w a) (ht : NoCallback a.task) (hQ : ∀ r w', Later a w w' → Q r w') :
    wp (law cfg) a (answersFor cfg username) Q w := by
  unfold answersFor
  split
  · exact hQ _ _ (.refl w)
  refine wp_bind.2 (wp_registeredUsernameBranch fun branch w₁ hl _ => ?_)
  simp only [Prog.onOk_ok]
  split
  · exact hQ _ _ hl
  · exact wp_heldAndPaid (hr.later hl) ht fun r w₂ hl₂ => hQ _ _ (hl.trans hl₂)

/-- A request whose answer rests on nothing in particular. -/
def Unaccountable (cfg : Settings d) (a : Actor mintSig) : Prop :=
  ∀ (w : World (mint cfg)) resp, Rested cfg w a resp

theorem serves_getNip05 {name : Option Str} (hu : Unaccountable cfg a) (hr : Unreserved w a) :
    Serves cfg a w (getNip05 cfg name) := by
  unfold Serves getNip05
  refine wp_bind.2 (wp_raiseIf.2 ⟨fun _ => hr.raise, fun _ => ?_⟩)
  simp only [Prog.onOk_ok]
  split
  · exact hr.answer (hu _ _)
  split
  · exact wp_bind.2 (wp_read fun i w₁ hl _ _ => (hr.later hl).answer (hu _ _))
  · exact hr.answer (hu _ _)

theorem serves_getLnaddress {baseUrl name : Str}
    (ha : a.task = .request ⟨baseUrl, .getLnaddress name⟩) (hr : Unreserved w a) :
    Serves cfg a w (getLnaddress cfg baseUrl name) := by
  have ht : NoCallback a.task := by rw [ha]; rfl
  unfold Serves getLnaddress
  refine wp_bind.2 (wp_answersFor hr ht fun r w₁ hl => ?_)
  have hr := hr.later hl
  cases r with
  | error e => exact hr.raise
  | ok registered =>
  refine wp_bind.2 (wp_raiseIf.2 ⟨fun _ => hr.raise, fun _ => ?_⟩)
  refine wp_bind.2 (wp_ofExcept_cases.2 ⟨fun _ _ => hr.raise, fun ⟨base, host⟩ hbase => ?_⟩)
  refine wp_bind.2 (wp_orRaise.2 ⟨fun _ => hr.raise, fun minSendable _ => hr.answer ?_⟩)
  simp only [Rested, ha]
  rintro callback _ _ _ _ _ _ ⟨⟩
  refine ⟨base, (Settings.publicBaseUrlAndHost_eq_ok.1 hbase).1, ?_⟩
  split <;> simp

/-- What the checks of an invoice's zap let pass was validated. -/
theorem wp_checkZap {amount : ℤ} {nostr username : Option Str}
    {Q : Except Exn Unit → World (mint cfg) → Prop}
    (hok : (∀ z, nostr = some z → ∃ event, Nostr.validateZapRequest d z amount = .ok (.ok event)) →
      Q (.ok ()) w) (herr : ∀ e, Q (.error e) w) :
    wp (law cfg) a (checkZap cfg amount nostr username) Q w := by
  unfold checkZap
  split
  · exact hok (by simp)
  · rename_i request
    refine wp_bind.2 (wp_raiseIf.2 ⟨fun _ => herr _, fun _ => ?_⟩)
    simp only [Prog.onOk_ok]
    refine wp_bind.2 (wp_ofExcept.2 ?_)
    cases hv : Nostr.validateZapRequest d request amount with
    | error e => exact herr e
    | ok checked =>
      cases checked with
      | error problem => exact herr _
      | ok event =>
        refine hok ?_
        rintro _ ⟨⟩
        exact ⟨event, hv⟩

theorem wp_mintedNote {comment username : Option Str}
    {Q : Except Exn (Option Str) → World (mint cfg) → Prop} (hQ : ∀ r, Q r w) :
    wp (law cfg) a (mintedNote (d := d) comment username) Q w := by
  unfold mintedNote
  split
  · exact hQ _
  · exact wp_bind.2 (wp_orRaise.2 ⟨fun _ => hQ _, fun _ _ => hQ _⟩)

theorem serves_payCallback {baseUrl : Str} {amount : ℤ} {comment nostr username : Option Str}
    (hu : Unaccountable cfg a) (ht : NoCallback a.task) (hr : Unreserved w a)
    (ha : ∀ u, username = some u → a.task.invoices d = some u ∧
      ∃ branch, Saw w a (.usernameBranch (d.lower u)) (some branch)) :
    Serves cfg a w (payCallback cfg baseUrl amount comment nostr username) := by
  unfold Serves payCallback
  refine wp_bind.2 (wp_raiseIf.2 ⟨fun _ => hr.raise, fun hsunset => ?_⟩)
  refine wp_bind.2 (wp_bind.2 (wp_raiseIf.2 ⟨fun _ => hr.raise, fun hmin => ?_⟩))
  refine wp_bind.2 (wp_raiseIf.2 ⟨fun _ => hr.raise, fun _ => ?_⟩)
  refine wp_raiseIf.2 ⟨fun _ => hr.raise, fun hnet => ?_⟩
  refine wp_bind.2 (wp_checkZap (fun hzap => ?_) fun _ => hr.raise)
  refine wp_bind.2 (wp_mintedNote fun r => ?_)
  cases r with
  | error e => exact hr.raise
  | ok noteId =>
  refine wp_bind.2 (wp_requireFundingSource fun r => ?_)
  cases r with
  | error e => exact hr.raise
  | ok _ =>
  refine wp_bind.2 (wp_attempt.2 (wp_createInvoice hr fun r w₁ hl hh => ?_))
  have hr₁ := hr.later hl
  rcases r with e | ⟨pr, preimage⟩
  · exact wp_raiseInternal fun _ _ hl _ => (hr₁.later hl).raise
  refine wp_bind.2 (wp_paymentHashOf (fun paymentHash hhash => ?_)
    fun e w₂ hl₂ => (hr₁.later hl₂).raise)
  have hw : MayWrite cfg w₁ a (.createMint paymentHash pr (amount - mintFeeMsat cfg amount) noteId
      nostr username) := by
    refine ⟨ht, by simpa using hsunset,
      ⟨amount, preimage, hh _ rfl, hhash, not_lt.1 hmin, rfl, not_lt.1 hnet, hzap⟩, fun u hu => ?_⟩
    obtain ⟨ht, branch, hs⟩ := ha u hu
    exact ⟨ht, branch, hs.later hl⟩
  refine wp_bind.2 (wp_valueErrorsAnswered (wp_write hw fun i r s' _ => ?_))
  have hr₂ := hr₁.wrote (i := i) (r := r) (s := { w₁.st with store := s' }) (by simp)
  refine ⟨fun x _ => wp_bind.2 (wp_ofExcept_cases.2 ⟨fun _ _ => hr₂.raise, fun _ _ => ?_⟩),
    fun _ e => hr₂.raise⟩
  exact hr₂.answer (hu _ _)

theorem serves_internalTransfer {baseUrl name k1 : Str} {amount : ℤ} {comment nostr : Option Str}
    (ha : a.task =
      .request ⟨baseUrl, .getPayCallbackForUsername name amount comment nostr (some k1)⟩)
    (hr : Unreserved w a) :
    Serves cfg a w (internalTransfer cfg (addressName d name) amount k1) := by
  have ht : ∀ k1s, a.task.spends = some k1s → k1 ∈ k1s := by
    rw [ha]
    rintro _ ⟨⟩
    exact List.mem_cons_self
  unfold Serves internalTransfer
  refine wp_bind.2 (wp_orRaise.2 ⟨fun _ => hr.raise, fun minSendable _ => ?_⟩)
  refine wp_bind.2 (wp_raiseIf.2 ⟨fun _ => hr.raise, fun _ => ?_⟩)
  refine wp_bind.2 (wp_rejectionsAnswered (wp_verifiedNote hr ht
    (fun v w₁ hl hid hf => ⟨fun x hx => ?_, by simp⟩)
    fun e w₁ hl _ => ⟨by simp, fun _ _ => (hr.later hl).raise⟩))
  cases hx
  refine wp_bind.2 (wp_read fun i w₂ hl₂ hst₂ _ => ?_)
  refine wp_bind.2 (wp_read fun i w₃ hl₃ hst₃ _ => ?_)
  have hl := (hl.trans hl₂).trans hl₃
  have hr := hr.later hl
  have hf : OnFile w₃.st.store v := by rw [hst₃, hst₂]; exact hf
  have rested : ∀ {w'}, Transferred cfg w' a (addressName d name) amount v.noteId →
      Rested cfg w' a .transferred := by
    intro w' h
    simp only [Rested, ha]
    exact fun _ => ⟨v.noteId, hid, h⟩
  simp only [Prog.onOk_ok]
  split
  · rename_i hrep
    refine hr.answer (rested (.inr ?_))
    -- the burn and its recipient were read off one and the same row
    obtain ⟨hburn, hrec⟩ := hrep
    rw [← hst₂] at hburn
    rw [← hst₃] at hburn hrec
    obtain ⟨_, hfind, hamt⟩ := (Option.any_eq_true _ _).1 hburn
    obtain ⟨b, hb, rfl⟩ := Option.map_eq_some_iff.1 hfind
    obtain ⟨b', hb', hto⟩ := Option.bind_eq_some_iff.1 hrec
    cases hb.symm.trans hb'
    exact ⟨b, Relational.Table.mem_of_find? hb, Relational.Table.key_of_find? hb, hto,
      by simpa using hamt⟩
  refine wp_bind.2 (wp_raiseIf.2 ⟨fun _ => hr.raise, fun _ => ?_⟩)
  refine wp_bind.2 (wp_raiseIf.2 ⟨fun _ => hr.raise, fun _ => ?_⟩)
  refine wp_bind.2 (wp_raiseIf.2 ⟨fun _ => hr.raise, fun hamt => ?_⟩)
  have hw : MayWrite cfg w₃ a
      (.transferToUsername [v.noteId] (addressName d name) amount (shareNoteId d)) := by
    obtain ⟨n, hn, hval, -⟩ := hf
    exact ⟨baseUrl, name, comment, nostr, k1, v.noteId, ha, hid, rfl, rfl, rfl,
      by simp [NoteStore.worth, hn, hval, not_not.1 hamt]⟩
  refine wp_bind.2 (wp_attempt.2 (wp_write hw fun i r s' _ => ?_))
  have hr' := hr.wrote (i := i) (r := r) (s := { w₃.st with store := s' }) (by simp)
  rcases r with e | credited
  · cases e <;> exact hr'.raise
  · exact hr'.answer (rested (.inl ⟨_, credited, wrote_record⟩))

theorem serves_getPayCallbackForUsername {baseUrl name : Str} {amount : ℤ}
    {comment nostr k1 : Option Str}
    (ha : a.task =
      .request ⟨baseUrl, .getPayCallbackForUsername name amount comment nostr k1⟩)
    (hr : Unreserved w a) :
    Serves cfg a w (getPayCallbackForUsername cfg baseUrl name amount comment nostr k1) := by
  unfold Serves getPayCallbackForUsername
  refine wp_bind.2 (wp_registeredUsernameBranch fun branch w₁ hl hs => ?_)
  have hr := hr.later hl
  refine wp_bind.2 (wp_raiseIf.2 ⟨fun _ => hr.raise, fun hb => ?_⟩)
  simp only [Prog.onOk_ok]
  cases k1 with
  | some k1 => exact serves_internalTransfer ha hr
  | none =>
    have hu : Unaccountable cfg a := fun w resp => by simp [Rested, ha]
    refine wp_bind.2 (wp_orRaise.2 ⟨fun _ => hr.raise, fun _ _ => ?_⟩)
    refine serves_payCallback hu (by rw [ha]; rfl) hr fun u he => ?_
    cases he
    obtain ⟨share, rfl⟩ := Option.ne_none_iff_exists'.1 (not_or.1 hb).1
    exact ⟨by rw [ha]; rfl, share, hs share rfl⟩

/-! ## Settlement status -/

theorem serves_verifyResponse {pr : Str} {isSettled : Mint Bool} {preimageOf : Mint (Option Str)}
    (hu : Unaccountable cfg a) (hr : Unreserved w a)
    (hs : ∀ {Q : Except Exn Bool → World (mint cfg) → Prop},
      (∀ r w', Later a w w' → Q r w') → wp (law cfg) a isSettled Q w)
    (hp : ∀ {w} {Q : Except Exn (Option Str) → World (mint cfg) → Prop}, Unreserved w a →
      (∀ r w', Later a w w' → Q r w') → wp (law cfg) a preimageOf Q w) :
    Serves cfg a w (verifyResponse pr isSettled preimageOf) := by
  unfold Serves verifyResponse
  refine wp_bind.2 (hs fun r w₁ hl => ?_)
  have hr := hr.later hl
  cases r with
  | error e => exact hr.raise
  | ok settled =>
    cases settled with
    | false => exact hr.answer (hu _ _)
    | true =>
      refine wp_bind.2 (hp hr fun r w₂ hl₂ => ?_)
      cases r with
      | error e => exact (hr.later hl₂).raise
      | ok preimage => exact (hr.later hl₂).answer (hu _ _)

theorem serves_verifyInvoice {h : Str} (hu : Unaccountable cfg a) (ht : NoCallback a.task)
    (ht' : a.task ≠ .reconcilePendingMelts) (hr : Unreserved w a) :
    Serves cfg a w (verifyInvoice cfg h) := by
  unfold Serves verifyInvoice
  refine wp_bind.2 (wp_raiseIf.2 ⟨fun _ => hr.raise, fun _ => ?_⟩)
  refine wp_bind.2 (wp_read fun i w₁ hl _ _ => ?_)
  have hr := hr.later hl
  simp only [Prog.onOk_ok]
  split
  · refine wp_bind.2 (wp_read fun i w₂ hl₂ _ _ => ?_)
    have hr := hr.later hl₂
    refine wp_bind.2 (wp_raiseIf.2 ⟨fun _ => hr.raise, fun _ => ?_⟩)
    exact serves_verifyResponse hu hr (wp_mintSettled hr ht) wp_mintPreimage
  refine wp_bind.2 (wp_read fun i w₂ hl₂ _ _ => ?_)
  have hr := hr.later hl₂
  simp only [Prog.onOk_ok]
  split
  · exact serves_verifyResponse hu hr (wp_addressFeeSettled hr ht) wp_mintPreimage
  refine wp_bind.2 (wp_read fun i w₃ hl₃ _ _ => ?_)
  have hr := hr.later hl₃
  simp only [Prog.onOk_ok]
  split
  · exact serves_verifyResponse hu hr (wp_meltSettled hr ht') wp_meltPreimage
  · exact hr.raise

end LnurlMint
