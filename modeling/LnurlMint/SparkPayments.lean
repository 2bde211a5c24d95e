import LnurlMint.Spark
import LnurlMint.Lib.Conduct
import LnurlMint.Lib.Sequence

/-!
# What a spark wallet is asked to pay

The SDK keeps no record of a payment before the other side has accepted it, so that a payment is
not on record does not show that it was never sent. What does is that this process turned it away
first: the invoice was no whole number of sats, the quote failed or was over the limit, or the
wallet had not enough leaves to begin with. These are remembered by payment hash, and only where a
hash is remembered, or the SDK has rows for it that all failed, is a payment said not to be made.

Whether the memory can be trusted is a question about the one program that writes to it. It may
send once, for a quote it was given for this invoice and that is within the limit, and it may
remember the hash only if it has not sent, or what it sent was refused for want of leaves; and once
it has remembered a hash it sends nothing.

## Main definitions

* `sentAnswers`, `listed` — what a program was told
* `Quoted`, `Told`, `sparkRule` — what a program may send, remember and answer

## Main results

* `body_sparkRule` — every task's program keeps the rule
* `spark_sends_as_quoted`
-/

namespace LnurlMint

open Interleave

namespace Spark

/-! ## What a program was told -/

/-- Whether a call sends a payment. -/
def sends : SparkCall → Bool
  | .sendPayment .. => true
  | _ => false

/-- Whether a call lists payments. -/
def lists : SparkCall → Bool
  | .listPayments .. => true
  | _ => false

/-- The hash that an operation remembers. -/
def marked : SparkOp → Option Str
  | .markPrepareRejected h => some h
  | _ => none

/-- The answer to a payment that was sent. -/
def sentAnswer : Act sparkSig → Option (Except SdkExn SdkPayment)
  | .heard (.sendPayment ..) ans => some ans
  | _ => none

/-- The payments for this hash on a page of outgoing payments. -/
def listedPage (paymentHash : Str) : Act sparkSig → List SdkPayment
  | .heard (.listPayments _ .send _ _) (.ok page) => page.filter (names paymentHash)
  | _ => []

/-- The answers to the payments that were sent. -/
def sentAnswers (t : List (Act sparkSig)) : List (Except SdkExn SdkPayment) :=
  t.filterMap sentAnswer

/-- The outgoing payments for this hash that were listed. -/
def listed (paymentHash : Str) (t : List (Act sparkSig)) : List SdkPayment :=
  t.flatMap (listedPage paymentHash)

/-- What neither sends nor remembers. -/
def quiet : Scope sparkSig where
  op o := marked o = none
  call c := sends c = false
  task _ := False

/-- What does not list payments either. -/
def setup : Scope sparkSig where
  op o := marked o = none
  call c := sends c = false ∧ lists c = false
  task _ := False

theorem setup_le_quiet : setup ≤ quiet := ⟨fun _ => id, fun _ h => h.1, fun _ => id⟩

variable {t since : List (Act sparkSig)} {paymentHash : Str}

theorem sentAnswers_of_quiet (h : ∀ x ∈ t, quiet.covers x) : sentAnswers t = [] := by
  refine List.filterMap_eq_nil_iff.2 fun x hx => ?_
  have hq := h x hx
  cases x with
  | heard c ans =>
    cases c with
    | sendPayment => cases hq
    | _ => rfl
  | _ => rfl

theorem listed_append (t t' : List (Act sparkSig)) :
    listed paymentHash (t ++ t') = listed paymentHash t ++ listed paymentHash t' :=
  List.flatMap_append

theorem listed_of_setup (h : ∀ x ∈ since, setup.covers x) :
    listed paymentHash (since ++ t) = listed paymentHash t := by
  have hnone : listed paymentHash since = [] := List.flatMap_eq_nil_iff.2 fun x hx => ?_
  · rw [listed_append, hnone, List.nil_append]
  have hq := h x hx
  cases x with
  | heard c ans =>
    cases c with
    | listPayments => cases hq.2
    | _ => rfl
  | _ => rfl

section Rules

variable (d : Deps) (sd : SparkDeps)

/-- The payment was refused before anything left the wallet. -/
def refused : Except SdkExn SdkPayment → Bool
  | .error (.sdkError insufficientFunds text) =>
    isPreTransferInsufficientFunds d insufficientFunds text
  | _ => false

/-- After these acts, and as the first of its kind, a payment may be sent for this invoice: the
invoice is for whole sats, this is what was prepared for it, and the quote is within the limit. -/
structure Quoted (t : List (Act sparkSig)) (invoice : Str) (feeLimitMsat : ℤ) (sdk : ℕ)
    (prepared : SdkPrepared) (preferSpark : Bool) (idempotencyKey : Option Str) : Prop where
  aligned : ∃ decoded amountMsat, d.decodeInvoice invoice = .ok decoded ∧
    decoded.amountMsat = some amountMsat ∧ amountMsat % 1000 = 0
  quote : .heard (.prepareSendPayment sdk invoice) (.ok prepared) ∈ t
  within : ∃ feeSats, prepared.paymentMethod = .bolt11Invoice feeSats ∧
    ((feeSats.getD 0 : ℕ) : ℤ) * 1000 ≤ feeLimitMsat
  lightning : preferSpark = false
  key : idempotencyKey = meltIdempotencyKey d sd invoice
  first : ∀ x ∈ t, quiet.covers x

/-- What these acts show of the payment. -/
structure Told (t : List (Act sparkSig)) (paymentHash : Str) (paid : Bool) : Prop where
  completed : paid = true → ∃ p ∈ listed paymentHash t, p.status = .completed
  failed : paid = false → ∀ p ∈ listed paymentHash t, p.status = .failed
  unsent : paid = false → listed paymentHash t = [] →
    .did (.prepareRejected paymentHash) true ∈ t

/-- What a task may do. -/
def sparkRule : SparkTask → Rule sparkSig SparkRes
  | .payInvoice invoice feeLimitMsat => {
      op t o := ∀ h, marked o = some h →
        invoiceHash d invoice = some h ∧ ∀ ans ∈ sentAnswers t, refused d ans = true
      call t c := ∀ sdk prepared preferSpark timeout key,
        c = .sendPayment sdk prepared preferSpark timeout key →
          Quoted d sd t invoice feeLimitMsat sdk prepared preferSpark key
      task _ _ := False
      value t r := ∃ preimage feeMsat payment, r = .paid preimage feeMsat ∧
        .ok payment ∈ sentAnswers t ∧ paymentOutcome d invoice payment = .ok (preimage, feeMsat) }
  | .isPaymentComplete paymentHash => {
      op _ o := quiet.op o
      call _ c := quiet.call c
      task _ _ := False
      value t r := ∃ paid, r = .answer paid ∧ Told t paymentHash paid }
  | _ => {
      op _ o := quiet.op o
      call _ c := quiet.call c
      task _ _ := False
      value _ r := ∀ preimage feeMsat, r ≠ .paid preimage feeMsat }

variable {d sd} {cfg : SparkSettings} {pages : ℕ} {task : SparkTask} {α : Type}

theorem sparkRule_allows : (sparkRule d sd task).Allows quiet := by
  cases task with
  | payInvoice invoice feeLimitMsat =>
    refine ⟨fun t o ho h hh => ?_, ?_, fun _ _ => id⟩
    · rw [show marked o = none from ho] at hh
      cases hh
    · rintro t c hc sdk prepared preferSpark timeout key rfl
      cases hc
  | _ => exact ⟨fun _ _ => id, fun _ _ => id, fun _ _ => id⟩

theorem allows_setup : (sparkRule d sd task).Allows setup where
  op t o ho := sparkRule_allows.op t o ho
  call t c hc := sparkRule_allows.call t c hc.1
  task t s hs := sparkRule_allows.task t s hs

/-! ## What every function does first -/

theorem returned_within {F : Scope sparkSig} (ans : Except SdkExn α) :
    (returned ans).Within F fun _ => True :=
  (Prog.Within.ofExcept _).weaken fun _ _ => trivial

theorem call_within {c : SparkCall} (hc : setup.call c) {f : c.Ans → SparkProg α}
    (hf : ∀ ans, (f ans).Within setup fun _ => True) : (ask c >>= f).Within setup fun _ => True :=
  .bind (.ask hc) fun ans _ => hf ans

theorem buildSdk_within : (buildSdk cfg).Within setup fun _ => True := by
  refine .bind (.raiseIf _ _) fun _ _ => .bind (.orRaise _ _) fun _ _ => ?_
  refine .bind (.orRaise _ _) fun _ _ => call_within ⟨rfl, rfl⟩ fun _ => ?_
  refine .bind (returned_within _) fun _ _ => ?_
  have hbuild : ∀ {config : SdkConfig},
      (ask (.build config) >>= fun ans => returned ans).Within setup fun _ => True :=
    call_within ⟨rfl, rfl⟩ fun _ => returned_within _
  split
  · refine call_within ⟨rfl, rfl⟩ fun _ => .bind (returned_within _) fun _ _ => hbuild
  · exact hbuild

theorem sdk_within : (sdk cfg).Within setup fun _ => True := by
  refine .bind (.perform rfl) fun singleton _ => ?_
  cases singleton with
  | some sdk => exact .pure trivial
  | none =>
    refine .bind (.ask ⟨rfl, rfl⟩) fun _ _ => .bind (.perform rfl) fun _ _ => ?_
    refine .bind (P := fun _ => True) (.andFinally ?_ (.perform rfl)) fun _ _ => ?_
    · refine .bind (.perform rfl) fun singleton _ => ?_
      cases singleton with
      | some sdk => exact .pure trivial
      | none => exact .bind buildSdk_within fun _ _ => .perform rfl
    · exact .bind (.perform rfl) fun _ _ => (Prog.Within.orRaise _ _).weaken fun _ _ => trivial

theorem remoteProbe_within (sdk : ℕ) : (remoteProbe sdk).Within setup fun _ => True :=
  call_within ⟨rfl, rfl⟩ fun _ => .bind (returned_within _) fun _ _ =>
    call_within ⟨rfl, rfl⟩ fun _ => .bind (returned_within _) fun _ _ => .pure trivial

theorem paymentsByHash_within (sdk : ℕ) (paymentHash : Str) (paymentType : PaymentType)
    (pages offset : ℕ) (rows : List SdkPayment) :
    (paymentsByHash sdk paymentHash paymentType pages offset rows).Within quiet
      fun _ => True := by
  induction pages generalizing offset rows with
  | zero => exact .bind (.perform rfl) fun never _ => never.elim
  | succ pages ih =>
    refine .bind (.ask rfl) fun _ _ => .bind (returned_within _) fun _ _ => ?_
    dsimp only
    split
    · exact .pure trivial
    · exact ih _ _

/-- What is in the scope keeps every rule, and says what was done. -/
theorem keeps_setup {p : SparkProg α} (h : p.Within setup fun _ => True) :
    p.Keeps (sparkRule d sd task)
      (fun _ t' => ∃ since, t' = since ++ t ∧ ∀ x ∈ since, setup.covers x) t :=
  (Prog.Keeps.of_within_acts allows_setup h).mono fun _ _ _ hx => hx.2

theorem keeps_quiet {p : SparkProg α} (h : p.Within quiet fun _ => True) :
    p.Keeps (sparkRule d sd task) (fun _ _ => True) t :=
  (Prog.Keeps.of_within sparkRule_allows h).mono fun _ _ _ _ => trivial

/-! ## Paying -/

theorem markInvoiceRejected_keeps {invoice : Str} {feeLimitMsat : ℤ}
    (h : ∀ ans ∈ sentAnswers t, refused d ans = true) :
    (markInvoiceRejected d invoice).Keeps (sparkRule d sd (.payInvoice invoice feeLimitMsat))
      (fun _ _ => True) t := by
  rw [markInvoiceRejected]
  cases hash : invoiceHash d invoice with
  | none => exact .pure trivial
  | some h' =>
    refine (Prog.Keeps.perform ?_).mono fun _ _ _ _ => trivial
    rintro h'' ⟨⟩
    exact ⟨hash, h⟩

theorem covers_of_setup (h : ∀ x ∈ t, setup.covers x) : ∀ x ∈ t, quiet.covers x := by
  intro x hx
  have hs := h x hx
  cases x with
  | did | spawned => exact hs
  | heard => exact hs.1

/-- What a payment for a quote shows, where it returns. -/
def Outcome (d : Deps) (invoice : Str) (r : Bytes × ℤ) (t : List (Act sparkSig)) : Prop :=
  ∃ payment, .ok payment ∈ sentAnswers t ∧ paymentOutcome d invoice payment = .ok r

theorem sendPrepared_keeps {invoice : Str} {feeLimitMsat : ℤ} {sdk : ℕ} {prepared : SdkPrepared}
    (haligned : ∃ decoded amountMsat, d.decodeInvoice invoice = .ok decoded ∧
      decoded.amountMsat = some amountMsat ∧ amountMsat % 1000 = 0)
    (hquote : .heard (.prepareSendPayment sdk invoice) (.ok prepared) ∈ t)
    (hfirst : ∀ x ∈ t, quiet.covers x) :
    (sendPrepared d sd invoice feeLimitMsat sdk prepared).Keeps
      (sparkRule d sd (.payInvoice invoice feeLimitMsat)) (Outcome d invoice) t := by
  have hunsent := sentAnswers_of_quiet hfirst
  rw [sendPrepared]
  cases hmethod : prepared.paymentMethod with
  | other repr => trivial
  | bolt11Invoice lightningFeeSats =>
    show Prog.Keeps _ _ t (if _ then _ else _)
    split
    · refine .bind (markInvoiceRejected_keeps ?_) fun _ _ _ _ => trivial
      rw [hunsent]
      simp
    · next hfee =>
      refine .bind (.ask ?_) fun sent t' _ ht' => ?_
      · rintro _ _ _ _ _ ⟨⟩
        exact ⟨haligned, hquote, ⟨_, hmethod, not_lt.1 hfee⟩, rfl, rfl, hfirst⟩
      · subst ht'
        have hsent : sentAnswers (.heard (.sendPayment sdk prepared false
            sendCompletionTimeoutSecs (meltIdempotencyKey d sd invoice)) sent :: t) = [sent] := by
          rw [sentAnswers, List.filterMap_cons]
          exact congrArg (sent :: ·) hunsent
        cases sent with
        | ok payment =>
          cases houtcome : paymentOutcome d invoice payment with
          | error e =>
            simp only [houtcome]
            trivial
          | ok r =>
            simp only [houtcome]
            exact ⟨payment, by rw [hsent]; exact List.mem_cons_self, houtcome⟩
        | error e =>
          cases e with
          | other => trivial
          | sdkError insufficientFunds text =>
            dsimp only
            split
            · next hrefused =>
              refine .bind (markInvoiceRejected_keeps ?_) fun _ _ _ _ => trivial
              rw [hsent]
              rintro ans hans
              rw [List.mem_singleton.1 hans]
              exact hrefused
            · trivial

theorem payInvoiceSpark_keeps (invoice : Str) (feeLimitMsat : ℤ) :
    (payInvoiceSpark d sd cfg invoice feeLimitMsat).Keeps
      (sparkRule d sd (.payInvoice invoice feeLimitMsat)) (Outcome d invoice) [] := by
  rw [payInvoiceSpark]
  cases hdecoded : d.decodeInvoice invoice with
  | error e => trivial
  | ok decoded =>
    show Prog.Keeps _ _ _ (if _ then _ else _)
    split
    · exact .bind (markInvoiceRejected_keeps (by simp [sentAnswers])) fun _ _ _ _ => trivial
    · next hamount =>
      have haligned : ∃ decoded amountMsat, d.decodeInvoice invoice = .ok decoded ∧
          decoded.amountMsat = some amountMsat ∧ amountMsat % 1000 = 0 := by
        cases ha : decoded.amountMsat with
        | none => simp [ha] at hamount
        | some amountMsat =>
          exact ⟨decoded, amountMsat, hdecoded, ha, by simpa [ha] using hamount⟩
      refine .bind (keeps_setup sdk_within) fun sdk t₁ _ hsetup => ?_
      obtain ⟨since, rfl, hsince⟩ := hsetup
      refine .bind (.ask fun _ _ _ _ _ h => by cases h) fun prepared t₂ _ ht₂ => ?_
      have hquiet : ∀ x ∈ t₂, quiet.covers x := by
        intro x hx
        rw [ht₂, List.append_nil] at hx
        rcases List.mem_cons.1 hx with rfl | hx
        exacts [rfl, covers_of_setup hsince x hx]
      cases prepared with
      | ok prepared =>
        exact sendPrepared_keeps haligned (by rw [ht₂]; exact List.mem_cons_self) hquiet
      | error e =>
        cases e with
        | other => trivial
        | sdkError insufficientFunds text =>
          refine .bind (markInvoiceRejected_keeps ?_) fun _ _ _ _ => trivial
          rw [sentAnswers_of_quiet hquiet]
          simp

/-! ## What became of a payment -/

/-- A scan returns what it had, and what is listed to it. The induction is on the pages. -/
theorem paymentsByHash_keeps (sdk : ℕ) (pages offset : ℕ) (rows : List SdkPayment) :
    (paymentsByHash sdk paymentHash .send pages offset rows).Keeps (sparkRule d sd task)
      (fun rows' t' => ∃ since, t' = since ++ t ∧
        ∀ p, p ∈ rows' ↔ p ∈ rows ∨ p ∈ listed paymentHash since) t := by
  induction pages generalizing offset rows t with
  | zero => exact .bind (.perform (sparkRule_allows.op _ _ rfl)) fun never _ _ _ => never.elim
  | succ pages ih =>
    refine .bind (.ask (sparkRule_allows.call _ _ rfl)) fun ans t₁ _ ht₁ => ?_
    cases ans with
    | error e => trivial
    | ok page =>
      show Prog.Keeps _ _ t₁ (if _ then _ else _)
      have hpage : ∀ p, p ∈ rows ++ page.filter (names paymentHash) ↔ p ∈ rows ∨
          p ∈ listed paymentHash [.heard (.listPayments sdk .send paymentScanPage offset)
            (.ok page)] := by
        intro p
        simp [listed, listedPage]
      split
      · exact .pure ⟨_, ht₁, hpage⟩
      · refine (ih (offset + paymentScanPage) _).mono fun rows' t' _ hrows' => ?_
        obtain ⟨since, rfl, hmem⟩ := hrows'
        refine ⟨since ++ [.heard (.listPayments sdk .send paymentScanPage offset) (.ok page)],
          by rw [ht₁, List.append_assoc, List.singleton_append], fun p => ?_⟩
        rw [hmem p, hpage p, listed_append, List.mem_append]
        tauto

/-- What the tests on the rows say. -/
theorem paymentsVerdict_eq_ok {payments : List SdkPayment} {paid : Bool}
    (h : paymentsVerdict payments = .ok paid) : payments ≠ [] ∧
      (paid = true → ∃ p ∈ payments, p.status = .completed) ∧
      (paid = false → ∀ p ∈ payments, p.status = .failed) := by
  have hverdict : rowsVerdict (payments.map SdkPayment.row) = .ok paid := by
    rw [paymentsVerdict] at h
    cases hrows : rowsVerdict (payments.map SdkPayment.row) with
    | error e =>
      rw [hrows] at h
      cases h
    | ok answer =>
      rw [hrows] at h
      cases h
      rfl
  have hattempt : ∀ {status : PaymentStatus} {a : Attempt}, sparkAttempt status = a →
      (a = .succeeded → status = .completed) ∧ (a = .failed → status = .failed) := by
    rintro status a rfl
    cases status <;> simp [sparkAttempt]
  obtain ⟨-, hall⟩ := rowsVerdict_eq_ok hverdict
  refine ⟨?_, fun hpaid => ?_, fun hunpaid p hp => ?_⟩
  · rintro rfl
    cases hverdict
  · rw [if_pos hpaid, List.map_map] at hall
    obtain ⟨p, hp, hsucceeded⟩ := List.mem_map.1 hall
    exact ⟨p, hp, (hattempt hsucceeded).1 rfl⟩
  · rw [if_neg (by simp [hunpaid]), List.map_map] at hall
    exact (hattempt rfl).2 (hall _ (List.mem_map_of_mem hp))

theorem told_of_verdict {payments : List SdkPayment} {paid : Bool}
    (hmem : ∀ p, p ∈ payments ↔ p ∈ listed paymentHash t)
    (h : paymentsVerdict payments = .ok paid) : Told t paymentHash paid := by
  obtain ⟨hne, hcompleted, hfailed⟩ := paymentsVerdict_eq_ok h
  refine ⟨fun hpaid => ?_, fun hunpaid p hp => hfailed hunpaid p ((hmem p).2 hp), fun _ hnone => ?_⟩
  · obtain ⟨p, hp, hstatus⟩ := hcompleted hpaid
    exact ⟨p, (hmem p).1 hp, hstatus⟩
  · obtain ⟨p, hp⟩ := List.exists_mem_of_ne_nil payments hne
    rw [hmem, hnone] at hp
    cases hp

theorem verdict_keeps {payments : List SdkPayment}
    (hmem : ∀ p, p ∈ payments ↔ p ∈ listed paymentHash t) :
    (Prog.ofExcept (paymentsVerdict payments) : SparkProg Bool).Keeps (sparkRule d sd task)
      (fun paid t' => Told t' paymentHash paid) t := by
  cases h : paymentsVerdict payments with
  | error e => trivial
  | ok paid => exact told_of_verdict hmem h

theorem paymentsAfterSync_keeps (sdk : ℕ) :
    (paymentsAfterSync pages sdk paymentHash).Keeps (sparkRule d sd task)
      (fun payments t' => ∀ p, p ∈ listed paymentHash t' ↔
        p ∈ payments ∨ p ∈ listed paymentHash t) t := by
  refine .bind (keeps_setup (remoteProbe_within sdk)) fun _ t₁ _ h₁ => ?_
  refine .bind (keeps_setup (.ask ⟨rfl, rfl⟩)) fun ans t₂ _ h₂ => ?_
  refine .bind (keeps_setup (returned_within ans)) fun _ t₃ _ h₃ => ?_
  refine .bind (keeps_setup (remoteProbe_within sdk)) fun _ t₄ _ h₄ => ?_
  refine (paymentsByHash_keeps sdk pages 0 []).mono fun payments t₅ _ h₅ p => ?_
  obtain ⟨since₁, rfl, hs₁⟩ := h₁
  obtain ⟨since₂, rfl, hs₂⟩ := h₂
  obtain ⟨since₃, rfl, hs₃⟩ := h₃
  obtain ⟨since₄, rfl, hs₄⟩ := h₄
  obtain ⟨since₅, rfl, hmem⟩ := h₅
  rw [listed_append, List.mem_append, hmem p, listed_of_setup hs₄, listed_of_setup hs₃,
    listed_of_setup hs₂, listed_of_setup hs₁]
  simp

theorem isPaymentCompleteSpark_keeps (paymentHash : Str) :
    (isPaymentCompleteSpark cfg pages paymentHash).Keeps
      (sparkRule d sd (.isPaymentComplete paymentHash))
      (fun paid t' => Told t' paymentHash paid) [] := by
  refine .bind (keeps_setup sdk_within) fun sdk t₁ _ h₁ => ?_
  obtain ⟨since₁, rfl, hs₁⟩ := h₁
  refine .bind (paymentsByHash_keeps sdk pages 0 []) fun payments t₂ _ h₂ => ?_
  obtain ⟨since₂, rfl, hmem⟩ := h₂
  have hlisted : ∀ p, p ∈ payments ↔ p ∈ listed paymentHash (since₂ ++ (since₁ ++ [])) := by
    intro p
    rw [hmem p, listed_append, listed_of_setup hs₁]
    simp [listed]
  split
  · next hnone =>
    subst hnone
    have hempty : listed paymentHash (since₂ ++ (since₁ ++ [])) = [] :=
      List.eq_nil_iff_forall_not_mem.2 fun p hp => by simpa using (hlisted p).2 hp
    refine .bind (.perform (sparkRule_allows.op _ _ rfl)) fun rejected t₃ _ ht₃ => ?_
    have hempty₃ : listed paymentHash t₃ = [] := by
      rw [ht₃]
      exact hempty
    cases rejected with
    | true =>
      refine .pure ⟨by simp, fun _ p hp => ?_, fun _ _ => by rw [ht₃]; exact List.mem_cons_self⟩
      rw [hempty₃] at hp
      cases hp
    | false =>
      refine .bind (paymentsAfterSync_keeps sdk) fun payments t₄ _ h₄ => verdict_keeps fun p => ?_
      rw [h₄ p, hempty₃]
      simp
  · exact verdict_keeps hlisted

/-! ## Every function -/

theorem quiet_sdk : (sdk cfg).Within quiet fun _ => True :=
  sdk_within.mono setup_le_quiet fun _ => id

theorem createInvoiceSpark_within (amountMsat : ℤ) (memo : Str) (descriptionForHash : Option Str)
    (expirySecs : Option ℕ) :
    (createInvoiceSpark cfg amountMsat memo descriptionForHash expirySecs).Within quiet
      fun _ => True := by
  refine .bind (.raiseIf _ _) fun _ _ => .bind (.raiseIf _ _) fun _ _ => ?_
  refine .bind quiet_sdk fun _ _ => .bind (.ask rfl) fun _ _ => ?_
  refine .bind (returned_within _) fun _ _ => .bind (.raiseIf _ _) fun _ _ => .pure trivial

theorem firstPreimage_within (paymentHash : Str) (paymentType : PaymentType) :
    (sdk cfg >>= fun sdk => paymentsByHash sdk paymentHash paymentType pages 0 [] >>=
      fun payments => Prog.ofExcept (firstPreimage payments)).Within quiet fun _ => True := by
  refine .bind quiet_sdk fun _ _ => .bind (paymentsByHash_within _ _ _ _ _ _) fun _ _ => ?_
  exact (Prog.Within.ofExcept _).weaken fun _ _ => trivial

theorem fetchNodeInfoSpark_within : (fetchNodeInfoSpark cfg).Within quiet fun _ => True := by
  refine .bind quiet_sdk fun sdk _ => ?_
  refine .bind ((remoteProbe_within sdk).mono setup_le_quiet fun _ => id) fun _ _ => ?_
  exact .bind (.ask rfl) fun _ _ => returned_within _

theorem lud25SigningKey_within : (lud25SigningKey d sd cfg).Within quiet fun _ => True := by
  refine .bind (.orRaise _ _) fun mnemonic _ => .bind (.perform rfl) fun cached _ => ?_
  cases cached with
  | some key => exact .pure trivial
  | none => exact .bind (.ofExcept _) fun _ _ => .bind (.perform rfl) fun _ _ => .pure trivial

theorem signMessageSpark_within (message : Str) :
    (signMessageSpark d sd cfg message).Within quiet fun _ => True := by
  refine .bind lud25SigningKey_within fun key _ => ?_
  obtain ⟨key, -⟩ := key
  dsimp only
  split
  · exact .pure trivial
  · trivial

theorem shutdown_within : shutdown.Within quiet fun _ => True := by
  refine .bind (.perform rfl) fun singleton _ => ?_
  cases singleton with
  | none => exact .pure trivial
  | some sdk => exact .bind (.ask rfl) fun _ _ => .perform rfl

/-- A program that keeps to what neither sends nor remembers, and whose results may be returned. -/
theorem keeps_other {p : SparkProg α} {f : α → SparkRes} (hp : p.Within quiet fun _ => True)
    (hv : ∀ t x, (sparkRule d sd task).value t (f x)) :
    (p >>= fun x => return f x).Keeps (sparkRule d sd task)
      (fun r t' => (sparkRule d sd task).value t' r) [] :=
  .bind (keeps_quiet hp) fun _ _ _ _ => .pure (hv _ _)

/-- **Every task's program keeps the rule.** -/
theorem body_sparkRule (task : SparkTask) : (body d sd cfg pages task).Keeps (sparkRule d sd task)
    (fun r t' => (sparkRule d sd task).value t' r) [] := by
  cases task with
  | payInvoice invoice feeLimitMsat =>
    refine .bind (payInvoiceSpark_keeps invoice feeLimitMsat) fun r t' _ hr => ?_
    obtain ⟨preimage, feeMsat⟩ := r
    obtain ⟨payment, hpayment, houtcome⟩ := hr
    exact .pure ⟨preimage, feeMsat, payment, rfl, hpayment, houtcome⟩
  | isPaymentComplete paymentHash =>
    exact .bind (isPaymentCompleteSpark_keeps paymentHash) fun paid t' _ hpaid =>
      .pure ⟨paid, rfl, hpaid⟩
  | createInvoice =>
    exact keeps_other (createInvoiceSpark_within _ _ _ _) fun _ _ _ _ h => by cases h
  | invoicePreimage h =>
    exact keeps_other (firstPreimage_within h .receive) fun _ _ _ _ h => by cases h
  | paymentPreimage h =>
    exact keeps_other (firstPreimage_within h .send) fun _ _ _ _ h => by cases h
  | signMessage message =>
    exact keeps_other (signMessageSpark_within message) fun _ _ _ _ h => by cases h
  | isInvoiceSettled h =>
    refine keeps_other (.bind quiet_sdk fun _ _ => ?_) fun _ _ _ _ h => by cases h
    exact .bind (paymentsByHash_within _ _ _ _ _ _) fun _ _ => .pure trivial
  | fetchNodeInfo =>
    exact keeps_other fetchNodeInfoSpark_within fun _ _ _ _ h => by cases h
  | shutdown =>
    exact keeps_other (f := fun _ => .nothing) shutdown_within fun _ _ _ _ h => by cases h

end Rules

end Spark

/-! ## Every run -/

section Runs

open Spark

variable {d : Deps} {sd : SparkDeps} {cfg : SparkSettings} {pages : ℕ}

/-- The law that every task keeps its rule, and only acts while it does not wait. -/
abbrev sparkLaw (d : Deps) (sd : SparkDeps) (cfg : SparkSettings) (pages : ℕ) :
    Law (spark d sd cfg pages) :=
  (conductLaw (spark d sd cfg pages) (sparkRule d sd)).and (seqLaw _)

variable {s : SparkState} {w w₁ w₂ w' : World (spark d sd cfg pages)} {a : Actor sparkSig}

theorem Reach.runSpark {c : Config (spark d sd cfg pages)} (h : Reach s c) :
    Run (sparkLaw d sd cfg pages) s c.w := by
  refine h.run fun a w hf => ?_
  have hconduct := wp_conductLaw (M := spark d sd cfg pages) (R := sparkRule d sd) (a := a) (w := w)
    (p := Spark.body d sd cfg pages a.task) (P := fun r t' => (sparkRule d sd a.task).value t' r)
    (by rw [acts_eq_nil hf]; exact body_sparkRule a.task)
  exact wp_and hconduct (wp_seqLaw (.of_fresh hf))

/-- Whoever has sent is told what became of it before he acts again. -/
theorem Run.sent_answered (h : Run (sparkLaw d sd cfg pages) s w) {sdk : ℕ} {prepared : SdkPrepared}
    {preferSpark : Bool} {timeout : ℕ} {key : Option Str} {pre : SparkState}
    {e : Event (spark d sd cfg pages)}
    (hn : Next (sparkLaw d sd cfg pages) w
      (.called a (.sendPayment sdk prepared preferSpark timeout key) pre) w₁)
    (hf : Follows (sparkLaw d sd cfg pages) w₁ w₂) (hn' : Next (sparkLaw d sd cfg pages) w₂ e w')
    (he : e.idle? = some a.tid) (ha : e.actor? = some a) :
    ∃ ans pre', .answered a (.sendPayment sdk prepared preferSpark timeout key) ans pre' ∈ w₂.hist ∧
      ans ∈ sentAnswers (acts a.tid w₂.hist) := by
  obtain ⟨ans, pre', hans⟩ :=
    h.of_and.2.answered_of_acted hn.of_and.2 hf.of_and.2 hn'.of_and.2 he ha
  have hact : Act.heard (S := sparkSig) (.sendPayment sdk prepared preferSpark timeout key) ans ∈
      acts a.tid w₂.hist := List.mem_filterMap.2 ⟨_, hans, if_pos rfl⟩
  exact ⟨ans, pre', hans, List.mem_filterMap.2 ⟨_, hact, rfl⟩⟩

/-! ## Sending -/

/-- What a task that sends may rely on. -/
theorem Next.quoted {sdk : ℕ} {prepared : SdkPrepared} {preferSpark : Bool} {timeout : ℕ}
    {key : Option Str} {pre : SparkState}
    (hn : Next (sparkLaw d sd cfg pages) w
      (.called a (.sendPayment sdk prepared preferSpark timeout key) pre) w₁) :
    ∃ invoice feeLimitMsat, a.task = .payInvoice invoice feeLimitMsat ∧
      Quoted d sd (acts a.tid w.hist) invoice feeLimitMsat sdk prepared preferSpark key := by
  have hl : (sparkRule d sd a.task).call (acts a.tid w.hist)
      (.sendPayment sdk prepared preferSpark timeout key) := hn.lawful.1
  cases htask : a.task with
  | payInvoice invoice feeLimitMsat =>
    rw [htask] at hl
    exact ⟨invoice, feeLimitMsat, rfl, hl _ _ _ _ _ rfl⟩
  | _ =>
    rw [htask] at hl
    cases hl

/-- Whether an event sends a payment for the actor with this number. -/
def sendsBy (tid : ℕ) : Event (spark d sd cfg pages) → Bool
  | .called a c _ => sends c && a.tid = tid
  | .arrived _ | .did .. | .answered .. | .spawned .. | .finished .. | .stirred .. | .crashed _ =>
    false

theorem sendsBy_eq_true {tid : ℕ} {e : Event (spark d sd cfg pages)} (h : sendsBy tid e = true) :
    ∃ a sdk prepared preferSpark timeout key pre, a.tid = tid ∧
      e = .called a (.sendPayment sdk prepared preferSpark timeout key) pre := by
  cases e with
  | called a c pre =>
    obtain ⟨hc, ht⟩ := Bool.and_eq_true_iff.1 h
    cases c with
    | sendPayment sdk prepared preferSpark timeout key =>
      exact ⟨a, sdk, prepared, preferSpark, timeout, key, pre, of_decide_eq_true ht, rfl⟩
    | _ => cases hc
  | _ => cases h

/-- A task sends at most once. -/
theorem Run.sends_once (h : Run (sparkLaw d sd cfg pages) s w) (tid : ℕ) :
    w.hist.countP (sendsBy tid) ≤ 1 := by
  refine h.countP_le_one fun {w₂ e w₃} h₂ hn' he e' he' hsent => ?_
  obtain ⟨a, sdk, prepared, preferSpark, timeout, key, pre, rfl, rfl⟩ := sendsBy_eq_true he
  obtain ⟨b, sdk', prepared', preferSpark', timeout', key', pre', ht, rfl⟩ := sendsBy_eq_true hsent
  obtain rfl := h₂.actor_eq (h₂.joined he' rfl) (mem_alive (hn'.step.alive rfl)) ht
  obtain ⟨w₀, w₁, h₀, hn, hf⟩ := h₂.past he'
  obtain ⟨ans, pre'', -, hans⟩ := Run.sent_answered h₀ hn hf hn' rfl rfl
  obtain ⟨invoice, feeLimitMsat, -, hquoted⟩ := Next.quoted hn'
  rw [sentAnswers_of_quiet hquoted.first] at hans
  cases hans

/-- What an answer to a payment that was sent tells comes from that answer. -/
theorem Run.answered_of_sentAnswers (h : Run (sparkLaw d sd cfg pages) s w) (ha : Joined w.hist a)
    {ans : Except SdkExn SdkPayment} (hans : ans ∈ sentAnswers (acts a.tid w.hist)) :
    ∃ sdk prepared preferSpark timeout key pre,
      .answered a (.sendPayment sdk prepared preferSpark timeout key) ans pre ∈ w.hist := by
  obtain ⟨x, hx, hans⟩ := List.mem_filterMap.1 hans
  cases x with
  | heard c ans' =>
    cases c with
    | sendPayment sdk prepared preferSpark timeout key =>
      obtain ⟨pre, he⟩ := h.heard_of_acts ha hx
      cases hans
      exact ⟨sdk, prepared, preferSpark, timeout, key, pre, he⟩
    | _ => cases hans
  | _ => cases hans

/-- What a payment looks like that a result is made of. -/
theorem Spark.paymentOutcome_eq_ok {invoice : Str} {payment : SdkPayment} {preimage : Bytes}
    {feeMsat : ℤ} (h : paymentOutcome d invoice payment = .ok (preimage, feeMsat)) :
    payment.status = .completed ∧ feeMsat = (payment.fees : ℤ) * 1000 ∧
      (∃ hexed, payment.lightningHtlc.bind SdkHtlc.preimage = some hexed ∧
        fromhex hexed = some preimage) ∧
      ∀ hash, invoiceHash d invoice = some hash → hex (d.sha256 preimage) = hash := by
  rw [paymentOutcome] at h
  split at h
  · next hstatus =>
    split at h
    · cases h
    · next hexed hhexed =>
      split at h
      · cases h
      · next bytes hbytes =>
        obtain ⟨hsome, -⟩ := Option.filter_eq_some_iff.1 hhexed
        rw [verifyPreimage] at h
        cases hdecoded : d.decodeInvoice invoice with
        | error e =>
          rw [hdecoded] at h
          cases h
        | ok decoded =>
          rw [hdecoded] at h
          dsimp only at h
          split at h
          · cases h
          · next hverified =>
            cases h
            refine ⟨hstatus, rfl, ⟨hexed, hsome, hbytes⟩, fun hash hhash => ?_⟩
            rw [invoiceHash, hdecoded] at hhash
            by_contra hne
            refine hverified ⟨by simp [show decoded.paymentHash = some hash from hhash], ?_⟩
            rw [show decoded.paymentHash = some hash from hhash]
            exact fun heq => hne (Option.some.inj heq)
  · cases h
  · cases h

/-- A task that reports a payment was told that what it sent completed. -/
theorem Run.reported (h : Run (sparkLaw d sd cfg pages) s w) {preimage : Bytes} {feeMsat : ℤ}
    {pre : SparkState} (he : .finished a (.ok (.paid preimage feeMsat)) pre ∈ w.hist) :
    ∃ invoice feeLimitMsat sdk prepared preferSpark timeout key payment pre',
      a.task = .payInvoice invoice feeLimitMsat ∧
      .answered a (.sendPayment sdk prepared preferSpark timeout key) (.ok payment) pre' ∈ w.hist ∧
      payment.status = .completed ∧ feeMsat = (payment.fees : ℤ) * 1000 ∧
      ∀ hash, invoiceHash d invoice = some hash → hex (d.sha256 preimage) = hash := by
  obtain ⟨w₀, w₁, h₀, hn, hf⟩ := h.past he
  have hvalue : (sparkRule d sd a.task).value (acts a.tid w₀.hist) (.paid preimage feeMsat) :=
    hn.lawful.1 _ rfl
  cases htask : a.task with
  | payInvoice invoice feeLimitMsat =>
    rw [htask] at hvalue
    obtain ⟨_, _, payment, ⟨⟩, hans, houtcome⟩ := hvalue
    obtain ⟨sdk, prepared, preferSpark, timeout, key, pre', hans⟩ :=
      Run.answered_of_sentAnswers h₀ (mem_alive (hn.step.alive rfl)) hans
    obtain ⟨hstatus, hfee, -, hhash⟩ := paymentOutcome_eq_ok houtcome
    exact ⟨invoice, feeLimitMsat, sdk, prepared, preferSpark, timeout, key, payment, pre', rfl,
      (hn.follows.trans hf).mem hans, hstatus, hfee, hhash⟩
  | isPaymentComplete =>
    rw [htask] at hvalue
    obtain ⟨_, ⟨⟩, -⟩ := hvalue
  | _ =>
    rw [htask] at hvalue
    exact absurd rfl (hvalue _ _)

/-- **A payment is sent once, as it was quoted, and for what it says.** In every run, whatever
interleaves and wherever the process dies: a task sends at most one payment; before that it was
given a quote for its own invoice, which is for whole sats, and the quote is within its limit; the
payment goes by Lightning, with the key that every attempt at this invoice has. A task that reports
a payment was told that what it sent completed, and the preimage it reports is the invoice's. -/
theorem spark_sends_as_quoted {c : Config (spark d sd cfg pages)} (h : Reach s c)
    (a : Actor sparkSig) :
    (∀ es rest sdk prepared preferSpark timeout key pre,
      c.w.hist = es ++ .called a (.sendPayment sdk prepared preferSpark timeout key) pre :: rest →
        ∃ invoice feeLimitMsat decoded amountMsat feeSats,
          a.task = .payInvoice invoice feeLimitMsat ∧ d.decodeInvoice invoice = .ok decoded ∧
          decoded.amountMsat = some amountMsat ∧ amountMsat % 1000 = 0 ∧
          (∃ pre', .answered a (.prepareSendPayment sdk invoice) (.ok prepared) pre' ∈ rest) ∧
          prepared.paymentMethod = .bolt11Invoice feeSats ∧
          ((feeSats.getD 0 : ℕ) : ℤ) * 1000 ≤ feeLimitMsat ∧ preferSpark = false ∧
          key = meltIdempotencyKey d sd invoice) ∧
    c.w.hist.countP (sendsBy a.tid) ≤ 1 ∧
    ∀ preimage feeMsat pre, .finished a (.ok (.paid preimage feeMsat)) pre ∈ c.w.hist →
      ∃ invoice feeLimitMsat sdk prepared preferSpark timeout key payment pre',
        a.task = .payInvoice invoice feeLimitMsat ∧
        .answered a (.sendPayment sdk prepared preferSpark timeout key) (.ok payment) pre' ∈
          c.w.hist ∧ payment.status = .completed ∧ feeMsat = (payment.fees : ℤ) * 1000 ∧
        ∀ hash, invoiceHash d invoice = some hash → hex (d.sha256 preimage) = hash := by
  have hr := Reach.runSpark h
  refine ⟨?_, Run.sends_once hr a.tid, ?_⟩
  · intro es rest sdk prepared preferSpark timeout key pre hh
    obtain ⟨w₀, w₁, h₀, hrest, hn, -⟩ := hr.cut hh
    obtain ⟨invoice, feeLimitMsat, htask, hquoted⟩ := Next.quoted hn
    obtain ⟨decoded, amountMsat, hdecoded, hamount, haligned⟩ := hquoted.aligned
    obtain ⟨feeSats, hmethod, hwithin⟩ := hquoted.within
    obtain ⟨pre', hprepared⟩ := h₀.heard_of_acts (mem_alive (hn.step.alive rfl)) hquoted.quote
    exact ⟨invoice, feeLimitMsat, decoded, amountMsat, feeSats, htask, hdecoded, hamount, haligned,
      ⟨pre', hrest ▸ hprepared⟩, hmethod, hwithin, hquoted.lightning, hquoted.key⟩
  · exact fun preimage feeMsat pre he => Run.reported hr he

/-- Whether an event is that a task reports a payment. -/
def reportsPaid : Event standInSpark → Bool
  | .finished _ (.ok (.paid _ _)) _ => true
  | _ => false

/-- An invoice for 10 sats is paid, for a fee of one. -/
def sentRun : List (Choice standInSpark) :=
  sparkTurns 0 (.payInvoice "lnaa".toList 5000) (.ok (sdkPayment .completed "aa".toList))
    [2, 3, 1, 4, 1, 1]

theorem spark_sends_as_quoted_paid : ∃ (c : Config standInSpark) (a : Actor sparkSig)
    (preimage : Bytes) (feeMsat : ℤ) (pre : SparkState) (payment : SdkPayment),
    Reach SparkState.initial c ∧ .finished a (.ok (.paid preimage feeMsat)) pre ∈ c.w.hist ∧
      payment.status = .completed ∧ feeMsat = (payment.fees : ℤ) * 1000 := by
  have hrun : (sparkRun sentRun).any (fun c => c.w.hist.any reportsPaid) = true := by
    decide +kernel
  obtain ⟨c, hc, h⟩ := exists_sparkRun hrun
  obtain ⟨e, he, hpaid⟩ := List.any_eq_true.1 h
  obtain ⟨a, preimage, feeMsat, pre, rfl⟩ : ∃ a preimage feeMsat pre,
      e = .finished a (.ok (.paid preimage feeMsat)) pre := by
    cases e with
    | finished a r pre =>
      obtain _ | _ | _ | _ := r <;> first | exact ⟨_, _, _, _, rfl⟩ | cases hpaid
    | _ => cases hpaid
  obtain ⟨-, -, hreport⟩ := spark_sends_as_quoted hc a
  obtain ⟨_, _, _, _, _, _, _, payment, _, -, -, hstatus, hfee, -⟩ := hreport _ _ _ he
  exact ⟨c, a, preimage, feeMsat, pre, payment, hc, he, hstatus, hfee⟩

end Runs

end LnurlMint
