import LnurlMint.Lib.Footprint
import LnurlMint.Law

/-!
# What each task can do at all

The router's endpoints share one store, one funding source and most of their subroutines. Which of
them can move money, and which can only look, is spread over a dozen handlers. `Task.powers` says it
in one table: for every task the transactions it may run, the calls it may make and the tasks it may
spawn, with those of their arguments that the request itself decides, and the settings without which
it does nothing.

The table is a bound on every run. In particular only the payment of a melt pays, only a melt spawns
one, a lookup writes nothing but settlements, and a feature that is switched off has no effects.

## Main definitions

* `Endpoint.enabled`, `Endpoint.mayWrite`, `Endpoint.mayCall` — the tables
* `Task.powers` — the scope of a task

## Main results

* `task_powers` — in every run, every task stays within its powers
-/

namespace LnurlMint

open Interleave

variable {d : Deps} (cfg : Settings d)

/-! ## The tables -/

/-- The settings without which an endpoint neither writes nor calls. -/
def Endpoint.enabled : Endpoint → Prop
  | .registerUsername .. | .updateRegisteredUsername .. | .deleteRegisteredUsername ..
  | .getLnaddress _ | .getPayCallbackForUsername .. => cfg.usernameRegistrationEnabled = true
  | .getPayCallback .. => cfg.sunsetMint = false
  | .verifyInvoice _ => cfg.verifyEnabled = true
  | .getNip05 _ => False
  | .getWithdraw .. | .getWithdrawCallback .. => True

/-- The transactions of an endpoint. -/
def Endpoint.mayWrite : Endpoint → Update → Prop
  | .registerUsername name _, .registerUsername username .. =>
    cfg.addressFee = 0 ∧ username = d.lower name
  | .registerUsername name _, .holdUsername _ _ username _ _ _ amountMsat _ =>
    cfg.addressFee ≠ 0 ∧ username = d.lower name ∧ amountMsat = cfg.addressFee
  | .updateRegisteredUsername name _, .updateUsername username .. => username = d.lower name
  | .deleteRegisteredUsername name _, .deleteUsername username => username = d.lower name
  | .getLnaddress _, .settleAddressFee _ => True
  | .getPayCallback amount _ _, .createMint _ _ amountMsat noteId zapRequest username =>
    amountMsat = amount - mintFeeMsat cfg amount ∧ noteId.isSome = true ∧ zapRequest = none ∧
      username = none
  | .getPayCallbackForUsername name amount _ nostr none,
      .createMint _ _ amountMsat noteId zapRequest username =>
    cfg.sunsetMint = false ∧ amountMsat = amount - mintFeeMsat cfg amount ∧ noteId = none ∧
      zapRequest = nostr ∧ username = some (addressName d name)
  | .getPayCallbackForUsername _ _ _ _ (some _), .settleMint .. => True
  | .getPayCallbackForUsername name amount _ _ (some k1),
      .transferToUsername burnIds username amountMsat _ =>
    Named d [k1] burnIds ∧ username = addressName d name ∧ amountMsat = amount
  | .verifyInvoice h, .settleMint h' _ | .verifyInvoice h, .settleAddressFee h' => h' = h
  | .getWithdraw .., .settleMint .. | .getWithdrawCallback .., .settleMint .. => True
  | .getWithdrawCallback k1 none amount _ _, .swap burnIds .. =>
    Named d k1 burnIds ∧ (cfg.sunsetMint = true → amount = none)
  | .getWithdrawCallback k1 (some pr) none _ _, .markPending noteIds h
  | .getWithdrawCallback k1 (some pr) none _ _, .payAddressFeeWithNotes noteIds h _ =>
    Named d k1 noteIds ∧ invoiceHash d pr = some h
  | .getWithdrawCallback _ (some pr) none _ _, .recordMelt h pr' =>
    pr' = pr ∧ invoiceHash d pr = some h
  | _, _ => False

/-- The calls of an endpoint at a base URL. -/
def Endpoint.mayCall (baseUrl : Str) : Endpoint → Call → Prop
  | .registerUsername .., .createInvoice amountMsat _ descriptionForHash expirySecs =>
    cfg.addressFee ≠ 0 ∧ amountMsat = cfg.addressFee ∧ descriptionForHash = none ∧
      expirySecs = some addressFeeExpirySeconds
  | .getLnaddress _, .isInvoiceSettled _ => True
  | .getPayCallback amount _ _, .createInvoice amountMsat memo descriptionForHash expirySecs =>
    amountMsat = amount ∧ memo = none ∧ descriptionForHash = none ∧ expirySecs = none
  | .getPayCallbackForUsername _ amount _ nostr none,
      .createInvoice amountMsat memo descriptionForHash expirySecs =>
    cfg.sunsetMint = false ∧ amountMsat = amount ∧ memo = none ∧ descriptionForHash = nostr ∧
      expirySecs = none
  | .getPayCallbackForUsername _ _ _ _ (some _), .isInvoiceSettled _ => True
  | .verifyInvoice h, .isInvoiceSettled h' | .verifyInvoice h, .invoicePreimage h'
  | .verifyInvoice h, .isPaymentComplete h' | .verifyInvoice h, .paymentPreimage h' => h' = h
  | .getWithdraw .., .isInvoiceSettled _ | .getWithdraw .., .fetchNodeInfo
  | .getWithdrawCallback .., .isInvoiceSettled _ => True
  | .getWithdraw .., .signMessage _ domain _
  | .getWithdrawCallback _ none .., .signMessage _ domain _ => mintDomain cfg baseUrl = .ok domain
  | _, _ => False

/-- What an endpoint may spawn. -/
def Endpoint.maySpawn : Endpoint → Task → Prop
  | .getWithdrawCallback k1 (some pr) none _ _, .meltPay noteIds pr' decoded =>
    Named d k1 noteIds ∧ pr' = pr ∧ d.decodeInvoice pr = .ok decoded
  | _, _ => False

/-- The transactions of a task. -/
def Task.mayWrite : Task → Update → Prop
  | .request r, u => r.endpoint.enabled cfg ∧ r.endpoint.mayWrite cfg u
  | .meltPay noteIds _ _, .finalizeMelt noteIds' | .meltPay noteIds _ _, .restore noteIds' =>
    noteIds' = noteIds
  | .meltPay _ _ decoded, .markMeltSettled h => decoded.paymentHash = some h
  | .reconcilePendingMelts, .finalizeMelt _ | .reconcilePendingMelts, .restore _
  | .reconcilePendingMelts, .markMeltSettled _ => True
  | .settlePolledMints, .settleMint .. | .settlePolledMints, .settleAddressFee _
  | .publishZapReceipts, .settleMint .. | .publishZapReceipts, .settleAddressFee _
  | .publishZapReceipts, .markZapPublished .. => True
  | _, _ => False

/-- The calls of a task. -/
def Task.mayCall : Task → Call → Prop
  | .request r, c => r.endpoint.enabled cfg ∧ r.endpoint.mayCall cfg r.baseUrl c
  | .meltPay _ pr decoded, .payInvoice pr' feeLimitMsat =>
    pr' = pr ∧ decoded.amountMsat.map (meltFeeLimitMsat cfg) = some feeLimitMsat
  | .meltPay _ _ decoded, .isPaymentComplete h => decoded.paymentHash = some h
  | .meltPay .., .sleep seconds => seconds ∈ confirmationRetryDelaysSeconds
  | .reconcilePendingMelts, .isPaymentComplete _ => True
  | .settlePolledMints, .isInvoiceSettled _ | .publishZapReceipts, .isInvoiceSettled _ => True
  | .publishZapReceipts, .invoicePreimage _ | .publishZapReceipts, .publish .. =>
    cfg.nostrKey.isSome = true
  | _, _ => False

/-- What a task may do at all. Looking at the store, at the clock and at the registry of melts in
flight is not counted. -/
def Task.powers (t : Task) : Scope mintSig where
  op
    | .write u => t.mayWrite cfg u
    | .trackMeltStart h => ∃ baseUrl k1 pr p1 p2,
      t = .request ⟨baseUrl, .getWithdrawCallback k1 (some pr) none p1 p2⟩ ∧
        invoiceHash d pr = some h
    | .trackMeltEnd h =>
      (∃ noteIds pr decoded, t = .meltPay noteIds pr decoded ∧ decoded.paymentHash = some h) ∨
        ∃ baseUrl k1 pr p1 p2,
          t = .request ⟨baseUrl, .getWithdrawCallback k1 (some pr) none p1 p2⟩ ∧
            invoiceHash d pr = some h
    | .read _ | .meltInFlight _ | .now | .reference => True
  call c := t.mayCall cfg c
  task t' := ∃ r, t = .request r ∧ r.endpoint.maySpawn (d := d) t'

/-! ## Shared subroutines -/

section Shared

variable {cfg} {F : Scope mintSig}

/-- Looking is within the scope. -/
structure Looks (F : Scope mintSig) : Prop where
  read : ∀ q, F.op (.read q)
  now : F.op .now
  reference : F.op .reference

/-- So is settling an invoice with this hash. -/
structure SettlesMint (d : Deps) (F : Scope mintSig) (h : Str) : Prop where
  ask : F.call (.isInvoiceSettled h)
  write : F.op (.write (.settleMint h (some (shareNoteId d))))

/-- So is settling the address fee with this hash. -/
structure SettlesFee (F : Scope mintSig) (h : Str) : Prop where
  ask : F.call (.isInvoiceSettled h)
  write : F.op (.write (.settleAddressFee h))

theorem Task.looks (t : Task) : Looks (t.powers cfg) := ⟨fun _ => trivial, trivial, trivial⟩

theorem within_read {q : Query} (hF : Looks F) : (read q).Within F fun _ => True :=
  .perform (hF.read q)

theorem within_now (hF : Looks F) : now.Within F fun _ => True := .perform hF.now

theorem within_write {u : Update} (h : F.op (.write u)) : (write u).Within F fun _ => True :=
  .bind (.perform h) fun r _ => (Prog.Within.ofExcept r).weaken fun _ _ => trivial

theorem within_logInternalError {context : String} (hF : Looks F) :
    (logInternalError context).Within F fun _ => True :=
  .bind (.perform hF.reference) fun _ _ => .pure trivial

theorem within_raiseInternal {α : Type} {context : String} {P : α → Prop} (hF : Looks F) :
    (raiseInternal context : Mint α).Within F P :=
  .bind (within_logInternalError hF) fun _ _ => trivial

theorem within_answer {α : Type} (r : Except Unit α) : (answer r).Within F fun _ => True := by
  rcases r with ⟨⟩ | x <;> trivial

theorem within_ask_answer {α : Type} {c : Call} {f : c.Ans → Except Unit α} (h : F.call c) :
    (ask c >>= fun x => answer (f x)).Within F fun _ => True :=
  .bind (.ask h) fun x _ => within_answer (f x)

theorem within_valueErrorsAnswered {α : Type} {p : Mint α} {P : α → Prop} (h : p.Within F P) :
    (valueErrorsAnswered p).Within F P :=
  .tryCatch h fun e => by cases e <;> trivial

theorem within_rejectionsAnswered {α : Type} {rewrite : String → String} {p : Mint α}
    {P : α → Prop} (h : p.Within F P) : (rejectionsAnswered rewrite p).Within F P :=
  .tryCatch h fun e => by cases e <;> trivial

theorem within_burnErrorsAnswered {α : Type} {p : Mint α} {P : α → Prop} (h : p.Within F P) :
    (burnErrorsAnswered p).Within F P :=
  .tryCatch h fun e => by cases e <;> trivial

theorem within_requireFundingSource : (requireFundingSource cfg).Within F fun _ => True :=
  (Prog.Within.raiseIf _ _).weaken fun _ _ => trivial

theorem within_paymentHashOf {pr : Str} {preimage : Option Bytes} (hF : Looks F) :
    (paymentHashOf d pr preimage).Within F fun _ => True := by
  cases preimage with
  | some preimage => exact .pure trivial
  | none =>
    rw [paymentHashOf, createdInvoicePaymentHash]
    split
    · exact within_raiseInternal hF
    · split
      · exact within_raiseInternal hF
      · exact .pure trivial

theorem within_settleMintIfPaid {h : Str} (hs : SettlesMint d F h) :
    (settleMintIfPaid cfg h).Within F fun _ => True := by
  rw [settleMintIfPaid]
  split
  · exact .pure trivial
  · refine .bind (within_ask_answer hs.ask) fun paid _ => ?_
    split
    · exact .bind (within_write hs.write) fun _ _ => .pure trivial
    · exact .pure trivial

theorem within_mintSettledByNoteId {id : Str} (hF : Looks F) (hs : ∀ h, SettlesMint d F h) :
    (mintSettledByNoteId cfg id).Within F fun _ => True := by
  refine .bind (within_read hF) fun pending _ => ?_
  split
  · exact .pure trivial
  · exact within_settleMintIfPaid (hs _)

theorem within_mintSettled {h : Str} (hF : Looks F) (hs : SettlesMint d F h) :
    (mintSettled cfg h).Within F fun _ => True := by
  refine .bind (within_read hF) fun settled _ => ?_
  split
  · exact .pure trivial
  · refine .bind (within_read hF) fun pending _ => ?_
    split
    · exact .pure trivial
    · exact within_settleMintIfPaid hs

theorem within_addressFeeSettled {h : Str} (hF : Looks F) (hs : SettlesFee F h) :
    (addressFeeSettled cfg h).Within F fun _ => True := by
  refine .bind (within_read hF) fun fee _ => ?_
  split
  · exact .pure trivial
  · split
    · exact .pure trivial
    · split
      · exact .pure trivial
      · refine .bind (within_ask_answer hs.ask) fun paid _ => ?_
        split
        · exact .bind (within_write hs.write) fun _ _ => .pure trivial
        · exact .pure trivial

theorem within_mintPreimage {h : Str} (hc : F.call (.invoicePreimage h)) :
    (mintPreimage cfg h).Within F fun _ => True := by
  rw [mintPreimage]
  split
  · exact .pure trivial
  · exact .bind (.ask hc) fun _ _ => .pure trivial

theorem within_meltSettled {h : Str} (hF : Looks F) (hc : F.call (.isPaymentComplete h)) :
    (meltSettled cfg h).Within F fun _ => True := by
  refine .bind (within_read hF) fun settled _ => ?_
  split
  · exact .pure trivial
  · split
    · exact .pure trivial
    · exact .tryCatch (within_ask_answer hc) fun _ => .pure trivial

theorem within_meltPreimage {h : Str} (hc : F.call (.paymentPreimage h)) :
    (meltPreimage cfg h).Within F fun _ => True := by
  rw [meltPreimage]
  split
  · exact .pure trivial
  · exact .bind (.ask hc) fun _ _ => .pure trivial

theorem within_noteAmountById {id : Str} (hF : Looks F) (hs : ∀ h, SettlesMint d F h) :
    (noteAmountById cfg id).Within F fun _ => True := by
  refine .bind (within_read hF) fun amountMsat _ => ?_
  split
  · exact .pure trivial
  · refine .bind (within_mintSettledByNoteId hF hs) fun settled _ => ?_
    split
    · exact within_read hF
    · exact .pure trivial

/-- What a verified `k1` returns is about the note it names. -/
theorem within_verifiedNote {k1 : Str} (hF : Looks F) (hs : ∀ h, SettlesMint d F h) :
    (verifiedNote cfg k1).Within F fun n => noteIdOf d k1 = some n.noteId := by
  rw [verifiedNote]
  split
  · trivial
  · next parsed hparsed =>
    refine .bind (within_noteAmountById hF hs) fun _ _ => .bind (within_read hF) fun record _ => ?_
    split
    · trivial
    · refine .bind (.perform hF.now) fun t _ => ?_
      split
      · trivial
      · exact .pure (by rw [noteIdOf, hparsed]; rfl)

theorem within_verifiedNotes {k1 : List Str} (hF : Looks F) (hs : ∀ h, SettlesMint d F h) :
    (verifiedNotes cfg k1).Within F fun notes => Named d k1 (notes.map fun n => n.noteId) := by
  induction k1 with
  | nil => exact .pure rfl
  | cons k k1 ih =>
    refine .bind (within_rejectionsAnswered (within_verifiedNote hF hs)) fun note hnote => ?_
    refine .bind ih fun notes hnotes => .pure ?_
    rw [Named, List.map_cons, List.map_cons, List.map_cons, hnote, hnotes]

theorem within_noteByRef {value : Str} (hF : Looks F) (hs : ∀ h, SettlesMint d F h) :
    (noteByRef cfg value).Within F fun _ => True := by
  rw [noteByRef]
  split
  · exact .pure trivial
  · exact .bind (within_noteAmountById hF hs) fun _ _ => .pure trivial

theorem within_certificate {id dom : Str} {amountMsat : ℤ}
    (hc : F.call (.signMessage id dom amountMsat)) :
    (certificate cfg id amountMsat dom).Within F fun _ => True := by
  refine .bind (P := fun _ => True) ?_ fun raw _ => ?_
  · rw [signNote]
    split
    · exact .pure trivial
    · refine .bind (.ask hc) fun signed _ => ?_
      split
      · exact .pure trivial
      · exact .bind (.raiseIf _ _) fun _ _ => .pure trivial
  · split
    · exact .pure trivial
    · exact .bind (.ofExcept _) fun _ _ => .pure trivial

theorem within_mintPubkey (hc : F.call .fetchNodeInfo) :
    (mintPubkey cfg).Within F fun _ => True := by
  rw [mintPubkey]
  split
  · exact .pure trivial
  · exact .pure trivial
  · refine .bind (.ask hc) fun uri _ => ?_
    split <;> exact .pure trivial

end Shared

/-! ## The handlers -/

section Handlers

variable {cfg} {baseUrl : Str}

/-- A handler's scope, spelled out at its endpoint. -/
abbrev Endpoint.scope (cfg : Settings d) (baseUrl : Str) (e : Endpoint) : Scope mintSig :=
  (Task.request ⟨baseUrl, e⟩).powers cfg

theorem within_required {F : Scope mintSig} {form : Form} {name : String} :
    (required form name).Within F fun _ => True :=
  (Prog.Within.orRaise _ _).weaken fun _ _ => trivial

theorem within_registeredNpub {F : Scope mintSig} {npub : Option Str} :
    (registeredNpub cfg npub).Within F fun _ => True := by
  cases npub with
  | none => exact .pure trivial
  | some npub => exact .bind (.raiseIf _ _) fun _ _ => .bind (.orRaise _ _) fun _ _ => .pure trivial

theorem registerUsername_within {name : Str} {form : Form} :
    (registerUsername cfg baseUrl name form).Within
      (Endpoint.scope cfg baseUrl (.registerUsername name form)) fun _ => True := by
  refine .bind (.raiseIf _ _) fun _ hon => ?_
  rw [Bool.not_eq_false] at hon
  refine .bind within_required fun cx1 _ => .bind within_required fun sig _ => ?_
  refine .bind (.raiseIf _ _) fun _ _ => .bind (.orRaise _ _) fun share _ => ?_
  refine .bind within_registeredNpub fun npub _ => .bind (.ofExcept _) fun dom _ => ?_
  refine .bind (.raiseIf _ _) fun _ _ => ?_
  split
  · next hfee =>
    have hw := within_valueErrorsAnswered
      (within_write (F := Endpoint.scope cfg baseUrl (.registerUsername name form))
        (u := .registerUsername (d.lower name) (hex share) (hex (share.drop 33)) npub)
        ⟨hon, hfee, rfl⟩)
    exact .bind hw fun _ _ => .pure trivial
  · next hfee =>
    refine .bind (within_read (Task.looks _)) fun taken _ => .bind (.raiseIf _ _) fun _ _ => ?_
    refine .bind within_requireFundingSource fun _ _ => .bind (.ofExcept _) fun _ _ => ?_
    refine .bind (.attempt (P := fun _ => True) ?_) fun invoice _ => ?_
    · refine .bind (within_ask_answer ⟨hon, hfee, rfl, rfl, rfl⟩) fun _ _ => ?_
      dsimp only
      split
      · trivial
      · exact .pure trivial
    · split
      · exact within_raiseInternal (Task.looks _)
      · refine .bind (within_paymentHashOf (Task.looks _)) fun h _ => ?_
        exact .bind (within_valueErrorsAnswered (within_write ⟨hon, hfee, rfl, rfl⟩))
          fun _ _ => .pure trivial

theorem updateRegisteredUsername_within {name : Str} {form : Form} :
    (updateRegisteredUsername cfg baseUrl name form).Within
      (Endpoint.scope cfg baseUrl (.updateRegisteredUsername name form)) fun _ => True := by
  refine .bind (.raiseIf _ _) fun _ hon => ?_
  rw [Bool.not_eq_false] at hon
  refine .bind within_required fun cx1 _ => .bind within_required fun sig _ => ?_
  refine .bind within_required fun newsig _ => .bind (within_read (Task.looks _)) fun branch _ => ?_
  refine .bind (.orRaise _ _) fun onFile _ => .bind (.orRaise _ _) fun share _ => ?_
  refine .bind (.ofExcept _) fun onFileXp _ => .bind (.ofExcept _) fun dom _ => ?_
  refine .bind (.orRaise _ _) fun xp _ => .bind (.raiseIf _ _) fun _ _ => ?_
  exact .bind (within_valueErrorsAnswered (within_write ⟨hon, rfl⟩)) fun _ _ => .pure trivial

theorem deleteRegisteredUsername_within {name : Str} {form : Form} :
    (deleteRegisteredUsername cfg baseUrl name form).Within
      (Endpoint.scope cfg baseUrl (.deleteRegisteredUsername name form)) fun _ => True := by
  refine .bind (.raiseIf _ _) fun _ hon => ?_
  rw [Bool.not_eq_false] at hon
  refine .bind within_required fun sig _ => .bind (within_read (Task.looks _)) fun branch _ => ?_
  refine .bind (.orRaise _ _) fun onFile _ => .bind (.ofExcept _) fun onFileXp _ => ?_
  refine .bind (.orRaise _ _) fun xp _ => .bind (.ofExcept _) fun dom _ => ?_
  refine .bind (.raiseIf _ _) fun _ _ => .bind (within_write ⟨hon, rfl⟩) fun _ _ => .pure trivial

theorem getNip05_within {F : Scope mintSig} (hF : Looks F) {name : Option Str} :
    (getNip05 cfg name).Within F fun _ => True := by
  refine .bind (.raiseIf _ _) fun _ _ => ?_
  cases name with
  | none => exact .pure trivial
  | some name =>
    dsimp only
    split
    · exact .bind (within_read hF) fun _ _ => .pure trivial
    · exact .pure trivial

variable (cfg) in
theorem within_registeredUsernameBranch {F : Scope mintSig} (hF : Looks F) {name : Str} :
    (registeredUsernameBranch cfg name).Within F fun branch =>
      branch ≠ none → cfg.usernameRegistrationEnabled = true := by
  rw [registeredUsernameBranch]
  split
  · next hon => exact (within_read hF).weaken fun _ _ _ => hon
  · exact .pure fun h => absurd rfl h

theorem getLnaddress_within {name : Str} :
    (getLnaddress cfg baseUrl name).Within
      (Endpoint.scope cfg baseUrl (.getLnaddress name)) fun _ => True := by
  refine .bind (P := fun _ => True) ?_ fun registered _ => ?_
  · rw [answersFor]
    split
    · exact .pure trivial
    · refine .bind (within_registeredUsernameBranch cfg (Task.looks _)) fun branch _ => ?_
      split
      · exact .pure trivial
      · rw [heldAndPaid]
        split
        · next hon =>
          refine .bind (within_read (Task.looks _)) fun held _ => ?_
          split
          · exact .pure trivial
          · refine .bind (within_addressFeeSettled (Task.looks _) ⟨⟨hon, trivial⟩, hon, trivial⟩)
              fun settled _ => ?_
            split
            · exact .bind (within_registeredUsernameBranch cfg (Task.looks _))
                fun _ _ => .pure trivial
            · exact .pure trivial
        · exact .pure trivial
  · refine .bind (.raiseIf _ _) fun _ _ => .bind (.ofExcept _) fun _ _ => ?_
    exact .bind (.orRaise _ _) fun _ _ => .pure trivial

theorem within_checkAmount {F : Scope mintSig} {amount : ℤ} :
    (checkAmount cfg amount).Within F fun _ => True :=
  .bind (.raiseIf _ _) fun _ _ => .bind (.raiseIf _ _) fun _ _ =>
    (Prog.Within.raiseIf _ _).weaken fun _ _ => trivial

/-- Only the invoice of a registered name can be a zap. -/
theorem within_checkZap {F : Scope mintSig} {amount : ℤ} {nostr username : Option Str} :
    (checkZap cfg amount nostr username).Within F fun _ => nostr ≠ none → username ≠ none := by
  cases nostr with
  | none => exact .pure fun h => absurd rfl h
  | some request =>
    refine .bind (.raiseIf _ _) fun _ hon => .bind (.ofExcept _) fun event _ => ?_
    split
    · trivial
    · exact .pure fun _ hnone => hon (.inr hnone)

theorem within_mintedNote {F : Scope mintSig} {comment username : Option Str} :
    (mintedNote (d := d) comment username).Within F fun id => id.isSome = username.isNone := by
  cases username with
  | some username => exact .pure rfl
  | none => exact .bind (.orRaise _ _) fun _ _ => .pure rfl

theorem within_payCallback {F : Scope mintSig} (hF : Looks F) {amount : ℤ}
    {comment nostr username : Option Str}
    (hc : cfg.sunsetMint = false → (nostr ≠ none → username ≠ none) →
      F.call (.createInvoice amount none nostr none))
    (hw : ∀ h pr noteId, cfg.sunsetMint = false → (nostr ≠ none → username ≠ none) →
      Option.isSome noteId = username.isNone → F.op (.write (.createMint h pr
        (amount - mintFeeMsat cfg amount) noteId nostr username))) :
    (payCallback cfg baseUrl amount comment nostr username).Within F fun _ => True := by
  refine .bind (.raiseIf _ _) fun _ hsunset => ?_
  rw [Bool.not_eq_true] at hsunset
  refine .bind within_checkAmount fun _ _ => .bind within_checkZap fun _ hzap => ?_
  refine .bind within_mintedNote fun noteId hid => .bind within_requireFundingSource fun _ _ => ?_
  refine .bind (.attempt (within_ask_answer (hc hsunset hzap))) fun invoice _ => ?_
  split
  · exact within_raiseInternal hF
  · refine .bind (within_paymentHashOf hF) fun h _ => ?_
    exact .bind (within_valueErrorsAnswered (within_write (hw h _ noteId hsunset hzap hid)))
      fun _ _ => .bind (.ofExcept _) fun _ _ => .pure trivial

theorem getPayCallback_within {amount : ℤ} {comment nostr : Option Str} :
    (getPayCallback cfg baseUrl amount comment nostr).Within
      (Endpoint.scope cfg baseUrl (.getPayCallback amount comment nostr)) fun _ => True := by
  have hnone : (nostr ≠ none → (none : Option Str) ≠ none) → nostr = none := fun hzap => by
    by_contra hne
    exact hzap hne rfl
  refine within_payCallback (Task.looks _) (fun hs hzap => ?_) fun h pr noteId hs hzap hid => ?_
  · exact ⟨hs, rfl, rfl, hnone hzap, rfl⟩
  · exact ⟨hs, rfl, hid, hnone hzap, rfl⟩

theorem getPayCallbackForUsername_within {name : Str} {amount : ℤ}
    {comment nostr k1 : Option Str} :
    (getPayCallbackForUsername cfg baseUrl name amount comment nostr k1).Within
      (Endpoint.scope cfg baseUrl (.getPayCallbackForUsername name amount comment nostr k1))
      fun _ => True := by
  refine .bind (within_registeredUsernameBranch cfg (Task.looks _)) fun branch hbranch => ?_
  refine .bind (.raiseIf _ _) fun _ hreg => ?_
  have hon : cfg.usernameRegistrationEnabled = true := hbranch fun h => hreg (.inl h)
  cases k1 with
  | none =>
    refine .bind (.orRaise _ _) fun _ _ => ?_
    refine within_payCallback (Task.looks _) (fun hs _ => ?_) fun h pr noteId hs _ hid => ?_
    · exact ⟨hon, hs, rfl, rfl, rfl, rfl⟩
    · exact ⟨hon, hs, rfl, Option.not_isSome_iff_eq_none.1 (by simp [hid]), rfl, rfl⟩
  | some k1 =>
    refine .bind (.orRaise _ _) fun _ _ => .bind (.raiseIf _ _) fun _ _ => ?_
    refine .bind (within_rejectionsAnswered (within_verifiedNote (Task.looks _)
      fun h => ⟨⟨hon, trivial⟩, hon, trivial⟩)) fun note hnote => ?_
    refine .bind (within_read (Task.looks _)) fun burn _ => ?_
    refine .bind (within_read (Task.looks _)) fun recipient _ => ?_
    split
    · exact .pure trivial
    · refine .bind (.raiseIf _ _) fun _ _ => .bind (.raiseIf _ _) fun _ _ => ?_
      refine .bind (.raiseIf _ _) fun _ _ => ?_
      refine .bind (.attempt (within_write ⟨hon, ?_, rfl, rfl⟩)) fun credited _ => ?_
      · rw [Named, List.map_singleton, List.map_singleton, hnote]
      · split <;> trivial

theorem verifyInvoice_within {h : Str} :
    (verifyInvoice cfg h).Within (Endpoint.scope cfg baseUrl (.verifyInvoice h))
      fun _ => True := by
  refine .bind (.raiseIf _ _) fun _ hon => ?_
  rw [Bool.not_eq_false] at hon
  have hresponse : ∀ {pr : Str} {isSettled : Mint Bool} {preimageOf : Mint (Option Str)},
      isSettled.Within (Endpoint.scope cfg baseUrl (.verifyInvoice h)) (fun _ => True) →
      preimageOf.Within (Endpoint.scope cfg baseUrl (.verifyInvoice h)) (fun _ => True) →
      (verifyResponse pr isSettled preimageOf).Within
        (Endpoint.scope cfg baseUrl (.verifyInvoice h)) fun _ => True := by
    intro pr isSettled preimageOf hsettled hpreimage
    refine .bind hsettled fun settled _ => ?_
    split
    · exact .bind hpreimage fun _ _ => .pure trivial
    · exact .pure trivial
  refine .bind (within_read (Task.looks _)) fun mintPr _ => ?_
  split
  · refine .bind (within_read (Task.looks _)) fun _ _ => .bind (.raiseIf _ _) fun _ _ => ?_
    exact hresponse (within_mintSettled (Task.looks _) ⟨⟨hon, rfl⟩, hon, rfl⟩)
      (within_mintPreimage ⟨hon, rfl⟩)
  · refine .bind (within_read (Task.looks _)) fun fee _ => ?_
    split
    · exact hresponse (within_addressFeeSettled (Task.looks _) ⟨⟨hon, rfl⟩, hon, rfl⟩)
        (within_mintPreimage ⟨hon, rfl⟩)
    · refine .bind (within_read (Task.looks _)) fun meltPr _ => ?_
      split
      · exact hresponse (within_meltSettled (Task.looks _) ⟨hon, rfl⟩)
          (within_meltPreimage ⟨hon, rfl⟩)
      · trivial

theorem getWithdraw_within {k1 p : Option Str} {amount : Option ℤ} :
    (getWithdraw cfg baseUrl k1 p amount).Within
      (Endpoint.scope cfg baseUrl (.getWithdraw k1 p amount)) fun _ => True := by
  have hs : ∀ h, SettlesMint d (Endpoint.scope cfg baseUrl (.getWithdraw k1 p amount)) h :=
    fun h => ⟨⟨trivial, trivial⟩, trivial, trivial⟩
  refine .bind (P := fun _ => True) ?_ fun queried _ => ?_
  · unfold queriedNote
    split
    · exact .bind (within_rejectionsAnswered (within_verifiedNote (Task.looks _) hs))
        fun _ _ => .pure trivial
    · refine .bind (within_noteByRef (Task.looks _) hs) fun ref _ => ?_
      refine .bind (.orRaise _ _) fun id _ => .bind (within_read (Task.looks _)) fun record _ => ?_
      exact .bind (.orRaise _ _) fun _ _ => .pure trivial
    · trivial
  · refine .bind (.raiseIf _ _) fun _ _ => .bind (within_read (Task.looks _)) fun _ _ => ?_
    refine .bind (.raiseIf _ _) fun _ _ => .bind (.ofExcept _) fun _ _ => ?_
    refine .bind (.ofExcept _) fun dom hdom => ?_
    refine .bind (within_certificate ⟨trivial, hdom⟩) fun c _ => ?_
    exact .bind (within_mintPubkey ⟨trivial, trivial⟩) fun _ _ => .pure trivial

theorem within_replay {F : Scope mintSig} {p1 : Str} {p2 : Option Str} {amount1Msat : ℤ}
    {amount2Msat : Option ℤ} (hc : ∀ {id dom amountMsat}, mintDomain cfg baseUrl = .ok dom →
      F.call (.signMessage id dom amountMsat)) :
    (replay cfg baseUrl p1 p2 amount1Msat amount2Msat).Within F fun _ => True := by
  refine .bind (.ofExcept _) fun dom hdom => .bind (within_certificate (hc hdom)) fun c _ => ?_
  split
  · exact .bind (within_certificate (hc hdom)) fun _ _ => .pure trivial
  · exact .pure trivial

theorem within_unspentTotal {F : Scope mintSig} {notes : List Verified} :
    (unspentTotal notes).Within F fun _ => True :=
  .bind (.raiseIf _ _) fun _ _ => .pure trivial

theorem within_split {F : Scope mintSig} {ids : List Str} {totalMsat amount : ℤ} {p1 p2 : Str}
    (hw : ∀ {outs amounts}, F.op (.write (.swap ids outs amounts)))
    (hc : ∀ {id dom amountMsat}, mintDomain cfg baseUrl = .ok dom →
      F.call (.signMessage id dom amountMsat)) :
    (split cfg baseUrl ids totalMsat amount p1 p2).Within F fun _ => True := by
  refine .bind (.raiseIf _ _) fun _ _ => .bind (.raiseIf _ _) fun _ _ => ?_
  refine .bind (.raiseIf _ _) fun _ _ => .bind (within_write hw) fun _ _ => ?_
  refine .bind (.ofExcept _) fun dom hdom => .bind (within_certificate (hc hdom)) fun _ _ => ?_
  exact .bind (within_certificate (hc hdom)) fun _ _ => .pure trivial

theorem within_merge {F : Scope mintSig} {ids : List Str} {totalMsat : ℤ} {p1 : Str}
    (hw : ∀ {outs amounts}, F.op (.write (.swap ids outs amounts)))
    (hc : ∀ {id dom amountMsat}, mintDomain cfg baseUrl = .ok dom →
      F.call (.signMessage id dom amountMsat)) :
    (merge cfg baseUrl ids totalMsat p1).Within F fun _ => True :=
  .bind (within_write hw) fun _ _ => .bind (.ofExcept _) fun _ hdom =>
    .bind (within_certificate (hc hdom)) fun _ _ => .pure trivial

theorem within_rotateSplitMerge {F : Scope mintSig} {notes : List Verified} {amount : Option ℤ}
    {p1 : Str} {p2 : Option Str} (hF : Looks F)
    (hw : ∀ {outs amounts}, F.op (.write (.swap (notes.map fun n => n.noteId) outs amounts)))
    (hc : ∀ {id dom amountMsat}, mintDomain cfg baseUrl = .ok dom →
      F.call (.signMessage id dom amountMsat)) :
    (rotateSplitMerge cfg baseUrl notes amount p1 p2).Within F fun _ => True := by
  refine .bind (within_read hF) fun burn _ => ?_
  split
  · exact within_replay hc
  · refine .bind within_unspentTotal fun totalMsat _ => ?_
    split
    · exact within_burnErrorsAnswered (within_split hw hc)
    · exact within_burnErrorsAnswered (within_merge hw hc)

theorem within_verifyUrl {F : Scope mintSig} {h : Str} :
    (verifyUrl cfg baseUrl h).Within F fun _ => True := by
  rw [verifyUrl]
  split
  · exact .bind (.ofExcept _) fun _ _ => .pure trivial
  · exact .pure trivial

theorem within_melt {k1 : List Str} {pr : Str} {p1 p2 : Option Str} {notes : List Verified}
    (hnotes : Named d k1 (notes.map fun n => n.noteId)) :
    (melt cfg baseUrl notes pr).Within
      (Endpoint.scope cfg baseUrl (.getWithdrawCallback k1 (some pr) none p1 p2))
      fun _ => True := by
  refine .bind within_unspentTotal fun totalMsat _ => ?_
  split
  · trivial
  · next inv hinv =>
    refine .bind (.raiseIf _ _) fun _ _ => ?_
    split
    · exact .bind within_requireFundingSource fun _ _ => trivial
    · next h hh =>
      have hash : invoiceHash d pr = some h := by rw [invoiceHash, hinv]; exact hh
      refine .bind (within_read (Task.looks _)) fun fee _ => ?_
      split
      · refine .bind (.raiseIf _ _) fun _ _ => ?_
        exact .bind (within_burnErrorsAnswered (within_write ⟨trivial, hnotes, hash⟩))
          fun _ _ => .bind within_verifyUrl fun _ _ => .pure trivial
      · refine .bind (within_read (Task.looks _)) fun _ _ => .bind (.raiseIf _ _) fun _ _ => ?_
        refine .bind (within_read (Task.looks _)) fun _ _ => .bind (.raiseIf _ _) fun _ _ => ?_
        refine .bind within_requireFundingSource fun _ _ => ?_
        refine .bind (within_burnErrorsAnswered (within_write ⟨trivial, hnotes, hash⟩))
          fun _ _ => ?_
        refine .bind (.perform ⟨_, _, _, _, _, rfl, hash⟩) fun _ _ => ?_
        refine .bind (P := fun _ => True) (.tryCatch ?_ fun _ => ?_) fun _ _ => .pure trivial
        · refine .bind (within_write ⟨trivial, rfl, hash⟩) fun _ _ => ?_
          refine .bind within_verifyUrl fun _ _ => ?_
          exact .bind (.start ⟨_, rfl, hnotes, rfl, hinv⟩) fun _ _ => .pure trivial
        · exact .bind (.perform (.inr ⟨_, _, _, _, _, rfl, hash⟩)) fun _ _ => trivial

theorem getWithdrawCallback_within {k1 : List Str} {pr : Option Str} {amount : Option ℤ}
    {p1 p2 : Option Str} :
    (getWithdrawCallback cfg baseUrl k1 pr amount p1 p2).Within
      (Endpoint.scope cfg baseUrl (.getWithdrawCallback k1 pr amount p1 p2)) fun _ => True := by
  have hs : ∀ h, SettlesMint d
      (Endpoint.scope cfg baseUrl (.getWithdrawCallback k1 pr amount p1 p2)) h :=
    fun h => ⟨⟨trivial, trivial⟩, trivial, trivial⟩
  refine .bind (P := fun _ => (pr ≠ none → amount = none) ∧ (cfg.sunsetMint = true → amount = none))
    ?_ fun _ hshape => ?_
  · refine .bind (.raiseIf _ _) fun _ _ => .bind (.raiseIf _ _) fun _ _ => ?_
    refine .bind (.raiseIf _ _) fun _ hmelt => ?_
    refine (Prog.Within.raiseIf _ _).weaken fun _ hsunset => ⟨fun hpr => ?_, fun hon => ?_⟩
    · exact Option.not_isSome_iff_eq_none.1 fun h =>
        hmelt ⟨Option.isSome_iff_ne_none.2 hpr, .inr h⟩
    · exact Option.not_isSome_iff_eq_none.1 fun h => hsunset ⟨hon, h⟩
  · cases pr with
    | some pr =>
      obtain rfl := hshape.1 (by simp)
      exact .bind (within_verifiedNotes (Task.looks _) hs) fun notes hnotes => within_melt hnotes
    | none =>
      refine .bind (P := fun _ => True) ?_ fun outs _ => ?_
      · refine .bind (.orRaise _ _) fun _ _ => ?_
        split
        · exact .pure trivial
        · exact .bind (.orRaise _ _) fun _ _ => .pure trivial
      · refine .bind (within_verifiedNotes (Task.looks _) hs) fun notes hnotes => ?_
        exact within_rotateSplitMerge (Task.looks _) ⟨trivial, hnotes, hshape.2⟩
          fun hdom => ⟨trivial, hdom⟩

/-! ### Background tasks -/

theorem within_forEach {α : Type} {F : Scope mintSig} {f : α → Mint Unit} {xs : List α}
    (h : ∀ x, (f x).Within F fun _ => True) : (forEach f xs).Within F fun _ => True := by
  induction xs with
  | nil => exact .pure trivial
  | cons x xs ih => exact .bind (h x) fun _ _ => ih

theorem within_confirmPayment {F : Scope mintSig} {h : Str} {delays : List ℕ}
    (hc : F.call (.isPaymentComplete h)) (hs : ∀ s ∈ delays, F.call (.sleep s)) :
    (confirmPayment h delays).Within F fun _ => True := by
  induction delays with
  | nil =>
    refine .bind (.attempt (within_ask_answer hc)) fun completed _ => ?_
    split <;> exact .pure trivial
  | cons s delays ih =>
    refine .bind (.attempt (within_ask_answer hc)) fun completed _ => ?_
    split
    · exact .pure trivial
    · exact .bind (.ask (hs s List.mem_cons_self)) fun _ _ =>
        ih fun s hm => hs s (List.mem_cons_of_mem _ hm)

theorem meltPay_within {ids : List Str} {pr : Str} {inv : Invoice} :
    (meltPay cfg ids pr inv).Within ((Task.meltPay ids pr inv).powers cfg) fun _ => True := by
  refine .bind (.orRaise _ _) fun amountMsat hamount => .andFinally ?_ ?_
  · refine .bind (.ask ⟨rfl, by rw [hamount]; rfl⟩) fun paid _ => ?_
    split
    · refine .bind (within_write rfl) fun _ _ => ?_
      split
      · next h hh => exact within_write hh
      · exact .pure trivial
    · split
      · exact .pure trivial
      · next h hh =>
        refine .bind (within_confirmPayment hh fun _ => id) fun completed _ => ?_
        split
        · exact .pure trivial
        · exact within_write rfl
        · exact .bind (within_write rfl) fun _ _ => within_write hh
  · refine .bind (.orRaise _ _) fun h hh => ?_
    exact .perform (.inl ⟨ids, pr, inv, rfl, hh⟩)

theorem reconcilePendingMelts_within :
    reconcilePendingMelts.Within (Task.powers cfg .reconcilePendingMelts) fun _ => True := by
  refine .bind (within_read (Task.looks _)) fun pending _ => ?_
  induction pending with
  | nil => exact .pure trivial
  | cons group pending ih =>
    obtain ⟨h, ids⟩ := group
    refine .bind (.perform trivial) fun inFlight _ => ?_
    split
    · exact ih
    · refine .bind (within_confirmPayment trivial (by simp)) fun completed _ => ?_
      split
      · exact ih
      · refine .bind (within_write trivial) fun _ _ => ?_
        exact .bind (within_write trivial) fun _ _ => ih
      · exact .bind (within_write trivial) fun _ _ => ih

variable (cfg) in
theorem within_settlePolledMints {F : Scope mintSig} (hF : Looks F)
    (hm : ∀ h, SettlesMint d F h) (hf : ∀ h, SettlesFee F h) :
    (settlePolledMints cfg).Within F fun _ => True := by
  refine .bind (.perform hF.now) fun t _ => .bind (within_read hF) fun mints _ => ?_
  refine .bind (within_forEach fun h => ?_) fun _ _ => .bind (within_read hF) fun fees _ => ?_
  · exact .bind (within_mintSettled hF (hm h)) fun _ _ => .pure trivial
  · exact within_forEach fun h =>
      .bind (within_addressFeeSettled hF (hf h)) fun _ _ => .pure trivial

theorem publishZapReceipts_within :
    (publishZapReceipts cfg).Within (Task.powers cfg .publishZapReceipts) fun _ => True := by
  refine .bind (within_settlePolledMints cfg (Task.looks _) (fun _ => ⟨trivial, trivial⟩)
    fun _ => ⟨trivial, trivial⟩) fun _ _ => .bind (.orRaise _ _) fun secret hsecret => ?_
  have hkey : cfg.nostrKey.isSome = true := by rw [hsecret]; rfl
  refine .bind (within_read (Task.looks _)) fun zaps _ => within_forEach fun zap => ?_
  refine .bind (.ofExcept _) fun request _ => .bind (within_mintPreimage hkey) fun preimage _ => ?_
  refine .bind (.perform trivial) fun t _ => .bind (.orRaise _ _) fun receipt _ => ?_
  refine .bind (.orRaise _ _) fun tags _ => .bind (.ask hkey) fun accepted _ => ?_
  split
  · exact within_write trivial
  · exact .pure trivial

end Handlers

/-! ## Every run -/

theorem route_within (r : Request) :
    (route cfg r).Within ((Task.request r).powers cfg) fun _ => True := by
  obtain ⟨baseUrl, endpoint⟩ := r
  cases endpoint with
  | registerUsername => exact registerUsername_within
  | updateRegisteredUsername => exact updateRegisteredUsername_within
  | deleteRegisteredUsername => exact deleteRegisteredUsername_within
  | getNip05 => exact getNip05_within (Task.looks _)
  | getLnaddress => exact getLnaddress_within
  | getPayCallback => exact getPayCallback_within
  | getPayCallbackForUsername => exact getPayCallbackForUsername_within
  | verifyInvoice => exact verifyInvoice_within
  | getWithdraw => exact getWithdraw_within
  | getWithdrawCallback => exact getWithdrawCallback_within

theorem safely_within {F : Scope mintSig} {p : Mint Unit} (h : p.Within F fun _ => True) :
    (safely p).Within F fun _ => True :=
  h.thenE (fun _ _ => trivial) fun _ => trivial

/-- The program of every task stays within the task's powers. -/
theorem body_within (t : Task) : (body cfg t).Within (t.powers cfg) fun _ => True := by
  cases t with
  | request r =>
    refine .tryCatch (route_within cfg r) fun e => ?_
    cases e with
    | http detail => exact .pure trivial
    | _ => exact .bind (within_logInternalError (Task.looks _)) fun _ _ => .pure trivial
  | meltPay => exact safely_within meltPay_within
  | reconcilePendingMelts => exact safely_within reconcilePendingMelts_within
  | settlePolledMints =>
    exact safely_within (within_settlePolledMints cfg (Task.looks _) (fun _ => ⟨trivial, trivial⟩)
      fun _ => ⟨trivial, trivial⟩)
  | publishZapReceipts => exact safely_within publishZapReceipts_within

/-- **In every run, every task stays within its powers.** -/
theorem task_powers {s : State} {c : Config (mint cfg)} (h : Reach s c) {e : Event (mint cfg)}
    (he : e ∈ c.w.hist) : e.Within (Task.powers cfg) :=
  h.within (body_within cfg) he

/-- A note is minted and melted, and its payment is begun. -/
def payingRun : List (Choice standInMint) :=
  standInMints 0 "h".toList (standInKey '1') ++ standInMelts 5 (standInKey '1') "p".toList ++
    [.wake 20] ++ standInGoes 1 1

/-- Whether the event calls for a payment by the payment of a melt. -/
def paysMelt : Event standInMint → Bool
  | .called ⟨_, .meltPay ..⟩ (.payInvoice ..) _ => true
  | _ => false

theorem task_powers_paying : ∃ c : Config standInMint, Reach State.initial c ∧
    ∃ tid noteIds pr, ∃ decoded : Invoice, ∃ feeLimitMsat pre,
      Event.called (S := mintSig) ⟨tid, Task.meltPay noteIds pr decoded⟩
          (Call.payInvoice pr feeLimitMsat) pre ∈ c.w.hist ∧
        decoded.amountMsat.map (meltFeeLimitMsat Settings.standIn) = some feeLimitMsat := by
  have hrun : (standInRun payingRun).any (fun c => c.w.hist.any paysMelt) = true := by
    decide +kernel
  obtain ⟨c, hc, h⟩ := exists_standInRun hrun
  obtain ⟨e, he, hpays⟩ := List.any_eq_true.1 h
  have hwithin := task_powers _ hc he
  unfold paysMelt at hpays
  split at hpays
  · obtain ⟨rfl, hlimit⟩ := hwithin
    exact ⟨c, hc, _, _, _, _, _, _, he, hlimit⟩
  · cases hpays

end LnurlMint
