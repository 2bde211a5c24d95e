import LnurlMint.Effects

/-!
# Lookups, settlements and certificates

The part of the router that requests share. A note comes into being lazily: whoever first asks
about it, and hears from the funding source that its invoice is paid, materializes it. So a lookup
may write, and what a `k1` names is settled before it is verified.

## Main definitions

* `mintSettled`, `mintSettledByNoteId`, `addressFeeSettled` — settle if paid
* `verifiedNote` — the note that a `k1` opens
* `certificate` — the mint's signature over a note
* `mintFeeMsat`, `minSendableMsat`, `maxMintableMsat`, `meltFeeLimitMsat` — fees
-/

namespace LnurlMint

open Interleave

/-- A program of the mint. -/
abbrev Mint (α : Type) := Prog mintSig Exn α

/-- Do one operation. -/
abbrev perform (o : Op) : Mint o.Out := @Prog.perform mintSig Exn o

/-- Make one call. -/
abbrev ask (c : Call) : Mint c.Ans := @Prog.ask mintSig Exn c

/-- Put a question to the store. -/
def read (q : Query) : Mint q.Out := perform (.read q)

/-- Run a transaction on the store, raising what it raises. -/
def write (u : Update) : Mint u.Out := do
  let r : Except Exn u.Out ← perform (.write u)
  Prog.ofExcept r

/-- Read the clock. -/
def now : Mint ℤ := perform .now

/-- `log_internal_error`: what the client is told. -/
def logInternalError (context : String) : Mint String := do
  let reference : String ← perform .reference
  return s!"{context} (reference: {reference})."

/-- Answer `e` with the detail of an internal error. -/
def raiseInternal {α : Type} (context : String) : Mint α := do
  let detail ← logInternalError context
  throw (.http detail)

/-- What a call answered, or the exception it raised. -/
def answer {α : Type} : Except Unit α → Mint α
  | .ok a => pure a
  | .error () => throw .other

/-- `create_invoice`. -/
def createInvoice (amountMsat : ℤ) (memo descriptionForHash : Option Str)
    (expirySecs : Option ℕ) : Mint (Str × Option Bytes) :=
  ask (.createInvoice amountMsat memo descriptionForHash expirySecs) >>= answer

/-- `is_invoice_settled`. -/
def isInvoiceSettled (paymentHash : Str) : Mint Bool :=
  ask (.isInvoiceSettled paymentHash) >>= answer

/-- `is_payment_complete`. -/
def isPaymentComplete (paymentHash : Str) : Mint Bool :=
  ask (.isPaymentComplete paymentHash) >>= answer

/-- `except ValueError as exc: raise HTTPException(…, str(exc))`. -/
def valueErrorsAnswered {α : Type} (p : Mint α) : Mint α :=
  tryCatch p fun
    | .value message => throw (.http message)
    | .collision _ => throw (.http "already in use")
    | e => throw e

variable {d : Deps} (cfg : Settings d)

/-- `_funding_source`: refused without one. -/
def requireFundingSource : Mint Unit :=
  Prog.raiseIf (cfg.fundingsourceBackend = none)
    (.http "This mint's funding source is not configured.")

/-! ## Settling -/

variable (d) in
/-- `_created_invoice_payment_hash`. -/
def createdInvoicePaymentHash (pr : Str) : Mint Str :=
  match d.decodeInvoice pr with
  | .error _ => raiseInternal "Error decoding created invoice"
  | .ok decoded =>
    match decoded.paymentHash with
    | none => raiseInternal "Created invoice carries no payment hash"
    | some paymentHash => pure paymentHash

variable (d) in
/-- The payment hash of a created invoice: from the preimage, or off the invoice where the backend
keeps the preimage to itself. -/
def paymentHashOf (pr : Str) : Option Bytes → Mint Str
  | some preimage => pure (hex (d.sha256 preimage))
  | none => createdInvoicePaymentHash d pr

/-- The common end of `_mint_settled_by_note_id` and `_mint_settled`: ask, and settle if paid. -/
def settleMintIfPaid (paymentHash : Str) : Mint Bool :=
  if cfg.fundingsourceBackend = none then pure false
  else do
    let paid ← isInvoiceSettled paymentHash
    if paid then do
      let _ ← write (.settleMint paymentHash (some (shareNoteId d)))
      return true
    else return false

/-- `_mint_settled_by_note_id`. -/
def mintSettledByNoteId (noteId : Str) : Mint Bool := do
  let pending : Option (Str × ℤ) ← read (.pendingMintByNoteId noteId)
  match pending with
  | none => return false
  | some (paymentHash, _) => settleMintIfPaid cfg paymentHash

/-- `_mint_settled`. -/
def mintSettled (paymentHash : Str) : Mint Bool := do
  let settled : Bool ← read (.mintSettled paymentHash)
  if settled then return true
  else do
    let pending : Option ℤ ← read (.pendingMint paymentHash)
    if pending.isNone then return false
    else settleMintIfPaid cfg paymentHash

/-- `_address_fee_settled`. -/
def addressFeeSettled (paymentHash : Str) : Mint Bool := do
  let fee : Option (Str × Str × ℤ × ℤ × Bool) ← read (.addressFee paymentHash)
  match fee with
  | none => return false
  | some (_, _, _, _, paid) =>
    if paid then return true
    else if cfg.fundingsourceBackend = none then return false
    else do
      let paid ← isInvoiceSettled paymentHash
      if paid then do
        let _ ← write (.settleAddressFee paymentHash)
        return true
      else return false

/-- The answer of a preimage lookup: hex, or `none` when there is none or the lookup fails. -/
def preimageHex : Except Unit (Option Bytes) → Option Str
  | .ok (some (b :: preimage)) => some (hex (b :: preimage))
  | _ => none

/-- `_mint_preimage`. -/
def mintPreimage (paymentHash : Str) : Mint (Option Str) :=
  if cfg.fundingsourceBackend = none then pure none
  else do
    let preimage : Except Unit (Option Bytes) ← ask (.invoicePreimage paymentHash)
    return preimageHex preimage

/-- `_melt_settled`. -/
def meltSettled (paymentHash : Str) : Mint Bool := do
  let settled : Bool ← read (.meltSettled paymentHash)
  if settled then return true
  else if cfg.fundingsourceBackend = none then return false
  else tryCatch (isPaymentComplete paymentHash) fun _ => return false

/-- `_melt_preimage`. -/
def meltPreimage (paymentHash : Str) : Mint (Option Str) :=
  if cfg.fundingsourceBackend = none then pure none
  else do
    let preimage : Except Unit (Option Bytes) ← ask (.paymentPreimage paymentHash)
    return preimageHex preimage

/-! ## Notes -/

/-- `_note_amount_by_id`. -/
def noteAmountById (noteId : Str) : Mint (Option ℤ) := do
  let amountMsat : Option ℤ ← read (.noteAmount noteId)
  match amountMsat with
  | some amountMsat => return some amountMsat
  | none => do
    let settled ← mintSettledByNoteId cfg noteId
    if settled then read (.noteAmount noteId) else return none

/-- What a verified `k1` says of its note. -/
structure Verified where
  noteId : Str
  amountMsat : ℤ
  spent : Bool
  pending : Bool

/-- `_verified_note`. -/
def verifiedNote (k1 : Str) : Mint Verified :=
  match Spend.parse d k1 with
  | none => throw (.rejected Spend.invalidK1)
  | some parsed => do
    let _ ← noteAmountById cfg parsed.noteId
    let record : Option (ℤ × ℤ × Bool × Bool) ← read (.noteRecord parsed.noteId)
    match record with
    | none => throw (.rejected Spend.invalidK1)
    | some (amountMsat, lockedAt, spent, pending) => do
      let t ← now
      match Spend.verify d parsed t lockedAt cfg.spendDomains with
      | some reason => throw (.rejected reason)
      | none => return ⟨parsed.noteId, amountMsat, spent, pending⟩

/-- `except _Rejected as exc: raise HTTPException(…, exc.reason)`, with the reason rewritten. -/
def rejectionsAnswered {α : Type} (rewrite : String → String) (p : Mint α) : Mint α :=
  tryCatch p fun
    | .rejected reason => throw (.http (rewrite reason))
    | e => throw e

/-- `_note_by_ref`. -/
def noteByRef (value : Str) : Mint (Option Str) :=
  match Spend.decodeNote d value with
  | none => pure none
  | some noteId => do
    let _ ← noteAmountById cfg noteId
    return some noteId

/-! ## Fees -/

/-- `_mint_fee_msat`: rounded up to a whole sat. -/
def mintFeeMsat (amountMsat : ℤ) : ℤ :=
  let feeMsat := cfg.baseFeeMsat + amountMsat * cfg.feePpm / 1000000
  (-(-feeMsat / 1000)) * 1000

/-- The walk of `_min_sendable_msat`. -/
def minSendableWalk : ℕ → ℤ → Option ℤ
  | 0, _ => none
  | steps + 1, amountMsat =>
    if (cfg.minMintMsat : ℤ) ≤ amountMsat - mintFeeMsat cfg amountMsat then some amountMsat
    else minSendableWalk steps (amountMsat + 1000)

/-- `_min_sendable_msat`, or `none` where it raises. -/
def minSendableMsat : Option ℤ :=
  minSendableWalk cfg 100000 (max cfg.minSendableMsat cfg.minMintMsat)

/-- `max_mintable_msat`. -/
def maxMintableMsat : ℤ := cfg.maxSendableMsat - mintFeeMsat cfg cfg.maxSendableMsat

/-- `_melt_fee_limit_msat`. -/
def meltFeeLimitMsat (amountMsat : ℤ) : ℤ :=
  max (max (d.halfPercent amountMsat) 5000) (mintFeeMsat cfg amountMsat)

/-! ## Certificates -/

/-- What `_domain` returns or raises. It reads a host twice, off the public URL and on its own, and
both readings may raise. -/
def mintDomain (baseUrl : Str) : Except Exn Str := do
  let (_, host) ← cfg.publicBaseUrlAndHost baseUrl
  match ← d.urlHost ("//".toList ++ host) with
  | some (c :: name) => return d.lower (c :: name)
  | _ => return d.lower host

variable {cfg} in
theorem publicBaseUrlAndHost_of_mintDomain {baseUrl dom : Str}
    (h : mintDomain cfg baseUrl = .ok dom) :
    ∃ base host, cfg.publicBaseUrlAndHost baseUrl = .ok (base, host) := by
  cases hb : cfg.publicBaseUrlAndHost baseUrl with
  | ok x => exact ⟨x.1, x.2, rfl⟩
  | error e =>
    rw [mintDomain, hb] at h
    cases h

/-- `_domain`. -/
def domain (baseUrl : Str) : Mint Str := Prog.ofExcept (mintDomain cfg baseUrl)

/-- `sign_note`: signature and recovery id, or `none` where signing is not possible now. -/
def signNote (noteId domain : Str) (amountMsat : ℤ) : Mint (Option Bytes) :=
  if cfg.fundingsourceBackend = none then pure none
  else do
    let signed : Except Unit (Bytes × ℤ) ← ask (.signMessage noteId domain amountMsat)
    match signed with
    | .error _ => return none
    | .ok (rs, recoveryId) => do
      Prog.raiseIf (recoveryId < 0 ∨ 256 ≤ recoveryId) (.value "bytes must be in range(0, 256)")
      return some (rs ++ [UInt8.ofNat recoveryId.toNat])

/-- `_certificate`. -/
def certificate (noteId : Str) (amountMsat : ℤ) (domain : Str) : Mint (Option Str) := do
  let raw ← signNote cfg noteId domain amountMsat
  match raw with
  | none => return none
  | some raw => do
    let c ← Prog.ofExcept (encodeCs1 d amountMsat raw)
    return some c

/-- `mint_pubkey`. -/
def mintPubkey : Mint (Option Str) :=
  match cfg.fundingsourceBackend with
  | none => pure none
  | some .spark => pure (some d.sparkSigningPubkey)
  | some _ => do
    let uri : Except Unit (Option Str) ← ask .fetchNodeInfo
    match uri with
    | .ok (some (c :: uri)) => return some ((c :: uri).takeWhile (· ≠ '@'))
    | _ => return none

end LnurlMint
