import LnurlMint.Router.Settle

/-!
# Minting and Lightning Addresses

The payRequest side of the router: registering, moving and freeing a username, the invoices that
mint notes, internal transfers to an address, and the settlement status of an invoice.

A username is looked up by its lower case everywhere. Registration refuses a name that is taken by
a row of `usernames` or by an unpaid, unexpired address fee; everything else about an address is
decided by the share on file at the moment it is used.

## Main definitions

* `registerUsername`, `holdForAddressFee`, `updateRegisteredUsername`, `deleteRegisteredUsername`
* `getNip05`, `getLnaddress`, `getMintAddress`
* `payCallback`, `getPayCallback`, `getPayCallbackForUsername`
* `internalTransfer`
* `verifyInvoice`
-/

namespace LnurlMint

open Interleave

variable {d : Deps} (cfg : Settings d)

/-! ## Names -/

/-- `_known_username`: the mint's own names. -/
def knownUsername (username : Str) : Bool :=
  d.lower username ∈ [d.lower cfg.username, "_".toList, "mint".toList]

/-- `_registered_username_branch`. -/
def registeredUsernameBranch (username : Str) : Mint (Option Str) :=
  if cfg.usernameRegistrationEnabled then read (.usernameBranch (d.lower username))
  else pure none

/-- A character of a registrable username. -/
def usernameChar (c : Char) : Bool :=
  ('a' ≤ c && c ≤ 'z') || ('0' ≤ c && c ≤ '9') || c = '_' || c = '.' || c = '-'

/-- `_USERNAME_PATTERN.match`. Its `$` matches before a final newline too. -/
def usernamePattern (s : Str) : Bool :=
  let body := if s.getLast? = some '\n' then s.dropLast else s
  0 < body.length && body.length ≤ 32 && body.all usernameChar

/-- `_registrable_username`. -/
def registrableUsername (username : Str) : Bool :=
  usernamePattern username && !knownUsername cfg username

variable (d) in
/-- `_address_name`: in lower case, without a `+tag`. -/
def addressName (username : Str) : Str := (d.lower username).takeWhile (· ≠ '+')

/-! ## Registrations -/

variable (d) in
/-- `_proves`. -/
def proves (action : ProofAction) (domain username cx1 : Str) (signerXp : Bytes) (sig : Str) :
    Bool :=
  verifyRegisterSignature d signerXp sig action domain username (d.lower cx1)

/-- A parameter of `_form`: the body's, then the query's, each with its last value. -/
def Form.get (form : Form) (name : Str) : Option Str :=
  (form.body.reverse.lookup name).or (form.query.reverse.lookup name)

/-- `_required`. -/
def required (form : Form) (name : String) : Mint Str :=
  Prog.orRaise (form.get name.toList) (.http s!"Missing {name}.")

/-- The optional `npub` of a registration, in hex. -/
def registeredNpub : Option Str → Mint (Option Str)
  | none => pure none
  | some npub => do
    Prog.raiseIf (cfg.nip05Enabled = false)
      (.http "npub registration (NIP-05) is disabled on this mint.")
    let decoded ← Prog.orRaise (decodeNpub d npub) (.http "Invalid npub.")
    return some (hex decoded)

/-- `_ADDRESS_FEE_EXPIRY_SECONDS`. -/
def addressFeeExpirySeconds : ℕ := 60 * 60

/-- The invoice of an address fee, with its expiry time. -/
def addressFeeInvoice (username host : Str) (feeMsat : ℕ) : Mint (Str × Option Bytes × ℤ) := do
  let memo := "Register ".toList ++ username ++ '@' :: host
  let (pr, preimage) ← createInvoice feeMsat (some memo) none (some addressFeeExpirySeconds)
  match d.decodeInvoice pr with
  | .error _ => throw .other
  | .ok decoded => return (pr, preimage, decoded.expiryTime)

/-- `_hold_for_address_fee`. -/
def holdForAddressFee (baseUrl username : Str) (share : Bytes) (nostrPubkey : Option Str)
    (feeMsat : ℕ) : Mint Response := do
  let taken : Bool ← read (.usernameTaken username)
  Prog.raiseIf (taken = true) (.http "already registered")
  requireFundingSource cfg
  let (_, host) ← Prog.ofExcept (cfg.publicBaseUrlAndHost baseUrl)
  let invoice ← Prog.attempt (addressFeeInvoice (d := d) username host feeMsat)
  match invoice with
  | .error _ => raiseInternal "Error creating invoice"
  | .ok (pr, preimage, expiryTime) => do
    let paymentHash ← paymentHashOf d pr preimage
    valueErrorsAnswered (write (.holdUsername paymentHash pr username (hex share)
      (hex (share.drop 33)) nostrPubkey feeMsat expiryTime))
    return .registered (some pr)

/-- `register_username`. -/
def registerUsername (baseUrl username : Str) (form : Form) : Mint Response := do
  Prog.raiseIf (cfg.usernameRegistrationEnabled = false) (.http "Not found")
  let cx1 ← required form "cx1"
  let sig ← required form "sig"
  let username := d.lower username
  Prog.raiseIf (registrableUsername cfg username = false) (.http "Invalid or reserved username.")
  let share ← Prog.orRaise (decodeCx1 d cx1) (.http "Invalid cx1.")
  let nostrPubkey ← registeredNpub cfg (form.get "npub".toList)
  let domain ← domain cfg baseUrl
  Prog.raiseIf (proves d .register domain username cx1 (share.drop 33) sig = false)
    (.http "Invalid ownership signature.")
  if cfg.addressFee = 0 then do
    valueErrorsAnswered (write (.registerUsername username (hex share) (hex (share.drop 33))
      nostrPubkey))
    return .registered none
  else holdForAddressFee cfg baseUrl username share nostrPubkey cfg.addressFee

/-- `update_registered_username`. -/
def updateRegisteredUsername (baseUrl username : Str) (form : Form) : Mint Response := do
  Prog.raiseIf (cfg.usernameRegistrationEnabled = false) (.http "Not found")
  let cx1 ← required form "cx1"
  let sig ← required form "sig"
  let newsig ← required form "newsig"
  let username := d.lower username
  let branch : Option Str ← read (.usernameBranch username)
  let onFile ← Prog.orRaise branch (.http "unknown user")
  let share ← Prog.orRaise (decodeCx1 d cx1) (.http "Invalid cx1.")
  let onFileXp ← Prog.ofExcept (shareXp onFile)
  let domain ← domain cfg baseUrl
  let xp ← Prog.orRaise onFileXp (.http "Invalid ownership signature.")
  Prog.raiseIf (proves d .update domain username cx1 xp sig = false ∨
      proves d .register domain username cx1 (share.drop 33) newsig = false)
    (.http "Invalid ownership signature.")
  valueErrorsAnswered (write (.updateUsername username (hex share) (hex (share.drop 33))))
  return .registered none

/-- `delete_registered_username`. -/
def deleteRegisteredUsername (baseUrl username : Str) (form : Form) : Mint Response := do
  Prog.raiseIf (cfg.usernameRegistrationEnabled = false) (.http "Not found")
  let sig ← required form "sig"
  let username := d.lower username
  let branch : Option Str ← read (.usernameBranch username)
  let onFile ← Prog.orRaise branch (.http "unknown user")
  let onFileXp ← Prog.ofExcept (shareXp onFile)
  let xp ← Prog.orRaise onFileXp (.http "Invalid ownership signature.")
  let domain ← domain cfg baseUrl
  Prog.raiseIf (proves d .unregister domain username [] xp sig = false)
    (.http "Invalid ownership signature.")
  write (.deleteUsername username)
  return .registered none

/-! ## Looking up a name -/

/-- `get_nip05`. -/
def getNip05 (name : Option Str) : Mint Response := do
  Prog.raiseIf (cfg.nip05Enabled = false) (.http "Not found")
  match name with
  | none => return .nip05 []
  | some name =>
    if cfg.usernameRegistrationEnabled then do
      let pubkey : Option Str ← read (.nostrPubkey (d.lower name))
      return .nip05 (pubkey.toList.map fun pubkey => (name, pubkey))
    else return .nip05 []

/-- `_zaps_offered`: whether a registered name can be zapped. -/
def zapsOffered : Bool :=
  cfg.nostrKey.isSome &&
    (cfg.fundingsourceBackend = some .lnd || cfg.fundingsourceBackend = some .cln)

/-- Whether a name that is not registered is held for an address fee that turns out to be paid. -/
def heldAndPaid (username : Str) : Mint Bool :=
  if cfg.usernameRegistrationEnabled then do
    let held : Option Str ← read (.heldAddressFee username)
    match held with
    | none => return false
    | some paymentHash => do
      let settled ← addressFeeSettled cfg paymentHash
      if settled then do
        let branch ← registeredUsernameBranch cfg username
        return branch.isSome
      else return false
  else pure false

/-- Whether `get_lnaddress` answers for a name. -/
def answersFor (username : Str) : Mint Bool :=
  if knownUsername cfg username then pure true
  else do
    let branch ← registeredUsernameBranch cfg username
    if branch.isSome then return true else heldAndPaid cfg username

/-- `get_lnaddress`. -/
def getLnaddress (baseUrl username : Str) : Mint Response := do
  let username := addressName d username
  let registered ← answersFor cfg username
  Prog.raiseIf (registered = false) (.http "unknown user")
  let (base, host) ← Prog.ofExcept (cfg.publicBaseUrlAndHost baseUrl)
  let known := knownUsername cfg username
  let metadata := [("text/plain", "Mint an lnurlcash bearer note on ".toList ++ host),
      ("text/identifier", username ++ '@' :: host)] ++
    (cfg.mintFeesEntry known).toList.map fun fees => ("text/plain", fees.toList)
  let callback := if known then base ++ "/p/cb".toList else base ++ "/p/".toList ++ username
  let zappable := zapsOffered cfg && !known
  let minSendable ← Prog.orRaise (minSendableMsat cfg) .other
  return .payRequest callback minSendable cfg.maxSendableMsat metadata (base ++ "/w".toList)
    (if known then some 64 else none)
    (if zappable then cfg.nostrKey.map d.nostrPubkeyOf else none)

/-- `get_mint_address`, with `_mint_address_response` as a parameter: what it says of the node and
of the amounts does not depend on the name. -/
def getMintAddress (mintAddressResponse : Str → Mint Response) (username : Str) :
    Mint Response := do
  let username := addressName d username
  if knownUsername cfg username then mintAddressResponse cfg.username
  else do
    let branch ← registeredUsernameBranch cfg username
    Prog.raiseIf (branch = none) (.http "unknown user")
    mintAddressResponse username

/-! ## Minting -/

/-- The note an invoice is to credit: none named for a username, whose share is asked once the
invoice settles, and for the mint's own name the one in the comment. -/
def mintedNote (comment username : Option Str) : Mint (Option Str) :=
  match username with
  | some _ => pure none
  | none => do
    let noteId ← Prog.orRaise (comment.bind (Spend.decodeNote d))
      (.http ("Missing or malformed comment: a cp1<Q>, or a bearer note's hex-encoded " ++
        "32-byte hash, is required to mint."))
    return some noteId

/-- The amount checks of `_pay_callback`. -/
def checkAmount (amount : ℤ) : Mint Unit := do
  Prog.raiseIf (amount < cfg.minSendableMsat) (.http "Amount too low.")
  Prog.raiseIf (cfg.maxSendableMsat < amount) (.http "Amount too high.")
  Prog.raiseIf (amount - mintFeeMsat cfg amount < cfg.minMintMsat)
    (.http s!"Amount too low to mint a note (min {cfg.minMintMsat} msat net of fees).")

/-- The zap checks of `_pay_callback`. -/
def checkZap (amount : ℤ) (nostr username : Option Str) : Mint Unit :=
  match nostr with
  | none => pure ()
  | some request => do
    Prog.raiseIf (zapsOffered cfg = false ∨ username = none)
      (.http "Zaps are not offered for this address.")
    match ← Prog.ofExcept (Nostr.validateZapRequest d request amount) with
    | .error problem => throw (.http problem)
    | .ok _ => return ()

/-- `_pay_callback`. -/
def payCallback (baseUrl : Str) (amount : ℤ) (comment nostr username : Option Str) :
    Mint Response := do
  Prog.raiseIf (cfg.sunsetMint = true) (.http "This mint is sunsetting - minting is disabled.")
  checkAmount cfg amount
  checkZap cfg amount nostr username
  let noteId ← mintedNote (d := d) comment username
  requireFundingSource cfg
  let invoice ← Prog.attempt (createInvoice amount none nostr none)
  match invoice with
  | .error _ => raiseInternal "Error creating invoice"
  | .ok (pr, preimage) => do
    let paymentHash ← paymentHashOf d pr preimage
    valueErrorsAnswered (write (.createMint paymentHash pr (amount - mintFeeMsat cfg amount) noteId
      nostr username))
    let base ← Prog.ofExcept (cfg.publicBaseUrl baseUrl)
    return .payAction pr
      (if cfg.verifyEnabled then some (base ++ "/verify/".toList ++ paymentHash) else none)

/-- `get_pay_callback`. -/
def getPayCallback (baseUrl : Str) (amount : ℤ) (comment nostr : Option Str) : Mint Response :=
  payCallback cfg baseUrl amount comment nostr none

/-- `_internal_transfer`. -/
def internalTransfer (username : Str) (amount : ℤ) (k1 : Str) : Mint Response := do
  let minSendable ← Prog.orRaise (minSendableMsat cfg) .other
  Prog.raiseIf (amount < minSendable ∨ cfg.maxSendableMsat < amount)
    (.http "Amount outside what this address accepts.")
  let note ← rejectionsAnswered id (verifiedNote cfg k1)
  let burn : Option (Str × Option Str × ℤ × Option ℤ) ← read (.findBurn [note.noteId])
  let recipient : Option Str ← read (.burnRecipient [note.noteId])
  if (burn.any fun b => b.2.2.1 = amount) ∧ recipient = some username then return .transferred
  else do
    Prog.raiseIf (note.spent = true) (.http "already in use")
    Prog.raiseIf (note.pending = true) (.http "pending")
    Prog.raiseIf (amount ≠ note.amountMsat)
      (.http s!"amount must be the note's full value, {note.amountMsat} msat - split it first.")
    let credited ← Prog.attempt
      (write (.transferToUsername [note.noteId] username amount (shareNoteId d)))
    match credited with
    | .ok _ => return .transferred
    | .error (.value message) => throw (.http message)
    | .error (.collision _) => throw (.http "already in use")
    | .error .pendingNote => throw (.http "pending")
    | .error e => throw e

/-- `get_pay_callback_for_username`. -/
def getPayCallbackForUsername (baseUrl username : Str) (amount : ℤ)
    (comment nostr k1 : Option Str) : Mint Response := do
  let username := addressName d username
  let branch ← registeredUsernameBranch cfg username
  Prog.raiseIf (branch = none ∨ knownUsername cfg username = true) (.http "unknown user")
  match k1 with
  | some k1 => internalTransfer cfg username amount k1
  | none => do
    -- `bytes.fromhex(branch_hex)`, of which only the success matters
    let _ ← Prog.orRaise (branch.bind fromhex)
      (.value "non-hexadecimal number found in fromhex() arg")
    payCallback cfg baseUrl amount comment nostr (some username)

/-! ## Settlement status -/

/-- `_verify_response`. -/
def verifyResponse (pr : Str) (isSettled : Mint Bool) (preimageOf : Mint (Option Str)) :
    Mint Response := do
  let settled ← isSettled
  if settled then do
    let preimage ← preimageOf
    return .verified true preimage pr
  else return .verified false none pr

/-- `verify_invoice`. -/
def verifyInvoice (paymentHash : Str) : Mint Response := do
  Prog.raiseIf (cfg.verifyEnabled = false) (.http "Not found")
  let mintPr : Option Str ← read (.mintPr paymentHash)
  match mintPr with
  | some pr => do
    let usesComment : Bool ← read (.mintUsesComment paymentHash)
    Prog.raiseIf (usesComment = false) (.http "Not found")
    verifyResponse pr (mintSettled cfg paymentHash) (mintPreimage cfg paymentHash)
  | none => do
    let fee : Option (Str × Str × ℤ × ℤ × Bool) ← read (.addressFee paymentHash)
    match fee with
    | some (pr, _) =>
      verifyResponse pr (addressFeeSettled cfg paymentHash) (mintPreimage cfg paymentHash)
    | none => do
      let meltPr : Option Str ← read (.meltPr paymentHash)
      match meltPr with
      | some pr => verifyResponse pr (meltSettled cfg paymentHash) (meltPreimage cfg paymentHash)
      | none => throw (.http "Not found")

end LnurlMint
