import LnurlMint.PaymentScan
import LnurlMint.Lib.Machine
import LnurlMint.Lib.Recency

/-!
# The spark backend

A spark wallet is driven by an SDK that is part of the process. So this backend has a state of its
own beside the store's: the one SDK, built when it is first needed, under a lock; the payment hashes
that are known first-hand never to have been sent; and the key that notes are signed with. All of it
is gone when the process dies, and what the wallet itself knows is asked for, call by call.

A function of the backend is a program, as a handler of the router is one, and gives way wherever
the SDK is awaited. It also gives way for the lock: what comes after may only go on if the lock is
free by then. A scan of the payments has no end if every page is full; it is followed for so many
pages, and goes no further then.

## Main definitions

* `SdkPayment`, `SparkCall` — what the SDK is asked, and what it says
* `SparkOp`, `SparkTask`, `sparkSig`, `SparkState`
* `sdk`, `payInvoiceSpark`, `isPaymentCompleteSpark` and the other functions of the backend
* `spark` — the machine
-/

namespace LnurlMint

open Interleave

/-! ## What the backend rests on -/

/-- The packages that only this backend uses. -/
structure SparkDeps where
  /-- `str(uuid.uuid5(uuid.NAMESPACE_URL, name))`. -/
  uuid5 : Str → Str
  /-- `unicodedata.normalize("NFKD", text)`. -/
  normalizeNfkd : Str → Str
  /-- `hashlib.pbkdf2_hmac("sha512", password, salt, rounds, dklen)`. -/
  pbkdf2HmacSha512 : (password salt : Bytes) → (rounds dklen : ℕ) → Bytes
  /-- `PrivateKey(key).public_key.format(compressed=True)`. -/
  publicKeyOf : Bytes → Bytes
  /-- `PrivateKey(key).sign_recoverable(digest, hasher=None)`. -/
  signRecoverable : (key digest : Bytes) → Bytes

/-- The part of the funding source's configuration that this backend reads. -/
structure SparkSettings where
  /-- `_HAS_SPARK_SDK`. -/
  hasSparkSdk : Bool
  mnemonic : Option Str
  storageDir : Option Str
  network : Str
  apiKey : Option Str
  syncIntervalSecs : ℕ
  accountNumber : Option ℕ

/-- What an SDK is built from. -/
structure SdkConfig where
  mainnet : Bool
  apiKey : Option Str
  syncIntervalSecs : ℕ
  realTimeSyncServerUrl : Option Str
  mnemonic : Str
  storageDir : Str
  accountNumber : Option ℕ
deriving DecidableEq

/-- What an SDK call raises: an `SdkError`, with whether it is the variant for insufficient funds
and its text, or anything else. -/
inductive SdkExn
  | sdkError (insufficientFunds : Bool) (text : Str)
  | other
deriving DecidableEq

/-- What a function of the backend raises. -/
inductive SparkExn
  | paymentFailed (text : Str)
  | valueError (text : Str)
  | sdk (e : SdkExn)
deriving DecidableEq

/-- The HTLC of a Lightning payment. -/
structure SdkHtlc where
  paymentHash : Str
  preimage : Option Str
deriving DecidableEq

/-- A payment, as the SDK returns it. Of its details, only those of a Lightning payment are read. -/
structure SdkPayment where
  id : Str
  status : PaymentStatus
  fees : ℕ
  details : Option (Option (Option SdkHtlc))
deriving DecidableEq

namespace SdkPayment

/-- `_lightning_htlc`: details that are there, of a Lightning payment, with an HTLC. -/
def lightningHtlc (p : SdkPayment) : Option SdkHtlc := p.details.join.join

/-- The row that a scan looks at. -/
def row (p : SdkPayment) : SparkPayment where
  status := p.status
  details := p.details.map fun details => match details with
    | some htlc => .lightning (htlc.map fun htlc => ⟨htlc.paymentHash⟩)
    | none => .other

theorem lightningHtlc_row (p : SdkPayment) :
    LnurlMint.lightningHtlc p.row = p.lightningHtlc.map fun htlc => ⟨htlc.paymentHash⟩ := by
  obtain ⟨id, status, fees, _ | _ | _ | htlc⟩ := p <;> rfl

end SdkPayment

/-- The `payment_method` that a payment is prepared for. -/
inductive SendMethod
  | bolt11Invoice (lightningFeeSats : Option ℕ)
  | other (repr : Str)
deriving DecidableEq

/-- What `prepare_send_payment` returns: the method, and what else the SDK put in it. -/
structure SdkPrepared where
  paymentMethod : SendMethod
  rest : Str
deriving DecidableEq

/-! ## Effects -/

/-- A call that is awaited; all but the first are made to the SDK. -/
inductive SparkCall
  /-- Until it is this program's turn with `_sdk_build_lock`. -/
  | awaitLock
  | withDefaultStorage (storageDir : Str)
  | withAccountNumber (accountNumber : ℕ)
  | build (config : SdkConfig)
  | disconnect (sdk : ℕ)
  /-- `receive_payment` of a BOLT-11 invoice. -/
  | receivePayment (sdk : ℕ) (description : Str) (amountSats : ℤ) (expirySecs : Option ℕ)
  | prepareSendPayment (sdk : ℕ) (invoice : Str)
  | sendPayment (sdk : ℕ) (prepared : SdkPrepared) (preferSpark : Bool)
      (completionTimeoutSecs : ℕ) (idempotencyKey : Option Str)
  | listPayments (sdk : ℕ) (typeFilter : PaymentType) (limit offset : ℕ)
  | getUserSettings (sdk : ℕ)
  | syncWallet (sdk : ℕ)
  /-- `get_info`, of which `identity_pubkey` is read. -/
  | getInfo (sdk : ℕ)
deriving DecidableEq

/-- What a call is answered with. An SDK is known by a number. -/
@[reducible] def SparkCall.Ans : SparkCall → Type
  | awaitLock => Unit
  | withDefaultStorage _ | withAccountNumber _ | disconnect _ => Except SdkExn Unit
  | build _ => Except SdkExn ℕ
  | receivePayment .. => Except SdkExn Str
  | prepareSendPayment .. => Except SdkExn SdkPrepared
  | sendPayment .. => Except SdkExn SdkPayment
  | listPayments .. => Except SdkExn (List SdkPayment)
  | getUserSettings _ | syncWallet _ => Except SdkExn Unit
  | getInfo _ => Except SdkExn Str

/-- An atomic operation. -/
inductive SparkOp
  /-- `_sdk_singleton`. -/
  | sdkSingleton
  | setSdkSingleton (sdk : Option ℕ)
  /-- `_sdk_build_lock` is taken. -/
  | acquire
  /-- `_sdk_build_lock` is given back. -/
  | release
  /-- `_mark_prepare_rejected`. -/
  | markPrepareRejected (paymentHash : Str)
  /-- `payment_hash in _prepare_rejected`. -/
  | prepareRejected (paymentHash : Str)
  /-- `_signing_keys.get(mnemonic)`. -/
  | signingKey (mnemonic : Str)
  | cacheSigningKey (mnemonic : Str) (key : Bytes × Str)
  /-- What a scan comes to that was followed for long enough. -/
  | endless
deriving DecidableEq

/-- What an operation returns. -/
@[reducible] def SparkOp.Out : SparkOp → Type
  | sdkSingleton => Option ℕ
  | prepareRejected _ => Bool
  | signingKey _ => Option (Bytes × Str)
  | setSdkSingleton _ | acquire | release | markPrepareRejected _ | cacheSigningKey .. => Unit
  | endless => Empty

/-- What `dispatch` is asked for, and the shutdown. -/
inductive SparkTask
  | createInvoice (amountMsat : ℤ) (memo : Str) (descriptionForHash : Option Str)
      (expirySecs : Option ℕ)
  | payInvoice (invoice : Str) (feeLimitMsat : ℤ)
  | isPaymentComplete (paymentHash : Str)
  | invoicePreimage (paymentHash : Str)
  | paymentPreimage (paymentHash : Str)
  | signMessage (message : Str)
  | isInvoiceSettled (paymentHash : Str)
  | fetchNodeInfo
  | shutdown
deriving DecidableEq

/-- What a task returns. -/
inductive SparkRes
  | invoice (pr : Str)
  /-- `PaymentResult`. -/
  | paid (preimage : Bytes) (feeMsat : ℤ)
  | answer (yes : Bool)
  | preimage (preimage : Option Bytes)
  | signature (sig : Bytes) (recid : ℕ)
  /-- `NodeInfo`, of which only the URI varies. -/
  | nodeInfo (uri : Str)
  | nothing
deriving DecidableEq

/-- The effects of the backend's programs. -/
abbrev sparkSig : Sig where
  Op := SparkOp
  Out := SparkOp.Out
  Call := SparkCall
  Ans := SparkCall.Ans
  Task := SparkTask

/-- A program of the backend. -/
abbrev SparkProg := Prog sparkSig SparkExn

/-- The globals of the module. -/
structure SparkState where
  sdkSingleton : Option ℕ
  /-- Whether `_sdk_build_lock` is taken. -/
  locked : Bool
  /-- The keys of `_prepare_rejected`, the last first. -/
  prepareRejected : List Str
  signingKeys : Str → Option (Bytes × Str)

/-- The globals of a process that was just started. -/
def SparkState.initial : SparkState where
  sdkSingleton := none
  locked := false
  prepareRejected := []
  signingKeys := fun _ => none

/-- `_PREPARE_REJECTED_MAX`. -/
def prepareRejectedMax : ℕ := 1024

/-- Do an operation. Nobody takes a lock that is taken. -/
def sparkExec (o : SparkOp) (s : SparkState) : Option (o.Out × SparkState) :=
  match o with
  | .sdkSingleton => some (s.sdkSingleton, s)
  | .setSdkSingleton sdk => some ((), { s with sdkSingleton := sdk })
  | .acquire => if s.locked then none else some ((), { s with locked := true })
  | .release => some ((), { s with locked := false })
  | .markPrepareRejected h =>
    some ((), { s with prepareRejected := Recency.touch prepareRejectedMax h s.prepareRejected })
  | .prepareRejected h => some (decide (h ∈ s.prepareRejected), s)
  | .signingKey mnemonic => some (s.signingKeys mnemonic, s)
  | .cacheSigningKey mnemonic key =>
    some ((), { s with signingKeys := Function.update s.signingKeys mnemonic (some key) })
  | .endless => none

namespace Spark

/-- Do one operation. -/
abbrev perform (o : SparkOp) : SparkProg o.Out := @Prog.perform sparkSig SparkExn o

/-- Make one call. -/
abbrev ask (c : SparkCall) : SparkProg c.Ans := @Prog.ask sparkSig SparkExn c

/-- What an SDK call returns or raises. -/
def returned {α : Type} (ans : Except SdkExn α) : SparkProg α := Prog.ofExcept (ans.mapError .sdk)

/-- A `ValueError` with this text. -/
def valueError (text : String) : SparkExn := .valueError text.toList

section Functions

variable (d : Deps) (sd : SparkDeps) (cfg : SparkSettings)

/-! ## The SDK -/

/-- `_build_sdk`. -/
def buildSdk : SparkProg ℕ := do
  Prog.raiseIf (cfg.hasSparkSdk = false) (valueError <|
    "The spark backend requires the breez-sdk-spark package - " ++
      "install it with `uv sync --extra spark`.")
  let mnemonic ← Prog.orRaise (cfg.mnemonic.filter (· ≠ [])) (valueError "Mnemonic is required.")
  let storageDir ←
    Prog.orRaise (cfg.storageDir.filter (· ≠ [])) (valueError "Storage dir is required.")
  returned (← ask (.withDefaultStorage storageDir))
  match cfg.accountNumber with
  | some accountNumber => returned (← ask (.withAccountNumber accountNumber))
  | none => pure ()
  returned (← ask (.build {
    mainnet := decide (cfg.network = "mainnet".toList)
    apiKey := cfg.apiKey.filter (· ≠ [])
    syncIntervalSecs := cfg.syncIntervalSecs
    realTimeSyncServerUrl := none
    mnemonic, storageDir, accountNumber := cfg.accountNumber }))

/-- What `_sdk` does under the lock. -/
def buildUnderLock : SparkProg Unit := do
  let singleton : Option ℕ ← perform .sdkSingleton
  match singleton with
  | some _ => return ()
  | none => do
    let sdk ← buildSdk cfg
    perform (.setSdkSingleton (some sdk))

/-- `_sdk`. -/
def sdk : SparkProg ℕ := do
  let singleton : Option ℕ ← perform .sdkSingleton
  match singleton with
  | some sdk => return sdk
  | none => do
    ask .awaitLock
    perform .acquire
    Prog.andFinally (buildUnderLock cfg) (perform .release)
    let singleton : Option ℕ ← perform .sdkSingleton
    Prog.orRaise singleton (.sdk .other)

/-- `shutdown`. Whatever `disconnect` raises is logged. -/
def shutdown : SparkProg Unit := do
  let singleton : Option ℕ ← perform .sdkSingleton
  match singleton with
  | none => return ()
  | some sdk => do
    let _ : Except SdkExn Unit ← ask (.disconnect sdk)
    perform (.setSdkSingleton none)

/-! ## Receiving -/

/-- `_create_invoice_spark`. -/
def createInvoiceSpark (amountMsat : ℤ) (memo : Str) (descriptionForHash : Option Str)
    (expirySecs : Option ℕ) : SparkProg Str := do
  Prog.raiseIf (amountMsat % 1000 ≠ 0)
    (valueError "The spark backend can only mint sat-aligned amounts.")
  Prog.raiseIf (descriptionForHash ≠ none)
    (valueError "The spark backend cannot commit an invoice to a description hash.")
  let sdk ← sdk cfg
  let paymentRequest ←
    returned (← ask (.receivePayment sdk memo (amountMsat / 1000) expirySecs))
  Prog.raiseIf (paymentRequest = []) (valueError "The spark SDK did not return an invoice.")
  return paymentRequest

/-- Whether a payment names this hash. -/
def names (paymentHash : Str) (payment : SdkPayment) : Bool :=
  payment.lightningHtlc.map SdkHtlc.paymentHash = some paymentHash

/-- `_payments_by_hash` from an offset on, with what has matched so far, for so many pages. -/
def paymentsByHash (sdk : ℕ) (paymentHash : Str) (paymentType : PaymentType) :
    (pages offset : ℕ) → List SdkPayment → SparkProg (List SdkPayment)
  | 0, _, _ => do
    let never : Empty ← perform .endless
    never.elim
  | pages + 1, offset, rows => do
    let page ← returned (← ask (.listPayments sdk paymentType paymentScanPage offset))
    let rows := rows ++ page.filter (names paymentHash)
    if page.length < paymentScanPage then return rows
    else paymentsByHash sdk paymentHash paymentType pages (offset + paymentScanPage) rows

variable (pages : ℕ)

/-- `_is_invoice_settled_spark`. -/
def isInvoiceSettledSpark (paymentHash : Str) : SparkProg Bool := do
  let sdk ← sdk cfg
  let payments ← paymentsByHash sdk paymentHash .receive pages 0 []
  return payments.any fun p => p.status = .completed

/-- The loop of `_invoice_preimage_spark` and `_payment_preimage_spark`: the preimage of the first
completed payment that has one. -/
def firstPreimage : List SdkPayment → Except SparkExn (Option Bytes)
  | [] => .ok none
  | payment :: payments =>
    if payment.status ≠ .completed then firstPreimage payments
    else match (payment.lightningHtlc.bind SdkHtlc.preimage).filter (· ≠ []) with
      | none => firstPreimage payments
      | some preimage => match fromhex preimage with
        | some preimage => .ok (some preimage)
        | none => .error (.sdk .other)

/-- `_invoice_preimage_spark`. -/
def invoicePreimageSpark (paymentHash : Str) : SparkProg (Option Bytes) := do
  let sdk ← sdk cfg
  let payments ← paymentsByHash sdk paymentHash .receive pages 0 []
  Prog.ofExcept (firstPreimage payments)

/-- `_payment_preimage_spark`. -/
def paymentPreimageSpark (paymentHash : Str) : SparkProg (Option Bytes) := do
  let sdk ← sdk cfg
  let payments ← paymentsByHash sdk paymentHash .send pages 0 []
  Prog.ofExcept (firstPreimage payments)

/-! ## Paying -/

/-- `_SEND_COMPLETION_TIMEOUT_SECS`. -/
def sendCompletionTimeoutSecs : ℕ := 60

/-- `_melt_idempotency_key`. -/
def meltIdempotencyKey (invoice : Str) : Option Str :=
  (invoiceHash d invoice).map fun h => sd.uuid5 ("lnurl-mint:melt:".toList ++ h)

/-- `_is_pre_transfer_insufficient_funds`. -/
def isPreTransferInsufficientFunds (insufficientFunds : Bool) (text : Str) : Bool :=
  insufficientFunds || (decide ("tree service".toList <:+: d.lower text) &&
    decide ("insufficient funds".toList <:+: d.lower text))

/-- `_mark_prepare_rejected` of the invoice's payment hash, if it has one. -/
def markInvoiceRejected (invoice : Str) : SparkProg Unit :=
  match invoiceHash d invoice with
  | some h => perform (.markPrepareRejected h)
  | none => return ()

/-- `_verify_preimage`. -/
def verifyPreimage (preimage : Bytes) (invoice : Str) : Except SparkExn Unit :=
  match d.decodeInvoice invoice with
  | .error _ => .error (.sdk .other)
  | .ok decoded =>
    if decoded.paymentHash ≠ none ∧ some (hex (d.sha256 preimage)) ≠ decoded.paymentHash then
      .error (valueError "Returned preimage does not match the invoice's payment hash.")
    else .ok ()

/-- What `_pay_invoice_spark` makes of the payment that was sent. -/
def paymentOutcome (invoice : Str) (payment : SdkPayment) : Except SparkExn (Bytes × ℤ) :=
  match payment.status with
  | .completed =>
    match (payment.lightningHtlc.bind SdkHtlc.preimage).filter (· ≠ []) with
    | none => .error (valueError "spark completed the payment without its preimage.")
    | some preimageHex =>
      match fromhex preimageHex with
      | none => .error (.sdk .other)
      | some preimage =>
        (verifyPreimage d preimage invoice).map fun _ => (preimage, (payment.fees : ℤ) * 1000)
  | .failed =>
    .error (.paymentFailed ("spark payment failed (".toList ++ payment.id ++ ").".toList))
  | .pending =>
    .error (valueError "spark reports the payment still pending - not a terminal outcome.")

/-- What `_pay_invoice_spark` does with a quote. -/
def sendPrepared (invoice : Str) (feeLimitMsat : ℤ) (sdk : ℕ) (prepared : SdkPrepared) :
    SparkProg (Bytes × ℤ) := do
  let lightningFeeSats ← match prepared.paymentMethod with
    | .bolt11Invoice lightningFeeSats => pure lightningFeeSats
    | .other repr => throw (.valueError
        ("spark resolved the invoice to an unexpected payment method: ".toList ++ repr))
  let feeSats : ℕ := lightningFeeSats.getD 0
  if feeLimitMsat < feeSats * 1000 then do
    markInvoiceRejected d invoice
    throw (.paymentFailed ("spark fee quote of ".toList ++ decimal feeSats ++
      " sats exceeds the ".toList ++ decimal feeLimitMsat ++ " msat budget for this melt.".toList))
  else do
    let sent : Except SdkExn SdkPayment ← ask (.sendPayment sdk prepared false
      sendCompletionTimeoutSecs (meltIdempotencyKey d sd invoice))
    match sent with
    | .error (.sdkError insufficientFunds text) =>
      if isPreTransferInsufficientFunds d insufficientFunds text then do
        markInvoiceRejected d invoice
        throw (.paymentFailed ("spark wallet has insufficient funds: ".toList ++ text))
      else throw (.paymentFailed ("spark payment attempt failed: ".toList ++ text))
    | .error .other => throw (.sdk .other)
    | .ok payment => Prog.ofExcept (paymentOutcome d invoice payment)

/-- `_pay_invoice_spark`. -/
def payInvoiceSpark (invoice : Str) (feeLimitMsat : ℤ) : SparkProg (Bytes × ℤ) := do
  let decoded ← match d.decodeInvoice invoice with
    | .ok decoded => pure decoded
    | .error e => throw (.paymentFailed ("spark could not decode the invoice: ".toList ++ e.toList))
  if decoded.amountMsat.all fun amountMsat => amountMsat % 1000 ≠ 0 then do
    markInvoiceRejected d invoice
    throw (.paymentFailed "The spark backend can only pay sat-aligned invoices.".toList)
  else do
    let sdk ← sdk cfg
    let prepared : Except SdkExn SdkPrepared ← ask (.prepareSendPayment sdk invoice)
    match prepared with
    | .error (.sdkError _ text) => do
      markInvoiceRejected d invoice
      throw (.paymentFailed ("spark could not prepare the payment: ".toList ++ text))
    | .error .other => throw (.sdk .other)
    | .ok prepared => sendPrepared d sd invoice feeLimitMsat sdk prepared

/-! ## What became of a payment -/

/-- `_remote_probe`. -/
def remoteProbe (sdk : ℕ) : SparkProg Unit := do
  returned (← ask (.getUserSettings sdk))
  let _ ← returned (← ask
    (.receivePayment sdk "lnurl-mint connectivity probe".toList 1 none))

/-- The rows of a payment that had none, after every chance to appear. -/
def paymentsAfterSync (sdk : ℕ) (paymentHash : Str) : SparkProg (List SdkPayment) := do
  remoteProbe sdk
  returned (← ask (.syncWallet sdk))
  remoteProbe sdk
  paymentsByHash sdk paymentHash .send pages 0 []

/-- The text of the error that the tests on these rows end with, where they do. -/
def rowsError (rows : List SparkPayment) : String :=
  if rows = [] then "spark has no record of this payment and no same-process proof it was never " ++
    "sent - not a terminal outcome."
  else "spark reports the payment still pending - not a terminal outcome."

/-- The tests at the end of `_is_payment_complete_spark`. -/
def paymentsVerdict (payments : List SdkPayment) : Except SparkExn Bool :=
  let rows := payments.map SdkPayment.row
  (rowsVerdict rows).mapError fun _ => valueError (rowsError rows)

/-- `_is_payment_complete_spark`. The registry is only looked at where there is no row. -/
def isPaymentCompleteSpark (paymentHash : Str) : SparkProg Bool := do
  let sdk ← sdk cfg
  let payments ← paymentsByHash sdk paymentHash .send pages 0 []
  if payments = [] then do
    let rejected : Bool ← perform (.prepareRejected paymentHash)
    if rejected then return false
    else do
      let payments ← paymentsAfterSync pages sdk paymentHash
      Prog.ofExcept (paymentsVerdict payments)
  else Prog.ofExcept (paymentsVerdict payments)

/-- `_fetch_node_info_spark`. -/
def fetchNodeInfoSpark : SparkProg Str := do
  let sdk ← sdk cfg
  remoteProbe sdk
  returned (← ask (.getInfo sdk))

/-! ## Signing -/

/-- `_bip39_seed`. -/
def bip39Seed (mnemonic : Str) : Bytes :=
  sd.pbkdf2HmacSha512 (utf8 (sd.normalizeNfkd mnemonic))
    (utf8 (sd.normalizeNfkd "mnemonic".toList)) 2048 64

/-- `_bip32_hardened_child`. -/
def bip32HardenedChild (key chainCode : Bytes) (index : ℕ) : Except SparkExn (Bytes × Bytes) :=
  let digest := d.hmacSha512 chainCode (0 :: key ++ toBigEndian 4 index)
  let tweak := fromBigEndian (digest.take 32)
  let child := (fromBigEndian key + tweak) % curveOrder
  if curveOrder ≤ tweak ∨ child = 0 then
    .error (valueError "invalid BIP32 child (improbable index)")
  else .ok (toBigEndian 32 child, digest.drop 32)

/-- `_LUD25_SIGNING_PATH`. -/
def lud25SigningPath : List ℕ := [25 + hardened, 0 + hardened, 0 + hardened]

/-- The key and the public key that `_lud25_signing_key` derives. -/
def lud25DeriveKey (mnemonic : Str) : Except SparkExn (Bytes × Str) := do
  let master := d.hmacSha512 (utf8 "Bitcoin seed".toList) (bip39Seed sd mnemonic)
  let (key, _) ← lud25SigningPath.foldlM
    (fun (key, chainCode) index => bip32HardenedChild d key chainCode index)
    (master.take 32, master.drop 32)
  return (key, hex (sd.publicKeyOf key))

/-- `_lud25_signing_key`. -/
def lud25SigningKey : SparkProg (Bytes × Str) := do
  let mnemonic ← Prog.orRaise (cfg.mnemonic.filter (· ≠ [])) (valueError "Mnemonic is required.")
  let mnemonic := strip mnemonic
  let cached : Option (Bytes × Str) ← perform (.signingKey mnemonic)
  match cached with
  | some key => return key
  | none => do
    let key ← Prog.ofExcept (lud25DeriveKey d sd mnemonic)
    perform (.cacheSigningKey mnemonic key)
    return key

/-- `lightning_signed_message_digest`. -/
def lightningSignedMessageDigest (message : Str) : Bytes :=
  d.sha256 (d.sha256 (utf8 "Lightning Signed Message:".toList ++ utf8 message))

/-- `_sign_message_spark`. -/
def signMessageSpark (message : Str) : SparkProg (Bytes × ℕ) := do
  let (key, _) ← lud25SigningKey d sd cfg
  let recoverable := sd.signRecoverable key (lightningSignedMessageDigest d message)
  match recoverable[64]? with
  | some recid => return (recoverable.take 64, recid.toNat)
  | none => throw (.sdk .other)

/-! ## The machine -/

/-- The program of a task. -/
def body : SparkTask → SparkProg SparkRes
  | .createInvoice amountMsat memo descriptionForHash expirySecs => do
    return .invoice (← createInvoiceSpark cfg amountMsat memo descriptionForHash expirySecs)
  | .payInvoice invoice feeLimitMsat => do
    let (preimage, feeMsat) ← payInvoiceSpark d sd cfg invoice feeLimitMsat
    return .paid preimage feeMsat
  | .isPaymentComplete paymentHash => do
    return .answer (← isPaymentCompleteSpark cfg pages paymentHash)
  | .invoicePreimage paymentHash => do
    return .preimage (← invoicePreimageSpark cfg pages paymentHash)
  | .paymentPreimage paymentHash => do
    return .preimage (← paymentPreimageSpark cfg pages paymentHash)
  | .signMessage message => do
    let (sig, recid) ← signMessageSpark d sd cfg message
    return .signature sig recid
  | .isInvoiceSettled paymentHash => do
    return .answer (← isInvoiceSettledSpark cfg pages paymentHash)
  | .fetchNodeInfo => do return .nodeInfo (← fetchNodeInfoSpark cfg)
  | .shutdown => do
    shutdown
    return .nothing

end Functions

end Spark

/-- The backend's module in a process. Nothing moves its globals but its own programs, and nothing
of them is left when the process dies. -/
def spark (d : Deps) (sd : SparkDeps) (cfg : SparkSettings) (pages : ℕ) : Machine sparkSig where
  State := SparkState
  Input := Unit
  Move := Empty
  Err := SparkExn
  Res := SparkRes
  exec o _ s := sparkExec o s
  stir m _ _ := m.elim
  restart _ _ := .initial
  external _ := true
  body := Spark.body d sd cfg pages

/-! ## A backend whose runs evaluate -/

/-- Stand-ins for the packages. -/
def SparkDeps.standIn : SparkDeps where
  uuid5 name := name
  normalizeNfkd text := text
  pbkdf2HmacSha512 password _ _ _ := password
  publicKeyOf key := key
  signRecoverable key digest := key ++ digest

/-- A wallet for tests. -/
def SparkSettings.standIn : SparkSettings where
  hasSparkSdk := true
  mnemonic := some "mnemonic".toList
  storageDir := some "data".toList
  network := "regtest".toList
  apiKey := none
  syncIntervalSecs := 60
  accountNumber := none

/-- The backend on them. -/
abbrev standInSpark : Machine sparkSig := spark .standIn .standIn .standIn 10

/-- A payment with this hash, which is its preimage as well. -/
def sdkPayment (status : PaymentStatus) (paymentHash : Str) : SdkPayment :=
  ⟨"id".toList, status, 1, some (some (some ⟨paymentHash, some paymentHash⟩))⟩

/-- Answers of an SDK that has nothing to complain of but what it is asked to send. -/
def sparkAnswer (sent : Except SdkExn SdkPayment) : (c : SparkCall) → c.Ans
  | .awaitLock => ()
  | .withDefaultStorage _ | .withAccountNumber _ | .disconnect _ => .ok ()
  | .build _ => .ok 1
  | .receivePayment .. => .ok "lnurl".toList
  | .prepareSendPayment .. => .ok ⟨.bolt11Invoice (some 1), []⟩
  | .sendPayment .. => sent
  | .listPayments .. => .ok []
  | .getUserSettings _ | .syncWallet _ => .ok ()
  | .getInfo _ => .ok "identity".toList

/-- A task comes in under this number and goes on by so many effects, and by so many more after
each of its calls is answered. -/
def sparkTurns (tid : ℕ) (task : SparkTask) (sent : Except SdkExn SdkPayment) (turns : List ℕ) :
    List (Choice standInSpark) :=
  [.arrive task, .wake tid] ++ List.flatten (List.intersperse [.answer tid (sparkAnswer sent)]
    (turns.map fun n => List.replicate n (.step ())))

/-- What a schedule leads to from a process that was just started. -/
def sparkRun (schedule : List (Choice standInSpark)) : Option (Config standInSpark) :=
  (Config.start SparkState.initial).play schedule

theorem exists_sparkRun {schedule : List (Choice standInSpark)} {P : Config standInSpark → Bool}
    (h : (sparkRun schedule).any P = true) : ∃ c, Reach SparkState.initial c ∧ P c = true := by
  obtain ⟨c, hc, hp⟩ := (Option.any_eq_true _ _).1 h
  exact ⟨c, Reach.play .start hc, hp⟩

end LnurlMint
