import LnurlMint.Keys
import LnurlMint.Nostr
import LnurlMint.Lib.Machine
import Mathlib.Logic.Function.Basic

/-!
# What the mint's programs do

The effects of the router: questions put to the note store, transactions on it, the registry of
melts in flight, clock readings, and the calls that leave the process. A handler is a program over
`mintSig`; a handler gives way exactly where the source awaits something outside.

Calls are answered by the funding source, or by relays, and every one of them may raise. Beside the
store the state carries what the funding source knows of outgoing payments, because what the mint
may conclude from an answer depends on it. A payment is first under way to the source, then sent,
and at the end paid or failed; the source sees nothing of it until it lands. The request for it
leaves the mint while the call is outstanding, and may land at any time from then on: the call may
have been given up by then, or the mint have died. A restart of the mint loses its registry and its
calls, but not a payment that is under way.

## Main definitions

* `Query`, `Update` — the store's methods as data, `Update.run` their effect
* `Call`, `Request`, `Response`, `Task`
* `mintSig`, `State`, `State.initial`, `exec`, `stir`, `restart`
-/

namespace LnurlMint

open Interleave

/-- What an operation reads from outside: the clock, and a fresh error reference. -/
structure Input where
  now : ℤ
  reference : String

/-! ## The store's methods -/

/-- A method that only reads. -/
inductive Query
  | pendingPolledMints (createdSince : ℤ) (limit : ℕ)
  | unpublishedZaps
  | pendingMint (paymentHash : Str)
  | pendingMintByNoteId (noteId : Str)
  | mintUsesComment (paymentHash : Str)
  | mintPr (paymentHash : Str)
  | mintSettled (paymentHash : Str)
  | noteRecord (noteId : Str)
  | noteAmount (noteId : Str)
  | notePending (noteId : Str)
  | findBurn (noteIds : List Str)
  | burnRecipient (noteIds : List Str)
  | meltPr (paymentHash : Str)
  | meltSettled (paymentHash : Str)
  | pendingMelts
  | usernameTaken (username : Str)
  | addressFee (paymentHash : Str)
  | heldAddressFees (createdSince : ℤ) (limit : ℕ)
  | heldAddressFee (username : Str)
  | usernameBranch (username : Str)
  | nostrPubkey (username : Str)

/-- What a method that only reads returns. -/
@[reducible] def Query.Out : Query → Type
  | pendingPolledMints .. | heldAddressFees .. => List Str
  | unpublishedZaps => List (Str × Str × Str)
  | pendingMint _ | noteAmount _ => Option ℤ
  | pendingMintByNoteId _ => Option (Str × ℤ)
  | mintUsesComment _ | mintSettled _ | notePending _ | meltSettled _ | usernameTaken _ => Bool
  | mintPr _ | burnRecipient _ | meltPr _ | heldAddressFee _ => Option Str
  | usernameBranch _ | nostrPubkey _ => Option Str
  | noteRecord _ => Option (ℤ × ℤ × Bool × Bool)
  | findBurn _ => Option (Str × Option Str × ℤ × Option ℤ)
  | pendingMelts => List (Str × List Str)
  | addressFee _ => Option (Str × Str × ℤ × ℤ × Bool)

/-- What it returns on this store, at this time. -/
def Query.answer (i : Input) (s : NoteStore) : (q : Query) → q.Out
  | pendingPolledMints since limit => s.pendingPolledMints since limit
  | unpublishedZaps => s.unpublishedZaps
  | pendingMint h => s.pendingMint h
  | pendingMintByNoteId id => s.pendingMintByNoteId id
  | mintUsesComment h => s.mintUsesComment h
  | mintPr h => s.mintPr h
  | mintSettled h => s.mintSettled h
  | noteRecord id => s.noteRecord id
  | noteAmount id => s.noteAmount id
  | notePending id => s.notePending id
  | findBurn ids => s.findBurn ids
  | burnRecipient ids => s.burnRecipient ids
  | meltPr h => s.meltPr h
  | meltSettled h => s.meltSettled h
  | pendingMelts => s.pendingMelts
  | usernameTaken u => s.usernameTaken i.now u
  | addressFee h => s.addressFee h
  | heldAddressFees since limit => s.heldAddressFees since limit
  | heldAddressFee u => s.heldAddressFee i.now u
  | usernameBranch u => s.usernameBranch u
  | nostrPubkey u => s.nostrPubkey u

/-- A method that writes. -/
inductive Update
  | createMint (paymentHash pr : Str) (amountMsat : ℤ) (noteId zapRequest username : Option Str)
  | settleMint (paymentHash : Str) (derive : Option DeriveNote)
  | markZapPublished (paymentHash receiptId : Str)
  | swap (burnIds mintNoteIds : List Str) (mintAmounts : List ℤ)
  | transferToUsername (burnIds : List Str) (username : Str) (amountMsat : ℤ) (derive : DeriveNote)
  | recordMelt (paymentHash pr : Str)
  | markMeltSettled (paymentHash : Str)
  | markPending (noteIds : List Str) (paymentHash : Str)
  | finalizeMelt (noteIds : List Str)
  | restore (noteIds : List Str)
  | registerUsername (username cx1 xp : Str) (nostrPubkey : Option Str)
  | holdUsername (paymentHash pr username cx1 xp : Str) (nostrPubkey : Option Str)
      (amountMsat expiresAt : ℤ)
  | settleAddressFee (paymentHash : Str)
  | payAddressFeeWithNotes (burnIds : List Str) (paymentHash : Str) (totalMsat : ℤ)
  | updateUsername (username cx1 xp : Str)
  | deleteUsername (username : Str)

/-- What a method that writes returns. -/
@[reducible] def Update.Out : Update → Type
  | settleMint .. => Option ℤ
  | transferToUsername .. | payAddressFeeWithNotes .. => Str
  | settleAddressFee _ => Option (Str × Bool)
  | _ => Unit

/-- The transaction: what the method returns and the store it leaves, or what it raises. -/
def Update.apply (i : Input) (s : NoteStore) : (u : Update) → Except Exn (u.Out × NoteStore)
  | createMint h pr amount noteId zap username =>
    (s.createMint i.now h pr amount noteId zap username).map fun s => ((), s)
  | settleMint h derive => s.settleMint i.now h derive
  | markZapPublished h id => .ok ((), s.markZapPublished h id)
  | swap burnIds mintIds amounts =>
    (s.swap i.now i.reference burnIds mintIds amounts).map fun s => ((), s)
  | transferToUsername burnIds username amount derive =>
    s.transferToUsername i.now i.reference burnIds username amount derive
  | recordMelt h pr => .ok ((), s.recordMelt h pr)
  | markMeltSettled h => .ok ((), s.markMeltSettled h)
  | markPending ids h => (s.markPending ids h).map fun s => ((), s)
  | finalizeMelt ids => .ok ((), s.finalizeMelt ids)
  | restore ids => .ok ((), s.restore ids)
  | registerUsername username cx1 xp npub =>
    (s.registerUsername i.now username cx1 xp npub).map fun s => ((), s)
  | holdUsername h pr username cx1 xp npub amount expires =>
    (s.holdUsername i.now h pr username cx1 xp npub amount expires).map fun s => ((), s)
  | settleAddressFee h => s.settleAddressFee i.now h
  | payAddressFeeWithNotes burnIds h total => s.payAddressFeeWithNotes i.now burnIds h total
  | updateUsername username cx1 xp => (s.updateUsername username cx1 xp).map fun s => ((), s)
  | deleteUsername username => .ok ((), s.deleteUsername username)

/-- The method as its caller sees it: a raise leaves the store as it was, and one that never
returns has no outcome. -/
def Update.run (i : Input) (s : NoteStore) (u : Update) : Option (Except Exn u.Out × NoteStore) :=
  match u.apply i s with
  | .ok (out, s') => some (.ok out, s')
  | .error .hangs => none
  | .error e => some (.error e, s)

/-! ## Calls that leave the process -/

/-- A call the mint awaits. -/
inductive Call
  | createInvoice (amountMsat : ℤ) (memo descriptionForHash : Option Str) (expirySecs : Option ℕ)
  | payInvoice (pr : Str) (feeLimitMsat : ℤ)
  | isPaymentComplete (paymentHash : Str)
  | isInvoiceSettled (paymentHash : Str)
  | invoicePreimage (paymentHash : Str)
  | paymentPreimage (paymentHash : Str)
  /-- `sign_message` of `LNURLcash:<domain>:<amountMsat>:<noteId>`. -/
  | signMessage (noteId domain : Str) (amountMsat : ℤ)
  /-- `fetch_node_info`, of which the mint reads the URI. -/
  | fetchNodeInfo
  | publish (relays : List Str) (event : NostrEvent)
  | sleep (seconds : ℕ)
deriving DecidableEq

/-- What a call is answered with; `error` is an exception of any kind. -/
@[reducible] def Call.Ans : Call → Type
  | createInvoice .. => Except Unit (Str × Option Bytes)
  | payInvoice .. => Except Unit (Option ℤ)
  | isPaymentComplete _ | isInvoiceSettled _ => Except Unit Bool
  | invoicePreimage _ | paymentPreimage _ => Except Unit (Option Bytes)
  | signMessage .. => Except Unit (Bytes × ℤ)
  | fetchNodeInfo => Except Unit (Option Str)
  -- whether a relay took the event; one that fails is logged, and nothing is raised
  | publish .. => Bool
  | sleep _ => Unit

/-- Answers for the stand-in: the invoice it creates, what every question is answered, and a
signature of zeros. -/
def standInAnswer (pr : Str) (yes : Bool) : (c : Call) → c.Ans
  | .createInvoice .. => .ok (pr, none)
  | .payInvoice .. => if yes then .ok none else .error ()
  | .isPaymentComplete _ | .isInvoiceSettled _ => .ok yes
  | .invoicePreimage _ | .paymentPreimage _ => .ok none
  | .signMessage .. => .ok (List.replicate 64 0, 0)
  | .fetchNodeInfo => .ok none
  | .publish .. => yes
  | .sleep _ => ()

/-! ## Requests, responses and tasks -/

/-- The parameters of a registration: what `parse_qsl` finds in the body, and the query. -/
structure Form where
  body : List (Str × Str)
  query : List (Str × Str)
deriving DecidableEq

/-- A request's path and parameters. -/
inductive Endpoint
  /-- `POST /.well-known/lnurlp/{username}`. -/
  | registerUsername (username : Str) (form : Form)
  /-- `PUT /.well-known/lnurlp/{username}`. -/
  | updateRegisteredUsername (username : Str) (form : Form)
  /-- `DELETE /.well-known/lnurlp/{username}`. -/
  | deleteRegisteredUsername (username : Str) (form : Form)
  /-- `GET /.well-known/nostr.json`. -/
  | getNip05 (name : Option Str)
  /-- `GET /.well-known/lnurlp/{username}`. -/
  | getLnaddress (username : Str)
  /-- `GET /p/cb`. -/
  | getPayCallback (amount : ℤ) (comment nostr : Option Str)
  /-- `GET /p/{username}`. -/
  | getPayCallbackForUsername (username : Str) (amount : ℤ) (comment nostr k1 : Option Str)
  /-- `GET /verify/{payment_hash}`. -/
  | verifyInvoice (paymentHash : Str)
  /-- `GET /w`. -/
  | getWithdraw (k1 p : Option Str) (amount : Option ℤ)
  /-- `GET /w/cb`. -/
  | getWithdrawCallback (k1 : List Str) (pr : Option Str) (amount : Option ℤ) (p1 p2 : Option Str)
deriving DecidableEq

/-- A request: what was asked, and the base URL it was asked at. -/
structure Request where
  baseUrl : Str
  endpoint : Endpoint
deriving DecidableEq

/-- A response's body. Fields that never vary are left out. -/
inductive Response
  /-- `RegisterUsernameResponse`. -/
  | registered (pr : Option Str)
  /-- `Nip05Response`. -/
  | nip05 (names : List (Str × Str))
  /-- `LnurlPayResponse`. -/
  | payRequest (callback : Str) (minSendable maxSendable : ℤ) (metadata : List (String × Str))
      (withdrawLink : Str) (commentAllowed : Option ℕ) (nostrPubkey : Option Str)
  /-- `LnurlPayActionResponse`. -/
  | payAction (pr : Str) (verify : Option Str)
  /-- `InternalTransferResponse`. -/
  | transferred
  /-- `LnurlPayVerifyResponse`. -/
  | verified (settled : Bool) (preimage : Option Str) (pr : Str)
  /-- `LnurlWithdrawResponse`. -/
  | withdrawRequest (callback : Str) (k1 : Option Str) (withdrawable : ℤ)
      (defaultDescription : Str) (mintPubkey c : Option Str)
  /-- `WithdrawSuccessResponse`. -/
  | withdrawSuccess (c c2 pr verify : Option Str)
  /-- `{"status": "ERROR", "reason": …}`. -/
  | error (reason : String)
  /-- What a background task returns. -/
  | nothing
deriving DecidableEq

/-- What the event loop runs: requests, the payment of a melt, and the periodic rounds. -/
inductive Task
  | request (r : Request)
  | meltPay (noteIds : List Str) (pr : Str) (decoded : Invoice)
  | reconcilePendingMelts
  | settlePolledMints
  | publishZapReceipts
deriving DecidableEq

/-! ## The signature and its state -/

/-- An atomic operation. -/
inductive Op
  | read (q : Query)
  | write (u : Update)
  /-- `_track_melt_start`. -/
  | trackMeltStart (paymentHash : Str)
  /-- `_track_melt_end`. -/
  | trackMeltEnd (paymentHash : Str)
  /-- `_melt_in_flight`. -/
  | meltInFlight (paymentHash : Str)
  /-- `int(time.time())`. -/
  | now
  /-- The reference of a logged error. -/
  | reference

/-- What an operation returns. -/
@[reducible] def Op.Out : Op → Type
  | read q => q.Out
  | write u => Except Exn u.Out
  | trackMeltStart _ | trackMeltEnd _ => Unit
  | meltInFlight _ => Bool
  | now => ℤ
  | reference => String

/-- The effects of the mint's programs. -/
abbrev mintSig : Sig where
  Op := Op
  Out := Op.Out
  Call := Call
  Ans := Call.Ans
  Task := Task

/-- What the funding source knows of an outgoing payment. -/
inductive PayStatus
  /-- Nothing, and no request for it has left the mint. -/
  | unseen
  /-- Nothing yet: a request for it is under way. -/
  | transit
  /-- Sent, with no outcome. -/
  | sent
  | paid
  | failed
deriving DecidableEq

/-- The state the mint's programs share, with the funding source's. -/
structure State where
  store : NoteStore
  /-- `_in_flight_melts`; a hash that is not in it counts 0. -/
  inFlight : Str → ℕ
  payments : Str → PayStatus

/-- A mint that was just set up: an empty database, nothing in flight, nothing paid. -/
def State.initial : State where
  store := .empty
  inFlight := fun _ => 0
  payments := fun _ => .unseen

/-- Do an operation. -/
def exec (o : Op) (i : Input) (s : State) : Option (o.Out × State) :=
  match o with
  | .read q => some (q.answer i s.store, s)
  | .write u => (u.run i s.store).map fun (out, store) => (out, { s with store })
  | .trackMeltStart h =>
    some ((), { s with inFlight := Function.update s.inFlight h (s.inFlight h + 1) })
  | .trackMeltEnd h =>
    some ((), { s with inFlight := Function.update s.inFlight h (s.inFlight h - 1) })
  | .meltInFlight h => some (decide (s.inFlight h ≠ 0), s)
  | .now => some (i.now, s)
  | .reference => some (i.reference, s)

/-- A move of the funding source, by payment hash. -/
inductive Stir
  /-- The request for a payment leaves the mint. -/
  | depart (paymentHash : Str)
  /-- A payment that is under way lands. -/
  | land (paymentHash : Str)
  /-- A payment that was sent is paid. -/
  | pay (paymentHash : Str)
  /-- A payment that was sent fails for good. -/
  | fail (paymentHash : Str)
deriving DecidableEq

variable (d : Deps)

/-- The payment hash an invoice commits to. -/
def invoiceHash (pr : Str) : Option Str :=
  match d.decodeInvoice pr with
  | .ok inv => inv.paymentHash
  | .error _ => none

/-- Whether one of these calls is a payment for this hash. -/
def paying (calls : List Call) (paymentHash : Str) : Bool :=
  calls.any fun c => match c with
    | .payInvoice pr _ => invoiceHash d pr = some paymentHash
    | _ => false

/-- The funding source moves. Only the departure of a request needs its call to be outstanding. -/
def stir (m : Stir) (calls : List Call) (s : State) : Option State :=
  match m with
  | .depart h =>
    if s.payments h = .unseen ∧ paying d calls h = true then
      some { s with payments := Function.update s.payments h .transit }
    else none
  | .land h =>
    if s.payments h = .transit then some { s with payments := Function.update s.payments h .sent }
    else none
  | .pay h =>
    if s.payments h = .sent then some { s with payments := Function.update s.payments h .paid }
    else none
  | .fail h =>
    if s.payments h = .sent then some { s with payments := Function.update s.payments h .failed }
    else none

/-- The process dies and is started again on the same database. -/
def restart (s : State) : State where
  store := s.store.reopen
  inFlight := fun _ => 0
  payments := s.payments

end LnurlMint
