import LnurlMint.Lib.Table
import LnurlMint.Text

/-!
# The note store

The tables of `NoteStore` and its methods, one definition a method. A method that writes runs in
one transaction under one lock, so it is a function from the store to either the store it leaves or
the exception it raises; a raise rolls everything back, which is why an exception carries no store.

Clock readings are arguments. So are the ids, which are the lower-case hex of a note's output key
wherever the mint makes one up; the store itself never looks inside an id.

Amounts and times are integers of any size. SQLite's own are 64 bits wide, and a larger one is
refused before anything is written.

## Main definitions

* `NoteRow`, `MintRow`, `MeltRow`, `BurnRow`, `UsernameRow`, `FeeRow` — the schema
* `NoteStore` — the database
* `NoteStore.createMint`, `NoteStore.settleMint`, `NoteStore.swap`, `NoteStore.markPending`,
  `NoteStore.registerUsername`, … — the methods
* `NoteStore.reopen` — what opening the database does to it
-/

namespace LnurlMint

open Relational

/-- What the mint's code raises. -/
inductive Exn
  /-- `HTTPException`, with its detail; its status code never reaches the wire. -/
  | http (detail : String)
  /-- `_Rejected`. -/
  | rejected (reason : String)
  /-- `ValueError`. -/
  | value (message : String)
  /-- `OutputCollisionError`, a `ValueError`. -/
  | collision (noteId : Str)
  /-- `PendingNoteError`. -/
  | pendingNote
  /-- `sqlite3.IntegrityError`. -/
  | integrity
  /-- Any other exception. -/
  | other
  /-- No exception: the method never returns. -/
  | hangs
deriving DecidableEq

/-! ## The schema -/

/-- A row of `notes`. -/
structure NoteRow where
  id : Str
  amountMsat : ℤ
  spent : Bool
  /-- Reserved by a melt in flight. -/
  pending : Bool
  /-- That melt's payment hash. -/
  pendingPaymentHash : Option Str
  /-- When the note was credited. -/
  lockedAt : ℤ
deriving DecidableEq

/-- A row of `mints`: an invoice that becomes a note once paid. -/
structure MintRow where
  paymentHash : Str
  pr : Str
  amountMsat : ℤ
  minted : Bool
  /-- The note to credit. An address mint has none until it settles. -/
  noteId : Option Str
  zapRequest : Option Str
  zapReceipt : Option Str
  createdAt : ℤ
  /-- The username whose share is credited, for an address mint. -/
  username : Option Str
deriving DecidableEq

/-- A row of `melts`. -/
structure MeltRow where
  paymentHash : Str
  pr : Str
  settled : Bool
deriving DecidableEq

/-- A row of `burns`: what a set of notes was burned for. -/
structure BurnRow where
  burnKey : Str
  id : Str
  id2 : Option Str
  amount1Msat : ℤ
  amount2Msat : Option ℤ
  /-- The username an internal transfer credited. -/
  toUsername : Option Str
deriving DecidableEq

/-- A row of `usernames`. -/
structure UsernameRow where
  username : Str
  /-- Hex of the share. -/
  cx1 : Str
  nextIndex : ℕ
  nostrPubkey : Option Str
deriving DecidableEq

/-- A row of `address_fees`: a registration held until its invoice is paid. -/
structure FeeRow where
  paymentHash : Str
  pr : Str
  username : Str
  cx1 : Str
  nostrPubkey : Option Str
  amountMsat : ℤ
  createdAt : ℤ
  expiresAt : ℤ
  paid : Bool
deriving DecidableEq

/-- Whether a fee keeps `username` taken at time `now`: unpaid and unexpired. -/
def FeeRow.holds (now : ℤ) (username : Str) (f : FeeRow) : Bool :=
  f.username = username && !f.paid && now < f.expiresAt

/-- The database. -/
structure NoteStore where
  notes : Table NoteRow.id
  mints : Table MintRow.paymentHash
  melts : Table MeltRow.paymentHash
  burns : Table BurnRow.burnKey
  usernames : Table UsernameRow.username
  acceptedKeys : Table fun xp : Str => xp
  addressFees : Table FeeRow.paymentHash

/-- The id of a share's note at an index, from the share on file: `none` for an index that derives
no key. -/
abbrev DeriveNote := Str → ℕ → Except Exn (Option Str)

namespace NoteStore

/-- The store of a mint that has done nothing yet. -/
def empty : NoteStore := ⟨.empty, .empty, .empty, .empty, .empty, .empty, .empty⟩

variable (s : NoteStore)

/-! ## Mints -/

/-- `_id_in_use`. -/
def idInUse (noteId : Str) : Bool :=
  (s.notes.find? noteId).isSome || s.mints.rows.any fun m => m.noteId = some noteId

/-- `create_mint`. -/
def createMint (now : ℤ) (paymentHash pr : Str) (amountMsat : ℤ) (noteId zapRequest : Option Str)
    (username : Option Str) : Except Exn NoteStore :=
  if noteId.isNone = username.isNone then
    .error (.value "a mint credits either a named note or a username's share")
  else if noteId.any s.idInUse then .error (.value "already in use")
  else match s.mints.insert? ⟨paymentHash, pr, amountMsat, false, noteId, zapRequest, none, now,
      username⟩ with
    | none => .error .integrity
    | some mints => .ok { s with mints }

/-- `pending_polled_mints`. -/
def pendingPolledMints (createdSince : ℤ) (limit : ℕ) : List Str :=
  (((s.mints.rows.filter fun m => !m.minted && (m.zapRequest.isSome || m.username.isSome) &&
      createdSince ≤ m.createdAt).insertionSort fun m m' => m'.createdAt ≤ m.createdAt).take
    limit).map MintRow.paymentHash

/-- `unpublished_zaps`: payment hash, invoice and request. -/
def unpublishedZaps : List (Str × Str × Str) :=
  s.mints.rows.filterMap fun m =>
    if m.minted && m.zapReceipt.isNone then m.zapRequest.map fun z => (m.paymentHash, m.pr, z)
    else none

/-- `mark_zap_published`. -/
def markZapPublished (paymentHash receiptId : Str) : NoteStore :=
  { s with mints := s.mints.modify paymentHash fun m => { m with zapReceipt := some receiptId } }

/-- `pending_mint`. -/
def pendingMint (paymentHash : Str) : Option ℤ :=
  (s.mints.find? paymentHash).bind fun m => if m.minted then none else some m.amountMsat

/-- `pending_mint_by_note_id`: payment hash and amount. -/
def pendingMintByNoteId (noteId : Str) : Option (Str × ℤ) :=
  (s.mints.rows.find? fun m => m.noteId = some noteId && !m.minted).map fun m =>
    (m.paymentHash, m.amountMsat)

/-- `mint_uses_comment`. -/
def mintUsesComment (paymentHash : Str) : Bool :=
  (s.mints.find? paymentHash).any fun m => m.noteId.isSome || m.username.isSome

/-- `mint_pr`. -/
def mintPr (paymentHash : Str) : Option Str := (s.mints.find? paymentHash).map MintRow.pr

/-- `mint_settled`. -/
def mintSettled (paymentHash : Str) : Bool := (s.mints.find? paymentHash).any MintRow.minted

/-- The search of `_claim_index`: the first index from `index` on whose key derives and is not in
use, within so many turns. The search of the source has no bound. But no share derives a key at or
beyond `2 ^ 32`: the superseded ones raise there, and the others never return. -/
def searchIndex (derive : ℕ → Except Exn (Option Str)) : ℕ → ℕ → Except Exn (Str × ℕ)
  | 0, _ => .error .hangs
  | fuel + 1, index => do
    match ← derive index with
    | some pk => if s.idInUse pk then searchIndex derive fuel (index + 1) else .ok (pk, index)
    | none => searchIndex derive fuel (index + 1)

/-- `_claim_index`: the note picked and its index. -/
def claimIndex (username : Str) (derive : DeriveNote) : Except Exn ((Str × ℕ) × NoteStore) :=
  match s.usernames.find? username with
  | none => .error (.value "unknown user")
  | some row => do
    let (pk, index) ← s.searchIndex (derive row.cx1) (2 ^ 32 - row.nextIndex + 1) row.nextIndex
    let usernames := s.usernames.modify username fun r => { r with nextIndex := index + 1 }
    return ((pk, index), { s with usernames })

/-- `INSERT INTO notes`. -/
def insertNote (now : ℤ) (noteId : Str) (amountMsat : ℤ) : Except Exn NoteStore :=
  match s.notes.insert? ⟨noteId, amountMsat, false, false, none, now⟩ with
  | none => .error .integrity
  | some notes => .ok { s with notes }

/-- `UPDATE mints SET minted = 1`. -/
def markMinted (paymentHash : Str) : NoteStore :=
  { s with mints := s.mints.modify paymentHash fun m => { m with minted := true } }

/-- `UPDATE mints SET note_id`. -/
def nameMintNote (paymentHash noteId : Str) : NoteStore :=
  { s with mints := s.mints.modify paymentHash fun m => { m with noteId := some noteId } }

/-- `settle_mint`: the amount credited, or `none` if this call credited nothing. -/
def settleMint (now : ℤ) (paymentHash : Str) (derive : Option DeriveNote) :
    Except Exn (Option ℤ × NoteStore) :=
  match s.mints.find? paymentHash with
  | none => .ok (none, s)
  | some m =>
    if m.minted then .ok (none, s)
    else match m.noteId, m.username with
      | none, none => .ok (none, s)
      | some noteId, _ => do
        let s ← (s.markMinted paymentHash).insertNote now noteId m.amountMsat
        return (some m.amountMsat, s)
      | none, some username => match derive with
        | none => .error (.value "settling an address mint needs the share's derivation")
        | some derive => do
          let ((noteId, _), s) ← (s.markMinted paymentHash).claimIndex username derive
          let s ← (s.nameMintNote paymentHash noteId).insertNote now noteId m.amountMsat
          return (some m.amountMsat, s)

/-! ## Notes -/

/-- `note_record`. -/
def noteRecord (noteId : Str) : Option (ℤ × ℤ × Bool × Bool) :=
  (s.notes.find? noteId).map fun n => (n.amountMsat, n.lockedAt, n.spent, n.pending)

/-- `note_amount`. -/
def noteAmount (noteId : Str) : Option ℤ :=
  (s.notes.find? noteId).bind fun n => if n.spent then none else some n.amountMsat

/-- `outstanding_msat`. -/
def outstandingMsat : ℤ := s.notes.sum fun n => if n.spent then 0 else n.amountMsat

/-- `note_pending`. -/
def notePending (noteId : Str) : Bool := (s.notes.find? noteId).any fun n => !n.spent && n.pending

/-- What a burn asks of one note: issued, unspent and not reserved. -/
def checkBurnable (noteId : Str) : Except Exn Unit :=
  match s.notes.find? noteId with
  | none => .error (.value "Invalid or already spent k1.")
  | some n =>
    if n.spent then .error (.value "Invalid or already spent k1.")
    else if n.pending then .error .pendingNote
    else .ok ()

/-- The burn ids' loop: no id twice, every note burnable. -/
def checkBurnIds (seen : List Str) : List Str → Except Exn Unit
  | [] => .ok ()
  | noteId :: rest =>
    if noteId ∈ seen then .error (.value "Invalid or already spent k1.")
    else do
      s.checkBurnable noteId
      checkBurnIds (noteId :: seen) rest

/-- The mint ids' loop: no id twice, none that a note or a mint has. -/
def checkMintIds (seen : List Str) : List Str → Except Exn Unit
  | [] => .ok ()
  | noteId :: rest =>
    if s.mints.rows.any fun m => m.noteId = some noteId then .error (.collision noteId)
    else if noteId ∈ seen || (s.notes.find? noteId).isSome then .error (.collision noteId)
    else checkMintIds (noteId :: seen) rest

/-- `UPDATE notes SET spent = 1`, for each id. -/
def burnNotes (burnIds : List Str) : NoteStore :=
  { s with notes := s.notes.modifyEach burnIds fun n => { n with spent := true } }

/-- `INSERT INTO notes`, for each id and amount. -/
def insertNotes (s : NoteStore) (now : ℤ) : List (Str × ℤ) → Except Exn NoteStore
  | [] => .ok s
  | (noteId, amountMsat) :: rest => do
    let s ← s.insertNote now noteId amountMsat
    insertNotes s now rest

/-- `_burn_key`. -/
def burnKey (noteIds : List Str) : Str := sortedJoin noteIds

/-- `_swap_locked`. -/
def swapLocked (now : ℤ) (burnIds mintNoteIds : List Str) (mintAmounts : List ℤ)
    (toUsername : Option Str) : Except Exn NoteStore := do
  s.checkBurnIds [] burnIds
  s.checkMintIds [] mintNoteIds
  let s ← (s.burnNotes burnIds).insertNotes now (mintNoteIds.zip mintAmounts)
  match mintNoteIds, mintAmounts with
  | id :: ids, amount :: amounts =>
    match s.burns.insert? ⟨burnKey burnIds, id, ids.head?, amount, amounts.head?, toUsername⟩ with
    | none => .error .integrity
    | some burns => .ok { s with burns }
  | _, _ => .error .other

/-- A database error, reported under a reference. -/
def reported {α : Type} (context reference : String) : Except Exn α → Except Exn α
  | .error .integrity => .error (.value s!"{context} (reference: {reference}).")
  | r => r

/-- `swap`. -/
def swap (now : ℤ) (reference : String) (burnIds mintNoteIds : List Str) (mintAmounts : List ℤ) :
    Except Exn NoteStore :=
  reported "Note swap failed" reference (s.swapLocked now burnIds mintNoteIds mintAmounts none)

/-- `transfer_to_username`: the note credited. -/
def transferToUsername (now : ℤ) (reference : String) (burnIds : List Str) (username : Str)
    (amountMsat : ℤ) (derive : DeriveNote) : Except Exn (Str × NoteStore) :=
  reported "Internal transfer failed" reference do
    let ((noteId, _), s) ← s.claimIndex username derive
    let s ← s.swapLocked now burnIds [noteId] [amountMsat] (some username)
    return (noteId, s)

/-- `find_burn`: the outputs and amounts of the burn of exactly these notes. -/
def findBurn (noteIds : List Str) : Option (Str × Option Str × ℤ × Option ℤ) :=
  (s.burns.find? (burnKey noteIds)).map fun b => (b.id, b.id2, b.amount1Msat, b.amount2Msat)

/-- `burn_recipient`. -/
def burnRecipient (noteIds : List Str) : Option Str :=
  (s.burns.find? (burnKey noteIds)).bind BurnRow.toUsername

/-! ## Melts -/

/-- `record_melt`. -/
def recordMelt (paymentHash pr : Str) : NoteStore :=
  { s with melts := s.melts.insertOrIgnore ⟨paymentHash, pr, false⟩ }

/-- `melt_pr`. -/
def meltPr (paymentHash : Str) : Option Str := (s.melts.find? paymentHash).map MeltRow.pr

/-- `mark_melt_settled`. -/
def markMeltSettled (paymentHash : Str) : NoteStore :=
  { s with melts := s.melts.modify paymentHash fun m => { m with settled := true } }

/-- `melt_settled`. -/
def meltSettled (paymentHash : Str) : Bool := (s.melts.find? paymentHash).any MeltRow.settled

/-- The loop of `mark_pending` over its ids; unlike a burn's it lets an id repeat. -/
def checkReservable : List Str → Except Exn Unit
  | [] => .ok ()
  | noteId :: rest => do
    s.checkBurnable noteId
    checkReservable rest

/-- `mark_pending`. -/
def markPending (noteIds : List Str) (paymentHash : Str) : Except Exn NoteStore := do
  s.checkReservable noteIds
  let notes := s.notes.modifyEach noteIds fun n =>
    { n with pending := true, pendingPaymentHash := some paymentHash }
  return { s with notes }

/-- `finalize_melt`. -/
def finalizeMelt (noteIds : List Str) : NoteStore :=
  let notes := s.notes.modifyEach noteIds fun n =>
    { n with spent := true, pending := false, pendingPaymentHash := none }
  { s with notes }

/-- `restore`. -/
def restore (noteIds : List Str) : NoteStore :=
  let notes := s.notes.modifyEach noteIds fun n =>
    { n with pending := false, pendingPaymentHash := none }
  { s with notes }

/-- `setdefault(key, []).append(id)`. -/
def appendTo (key id : Str) : List (Str × List Str) → List (Str × List Str)
  | [] => [(key, [id])]
  | (k, ids) :: rest =>
    if k = key then (k, ids ++ [id]) :: rest else (k, ids) :: appendTo key id rest

/-- `pending_melts`: the reserved notes, by the payment hash they are reserved for. -/
def pendingMelts : List (Str × List Str) :=
  s.notes.rows.foldl (fun grouped n =>
    if n.pending && !n.spent then
      match n.pendingPaymentHash with
      | some paymentHash => appendTo paymentHash n.id grouped
      | none => grouped
    else grouped) []

/-! ## Usernames and address fees -/

/-- `_username_taken`. -/
def usernameTaken (now : ℤ) (username : Str) : Bool :=
  (s.usernames.find? username).isSome || s.addressFees.rows.any (FeeRow.holds now username)

/-- `_accept_key`. -/
def acceptKey (xp : Str) : Except Exn NoteStore :=
  match s.acceptedKeys.insert? xp with
  | none => .error (.value "cx1 already used")
  | some acceptedKeys => .ok { s with acceptedKeys }

/-- `INSERT INTO usernames`. -/
def insertUsername (username cx1 : Str) (nostrPubkey : Option Str) : Except Exn NoteStore :=
  match s.usernames.insert? ⟨username, cx1, 0, nostrPubkey⟩ with
  | none => .error .integrity
  | some usernames => .ok { s with usernames }

/-- `register_username`. -/
def registerUsername (now : ℤ) (username cx1 xp : Str) (nostrPubkey : Option Str) :
    Except Exn NoteStore :=
  if s.usernameTaken now username then .error (.value "already registered")
  else do
    let s ← s.acceptKey xp
    s.insertUsername username cx1 nostrPubkey

/-- `hold_username`. -/
def holdUsername (now : ℤ) (paymentHash pr username cx1 xp : Str) (nostrPubkey : Option Str)
    (amountMsat expiresAt : ℤ) : Except Exn NoteStore :=
  if s.usernameTaken now username then .error (.value "already registered")
  else do
    let s ← s.acceptKey xp
    match s.addressFees.insert? ⟨paymentHash, pr, username, cx1, nostrPubkey, amountMsat, now,
        expiresAt, false⟩ with
    | none => .error .integrity
    | some addressFees => .ok { s with addressFees }

/-- `address_fee`: invoice, username, amount, expiry and whether it is paid. -/
def addressFee (paymentHash : Str) : Option (Str × Str × ℤ × ℤ × Bool) :=
  (s.addressFees.find? paymentHash).map fun f =>
    (f.pr, f.username, f.amountMsat, f.expiresAt, f.paid)

/-- `held_address_fees`. -/
def heldAddressFees (createdSince : ℤ) (limit : ℕ) : List Str :=
  (((s.addressFees.rows.filter fun f => !f.paid && createdSince ≤ f.createdAt).insertionSort
    fun f f' => f'.createdAt ≤ f.createdAt).take limit).map FeeRow.paymentHash

/-- `held_address_fee`. -/
def heldAddressFee (now : ℤ) (username : Str) : Option Str :=
  (s.addressFees.rows.find? (FeeRow.holds now username)).map FeeRow.paymentHash

/-- `UPDATE address_fees SET paid = 1`. -/
def markPaid (paymentHash : Str) : NoteStore :=
  { s with addressFees := s.addressFees.modify paymentHash fun f => { f with paid := true } }

/-- `_settle_address_fee`: the username and whether it was registered, or `none` if the invoice was
settled before or is unknown. -/
def settleAddressFee (now : ℤ) (paymentHash : Str) :
    Except Exn (Option (Str × Bool) × NoteStore) :=
  match s.addressFees.find? paymentHash with
  | none => .ok (none, s)
  | some f =>
    if f.paid then .ok (none, s)
    else
      let s := s.markPaid paymentHash
      if s.usernameTaken now f.username then .ok (some (f.username, false), s)
      else do
        let s ← s.insertUsername f.username f.cx1 f.nostrPubkey
        return (some (f.username, true), s)

/-- `pay_address_fee_with_notes`: the username registered. -/
def payAddressFeeWithNotes (now : ℤ) (burnIds : List Str) (paymentHash : Str) (totalMsat : ℤ) :
    Except Exn (Str × NoteStore) :=
  if (s.addressFees.find? paymentHash).any fun f =>
      !f.paid && now < f.expiresAt && f.amountMsat = totalMsat then do
    s.checkBurnIds [] burnIds
    match ← s.settleAddressFee now paymentHash with
    | (some (username, true), s) => return (username, s.burnNotes burnIds)
    | _ => .error (.value "already registered")
  else .error (.value "This address fee invoice is no longer payable.")

/-- `update_username`. -/
def updateUsername (username cx1 xp : Str) : Except Exn NoteStore :=
  if (s.usernames.find? username).isNone then .error (.value "unknown user")
  else do
    let s ← s.acceptKey xp
    let usernames := s.usernames.modify username fun r => { r with cx1, nextIndex := 0 }
    return { s with usernames }

/-- `delete_username`. -/
def deleteUsername (username : Str) : NoteStore :=
  { s with usernames := s.usernames.erase username }

/-- `username_branch`. -/
def usernameBranch (username : Str) : Option Str :=
  (s.usernames.find? username).map UsernameRow.cx1

/-- `nostr_pubkey`. -/
def nostrPubkey (username : Str) : Option Str :=
  (s.usernames.find? username).bind UsernameRow.nostrPubkey

/-! ## Opening the database -/

/-- The key the backfill reads off a share on file, by its position in the hex. -/
def backfillKey (cx1 : Str) : Str :=
  if cx1.length = 128 then cx1.take 64 else (cx1.drop 66).take 64

/-- Opening a database of this version: every share on file counts as accepted. -/
def reopen : NoteStore :=
  let acceptedKeys := s.usernames.rows.foldl
    (fun keys r => keys.insertOrIgnore (backfillKey r.cx1)) s.acceptedKeys
  { s with acceptedKeys }

end NoteStore

end LnurlMint
