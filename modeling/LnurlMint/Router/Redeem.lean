import LnurlMint.Router.Address

/-!
# Redeeming notes

The withdrawRequest side of the router: looking at a note, and the one callback that melts,
rotates, splits and merges. A melt is spread over four writes with no wait between them and a
background task: the note is reserved, the attempt is registered as in flight, the invoice is
recorded, the task is spawned; and the task pays and then burns the note or gives it back. Notes
that no task resolved are left to `reconcilePendingMelts`, which works through a list it reads
once.

With the request handlers and the periodic rounds in place, `mint` is the machine of the whole
process.

## Main definitions

* `getWithdraw`, `getWithdrawCallback`
* `meltPay`, `confirmPayment`, `reconcilePendingMelts`
* `settlePolledMints`, `publishZapReceipts`
* `mint` — the machine
-/

namespace LnurlMint

open Interleave

variable {d : Deps} (cfg : Settings d)

/-! ## Looking at a note -/

/-- The note that `get_withdraw` was asked about: id, amount and whether it is spent. -/
def queriedNote (k1 p : Option Str) : Mint (Str × ℤ × Bool) :=
  match k1, p with
  | some k1, none => do
    let note ← rejectionsAnswered
      (fun reason => if reason ≠ Spend.invalidK1 then reason else "Unknown note.")
      (verifiedNote cfg k1)
    return (note.noteId, note.amountMsat, note.spent)
  | none, some p => do
    let ref ← noteByRef cfg p
    let noteId ← Prog.orRaise ref (.http "Unknown note.")
    let record : Option (ℤ × ℤ × Bool × Bool) ← read (.noteRecord noteId)
    let (amountMsat, _, spent, _) ← Prog.orRaise record (.http "Unknown note.")
    return (noteId, amountMsat, spent)
  | _, _ => throw (.http "Specify exactly one of k1 or p.")

/-- `get_withdraw`. Its `amount` is ignored. -/
def getWithdraw (baseUrl : Str) (k1 p : Option Str) (_amount : Option ℤ) : Mint Response := do
  let (noteId, amountMsat, spent) ← queriedNote cfg k1 p
  Prog.raiseIf (spent = true) (.http "already in use")
  let pending : Bool ← read (.notePending noteId)
  Prog.raiseIf (pending = true) (.http "pending")
  let (base, host) ← Prog.ofExcept (cfg.publicBaseUrlAndHost baseUrl)
  let domain ← domain cfg baseUrl
  let c ← certificate cfg noteId amountMsat domain
  let pubkey ← mintPubkey cfg
  return .withdrawRequest (base ++ "/w/cb".toList) k1 amountMsat
    ("lnurlcash bearer note on ".toList ++ host) pubkey c

/-! ## The callback -/

/-- The `verify` URL of a melt, which is only made up if it is advertised. -/
def verifyUrl (baseUrl paymentHash : Str) : Mint (Option Str) :=
  if cfg.verifyEnabled then do
    let base ← Prog.ofExcept (cfg.publicBaseUrl baseUrl)
    return some (base ++ "/verify/".toList ++ paymentHash)
  else pure none

/-- What an accepted melt is answered with. -/
def meltAccepted (pr : Str) : Option Str → Response
  | some url => .withdrawSuccess none none (some pr) (some url)
  | none => .withdrawSuccess none none none none

@[simp] theorem meltAccepted_ne_error (pr : Str) (url : Option Str) (reason : String) :
    meltAccepted pr url ≠ .error reason := by
  cases url <;> exact Response.noConfusion

/-- `except PendingNoteError` and `except ValueError`, answered with their reasons. -/
def burnErrorsAnswered {α : Type} (p : Mint α) : Mint α :=
  tryCatch p fun
    | .pendingNote => throw (.http "pending")
    | .value message => throw (.http message)
    | .collision _ => throw (.http "already in use")
    | e => throw e

/-- `_melt_into_address_fee`. -/
def meltIntoAddressFee (baseUrl : Str) (noteIds : List Str) (pr paymentHash feePr : Str)
    (totalMsat : ℤ) : Mint Response := do
  Prog.raiseIf (d.lower (strip pr) ≠ d.lower feePr)
    (.http "Cannot melt into an invoice this mint issued itself.")
  let _ ← burnErrorsAnswered (write (.payAddressFeeWithNotes noteIds paymentHash totalMsat))
  let url ← verifyUrl cfg baseUrl paymentHash
  return meltAccepted pr url

/-- The checks of `get_withdraw_callback` that look at no note. -/
def checkShape (k1 : List Str) (pr : Option Str) (amount : Option ℤ) : Mint Unit := do
  Prog.raiseIf (k1 = []) (.http "Request validation error: Field required `k1`.")
  Prog.raiseIf (cfg.maxK1s < k1.length) (.http s!"Too many k1s (max {cfg.maxK1s}).")
  Prog.raiseIf (pr.isSome = true ∧ (1 < k1.length ∨ amount.isSome = true))
    (.http "pr cannot be combined with multiple k1s or amount - merge or split first.")
  Prog.raiseIf (cfg.sunsetMint = true ∧ amount.isSome = true)
    (.http "This mint is sunsetting - splitting is disabled.")

/-- The outputs that a rotate, split or merge names: `p1`, and `p2` for a split. -/
def outputs (amount : Option ℤ) (p1 p2 : Option Str) : Mint (Str × Option Str) := do
  let p1 ← Prog.orRaise (p1.bind (Spend.decodeNote d)) (.http "missing p1")
  match amount with
  | none => return (p1, none)
  | some _ => do
    let p2 ← Prog.orRaise (p2.bind (Spend.decodeNote d)) (.http "missing p2")
    return (p1, some p2)

/-- Every `k1`, verified against its note once. -/
def verifiedNotes : List Str → Mint (List Verified)
  | [] => pure []
  | k1 :: rest => do
    let note ← rejectionsAnswered id (verifiedNote cfg k1)
    let notes ← verifiedNotes rest
    return note :: notes

/-- The certificates of a burn that is answered again. -/
def replay (baseUrl : Str) (p1 : Str) (p2 : Option Str) (amount1Msat : ℤ)
    (amount2Msat : Option ℤ) : Mint Response := do
  let dom ← domain cfg baseUrl
  let c ← certificate cfg p1 amount1Msat dom
  match p2, amount2Msat with
  | some p2, some amount2Msat => do
    let c2 ← certificate cfg p2 amount2Msat dom
    return .withdrawSuccess c c2 none none
  | _, _ => return .withdrawSuccess c none none none

/-- The burn of exactly these notes that recorded these outputs and this amount, if there was one.
A rotate or merge records its amount and no second output, so it is matched by no amount. -/
def replayed (p1 : Str) (p2 : Option Str) (amount : Option ℤ)
    (burn : Option (Str × Option Str × ℤ × Option ℤ)) : Option (ℤ × Option ℤ) :=
  burn.bind fun (recordedP1, recordedP2, amount1Msat, amount2Msat) =>
    let recordedAmount := if recordedP2.isSome then some amount1Msat else none
    if recordedP1 = p1 ∧ recordedP2 = p2 ∧ recordedAmount = amount then
      some (amount1Msat, amount2Msat)
    else none

/-- The split branch. -/
def split (baseUrl : Str) (noteIds : List Str) (totalMsat amount : ℤ) (p1 p2 : Str) :
    Mint Response := do
  Prog.raiseIf (¬ (0 < amount ∧ amount < totalMsat))
    (.http s!"amount must be between 0 and {totalMsat} msat.")
  let changeBeforeFee := totalMsat - amount
  Prog.raiseIf (changeBeforeFee < cfg.baseFeeMsat) (.http "insufficient value")
  let changeAmount := changeBeforeFee - cfg.baseFeeMsat
  Prog.raiseIf (changeAmount < 1) (.http "insufficient value")
  write (.swap noteIds [p1, p2] [amount, changeAmount])
  let dom ← domain cfg baseUrl
  let c ← certificate cfg p1 amount dom
  let c2 ← certificate cfg p2 changeAmount dom
  return .withdrawSuccess c c2 none none

/-- The rotate and merge branch: a rotate is a merge of one. -/
def merge (baseUrl : Str) (noteIds : List Str) (totalMsat : ℤ) (p1 : Str) : Mint Response := do
  let refund := ((noteIds.length : ℤ) - 1) * cfg.baseFeeMsat
  let mergedAmount := totalMsat + refund
  write (.swap noteIds [p1] [mergedAmount])
  let dom ← domain cfg baseUrl
  let c ← certificate cfg p1 mergedAmount dom
  return .withdrawSuccess c none none none

/-- What a burned note in a request is answered with, and otherwise the total of its notes. -/
def unspentTotal (notes : List Verified) : Mint ℤ := do
  Prog.raiseIf ((notes.any fun n => n.spent) = true) (.http "already in use")
  return (notes.map fun n => n.amountMsat).sum

/-- A rotate, split or merge. -/
def rotateSplitMerge (baseUrl : Str) (notes : List Verified) (amount : Option ℤ) (p1 : Str)
    (p2 : Option Str) : Mint Response := do
  let noteIds := notes.map fun n => n.noteId
  let burn : Option (Str × Option Str × ℤ × Option ℤ) ← read (.findBurn noteIds)
  match replayed p1 p2 amount burn with
  | some (amount1Msat, amount2Msat) => replay cfg baseUrl p1 p2 amount1Msat amount2Msat
  | none => do
    let totalMsat ← unspentTotal notes
    match amount, p2 with
    | some amount, some p2 =>
      burnErrorsAnswered (split cfg baseUrl noteIds totalMsat amount p1 p2)
    | _, _ => burnErrorsAnswered (merge cfg baseUrl noteIds totalMsat p1)

/-- The body of the `try` that follows on the registration of a melt. -/
def recordAndSpawn (baseUrl : Str) (noteIds : List Str) (pr paymentHash : Str)
    (decoded : Invoice) : Mint (Option Str) := do
  write (.recordMelt paymentHash pr)
  let url ← verifyUrl cfg baseUrl paymentHash
  Prog.start (Task.meltPay noteIds pr decoded : mintSig.Task)
  return url

/-- The reservation, the registration, the record and the task of a melt, with no wait between them.
Where the `verify` URL cannot be made up there is no task, and the registration is dropped again. -/
def reserveAndSpawn (baseUrl : Str) (noteIds : List Str) (pr paymentHash : Str)
    (decoded : Invoice) : Mint Response := do
  burnErrorsAnswered (write (.markPending noteIds paymentHash))
  perform (.trackMeltStart paymentHash)
  let url ← tryCatch (recordAndSpawn cfg baseUrl noteIds pr paymentHash decoded) fun e => do
    perform (.trackMeltEnd paymentHash)
    throw e
  return meltAccepted pr url

/-- A melt. -/
def melt (baseUrl : Str) (notes : List Verified) (pr : Str) : Mint Response := do
  let noteIds := notes.map fun n => n.noteId
  let totalMsat ← unspentTotal notes
  match d.decodeInvoice pr with
  | .error text => throw (.http s!"Invalid invoice: {text}")
  | .ok decoded => do
    Prog.raiseIf (decoded.amountMsat ≠ some totalMsat)
      (.http s!"Invoice must be for exactly {totalMsat} msat.")
    match decoded.paymentHash with
    | none => do
      requireFundingSource cfg
      -- `decoded.payment_hash` raises
      throw .other
    | some paymentHash => do
      let fee : Option (Str × Str × ℤ × ℤ × Bool) ← read (.addressFee paymentHash)
      match fee with
      | some (feePr, _) => meltIntoAddressFee cfg baseUrl noteIds pr paymentHash feePr totalMsat
      | none => do
        let mintPr : Option Str ← read (.mintPr paymentHash)
        Prog.raiseIf (mintPr.isSome = true)
          (.http "Cannot melt into an invoice this mint issued itself.")
        let meltPr : Option Str ← read (.meltPr paymentHash)
        Prog.raiseIf (meltPr.isSome = true)
          (.http "Invoice already used by an earlier melt - use a fresh one.")
        requireFundingSource cfg
        reserveAndSpawn cfg baseUrl noteIds pr paymentHash decoded

/-- `get_withdraw_callback`. -/
def getWithdrawCallback (baseUrl : Str) (k1 : List Str) (pr : Option Str) (amount : Option ℤ)
    (p1 p2 : Option Str) : Mint Response := do
  checkShape cfg k1 pr amount
  match pr with
  | some pr => do
    let notes ← verifiedNotes cfg k1
    melt cfg baseUrl notes pr
  | none => do
    let (p1, p2) ← outputs (d := d) amount p1 p2
    let notes ← verifiedNotes cfg k1
    rotateSplitMerge cfg baseUrl notes amount p1 p2

/-! ## Paying a melt -/

/-- `_CONFIRMATION_RETRY_DELAYS_SECONDS`. -/
def confirmationRetryDelaysSeconds : List ℕ := [1, 2, 4, 8, 16]

/-- `_confirm_payment`: an attempt, and another after each delay. -/
def confirmPayment (paymentHash : Str) : List ℕ → Mint (Option Bool)
  | [] => do
    let completed ← Prog.attempt (isPaymentComplete paymentHash)
    match completed with
    | .ok completed => return some completed
    | .error _ => return none
  | delay :: delays => do
    let completed ← Prog.attempt (isPaymentComplete paymentHash)
    match completed with
    | .ok completed => return some completed
    | .error _ => do
      ask (.sleep delay)
      confirmPayment paymentHash delays

/-- What `_melt_pay` does between registering and dropping the attempt. -/
def payAndResolve (noteIds : List Str) (pr : Str) (decoded : Invoice) (amountMsat : ℤ) :
    Mint Unit := do
  let paid : Except Unit (Option ℤ) ← ask (.payInvoice pr (meltFeeLimitMsat cfg amountMsat))
  match paid with
  | .ok _ => do
    write (.finalizeMelt noteIds)
    match decoded.paymentHash with
    | some paymentHash => write (.markMeltSettled paymentHash)
    | none => return ()
  | .error _ =>
    match decoded.paymentHash with
    | none => return ()
    | some paymentHash => do
      let completed ← confirmPayment paymentHash confirmationRetryDelaysSeconds
      match completed with
      | none => return ()
      | some false => write (.restore noteIds)
      | some true => do
        write (.finalizeMelt noteIds)
        write (.markMeltSettled paymentHash)

/-- `_melt_pay`. -/
def meltPay (noteIds : List Str) (pr : Str) (decoded : Invoice) : Mint Unit := do
  let amountMsat ← Prog.orRaise decoded.amountMsat .other
  Prog.andFinally (payAndResolve cfg noteIds pr decoded amountMsat) do
    let paymentHash ← Prog.orRaise decoded.paymentHash .other
    perform (.trackMeltEnd paymentHash)

/-- The loop of `reconcile_pending_melts` over its snapshot. -/
def reconcileAll : List (Str × List Str) → Mint Unit
  | [] => pure ()
  | (paymentHash, noteIds) :: rest => do
    let inFlight : Bool ← perform (.meltInFlight paymentHash)
    if inFlight then reconcileAll rest
    else do
      let completed ← confirmPayment paymentHash []
      match completed with
      | none => reconcileAll rest
      | some true => do
        write (.finalizeMelt noteIds)
        write (.markMeltSettled paymentHash)
        reconcileAll rest
      | some false => do
        write (.restore noteIds)
        reconcileAll rest

/-- `reconcile_pending_melts`. -/
def reconcilePendingMelts : Mint Unit := do
  let pending : List (Str × List Str) ← read .pendingMelts
  reconcileAll pending

/-! ## Periodic rounds -/

/-- `for x in xs: f(x)`. -/
def forEach {α : Type} (f : α → Mint Unit) : List α → Mint Unit
  | [] => pure ()
  | x :: xs => do
    f x
    forEach f xs

/-- `_ZAP_POLL_WINDOW_SECONDS`. -/
def zapPollWindowSeconds : ℤ := 60 * 60

/-- `_ZAP_POLL_LIMIT`. -/
def zapPollLimit : ℕ := 100

/-- `settle_polled_mints`. -/
def settlePolledMints : Mint Unit := do
  let t ← now
  let mints : List Str ← read (.pendingPolledMints (t - zapPollWindowSeconds) zapPollLimit)
  forEach (fun paymentHash => do let _ ← mintSettled cfg paymentHash) mints
  let fees : List Str ← read (.heldAddressFees (t - zapPollWindowSeconds) zapPollLimit)
  forEach (fun paymentHash => do let _ ← addressFeeSettled cfg paymentHash) fees

/-- The receipt of one settled zap: payment hash, invoice and request. -/
def publishZapReceipt (secret : Str) (zap : Str × Str × Str) : Mint Unit := do
  let (paymentHash, pr, raw) := zap
  let request ← Prog.ofExcept (d.jsonLoads raw)
  let preimage ← mintPreimage cfg paymentHash
  let t ← now
  let receipt ← Prog.orRaise (Nostr.zapReceipt d request raw pr preimage secret t) .other
  let tags ← Prog.orRaise (Nostr.tags? request) .other
  let relays := (Nostr.relaysOf tags ++ cfg.nostrRelayList).eraseDups
  let accepted : Bool ← ask (.publish relays receipt)
  if accepted then write (.markZapPublished paymentHash receipt.id) else return ()

/-- `publish_zap_receipts`. -/
def publishZapReceipts : Mint Unit := do
  settlePolledMints cfg
  let secret ← Prog.orRaise cfg.nostrKey .other
  let zaps : List (Str × Str × Str) ← read .unpublishedZaps
  forEach (publishZapReceipt cfg secret) zaps

/-! ## The process -/

/-- The handler of a request's route. -/
def route (r : Request) : Mint Response :=
  match r.endpoint with
  | .registerUsername username form => registerUsername cfg r.baseUrl username form
  | .updateRegisteredUsername username form =>
    updateRegisteredUsername cfg r.baseUrl username form
  | .deleteRegisteredUsername username form =>
    deleteRegisteredUsername cfg r.baseUrl username form
  | .getNip05 name => getNip05 cfg name
  | .getLnaddress username => getLnaddress cfg r.baseUrl username
  | .getPayCallback amount comment nostr => getPayCallback cfg r.baseUrl amount comment nostr
  | .getPayCallbackForUsername username amount comment nostr k1 =>
    getPayCallbackForUsername cfg r.baseUrl username amount comment nostr k1
  | .verifyInvoice paymentHash => verifyInvoice cfg paymentHash
  | .getWithdraw k1 p amount => getWithdraw cfg r.baseUrl k1 p amount
  | .getWithdrawCallback k1 pr amount p1 p2 =>
    getWithdrawCallback cfg r.baseUrl k1 pr amount p1 p2

/-- `LnurlErrorResponseHandler`: every exception becomes an error response. -/
def lnurlErrorResponse (p : Mint Response) : Mint Response :=
  tryCatch p fun
    | .http detail => return .error detail
    | _ => do
      let reason ← logInternalError "Internal error"
      return .error reason

/-- A background task, whose exceptions are logged. -/
def safely (p : Mint Unit) : Mint Response :=
  Prog.thenE p fun _ => pure .nothing

/-- The program of a task. -/
def body : Task → Mint Response
  | .request r => lnurlErrorResponse (route cfg r)
  | .meltPay noteIds pr decoded => safely (meltPay cfg noteIds pr decoded)
  | .reconcilePendingMelts => safely reconcilePendingMelts
  | .settlePolledMints => safely (settlePolledMints cfg)
  | .publishZapReceipts => safely (publishZapReceipts cfg)

/-- The mint's process, with its funding source. Everything but the payment of a melt comes from
outside. -/
abbrev mint : Machine mintSig where
  State := State
  Input := Input
  Move := Stir
  Err := Exn
  Res := Response
  exec := exec
  stir := stir d
  restart := fun _ => restart
  external
    | .meltPay .. => false
    | _ => true
  body := body cfg

/-! ## Runs of the stand-in -/

/-- The stand-in's process. -/
abbrev standInMint : Machine mintSig := mint Settings.standIn

section Schedules

variable {d : Deps} {cfg : Settings d}

/-- What a schedule leads to from a mint that was just set up. -/
def standInRun (schedule : List (Choice (mint cfg))) : Option (Config (mint cfg)) :=
  (Config.start State.initial).play schedule

/-- A key, and the secret that opens it. -/
def standInKey (c : Char) : Str := List.replicate 64 c

/-- A request comes in and is begun, under this number. -/
def standInAsks (tid : ℕ) (endpoint : Endpoint) : List (Choice (mint cfg)) :=
  [.arrive (.request ⟨"mint".toList, endpoint⟩), .wake tid]

/-- The running program goes on by so many effects, at this time. -/
def standInGoes (n : ℕ) (now : ℤ) : List (Choice (mint cfg)) := List.replicate n (.step ⟨now, ""⟩)

/-- A note is minted to this key, by an invoice with this hash, under this number. -/
def standInMints (tid : ℕ) (hash noteId : Str) : List (Choice (mint cfg)) :=
  standInAsks tid (.getPayCallback 10000 (some noteId) none) ++ standInGoes 1 0 ++
    [.answer tid (standInAnswer ("ln".toList ++ hash) true)] ++ standInGoes 2 0

/-- A note that was minted to this key and not looked at since is asked to be melted into an invoice
with this hash, under this number. Its payment gets the number that is 15 more. -/
def standInMelts (tid : ℕ) (noteId hash : Str) : List (Choice (mint cfg)) :=
  standInAsks tid (.getWithdrawCallback [noteId] (some ("ln".toList ++ hash)) none none none) ++
    standInGoes 3 1 ++ [.answer tid (standInAnswer [] true)] ++ standInGoes 12 1

/-- A share, named by a character of the alphabet other than the separator. -/
def standInCx1 (c : Char) : Str :=
  "cx1".toList ++ List.replicate 32 'q' ++ 'z' :: List.replicate 32 c ++ List.replicate 6 'q'

/-- What its owner sends to prove this of a name. -/
def standInForm (action : ProofAction) (name : Str) (c : Char) : Form :=
  let share := (decodeCx1 .standIn (standInCx1 c)).getD []
  let domain := (mintDomain Settings.standIn "mint".toList).toOption.getD []
  let message := registerMessage action domain name (standInCx1 c)
  ⟨[("cx1".toList, standInCx1 c), ("sig".toList, hex (share.drop 33 ++ utf8 message))], []⟩

/-- A name is registered to a share, under this number. -/
def standInRegisters (tid : ℕ) (name : Str) (share : Char) (now : ℤ) : List (Choice (mint cfg)) :=
  standInAsks tid (.registerUsername name (standInForm .register name share)) ++ standInGoes 2 now

/-- An invoice with this hash is made out for a registered name, under this number. -/
def standInSells (tid : ℕ) (name hash : Str) (now : ℤ) : List (Choice (mint cfg)) :=
  standInAsks tid (.getPayCallbackForUsername name 10000 none none none) ++ standInGoes 2 now ++
    [.answer tid (standInAnswer ("ln".toList ++ hash) true)] ++ standInGoes 2 now

/-- A name is freed by the owner of its share, under this number. -/
def standInFrees (tid : ℕ) (name : Str) (share : Char) (now : ℤ) : List (Choice (mint cfg)) :=
  standInAsks tid (.deleteRegisteredUsername name (standInForm .unregister name share)) ++
    standInGoes 3 now

theorem exists_standInRun {schedule : List (Choice (mint cfg))} {P : Config (mint cfg) → Bool}
    (h : (standInRun schedule).any P = true) :
    ∃ c, Reach State.initial c ∧ P c = true := by
  obtain ⟨c, hc, hp⟩ := (Option.any_eq_true _ _).1 h
  exact ⟨c, Reach.play .start hc, hp⟩

end Schedules

end LnurlMint
