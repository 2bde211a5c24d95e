import LnurlMint.Effects
import LnurlMint.Lib.Loop

/-!
# What the backends know about a payment

`is_payment_complete` is what decides whether a note that was to be melted is restored. Each of the
three funding source backends answers it in its own way, and the contract is one: paid if an attempt
to pay was reported successful, not paid if none was made or all that were made were reported
failed, and an exception for everything else.

lnd streams updates on the one payment, of which the first is read. Core Lightning returns a list of
attempts; the check looks for one that is pending and for one that is complete, and takes everything
that is neither for failed. The wallet of the spark backend has rows for its payments, which are
scanned page by page; a payment without a row is looked for once more after a sync, and is known not
to have been made only if this process itself turned it away.

## Main definitions

* `Attempt`, `Honest` — the contract
* `isPaymentCompleteLnd`, `isPaymentCompleteCln`, `isPaymentCompleteSpark`
* `lndReported`, `clnReported`, `sparkReported` — what was reported
* `Guesses` — an answer of Core Lightning that says too little

## Main results

* `isPaymentComplete_honest_iff`
-/

namespace LnurlMint

open Loop

/-! ## The contract -/

/-- What is reported of an attempt to pay: that it succeeded, that it failed for good, or something
else. -/
inductive Attempt
  | succeeded
  | failed
  | unsettled
deriving DecidableEq

/-- An answer is no guess: the payment is called complete only if an attempt was reported
successful, and not complete only if every attempt there was was reported failed. No report at all
allows neither. -/
structure Honest (reported : Option (List Attempt)) (answer : Option (Except Unit Bool)) :
  Prop where
  paid : answer = some (.ok true) → ∃ attempts, reported = some attempts ∧ .succeeded ∈ attempts
  unpaid : answer = some (.ok false) →
    ∃ attempts, reported = some attempts ∧ ∀ a ∈ attempts, a = .failed

/-! ## JSON, as the backends read it -/

namespace Json

/-- `value.get(name)`, which raises for anything but an object. -/
def field (name : String) : Json → Except Unit (Option Json)
  | .obj fields => .ok (fields.lookup name.toList)
  | _ => .error ()

/-- Whether a value counts as true. -/
def truthy : Json → Bool
  | .null => false
  | .bool b => b
  | .num value _ => value ≠ some 0
  | .str s => s ≠ []
  | .arr elems => !elems.isEmpty
  | .obj fields => !fields.isEmpty

/-- What iterating over a value yields: of an object its names, of a string its characters. -/
def iterate : Json → Except Unit (List Json)
  | .arr elems => .ok elems
  | .obj fields => .ok (fields.map fun field => .str field.1)
  | .str s => .ok (s.map fun c => .str [c])
  | _ => .error ()

/-- The list that a value is. -/
def arr? : Json → Option (List Json)
  | .arr elems => some elems
  | _ => none

/-- The status that an object says, if it is a string. -/
def status (value : Json) : Option Str := (value.get "status").bind str?

theorem field_eq_ok {name : String} {value : Json} {o : Option Json} :
    value.field name = .ok o ↔ (∃ fields, value = .obj fields) ∧ value.get name = o := by
  cases value <;> simp [field, get]

end Json

/-- `_raise_for_status`. -/
def raiseForStatus (status : ℕ) : Except Unit Unit :=
  if 200 ≤ status ∧ status < 300 then .ok () else .error ()

theorem raiseForStatus_ok {status : ℕ} {u : Unit} :
    raiseForStatus status = .ok u ↔ 200 ≤ status ∧ status < 300 := by
  rw [raiseForStatus]
  split <;> simp_all

/-! ## lnd -/

section Lnd

variable (d : Deps)

/-- A response to `TrackPaymentV2`: its HTTP status, and the lines of the stream until it ends or
breaks off. -/
structure LndReply where
  status : ℕ
  lines : List Str

/-- The status that a line of the stream reports. -/
def lndStatus (line : Str) : Except Unit (Option Str) := do
  let event ← (d.jsonLoads line).mapError fun _ => ()
  let payment := (← event.field "result").getD event
  return (← payment.field "status").bind Json.str?

/-- The loop of `_is_payment_complete_lnd`, which the first line that is not blank ends. -/
def trackLines : List Str → Except Unit Bool
  | [] => .error ()
  | line :: lines =>
    if strip line = [] then trackLines lines
    else do
      let status ← lndStatus d line
      if status = some "SUCCEEDED".toList then return true
      else if status = some "FAILED".toList then return false
      else throw ()

/-- `_is_payment_complete_lnd`. -/
def isPaymentCompleteLnd (paymentHash : Str) (reply : Except Unit LndReply) : Except Unit Bool :=
  match fromhex paymentHash with
  | none => .error ()
  | some _ => do
    let res ← reply
    if res.status = 404 then return false
    else do
      raiseForStatus res.status
      trackLines d res.lines

/-- What the status of an update says. -/
def lndAttempt (status : Option Str) : Attempt :=
  if status = some "SUCCEEDED".toList then .succeeded
  else if status = some "FAILED".toList then .failed
  else .unsettled

/-- What lnd reports: with status 404 that there was no attempt, and else, of the one payment, what
its first update says. -/
def lndReported (reply : Except Unit LndReply) : Option (List Attempt) :=
  reply.toOption.bind fun res =>
    if res.status = 404 then some []
    else (res.lines.find? fun line => strip line ≠ []).bind fun line =>
      (lndStatus d line).toOption.map fun status => [lndAttempt status]

variable {d}

theorem trackLines_eq_ok {lines : List Str} {answer : Bool} (h : trackLines d lines = .ok answer) :
    ∃ line status, lines.find? (fun line => strip line ≠ []) = some line ∧
      lndStatus d line = .ok status ∧
      lndAttempt status = if answer then .succeeded else .failed := by
  induction lines with
  | nil => cases h
  | cons line lines ih =>
    rw [trackLines] at h
    by_cases hblank : strip line = []
    · rw [if_pos hblank] at h
      obtain ⟨l, status, hl, hs, ha⟩ := ih h
      exact ⟨l, status, by rw [List.find?_cons_of_neg (by simpa using hblank), hl], hs, ha⟩
    · rw [if_neg hblank] at h
      refine ⟨line, ?_⟩
      cases hs : lndStatus d line with
      | error e =>
        rw [hs] at h
        cases h
      | ok status =>
        rw [hs] at h
        refine ⟨status, List.find?_cons_of_pos (by simpa using hblank), rfl, ?_⟩
        dsimp only [Bind.bind, Except.bind] at h
        rw [lndAttempt]
        split at h
        · rename_i hsucceeded
          cases h
          rw [if_pos hsucceeded]
          rfl
        · rename_i hsucceeded
          split at h
          · rename_i hfailed
            cases h
            rw [if_neg hsucceeded, if_pos hfailed]
            rfl
          · cases h

/-- lnd's answer is never a guess. -/
theorem honest_lnd (paymentHash : Str) (reply : Except Unit LndReply) :
    Honest (lndReported d reply) (some (isPaymentCompleteLnd d paymentHash reply)) := by
  have key : ∀ answer, isPaymentCompleteLnd d paymentHash reply = .ok answer →
      (answer = false ∧ lndReported d reply = some []) ∨
        lndReported d reply = some [if answer then .succeeded else .failed] := by
    intro answer h
    rw [isPaymentCompleteLnd] at h
    split at h
    · cases h
    cases reply with
    | error e => cases h
    | ok res =>
      dsimp only [Bind.bind, Except.bind] at h
      rw [lndReported]
      dsimp only [Except.toOption, Option.bind_some]
      split at h
      · rename_i hmissing
        cases h
        exact .inl ⟨rfl, if_pos hmissing⟩
      · rename_i hmissing
        rw [if_neg hmissing]
        split at h
        · cases h
        obtain ⟨line, status, hline, hstatus, hattempt⟩ := trackLines_eq_ok h
        rw [hline, Option.bind_some, hstatus, ← hattempt]
        exact .inr rfl
  constructor
  · intro h
    rcases key true (Option.some.inj h) with ⟨hfalse, -⟩ | hreported
    · cases hfalse
    · exact ⟨_, hreported, List.mem_singleton.2 rfl⟩
  · intro h
    rcases key false (Option.some.inj h) with ⟨-, hreported⟩ | hreported
    · exact ⟨_, hreported, by simp⟩
    · exact ⟨_, hreported, by simp⟩

end Lnd

/-! ## Core Lightning -/

section Cln

/-- A response to `listpays`: its HTTP status, and what `res.json()` gives. -/
structure ClnReply where
  status : ℕ
  body : Except Unit Json

/-- `any(pay.get("status") == status for pay in pays)`. -/
def anyStatus (status : String) : List Json → Except Unit Bool
  | [] => .ok false
  | pay :: pays => do
    let s ← pay.field "status"
    if s.bind Json.str? = some status.toList then return true else anyStatus status pays

/-- The two tests at the end of `_is_payment_complete_cln`. -/
def paysVerdict (pays : List Json) : Except Unit Bool := do
  if ← anyStatus "pending" pays then throw () else anyStatus "complete" pays

/-- What is iterated over: `pays`, or an empty list for what counts as false. -/
def paysOf (pays : Option Json) : Except Unit (List Json) :=
  ((pays.filter Json.truthy).getD (.arr [])).iterate

/-- `_is_payment_complete_cln`. -/
def isPaymentCompleteCln (reply : Except Unit ClnReply) : Except Unit Bool := do
  let res ← reply
  raiseForStatus res.status
  let body ← res.body
  let pays ← paysOf (← body.field "pays")
  paysVerdict pays

/-- What the status of an attempt says. -/
def clnAttempt (status : Option Str) : Attempt :=
  if status = some "complete".toList then .succeeded
  else if status = some "failed".toList then .failed
  else .unsettled

/-- What Core Lightning reports: the attempts on the list `pays` of its response, if there is one
and it is of objects. -/
def clnReported (reply : Except Unit ClnReply) : Option (List Attempt) :=
  reply.toOption.bind fun res =>
    if 200 ≤ res.status ∧ res.status < 300 then
      res.body.toOption.bind fun body =>
        ((body.get "pays").bind Json.arr?).bind fun pays => pays.mapM fun pay =>
          (pay.field "status").toOption.map fun _ => clnAttempt pay.status
    else none

/-- A successful response that does not say that there is no attempt, or that every one has failed,
but that the check takes for one: its `pays` is missing, or is no list and counts as false; or it is
a list on which nothing is pending or complete, and something is not failed. -/
def Guesses (reply : Except Unit ClnReply) : Prop :=
  ∃ res fields, reply = .ok res ∧ (200 ≤ res.status ∧ res.status < 300) ∧
    res.body = .ok (.obj fields) ∧
    ((∀ v, (Json.obj fields).get "pays" = some v →
        v.truthy = false ∧ ∀ pays, v ≠ .arr pays) ∨
      ∃ pays, (Json.obj fields).get "pays" = some (.arr pays) ∧
        (∀ pay ∈ pays, (∃ f, pay = .obj f) ∧ pay.status ≠ some "pending".toList ∧
          pay.status ≠ some "complete".toList) ∧
        ∃ pay ∈ pays, pay.status ≠ some "failed".toList)

theorem anyStatus_false {status : String} {pays : List Json} :
    anyStatus status pays = .ok false ↔
      ∀ pay ∈ pays, (∃ f, pay = .obj f) ∧ pay.status ≠ some status.toList := by
  induction pays with
  | nil => simp [anyStatus]
  | cons pay pays ih =>
    rw [List.forall_mem_cons, ← ih, anyStatus]
    cases hpay : pay.field "status" with
    | error e =>
      refine iff_of_false (fun h => by cases h) ?_
      rintro ⟨⟨⟨f, rfl⟩, -⟩, -⟩
      cases hpay
    | ok o =>
      obtain ⟨hobj, hget⟩ := Json.field_eq_ok.1 hpay
      dsimp only [Bind.bind, Except.bind]
      rw [Json.status, hget]
      by_cases hs : o.bind Json.str? = some status.toList
      · rw [if_pos hs]
        refine iff_of_false (fun h => by cases h) fun h => h.1.2 hs
      · rw [if_neg hs]
        exact ⟨fun h => ⟨⟨hobj, hs⟩, h⟩, fun h => h.2⟩

theorem anyStatus_true {status : String} {pays : List Json} (h : anyStatus status pays = .ok true) :
    ∃ pay ∈ pays, pay.status = some status.toList := by
  induction pays with
  | nil => cases h
  | cons pay pays ih =>
    rw [anyStatus] at h
    cases hpay : pay.field "status" with
    | error e =>
      rw [hpay] at h
      cases h
    | ok o =>
      obtain ⟨-, hget⟩ := Json.field_eq_ok.1 hpay
      rw [hpay] at h
      dsimp only [Bind.bind, Except.bind] at h
      split at h
      · rename_i hs
        exact ⟨pay, List.mem_cons_self, by rw [Json.status, hget, hs]⟩
      · obtain ⟨pay', hmem, hs⟩ := ih h
        exact ⟨pay', List.mem_cons_of_mem _ hmem, hs⟩

/-- What an answer says of the list. -/
theorem paysVerdict_eq_ok {pays : List Json} {answer : Bool} (h : paysVerdict pays = .ok answer) :
    (∀ pay ∈ pays, (∃ f, pay = .obj f) ∧ pay.status ≠ some "pending".toList) ∧
      anyStatus "complete" pays = .ok answer := by
  rw [paysVerdict] at h
  cases hpending : anyStatus "pending" pays with
  | error e =>
    rw [hpending] at h
    cases h
  | ok pending =>
    rw [hpending] at h
    cases pending with
    | true => cases h
    | false => exact ⟨anyStatus_false.1 hpending, h⟩

theorem paysVerdict_of_settled {pays : List Json} (h : ∀ pay ∈ pays, (∃ f, pay = .obj f) ∧
    pay.status ≠ some "pending".toList ∧ pay.status ≠ some "complete".toList) :
    paysVerdict pays = .ok false := by
  rw [paysVerdict, anyStatus_false.2 fun pay hp => ⟨(h pay hp).1, (h pay hp).2.1⟩]
  exact anyStatus_false.2 fun pay hp => ⟨(h pay hp).1, (h pay hp).2.2⟩

/-- A list of objects is reported as it is. -/
theorem mapM_clnAttempt {pays : List Json} (h : ∀ pay ∈ pays, ∃ f, pay = .obj f) :
    (pays.mapM fun pay => (pay.field "status").toOption.map fun _ => clnAttempt pay.status) =
      some (pays.map fun pay => clnAttempt pay.status) := by
  induction pays with
  | nil => rfl
  | cons pay pays ih =>
    obtain ⟨⟨f, rfl⟩, hrest⟩ := List.forall_mem_cons.1 h
    rw [List.mapM_cons, ih hrest]
    rfl

/-- What was read where an answer is given: a successful response with an object, and no `pays` that
counts as true but a list. -/
theorem isPaymentCompleteCln_eq_ok {reply : Except Unit ClnReply} {answer : Bool}
    (h : isPaymentCompleteCln reply = .ok answer) :
    ∃ res fields, reply = .ok res ∧ (200 ≤ res.status ∧ res.status < 300) ∧
      res.body = .ok (.obj fields) ∧
      ((∃ pays, (Json.obj fields).get "pays" = some (.arr pays) ∧ paysVerdict pays = .ok answer) ∨
        (∀ v, (Json.obj fields).get "pays" = some v →
          v.truthy = false ∧ ∀ pays, v ≠ .arr pays) ∧ answer = false) := by
  rw [isPaymentCompleteCln] at h
  cases reply with
  | error e => cases h
  | ok res =>
  dsimp only [Bind.bind, Except.bind] at h
  split at h
  · cases h
  rename_i hstatus
  split at h
  · cases h
  rename_i body hbody
  split at h
  · cases h
  rename_i o hfield
  obtain ⟨⟨fields, rfl⟩, hget⟩ := Json.field_eq_ok.1 hfield
  refine ⟨res, fields, rfl, raiseForStatus_ok.1 hstatus, hbody, ?_⟩
  rw [hget]
  split at h
  · cases h
  rename_i pays hpays
  by_cases htrue : ∃ v, o = some v ∧ v.truthy = true
  · obtain ⟨v, rfl, htrue⟩ := htrue
    rw [paysOf, Option.filter_some_pos htrue, Option.getD_some] at hpays
    -- what counts as true and is no list has elements that are no objects, or none
    have hobj := (paysVerdict_eq_ok h).1
    cases v with
    | arr elems =>
      cases hpays
      exact .inl ⟨pays, rfl, h⟩
    | obj fields =>
      cases hpays
      cases fields with
      | nil => cases htrue
      | cons field fields =>
        obtain ⟨⟨f, hf⟩, -⟩ := hobj _ List.mem_cons_self
        cases hf
    | str s =>
      cases hpays
      cases s with
      | nil => cases htrue
      | cons c s =>
        obtain ⟨⟨f, hf⟩, -⟩ := hobj _ List.mem_cons_self
        cases hf
    | _ => cases hpays
  · have hnone : o.filter Json.truthy = none := by
      rw [Option.filter_eq_none_iff]
      intro v hv hv'
      exact htrue ⟨v, hv, hv'⟩
    rw [paysOf, hnone] at hpays
    cases hpays
    obtain rfl : answer = false := (Except.ok.inj h).symm
    by_cases hlist : ∃ pays, o = some (.arr pays)
    · obtain ⟨pays, rfl⟩ := hlist
      cases pays with
      | nil => exact .inl ⟨[], rfl, h⟩
      | cons pay pays => exact absurd ⟨_, rfl, rfl⟩ htrue
    · refine .inr ⟨fun v hv => ⟨?_, fun pays hv' => hlist ⟨pays, hv' ▸ hv⟩⟩, rfl⟩
      exact Bool.eq_false_iff.2 fun hv' => htrue ⟨v, hv, hv'⟩

theorem clnReported_eq {res : ClnReply} {fields : List (Str × Json)}
    (hstatus : 200 ≤ res.status ∧ res.status < 300) (hbody : res.body = .ok (.obj fields))
    {pays : List Json} (hpays : (Json.obj fields).get "pays" = some (.arr pays))
    (hobj : ∀ pay ∈ pays, ∃ f, pay = .obj f) :
    clnReported (.ok res) = some (pays.map fun pay => clnAttempt pay.status) := by
  rw [← mapM_clnAttempt hobj]
  show (if 200 ≤ res.status ∧ res.status < 300 then _ else none) = _
  rw [if_pos hstatus, hbody]
  show ((((Json.obj fields).get "pays").bind Json.arr?).bind _) = _
  rw [hpays]
  rfl

/-- What there is no list for is not reported. -/
theorem clnReported_eq_none {res : ClnReply} {fields : List (Str × Json)}
    (hbody : res.body = .ok (.obj fields))
    (hpays : ∀ v, (Json.obj fields).get "pays" = some v →
      v.truthy = false ∧ ∀ pays, v ≠ .arr pays) : clnReported (.ok res) = none := by
  show (if 200 ≤ res.status ∧ res.status < 300 then _ else none) = _
  split
  · rw [hbody]
    show ((((Json.obj fields).get "pays").bind Json.arr?).bind _) = _
    have hnone : ((Json.obj fields).get "pays").bind Json.arr? = none := by
      rw [Option.bind_eq_none_iff]
      intro v hv
      have hlist := (hpays v hv).2
      cases v <;> first | rfl | exact absurd rfl (hlist _)
    rw [hnone]
    rfl
  · rfl

/-- **Core Lightning's answer is a guess exactly for such a response.** -/
theorem honest_cln_iff (reply : Except Unit ClnReply) :
    Honest (clnReported reply) (some (isPaymentCompleteCln reply)) ↔ ¬Guesses reply := by
  constructor
  · rintro hhonest ⟨res, fields, rfl, hstatus, hbody, hbad⟩
    have hfalse : isPaymentCompleteCln (.ok res) = .ok false := by
      rw [isPaymentCompleteCln]
      dsimp only [Bind.bind, Except.bind]
      rw [raiseForStatus, if_pos hstatus, hbody]
      rcases hbad with hnone | ⟨pays, hpays, hall, -⟩
      · have hfilter : ((Json.obj fields).get "pays").filter Json.truthy = none := by
          rw [Option.filter_eq_none_iff]
          intro v hv hv'
          rw [(hnone v hv).1] at hv'
          cases hv'
        have hread : paysOf ((Json.obj fields).get "pays") = .ok [] := by
          rw [paysOf, hfilter]
          rfl
        show (paysOf ((Json.obj fields).get "pays") >>= paysVerdict) = _
        rw [hread]
        rfl
      · have hread : paysOf ((Json.obj fields).get "pays") = .ok pays := by
          rw [paysOf, hpays]
          cases pays <;> rfl
        show (paysOf ((Json.obj fields).get "pays") >>= paysVerdict) = _
        rw [hread]
        exact paysVerdict_of_settled hall
    obtain ⟨attempts, hreported, hfailed⟩ := hhonest.unpaid (congrArg some hfalse)
    rcases hbad with hnone | ⟨pays, hpays, hall, pay, hmem, hpay⟩
    · rw [clnReported_eq_none hbody hnone] at hreported
      cases hreported
    · rw [clnReported_eq hstatus hbody hpays fun pay hp => (hall pay hp).1] at hreported
      cases hreported
      have hattempt := hfailed _ (List.mem_map_of_mem hmem)
      rw [clnAttempt, if_neg (hall pay hmem).2.2, if_neg hpay] at hattempt
      cases hattempt
  · intro hclear
    constructor
    · intro h
      obtain ⟨res, fields, rfl, hstatus, hbody, hread⟩ :=
        isPaymentCompleteCln_eq_ok (Option.some.inj h)
      rcases hread with ⟨pays, hpays, hverdict⟩ | ⟨-, hfalse⟩
      · obtain ⟨hall, hcomplete⟩ := paysVerdict_eq_ok hverdict
        obtain ⟨pay, hmem, hpay⟩ := anyStatus_true hcomplete
        refine ⟨_, clnReported_eq hstatus hbody hpays fun pay hp => (hall pay hp).1,
          List.mem_map.2 ⟨pay, hmem, ?_⟩⟩
        rw [clnAttempt, if_pos hpay]
      · cases hfalse
    · intro h
      obtain ⟨res, fields, rfl, hstatus, hbody, hread⟩ :=
        isPaymentCompleteCln_eq_ok (Option.some.inj h)
      rcases hread with ⟨pays, hpays, hverdict⟩ | ⟨hnone, -⟩
      · obtain ⟨hall, hcomplete⟩ := paysVerdict_eq_ok hverdict
        have hnot := anyStatus_false.1 hcomplete
        refine ⟨_, clnReported_eq hstatus hbody hpays fun pay hp => (hall pay hp).1, ?_⟩
        intro a ha
        obtain ⟨pay, hmem, rfl⟩ := List.mem_map.1 ha
        by_cases hpay : pay.status = some "failed".toList
        · rw [clnAttempt, if_neg (hnot pay hmem).2, if_pos hpay]
        · exact absurd ⟨res, fields, rfl, hstatus, hbody, .inr ⟨pays, hpays, fun pay hp =>
            ⟨(hall pay hp).1, (hall pay hp).2, (hnot pay hp).2⟩, pay, hmem, hpay⟩⟩ hclear
      · exact absurd ⟨res, fields, rfl, hstatus, hbody, .inl hnone⟩ hclear

end Cln

/-! ## Spark -/

section Spark

/-- The SDK's `PaymentStatus`. -/
inductive PaymentStatus
  | completed
  | pending
  | failed
deriving DecidableEq

/-- What is read off the details of a Lightning payment's HTLC. -/
structure HtlcDetails where
  paymentHash : Str
deriving DecidableEq

/-- The details of a payment. -/
inductive PaymentDetails
  | lightning (htlcDetails : Option HtlcDetails)
  | other
deriving DecidableEq

/-- A row of the SDK's payments. -/
structure SparkPayment where
  status : PaymentStatus
  details : Option PaymentDetails
deriving DecidableEq

/-- `_lightning_htlc`. -/
def lightningHtlc (payment : SparkPayment) : Option HtlcDetails :=
  match payment.details with
  | some (.lightning htlcDetails) => htlcDetails
  | _ => none

/-- `_PAYMENT_SCAN_PAGE`. -/
def paymentScanPage : ℕ := 100

/-- The payments of a page that name this hash. -/
def matching (paymentHash : Str) (page : List SparkPayment) : List SparkPayment :=
  page.filter fun payment => (lightningHtlc payment).map HtlcDetails.paymentHash = some paymentHash

/-- One turn of the loop of `_payments_by_hash`: on to the next page with what has matched, or out
of the loop after a page that is not full. -/
def scanTurn (fetch : ℕ → Except Unit (List SparkPayment)) (paymentHash : Str)
    (state : ℕ × List SparkPayment) :
    (ℕ × List SparkPayment) ⊕ Except Unit (List SparkPayment) :=
  match fetch state.1 with
  | .error e => .inr (.error e)
  | .ok page =>
    let matched := state.2 ++ matching paymentHash page
    if page.length < paymentScanPage then .inr (.ok matched) else .inl (state.1 + 1, matched)

/-- `_payments_by_hash`, within so many pages; `fetch` answers with one page after another. -/
def paymentsByHash (fetch : ℕ → Except Unit (List SparkPayment)) (paymentHash : Str) (turns : ℕ) :
    ExceptT Unit Option (List SparkPayment) :=
  turnsOf (scanTurn fetch paymentHash) turns (0, [])

/-- What the SDK does in one call: it is built, pages are fetched, both legs are probed on either
side of a sync, and pages are fetched again. And the hashes in `_prepare_rejected`. -/
structure SparkReply where
  sdk : Except Unit Unit
  before : ℕ → Except Unit (List SparkPayment)
  probe : Except Unit Unit
  sync : Except Unit Unit
  probeAgain : Except Unit Unit
  after : ℕ → Except Unit (List SparkPayment)
  prepareRejected : List Str

/-- The tests on the rows at the end of `_is_payment_complete_spark`. -/
def rowsVerdict (payments : List SparkPayment) : Except Unit Bool :=
  if payments = [] then .error ()
  else if payments.any fun p => p.status = .completed then .ok true
  else if payments.any fun p => p.status = .pending then .error ()
  else .ok false

/-- The rows for a payment that had none, after every chance to appear. -/
def rowsAfterSync (reply : SparkReply) (paymentHash : Str) (turns : ℕ) :
    ExceptT Unit Option (List SparkPayment) := do
  ExceptT.mk (some reply.probe)
  ExceptT.mk (some reply.sync)
  ExceptT.mk (some reply.probeAgain)
  paymentsByHash reply.after paymentHash turns

/-- `_is_payment_complete_spark`. -/
def isPaymentCompleteSpark (paymentHash : Str) (turns : ℕ) (reply : SparkReply) :
    ExceptT Unit Option Bool := do
  ExceptT.mk (some reply.sdk)
  let payments ← paymentsByHash reply.before paymentHash turns
  if payments = [] ∧ paymentHash ∈ reply.prepareRejected then return false
  else do
    let payments ← (if payments = [] then rowsAfterSync reply paymentHash turns else pure payments)
    ExceptT.mk (some (rowsVerdict payments))

/-- What the status of a row says. -/
def sparkAttempt : PaymentStatus → Attempt
  | .completed => .succeeded
  | .failed => .failed
  | .pending => .unsettled

/-- What rows report, if there are any. -/
def rowsReported (rows : Option (Except Unit (List SparkPayment))) : Option (List Attempt) :=
  match rows with
  | some (.ok (p :: ps)) => some ((p :: ps).map fun p => sparkAttempt p.status)
  | _ => none

/-- What the SDK and the registry report: the rows, if there are any; none if there is no row and
this process never sent the payment; and else the rows after the sync. -/
def sparkReported (paymentHash : Str) (turns : ℕ) (reply : SparkReply) : Option (List Attempt) :=
  match (paymentsByHash reply.before paymentHash turns).run with
  | some (.ok []) =>
    if paymentHash ∈ reply.prepareRejected then some []
    else rowsReported (paymentsByHash reply.after paymentHash turns).run
  | rows => rowsReported rows

theorem rowsVerdict_eq_ok {payments : List SparkPayment} {answer : Bool}
    (h : rowsVerdict payments = .ok answer) :
    rowsReported (some (.ok payments)) = some (payments.map fun p => sparkAttempt p.status) ∧
      if answer then .succeeded ∈ payments.map fun p => sparkAttempt p.status
      else ∀ a ∈ payments.map fun p => sparkAttempt p.status, a = .failed := by
  rw [rowsVerdict] at h
  split at h
  · cases h
  rename_i hne
  constructor
  · cases payments with
    | nil => exact absurd rfl hne
    | cons p ps => rfl
  split at h
  · rename_i hcompleted
    cases h
    obtain ⟨p, hmem, hp⟩ := List.any_eq_true.1 hcompleted
    exact List.mem_map.2 ⟨p, hmem, by rw [of_decide_eq_true hp]; rfl⟩
  rename_i hcompleted
  split at h
  · cases h
  rename_i hpending
  cases h
  intro a ha
  obtain ⟨p, hmem, rfl⟩ := List.mem_map.1 ha
  cases hstatus : p.status with
  | completed => exact absurd (List.any_eq_true.2 ⟨p, hmem, decide_eq_true hstatus⟩) hcompleted
  | pending => exact absurd (List.any_eq_true.2 ⟨p, hmem, decide_eq_true hstatus⟩) hpending
  | failed => rfl

theorem honest_of_rows {rows : Option (Except Unit (List SparkPayment))}
    {answer : Option (Except Unit Bool)}
    (h : ∀ b, answer = some (.ok b) → ∃ payments, rows = some (.ok payments) ∧
      rowsVerdict payments = .ok b) : Honest (rowsReported rows) answer := by
  constructor
  · intro hanswer
    obtain ⟨payments, rfl, hverdict⟩ := h true hanswer
    obtain ⟨hreported, hall⟩ := rowsVerdict_eq_ok hverdict
    exact ⟨_, hreported, by simpa using hall⟩
  · intro hanswer
    obtain ⟨payments, rfl, hverdict⟩ := h false hanswer
    obtain ⟨hreported, hall⟩ := rowsVerdict_eq_ok hverdict
    exact ⟨_, hreported, by simpa using hall⟩

/-- A sequence of calls that returns has returned from each. -/
theorem run_bind_eq_ok {α β : Type} {x : ExceptT Unit Option α} {f : α → ExceptT Unit Option β}
    {b : β} (h : (x >>= f).run = some (.ok b)) :
    ∃ a, x.run = some (.ok a) ∧ (f a).run = some (.ok b) := by
  rw [ExceptT.run_bind] at h
  obtain ⟨r, hr, h⟩ := Option.bind_eq_some_iff.1 h
  cases r with
  | error e => cases h
  | ok a => exact ⟨a, hr, h⟩

/-- What was read where an answer is given: rows that the answer is of, or no row of a payment that
was not sent. -/
theorem isPaymentCompleteSpark_eq_ok {paymentHash : Str} {turns : ℕ} {reply : SparkReply}
    {answer : Bool} (h : (isPaymentCompleteSpark paymentHash turns reply).run = some (.ok answer)) :
    ∃ payments, (paymentsByHash reply.before paymentHash turns).run = some (.ok payments) ∧
      if payments = [] then
        (paymentHash ∈ reply.prepareRejected ∧ answer = false) ∨
          (paymentHash ∉ reply.prepareRejected ∧ ∃ rows,
            (paymentsByHash reply.after paymentHash turns).run = some (.ok rows) ∧
              rowsVerdict rows = .ok answer)
      else rowsVerdict payments = .ok answer := by
  obtain ⟨_, -, h⟩ := run_bind_eq_ok h
  obtain ⟨payments, hbefore, h⟩ := run_bind_eq_ok h
  refine ⟨payments, hbefore, ?_⟩
  by_cases hempty : payments = []
  · rw [if_pos hempty]
    by_cases hrejected : paymentHash ∈ reply.prepareRejected
    · rw [if_pos ⟨hempty, hrejected⟩] at h
      cases h
      exact .inl ⟨hrejected, rfl⟩
    · rw [if_neg fun hr => hrejected hr.2, if_pos hempty] at h
      obtain ⟨rows, hrows, hverdict⟩ := run_bind_eq_ok h
      obtain ⟨_, -, hrows⟩ := run_bind_eq_ok hrows
      obtain ⟨_, -, hrows⟩ := run_bind_eq_ok hrows
      obtain ⟨_, -, hrows⟩ := run_bind_eq_ok hrows
      exact .inr ⟨hrejected, rows, hrows, Option.some.inj hverdict⟩
  · rw [if_neg hempty]
    rw [if_neg fun hr => hempty hr.1, if_neg hempty] at h
    obtain ⟨_, hpayments, hverdict⟩ := run_bind_eq_ok h
    cases hpayments
    exact Option.some.inj hverdict

/-- The spark backend's answer is never a guess. -/
theorem honest_spark (paymentHash : Str) (turns : ℕ) (reply : SparkReply) :
    Honest (sparkReported paymentHash turns reply)
      (isPaymentCompleteSpark paymentHash turns reply).run := by
  rw [sparkReported]
  split
  · rename_i hbefore
    split
    · rename_i hrejected
      refine ⟨fun h => ?_, fun _ => ⟨[], rfl, by simp⟩⟩
      obtain ⟨payments, hpayments, hread⟩ := isPaymentCompleteSpark_eq_ok h
      cases hbefore.symm.trans hpayments
      rw [if_pos rfl] at hread
      rcases hread with ⟨-, hfalse⟩ | ⟨hnot, -⟩
      · cases hfalse
      · exact absurd hrejected hnot
    · rename_i hrejected
      refine honest_of_rows fun b h => ?_
      obtain ⟨payments, hpayments, hread⟩ := isPaymentCompleteSpark_eq_ok h
      cases hbefore.symm.trans hpayments
      rw [if_pos rfl] at hread
      rcases hread with ⟨hmem, -⟩ | ⟨-, hrows⟩
      · exact absurd hmem hrejected
      · exact hrows
  · rename_i hbefore
    refine honest_of_rows fun b h => ?_
    obtain ⟨payments, hpayments, hread⟩ := isPaymentCompleteSpark_eq_ok h
    by_cases hempty : payments = []
    · subst hempty
      exact absurd hpayments hbefore
    · rw [if_neg hempty] at hread
      exact ⟨payments, hpayments, hread⟩

/-! ## The dispatch -/

/-- A scan meets a page that is not full, or that is not returned. -/
def PagesEnd (fetch : ℕ → Except Unit (List SparkPayment)) : Prop :=
  ∃ n, ∀ page, fetch n = .ok page → page.length < paymentScanPage

/-- The loop of a scan that meets such a page is left. -/
theorem leaves_scan {fetch : ℕ → Except Unit (List SparkPayment)} {paymentHash : Str} {n i : ℕ}
    (hend : ∀ page, fetch n = .ok page → page.length < paymentScanPage) (hi : i ≤ n)
    (matched : List SparkPayment) : ∃ r, Leaves (scanTurn fetch paymentHash) (i, matched) r := by
  obtain ⟨k, rfl⟩ := Nat.exists_eq_add_of_le hi
  induction k generalizing i matched with
  | zero =>
    cases hpage : fetch i with
    | error e => exact ⟨_, .leave (by rw [scanTurn, hpage])⟩
    | ok page =>
      have hturn : scanTurn fetch paymentHash (i, matched) =
          .inr (.ok (matched ++ matching paymentHash page)) := by
        rw [scanTurn, hpage]
        exact if_pos (hend page hpage)
      exact ⟨_, .leave hturn⟩
  | succ k ih =>
    cases hpage : fetch i with
    | error e => exact ⟨_, .leave (by rw [scanTurn, hpage])⟩
    | ok page =>
      by_cases hfull : page.length < paymentScanPage
      · have hturn : scanTurn fetch paymentHash (i, matched) =
            .inr (.ok (matched ++ matching paymentHash page)) := by
          rw [scanTurn, hpage]
          exact if_pos hfull
        exact ⟨_, .leave hturn⟩
      · have hturn : scanTurn fetch paymentHash (i, matched) =
            .inl (i + 1, matched ++ matching paymentHash page) := by
          rw [scanTurn, hpage]
          exact if_neg hfull
        rw [show i + (k + 1) = i + 1 + k by omega] at hend
        obtain ⟨r, hr⟩ := ih (matched ++ matching paymentHash page) hend (Nat.le_add_right _ _)
        exact ⟨r, .again hturn hr⟩

theorem PagesEnd.exists_turns {fetch : ℕ → Except Unit (List SparkPayment)} (h : PagesEnd fetch)
    (paymentHash : Str) :
    ∃ n, ∀ turns, n ≤ turns → ∃ r, (paymentsByHash fetch paymentHash turns).run = some r := by
  obtain ⟨n, hend⟩ := h
  obtain ⟨r, hr⟩ : ∃ r, Leaves (scanTurn fetch paymentHash) (0, []) r :=
    leaves_scan hend (Nat.zero_le n) []
  obtain ⟨turns, hturns⟩ := leaves_iff_turns.1 hr
  exact ⟨turns, fun k hk => ⟨r, turnsOf_mono hturns hk⟩⟩

theorem exists_run_bind {α β : Type} {x : ExceptT Unit Option α} {f : α → ExceptT Unit Option β}
    (hx : ∃ r, x.run = some r) (hf : ∀ a, ∃ r, (f a).run = some r) :
    ∃ r, (x >>= f).run = some r := by
  obtain ⟨r, hr⟩ := hx
  rw [ExceptT.run_bind, hr]
  cases r with
  | error e => exact ⟨_, rfl⟩
  | ok a => exact hf a

/-- A call whose scans end returns or raises. -/
theorem isPaymentCompleteSpark_returns {reply : SparkReply} (hbefore : PagesEnd reply.before)
    (hafter : PagesEnd reply.after) (paymentHash : Str) :
    ∃ n, ∀ turns, n ≤ turns →
      ∃ r, (isPaymentCompleteSpark paymentHash turns reply).run = some r := by
  obtain ⟨n, hn⟩ := hbefore.exists_turns paymentHash
  obtain ⟨k, hk⟩ := hafter.exists_turns paymentHash
  refine ⟨max n k, fun turns hle => ?_⟩
  refine exists_run_bind ⟨_, rfl⟩ fun _ => ?_
  refine exists_run_bind (hn turns (le_trans (le_max_left n k) hle)) fun payments => ?_
  split
  · exact ⟨_, rfl⟩
  · refine exists_run_bind ?_ fun _ => ⟨_, rfl⟩
    split
    · refine exists_run_bind ⟨_, rfl⟩ fun _ => exists_run_bind ⟨_, rfl⟩ fun _ => ?_
      exact exists_run_bind ⟨_, rfl⟩ fun _ => hk turns (le_trans (le_max_right n k) hle)
    · exact ⟨_, rfl⟩

end Spark

/-- What a backend does in one call. -/
inductive BackendReply
  | lnd (reply : Except Unit LndReply)
  | cln (reply : Except Unit ClnReply)
  | spark (reply : SparkReply)

/-- `is_payment_complete`: what the backend answers, or `none` if a scan needs more pages. -/
def FundingSource.isPaymentComplete (d : Deps) (paymentHash : Str) (turns : ℕ) :
    BackendReply → Option (Except Unit Bool)
  | .lnd reply => some (isPaymentCompleteLnd d paymentHash reply)
  | .cln reply => some (isPaymentCompleteCln reply)
  | .spark reply => (isPaymentCompleteSpark paymentHash turns reply).run

/-- What the backend reports. -/
def reported (d : Deps) (paymentHash : Str) (turns : ℕ) : BackendReply → Option (List Attempt)
  | .lnd reply => lndReported d reply
  | .cln reply => clnReported reply
  | .spark reply => sparkReported paymentHash turns reply

/-- **Which answers are no guesses**: all of lnd's and of the spark backend's, and of Core
Lightning's those to a response that says what the check takes it to say. And where the scans of the
spark backend come to an end, it returns or raises. -/
theorem isPaymentComplete_honest_iff (d : Deps) (paymentHash : Str) (b : BackendReply) :
    ((∀ turns, Honest (reported d paymentHash turns b)
        (FundingSource.isPaymentComplete d paymentHash turns b)) ↔
      ∀ reply, b = .cln reply → ¬Guesses reply) ∧
    ((∀ reply, b = .spark reply → PagesEnd reply.before ∧ PagesEnd reply.after) →
      ∃ n, ∀ turns, n ≤ turns →
        ∃ r, FundingSource.isPaymentComplete d paymentHash turns b = some r) := by
  cases b with
  | lnd reply =>
    refine ⟨iff_of_true (fun _ => honest_lnd paymentHash reply) fun _ h => (by cases h), ?_⟩
    exact fun _ => ⟨0, fun _ _ => ⟨_, rfl⟩⟩
  | cln reply =>
    constructor
    · constructor
      · rintro h _ ⟨⟩
        exact (honest_cln_iff reply).1 (h 0)
      · exact fun h _ => (honest_cln_iff reply).2 (h reply rfl)
    · exact fun _ => ⟨0, fun _ _ => ⟨_, rfl⟩⟩
  | spark reply =>
    refine ⟨iff_of_true (fun turns => honest_spark paymentHash turns reply)
      fun _ h => (by cases h), fun h => ?_⟩
    exact isPaymentCompleteSpark_returns (h reply rfl).1 (h reply rfl).2 paymentHash

/-- A response of Core Lightning to a query for a payment, as a successful one. -/
def clnResponse (fields : List (Str × Json)) : BackendReply := .cln (.ok ⟨200, .ok (.obj fields)⟩)

/-- One attempt whose status is none of the three. -/
def unknownStatus : List (Str × Json) :=
  [("pays".toList, .arr [.obj [("status".toList, .str "unknown".toList)]])]

/-- **An attempt with a status that is none of the three is taken for failed, and a response without
a list for an empty one.** -/
theorem payment_complete_guessed :
    (FundingSource.isPaymentComplete .standIn [] 0 (clnResponse unknownStatus) = some (.ok false) ∧
      ¬Honest (reported .standIn [] 0 (clnResponse unknownStatus))
        (FundingSource.isPaymentComplete .standIn [] 0 (clnResponse unknownStatus))) ∧
    FundingSource.isPaymentComplete .standIn [] 0 (clnResponse []) = some (.ok false) ∧
      ¬Honest (reported .standIn [] 0 (clnResponse []))
        (FundingSource.isPaymentComplete .standIn [] 0 (clnResponse [])) := by
  have hunknown : FundingSource.isPaymentComplete .standIn [] 0 (clnResponse unknownStatus) =
      some (.ok false) := rfl
  have hmissing : FundingSource.isPaymentComplete .standIn [] 0 (clnResponse []) =
      some (.ok false) := rfl
  refine ⟨⟨hunknown, fun h => ?_⟩, hmissing, fun h => ?_⟩
  · obtain ⟨attempts, hreported, hfailed⟩ := h.unpaid hunknown
    cases hreported
    exact absurd (hfailed .unsettled (by decide)) (by decide)
  · obtain ⟨attempts, hreported, -⟩ := h.unpaid hmissing
    cases hreported

end LnurlMint
