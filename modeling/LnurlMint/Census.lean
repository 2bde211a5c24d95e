import LnurlMint.Powers
import Mathlib.Tactic.Ring

/-!
# A census of the calls

How often may one request, or one background round, reach for the funding source? Each call is given
a weight by its kind, and a task a budget in terms of these weights. Since the weights are arbitrary
the budget bounds the number of calls of each kind and every combination of them: a lookup by
`/verify` asks about an incoming invoice or about an outgoing payment, never about both.

Two lists come out of the store and are worked through, so what the store may return matters: a poll
round reads at most as many rows as it asks for, and a reconcile round reads each payment hash once.

## Main definitions

* `Rpc`, `Call.rpc` — kinds of calls
* `Endpoint.budget`, `Task.budget` — budgets
* `mayReturn` — what the operations of the store may return

## Main results

* `rpc_census` — in every run, every task stays within its budget
-/

namespace LnurlMint

open Interleave

/-- The kinds of calls. -/
inductive Rpc
  | createInvoice
  | payInvoice
  | isPaymentComplete
  | isInvoiceSettled
  | invoicePreimage
  | paymentPreimage
  | signMessage
  | fetchNodeInfo
  | publish
  | sleep
deriving DecidableEq

/-- The kind of a call. -/
def Call.rpc : Call → Rpc
  | .createInvoice .. => .createInvoice
  | .payInvoice .. => .payInvoice
  | .isPaymentComplete _ => .isPaymentComplete
  | .isInvoiceSettled _ => .isInvoiceSettled
  | .invoicePreimage _ => .invoicePreimage
  | .paymentPreimage _ => .paymentPreimage
  | .signMessage .. => .signMessage
  | .fetchNodeInfo => .fetchNodeInfo
  | .publish .. => .publish
  | .sleep _ => .sleep

/-! ## Budgets -/

section Budgets

variable {d : Deps} (cfg : Settings d) (cost : Rpc → ℕ)

/-- What an endpoint's calls may cost. -/
def Endpoint.budget : Endpoint → ℕ
  | .registerUsername .. | .getPayCallback .. | .getPayCallbackForUsername _ _ _ _ none =>
    cost .createInvoice
  | .getLnaddress _ | .getPayCallbackForUsername _ _ _ _ (some _) => cost .isInvoiceSettled
  | .verifyInvoice _ =>
    max (cost .isInvoiceSettled + cost .invoicePreimage)
      (cost .isPaymentComplete + cost .paymentPreimage)
  | .getWithdraw .. => cost .isInvoiceSettled + cost .signMessage + cost .fetchNodeInfo
  | .getWithdrawCallback k1 none .. =>
    min k1.length cfg.maxK1s.toNat * cost .isInvoiceSettled + 2 * cost .signMessage
  | .getWithdrawCallback _ (some _) .. => cost .isInvoiceSettled
  | .updateRegisteredUsername .. | .deleteRegisteredUsername .. | .getNip05 _ => 0

/-- What a task's calls may cost, where that is bounded beforehand. -/
def Task.budget : Task → Option ℕ
  | .request r => some (r.endpoint.budget cfg cost)
  | .meltPay .. => some (cost .payInvoice + 6 * cost .isPaymentComplete + 5 * cost .sleep)
  | .settlePolledMints => some (2 * zapPollLimit * cost .isInvoiceSettled)
  | .reconcilePendingMelts | .publishZapReceipts => none

end Budgets

/-! ## What the store may return -/

/-- What an operation may return. -/
def mayReturn : (o : Op) → o.Out → Prop
  | .read (.pendingPolledMints _ limit), hashes => hashes.length ≤ limit
  | .read (.heldAddressFees _ limit), hashes => hashes.length ≤ limit
  | .read .pendingMelts, grouped => (grouped.map Prod.fst).Nodup
  | _, _ => True

namespace NoteStore

theorem map_fst_appendTo (key id : Str) (grouped : List (Str × List Str)) :
    (appendTo key id grouped).map Prod.fst = grouped.map Prod.fst ∨
      key ∉ grouped.map Prod.fst ∧
        (appendTo key id grouped).map Prod.fst = grouped.map Prod.fst ++ [key] := by
  induction grouped with
  | nil => exact .inr ⟨by simp, rfl⟩
  | cons group grouped ih =>
    obtain ⟨k, ids⟩ := group
    by_cases hk : k = key
    · exact .inl (by simp [appendTo, hk])
    · rcases ih with ih | ⟨hnot, ih⟩
      · exact .inl (by simp [appendTo, hk, ih])
      · exact .inr ⟨by simpa [Ne.symm hk] using hnot, by simp [appendTo, hk, ih]⟩

theorem nodup_appendTo {key id : Str} {grouped : List (Str × List Str)}
    (h : (grouped.map Prod.fst).Nodup) : ((appendTo key id grouped).map Prod.fst).Nodup := by
  rcases map_fst_appendTo key id grouped with he | ⟨hnot, he⟩
  · rwa [he]
  · rw [he, ← List.concat_eq_append]
    exact h.concat hnot

/-- Reserved notes are grouped by payment hash. -/
theorem nodup_pendingMelts (s : NoteStore) : (s.pendingMelts.map Prod.fst).Nodup := by
  refine List.foldlRecOn (motive := fun grouped : List (Str × List Str) =>
    (grouped.map Prod.fst).Nodup) s.notes.rows _ List.nodup_nil fun grouped h n _ => ?_
  split
  · split
    · exact nodup_appendTo h
    · exact h
  · exact h

end NoteStore

theorem exec_mayReturn {o : Op} {i : Input} {s s' : State} {out : o.Out}
    (h : exec o i s = some (out, s')) : mayReturn o out := by
  cases o with
  | read q =>
    obtain ⟨rfl, -⟩ := Prod.mk.inj (Option.some.inj h)
    cases q with
    | pendingPolledMints since limit =>
      refine (List.length_map _).trans_le ?_
      exact List.length_take_le _ _
    | heldAddressFees since limit =>
      refine (List.length_map _).trans_le ?_
      exact List.length_take_le _ _
    | pendingMelts => exact s.store.nodup_pendingMelts
    | _ => trivial
  | _ => trivial

/-! ## Shared subroutines -/

section Shared

variable {d : Deps} {cfg : Settings d} {cost : Rpc → ℕ} {α β : Type}

/-- The program's calls cost at most so much. -/
abbrev Spends (cost : Rpc → ℕ) (n : ℕ) (p : Mint α) : Prop :=
  Prog.Costs mayReturn (fun c : Call => cost c.rpc) n p

/-- Programs that make no call. -/
def offline : Scope mintSig := ⟨fun _ => True, fun _ => False, fun _ => True⟩

theorem looks_offline : Looks offline := ⟨fun _ => trivial, trivial, trivial⟩

theorem spends_zero {p : Mint α} {P : α → Prop} (h : p.Within offline P) : Spends cost 0 p :=
  .of_within h fun _ => False.elim

/-- What makes no call leaves the whole budget to what follows. -/
theorem spends_after {p : Mint α} {P : α → Prop} {f : α → Mint β} {n : ℕ} (h : p.Within offline P)
    (hf : ∀ x, P x → Spends cost n (f x)) : Spends cost n (p >>= f) :=
  .after h (fun _ => False.elim) hf

theorem spends_bind {p : Mint α} {P : α → Prop} {f : α → Mint β} {n : ℕ} (h : p.Within offline P)
    (hf : ∀ x, Spends cost n (f x)) : Spends cost n (p >>= f) :=
  spends_after h fun x _ => hf x

/-- What follows makes no call. -/
theorem spends_last {p : Mint α} {f : α → Mint β} {n : ℕ} (h : Spends cost n p)
    (hf : ∀ x, (f x).Within offline fun _ => True) : Spends cost n (p >>= f) :=
  h.bind (n := 0) fun x => spends_zero (hf x)

theorem spends_read {q : Query} {f : q.Out → Mint β} {n : ℕ} (hf : ∀ x, Spends cost n (f x)) :
    Spends cost n (read q >>= f) := fun x _ => hf x

theorem spends_ask (c : Call) : Spends cost (cost c.rpc) (ask c) := ⟨le_rfl, fun _ => trivial⟩

theorem spends_createInvoice {amountMsat : ℤ} {memo descriptionForHash : Option Str}
    {expirySecs : Option ℕ} : Spends cost (cost .createInvoice)
      (createInvoice amountMsat memo descriptionForHash expirySecs) :=
  spends_last (spends_ask (.createInvoice ..)) within_answer

theorem spends_isInvoiceSettled {h : Str} :
    Spends cost (cost .isInvoiceSettled) (isInvoiceSettled h) :=
  spends_last (spends_ask (.isInvoiceSettled h)) within_answer

theorem spends_isPaymentComplete {h : Str} :
    Spends cost (cost .isPaymentComplete) (isPaymentComplete h) :=
  spends_last (spends_ask (.isPaymentComplete h)) within_answer

theorem spends_catch {p : Mint α} {f : Exn → Mint α} {n : ℕ} (h : Spends cost n p)
    (hf : ∀ e, (f e).Within offline fun _ => True) : Spends cost n (tryCatch p f) :=
  h.tryCatch (n := 0) fun e => spends_zero (hf e)

theorem spends_attempt {p : Mint α} {n : ℕ} (h : Spends cost n p) :
    Spends cost n (p.attempt : Mint (Except Exn α)) :=
  h.thenE (n := 0) fun _ => trivial

theorem spends_rejectionsAnswered {p : Mint α} {rewrite : String → String} {n : ℕ}
    (h : Spends cost n p) : Spends cost n (rejectionsAnswered rewrite p) :=
  spends_catch h fun e => by cases e <;> trivial

theorem spends_burnErrorsAnswered {p : Mint α} {n : ℕ} (h : Spends cost n p) :
    Spends cost n (burnErrorsAnswered p) :=
  spends_catch h fun e => by cases e <;> trivial

theorem spends_settleMintIfPaid {h : Str} :
    Spends cost (cost .isInvoiceSettled) (settleMintIfPaid cfg h) := by
  rw [settleMintIfPaid]
  split
  · trivial
  · refine spends_last spends_isInvoiceSettled fun paid => ?_
    split
    · exact .bind (within_write trivial) fun _ _ => .pure trivial
    · exact .pure trivial

theorem spends_mintSettled {h : Str} :
    Spends cost (cost .isInvoiceSettled) (mintSettled cfg h) := by
  refine spends_read fun settled => ?_
  split
  · trivial
  · refine spends_read fun pending => ?_
    split
    · trivial
    · exact spends_settleMintIfPaid

theorem spends_addressFeeSettled {h : Str} :
    Spends cost (cost .isInvoiceSettled) (addressFeeSettled cfg h) := by
  refine spends_read fun fee => ?_
  split
  · trivial
  · split
    · trivial
    · split
      · trivial
      · refine spends_last spends_isInvoiceSettled fun paid => ?_
        split
        · exact .bind (within_write trivial) fun _ _ => .pure trivial
        · exact .pure trivial

theorem spends_mintPreimage {h : Str} :
    Spends cost (cost .invoicePreimage) (mintPreimage cfg h) := by
  rw [mintPreimage]
  split
  · trivial
  · exact spends_last (spends_ask (.invoicePreimage h)) fun _ => .pure trivial

theorem spends_meltPreimage {h : Str} :
    Spends cost (cost .paymentPreimage) (meltPreimage cfg h) := by
  rw [meltPreimage]
  split
  · trivial
  · exact spends_last (spends_ask (.paymentPreimage h)) fun _ => .pure trivial

theorem spends_meltSettled {h : Str} :
    Spends cost (cost .isPaymentComplete) (meltSettled cfg h) := by
  refine spends_read fun settled => ?_
  split
  · trivial
  · split
    · trivial
    · exact spends_catch spends_isPaymentComplete fun _ => .pure trivial

theorem spends_noteAmountById {id : Str} :
    Spends cost (cost .isInvoiceSettled) (noteAmountById cfg id) := by
  refine spends_read fun amountMsat => ?_
  split
  · trivial
  · refine spends_last (spends_read fun pending => ?_) fun settled => ?_
    · split
      · trivial
      · exact spends_settleMintIfPaid
    · split
      · exact within_read looks_offline
      · exact .pure trivial

theorem spends_verifiedNote {k1 : Str} :
    Spends cost (cost .isInvoiceSettled) (verifiedNote cfg k1) := by
  rw [verifiedNote]
  split
  · trivial
  · refine spends_last spends_noteAmountById fun _ => ?_
    refine .bind (within_read looks_offline) fun record _ => ?_
    split
    · trivial
    · refine .bind (.perform trivial) fun t _ => ?_
      split
      · trivial
      · exact .pure trivial

theorem spends_verifiedNotes (k1 : List Str) :
    Spends cost (k1.length * cost .isInvoiceSettled) (verifiedNotes cfg k1) := by
  induction k1 with
  | nil => trivial
  | cons k k1 ih =>
    rw [List.length_cons, Nat.succ_mul, Nat.add_comm]
    refine (spends_rejectionsAnswered spends_verifiedNote).bind fun note => ?_
    exact spends_last ih fun notes => .pure trivial

theorem spends_certificate {id dom : Str} {amountMsat : ℤ} :
    Spends cost (cost .signMessage) (certificate cfg id amountMsat dom) := by
  refine spends_last ?_ fun raw => ?_
  · rw [signNote]
    split
    · trivial
    · refine spends_last (spends_ask (.signMessage ..)) fun signed => ?_
      split
      · exact .pure trivial
      · exact .bind (.raiseIf _ _) fun _ _ => .pure trivial
  · split
    · exact .pure trivial
    · exact .bind (.ofExcept _) fun _ _ => .pure trivial

theorem spends_mintPubkey : Spends cost (cost .fetchNodeInfo) (mintPubkey cfg) := by
  rw [mintPubkey]
  split
  · trivial
  · trivial
  · refine spends_last (spends_ask .fetchNodeInfo) fun uri => ?_
    split <;> exact .pure trivial

end Shared

/-! ## The endpoints -/

section Endpoints

variable {d : Deps} {cfg : Settings d} {cost : Rpc → ℕ} {baseUrl : Str}

theorem registerUsername_spends {name : Str} {form : Form} :
    Spends cost (cost .createInvoice) (registerUsername cfg baseUrl name form) := by
  refine spends_bind (.raiseIf _ _) fun _ => spends_bind within_required fun cx1 => ?_
  refine spends_bind within_required fun sig => spends_bind (.raiseIf _ _) fun _ => ?_
  refine spends_bind (.orRaise _ _) fun share => spends_bind within_registeredNpub fun npub => ?_
  refine spends_bind (.ofExcept _) fun dom => spends_bind (.raiseIf _ _) fun _ => ?_
  split
  · exact spends_bind (within_valueErrorsAnswered (within_write trivial)) fun _ => trivial
  · refine spends_read fun taken => spends_bind (.raiseIf _ _) fun _ => ?_
    refine spends_bind within_requireFundingSource fun _ => spends_bind (.ofExcept _) fun _ => ?_
    refine spends_last (spends_attempt (spends_last spends_createInvoice fun _ => ?_)) fun _ => ?_
    · dsimp only
      split
      · trivial
      · exact .pure trivial
    · split
      · exact within_raiseInternal looks_offline
      · refine .bind (within_paymentHashOf looks_offline) fun _ _ => ?_
        exact .bind (within_valueErrorsAnswered (within_write trivial)) fun _ _ => .pure trivial

theorem updateRegisteredUsername_spends {name : Str} {form : Form} :
    Spends cost 0 (updateRegisteredUsername cfg baseUrl name form) :=
  .of_within updateRegisteredUsername_within fun c hc => by cases hc.2

theorem deleteRegisteredUsername_spends {name : Str} {form : Form} :
    Spends cost 0 (deleteRegisteredUsername cfg baseUrl name form) :=
  .of_within deleteRegisteredUsername_within fun c hc => by cases hc.2

theorem getLnaddress_spends {name : Str} :
    Spends cost (cost .isInvoiceSettled) (getLnaddress cfg baseUrl name) := by
  refine spends_last ?_ fun registered => .bind (.raiseIf _ _) fun _ _ =>
    .bind (.ofExcept _) fun _ _ => .bind (.orRaise _ _) fun _ _ => .pure trivial
  rw [answersFor]
  split
  · trivial
  · refine spends_bind (within_registeredUsernameBranch cfg looks_offline) fun branch => ?_
    split
    · trivial
    · rw [heldAndPaid]
      split
      · refine spends_read fun held => ?_
        split
        · trivial
        · refine spends_last spends_addressFeeSettled fun settled => ?_
          split
          · exact .bind (within_registeredUsernameBranch cfg looks_offline) fun _ _ => .pure trivial
          · exact .pure trivial
      · trivial

theorem payCallback_spends {amount : ℤ} {comment nostr username : Option Str} :
    Spends cost (cost .createInvoice)
      (payCallback cfg baseUrl amount comment nostr username) := by
  refine spends_bind (.raiseIf _ _) fun _ => spends_bind within_checkAmount fun _ => ?_
  refine spends_bind within_checkZap fun _ => spends_bind within_mintedNote fun noteId => ?_
  refine spends_bind within_requireFundingSource fun _ => ?_
  refine spends_last (spends_attempt spends_createInvoice) fun invoice => ?_
  split
  · exact within_raiseInternal looks_offline
  · refine .bind (within_paymentHashOf looks_offline) fun h _ => ?_
    exact .bind (within_valueErrorsAnswered (within_write trivial)) fun _ _ =>
      .bind (.ofExcept _) fun _ _ => .pure trivial

theorem internalTransfer_spends {name : Str} {amount : ℤ} {k1 : Str} :
    Spends cost (cost .isInvoiceSettled) (internalTransfer cfg name amount k1) := by
  refine spends_bind (.orRaise _ _) fun minSendable => spends_bind (.raiseIf _ _) fun _ => ?_
  refine spends_last (spends_rejectionsAnswered spends_verifiedNote) fun note => ?_
  refine .bind (within_read looks_offline) fun burn _ => ?_
  refine .bind (within_read looks_offline) fun recipient _ => ?_
  split
  · exact .pure trivial
  · refine .bind (.raiseIf _ _) fun _ _ => .bind (.raiseIf _ _) fun _ _ => ?_
    refine .bind (.raiseIf _ _) fun _ _ => ?_
    refine .bind (.attempt (within_write trivial)) fun credited _ => ?_
    split <;> trivial

theorem getPayCallbackForUsername_spends {name : Str} {amount : ℤ}
    {comment nostr k1 : Option Str} :
    Spends cost (Endpoint.budget cfg cost (.getPayCallbackForUsername name amount comment nostr k1))
      (getPayCallbackForUsername cfg baseUrl name amount comment nostr k1) := by
  refine spends_bind (within_registeredUsernameBranch cfg looks_offline) fun branch => ?_
  refine spends_bind (.raiseIf _ _) fun _ => ?_
  cases k1 with
  | none => exact spends_bind (.orRaise _ _) fun _ => payCallback_spends
  | some k1 => exact internalTransfer_spends

/-- An invoice is asked about where it came in, or where it went out. -/
theorem verifyInvoice_spends {h : Str} :
    Spends cost (Endpoint.budget cfg cost (.verifyInvoice h)) (verifyInvoice cfg h) := by
  have hresponse : ∀ {pr : Str} {isSettled : Mint Bool} {preimageOf : Mint (Option Str)}
      {m n : ℕ}, Spends cost m isSettled → Spends cost n preimageOf →
      Spends cost (m + n) (verifyResponse pr isSettled preimageOf) := by
    intro pr isSettled preimageOf m n hsettled hpreimage
    refine hsettled.bind fun settled => ?_
    split
    · exact spends_last hpreimage fun _ => .pure trivial
    · trivial
  refine spends_bind (.raiseIf _ _) fun _ => spends_read fun mintPr => ?_
  split
  · refine spends_read fun _ => spends_bind (.raiseIf _ _) fun _ => ?_
    exact (hresponse spends_mintSettled spends_mintPreimage).mono (le_max_left _ _)
  · refine spends_read fun fee => ?_
    split
    · exact (hresponse spends_addressFeeSettled spends_mintPreimage).mono (le_max_left _ _)
    · refine spends_read fun meltPr => ?_
      split
      · exact (hresponse spends_meltSettled spends_meltPreimage).mono (le_max_right _ _)
      · trivial

theorem getWithdraw_spends {k1 p : Option Str} {amount : Option ℤ} :
    Spends cost (Endpoint.budget cfg cost (.getWithdraw k1 p amount))
      (getWithdraw cfg baseUrl k1 p amount) := by
  rw [Endpoint.budget, Nat.add_assoc]
  refine Prog.Costs.bind ?_ fun queried => ?_
  · unfold queriedNote
    split
    · exact spends_last (spends_rejectionsAnswered spends_verifiedNote) fun _ => .pure trivial
    · refine spends_last (f := fun ref => _) ?_ fun ref => .bind (.orRaise _ _) fun id _ =>
        .bind (within_read looks_offline) fun record _ => .bind (.orRaise _ _) fun _ _ =>
          .pure trivial
      rw [noteByRef]
      split
      · trivial
      · exact spends_last spends_noteAmountById fun _ => .pure trivial
    · trivial
  · refine spends_bind (.raiseIf _ _) fun _ => spends_read fun pending => ?_
    refine spends_bind (.raiseIf _ _) fun _ => spends_bind (.ofExcept _) fun _ => ?_
    refine spends_bind (.ofExcept _) fun dom => spends_certificate.bind fun c => ?_
    exact spends_last spends_mintPubkey fun _ => .pure trivial

theorem replay_spends {p1 : Str} {p2 : Option Str} {amount1Msat : ℤ} {amount2Msat : Option ℤ} :
    Spends cost (2 * cost .signMessage) (replay cfg baseUrl p1 p2 amount1Msat amount2Msat) := by
  rw [Nat.two_mul]
  refine spends_bind (.ofExcept _) fun dom => spends_certificate.bind fun c => ?_
  split
  · exact spends_last spends_certificate fun _ => .pure trivial
  · trivial

theorem split_spends {ids : List Str} {totalMsat amount : ℤ} {p1 p2 : Str} :
    Spends cost (2 * cost .signMessage) (split cfg baseUrl ids totalMsat amount p1 p2) := by
  rw [Nat.two_mul]
  refine spends_bind (.raiseIf _ _) fun _ => spends_bind (.raiseIf _ _) fun _ => ?_
  refine spends_bind (.raiseIf _ _) fun _ => spends_bind (within_write trivial) fun _ => ?_
  refine spends_bind (.ofExcept _) fun dom => spends_certificate.bind fun c => ?_
  exact spends_last spends_certificate fun _ => .pure trivial

theorem merge_spends {ids : List Str} {totalMsat : ℤ} {p1 : Str} :
    Spends cost (2 * cost .signMessage) (merge cfg baseUrl ids totalMsat p1) := by
  refine Prog.Costs.mono (m := cost .signMessage) ?_ (by omega)
  refine spends_bind (within_write trivial) fun _ => spends_bind (.ofExcept _) fun dom => ?_
  exact spends_last spends_certificate fun _ => .pure trivial

theorem rotateSplitMerge_spends {notes : List Verified} {amount : Option ℤ} {p1 : Str}
    {p2 : Option Str} :
    Spends cost (2 * cost .signMessage) (rotateSplitMerge cfg baseUrl notes amount p1 p2) := by
  refine spends_read fun burn => ?_
  split
  · exact replay_spends
  · refine spends_bind within_unspentTotal fun totalMsat => ?_
    split
    · exact spends_burnErrorsAnswered split_spends
    · exact spends_burnErrorsAnswered merge_spends

theorem within_melt_offline {notes : List Verified} {pr : Str} :
    (melt cfg baseUrl notes pr).Within offline fun _ => True := by
  refine .bind within_unspentTotal fun totalMsat _ => ?_
  split
  · trivial
  · refine .bind (.raiseIf _ _) fun _ _ => ?_
    split
    · exact .bind within_requireFundingSource fun _ _ => trivial
    · refine .bind (within_read looks_offline) fun fee _ => ?_
      split
      · refine .bind (.raiseIf _ _) fun _ _ => ?_
        exact .bind (within_burnErrorsAnswered (within_write trivial)) fun _ _ =>
          .bind within_verifyUrl fun _ _ => .pure trivial
      · refine .bind (within_read looks_offline) fun _ _ => .bind (.raiseIf _ _) fun _ _ => ?_
        refine .bind (within_read looks_offline) fun _ _ => .bind (.raiseIf _ _) fun _ _ => ?_
        refine .bind within_requireFundingSource fun _ _ => ?_
        refine .bind (within_burnErrorsAnswered (within_write trivial)) fun _ _ => ?_
        refine .bind (.perform trivial) fun _ _ => ?_
        refine .bind (P := fun _ => True) (.tryCatch ?_ fun _ => ?_) fun _ _ => .pure trivial
        · refine .bind (within_write trivial) fun _ _ => .bind within_verifyUrl fun _ _ => ?_
          exact .bind (.start trivial) fun _ _ => .pure trivial
        · exact .bind (.perform trivial) fun _ _ => trivial

theorem getWithdrawCallback_spends {k1 : List Str} {pr : Option Str} {amount : Option ℤ}
    {p1 p2 : Option Str} :
    Spends cost (Endpoint.budget cfg cost (.getWithdrawCallback k1 pr amount p1 p2))
      (getWithdrawCallback cfg baseUrl k1 pr amount p1 p2) := by
  refine spends_after (P := fun _ => (k1.length : ℤ) ≤ cfg.maxK1s ∧ (pr ≠ none → k1.length ≤ 1)) ?_
    fun _ ⟨hmax, hone⟩ => ?_
  · refine .bind (.raiseIf _ _) fun _ _ => .bind (.raiseIf _ _) fun _ hmax => ?_
    refine .bind (.raiseIf _ _) fun _ hmelt => (Prog.Within.raiseIf _ _).weaken fun _ _ => ?_
    exact ⟨not_lt.1 hmax, fun hpr => not_lt.1 fun h =>
      hmelt ⟨Option.isSome_iff_ne_none.2 hpr, .inl h⟩⟩
  · cases pr with
    | some pr =>
      have hlen := hone (by simp)
      refine Prog.Costs.mono (m := k1.length * cost .isInvoiceSettled) ?_
        ((Nat.mul_le_mul_right _ hlen).trans (Nat.one_mul _).le)
      exact spends_last (spends_verifiedNotes k1) fun _ => within_melt_offline
    | none =>
      have hlen : min k1.length cfg.maxK1s.toNat = k1.length := by omega
      rw [Endpoint.budget, hlen]
      refine spends_bind (P := fun _ => True) ?_ fun outs => ?_
      · refine .bind (.orRaise _ _) fun _ _ => ?_
        split
        · exact .pure trivial
        · exact .bind (.orRaise _ _) fun _ _ => .pure trivial
      · exact (spends_verifiedNotes k1).bind fun notes => rotateSplitMerge_spends

end Endpoints

/-! ## Background tasks -/

section Background

variable {d : Deps} {cfg : Settings d} {cost : Rpc → ℕ}

theorem spends_confirmPayment {h : Str} (delays : List ℕ) :
    Spends cost ((delays.length + 1) * cost .isPaymentComplete + delays.length * cost .sleep)
      (confirmPayment h delays) := by
  induction delays with
  | nil =>
    rw [List.length_nil, Nat.zero_mul, Nat.add_zero, Nat.zero_add, Nat.one_mul]
    refine spends_last (spends_attempt spends_isPaymentComplete) fun completed => ?_
    split <;> exact .pure trivial
  | cons s delays ih =>
    have hbudget : ((s :: delays).length + 1) * cost .isPaymentComplete +
        (s :: delays).length * cost .sleep = cost .isPaymentComplete + (cost .sleep +
          ((delays.length + 1) * cost .isPaymentComplete + delays.length * cost .sleep)) := by
      rw [List.length_cons]
      ring
    rw [hbudget]
    refine (spends_attempt spends_isPaymentComplete).bind fun completed => ?_
    split
    · trivial
    · exact (spends_ask (.sleep s)).bind fun _ => ih

theorem payAndResolve_spends {ids : List Str} {pr : Str} {inv : Invoice} {amountMsat : ℤ} :
    Spends cost (cost .payInvoice + (6 * cost .isPaymentComplete + 5 * cost .sleep))
      (payAndResolve cfg ids pr inv amountMsat) := by
  refine (spends_ask (.payInvoice ..)).bind fun paid => ?_
  split
  · refine spends_bind (within_write trivial) fun _ => ?_
    split
    · exact (spends_zero (within_write trivial)).mono (Nat.zero_le _)
    · trivial
  · split
    · trivial
    · refine spends_last (spends_confirmPayment confirmationRetryDelaysSeconds) fun completed => ?_
      split
      · exact .pure trivial
      · exact within_write trivial
      · exact .bind (within_write trivial) fun _ _ => within_write trivial

theorem meltPay_spends {ids : List Str} {pr : Str} {inv : Invoice} :
    Spends cost (cost .payInvoice + (6 * cost .isPaymentComplete + 5 * cost .sleep))
      (meltPay cfg ids pr inv) := by
  refine spends_bind (.orRaise _ _) fun amountMsat => ?_
  refine Prog.Costs.andFinally (n := 0) payAndResolve_spends ?_
  exact spends_zero (P := fun _ => True) (.bind (.orRaise _ _) fun _ _ => .perform trivial)

theorem spends_forEach {α : Type} {f : α → Mint Unit} {n : ℕ} (h : ∀ x, Spends cost n (f x))
    (xs : List α) : Spends cost (xs.length * n) (forEach f xs) := by
  induction xs with
  | nil => trivial
  | cons x xs ih =>
    rw [List.length_cons, Nat.succ_mul, Nat.add_comm]
    exact (h x).bind fun _ => ih

/-- A round asks about as many invoices as it reads, and it reads as many as it asks for. -/
theorem settlePolledMints_spends :
    Spends cost (2 * zapPollLimit * cost .isInvoiceSettled) (settlePolledMints cfg) := by
  rw [Nat.mul_assoc, Nat.two_mul]
  refine spends_bind (within_now looks_offline) fun t => ?_
  refine Prog.Costs.perform_bind fun mints (hmints : mints.length ≤ zapPollLimit) => ?_
  refine Prog.Costs.bind ?_ fun _ => ?_
  · refine (spends_forEach (fun h => ?_) mints).mono (Nat.mul_le_mul_right _ hmints)
    exact spends_last spends_mintSettled fun _ => .pure trivial
  · refine Prog.Costs.perform_bind fun fees (hfees : fees.length ≤ zapPollLimit) => ?_
    refine (spends_forEach (fun h => ?_) fees).mono (Nat.mul_le_mul_right _ hfees)
    exact spends_last spends_addressFeeSettled fun _ => .pure trivial

/-- Whether a call asks about the payment with this hash. -/
def asksAfter (h : Str) : Call → ℕ
  | .isPaymentComplete h' => if h' = h then 1 else 0
  | _ => 0

/-- A round asks about a payment hash as often as the hash heads a group. -/
theorem reconcileAll_spends (h : Str) (grouped : List (Str × List Str)) :
    Prog.Costs mayReturn (asksAfter h) ((grouped.map Prod.fst).count h)
      (reconcileAll grouped) := by
  induction grouped with
  | nil => trivial
  | cons group grouped ih =>
    obtain ⟨h', ids⟩ := group
    rw [List.map_cons, List.count_cons, Nat.add_comm]
    refine Prog.Costs.perform_bind fun inFlight _ => ?_
    have hask : Prog.Costs mayReturn (asksAfter h) (if (h' == h) = true then 1 else 0)
        (confirmPayment h' []) := by
      refine ⟨by simp [asksAfter], fun ans => ?_⟩
      cases ans <;> trivial
    have hwrite : ∀ {u : Update} {p : Mint Unit} {n : ℕ}, Prog.Costs mayReturn (asksAfter h) n p →
        Prog.Costs mayReturn (asksAfter h) n (write u >>= fun _ => p) := fun hp =>
      .after (within_write (F := offline) trivial) (fun _ => False.elim) fun _ _ => hp
    cases inFlight with
    | true => exact ih.mono (Nat.le_add_left _ _)
    | false =>
      refine hask.bind fun completed => ?_
      split
      · exact ih
      · exact hwrite (hwrite ih)
      · exact hwrite ih

theorem reconcilePendingMelts_spends (h : Str) :
    Prog.Costs mayReturn (asksAfter h) 1 reconcilePendingMelts :=
  Prog.Costs.perform_bind fun grouped hgrouped =>
    (reconcileAll_spends h grouped).mono (List.nodup_iff_count_le_one.1 hgrouped h)

end Background

/-! ## Every run -/

section Runs

variable {d : Deps} {cfg : Settings d}

theorem route_spends (cost : Rpc → ℕ) (r : Request) :
    Spends cost (r.endpoint.budget cfg cost) (route cfg r) := by
  obtain ⟨baseUrl, endpoint⟩ := r
  cases endpoint with
  | registerUsername => exact registerUsername_spends
  | updateRegisteredUsername => exact updateRegisteredUsername_spends
  | deleteRegisteredUsername => exact deleteRegisteredUsername_spends
  | getNip05 => exact spends_zero (getNip05_within looks_offline)
  | getLnaddress => exact getLnaddress_spends
  | getPayCallback => exact payCallback_spends
  | getPayCallbackForUsername => exact getPayCallbackForUsername_spends
  | verifyInvoice => exact verifyInvoice_spends
  | getWithdraw => exact getWithdraw_spends
  | getWithdrawCallback => exact getWithdrawCallback_spends

theorem costs_safely {price : Call → ℕ} {p : Mint Unit} {n : ℕ}
    (h : Prog.Costs mayReturn price n p) : Prog.Costs mayReturn price n (safely p) :=
  h.thenE (n := 0) fun _ => trivial

/-- The program of every task that has a budget stays within it. -/
theorem body_spends (cost : Rpc → ℕ) (t : Task) {n : ℕ} (hn : t.budget cfg cost = some n) :
    Spends cost n (body cfg t) := by
  cases t with
  | request r =>
    cases hn
    refine spends_catch (route_spends cost r) fun e => ?_
    cases e with
    | http detail => exact .pure trivial
    | _ => exact .bind (within_logInternalError looks_offline) fun _ _ => .pure trivial
  | meltPay =>
    cases hn
    rw [Nat.add_assoc]
    exact costs_safely meltPay_spends
  | settlePolledMints =>
    cases hn
    exact costs_safely settlePolledMints_spends
  | reconcilePendingMelts => cases hn
  | publishZapReceipts => cases hn

/-- **A census of the calls.** In every run, whatever weights the kinds of calls are given, a
request, the payment of a melt and a poll round stay within their budgets; and a reconcile round
asks about no payment twice. -/
theorem rpc_census {s : State} {c : Config (mint cfg)} {a : Actor mintSig} (h : Reach s c)
    (ha : Joined c.w.hist a) :
    (∀ (cost : Rpc → ℕ) (n : ℕ), a.task.budget cfg cost = some n →
      spentBy (fun q : Call => cost q.rpc) a.tid c.w.hist ≤ n) ∧
    (a.task = .reconcilePendingMelts → ∀ h, spentBy (asksAfter h) a.tid c.w.hist ≤ 1) := by
  refine ⟨fun cost n hn => h.spentBy_le exec_mayReturn (body_spends cost a.task hn) ha,
    fun ht hash => h.spentBy_le exec_mayReturn ?_ ha⟩
  show Prog.Costs _ _ _ (body cfg a.task)
  rw [ht]
  exact costs_safely (reconcilePendingMelts_spends hash)

/-- The funding source fails at everything. -/
def noAnswer : (c : Call) → c.Ans
  | .createInvoice .. | .payInvoice .. | .isPaymentComplete _ | .isInvoiceSettled _
  | .invoicePreimage _ | .paymentPreimage _ | .signMessage .. | .fetchNodeInfo => .error ()
  | .publish .. => false
  | .sleep _ => ()

/-- The payment of a melt fails, and the funding source does not answer either what became of it. -/
def unconfirmedRun : List (Choice standInMint) :=
  payingRun ++ (List.replicate 11 [.answer 20 noAnswer, .step ⟨1, ""⟩]).flatten

/-- Whether the event spawns the payment of a melt with this number. -/
def spawnsMelt (tid : ℕ) : Event standInMint → Bool
  | .spawned _ ⟨tid', .meltPay ..⟩ => tid' = tid
  | _ => false

theorem rpc_census_unconfirmed : ∃ c : Config standInMint, Reach State.initial c ∧
    spentBy (fun q : Call => (fun _ => 1) q.rpc) 20 c.w.hist = 12 := by
  have hrun : (standInRun unconfirmedRun).any (fun c => c.w.hist.any (spawnsMelt 20) &&
      decide (12 ≤ spentBy (fun q : Call => (fun _ => 1) q.rpc) 20 c.w.hist)) = true := by
    decide +kernel
  obtain ⟨c, hc, h⟩ := exists_standInRun hrun
  obtain ⟨hspawned, hspent⟩ := (Bool.and_eq_true _ _).mp h
  obtain ⟨e, he, hspawns⟩ := List.any_eq_true.1 hspawned
  unfold spawnsMelt at hspawns
  split at hspawns
  · obtain rfl := of_decide_eq_true hspawns
    have hle := (rpc_census hc (.inr ⟨_, he⟩)).1 (fun _ => 1) 12 rfl
    exact ⟨c, hc, le_antisymm hle (of_decide_eq_true hspent)⟩
  · cases hspawns

end Runs

end LnurlMint
