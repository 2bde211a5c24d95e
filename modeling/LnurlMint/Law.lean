import LnurlMint.Lib.Wp
import LnurlMint.Lifecycle
import LnurlMint.Router.Redeem

/-!
# The law of the mint's programs

What every task of the mint may do, act by act, in terms of what it did and heard before and of the
state it meets. A write says what was heard or read that justifies it; a melt's four steps follow
each other with nothing between; a call to sign names a note on file or on record; and a request
that is done says what its answer rests on.

Nothing here speaks of other tasks. What holds of all runs is proved later from this law alone, one
event at a time, and the proof that the programs keep it is one short walk through each handler.

## Main definitions

* `Heard`, `Saw`, `Wrote` — what a task's history shows
* `Domainless`, `Linkless`, `Addressed` — what a base URL may leave out
* `law` — the law
* `Quiet`, `Later`, `Clean` — what a task leaves alone while it looks and settles
-/

namespace LnurlMint

open Interleave

/-! ## A task's own history -/

section History

variable {d : Deps} {cfg : Settings d}

/-- `a` made a call and this was the answer. -/
def Heard (w : World (mint cfg)) (a : Actor mintSig) (c : Call) (ans : c.Ans) : Prop :=
  ∃ pre, Event.answered a c ans pre ∈ w.hist

/-- `a` made a call and has just heard the answer. -/
def JustHeard (w : World (mint cfg)) (a : Actor mintSig) (c : Call) (ans : c.Ans) : Prop :=
  ∃ pre rest, w.hist = .answered a c ans pre :: rest

theorem JustHeard.heard {w : World (mint cfg)} {a : Actor mintSig} {c : Call} {ans : c.Ans}
    (h : JustHeard w a c ans) : Heard w a c ans := by
  obtain ⟨pre, rest, hh⟩ := h
  exact ⟨pre, by rw [hh]; exact List.mem_cons_self⟩

/-- `a` put a question to the store and this was the answer. -/
def Saw (w : World (mint cfg)) (a : Actor mintSig) (q : Query) (out : q.Out) : Prop :=
  ∃ i pre, Event.did a (.read q) i out pre ∈ w.hist

/-- `a` read this time. -/
def SawTime (w : World (mint cfg)) (a : Actor mintSig) (t : ℤ) : Prop :=
  ∃ i pre, Event.did a .now i t pre ∈ w.hist

/-- `a` ran a transaction and this was the outcome. -/
def Wrote (w : World (mint cfg)) (a : Actor mintSig) (u : Update) (r : Except Exn u.Out) : Prop :=
  ∃ i pre, Event.did a (.write u) i r pre ∈ w.hist

/-- `a` waits for no answer. -/
def Idle (w : World (mint cfg)) (a : Actor mintSig) : Prop :=
  ∀ c, (a.tid, c) ∉ outstanding w.hist

/-- Every reservation that `a` made went on to record its melt. -/
def Recorded (w : World (mint cfg)) (a : Actor mintSig) : Prop :=
  ∀ ids h, Wrote w a (.markPending ids h) (.ok ()) → ∃ pr, Wrote w a (.recordMelt h pr) (.ok ())

/-- A method by which a payment already made is seen. -/
def Update.Settles : Update → Prop
  | settleMint .. | settleAddressFee _ => True
  | _ => False

/-- An act that only looks, or settles what is paid. -/
def Quiet : Event (mint cfg) → Prop
  | .did _ (.write u) .. => u.Settles
  | .did _ (.trackMeltStart _) .. | .did _ (.trackMeltEnd _) .. => False
  | .spawned .. | .finished .. => False
  | _ => True

/-- `a` has only looked and settled so far. -/
def Clean (w : World (mint cfg)) (a : Actor mintSig) : Prop :=
  ∀ e ∈ w.hist, e.by? = some a.tid → Quiet e

/-- An act that burns, reserves, records, registers and schedules nothing: it only looks or settles,
or its transaction failed. -/
def Void : Event (mint cfg) → Prop
  | .did _ (.write u) _ r _ => u.Settles ∨ ∃ e, r = .error e
  | .did _ (.trackMeltStart _) .. | .did _ (.trackMeltEnd _) .. => False
  | .spawned .. => False
  | _ => True

/-- So are all of `a`'s acts. -/
def Harmless (w : World (mint cfg)) (a : Actor mintSig) : Prop :=
  ∀ e ∈ w.hist, e.by? = some a.tid → Void e

/-- `a` has reserved no note. -/
def Unreserved (w : World (mint cfg)) (a : Actor mintSig) : Prop :=
  ∀ ids h, ¬ Wrote w a (.markPending ids h) (.ok ())

/-- `a` has not tried to swap notes. -/
def Unswapped (w : World (mint cfg)) (a : Actor mintSig) : Prop :=
  ∀ burnIds mintNoteIds mintAmounts r, ¬ Wrote w a (.swap burnIds mintNoteIds mintAmounts) r

end History

/-! ## What requests name -/

section Names

variable (d : Deps)

/-- The note that a `k1` names. -/
def noteIdOf (k1 : Str) : Option Str := (Spend.parse d k1).map Spend.ParsedK1.noteId

theorem isHex_of_noteIdOf {k1 id : Str} (h : noteIdOf d k1 = some id) : IsHex id := by
  obtain ⟨parsed, -, he⟩ := Option.map_eq_some_iff.1 h
  rw [← he, parsed.noteId_eq]
  exact isHex_hex _

/-- The `k1`s name these notes, in this order. -/
def Named (k1 ids : List Str) : Prop := k1.map (noteIdOf d) = ids.map some

variable {d} in
theorem Named.ne_nil {k1 ids : List Str} (h : Named d k1 ids) (hne : k1 ≠ []) : ids ≠ [] := by
  rintro rfl
  exact hne (by simpa [Named] using h)

variable {d} in
theorem Named.length_eq {k1 ids : List Str} (h : Named d k1 ids) : ids.length = k1.length := by
  have hlen := congrArg List.length h
  rw [List.length_map, List.length_map] at hlen
  exact hlen.symm

variable {d} in
theorem Named.exists {k1 ids : List Str} (h : Named d k1 ids) {id : Str} (hid : id ∈ ids) :
    ∃ k ∈ k1, noteIdOf d k = some id := by
  have hid' : some id ∈ k1.map (noteIdOf d) := h ▸ List.mem_map_of_mem hid
  exact List.mem_map.1 hid'

/-- The outputs that a rotate, split or merge asks for. -/
def Asks (amount : Option ℤ) (p1 p2 : Option Str) (o1 : Str) (o2 : Option Str) : Prop :=
  p1.bind (Spend.decodeNote d) = some o1 ∧
    match amount with
    | none => o2 = none
    | some _ => o2.isSome = true ∧ p2.bind (Spend.decodeNote d) = o2

/-- What notes of these ids are worth on file. -/
def NoteStore.worth (s : NoteStore) (ids : List Str) : ℤ :=
  (ids.map fun id => (s.notes.find? id).elim 0 NoteRow.amountMsat).sum

/-- A share as registrations put it on file, and its key as they accept it. -/
def ShareOf (cx1 xp : Str) : Prop :=
  ∃ share : Bytes, share.length = 65 ∧ cx1 = hex share ∧ xp = hex (share.drop 33)

/-- The `k1`s by which a request means to spend notes. -/
def Task.spends : Task → Option (List Str)
  | .request ⟨_, .getWithdrawCallback k1 ..⟩ => some k1
  | .request ⟨_, .getPayCallbackForUsername _ _ _ _ (some k1)⟩ => some [k1]
  | _ => none

/-- A task that spends no note on request. -/
def NoCallback (t : Task) : Prop := t.spends = none

theorem NoCallback.elim {t : Task} (h : NoCallback t) {P : Prop} (k1 : List Str)
    (hk : t.spends = some k1) : P := by
  rw [h] at hk
  cases hk

/-- The payment hash that a created invoice goes by. -/
def createdHash (pr : Str) : Option Bytes → Option Str
  | some preimage => some (hex (d.sha256 preimage))
  | none => invoiceHash d pr

/-- The username whose address a task may be issuing an invoice for. -/
def Task.invoices : Task → Option Str
  | .request ⟨_, .getPayCallbackForUsername username ..⟩ => some (addressName d username)
  | _ => none

/-- A task that means to spend notes knows of a mint of theirs with this invoice; other tasks need
not know anything. -/
def AsksAbout {d : Deps} {cfg : Settings d} (w : World (mint cfg)) (a : Actor mintSig) (h : Str) :
    Prop :=
  ∀ k1, a.task.spends = some k1 → ∃ k ∈ k1, ∃ id amountMsat, noteIdOf d k = some id ∧
    Saw w a (.pendingMintByNoteId id) (some (h, amountMsat))

end Names

/-! ## Base URLs that cannot be read

A request's base URL is its `Host` header's. What is made up of it after a commit may raise. -/

section BaseUrls

variable {d : Deps} (cfg : Settings d)

/-- The mint's domain cannot be read off this base URL. -/
def Domainless (baseUrl : Str) : Prop := ∃ e, mintDomain cfg baseUrl = .error e

/-- The `verify` URL of a melt is advertised and cannot be made up from this base URL. -/
def Linkless (baseUrl : Str) : Prop :=
  cfg.verifyEnabled = true ∧ ∃ e, cfg.publicBaseUrl baseUrl = .error e

/-- What a redemption makes up of its base URL once it has committed can be made up: the domain of
the certificates, or the `verify` URL of a melt to this invoice. -/
def Addressed (baseUrl : Str) : Option Str → Prop
  | none => ¬ Domainless cfg baseUrl
  | some _ => ¬ Linkless cfg baseUrl

variable {cfg} {baseUrl : Str} {e : Exn}

theorem not_domainless_iff :
    ¬ Domainless cfg baseUrl ↔ ∃ dom, mintDomain cfg baseUrl = .ok dom := by
  rw [Domainless]
  cases mintDomain cfg baseUrl <;> simp

/-- What cannot be linked has no domain either. -/
theorem Linkless.domainless (h : Linkless cfg baseUrl) : Domainless cfg baseUrl := by
  obtain ⟨-, e, he⟩ := h
  exact ⟨e, by rw [mintDomain, Settings.publicBaseUrlAndHost, he]; rfl⟩

theorem not_http_of_urlHost {url : Str} (h : d.urlHost url = .error e) (detail : String) :
    e ≠ .http detail := by
  rw [Deps.urlHost] at h
  cases hread : d.hostname url with
  | ok host =>
    rw [hread] at h
    cases h
  | error text =>
    rw [hread] at h
    cases h
    exact Exn.noConfusion

theorem not_http_of_publicBaseUrl (h : cfg.publicBaseUrl baseUrl = .error e) (detail : String) :
    e ≠ .http detail := by
  rw [Settings.publicBaseUrl] at h
  split at h
  · split at h
    · cases h
    rcases bind_eq_error.1 h with h | ⟨_, -, h⟩
    · exact not_http_of_urlHost h detail
    rcases bind_eq_error.1 h with h | ⟨_, -, h⟩
    · exact not_http_of_urlHost h detail
    split at h <;> cases h
  · cases h

/-- What reading the domain raises is no answer to the client yet. -/
theorem not_http_of_mintDomain (h : mintDomain cfg baseUrl = .error e) (detail : String) :
    e ≠ .http detail := by
  rcases bind_eq_error.1 h with h | ⟨_, -, h⟩
  · rcases bind_eq_error.1 h with h | ⟨_, -, h⟩
    · exact not_http_of_publicBaseUrl h detail
    rcases bind_eq_error.1 h with h | ⟨host, -, h⟩
    · exact not_http_of_urlHost h detail
    cases host <;> cases h
    exact Exn.noConfusion
  · rcases bind_eq_error.1 h with h | ⟨_, -, h⟩
    · exact not_http_of_urlHost h detail
    split at h <;> cases h

end BaseUrls

/-! ## The law -/

section Law

variable {d : Deps} (cfg : Settings d) (w : World (mint cfg)) (a : Actor mintSig)

/-- The shape of a rotate, split or merge. -/
def Shape (k1 : List Str) (amount : Option ℤ) : Prop :=
  k1 ≠ [] ∧ k1.length ≤ cfg.maxK1s ∧ ¬ (cfg.sunsetMint = true ∧ amount.isSome = true)

/-- What so many notes of this total are swapped for. -/
def SwapAmounts (totalMsat : ℤ) (notes : ℕ) (amount : Option ℤ) (mintAmounts : List ℤ) : Prop :=
  match amount with
  | none => mintAmounts = [totalMsat + ((notes : ℤ) - 1) * cfg.baseFeeMsat]
  | some amount => 0 < amount ∧ 1 ≤ totalMsat - amount - cfg.baseFeeMsat ∧
      mintAmounts = [amount, totalMsat - amount - cfg.baseFeeMsat]

variable {cfg} in
/-- There is an amount for each output. -/
theorem SwapAmounts.length_eq {totalMsat : ℤ} {notes : ℕ} {amount : Option ℤ}
    {mintAmounts : List ℤ} {p1 p2 : Option Str} {o1 : Str} {o2 : Option Str}
    (h : SwapAmounts cfg totalMsat notes amount mintAmounts) (ho : Asks d amount p1 p2 o1 o2) :
    (o1 :: o2.toList).length = mintAmounts.length := by
  cases amount with
  | none =>
    obtain rfl : o2 = none := ho.2
    rw [show mintAmounts = [_] from h]
    rfl
  | some x =>
    obtain ⟨o2, rfl⟩ := Option.isSome_iff_exists.1 ho.2.1
    rw [h.2.2]
    rfl

/-- What justifies a transaction. -/
def MayWrite : Update → Prop
  | .createMint h pr amountMsat _ zap username =>
    NoCallback a.task ∧ cfg.sunsetMint = false ∧
    (∃ gross preimage, JustHeard w a (.createInvoice gross none zap none) (.ok (pr, preimage)) ∧
      createdHash d pr preimage = some h ∧ (cfg.minSendableMsat : ℤ) ≤ gross ∧
      amountMsat = gross - mintFeeMsat cfg gross ∧ (cfg.minMintMsat : ℤ) ≤ amountMsat ∧
      ∀ z, zap = some z → ∃ event, Nostr.validateZapRequest d z gross = .ok (.ok event)) ∧
    ∀ u, username = some u → a.task.invoices d = some u ∧
      ∃ branch, Saw w a (.usernameBranch (d.lower u)) (some branch)
  | .settleMint h derive =>
    derive = some (shareNoteId d) ∧ Heard w a (.isInvoiceSettled h) (.ok true) ∧ AsksAbout w a h
  | .swap burnIds mintNoteIds mintAmounts =>
    ∃ baseUrl k1 amount p1 p2 o1 o2,
      a.task = .request ⟨baseUrl, .getWithdrawCallback k1 none amount p1 p2⟩ ∧
      Shape cfg k1 amount ∧ Named d k1 burnIds ∧ Asks d amount p1 p2 o1 o2 ∧
      mintNoteIds = o1 :: o2.toList ∧
      SwapAmounts cfg (w.st.store.worth burnIds) burnIds.length amount mintAmounts ∧
      Unswapped w a
  | .transferToUsername burnIds username amountMsat derive =>
    ∃ baseUrl name comment nostr k1 id,
      a.task = .request
        ⟨baseUrl, .getPayCallbackForUsername name amountMsat comment nostr (some k1)⟩ ∧
      noteIdOf d k1 = some id ∧ burnIds = [id] ∧ username = addressName d name ∧
      derive = shareNoteId d ∧ amountMsat = w.st.store.worth burnIds
  | .markPending noteIds h =>
    Unreserved w a ∧ ∃ baseUrl k1 pr amount p1 p2 id n, ∃ inv : Invoice,
      a.task = .request ⟨baseUrl, .getWithdrawCallback k1 (some pr) amount p1 p2⟩ ∧
      Named d k1 noteIds ∧ noteIds = [id] ∧ d.decodeInvoice pr = .ok inv ∧
      inv.paymentHash = some h ∧ w.st.store.addressFee h = none ∧
      w.st.store.mintPr h = none ∧ w.st.store.meltPr h = none ∧
      w.st.store.notes.find? id = some n ∧ inv.amountMsat = some n.amountMsat
  | .recordMelt h pr =>
    (∃ baseUrl k1 amount p1 p2,
      a.task = .request ⟨baseUrl, .getWithdrawCallback k1 (some pr) amount p1 p2⟩) ∧
    invoiceHash d pr = some h ∧ ∃ ids i i' pre pre' rest,
      w.hist = .did a (.trackMeltStart h) i () pre ::
        .did a (.write (.markPending ids h)) i' (.ok ()) pre' :: rest
  | .finalizeMelt noteIds =>
    (∃ pr inv, a.task = .meltPay noteIds pr inv ∧ Clean w a ∧
      ((∃ limit fee pre rest,
          w.hist = .answered a (.payInvoice pr limit) (.ok fee) pre :: rest) ∨
        ∃ h pre rest, inv.paymentHash = some h ∧
          w.hist = .answered a (.isPaymentComplete h) (.ok true) pre :: rest)) ∨
    a.task = .reconcilePendingMelts ∧ ∃ h pre rest,
      w.hist = .answered a (.isPaymentComplete h) (.ok true) pre :: rest ∧
      (∃ pre', Event.called a (.isPaymentComplete h) pre' ∈ w.hist) ∧
      ∃ grouped, Saw w a .pendingMelts grouped ∧ (h, noteIds) ∈ grouped
  | .restore noteIds =>
    (∃ pr inv, a.task = .meltPay noteIds pr inv ∧ Clean w a ∧
      (∃ limit, Heard w a (.payInvoice pr limit) (.error ())) ∧
        ∃ h pre rest, inv.paymentHash = some h ∧
          w.hist = .answered a (.isPaymentComplete h) (.ok false) pre :: rest) ∨
    a.task = .reconcilePendingMelts ∧ ∃ h pre rest,
      w.hist = .answered a (.isPaymentComplete h) (.ok false) pre :: rest ∧
      (∃ pre', Event.called a (.isPaymentComplete h) pre' ∈ w.hist) ∧
      ∃ grouped, Saw w a .pendingMelts grouped ∧ (h, noteIds) ∈ grouped
  | .registerUsername username cx1 xp _ =>
    NoCallback a.task ∧ ShareOf cx1 xp ∧ registrableUsername cfg username = true
  | .updateUsername _ cx1 xp => NoCallback a.task ∧ ShareOf cx1 xp
  | .holdUsername h pr username cx1 xp .. =>
    NoCallback a.task ∧ ShareOf cx1 xp ∧ registrableUsername cfg username = true ∧
      ∃ amount memo expiry preimage,
      JustHeard w a (.createInvoice amount memo none expiry) (.ok (pr, preimage)) ∧
      createdHash d pr preimage = some h
  | .settleAddressFee h => NoCallback a.task ∧ Heard w a (.isInvoiceSettled h) (.ok true)
  | .deleteUsername username =>
    ∃ baseUrl name form sig row xp dom,
      a.task = .request ⟨baseUrl, .deleteRegisteredUsername name form⟩ ∧
      username = d.lower name ∧ form.get "sig".toList = some sig ∧
      w.st.store.usernames.find? username = some row ∧ shareXp row.cx1 = .ok (some xp) ∧
      mintDomain cfg baseUrl = .ok dom ∧ proves d .unregister dom username [] xp sig = true
  | .payAddressFeeWithNotes noteIds h totalMsat =>
    Clean w a ∧ ∃ baseUrl k1 pr amount p1 p2 id n feePr rest, ∃ inv : Invoice,
      a.task = .request ⟨baseUrl, .getWithdrawCallback k1 (some pr) amount p1 p2⟩ ∧
      Named d k1 noteIds ∧ noteIds = [id] ∧ d.decodeInvoice pr = .ok inv ∧
      inv.paymentHash = some h ∧ w.st.store.addressFee h = some (feePr, rest) ∧
      d.lower (strip pr) = d.lower feePr ∧ w.st.store.notes.find? id = some n ∧
      totalMsat = n.amountMsat
  | .markZapPublished .. | .markMeltSettled _ => NoCallback a.task

/-- What justifies a call. -/
def MayCall : Call → Prop
  | .signMessage noteId _ amountMsat =>
    (∃ n, w.st.store.notes.find? noteId = some n ∧ n.amountMsat = amountMsat) ∨
      ∃ b ∈ w.st.store.burns.rows, (noteId, amountMsat) ∈ b.outputs
  | .payInvoice pr _ =>
    (∃ ids inv, a.task = .meltPay ids pr inv) ∧
      ∀ pr' limit pre, Event.called a (.payInvoice pr' limit) pre ∉ w.hist
  | .isPaymentComplete h => a.task = .reconcilePendingMelts →
    w.st.inFlight h = 0 ∧ ∃ grouped ids, Saw w a .pendingMelts grouped ∧ (h, ids) ∈ grouped
  | .isInvoiceSettled h => AsksAbout w a h
  | _ => True

/-- What justifies a spawn: the three steps of a melt before it, with nothing between. -/
def MaySpawn (t : Task) : Prop :=
  ∃ id pr inv h n i₁ i₂ i₃ pre₁ pre₂ pre₃ rest, t = .meltPay [id] pr inv ∧
    d.decodeInvoice pr = .ok inv ∧ inv.paymentHash = some h ∧
    w.st.store.notes.find? id = some n ∧ inv.amountMsat = some n.amountMsat ∧
    w.hist = .did a (.write (.recordMelt h pr)) i₁ (.ok ()) pre₁ ::
      .did a (.trackMeltStart h) i₂ () pre₂ ::
      .did a (.write (.markPending [id] h)) i₃ (.ok ()) pre₃ :: rest

/-- What justifies that a melt leaves the registry: its payment has come to an end, or its request
cannot make up the `verify` URL, right after the record. -/
def MayDrop (h : Str) : Prop :=
  (∃ ids pr inv, a.task = .meltPay ids pr inv ∧ inv.paymentHash = some h ∧
    Idle w a ∧ (∃ limit pre, Event.called a (.payInvoice pr limit) pre ∈ w.hist) ∧
    ∀ h' i pre, Event.did a (.trackMeltEnd h') i () pre ∉ w.hist) ∨
  ∃ baseUrl k1 pr amount p1 p2 ids i₁ i₂ i₃ pre₁ pre₂ pre₃ rest,
    a.task = .request ⟨baseUrl, .getWithdrawCallback k1 (some pr) amount p1 p2⟩ ∧
    Linkless cfg baseUrl ∧
    w.hist = .did a (.write (.recordMelt h pr)) i₁ (.ok ()) pre₁ ::
      .did a (.trackMeltStart h) i₂ () pre₂ ::
      .did a (.write (.markPending ids h)) i₃ (.ok ()) pre₃ :: rest

/-- The certificate `c` is the mint's signature over a note of this id and amount, or is missing
because signing was not possible. -/
def Certified (c : Option Str) (noteId : Str) (amountMsat : ℤ) : Prop :=
  c = none ∨ ∃ dom rs recoveryId x,
    Heard w a (.signMessage noteId dom amountMsat) (.ok (rs, recoveryId)) ∧
    encodeCs1 d amountMsat (rs ++ [UInt8.ofNat recoveryId.toNat]) = .ok x ∧ c = some x

/-- A signature came back that no certificate can be made of. -/
def BadSignature : Prop :=
  ∃ noteId dom amountMsat rs recoveryId,
    Heard w a (.signMessage noteId dom amountMsat) (.ok (rs, recoveryId)) ∧
    (recoveryId < 0 ∨ 256 ≤ recoveryId ∨
      ∃ e, encodeCs1 d amountMsat (rs ++ [UInt8.ofNat recoveryId.toNat]) = .error e)

/-- Its transactions. -/
def OwnWrites : Prop :=
  ∀ u r, Wrote w a u r → u.Settles ∨
    ∃ burnIds mintNoteIds mintAmounts, u = .swap burnIds mintNoteIds mintAmounts

/-- What a rotate, split or merge that was answered OK rests on: a burn of exactly its notes, for
exactly its outputs. -/
structure Rests (k1 : List Str) (amount : Option ℤ) (p1 p2 : Option Str) (ids : List Str)
    (b : BurnRow) : Prop where
  shape : Shape cfg k1 amount
  named : Named d k1 ids
  asks : Asks d amount p1 p2 b.id b.id2
  mem : b ∈ w.st.store.burns.rows
  key : b.burnKey = NoteStore.burnKey ids
  amount : (if b.id2.isSome then some b.amount1Msat else none) = amount

/-- Why a rotate, split or merge may be answered with an error. -/
inductive Excuse (baseUrl : Str) (k1 : List Str) (amount : Option ℤ) (p1 p2 : Option Str) : Prop
  | shape (h : ¬ Shape cfg k1 amount)
  | outputs (h : ∀ o1 o2, ¬ Asks d amount p1 p2 o1 o2)
  | unparsed (k : Str) (hk : k ∈ k1) (h : noteIdOf d k = none)
  | missing (k id : Str) (hk : k ∈ k1) (hid : noteIdOf d k = some id)
      (h : w.st.store.notes.find? id = none)
  | unverified (k : Str) (parsed : Spend.ParsedK1 d) (t : ℤ) (n : NoteRow) (hk : k ∈ k1)
      (hp : Spend.parse d k = some parsed) (ht : SawTime w a t)
      (hn : w.st.store.notes.find? parsed.noteId = some n)
      (h : Spend.verify d parsed t n.lockedAt cfg.spendDomains ≠ none)
  | unanswered (h : Str) (hh : Heard w a (.isInvoiceSettled h) (.error ()))
  | unsettled (h : Str) (derive : Option DeriveNote) (e : Exn)
      (hw : Wrote w a (.settleMint h derive) (.error e))
  | fresh (ids : List Str) (o1 : Str) (o2 : Option Str) (hids : Named d k1 ids)
      (ho : Asks d amount p1 p2 o1 o2)
      (h : replayed o1 o2 amount (w.st.store.findBurn ids) = none)
  | domain (h : Domainless cfg baseUrl)
  | unsigned (h : BadSignature cfg w a)

/-- The notes and outputs of a request were found on record. -/
def Replays (ids : List Str) (amount : Option ℤ) (b : BurnRow) : Prop :=
  ∃ burn, Saw w a (.findBurn ids) burn ∧
    replayed b.id b.id2 amount burn = some (b.amount1Msat, b.amount2Msat)

/-- What the answer to a rotate, split or merge rests on. -/
def SwapAnswer (baseUrl : Str) (k1 : List Str) (amount : Option ℤ) (p1 p2 : Option Str)
    (resp : Response) : Prop :=
  ((∃ c c2 ids b, resp = .withdrawSuccess c c2 none none ∧
      Rests cfg w k1 amount p1 p2 ids b ∧ Certified cfg w a c b.id b.amount1Msat ∧
      (b.id2 = none → c2 = none) ∧
      (∀ id2 amount2Msat, b.id2 = some id2 → b.amount2Msat = some amount2Msat →
        Certified cfg w a c2 id2 amount2Msat) ∧
      (Replays cfg w a ids amount b ∨ Wrote w a (.swap ids (b.id :: b.id2.toList)
        (b.amount1Msat :: b.amount2Msat.toList)) (.ok ()))) ∨
    (∃ reason, resp = .error reason) ∧ Excuse cfg w a baseUrl k1 amount p1 p2) ∧
  OwnWrites cfg w a

/-- A withdrawal that ends in an error did nothing, or could not certify what it did. -/
def Blameless (baseUrl : Str) : Prop :=
  Harmless w a ∨ Domainless cfg baseUrl ∨ BadSignature cfg w a

/-- A melt has paid an address fee, or reserved its note. -/
def Committed : Prop :=
  (∃ ids h totalMsat username,
    Wrote w a (.payAddressFeeWithNotes ids h totalMsat) (.ok username)) ∨
  ∃ ids h, Wrote w a (.markPending ids h) (.ok ())

/-- A melt has committed, scheduled nothing, and cannot make up the `verify` URL of its answer. -/
structure Stranded (baseUrl : Str) : Prop where
  linkless : Linkless cfg baseUrl
  committed : Committed cfg w a
  unscheduled : ∀ b, .spawned a b ∉ w.hist

/-- What the answer to a melt rests on: an error on no harm, or on a commit that it cannot answer
for, and success on a commit. -/
def MeltAnswer (baseUrl : Str) (resp : Response) : Prop :=
  ((∃ reason, resp = .error reason) → Harmless w a ∨ Stranded cfg w a baseUrl) ∧
    ((∀ reason, resp ≠ .error reason) → Committed cfg w a)

/-- The payRequest's callback: the mint's own, or one that carries the name asked for. -/
def LeadsTo (baseUrl name callback : Str) : Prop :=
  ∃ base, cfg.publicBaseUrl baseUrl = .ok base ∧ callback = base ++
    if knownUsername cfg (addressName d name) then "/p/cb".toList
    else "/p/".toList ++ addressName d name

/-- What an answered transfer rests on: its own, or one on record. -/
def Transferred (username : Str) (amountMsat : ℤ) (id : Str) : Prop :=
  (∃ derive noteId, Wrote w a (.transferToUsername [id] username amountMsat derive) (.ok noteId)) ∨
    ∃ b ∈ w.st.store.burns.rows, b.burnKey = NoteStore.burnKey [id] ∧
      b.toUsername = some username ∧ b.amount1Msat = amountMsat

/-- What the outcome of a task rests on. -/
def Rested (resp : Response) : Prop :=
  match a.task with
  | .request ⟨baseUrl, .getWithdrawCallback k1 pr amount p1 p2⟩ =>
    ((∃ reason, resp = .error reason) → Blameless cfg w a baseUrl) ∧
      ((∀ reason, resp ≠ .error reason) → Addressed cfg baseUrl pr) ∧
      (pr = none → SwapAnswer cfg w a baseUrl k1 amount p1 p2 resp) ∧
      (pr ≠ none → MeltAnswer cfg w a baseUrl resp)
  | .request ⟨_, .getPayCallbackForUsername name amount _ _ (some k1)⟩ =>
    (∀ reason, resp ≠ .error reason) →
      ∃ id, noteIdOf d k1 = some id ∧ Transferred cfg w a (addressName d name) amount id
  | .request ⟨baseUrl, .registerUsername name form⟩ => (∀ reason, resp ≠ .error reason) →
    ∃ c share sig dom, form.get "cx1".toList = some c ∧ decodeCx1 d c = some share ∧
      form.get "sig".toList = some sig ∧ mintDomain cfg baseUrl = .ok dom ∧
      proves d .register dom (d.lower name) c (share.drop 33) sig = true ∧
      ((∃ cx1 npub, Wrote w a
          (.registerUsername (d.lower name) cx1 (hex (share.drop 33)) npub) (.ok ())) ∨
        ∃ h pr cx1 npub amountMsat expiresAt, Wrote w a
          (.holdUsername h pr (d.lower name) cx1 (hex (share.drop 33)) npub amountMsat expiresAt)
          (.ok ()))
  | .request ⟨baseUrl, .updateRegisteredUsername name form⟩ => (∀ reason, resp ≠ .error reason) →
    ∃ c share sig dom xp cx1, form.get "cx1".toList = some c ∧ decodeCx1 d c = some share ∧
      form.get "sig".toList = some sig ∧ mintDomain cfg baseUrl = .ok dom ∧
      proves d .update dom (d.lower name) c xp sig = true ∧
      Wrote w a (.updateUsername (d.lower name) cx1 (hex (share.drop 33))) (.ok ())
  | .request ⟨_, .deleteRegisteredUsername name _⟩ => (∀ reason, resp ≠ .error reason) →
    Wrote w a (.deleteUsername (d.lower name)) (.ok ())
  | .request ⟨baseUrl, .getLnaddress name⟩ =>
    ∀ callback minSendable maxSendable metadata withdrawLink commentAllowed nostrPubkey,
      resp = .payRequest callback minSendable maxSendable metadata withdrawLink commentAllowed
        nostrPubkey → LeadsTo cfg baseUrl name callback
  | .meltPay _ _ inv => inv.amountMsat = none ∨ inv.paymentHash = none ∨
    ∃ h i pre, Event.did a (.trackMeltEnd h) i () pre ∈ w.hist
  | _ => True

end Law

/-- **The law of the mint's programs.** -/
def law {d : Deps} (cfg : Settings d) : Law (mint cfg) where
  did w a o _ _ := match o with
    | .write u => MayWrite cfg w a u
    | .trackMeltStart h => ∃ ids i pre rest,
        w.hist = .did a (.write (.markPending ids h)) i (.ok ()) pre :: rest
    | .trackMeltEnd h => MayDrop cfg w a h
    | _ => True
  called w a c := Recorded w a ∧ MayCall cfg w a c
  spawned w a t := MaySpawn cfg w a t
  finished w a r :=
    Recorded w a ∧ (∃ resp, r = .ok resp) ∧ ∀ resp, r = .ok resp → Rested cfg w a resp

/-! ## Looking and settling -/

section Later

variable {d : Deps} {cfg : Settings d}

/-- Between two worlds `a` only looked and settled; others may have done anything. -/
structure Later (a : Actor mintSig) (w w' : World (mint cfg)) : Prop where
  hist : ∃ es, w'.hist = es ++ w.hist ∧ ∀ e ∈ es, e.by? = some a.tid → Quiet e
  evolves : w.st.store.Evolves w'.st.store

variable {a : Actor mintSig} {w w' w'' : World (mint cfg)}

theorem exec_evolves {o : Op} {i : Input} {s s' : State} {out : o.Out}
    (h : exec o i s = some (out, s')) : s.store.Evolves s'.store := by
  cases o with
  | write u =>
    obtain ⟨⟨r, store⟩, hr, he⟩ := Option.map_eq_some_iff.1 h
    cases he
    exact Update.evolves hr
  | _ => cases h; exact .refl _

theorem stir_store {m : Stir} {calls : List Call} {s s' : State}
    (h : stir d m calls s = some s') : s'.store = s.store := by
  cases m <;> simp only [stir] at h <;> split at h <;> cases h <;> rfl

theorem Later.refl (w : World (mint cfg)) : Later a w w := ⟨⟨[], rfl, by simp⟩, .refl _⟩

theorem Later.trans (h : Later a w w') (h' : Later a w' w'') : Later a w w'' := by
  obtain ⟨es, he, hes⟩ := h.hist
  obtain ⟨es', he', hes'⟩ := h'.hist
  refine ⟨⟨es' ++ es, by rw [he', he, List.append_assoc], fun e hm => ?_⟩,
    h.evolves.trans h'.evolves⟩
  exact (List.mem_append.1 hm).elim (hes' e) (hes e)

theorem Later.own {e : Event (mint cfg)} {s : State} (hq : Quiet e)
    (hs : w.st.store.Evolves s.store) : Later a w (w.record e s) :=
  ⟨⟨[e], rfl, by rintro _ (_ | ⟨_, ⟨⟩⟩) -; exact hq⟩, hs⟩

theorem Later.wait (h : Others a.tid w w') : Later a w w' := by
  obtain ⟨es, he, hes⟩ := h.hist
  refine ⟨⟨es, he, fun e hm hb => absurd hb (hes e hm)⟩, ?_⟩
  exact h.rel (R := fun s s' : State => s.store.Evolves s'.store) (fun _ => .refl _)
    (fun h h' => h.trans h') exec_evolves fun hs => by rw [stir_store hs]; exact .refl _

theorem Later.mem {e : Event (mint cfg)} (h : Later a w w') (he : e ∈ w.hist) : e ∈ w'.hist := by
  obtain ⟨es, heq, -⟩ := h.hist
  rw [heq]
  exact List.mem_append_right es he

theorem Heard.later {c : Call} {ans : c.Ans} (h : Heard w a c ans) (hl : Later a w w') :
    Heard w' a c ans :=
  h.imp fun _ he => hl.mem he

theorem Saw.later {q : Query} {out : q.Out} (h : Saw w a q out) (hl : Later a w w') :
    Saw w' a q out := by
  obtain ⟨i, pre, he⟩ := h
  exact ⟨i, pre, hl.mem he⟩

theorem SawTime.later {t : ℤ} (h : SawTime w a t) (hl : Later a w w') : SawTime w' a t := by
  obtain ⟨i, pre, he⟩ := h
  exact ⟨i, pre, hl.mem he⟩

theorem Wrote.later {u : Update} {r : Except Exn u.Out} (h : Wrote w a u r) (hl : Later a w w') :
    Wrote w' a u r := by
  obtain ⟨i, pre, he⟩ := h
  exact ⟨i, pre, hl.mem he⟩

theorem Clean.of_fresh (h : Fresh w a.tid) : Clean w a := fun e he hb => absurd hb (h e he)

theorem Clean.later (h : Clean w a) (hl : Later a w w') : Clean w' a := by
  obtain ⟨es, heq, hes⟩ := hl.hist
  intro e he hb
  rw [heq] at he
  exact (List.mem_append.1 he).elim (hes e · hb) (h e · hb)

theorem Clean.unscheduled (h : Clean w a) (b : Actor mintSig) : .spawned a b ∉ w.hist :=
  fun he => h _ he rfl

theorem Clean.settles {u : Update} {r : Except Exn u.Out} (h : Clean w a) (hw : Wrote w a u r) :
    u.Settles := by
  obtain ⟨i, pre, he⟩ := hw
  exact h _ he rfl

theorem Committed.later (h : Committed cfg w a) (hl : Later a w w') : Committed cfg w' a := by
  rcases h with ⟨ids, h, totalMsat, username, hw⟩ | ⟨ids, h, hw⟩
  exacts [.inl ⟨ids, h, totalMsat, username, hw.later hl⟩, .inr ⟨ids, h, hw.later hl⟩]

theorem Stranded.later {baseUrl : Str} (h : Stranded cfg w a baseUrl) (hl : Later a w w') :
    Stranded cfg w' a baseUrl := by
  refine ⟨h.linkless, h.committed.later hl, fun b hb => ?_⟩
  obtain ⟨es, heq, hes⟩ := hl.hist
  rw [heq] at hb
  exact (List.mem_append.1 hb).elim (fun hb => hes _ hb rfl) (h.unscheduled b)

theorem Quiet.void {e : Event (mint cfg)} (h : Quiet e) : Void e := by
  cases e with
  | did b o i out pre =>
    cases o with
    | write u => exact .inl h
    | trackMeltStart => exact h
    | trackMeltEnd => exact h
    | _ => trivial
  | spawned => exact h
  | _ => trivial

theorem Clean.harmless (h : Clean w a) : Harmless w a := fun e he hb => (h e he hb).void

theorem Harmless.later (h : Harmless w a) (hl : Later a w w') : Harmless w' a := by
  obtain ⟨es, heq, hes⟩ := hl.hist
  intro e he hb
  rw [heq] at he
  exact (List.mem_append.1 he).elim (fun he => (hes e he hb).void) (h e · hb)

/-- A transaction that failed did no harm. -/
theorem Harmless.failed {u : Update} {i : Input} {e : Exn} {s : State} (h : Harmless w a) :
    Harmless (w.record (.did a (.write u) i (.error e) w.st) s) a := by
  rintro _ (_ | ⟨_, hm⟩) hb
  exacts [.inr ⟨e, rfl⟩, h _ hm hb]

theorem Clean.unswapped (h : Clean w a) : Unswapped w a := fun _ _ _ _ hw => h.settles hw

theorem Clean.unreserved (h : Clean w a) : Unreserved w a := fun _ _ hw => h.settles hw

theorem Unreserved.later (h : Unreserved w a) (hl : Later a w w') : Unreserved w' a := by
  obtain ⟨es, heq, hes⟩ := hl.hist
  rintro ids hash ⟨i, pre, he⟩
  rw [heq] at he
  exact (List.mem_append.1 he).elim (fun he => hes _ he rfl) fun he => h ids hash ⟨i, pre, he⟩

theorem Unreserved.recorded (h : Unreserved w a) : Recorded w a := fun ids hash hw =>
  absurd hw (h ids hash)

/-- An act of `a`'s other than a reservation reserves nothing. -/
theorem Unreserved.record {e : Event (mint cfg)} {s : State} (h : Unreserved w a)
    (he : ∀ ids hash i pre, e ≠ .did a (.write (.markPending ids hash)) i (.ok ()) pre) :
    Unreserved (w.record e s) a := by
  rintro ids hash ⟨i, pre, hm⟩
  rcases List.mem_cons.1 hm with hm | hm
  exacts [he ids hash i pre hm.symm, h ids hash ⟨i, pre, hm⟩]

/-- A call that was just answered is not outstanding. -/
theorem Idle.of_answered {c : Call} {ans : c.Ans} {pre : State} {rest : List (Event (mint cfg))}
    (h : w.hist = .answered a c ans pre :: rest) : Idle w a := by
  intro c' hc
  rw [h, outstanding] at hc
  simp at hc

theorem Idle.did {o : Op} {i : Input} {out : o.Out} {pre s : State} (h : Idle w a) :
    Idle (w.record (.did a o i out pre) s) a := h

end Later

/-! ## Rules -/

section Rules

variable {d : Deps} {cfg : Settings d} {a : Actor mintSig} {w : World (mint cfg)}

theorem wp_read {q : Query} {Q : Except Exn q.Out → World (mint cfg) → Prop}
    (h : ∀ i w', Later a w w' → w'.st = w.st → Saw w' a q (q.answer i w.st.store) →
      Q (.ok (q.answer i w.st.store)) w') : wp (law cfg) a (read q) Q w := by
  refine wp_perform.2 fun i out s hs => ⟨trivial, ?_⟩
  cases hs
  exact h i _ (.own trivial (.refl _)) rfl ⟨i, _, List.mem_cons_self⟩

theorem wp_now {Q : Except Exn ℤ → World (mint cfg) → Prop}
    (h : ∀ t w', Later a w w' → w'.st = w.st → SawTime w' a t → Q (.ok t) w') :
    wp (law cfg) a now Q w := by
  refine wp_perform.2 fun i out s hs => ⟨trivial, ?_⟩
  cases hs
  exact h _ _ (.own trivial (.refl _)) rfl ⟨i, _, List.mem_cons_self⟩

theorem wp_logInternalError {context : String} {Q : Except Exn String → World (mint cfg) → Prop}
    (h : ∀ detail w', Later a w w' → w'.st = w.st → Q (.ok detail) w') :
    wp (law cfg) a (logInternalError context) Q w := by
  refine wp_bind.2 (wp_perform.2 fun i out s hs => ⟨trivial, ?_⟩)
  cases hs
  exact h _ _ (.own trivial (.refl _)) rfl

theorem wp_raiseInternal {α : Type} {context : String} {Q : Except Exn α → World (mint cfg) → Prop}
    (h : ∀ detail w', Later a w w' → w'.st = w.st → Q (.error (.http detail)) w') :
    wp (law cfg) a (raiseInternal context) Q w :=
  wp_bind.2 (wp_logInternalError h)

theorem wp_meltInFlight {h : Str} {Q : Except Exn Bool → World (mint cfg) → Prop}
    (hQ : ∀ w', Later a w w' → w'.st = w.st → Q (.ok (decide (w.st.inFlight h ≠ 0))) w') :
    wp (law cfg) a (perform (.meltInFlight h)) Q w := by
  refine wp_perform.2 fun i out s hs => ⟨trivial, ?_⟩
  cases hs
  exact hQ _ (.own trivial (.refl _)) rfl

/-- A transaction, whatever it does to the store. -/
theorem wp_write {u : Update} {Q : Except Exn u.Out → World (mint cfg) → Prop}
    (hu : MayWrite cfg w a u)
    (h : ∀ (i : Input) r s', u.run i w.st.store = some (r, s') →
      Q r (w.record (.did a (.write u) i r w.st) { w.st with store := s' })) :
    wp (law cfg) a (write u) Q w := by
  refine wp_bind.2 (wp_perform.2 fun i out s hs => ⟨hu, ?_⟩)
  obtain ⟨⟨r, s'⟩, hr, he⟩ := Option.map_eq_some_iff.1 hs
  cases he
  exact h i _ s' hr

/-- A transaction that settles. -/
theorem wp_settle {u : Update} {Q : Except Exn u.Out → World (mint cfg) → Prop}
    (hu : MayWrite cfg w a u) (hs : u.Settles)
    (h : ∀ r w', Later a w w' → Wrote w' a u r → Q r w') : wp (law cfg) a (write u) Q w :=
  wp_write hu fun i r _ hr => h r _ (.own hs (Update.evolves hr)) ⟨i, _, List.mem_cons_self⟩

theorem wp_ask {c : Call} {Q : Except Exn c.Ans → World (mint cfg) → Prop}
    (hr : Unreserved w a) (hc : MayCall cfg w a c)
    (h : ∀ ans w', Later a w w' → (∃ pre, Event.called a c pre ∈ w'.hist) →
      (∃ pre rest, w'.hist = .answered a c ans pre :: rest) → Q (.ok ans) w') :
    wp (law cfg) a (ask c) Q w := by
  refine Interleave.wp_ask.2 ⟨⟨hr.recorded, hc⟩, fun w₁ ho ans => ?_⟩
  have h₁ : Later a w (w.record (.called a c w.st) w.st) := .own trivial (.refl _)
  have h₂ : Later a w₁ (w₁.record (.answered a c ans w₁.st) w₁.st) := .own trivial (.refl _)
  refine h ans _ ((h₁.trans (.wait ho)).trans h₂) ⟨w.st, ?_⟩ ⟨w₁.st, w₁.hist, rfl⟩
  exact List.mem_cons_of_mem _ (ho.mem List.mem_cons_self)

theorem wp_answer {α : Type} {r : Except Unit α} {Q : Except Exn α → World (mint cfg) → Prop}
    (hok : ∀ x, r = .ok x → Q (.ok x) w) (herr : r = .error () → Q (.error .other) w) :
    wp (law cfg) a (answer r) Q w := by
  rcases r with ⟨⟩ | x
  exacts [herr rfl, hok x rfl]

end Rules

end LnurlMint
