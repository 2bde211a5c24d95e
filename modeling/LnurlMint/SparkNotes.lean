import LnurlMint.Payouts
import LnurlMint.SparkMelts

/-!
# The notes of a mint on a spark wallet

What becomes of a note that is being melted is decided by what the mint hears from its funding
source. Here the funding source is the spark backend, and both run for as long as they like: what
the backend is asked to pay is what the mint asks for, or less where a process died in between, and
what the mint hears of a payment is what a task of the backend said of it. Neither knows where the
other is in its work.

A note that is burned for a melt was then reserved for a payment that was made, and one that is
given back for a payment that was not. It may have been reserved again since: a round of
reconciliation goes by its list.

## Main definitions

* `RunsOn` — a mint and the wallet it runs on
* `Made` — a payment was made

## Main results

* `burned_was_paid`
* `restored_never_sent`
-/

namespace LnurlMint

open Interleave Spark

section Notes

variable {d : Deps} {cfg : Settings d} {sd : SparkDeps} {wallet : SparkSettings} {pages : ℕ}

/-- The mint of the one history runs on the wallet of the other. -/
structure RunsOn (mintHist : List (Event (mint cfg)))
    (hist : List (Event (spark d sd wallet pages))) : Prop where
  asks : (payAsks hist).Sublist (payCalls mintHist)
  paid : ∀ b pr feeLimitMsat fee pre,
    .answered b (.payInvoice pr feeLimitMsat) (.ok fee) pre ∈ mintHist →
      ∃ a preimage feeMsat pre', a.task = .payInvoice pr feeLimitMsat ∧
        .finished a (.ok (.paid preimage feeMsat)) pre' ∈ hist
  verdict : ∀ b hash made pre, .answered b (.isPaymentComplete hash) (.ok made) pre ∈ mintHist →
    ∃ rest a, Verdict hist hash made rest a

/-- The payment for this hash was made: it was listed as completed, or it completed when it was sent
and came with the preimage of the hash. -/
inductive Made (d : Deps) (hist : List (Event (spark d sd wallet pages))) (hash : Str) : Prop
  | listed {a : Actor sparkSig} {p : SdkPayment} (hlisted : ListedTo hist a hash p)
      (hstatus : p.status = .completed)
  | sent {a : Actor sparkSig} {sdk : ℕ} {prepared : SdkPrepared} {preferSpark : Bool} {timeout : ℕ}
      {key : Option Str} {payment : SdkPayment} {pre : SparkState} {preimage : Bytes}
      (hpays : paysFor d hash a.task = true)
      (hsent : .answered a (.sendPayment sdk prepared preferSpark timeout key) (.ok payment) pre ∈
        hist)
      (hstatus : payment.status = .completed) (hpreimage : hex (d.sha256 preimage) = hash)

/-! ## What the mint reserved -/

variable {s : State} {w w₀ : World (mint cfg)} {a b : Actor mintSig} {ids : List Str} {hash : Str}

/-- These notes were reserved for this hash, each on its own. -/
def Reserved (w : World (mint cfg)) (ids : List Str) (hash : Str) : Prop :=
  ∀ id ∈ ids, ∃ b, Wrote w b (.markPending [id] hash) (.ok ())

theorem Reserved.mono (h : Reserved w₀ ids hash) (hsub : ∀ e ∈ w₀.hist, e ∈ w.hist) :
    Reserved w ids hash := by
  intro id hid
  obtain ⟨b, hb⟩ := h id hid
  exact ⟨b, hb.mono hsub⟩

/-- A payment task pays for what it resolves. -/
theorem Run.reserved_of_meltPay (h : Run (law cfg) s w) (ha : Joined w.hist a) {pr : Str}
    {inv : Invoice} (ht : a.task = .meltPay ids pr inv) : ∃ hash, inv.paymentHash = some hash ∧
      invoiceHash d pr = some hash ∧ Reserved w ids hash := by
  obtain ⟨hash, id, rfl, hhash, hpr, b, _, _, _, -, hres, -⟩ := Run.pays h ha ht
  refine ⟨hash, hhash, hpr, fun id' hid => ?_⟩
  rw [List.mem_singleton.1 hid]
  exact ⟨b, hres⟩

/-- So were the notes of a round's list. -/
theorem Run.reserved_of_saw (h : Run (law cfg) State.initial w) {grouped : List (Str × List Str)}
    (hsaw : Saw w a .pendingMelts grouped) (hgroup : (hash, ids) ∈ grouped) :
    Reserved w ids hash := by
  obtain ⟨u₀, _, _, u₁, -, hn, hf, -, hres⟩ := Run.listed h hsaw hgroup
  exact Reserved.mono hres fun e he => (hn.follows.trans hf).mem he

/-- Notes are burned for a melt on the word that the payment they were reserved for was made. -/
theorem Run.finalized (h : Run (law cfg) State.initial w) {i : Input} {r : Except Exn Unit}
    {pre : State} (he : .did b (.write (.finalizeMelt ids)) i r pre ∈ w.hist) :
    ∃ hash, Reserved w ids hash ∧
      ((∃ pr feeLimitMsat fee pre', invoiceHash d pr = some hash ∧
          .answered b (.payInvoice pr feeLimitMsat) (.ok fee) pre' ∈ w.hist) ∨
        ∃ pre', .answered b (.isPaymentComplete hash) (.ok true) pre' ∈ w.hist) := by
  obtain ⟨w₀, w₁, h₀, hn, hf⟩ := h.past he
  have hsub : ∀ e ∈ w₀.hist, e ∈ w.hist := fun e he => (hn.follows.trans hf).mem he
  have hjoined := mem_alive (hn.step.alive rfl)
  rcases (Next.write hn).1 with ⟨pr, inv, ht, -, ⟨limit, fee, pre', rest, hh⟩ |
    ⟨hash, pre', rest, hhash, hh⟩⟩ | ⟨-, hash, pre', rest, hh, -, grouped, hsaw, hgroup⟩
  · obtain ⟨hash, -, hpr, hres⟩ := Run.reserved_of_meltPay h₀ hjoined ht
    exact ⟨hash, hres.mono hsub,
      .inl ⟨pr, limit, fee, pre', hpr, hsub _ (hh ▸ List.mem_cons_self)⟩⟩
  · obtain ⟨hash', hhash', -, hres⟩ := Run.reserved_of_meltPay h₀ hjoined ht
    obtain rfl := Option.some.inj (hhash.symm.trans hhash')
    exact ⟨hash, hres.mono hsub, .inr ⟨pre', hsub _ (hh ▸ List.mem_cons_self)⟩⟩
  · exact ⟨hash, (Run.reserved_of_saw h₀ hsaw hgroup).mono hsub,
      .inr ⟨pre', hsub _ (hh ▸ List.mem_cons_self)⟩⟩

/-- Notes are given back on the word that the payment they were reserved for was not made. -/
theorem Run.restored (h : Run (law cfg) State.initial w) {i : Input} {r : Except Exn Unit}
    {pre : State} (he : .did b (.write (.restore ids)) i r pre ∈ w.hist) :
    ∃ hash, Reserved w ids hash ∧
      ∃ pre', .answered b (.isPaymentComplete hash) (.ok false) pre' ∈ w.hist := by
  obtain ⟨w₀, w₁, h₀, hn, hf⟩ := h.past he
  have hsub : ∀ e ∈ w₀.hist, e ∈ w.hist := fun e he => (hn.follows.trans hf).mem he
  rcases (Next.write hn).1 with ⟨pr, inv, ht, -, -, hash, pre', rest, hhash, hh⟩ |
    ⟨-, hash, pre', rest, hh, -, grouped, hsaw, hgroup⟩
  · obtain ⟨hash', hhash', -, hres⟩ :=
      Run.reserved_of_meltPay h₀ (mem_alive (hn.step.alive rfl)) ht
    obtain rfl := Option.some.inj (hhash.symm.trans hhash')
    exact ⟨hash, hres.mono hsub, pre', hsub _ (hh ▸ List.mem_cons_self)⟩
  · exact ⟨hash, (Run.reserved_of_saw h₀ hsaw hgroup).mono hsub, pre',
      hsub _ (hh ▸ List.mem_cons_self)⟩

/-! Stand-ins in which the mint hears of one payment. -/

/-- Whether an event tells the mint of payments at most this: that this invoice was paid. -/
def hearsPaid (pr : Str) (feeLimitMsat : ℤ) : Event standInMint → Bool
  | .answered _ (.payInvoice pr' limit) (.ok _) _ => decide (pr' = pr ∧ limit = feeLimitMsat)
  | .answered _ (.isPaymentComplete _) (.ok _) _ => false
  | _ => true

/-- Whether an event tells the mint of payments at most this: that the one for this hash was not
made. -/
def hearsUnmade (hash : Str) : Event standInMint → Bool
  | .answered _ (.payInvoice ..) (.ok _) _ => false
  | .answered _ (.isPaymentComplete h) (.ok made) _ => decide (h = hash ∧ made = false)
  | _ => true

/-- Whether an event is that the wallet reports this payment. -/
def reportsPayment (pr : Str) (feeLimitMsat : ℤ) : Event standInSpark → Bool
  | .finished ⟨_, .payInvoice pr' limit⟩ (.ok (.paid ..)) _ =>
    decide (pr' = pr ∧ limit = feeLimitMsat)
  | _ => false

/-- Whether an event burns this note for a melt. -/
def finalizes (id : Str) : Event standInMint → Bool
  | .did _ (.write (.finalizeMelt ids)) _ _ _ => decide (id ∈ ids)
  | _ => false

theorem finalizes_eq_true {id : Str} {e : Event standInMint} (h : finalizes id e = true) :
    ∃ b ids i r pre, id ∈ ids ∧ e = .did b (.write (.finalizeMelt ids)) i r pre := by
  simp only [finalizes] at h
  split at h
  · exact ⟨_, _, _, _, _, of_decide_eq_true h, rfl⟩
  · cases h

/-- Whether an event gives this note back. -/
def givesBack (id : Str) : Event standInMint → Bool
  | .did _ (.write (.restore ids)) _ _ _ => decide (id ∈ ids)
  | _ => false

theorem givesBack_eq_true {id : Str} {e : Event standInMint} (h : givesBack id e = true) :
    ∃ b ids i r pre, id ∈ ids ∧ e = .did b (.write (.restore ids)) i r pre := by
  simp only [givesBack] at h
  split at h
  · exact ⟨_, _, _, _, _, of_decide_eq_true h, rfl⟩
  · cases h

theorem runsOn_of_hearsPaid {mintHist : List (Event standInMint)}
    {hist : List (Event standInSpark)} {pr : Str} {feeLimitMsat : ℤ}
    (hasks : payAsks hist = payCalls mintHist)
    (hhears : ∀ e ∈ mintHist, hearsPaid pr feeLimitMsat e = true)
    (hreports : ∃ e ∈ hist, reportsPayment pr feeLimitMsat e = true) : RunsOn mintHist hist where
  asks := hasks ▸ List.Sublist.refl _
  paid b pr' limit fee pre he := by
    obtain ⟨rfl, rfl⟩ : pr' = pr ∧ limit = feeLimitMsat := of_decide_eq_true (hhears _ he)
    obtain ⟨e', he', hreport⟩ := hreports
    simp only [reportsPayment] at hreport
    split at hreport
    · obtain ⟨rfl, rfl⟩ := of_decide_eq_true hreport
      exact ⟨_, _, _, _, rfl, he'⟩
    · cases hreport
  verdict b hash made pre he := by cases hhears _ he

theorem runsOn_of_hearsUnmade {mintHist : List (Event standInMint)}
    {hist rest : List (Event standInSpark)} {hash : Str} {a : Actor sparkSig}
    (hasks : payAsks hist = payCalls mintHist) (hhears : ∀ e ∈ mintHist, hearsUnmade hash e = true)
    (hverdict : Verdict hist hash false rest a) : RunsOn mintHist hist where
  asks := hasks ▸ List.Sublist.refl _
  paid b pr limit fee pre he := by cases hhears _ he
  verdict b hash' made pre he := by
    obtain ⟨rfl, rfl⟩ : hash' = hash ∧ made = false := of_decide_eq_true (hhears _ he)
    exact ⟨rest, a, hverdict⟩

/-! ## Both together -/

/-- **A note that is burned for a melt was paid out.** In every run of a mint on a spark wallet,
from when both were set up, whatever interleaves and however often either dies: notes that are
burned for a melt were reserved for a hash whose payment was made. -/
theorem burned_was_paid {m : Config (mint cfg)} (hm : Reach State.initial m)
    {c : Config (spark d sd wallet pages)} (h : Reach SparkState.initial c)
    (hon : RunsOn m.w.hist c.w.hist) {i : Input} {r : Except Exn Unit} {pre : State}
    (he : .did b (.write (.finalizeMelt ids)) i r pre ∈ m.w.hist) :
    ∃ hash, Reserved m.w ids hash ∧ Made d c.w.hist hash := by
  have hr := Reach.runSpark h
  obtain ⟨hash, hres, ⟨pr, limit, fee, pre', hpr, hheard⟩ | ⟨pre', hheard⟩⟩ :=
    Run.finalized (Reach.law hm) he
  · obtain ⟨a, preimage, feeMsat, pre'', htask, hpaid⟩ := hon.paid _ _ _ _ _ hheard
    obtain ⟨invoice, _, sdk, prepared, preferSpark, timeout, key, payment, pre₃, htask', hsent,
      hstatus, -, hpreimage⟩ := Run.reported hr hpaid
    obtain ⟨rfl, rfl⟩ := SparkTask.payInvoice.inj (htask.symm.trans htask')
    have hpays : paysFor d hash a.task = true := by
      rw [htask]
      exact decide_eq_true hpr
    exact ⟨hash, hres, .sent hpays hsent hstatus (hpreimage hash hpr)⟩
  · obtain ⟨rest, a, hverdict⟩ := hon.verdict _ _ _ _ hheard
    obtain ⟨p, hlisted, hstatus⟩ := Run.said_made hr hverdict
    exact ⟨hash, hres, .listed hlisted hstatus⟩

/-- A note is minted and melted into an invoice, which is paid. -/
def paidOutRun : List (Choice standInMint) :=
  standInMints 0 "h".toList (standInKey '1') ++ standInMelts 5 (standInKey '1') "aa".toList ++
    [.wake 20] ++ standInGoes 1 1 ++ [.answer 20 (standInAnswer [] true)] ++ standInGoes 4 1

theorem burned_was_paid_sent : ∃ (m : Config standInMint) (c : Config standInSpark) (hash : Str),
    Reach State.initial m ∧ Reach SparkState.initial c ∧
      (∃ e ∈ m.w.hist, finalizes (standInKey '1') e = true) ∧
      (∃ b, Wrote m.w b (.markPending [standInKey '1'] hash) (.ok ())) ∧
      Made .standIn c.w.hist hash := by
  have hmint : (standInRun paidOutRun).any (fun m =>
      m.w.hist.any (finalizes (standInKey '1')) &&
        decide (payCalls m.w.hist = [("lnaa".toList, 5000)]) &&
        m.w.hist.all (hearsPaid "lnaa".toList 5000)) = true := by
    decide +kernel
  have hwallet : (sparkRun sentRun).any (fun c =>
      decide (payAsks c.w.hist = [("lnaa".toList, 5000)]) &&
        c.w.hist.any (reportsPayment "lnaa".toList 5000)) = true := by
    decide +kernel
  obtain ⟨m, hm, h⟩ := exists_standInRun hmint
  simp only [Bool.and_eq_true, decide_eq_true_eq, List.all_eq_true, List.any_eq_true] at h
  obtain ⟨⟨⟨e, he, hburns⟩, hcalls⟩, hhears⟩ := h
  obtain ⟨c, hc, h⟩ := exists_sparkRun hwallet
  simp only [Bool.and_eq_true, decide_eq_true_eq, List.any_eq_true] at h
  have hon := runsOn_of_hearsPaid (h.1.trans hcalls.symm) hhears h.2
  obtain ⟨b, ids, i, r, pre, hid, rfl⟩ := finalizes_eq_true hburns
  obtain ⟨hash, hres, hmade⟩ := burned_was_paid hm hc hon he
  exact ⟨m, c, hash, hm, hc, ⟨_, he, hburns⟩, hres _ hid, hmade⟩

/-- **A note that is given back was not paid out.** In every such run, notes that are given back
were reserved for a hash whose payment was not made. -/
theorem restored_never_sent {m : Config (mint cfg)} (hm : Reach State.initial m)
    {c : Config (spark d sd wallet pages)} (h : Reach SparkState.initial c)
    (hon : RunsOn m.w.hist c.w.hist) {i : Input} {r : Except Exn Unit} {pre : State}
    (he : .did b (.write (.restore ids)) i r pre ∈ m.w.hist) :
    ∃ hash, Reserved m.w ids hash ∧
      ∃ rest a, Verdict c.w.hist hash false rest a ∧ Unmade d c.w.hist hash rest a := by
  obtain ⟨hash, hres, pre', hheard⟩ := Run.restored (Reach.law hm) he
  obtain ⟨rest, a, hverdict⟩ := hon.verdict _ _ _ _ hheard
  refine ⟨hash, hres, rest, a, hverdict, ?_⟩
  exact Run.said_unmade (Reach.runSpark h) (countP_asksFor_le hm hon.asks hash) hverdict

/-- The attempt fails, its payment is said not to be made, and the note is given back. -/
def givenBackRun : List (Choice standInMint) :=
  attemptedRun ++ [.answer 20 (standInAnswer [] false)] ++ standInGoes 1 1 ++
    [.answer 20 (standInAnswer [] false)] ++ standInGoes 3 1

theorem restored_never_sent_turned_away : ∃ (m : Config standInMint) (c : Config standInSpark)
    (hash : Str), Reach State.initial m ∧ Reach SparkState.initial c ∧
      (∃ e ∈ m.w.hist, givesBack (standInKey '1') e = true) ∧
      (∃ b, Wrote m.w b (.markPending [standInKey '1'] hash) (.ok ())) ∧
      ∃ rest a, Verdict c.w.hist hash false rest a ∧ Unmade .standIn c.w.hist hash rest a := by
  have hmint : (standInRun givenBackRun).any (fun m =>
      m.w.hist.any (givesBack (standInKey '1')) &&
        decide (payCalls m.w.hist = [("lnp".toList, 5000)]) &&
        m.w.hist.all (hearsUnmade "p".toList)) = true := by
    decide +kernel
  obtain ⟨m, hm, h⟩ := exists_standInRun hmint
  simp only [Bool.and_eq_true, decide_eq_true_eq, List.all_eq_true, List.any_eq_true] at h
  obtain ⟨⟨⟨e, he, hgives⟩, hcalls⟩, hhears⟩ := h
  obtain ⟨c, rest, a, hc, hasks, hverdict, -⟩ := exists_verdict
  have hon := runsOn_of_hearsUnmade (hasks.trans hcalls.symm) hhears hverdict
  obtain ⟨b, ids, i, r, pre, hid, rfl⟩ := givesBack_eq_true hgives
  obtain ⟨hash, hres, hunmade⟩ := restored_never_sent hm hc hon he
  exact ⟨m, c, hash, hm, hc, ⟨_, he, hgives⟩, hres _ hid, hunmade⟩

end Notes

end LnurlMint
