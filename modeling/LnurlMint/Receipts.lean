import LnurlMint.AddressPayments
import LnurlMint.Disclosure
import LnurlMint.Zaps

/-!
# What the published receipts attest

A zap receipt is the mint's word, signed and sent to relays, that a payment was made for a request.
The request was validated when the invoice was made out, possibly long before and by another
request; the payment was seen by whoever polled; the receipt is put together from what is on record
by a background round, while others run.

So what a receipt attests is spread over a history. Here it is traced back: from the receipt to what
the round read, from that to the record, and from the record to the request that made the invoice
out and to whoever was told that it was paid.

## Main definitions

* `Composed` — a receipt as its round puts it together, from what it was shown
* `Attested` — a receipt, and the events that bear it out

## Main results

* `body_receipts` — every task publishes what it composed, and marks what was taken
* `receipts_attested` — every published receipt is borne out
-/

namespace LnurlMint

open Interleave Relational

variable {d : Deps} (cfg : Settings d)

/-! ## The rule -/

/-- A receipt, and where it goes, put together from what was shown. -/
def Composed (t : List (Act mintSig)) (hash : Str) (relays : List Str) (receipt : NostrEvent) :
    Prop :=
  ∃ secret zaps pr raw request tags preimage now, cfg.nostrKey = some secret ∧
    .did (.read .unpublishedZaps) zaps ∈ t ∧ (hash, pr, raw) ∈ zaps ∧
    d.jsonLoads raw = .ok request ∧ Nostr.tags? request = some tags ∧
    relays = (Nostr.relaysOf tags ++ cfg.nostrRelayList).eraseDups ∧
    Nostr.zapReceipt d request raw pr preimage secret now = some receipt ∧
    Discloses .note hash preimage t

variable {cfg} in
theorem Composed.mono {t t' : List (Act mintSig)} {hash : Str} {relays : List Str}
    {receipt : NostrEvent} (h : Composed cfg t hash relays receipt) (hs : t <:+ t') :
    Composed cfg t' hash relays receipt := by
  obtain ⟨secret, zaps, pr, raw, request, tags, preimage, now, hkey, hread, hz, hload, htags,
    hrelays, hreceipt, hpreimage⟩ := h
  refine ⟨secret, zaps, pr, raw, request, tags, preimage, now, hkey, hs.subset hread, hz, hload,
    htags, hrelays, hreceipt, fun p hp => ?_⟩
  obtain ⟨bytes, hb, rfl⟩ := hpreimage p hp
  exact ⟨bytes, hs.subset hb, rfl⟩

/-- A task publishes what it composed, and marks a zap whose receipt was taken. -/
def receiptRule : Rule mintSig Response where
  op t
    | .write (.markZapPublished hash id) => ∃ relays receipt,
      .heard (.publish relays receipt) true ∈ t ∧ receipt.id = id ∧
        Composed cfg t hash relays receipt
    | _ => True
  call t
    | .publish relays receipt => ∃ hash, Composed cfg t hash relays receipt
    | _ => True
  task _ _ := True
  value _ _ := True

/-- What neither publishes nor marks. -/
def publishesNone : Scope mintSig where
  op
    | .write (.markZapPublished ..) => False
    | _ => True
  call
    | .publish .. => False
    | _ => True
  task _ := True

section Programs

variable {cfg} {task : Task} {t : List (Act mintSig)} {α : Type}

theorem receiptRule_allows : (receiptRule cfg).Allows publishesNone where
  op t o ho := by
    cases o with
    | write u =>
      cases u with
      | markZapPublished => exact ho.elim
      | _ => trivial
    | _ => trivial
  call t c hc := by
    cases c with
    | publish => exact hc.elim
    | _ => trivial
  task _ _ _ := trivial

theorem keeps_publishesNone {p : Mint α} {P : α → Prop} (h : p.Within publishesNone P) :
    p.Keeps (receiptRule cfg) (fun x _ => P x) t :=
  .of_within receiptRule_allows h

theorem looks_publishesNone : Looks publishesNone := ⟨fun _ => trivial, trivial, trivial⟩

theorem mintPreimage_composes {hash : Str} :
    (mintPreimage cfg hash).Keeps (receiptRule cfg) (Discloses .note hash) t := by
  rw [mintPreimage]
  split
  · exact .pure fun p hp => by cases hp
  · refine .bind (.ask trivial) fun ans t₁ _ ht₁ => .pure fun p hp => ?_
    obtain ⟨bytes, rfl, rfl⟩ := preimageHex_eq_some hp
    exact ⟨bytes, ht₁ ▸ List.mem_cons_self, rfl⟩

theorem publishZapReceipt_composes {secret : Str} (hkey : cfg.nostrKey = some secret)
    {zap : Str × Str × Str} {zaps : List (Str × Str × Str)} (hz : zap ∈ zaps)
    (hread : .did (.read .unpublishedZaps) zaps ∈ t) :
    (publishZapReceipt cfg secret zap).Keeps (receiptRule cfg) (fun _ _ => True) t := by
  obtain ⟨hash, pr, raw⟩ := zap
  refine .bind (keeps_publishesNone (.ofExcept _)) fun request t₁ ht₁ hload => ?_
  refine .bind mintPreimage_composes fun preimage t₂ ht₂ hpreimage => ?_
  refine .bind (keeps_publishesNone (within_now looks_publishesNone)) fun now t₃ ht₃ _ => ?_
  refine .bind (keeps_publishesNone (.orRaise _ _)) fun receipt t₄ ht₄ hreceipt => ?_
  refine .bind (keeps_publishesNone (.orRaise _ _)) fun tags t₅ ht₅ htags => ?_
  have hcomposed : Composed cfg t₅ hash
      (Nostr.relaysOf tags ++ cfg.nostrRelayList).eraseDups receipt := by
    refine ⟨secret, zaps, pr, raw, request, tags, preimage, now, hkey,
      (ht₁.trans (ht₂.trans (ht₃.trans (ht₄.trans ht₅)))).subset hread, hz, hload, htags, rfl,
      hreceipt, fun p hp => ?_⟩
    obtain ⟨bytes, hb, rfl⟩ := hpreimage p hp
    exact ⟨bytes, (ht₃.trans (ht₄.trans ht₅)).subset hb, rfl⟩
  refine .bind (.ask ⟨hash, hcomposed⟩) fun accepted t₆ ht₆ hheard => ?_
  split
  · next haccepted =>
    subst haccepted
    refine .bind (.perform ⟨_, receipt, hheard ▸ List.mem_cons_self, rfl,
      hcomposed.mono ht₆⟩) fun r t₇ _ _ => ?_
    exact keeps_publishesNone ((Prog.Within.ofExcept r).weaken fun _ _ => trivial)
  · exact .pure trivial

theorem publishZapReceipts_composes :
    (publishZapReceipts cfg).Keeps (receiptRule cfg) (fun _ _ => True) t := by
  refine .bind (keeps_publishesNone (within_settlePolledMints cfg looks_publishesNone
    (fun _ => ⟨trivial, trivial⟩) fun _ => ⟨trivial, trivial⟩)) fun _ t₁ _ _ => ?_
  refine .bind (keeps_publishesNone (.orRaise _ _)) fun secret t₂ _ hkey => ?_
  refine .bind (.perform trivial) fun zaps t₃ _ ht₃ => ?_
  have hread : .did (.read .unpublishedZaps) zaps ∈ t₃ := ht₃ ▸ List.mem_cons_self
  have all : ∀ rest, (∀ z ∈ rest, z ∈ zaps) → ∀ t, t₃ <:+ t →
      (forEach (publishZapReceipt cfg secret) rest).Keeps (receiptRule cfg)
        (fun _ _ => True) t := by
    intro rest
    induction rest with
    | nil => exact fun _ _ _ => trivial
    | cons z rest ih =>
      intro hall t ht
      refine .bind (publishZapReceipt_composes hkey (hall z List.mem_cons_self) (ht.subset hread))
        fun _ t' ht' _ => ih (fun z hz => hall z (List.mem_cons_of_mem _ hz)) t' (ht.trans ht')
  exact all zaps (fun _ hz => hz) t₃ List.suffix_rfl

theorem powers_publishesNone (ht : task ≠ .publishZapReceipts) :
    task.powers cfg ≤ publishesNone := by
  refine ⟨fun o ho => ?_, fun c hc => ?_, fun _ _ => trivial⟩
  · cases o with
    | write u =>
      cases u with
      | markZapPublished =>
        cases task with
        | request r =>
          obtain ⟨baseUrl, endpoint⟩ := r
          obtain ⟨-, ho⟩ := ho
          cases endpoint with
          | getPayCallbackForUsername _ _ _ _ k1 => cases k1 <;> exact ho
          | getWithdrawCallback _ pr amount => cases pr <;> cases amount <;> exact ho
          | _ => exact ho
        | publishZapReceipts => exact absurd rfl ht
        | _ => exact ho
      | _ => trivial
    | _ => trivial
  · cases c with
    | publish =>
      cases task with
      | request r =>
        obtain ⟨baseUrl, endpoint⟩ := r
        obtain ⟨-, hc⟩ := hc
        cases endpoint with
        | getPayCallbackForUsername _ _ _ _ k1 => cases k1 <;> exact hc
        | getWithdrawCallback _ pr => cases pr <;> exact hc
        | _ => exact hc
      | publishZapReceipts => exact absurd rfl ht
      | _ => exact hc
    | _ => trivial

/-- Every task publishes what it composed, and marks what was taken. -/
theorem body_receipts (task : Task) :
    (body cfg task).Keeps (receiptRule cfg) (fun _ _ => True) t := by
  by_cases ht : task = .publishZapReceipts
  · subst ht
    exact publishZapReceipts_composes.thenE (fun _ _ _ _ => trivial) fun _ _ _ => trivial
  · exact keeps_publishesNone ((body_within cfg task).mono (powers_publishesNone ht) fun _ => id)

end Programs

/-! ## What bears a receipt out -/

/-- A zap: its record, its request as it was sent and as it is read, what was invoiced for it, and
the preimage that its receipt carries. -/
structure Zap where
  row : MintRow
  raw : Str
  request : Json
  tags : List (List Str)
  sender : Str
  grossMsat : ℤ
  preimage : Option Str

/-- A receipt that an actor puts together in the store `s`, and the events that bear it out. -/
structure Attested (s : NoteStore) (w : World (mint cfg)) (a : Actor mintSig) (hash : Str)
    (relays : List Str) (receipt : NostrEvent) (z : Zap) : Prop where
  /-- The zap is on record, and settled. -/
  row : s.mints.find? hash = some z.row
  minted : z.row.minted = true
  zapRequest : z.row.zapRequest = some z.raw
  /-- Its request was accepted for the amount that was invoiced. -/
  accepted : Nostr.validateZapRequest d z.raw z.grossMsat = .ok (.ok z.request)
  tags : Nostr.tags? z.request = some z.tags
  sender : z.request.get "pubkey" = some (.str z.sender)
  /-- The funding source made the invoice out for that amount, and for this request. -/
  invoiced : ∃ b preimage, Heard w b (.createInvoice z.grossMsat none (some z.raw) none)
    (.ok (z.row.pr, preimage)) ∧ createdHash d z.row.pr preimage = some hash
  credited : z.row.amountMsat = z.grossMsat - mintFeeMsat cfg z.grossMsat
  /-- It said that the invoice was paid. -/
  paid : ∃ b, Heard w b (.isInvoiceSettled hash) (.ok true)
  /-- The receipt carries what it should, signed with the mint's key. -/
  receipt : ∃ secret now, cfg.nostrKey = some secret ∧ receipt = Nostr.signEvent d
    Nostr.zapReceiptKind (receiptTags z.tags z.sender z.row.pr z.raw z.preimage) [] secret now
  preimage : ∀ p, z.preimage = some p →
    ∃ bytes, Heard w a (.invoicePreimage hash) (.ok (some bytes)) ∧ p = hex bytes
  /-- It goes to each of the mint's relays, and to a few that the request names over TLS, once to
  each and to no others. -/
  goes : relays.Nodup ∧ relays.length ≤ Nostr.maxRequestRelays + cfg.nostrRelayList.length ∧
    (∀ url, url ∈ relays ↔ url ∈ cfg.nostrRelayList ∨ url ∈ Nostr.relaysOf z.tags) ∧
    ∀ url ∈ Nostr.relaysOf z.tags, Nostr.relayUrl url = true

section Histories

variable {cfg} {w w' : World (mint cfg)} {a : Actor mintSig} {hash : Str} {relays : List Str}
  {receipt : NostrEvent}

theorem Heard.follows {c : Call} {ans : c.Ans} {L : Law (mint cfg)} (h : Heard w a c ans)
    (hf : Follows L w w') : Heard w' a c ans := by
  obtain ⟨pre, he⟩ := h
  exact ⟨pre, hf.mem he⟩

theorem Attested.follows {s : NoteStore} {z : Zap} {L : Law (mint cfg)}
    (h : Attested cfg s w a hash relays receipt z) (hf : Follows L w w') :
    Attested cfg s w' a hash relays receipt z := by
  obtain ⟨b, preimage, hinv, hhash⟩ := h.invoiced
  obtain ⟨b', hpaid⟩ := h.paid
  refine { h with
    invoiced := ⟨b, preimage, hinv.follows hf, hhash⟩
    paid := ⟨b', hpaid.follows hf⟩
    preimage := fun p hp => ?_ }
  obtain ⟨bytes, hb, rfl⟩ := h.preimage p hp
  exact ⟨bytes, hb.follows hf, rfl⟩

theorem nodup_eraseDups {α : Type} [BEq α] [LawfulBEq α] : ∀ l : List α,
    l.eraseDups.Nodup ∧ l.eraseDups.length ≤ l.length
  | [] => ⟨List.nodup_nil, le_rfl⟩
  | x :: l => by
    have hshort := List.length_filter_le (fun y => !y == x) l
    obtain ⟨hnodup, hlen⟩ := nodup_eraseDups (l.filter fun y => !y == x)
    rw [List.eraseDups_cons]
    refine ⟨List.nodup_cons.2 ⟨fun hx => ?_, hnodup⟩, Nat.succ_le_succ (hlen.trans hshort)⟩
    simpa using (List.mem_filter.1 (List.mem_eraseDups.1 hx)).2
  termination_by l => l.length
  decreasing_by exact Nat.lt_succ_of_le hshort

theorem Nostr.relayUrl_of_mem {tags : List (List Str)} {url : Str} (h : url ∈ relaysOf tags) :
    relayUrl url = true :=
  (List.mem_filter.1 (List.mem_eraseDups.1 (List.mem_of_mem_take h))).2

theorem Nostr.length_relaysOf_le (tags : List (List Str)) :
    (relaysOf tags).length ≤ maxRequestRelays := List.length_take_le _ _

/-- A mint that is settled was said to be paid. -/
theorem Run.minted_heard (h : Run (law cfg) State.initial w)
    (hs : w.st.store.mintSettled hash = true) :
    ∃ b, Heard w b (.isInvoiceSettled hash) (.ok true) := by
  have hcount : w.hist.countP (LnurlMint.credits hash) = 1 := by
    rw [Run.credited h rfl, hs]
    rfl
  obtain ⟨e, he, hcredits⟩ := List.countP_pos_iff.1 (by rw [hcount]; exact Nat.one_pos)
  unfold LnurlMint.credits at hcredits
  split at hcredits
  · next b derive i amountMsat pre =>
    obtain rfl := of_decide_eq_true hcredits
    obtain ⟨w₀, w₁, -, hn, hf⟩ := h.past he
    obtain ⟨⟨-, hheard, -⟩, -⟩ := Next.write_ok hn
    exact ⟨_, hheard.follows (hn.follows.trans hf)⟩
  · cases hcredits

/-- A zap on record was accepted for the amount of its invoice, which was made out for it. -/
theorem Run.zap_invoiced (h : Run (law cfg) State.initial w) {m : MintRow} {raw : Str}
    (hm : w.st.store.mints.find? hash = some m) (hzap : m.zapRequest = some raw) :
    ∃ gross request, Nostr.validateZapRequest d raw gross = .ok (.ok request) ∧
      m.amountMsat = gross - mintFeeMsat cfg gross ∧
      ∃ b preimage, Heard w b (.createInvoice gross none (some raw) none) (.ok (m.pr, preimage)) ∧
        createdHash d m.pr preimage = some hash := by
  obtain ⟨b, noteId, ⟨i, pre, he⟩, -⟩ := Run.mint_recorded h hm
  obtain ⟨w₀, w₁, -, hn, hf⟩ := h.past he
  obtain ⟨⟨-, -, ⟨gross, preimage, hheard, hhash, -, hamount, -, hvalid⟩, -⟩, -⟩ := Next.write_ok hn
  obtain ⟨request, hrequest⟩ := hvalid raw hzap
  rw [hzap] at hheard
  exact ⟨gross, request, hrequest, hamount, b, preimage,
    hheard.heard.follows (hn.follows.trans hf), hhash⟩

/-- What a receipt was put together from bears it out. -/
theorem Composed.attested (hc : Composed cfg (acts a.tid w.hist) hash relays receipt)
    (h : Run (law cfg) State.initial w) (ha : Joined w.hist a) :
    ∃ z, Attested cfg w.st.store w a hash relays receipt z := by
  obtain ⟨secret, zaps, pr, raw, request, tags, preimage, now, hkey, hread, hz, hload, htags, rfl,
    hreceipt, hpreimage⟩ := hc
  obtain ⟨i, s₀, rfl, hkept⟩ := Run.read_kept h ha .unpublishedZaps hread
  obtain ⟨m₀, hm₀, hpr, hminted, hzap⟩ := NoteStore.mem_unpublishedZaps hz
  obtain ⟨m, hm, hp⟩ := hkept.mint hm₀
  have hzap : m.zapRequest = some raw := hp.zapRequest.trans hzap
  obtain ⟨gross, request', haccepted, hamount, hinvoiced⟩ := Run.zap_invoiced h hm hzap
  obtain ⟨hload', tags', sender, htags', hsender⟩ := validateZapRequest_ok haccepted
  obtain rfl := Except.ok.inj (hload.symm.trans hload')
  obtain rfl := Option.some.inj (htags.symm.trans htags')
  have hset : w.st.store.mintSettled hash = true :=
    (Option.any_eq_true _ _).2 ⟨m, hm, hp.minted hminted⟩
  obtain ⟨hnodup, hlen⟩ := nodup_eraseDups (Nostr.relaysOf tags ++ cfg.nostrRelayList)
  refine ⟨⟨m, raw, request, tags, sender, gross, preimage⟩, hm, hp.minted hminted, hzap, haccepted,
    htags, hsender, hinvoiced, hamount, Run.minted_heard h hset, ?_, fun p hp => ?_, hnodup, ?_,
    fun url => ?_, fun _ => Nostr.relayUrl_of_mem⟩
  · rw [zapReceipt_eq htags hsender] at hreceipt
    split at hreceipt
    · cases hreceipt
    · refine ⟨secret, now, hkey, ?_⟩
      rw [hp.pr, hpr]
      exact (Option.some.inj hreceipt).symm
  · obtain ⟨bytes, hb, rfl⟩ := hpreimage p hp
    exact ⟨bytes, h.heard_of_acts ha hb, rfl⟩
  · refine hlen.trans ?_
    rw [List.length_append]
    exact Nat.add_le_add_right (Nostr.length_relaysOf_le tags) _
  · rw [List.mem_eraseDups, List.mem_append]
    exact or_comm

end Histories

/-! ## Every run -/

/-- **Every published receipt is borne out.** In every run from a mint that was just set up,
whatever interleaves, what is sent to relays is a receipt for a zap that is on record as settled:
its request was accepted for the amount of the invoice that the funding source made out for that
very request, and the funding source said that the invoice was paid. The receipt carries what it
should and goes where it should; and a zap is marked as published only when a relay has taken its
receipt. -/
theorem receipts_attested {cfg : Settings d} {c : Config (mint cfg)} (h : Reach State.initial c)
    {a : Actor mintSig} {pre : State} :
    (∀ relays receipt, .called a (.publish relays receipt) pre ∈ c.w.hist →
      a.task = .publishZapReceipts ∧
        ∃ hash z, Attested cfg pre.store c.w a hash relays receipt z) ∧
    ∀ hash id i r, .did a (.write (.markZapPublished hash id)) i r pre ∈ c.w.hist →
      ∃ relays receipt z, Heard c.w a (.publish relays receipt) true ∧ receipt.id = id ∧
        Attested cfg pre.store c.w a hash relays receipt z := by
  have hr : Run (law cfg) State.initial c.w := Reach.law h
  have hc := h.conduct (R := fun _ => receiptRule cfg) fun t =>
    (body_receipts t).mono fun _ _ _ _ => trivial
  constructor
  · intro relays receipt he
    obtain ⟨w₀, w₁, h₀, hn, hf, hash, hcomposed⟩ := hr.conduct_past hc he
    obtain rfl : pre = w₀.st := by
      cases hn.step
      rfl
    obtain ⟨z, hz⟩ := hcomposed.attested h₀ (mem_alive (hn.step.alive rfl))
    have htask : a.task = .publishZapReceipts := by
      by_contra hne
      exact (powers_publishesNone hne).2.1 _ (h.within (body_within cfg) he)
    exact ⟨htask, hash, z, hz.follows (hn.follows.trans hf)⟩
  · intro hash id i r he
    obtain ⟨w₀, w₁, h₀, hn, hf, relays, receipt, hheard, hid, hcomposed⟩ := hr.conduct_past hc he
    obtain ⟨rfl, -⟩ := hn.exec
    have ha : Joined w₀.hist a := mem_alive (hn.step.alive rfl)
    obtain ⟨z, hz⟩ := hcomposed.attested h₀ ha
    obtain ⟨pre', hheard⟩ := h₀.heard_of_acts ha hheard
    exact ⟨relays, receipt, z, ⟨pre', (hn.follows.trans hf).mem hheard⟩, hid,
      hz.follows (hn.follows.trans hf)⟩

/-- A name is zapped, the poll of the next round finds the invoice paid, and a relay takes the
receipt. -/
def receiptRun : List (Choice (mint Settings.zapping)) :=
  standInZaps 0 "bob".toList 'p' "plain".toList ++ [.arrive .publishZapReceipts, .wake 9] ++
    standInGoes 5 1 ++ [.answer 9 (standInAnswer [] true)] ++ standInGoes 4 1 ++
    [.answer 9 (standInAnswer [] true)] ++ standInGoes 2 1 ++
    [.answer 9 (standInAnswer [] true)] ++ standInGoes 1 1

/-- Whether the event marks this zap as published. -/
def marksZap (hash : Str) : Event (mint Settings.zapping) → Bool
  | .did _ (.write (.markZapPublished hash' _)) _ _ _ => hash' = hash
  | _ => false

theorem receipts_attested_published : ∃ c : Config (mint Settings.zapping),
    Reach State.initial c ∧ ∃ a pre relays receipt z, Heard c.w a (.publish relays receipt) true ∧
      Attested Settings.zapping pre c.w a "plain".toList relays receipt z := by
  have hrun : (standInRun receiptRun).any (fun c => c.w.hist.any (marksZap "plain".toList)) =
      true := by decide +kernel
  obtain ⟨c, hc, h⟩ := exists_standInRun hrun
  obtain ⟨e, he, hmarks⟩ := List.any_eq_true.1 h
  unfold marksZap at hmarks
  split at hmarks
  · obtain rfl := of_decide_eq_true hmarks
    obtain ⟨relays, receipt, z, hheard, -, hz⟩ := (receipts_attested hc).2 _ _ _ _ he
    exact ⟨c, hc, _, _, relays, receipt, z, hheard, hz⟩
  · cases hmarks

end LnurlMint
