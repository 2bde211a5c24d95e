import LnurlMint.Ownership
import LnurlMint.Redemptions

/-!
# A fee is paid once, and a note burned only for a name

The fee of an address can be paid over Lightning, and seen by a poll, a status query or a lookup of
the name; or a note can be melted into its invoice. Each way the row is marked paid in the
transaction that does whatever follows from it, so there is one payment whatever happens meanwhile.

A melt into such an invoice burns its note and registers the name in one transaction that checks
everything again, and routes nothing. Whatever else such a request does leaves notes, fees and names
as they are, but for a paid mint of its note that it is the first to see.

## Main definitions

* `paysFee` — an act that takes a fee from unpaid to paid
* `BurnsForName` — a note is burned, and a held name registered for it
* `LeavesFees` — every note on file, every fee and every name is left as it is
* `ExchangedOrReserved` — what a melt into such an invoice came for

## Main results

* `Run.fee_paid_once`, `Run.melt_act`
* `address_fee_exchange`
-/

namespace LnurlMint

open Relational Interleave

/-! ## What happens to a fee -/

namespace NoteStore

variable {s s' : NoteStore} {now : ℤ} {hash : Str}

/-- The fee with this hash is paid. -/
def feePaid (s : NoteStore) (hash : Str) : Bool := (s.addressFees.find? hash).any FeeRow.paid

theorem feePaid_markPaid (h : s.feePaid hash = true) (hash' : Str) :
    (s.markPaid hash').feePaid hash = true := by
  obtain ⟨f, hf, hp⟩ := (Option.any_eq_true _ _).1 h
  rw [feePaid, markPaid, Table.find?_modify, hf, Option.map_some, Option.any_some]
  split
  · rfl
  · exact hp

/-- A fee that is paid stays paid. -/
theorem feePaid_step {u : Update} {filed : Option Str} (h : s.feePaid hash = true)
    (hs : NamesStep now u filed s s') : s'.feePaid hash = true := by
  cases hs with
  | keep _ hf => rwa [feePaid, hf]
  | advance _ _ _ hf => rwa [feePaid, hf]
  | register _ _ _ _ _ _ _ hf => rwa [feePaid, hf]
  | hold f _ _ _ _ _ hf =>
    obtain ⟨f', hf', hp⟩ := (Option.any_eq_true _ _).1 h
    rw [feePaid, Table.find?_of_insert? hf hf', Option.any_some, hp]
  | lapse f _ _ _ _ _ hf =>
    rw [feePaid, hf]
    exact feePaid_markPaid h _
  | settle f _ _ _ _ _ hf =>
    rw [feePaid, hf]
    exact feePaid_markPaid h _
  | update _ _ _ _ _ _ _ hf => rwa [feePaid, hf]
  | delete _ _ _ hf => rwa [feePaid, hf]

/-- A note is burned for a name: the fee for it was unpaid, unexpired and worth the note, and the
name was free. -/
structure BurnsForName (s s' : NoteStore) (now : ℤ) (hash id : Str) (n : NoteRow) (f : FeeRow) :
    Prop where
  note : s.notes.find? id = some n
  unspent : n.spent = false
  unreserved : n.pending = false
  fee : s.addressFees.find? hash = some f
  unpaid : f.paid = false
  unexpired : now < f.expiresAt
  amount : n.amountMsat = f.amountMsat
  free : s.usernames.find? f.username = none
  notes : ∀ id', s'.notes.find? id' =
    if id' = id then some { n with spent := true } else s.notes.find? id'
  fees : ∀ hash', s'.addressFees.find? hash' =
    if hash' = hash then some { f with paid := true } else s.addressFees.find? hash'
  names : ∀ name, s'.usernames.find? name =
    if name = f.username then some ⟨f.username, f.cx1, 0, f.nostrPubkey⟩
    else s.usernames.find? name
  keys : s'.acceptedKeys = s.acceptedKeys

/-- Every note on file, every fee and every name is left as it is. -/
structure LeavesFees (s s' : NoteStore) : Prop where
  notes : ∀ id n, s.notes.find? id = some n → s'.notes.find? id = some n
  fees : s'.addressFees = s.addressFees
  names : s'.usernames = s.usernames
  keys : s'.acceptedKeys = s.acceptedKeys

theorem burnsForName_of_pay {id username : Str} {n : NoteRow} (hn : s.notes.find? id = some n)
    (h : s.payAddressFeeWithNotes now [id] hash n.amountMsat = .ok (username, s')) :
    ∃ f, s.BurnsForName s' now hash id n f := by
  obtain ⟨-, hb, f, usernames, hf, hp, he, hamount, rfl, ht, hi, rfl⟩ := payAddressFeeWithNotes_ok h
  obtain ⟨n', hn', hspent, hpending⟩ := hb id List.mem_cons_self
  cases hn.symm.trans hn'
  refine ⟨f, hn, hspent, hpending, hf, hp, he, hamount.symm, (usernameTaken_eq_false.1 ht).1,
    ?_, ?_, ?_, rfl⟩
  · intro id'
    rw [find?_burnNotes]
    by_cases hid : id' = id
    · subst hid
      have hnotes : (s.markPaid hash).notes.find? id' = some n := hn
      simp [hnotes]
    · rw [if_neg hid]
      have hnotes : ((s.markPaid hash).notes.find? id').map
          (fun n => if id' ∈ [id] then { n with spent := true } else n) =
          s.notes.find? id' := by
        simp [hid, markPaid]
      exact hnotes
  · intro hash'
    have hfees : (s.markPaid hash).addressFees.find? hash' = (s.addressFees.find? hash').map
        fun f => if hash' = hash then { f with paid := true } else f := by
      rw [markPaid, Table.find?_modify]
    refine hfees.trans ?_
    by_cases hh : hash' = hash
    · subst hh
      simp [hf]
    · simp [hh]
  · intro name
    have hnames : usernames.find? name = if f.username = name then
        some ⟨f.username, f.cx1, 0, f.nostrPubkey⟩ else s.usernames.find? name :=
      Table.find?_insert? hi name
    refine hnames.trans ?_
    simp only [eq_comm]

theorem LeavesFees.refl (s : NoteStore) : s.LeavesFees s := ⟨fun _ _ h => h, rfl, rfl, rfl⟩

/-- A note is burned exactly if the name is registered. -/
theorem burns_iff_registers
    (h : (∃ id n f, s.BurnsForName s' now hash id n f) ∨ s.LeavesFees s') :
    (∃ id n n', s.notes.find? id = some n ∧ n.spent = false ∧ s'.notes.find? id = some n' ∧
        n'.spent = true) ↔
      ∃ f, s.addressFees.find? hash = some f ∧ s.usernames.find? f.username = none ∧
        s'.usernames.find? f.username ≠ none := by
  rcases h with ⟨id, n, f, h⟩ | h
  · refine iff_of_true ⟨id, n, { n with spent := true }, h.note, h.unspent, ?_, rfl⟩
      ⟨f, h.fee, h.free, ?_⟩
    · rw [h.notes, if_pos rfl]
    · rw [h.names, if_pos rfl]
      exact Option.some_ne_none _
  · refine iff_of_false ?_ ?_
    · rintro ⟨id, n, n', hn, hs, hn', hs'⟩
      rw [h.notes id n hn] at hn'
      cases hn'
      rw [hs] at hs'
      cases hs'
    · rintro ⟨f, -, hnone, hsome⟩
      rw [h.names] at hsome
      exact hsome hnone

end NoteStore

section Histories

variable {d : Deps} {cfg : Settings d} {s : State} {w w' : World (mint cfg)} {a : Actor mintSig}
  {hash : Str}

/-! ## Paid once -/

/-- An act that takes the fee of this hash from unpaid to paid. -/
def paysFee (hash : Str) : Event (mint cfg) → Bool
  | .did _ o i _ pre => (pre.store.addressFees.find? hash).isSome && !pre.store.feePaid hash &&
      (exec o i pre).any fun x => x.2.store.feePaid hash
  | _ => false

theorem Next.feePaid {e : Event (mint cfg)} (h : Next (law cfg) w e w')
    (hp : w.st.store.feePaid hash = true) : w'.st.store.feePaid hash = true := by
  rcases Next.names h with ⟨-, -, hf, -⟩ | ⟨_, u, i, out, -, -, hap⟩
  · rwa [NoteStore.feePaid, hf]
  · exact NoteStore.feePaid_step hp (Update.namesStep hap)

/-- **A fee goes from unpaid to paid once**, whoever sees it paid and in whichever order. -/
theorem Run.fee_paid_once (h : Run (law cfg) s w) (hash : Str) :
    w.hist.countP (paysFee hash) ≤ 1 := by
  refine (Run.once (Q := fun st : State => st.store.feePaid hash = true) h
    (fun hn => Next.feePaid hn) ?_).1
  intro w₀ e w₁ _ hn he
  cases e with
  | did a o i out pre =>
    obtain ⟨rfl, hx⟩ := hn.exec
    simp only [paysFee, Bool.and_eq_true, Bool.not_eq_true'] at he
    obtain ⟨⟨-, hbefore⟩, hafter⟩ := he
    have hx : exec o i w₀.st = some (out, w₁.st) := hx
    rw [hx, Option.any_some] at hafter
    exact ⟨by rw [hbefore]; decide, hafter⟩
  | _ => cases he

/-! ## What a melt does -/

theorem Spares.leavesFees {before : List (Event (mint cfg))} {i : Input} {st st' : State}
    (h : Spares before i st st') : st.store.LeavesFees st'.store := by
  cases h with
  | same he => rw [he]; exact .refl _
  | settled _ _ _ _ _ _ _ _ _ _ hi he =>
    subst he
    exact ⟨fun _ _ hn => Table.find?_of_insert? hi hn, rfl, rfl, rfl⟩

variable {baseUrl : Str} {k1 : List Str} {pr : Str} {amount : Option ℤ} {p1 p2 : Option Str}

theorem invoiceHash_of_decode {inv : Invoice} (hdec : d.decodeInvoice pr = .ok inv)
    (hhash : inv.paymentHash = some hash) : invoiceHash d pr = some hash := by
  rw [invoiceHash, hdec]
  exact hhash

/-- The transactions of a melt. -/
theorem MayWrite.of_melt {u : Update} (hu : MayWrite cfg w a u)
    (ha : a.task = .request ⟨baseUrl, .getWithdrawCallback k1 (some pr) amount p1 p2⟩) :
    (∃ h derive, u = .settleMint h derive) ∨ (∃ ids h, u = .markPending ids h) ∨
      (∃ h pr', u = .recordMelt h pr') ∨
        ∃ ids h totalMsat, u = .payAddressFeeWithNotes ids h totalMsat := by
  have callback : ∀ {P : Prop}, NoCallback a.task → P := fun h => h.elim k1 (by rw [ha]; rfl)
  cases u with
  | settleMint => exact .inl ⟨_, _, rfl⟩
  | markPending => exact .inr (.inl ⟨_, _, rfl⟩)
  | recordMelt => exact .inr (.inr (.inl ⟨_, _, rfl⟩))
  | payAddressFeeWithNotes => exact .inr (.inr (.inr ⟨_, _, _, rfl⟩))
  | createMint => exact callback hu.1
  | registerUsername => exact callback hu.1
  | holdUsername => exact callback hu.1
  | updateUsername => exact callback hu.1
  | settleAddressFee => exact callback hu.1
  | markZapPublished => exact callback hu
  | markMeltSettled => exact callback hu
  | swap =>
    obtain ⟨_, _, _, _, _, _, _, htask, -⟩ := hu
    cases ha.symm.trans htask
  | transferToUsername =>
    obtain ⟨_, _, _, _, _, _, htask, -⟩ := hu
    cases ha.symm.trans htask
  | deleteUsername =>
    obtain ⟨_, _, _, _, _, _, _, htask, -⟩ := hu
    cases ha.symm.trans htask
  | finalizeMelt =>
    rcases hu with ⟨_, _, htask, -⟩ | ⟨htask, -⟩ <;> cases ha.symm.trans htask
  | restore =>
    rcases hu with ⟨_, _, htask, -⟩ | ⟨htask, -⟩ <;> cases ha.symm.trans htask

/-- **What one act of a melt does, when its invoice is that of a fee.** -/
theorem Run.melt_act (h : Run (law cfg) s w)
    (ha : a.task = .request ⟨baseUrl, .getWithdrawCallback k1 (some pr) amount p1 p2⟩)
    (hinv : invoiceHash d pr = some hash) {o : Op} {i : Input} {out : o.Out} {pre st : State}
    (he : .did a o i out pre ∈ w.hist) (hx : exec o i pre = some (out, st))
    (hfee : pre.store.addressFees.find? hash ≠ none) :
    (∃ id n f, Named d k1 [id] ∧ pre.store.BurnsForName st.store i.now hash id n f) ∨
      pre.store.LeavesFees st.store := by
  have hk : a.task.spends = some k1 := by
    rw [ha]
    rfl
  obtain ⟨es, rest, hh⟩ := List.append_of_mem he
  obtain ⟨w₀, w₁, -, hn, -⟩ := h.past he
  cases o with
  | write u =>
    obtain ⟨hu, rfl, -⟩ := Next.write hn
    obtain ⟨⟨r, store⟩, hrun, heq⟩ := Option.map_eq_some_iff.1 hx
    cases heq
    rcases Update.run_eq_some.1 hrun with ⟨out, rfl, ho⟩ | ⟨_, -, -, -, rfl⟩
    swap
    · exact .inr (.refl _)
    rcases hu.of_melt ha with ⟨_, _, rfl⟩ | ⟨_, _, rfl⟩ | ⟨_, _, rfl⟩ | ⟨_, _, _, rfl⟩
    · exact .inr (Run.spares h hk hh hx (.inl trivial)).leavesFees
    · obtain ⟨-, _, _, _, _, _, _, _, _, inv, htask, -, -, hdec, hhash, hnone, -⟩ := hu
      cases ha.symm.trans htask
      cases (invoiceHash_of_decode hdec hhash).symm.trans hinv
      exact absurd (Option.map_eq_none_iff.1 hnone) hfee
    · cases ho
      exact .inr ⟨fun _ _ hn => hn, rfl, rfl, rfl⟩
    · obtain ⟨-, _, _, _, _, _, _, id, n, _, _, inv, htask, hnamed, rfl, hdec, hhash, -, -, hnote,
        rfl⟩ := hu
      cases ha.symm.trans htask
      cases (invoiceHash_of_decode hdec hhash).symm.trans hinv
      obtain ⟨f, hburn⟩ := NoteStore.burnsForName_of_pay hnote ho
      exact .inl ⟨id, n, f, hnamed, hburn⟩
  | _ =>
    cases hx
    exact .inr (.refl _)

/-- What pays an invoice was scheduled by a reservation for its hash, made while no fee had it. -/
theorem Run.paid_reserved (h : Run (law cfg) s w) {b : Actor mintSig} {limit : ℤ} {pre : State}
    (hc : .called b (.payInvoice pr limit) pre ∈ w.hist) (hinv : invoiceHash d pr = some hash) :
    ∃ a ids i pre', .did a (.write (.markPending ids hash)) i (.ok ()) pre' ∈ w.hist ∧
      pre'.store.addressFees.find? hash = none := by
  obtain ⟨w₀, w₁, h₀, hn, hf⟩ := h.past hc
  obtain ⟨hstep, ⟨-, ⟨ids, inv, ht⟩, -⟩, -⟩ := hn
  have hlater : ∀ e ∈ w₀.hist, e ∈ w.hist := by
    intro e he
    refine hf.mem ?_
    rw [hstep.hist]
    exact List.mem_cons_of_mem _ he
  obtain ⟨a, hspawned⟩ := h₀.spawned_of_joined (mem_alive (hstep.alive rfl)) (by rw [ht])
  obtain ⟨w₂, w₃, h₂, hn₂, hf₂⟩ := h₀.past hspawned
  have hmay : MaySpawn cfg w₂ a b.task := hn₂.lawful
  rw [ht] at hmay
  obtain ⟨id, _, _, hash', _, i₁, i₂, i₃, pre₁, pre₂, pre₃, rest, ⟨⟩, hdec, hhash, -, -, hh⟩ := hmay
  cases (invoiceHash_of_decode hdec hhash).symm.trans hinv
  have hreserved : .did a (.write (.markPending [id] hash)) i₃ (.ok ()) pre₃ ∈ w₂.hist := by
    rw [hh]
    simp
  obtain ⟨w₄, w₅, -, hn₄, -⟩ := h₂.past hreserved
  obtain ⟨⟨-, _, _, _, _, _, _, _, _, _, -, -, -, -, -, hnone, -⟩, rfl, -⟩ := Next.write hn₄
  exact ⟨a, [id], i₃, _, hlater _ ((hn₂.follows.trans hf₂).mem hreserved),
    Option.map_eq_none_iff.1 hnone⟩

/-- Among these events `a` has exchanged a note for the name that is held for the fee, or reserved
one while no fee had the hash. -/
def ExchangedOrReserved (a : Actor mintSig) (k1 : List Str) (hash : Str)
    (before : List (Event (mint cfg))) : Prop :=
  (∃ o i out pre st id n f, .did a o i out pre ∈ before ∧ exec o i pre = some (out, st) ∧
    Named d k1 [id] ∧ pre.store.BurnsForName st.store i.now hash id n f) ∨
  ∃ ids i pre, .did a (.write (.markPending ids hash)) i (.ok ()) pre ∈ before ∧
    pre.store.addressFees.find? hash = none

/-- What a melt that committed has done, when its invoice has this hash. -/
theorem Committed.exchangedOrReserved (hc : Committed cfg w a) (h : Run (law cfg) s w)
    (ha : a.task = .request ⟨baseUrl, .getWithdrawCallback k1 (some pr) amount p1 p2⟩)
    (hinv : invoiceHash d pr = some hash) : ExchangedOrReserved a k1 hash w.hist := by
  rcases hc with ⟨ids, hash', total, username, i, pre', he⟩ | ⟨ids, hash', i, pre', he⟩
  · obtain ⟨w₂, w₃, -, hn, -⟩ := h.past he
    obtain ⟨hu, rfl, hrun⟩ := Next.write hn
    obtain ⟨-, ho⟩ := Next.write_ok hn
    obtain ⟨-, _, _, _, _, _, _, id, n, _, _, inv, htask, hnamed, rfl, hdec, hhash, -, -, hnote,
      rfl⟩ := hu
    cases ha.symm.trans htask
    cases (invoiceHash_of_decode hdec hhash).symm.trans hinv
    obtain ⟨f, hburn⟩ := NoteStore.burnsForName_of_pay hnote ho
    refine .inl ⟨_, i, _, _, { w₂.st with store := w₃.st.store }, id, n, f, he, ?_, hnamed, hburn⟩
    rw [exec, hrun]
    rfl
  · obtain ⟨w₂, w₃, -, hn, -⟩ := h.past he
    obtain ⟨hu, rfl, -⟩ := Next.write hn
    obtain ⟨-, _, _, _, _, _, _, _, _, inv, htask, -, -, hdec, hhash, hnone, -⟩ := hu
    cases ha.symm.trans htask
    cases (invoiceHash_of_decode hdec hhash).symm.trans hinv
    exact .inr ⟨ids, i, _, he, Option.map_eq_none_iff.1 hnone⟩

/-- **An address fee is settled once, and a note is burned for it only in exchange for the name.**
In every history a fee goes from unpaid to paid at most once. What a melt does whose invoice has the
hash of a fee on file is the exchange, of a note worth the fee for the name, or leaves every note on
file, every fee and every name as it is. One that is refused does nothing but the latter, and one
that is answered otherwise has done the former, unless it reserved its note before the fee was on
file; of those that are answered with an error only one can have done it that cannot make up its
`verify` URL, and none has scheduled a payment. Only what was reserved so is ever paid out. -/
theorem address_fee_exchange {c : Config (mint cfg)} (h : Reach State.initial c) (hash : Str) :
    c.w.hist.countP (paysFee hash) ≤ 1 ∧
    (∀ a baseUrl k1 pr amount p1 p2,
      a.task = .request ⟨baseUrl, .getWithdrawCallback k1 (some pr) amount p1 p2⟩ →
      invoiceHash d pr = some hash →
      (∀ o i out pre st, .did a o i out pre ∈ c.w.hist → exec o i pre = some (out, st) →
        pre.store.addressFees.find? hash ≠ none →
        ((∃ id n f, Named d k1 [id] ∧ pre.store.BurnsForName st.store i.now hash id n f) ∨
          pre.store.LeavesFees st.store) ∧
        ((∃ id n n', pre.store.notes.find? id = some n ∧ n.spent = false ∧
            st.store.notes.find? id = some n' ∧ n'.spent = true) ↔
          ∃ f, pre.store.addressFees.find? hash = some f ∧
            pre.store.usernames.find? f.username = none ∧
            st.store.usernames.find? f.username ≠ none)) ∧
      ∀ resp pre later before, c.w.hist = later ++ .finished a (.ok resp) pre :: before →
        ((∃ reason, resp = .error reason) → (∀ b, .spawned a b ∉ before) ∧
          ((∀ o i out pre st, .did a o i out pre ∈ before → exec o i pre = some (out, st) →
              pre.store.LeavesFees st.store) ∨
            Linkless cfg baseUrl ∧ ExchangedOrReserved a k1 hash before)) ∧
        ((∀ reason, resp ≠ .error reason) →
          ExchangedOrReserved a k1 hash before ∧ ¬ Linkless cfg baseUrl)) ∧
    ∀ b pr limit pre, .called b (.payInvoice pr limit) pre ∈ c.w.hist →
      invoiceHash d pr = some hash →
      ∃ a ids i pre', .did a (.write (.markPending ids hash)) i (.ok ()) pre' ∈ c.w.hist ∧
        pre'.store.addressFees.find? hash = none := by
  have hr : Run (law cfg) State.initial c.w := Reach.law h
  refine ⟨Run.fee_paid_once hr hash, fun a baseUrl k1 pr amount p1 p2 ha hinv => ⟨?_, ?_⟩,
    fun b pr limit pre hc hinv => Run.paid_reserved hr hc hinv⟩
  · intro o i out pre st he hx hfee
    have hact := Run.melt_act hr ha hinv he hx hfee
    refine ⟨hact, @NoteStore.burns_iff_registers pre.store st.store i.now hash ?_⟩
    rcases hact with ⟨id, n, f, -, hburn⟩ | hleft
    · exact .inl ⟨id, n, f, hburn⟩
    · exact .inr hleft
  · intro resp pre later before hh
    obtain ⟨w₀, w₁, h₀, rfl, hn, -⟩ := hr.cut hh
    have hrested := hn.lawful.2.2 resp rfl
    rw [Rested, ha] at hrested
    obtain ⟨-, haddr, -, hanswer⟩ := hrested
    obtain ⟨hrefused, hdone⟩ := hanswer (Option.some_ne_none _)
    have hk : a.task.spends = some k1 := by
      rw [ha]
      rfl
    refine ⟨fun herr => ?_, fun hok => ⟨(hdone hok).exchangedOrReserved h₀ ha hinv, haddr hok⟩⟩
    rcases hrefused herr with hharmless | hstranded
    · refine ⟨fun b hb => hharmless _ hb rfl, .inl fun o i out pre st he hx => ?_⟩
      obtain ⟨es, rest, hh'⟩ := List.append_of_mem he
      exact (Run.spares h₀ hk hh' hx (hharmless _ he rfl)).leavesFees
    · exact ⟨hstranded.unscheduled,
        .inr ⟨hstranded.linkless, hstranded.committed.exchangedOrReserved h₀ ha hinv⟩⟩

/-- A mint whose addresses cost as much as the stand-in's notes are worth. -/
def Settings.priced : Settings .standIn := { Settings.standIn with addressFeeMsat := 10000 }

/-- A note is minted, a name held for its fee, and the note melted into the fee's invoice. -/
def exchangeRun : List (Choice (mint Settings.priced)) :=
  standInMints 0 "h".toList (standInKey '1') ++
    standInAsks 5 (.registerUsername "alice".toList (standInForm .register "alice".toList 'p')) ++
    standInGoes 2 0 ++ [.answer 5 (standInAnswer "lnf".toList true)] ++ standInGoes 2 0 ++
    standInAsks 11 (.getWithdrawCallback [standInKey '1'] (some "lnf".toList) none none none) ++
    standInGoes 3 1 ++ [.answer 11 (standInAnswer [] true)] ++ standInGoes 7 1

/-- An act other than a reservation. -/
def unreserved : Event (mint Settings.priced) → Bool
  | .did _ (.write (.markPending ..)) .. => false
  | _ => true

/-- The last event answers the melt of `exchangeRun` with success. -/
def meltedLast : List (Event (mint Settings.priced)) → Bool
  | .finished a (.ok (.withdrawSuccess ..)) _ :: _ => match a.task with
    | .request ⟨_, .getWithdrawCallback k1 (some pr) _ _ _⟩ =>
      k1 = [standInKey '1'] && pr = "lnf".toList
    | _ => false
  | _ => false

theorem meltedLast_eq_true {hist : List (Event (mint Settings.priced))}
    (h : meltedLast hist = true) :
    ∃ a c c2 pr verify pre before baseUrl amount p1 p2,
      hist = .finished a (.ok (.withdrawSuccess c c2 pr verify)) pre :: before ∧
      a.task = .request
        ⟨baseUrl, .getWithdrawCallback [standInKey '1'] (some "lnf".toList) amount p1 p2⟩ := by
  unfold meltedLast at h
  split at h
  · split at h
    · rename_i ha
      obtain ⟨hk, hpr⟩ := (Bool.and_eq_true _ _).mp h
      obtain rfl := of_decide_eq_true hk
      obtain rfl := of_decide_eq_true hpr
      exact ⟨_, _, _, _, _, _, _, _, _, _, _, rfl, ha⟩
    · cases h
  · cases h

theorem address_fee_exchange_melted : ∃ c : Config (mint Settings.priced), Reach State.initial c ∧
    ∃ (i : Input) (pre st : State) (id : Str) (n : NoteRow) (f : FeeRow),
      Named .standIn [standInKey '1'] [id] ∧
      pre.store.BurnsForName st.store i.now "f".toList id n f := by
  have hrun : (standInRun exchangeRun).any (fun c => c.w.hist.all unreserved &&
      meltedLast c.w.hist) = true := by decide +kernel
  obtain ⟨c, hc, h⟩ := exists_standInRun hrun
  rw [Bool.and_eq_true, List.all_eq_true] at h
  obtain ⟨hunreserved, hlast⟩ := h
  obtain ⟨a, _, _, _, _, pre, before, baseUrl, amount, p1, p2, hh, ha⟩ := meltedLast_eq_true hlast
  obtain ⟨-, hmelt, -⟩ := address_fee_exchange hc "f".toList
  obtain ⟨-, hanswer⟩ := hmelt a baseUrl _ _ amount p1 p2 ha (by decide)
  rcases ((hanswer _ pre [] before hh).2 fun _ he => by cases he).1 with
    ⟨_, i, _, pre, st, id, n, f, -, -, hnamed, hburn⟩ | ⟨ids, i, pre, he, -⟩
  · exact ⟨c, hc, i, pre, st, id, n, f, hnamed, hburn⟩
  · have hno := hunreserved _ (by
      rw [hh]
      exact List.mem_cons_of_mem _ he)
    cases hno

end Histories

end LnurlMint
