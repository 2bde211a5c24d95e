import LnurlMint.Lib.Alone
import LnurlMint.Credits

/-!
# A round of the settlement poll

`settle_polled_mints` works through two lists, the mints that only a poll can settle and the held
address fees, and settles each of them that is paid. No element is guarded: one whose lookup raises,
or whose settlement does, ends the round, and those behind it wait for the next round, which meets
the same element first again. The melt reconciliation next to it, which works through a list too,
catches what an element raises and goes on.

A round is run alone here, with every lookup answered by a fixed rule, from any state. The mints
come before the fees, and the newest first.

## Main definitions

* `Polled`, `polled` — what a round works through
* `CanSettle`, `Fails` — what an element's own turn would do
* `Settled` — what it is to achieve

## Main results

* `polled_settled_iff` — when a round settles everything that its own lookup says is paid
-/

namespace LnurlMint

open Interleave Relational

variable {d : Deps} {cfg : Settings d}

/-! ## Programs run alone -/

section Alone

variable {env : Surroundings (mint cfg)} {m : Moment (mint cfg)}

theorem alone_read (q : Query) : (read q).alone env m =
    (⟨m.ops + 1, m.st⟩, some (.ok (q.answer (env.inputs m.ops) m.st.store))) := rfl

theorem alone_write (u : Update) : (write u).alone env m =
    match u.run (env.inputs m.ops) m.st.store with
    | none => (m, none)
    | some (r, store) => (⟨m.ops + 1, { m.st with store }⟩, some r) := by
  show Prog.alone env (Prog.op (Op.write u) Prog.done) m = _
  simp only [Prog.alone, exec]
  cases u.run (env.inputs m.ops) m.st.store <;> rfl

theorem alone_isInvoiceSettled (h : Str) : (isInvoiceSettled h).alone env m =
    (m, some (match env.answers (.isInvoiceSettled h) with
      | .ok paid => .ok paid
      | .error () => .error .other)) := by
  show Prog.alone env (answer (env.answers (.isInvoiceSettled h))) m = _
  cases env.answers (.isInvoiceSettled h) <;> rfl

/-- The rest of a loop gets its turn unless the first part ended it. -/
theorem alone_forEach_append {α : Type} (f : α → Mint Unit) (xs ys : List α) :
    ∀ m : Moment (mint cfg), (forEach f (xs ++ ys)).alone env m =
      match (forEach f xs).alone env m with
      | (m', some (.ok ())) => (forEach f ys).alone env m'
      | (m', some (.error e)) => (m', some (.error e))
      | (m', none) => (m', none) := by
  induction xs with
  | nil => intro m; rfl
  | cons x xs ih =>
    intro m
    rw [List.cons_append, forEach, forEach, Prog.alone_bind, Prog.alone_bind]
    rcases (f x).alone env m with ⟨m', _ | _ | _⟩
    exacts [rfl, rfl, ih m']

/-- A loop run alone sweeps its list. -/
theorem alone_forEach {α : Type} (f : α → Mint Unit) (xs : List α) : ∀ m : Moment (mint cfg),
    ((forEach f xs).alone env m).1 = sweep (fun m x => ((f x).alone env m).1)
      (fun m x => Prog.ended ((f x).alone env m).2 = true) m xs := by
  induction xs with
  | nil => intro m; rfl
  | cons x xs ih =>
    intro m
    rw [forEach, Prog.alone_bind, sweep, ← ih]
    rcases (f x).alone env m with ⟨m', _ | _ | _⟩ <;> simp [Prog.ended]

/-- It comes to no good end if some turn does that comes when those before it all had theirs. -/
theorem alone_forEach_ended {α : Type} (f : α → Mint Unit) (xs : List α) :
    ∀ m : Moment (mint cfg), Prog.ended ((forEach f xs).alone env m).2 = true ↔
      ∃ l x r, xs = l ++ x :: r ∧ Prog.ended ((f x).alone env
        (turns (fun m x => ((f x).alone env m).1) m l)).2 = true := by
  induction xs with
  | nil => intro m; simp [forEach, Prog.ended]
  | cons y ys ih =>
    intro m
    have hcons : (∃ l x r, y :: ys = l ++ x :: r ∧ Prog.ended ((f x).alone env
          (turns (fun m x => ((f x).alone env m).1) m l)).2 = true) ↔
        Prog.ended ((f y).alone env m).2 = true ∨ ∃ l x r, ys = l ++ x :: r ∧
          Prog.ended ((f x).alone env (turns (fun m x => ((f x).alone env m).1)
            ((f y).alone env m).1 l)).2 = true := by
      constructor
      · rintro ⟨_ | ⟨z, l⟩, x, r, heq, hx⟩
        · obtain ⟨rfl, -⟩ := List.cons.inj heq
          exact .inl hx
        · obtain ⟨rfl, rfl⟩ := List.cons.inj heq
          exact .inr ⟨l, x, r, rfl, hx⟩
      · rintro (hy | ⟨l, x, r, rfl, hx⟩)
        · exact ⟨[], y, ys, rfl, hy⟩
        · exact ⟨y :: l, x, r, rfl, hx⟩
    rw [hcons, forEach, Prog.alone_bind]
    rcases (f y).alone env m with ⟨m', _ | _ | _⟩
    · simp [Prog.ended]
    · simp [Prog.ended]
    · show Prog.ended ((forEach f ys).alone env m').2 = true ↔ false = true ∨ _
      rw [ih]
      simp

end Alone

/-! ## What a round works through -/

/-- An element of a round. -/
inductive Polled
  /-- A mint, to be settled. -/
  | mintInvoice (paymentHash : Str)
  /-- The query for held address fees, between the two loops. -/
  | feesQuery (createdSince : ℤ)
  /-- A held address fee, to be registered. -/
  | feeInvoice (paymentHash : Str)
deriving DecidableEq

variable (cfg) in
/-- Its turn. -/
def Polled.turn : Polled → Mint Unit
  | mintInvoice h => do let _ ← mintSettled cfg h
  | feesQuery since => do let _ ← read (.heldAddressFees since zapPollLimit)
  | feeInvoice h => do let _ ← addressFeeSettled cfg h

/-- What a round at this time works through. -/
def polled (now : ℤ) (s : NoteStore) : List Polled :=
  (s.pendingPolledMints (now - zapPollWindowSeconds) zapPollLimit).map .mintInvoice ++
    .feesQuery (now - zapPollWindowSeconds) ::
      (s.heldAddressFees (now - zapPollWindowSeconds) zapPollLimit).map .feeInvoice

/-- Not settled yet. -/
def Polled.Unsettled (s : NoteStore) : Polled → Prop
  | mintInvoice h => ∃ m, s.mints.find? h = some m ∧ m.minted = false
  | feesQuery _ => True
  | feeInvoice h => ∃ f, s.addressFees.find? h = some f ∧ f.paid = false

/-- Settled: the mint is minted, the held username registered to the share it was held for. -/
def Polled.Settled (s : NoteStore) : Polled → Prop
  | mintInvoice h => s.mintSettled h = true
  | feesQuery _ => False
  | feeInvoice h => ∃ f row, s.addressFees.find? h = some f ∧ f.paid = true ∧
      s.usernames.find? f.username = some row ∧ row.cx1 = f.cx1

theorem Polled.Unsettled.not_settled {s : NoteStore} {x : Polled} (hx : x.Unsettled s) :
    ¬ x.Settled s := by
  cases x with
  | feesQuery => exact id
  | mintInvoice h =>
    obtain ⟨m, hm, hp⟩ := hx
    intro hs
    rw [Polled.Settled, NoteStore.mintSettled_of_find? hm, hp] at hs
    cases hs
  | feeInvoice h =>
    obtain ⟨f, hf, hp⟩ := hx
    rintro ⟨f', row, hf', hp', -⟩
    rw [hf] at hf'
    obtain rfl := Option.some.inj hf'
    rw [hp] at hp'
    cases hp'

section Turns

variable (env : Surroundings (mint cfg))

/-- An element that is settled when it gets its turn: its own lookup says that it is paid, and its
own settlement returns and leaves it settled. -/
def Polled.CanSettle (m : Moment (mint cfg)) : Polled → Prop
  | mintInvoice h =>
    cfg.fundingsourceBackend ≠ none ∧ env.answers (.isInvoiceSettled h) = .ok true ∧
      ∃ out s', m.st.store.settleMint (env.inputs (m.ops + 2)).now h (some (shareNoteId d)) =
        .ok (out, s') ∧ (mintInvoice h).Settled s'
  | feesQuery _ => False
  | feeInvoice h => cfg.fundingsourceBackend ≠ none ∧ env.answers (.isInvoiceSettled h) = .ok true ∧
      ∃ out s', m.st.store.settleAddressFee (env.inputs (m.ops + 1)).now h = .ok (out, s') ∧
        (feeInvoice h).Settled s'

/-- An element whose turn raises: its own lookup does, or it is paid and its settlement does. -/
def Polled.Fails (m : Moment (mint cfg)) : Polled → Prop
  | mintInvoice h => cfg.fundingsourceBackend ≠ none ∧
      (env.answers (.isInvoiceSettled h) = .error () ∨
        env.answers (.isInvoiceSettled h) = .ok true ∧ ∃ e,
          m.st.store.settleMint (env.inputs (m.ops + 2)).now h (some (shareNoteId d)) = .error e)
  | feesQuery _ => False
  | feeInvoice h => cfg.fundingsourceBackend ≠ none ∧
      (env.answers (.isInvoiceSettled h) = .error () ∨
        env.answers (.isInvoiceSettled h) = .ok true ∧
          ∃ e, m.st.store.settleAddressFee (env.inputs (m.ops + 1)).now h = .error e)

variable {env} {m : Moment (mint cfg)}

/-- What a paid invoice's turn comes to: its transaction's result. -/
def settledMoment {u : Update} (m : Moment (mint cfg)) :
    Option (Except Exn u.Out × NoteStore) → Moment (mint cfg) × Option (Except Exn Unit)
  | none => (m, none)
  | some (.ok _, store) => (⟨m.ops + 1, { m.st with store }⟩, some (.ok ()))
  | some (.error e, store) => (⟨m.ops + 1, { m.st with store }⟩, some (.error e))

/-- The end of a turn, after what it read: ask, and settle if paid. -/
def lookedUp (env : Surroundings (mint cfg)) (h : Str) (u : Update) (m : Moment (mint cfg)) :
    Moment (mint cfg) × Option (Except Exn Unit) :=
  if cfg.fundingsourceBackend = none then (m, some (.ok ()))
  else match env.answers (.isInvoiceSettled h) with
    | .error () => (m, some (.error .other))
    | .ok false => (m, some (.ok ()))
    | .ok true => settledMoment m (u.run (env.inputs m.ops) m.st.store)

/-- The common end of `_mint_settled` and `_address_fee_settled`, run alone. -/
theorem alone_settleIfPaid (h : Str) (u : Update) :
    (do
      let _ ← (if cfg.fundingsourceBackend = none then pure false
        else do
          let paid ← isInvoiceSettled h
          if paid then do
            let _ ← write u
            return true
          else return false : Mint Bool)).alone env m = lookedUp env h u m := by
  by_cases hb : cfg.fundingsourceBackend = none
  · simp [hb, lookedUp, Prog.thenE]
  · rw [lookedUp, if_neg hb, if_neg hb, Prog.alone_bind, Prog.alone_bind, alone_isInvoiceSettled]
    cases hp : env.answers (.isInvoiceSettled h) with
    | error e => cases e; rfl
    | ok paid =>
      cases paid with
      | false => rfl
      | true =>
        simp only [if_true]
        rw [Prog.alone_bind, alone_write]
        rcases u.run (env.inputs m.ops) m.st.store with _ | ⟨_ | _, _⟩ <;> rfl

theorem alone_mintInvoice (h : Str) : ((Polled.mintInvoice h).turn cfg).alone env m =
    if m.st.store.mintSettled h = true then (⟨m.ops + 1, m.st⟩, some (.ok ()))
    else if (m.st.store.pendingMint h).isNone = true then (⟨m.ops + 2, m.st⟩, some (.ok ()))
    else lookedUp env h (.settleMint h (some (shareNoteId d))) ⟨m.ops + 2, m.st⟩ := by
  show (do let _ ← (if m.st.store.mintSettled h = true then pure true else do
      let pending ← read (.pendingMint h)
      if Option.isNone pending then return false else settleMintIfPaid cfg h : Mint Bool) :
    Mint Unit).alone env ⟨m.ops + 1, m.st⟩ = _
  by_cases hs : m.st.store.mintSettled h = true
  · rw [if_pos hs, if_pos hs]
    rfl
  · rw [if_neg hs, if_neg hs]
    show (do let _ ← (if (m.st.store.pendingMint h).isNone = true then pure false
        else settleMintIfPaid cfg h : Mint Bool) : Mint Unit).alone env ⟨m.ops + 2, m.st⟩ = _
    by_cases hp : (m.st.store.pendingMint h).isNone = true
    · rw [if_pos hp, if_pos hp]
      rfl
    · rw [if_neg hp, if_neg hp, ← alone_settleIfPaid]
      rfl

theorem alone_feeInvoice (h : Str) : ((Polled.feeInvoice h).turn cfg).alone env m =
    if (m.st.store.addressFees.find? h).any (fun f => !f.paid) = true then
      lookedUp env h (.settleAddressFee h) ⟨m.ops + 1, m.st⟩
    else (⟨m.ops + 1, m.st⟩, some (.ok ())) := by
  rw [Polled.turn, addressFeeSettled, Prog.alone_bind, Prog.alone_bind, alone_read]
  dsimp only [Query.answer]
  rw [NoteStore.addressFee]
  cases m.st.store.addressFees.find? h with
  | none => rfl
  | some f =>
    cases hp : f.paid with
    | true => simp [hp]
    | false =>
      rw [← alone_settleIfPaid h, Prog.alone_bind]
      simp only [Option.map_some, hp, Option.any_some, Bool.not_false, if_true, Bool.false_eq_true,
        if_false]

/-- The store after a turn: as it was, or as the element's own transaction left it. -/
theorem lookedUp_store (h : Str) (u : Update) :
    (lookedUp env h u m).1.st.store = m.st.store ∨
      ∃ out, u.apply (env.inputs m.ops) m.st.store =
        .ok (out, (lookedUp env h u m).1.st.store) := by
  unfold lookedUp
  split
  · exact .inl rfl
  · split
    · exact .inl rfl
    · exact .inl rfl
    · cases hr : u.run (env.inputs m.ops) m.st.store with
      | none => exact .inl rfl
      | some x =>
        rcases x with ⟨_ | out, store⟩
        · rcases Update.run_eq_some.1 hr with ⟨_, ⟨⟩, -⟩ | ⟨_, -, -, -, he⟩
          exact .inl he
        · rcases Update.run_eq_some.1 hr with ⟨_, ⟨⟩, ho⟩ | ⟨_, ⟨⟩, -⟩
          exact .inr ⟨out, ho⟩

/-- It does what it is to do exactly when it is paid and its transaction does that. -/
theorem lookedUp_achieves {h : Str} {u : Update} {P : NoteStore → Prop} (hm : ¬ P m.st.store) :
    P (lookedUp env h u m).1.st.store ↔ cfg.fundingsourceBackend ≠ none ∧
      env.answers (.isInvoiceSettled h) = .ok true ∧
        ∃ out s', u.apply (env.inputs m.ops) m.st.store = .ok (out, s') ∧ P s' := by
  unfold lookedUp
  by_cases hb : cfg.fundingsourceBackend = none
  · simp [hb, hm]
  · rw [if_neg hb]
    cases hp : env.answers (.isInvoiceSettled h) with
    | error e => cases e; simp [hm]
    | ok paid =>
      cases paid with
      | false => simp [hm]
      | true =>
        simp only [ne_eq, hb, not_false_eq_true, true_and]
        unfold Update.run
        cases ha : u.apply (env.inputs m.ops) m.st.store with
        | ok x =>
          obtain ⟨out, store⟩ := x
          simp [settledMoment]
        | error e => cases e <;> simp [settledMoment, hm]

/-- And it ends the loop exactly when its lookup or its transaction raises. -/
theorem lookedUp_ended {h : Str} {u : Update} : Prog.ended (lookedUp env h u m).2 = true ↔
    cfg.fundingsourceBackend ≠ none ∧ (env.answers (.isInvoiceSettled h) = .error () ∨
      env.answers (.isInvoiceSettled h) = .ok true ∧
        ∃ e, u.apply (env.inputs m.ops) m.st.store = .error e) := by
  unfold lookedUp
  by_cases hb : cfg.fundingsourceBackend = none
  · simp [hb, Prog.ended]
  · rw [if_neg hb]
    cases hp : env.answers (.isInvoiceSettled h) with
    | error e => cases e; simp [hb, Prog.ended]
    | ok paid =>
      cases paid with
      | false => simp [Prog.ended]
      | true =>
        simp only [ne_eq, hb, not_false_eq_true, true_and]
        unfold Update.run
        cases ha : u.apply (env.inputs m.ops) m.st.store with
        | ok x => simp [settledMoment, Prog.ended]
        | error e => cases e <;> simp [settledMoment, Prog.ended]

/-- A turn leaves the store as it was, or as the element's own transaction left it. -/
theorem turn_store (env : Surroundings (mint cfg)) (x : Polled) (m : Moment (mint cfg)) :
    ((x.turn cfg).alone env m).1.st.store = m.st.store ∨
      (∃ h now out, x = .mintInvoice h ∧ m.st.store.settleMint now h (some (shareNoteId d)) =
        .ok (out, ((x.turn cfg).alone env m).1.st.store)) ∨
      ∃ h now out, x = .feeInvoice h ∧ m.st.store.settleAddressFee now h =
        .ok (out, ((x.turn cfg).alone env m).1.st.store) := by
  cases x with
  | feesQuery => exact .inl rfl
  | mintInvoice h =>
    rw [alone_mintInvoice]
    split
    · exact .inl rfl
    · split
      · exact .inl rfl
      · rcases lookedUp_store (m := ⟨m.ops + 2, m.st⟩) h (.settleMint h (some (shareNoteId d))) with
          he | ⟨out, ho⟩
        · exact .inl he
        · exact .inr (.inl ⟨h, _, out, rfl, ho⟩)
  | feeInvoice h =>
    rw [alone_feeInvoice]
    split
    · rcases lookedUp_store (m := ⟨m.ops + 1, m.st⟩) h (.settleAddressFee h) with he | ⟨out, ho⟩
      · exact .inl he
      · exact .inr (.inr ⟨h, _, out, rfl, ho⟩)
    · exact .inl rfl

end Turns

/-! ## What the turns keep -/

section Keep

variable {s s' : NoteStore} {now : ℤ} {h : Str}

open NoteStore

/-- A mint's settlement touches its own row, and of the usernames only where their notes go on. -/
theorem settleMint_frame {derive : Option DeriveNote} {out : Option ℤ}
    (ho : s.settleMint now h derive = .ok (out, s')) : s'.addressFees = s.addressFees ∧
      (∀ h', h' ≠ h → s'.mints.find? h' = s.mints.find? h') ∧
      (s.mintSettled h = true → s' = s) ∧
      ∀ u row, s.usernames.find? u = some row →
        ∃ row', s'.usernames.find? u = some row' ∧ row'.cx1 = row.cx1 := by
  rcases settleMint_ok ho with ⟨-, rfl, -⟩ | ⟨m, notes, hg, hp, -, ⟨id, hid, -, rfl⟩ |
    ⟨username, derive', pk, index, row, -, -, -, -, -, -, -, -, rfl⟩⟩
  · exact ⟨rfl, fun _ _ => rfl, fun _ => rfl, fun u row hr => ⟨row, hr, rfl⟩⟩
  · refine ⟨rfl, ?_, ?_, fun u row hr => ⟨row, hr, rfl⟩⟩
    · intro h' hne
      exact (find?_settled hg hid h').trans (by simp [hne])
    · intro hs
      rw [mintSettled_of_find? hg, hp] at hs
      cases hs
  · refine ⟨rfl, ?_, ?_, ?_⟩
    · intro h' hne
      exact (find?_settled_named hg h').trans (by simp [hne])
    · intro hs
      rw [mintSettled_of_find? hg, hp] at hs
      cases hs
    · intro u row' hr
      show ∃ row'', (s.usernames.modify username _).find? u = some row'' ∧ _
      rw [Table.find?_modify, hr]
      refine ⟨_, rfl, ?_⟩
      split <;> rfl

/-- An address fee's settlement touches its own row, and may add a username. -/
theorem settleAddressFee_frame {out : Option (Str × Bool)}
    (ho : s.settleAddressFee now h = .ok (out, s')) : s'.mints = s.mints ∧
      (∀ h', h' ≠ h → s'.addressFees.find? h' = s.addressFees.find? h') ∧
      (∀ f, s.addressFees.find? h = some f →
        s'.addressFees.find? h = some { f with paid := true }) ∧
      ∀ u row, s.usernames.find? u = some row → s'.usernames.find? u = some row := by
  have hmark : (∀ h', h' ≠ h → (s.markPaid h).addressFees.find? h' = s.addressFees.find? h') ∧
      ∀ f, s.addressFees.find? h = some f →
        (s.markPaid h).addressFees.find? h = some { f with paid := true } := by
    constructor
    · intro h' hne
      rw [markPaid, Table.find?_modify]
      simp [hne]
    · intro f hf
      rw [markPaid, Table.find?_modify, hf]
      simp
  rcases settleAddressFee_ok ho with ⟨-, rfl, hpaid⟩ |
    ⟨f, hf, hp, ⟨-, rfl, -⟩ | ⟨-, -, usernames, hu, rfl⟩⟩
  · refine ⟨rfl, fun _ _ => rfl, ?_, fun u row hr => hr⟩
    intro f hf
    have hp := hpaid f hf
    rw [hf]
    cases f
    simp_all
  · exact ⟨rfl, hmark.1, hmark.2, fun u row hr => hr⟩
  · exact ⟨rfl, hmark.1, hmark.2, fun u row hr => Table.find?_of_insert? hu hr⟩

end Keep

section Keep

variable {env : Surroundings (mint cfg)}

/-- Who is unsettled stays so through the turns of others. -/
theorem Polled.Unsettled.turn {m : Moment (mint cfg)} {x y : Polled} (hne : x ≠ y)
    (hx : x.Unsettled m.st.store) : x.Unsettled ((y.turn cfg).alone env m).1.st.store := by
  rcases turn_store env y m with he | ⟨h, now, out, rfl, ho⟩ | ⟨h, now, out, rfl, ho⟩
  · rwa [he]
  · obtain ⟨hfees, hmints, -⟩ := settleMint_frame ho
    cases x with
    | feesQuery => trivial
    | mintInvoice h' =>
      obtain ⟨row, hr, hp⟩ := hx
      exact ⟨row, by rw [hmints h' fun he => hne (he ▸ rfl), hr], hp⟩
    | feeInvoice h' =>
      obtain ⟨f, hf, hp⟩ := hx
      exact ⟨f, by rw [hfees, hf], hp⟩
  · obtain ⟨hmints, hfees, -⟩ := settleAddressFee_frame ho
    cases x with
    | feesQuery => trivial
    | mintInvoice h' =>
      obtain ⟨row, hr, hp⟩ := hx
      exact ⟨row, by rw [hmints, hr], hp⟩
    | feeInvoice h' =>
      obtain ⟨f, hf, hp⟩ := hx
      exact ⟨f, by rw [hfees h' fun he => hne (he ▸ rfl), hf], hp⟩

/-- Who is settled stays so through every turn. -/
theorem Polled.Settled.turn {m : Moment (mint cfg)} {x : Polled} (y : Polled)
    (hx : x.Settled m.st.store) : x.Settled ((y.turn cfg).alone env m).1.st.store := by
  rcases turn_store env y m with he | ⟨h, now, out, rfl, ho⟩ | ⟨h, now, out, rfl, ho⟩
  · rwa [he]
  · obtain ⟨hfees, hmints, hsame, hnames⟩ := settleMint_frame ho
    cases x with
    | feesQuery => exact hx
    | mintInvoice h' =>
      by_cases he : h' = h
      · subst he
        rw [hsame hx]
        exact hx
      · show NoteStore.mintSettled _ h' = true
        rw [NoteStore.mintSettled, hmints h' he]
        exact hx
    | feeInvoice h' =>
      obtain ⟨f, row, hf, hp, hr, hc⟩ := hx
      obtain ⟨row', hr', hc'⟩ := hnames _ row hr
      exact ⟨f, row', by rw [hfees, hf], hp, hr', hc'.trans hc⟩
  · obtain ⟨hmints, hfees, hpaid, hnames⟩ := settleAddressFee_frame ho
    cases x with
    | feesQuery => exact hx
    | mintInvoice h' =>
      show NoteStore.mintSettled _ h' = true
      rw [NoteStore.mintSettled, hmints]
      exact hx
    | feeInvoice h' =>
      obtain ⟨f, row, hf, hp, hr, hc⟩ := hx
      by_cases he : h' = h
      · subst he
        exact ⟨_, row, hpaid f hf, rfl, hnames _ row hr, hc⟩
      · exact ⟨f, row, by rw [hfees h' he, hf], hp, hnames _ row hr, hc⟩

/-- An unsettled element is settled by its turn exactly when it can be. -/
theorem settled_turn_iff {m : Moment (mint cfg)} {x : Polled} (hx : x.Unsettled m.st.store) :
    x.Settled ((x.turn cfg).alone env m).1.st.store ↔ x.CanSettle env m := by
  cases x with
  | feesQuery => exact Iff.rfl
  | mintInvoice h =>
    obtain ⟨row, hr, hp⟩ := hx
    have hs : m.st.store.mintSettled h = false := by simp [NoteStore.mintSettled, hr, hp]
    have hpend : (m.st.store.pendingMint h).isNone = false := by
      simp [NoteStore.pendingMint, hr, hp]
    rw [alone_mintInvoice, hs, hpend]
    exact lookedUp_achieves (m := ⟨m.ops + 2, m.st⟩) (u := .settleMint h (some (shareNoteId d)))
      (P := (Polled.mintInvoice h).Settled) (by simp [Polled.Settled, hs])
  | feeInvoice h =>
    obtain ⟨f, hf, hp⟩ := hx
    rw [alone_feeInvoice, hf]
    simp only [Option.any_some, hp, Bool.not_false, if_true]
    exact lookedUp_achieves (m := ⟨m.ops + 1, m.st⟩) (u := .settleAddressFee h)
      (P := (Polled.feeInvoice h).Settled) (by simp [Polled.Settled, hf, hp])

/-- And its turn ends the round exactly when it fails. -/
theorem ended_turn_iff {m : Moment (mint cfg)} {x : Polled} (hx : x.Unsettled m.st.store) :
    Prog.ended ((x.turn cfg).alone env m).2 = true ↔ x.Fails env m := by
  cases x with
  | feesQuery => exact iff_of_false Bool.false_ne_true id
  | mintInvoice h =>
    obtain ⟨row, hr, hp⟩ := hx
    have hs : m.st.store.mintSettled h = false := by simp [NoteStore.mintSettled, hr, hp]
    have hpend : (m.st.store.pendingMint h).isNone = false := by
      simp [NoteStore.pendingMint, hr, hp]
    rw [alone_mintInvoice, hs, hpend]
    exact lookedUp_ended (m := ⟨m.ops + 2, m.st⟩) (u := .settleMint h (some (shareNoteId d)))
  | feeInvoice h =>
    obtain ⟨f, hf, hp⟩ := hx
    rw [alone_feeInvoice, hf]
    simp only [Option.any_some, hp, Bool.not_false, if_true]
    exact lookedUp_ended (m := ⟨m.ops + 1, m.st⟩) (u := .settleAddressFee h)

end Keep

/-! ## The round -/

theorem nodup_polled (now : ℤ) (s : NoteStore) : (polled now s).Nodup := by
  have hmints := (Table.nodup_keys_selected s.mints (fun m => !m.minted &&
    (m.zapRequest.isSome || m.username.isSome) && now - zapPollWindowSeconds ≤ m.createdAt)
    (fun m m' => m'.createdAt ≤ m.createdAt) zapPollLimit).map
      fun h h' he => Polled.mintInvoice.inj he
  have hfees := (Table.nodup_keys_selected s.addressFees (fun f => !f.paid &&
    now - zapPollWindowSeconds ≤ f.createdAt)
    (fun f f' => f'.createdAt ≤ f.createdAt) zapPollLimit).map
      fun h h' he => Polled.feeInvoice.inj he
  refine List.nodup_append.2 ⟨hmints, List.nodup_cons.2 ⟨by simp, hfees⟩, ?_⟩
  intro x hx y hy he
  obtain ⟨h, -, rfl⟩ := List.mem_map.1 hx
  subst he
  simp at hy

theorem unsettled_of_polled {now : ℤ} {s : NoteStore} {x : Polled} (hx : x ∈ polled now s) :
    x.Unsettled s := by
  rcases List.mem_append.1 hx with hx | hx
  · obtain ⟨h, hh, rfl⟩ := List.mem_map.1 hx
    obtain ⟨m, hm, hp⟩ := Table.find?_of_selected hh
    simp only [Bool.and_eq_true, Bool.not_eq_true'] at hp
    exact ⟨m, hm, hp.1.1⟩
  · rcases List.mem_cons.1 hx with rfl | hx
    · trivial
    · obtain ⟨h, hh, rfl⟩ := List.mem_map.1 hx
      obtain ⟨f, hf, hp⟩ := Table.find?_of_selected hh
      simp only [Bool.and_eq_true, Bool.not_eq_true'] at hp
      exact ⟨f, hf, hp.1⟩

section Round

variable (env : Surroundings (mint cfg)) (m : Moment (mint cfg))

/-- The moment after an element's own turn. -/
def afterTurn (m : Moment (mint cfg)) (x : Polled) : Moment (mint cfg) :=
  ((x.turn cfg).alone env m).1

/-- The moment at which a round begins to work through its elements: it has read the clock and the
polled mints. -/
def roundStart : Moment (mint cfg) := ⟨m.ops + 2, m.st⟩

/-- What the round that begins at this moment works through. -/
def roundPolled : List Polled := polled (env.inputs m.ops).now m.st.store

/-- The store that the round leaves, or that it was ended at. -/
def roundLeaves : NoteStore := ((settlePolledMints cfg).alone env m).1.st.store

theorem forEach_map {α β : Type} (f : β → Mint Unit) (g : α → β) (xs : List α) :
    forEach f (xs.map g) = forEach (fun x => f (g x)) xs := by
  induction xs with
  | nil => rfl
  | cons x xs ih => rw [List.map_cons, forEach, forEach, ih]

/-- Whether an element's own turn ends the round. -/
def endsRound (m : Moment (mint cfg)) (x : Polled) : Prop :=
  Prog.ended ((x.turn cfg).alone env m).2 = true

instance (x : Polled) : Decidable (endsRound env m x) := inferInstanceAs (Decidable (_ = _))

/-- A round is a loop over its elements, the query between its two loops being one of them. -/
theorem alone_settlePolledMints : (settlePolledMints cfg).alone env m =
    (forEach (Polled.turn cfg) (roundPolled env m)).alone env (roundStart m) := by
  set since := (env.inputs m.ops).now - zapPollWindowSeconds with hsince
  set mints := m.st.store.pendingPolledMints since zapPollLimit with hmints
  show (forEach (fun h => (Polled.mintInvoice h).turn cfg) mints >>=
      fun _ => read (.heldAddressFees since zapPollLimit) >>= fun fees =>
        forEach (fun h => (Polled.feeInvoice h).turn cfg) fees).alone env (roundStart m) = _
  rw [roundPolled, polled, alone_forEach_append, forEach_map, Prog.alone_bind, ← hsince, ← hmints]
  -- the settlement of mints does not touch the address fees
  have hfees : ((forEach (fun h => (Polled.mintInvoice h).turn cfg) mints).alone env
      (roundStart m)).1.st.store.addressFees = m.st.store.addressFees := by
    rw [alone_forEach]
    refine sweep_keep (P := fun m' : Moment (mint cfg) =>
      m'.st.store.addressFees = m.st.store.addressFees) ?_ mints rfl
    intro m' h hm'
    rcases turn_store env (.mintInvoice h) m' with he | ⟨h', now, out, -, ho⟩ |
      ⟨h', now, out, he, -⟩
    · rw [he]
      exact hm'
    · exact (settleMint_frame ho).1.trans hm'
    · cases he
  rcases hrun : (forEach (fun h => (Polled.mintInvoice h).turn cfg) mints).alone env
    (roundStart m) with ⟨m', _ | _ | _⟩
  · rfl
  · rfl
  · have hfees : m'.st.store.addressFees = m.st.store.addressFees := by rwa [hrun] at hfees
    show (forEach (fun h => (Polled.feeInvoice h).turn cfg)
      (m'.st.store.heldAddressFees since zapPollLimit)).alone env ⟨m'.ops + 1, m'.st⟩ =
      (forEach (Polled.turn cfg) ((m.st.store.heldAddressFees since zapPollLimit).map
        .feeInvoice)).alone env ⟨m'.ops + 1, m'.st⟩
    rw [forEach_map, NoteStore.heldAddressFees, NoteStore.heldAddressFees, hfees]

/-- A round sweeps its elements. -/
theorem roundLeaves_eq_sweep : roundLeaves env m = (sweep (afterTurn env) (endsRound env)
    (roundStart m) (roundPolled env m)).st.store := by
  rw [roundLeaves, alone_settlePolledMints, alone_forEach]
  rfl

/-- An element that comes later is still unsettled when its turn comes. -/
theorem unsettled_at_turn {l r : List Polled} {x : Polled} (heq : roundPolled env m = l ++ x :: r) :
    x.Unsettled (turns (afterTurn env) (roundStart m) l).st.store := by
  have hnodup : (roundPolled env m).Nodup := nodup_polled _ _
  have hx : ∀ y ∈ l, y ≠ x := by
    rw [heq] at hnodup
    exact fun y hl he => (List.nodup_append.1 hnodup).2.2 y hl x List.mem_cons_self he
  refine turns_keep (afterTurn env) (· ≠ ·)
    (P := fun x (m : Moment (mint cfg)) => x.Unsettled m.st.store) ?_ l hx
    (unsettled_of_polled (show x ∈ roundPolled env m by rw [heq]; simp))
  exact fun _ _ _ hne h => h.turn hne.symm

/-- A round comes to no good end when one of its elements fails in its turn. -/
theorem round_ended_iff : Prog.ended ((settlePolledMints cfg).alone env m).2 = true ↔
    ∃ l x r, roundPolled env m = l ++ x :: r ∧
      x.Fails env (turns (afterTurn env) (roundStart m) l) := by
  rw [alone_settlePolledMints, alone_forEach_ended]
  constructor
  · rintro ⟨l, x, r, heq, hx⟩
    exact ⟨l, x, r, heq, (ended_turn_iff (unsettled_at_turn env m heq)).1 hx⟩
  · rintro ⟨l, x, r, heq, hx⟩
    exact ⟨l, x, r, heq, (ended_turn_iff (unsettled_at_turn env m heq)).2 hx⟩

/-- **A round settles whatever its own lookup says is paid, exactly when no element that fails comes
before one that can be settled.** Each element is judged at the moment at which its turn comes, had
those before it all had theirs. -/
theorem polled_settled_iff :
    (∀ l x r, roundPolled env m = l ++ x :: r →
      x.CanSettle env (turns (afterTurn env) (roundStart m) l) → x.Settled (roundLeaves env m)) ↔
    ∀ l x k y r, roundPolled env m = l ++ x :: (k ++ y :: r) →
      x.Fails env (turns (afterTurn env) (roundStart m) l) →
        ¬ y.CanSettle env (turns (afterTurn env) (roundStart m) (l ++ x :: k)) := by
  have hnodup : (roundPolled env m).Nodup := nodup_polled _ _
  have hswept := swept_iff (afterTurn env) (endsRound env) (· ≠ ·)
    (fun x (m : Moment (mint cfg)) => x.Unsettled m.st.store)
    (fun x (m : Moment (mint cfg)) => x.Settled m.st.store)
    (fun _ _ hu => hu.not_settled) (fun _ _ _ hne hu => hu.turn hne.symm)
    (fun _ _ y hs => hs.turn y) hnodup (s := roundStart m) fun x hx => unsettled_of_polled hx
  rw [← roundLeaves_eq_sweep] at hswept
  constructor
  · intro hall l x k y r heq hfails hcan
    have hx := unsettled_at_turn env m heq
    have hy := unsettled_at_turn env m (l := l ++ x :: k) (r := r) (x := y)
      (by rw [heq, List.append_assoc]; rfl)
    refine hswept.1 ?_ l x k y r heq ((ended_turn_iff hx).2 hfails) ((settled_turn_iff hy).2 hcan)
    intro l' x' r' heq' hs
    exact hall l' x' r' heq' ((settled_turn_iff (unsettled_at_turn env m heq')).1 hs)
  · intro hnone l x r heq hcan
    refine hswept.2 ?_ l x r heq ((settled_turn_iff (unsettled_at_turn env m heq)).2 hcan)
    intro l' x' k y r' heq' hends hs
    have hx' := unsettled_at_turn env m heq'
    have hy := unsettled_at_turn env m (l := l' ++ x' :: k) (r := r') (x := y)
      (by rw [heq', List.append_assoc]; rfl)
    exact hnone l' x' k y r' heq' ((ended_turn_iff hx').1 hends) ((settled_turn_iff hy).1 hs)

end Round

/-! ## A starved mint -/

/-- Two names are registered and an invoice is made out for each; the one with the newer invoice is
freed. -/
def starvedRun : List (Choice standInMint) :=
  standInRegisters 0 "bob".toList 'p' 0 ++ standInSells 3 "bob".toList "b".toList 0 ++
    standInRegisters 9 "alice".toList 'z' 1 ++ standInSells 12 "alice".toList "a".toList 1 ++
    standInFrees 18 "alice".toList 'z' 1

/-- Every invoice is paid. -/
def standInPaid : Surroundings standInMint := ⟨standInAnswer [] true, fun _ => ⟨10, ""⟩⟩

/-- What the starved run is to show, on the store it ends in. -/
def starved (m : Moment standInMint) : Bool :=
  decide (roundPolled standInPaid m =
    [.mintInvoice "a".toList, .mintInvoice "b".toList, .feesQuery (-3590)]) &&
  (match (turns (afterTurn standInPaid) (roundStart m)
      [.mintInvoice "a".toList]).st.store.settleMint
      10 "b".toList (some (shareNoteId .standIn)) with
    | .ok (_, s') => s'.mintSettled "b".toList
    | .error _ => false) &&
  !(roundLeaves standInPaid m).mintSettled "b".toList

/-- **A mint that is paid, and could be settled, is not**, because a newer one is for a name that is
gone. -/
theorem polled_mint_starved : ∃ c : Config standInMint, Reach State.initial c ∧
    ∃ l x r, roundPolled standInPaid ⟨0, c.w.st⟩ = l ++ x :: r ∧
      x.CanSettle standInPaid (turns (afterTurn standInPaid) (roundStart ⟨0, c.w.st⟩) l) ∧
      ¬ x.Settled (roundLeaves standInPaid ⟨0, c.w.st⟩) := by
  have hrun : (standInRun starvedRun).any (fun c => starved ⟨0, c.w.st⟩) = true := by
    decide +kernel
  obtain ⟨c, hc, hs⟩ := exists_standInRun hrun
  simp only [starved, Bool.and_eq_true, decide_eq_true_eq, Bool.not_eq_true'] at hs
  obtain ⟨⟨hpolled, hcan⟩, hleft⟩ := hs
  refine ⟨c, hc, [.mintInvoice "a".toList], _, _, hpolled, ⟨by decide, rfl, ?_⟩, ?_⟩
  · split at hcan
    · rename_i out s' ho
      exact ⟨out, s', ho, hcan⟩
    · cases hcan
  · rw [Polled.Settled, hleft]
    exact Bool.false_ne_true

end LnurlMint
