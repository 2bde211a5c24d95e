import LnurlMint.Polling
import LnurlMint.Redemptions
import LnurlMint.Names

/-!
# Gaps in a share

A wallet recovers the notes of a share by asking for one index after another, until one is unknown.
The mint picks the notes it credits to a share in order, and passes over an index whose note is on
file or is named by a mint's invoice, paid or not. The lookup knows the notes on file, and settles a
mint that is paid; of an invoice that was never paid it knows nothing, and answers as if the index
had not been reached.

So anyone who asks for an invoice to the next key of a share, and leaves it unpaid, hides what the
share is credited after that. And a lookup at a base URL off which the mint cannot read its domain
says nothing of a live note, because it cannot certify it.

## Main definitions

* `NoteStore.Gapless` — every key that was passed is in use
* `getWithdrawAlone` — the answer to a lookup, with nothing beside it
* `Counted` — an answer that a recovery scan counts

## Main results

* `Run.gapless`
* `passed_index_counted_iff` — when a passed index is answered as one that is used
-/

namespace LnurlMint

open Relational Interleave

/-! ## Passed indices -/

namespace NoteStore

variable {d : Deps} {s s' : NoteStore} {now : ℤ} {u : Update}

theorem idInUse_eq_true {id : Str} : s.idInUse id = true ↔
    (∃ n, s.notes.find? id = some n) ∨ ∃ m ∈ s.mints.rows, m.noteId = some id := by
  simp [idInUse, Option.isSome_iff_exists]

/-- An id stays in use. -/
theorem idInUse_mono (hev : s.Evolves s') (hs : MintsStep now u s s') {id : Str}
    (h : s.idInUse id = true) : s'.idInUse id = true := by
  rcases idInUse_eq_true.1 h with ⟨n, hn⟩ | ⟨m, hm, hid⟩
  · obtain ⟨n', hn', -⟩ := hev.note hn
    exact idInUse_eq_true.2 (.inl ⟨n', hn'⟩)
  · obtain ⟨m', hm', hid', -⟩ := named_of_mintsStep hs (Table.find?_of_mem hm) hid
    exact idInUse_eq_true.2 (.inr ⟨m', Table.mem_of_find? hm', hid'⟩)

variable (d) in
/-- Every key of a registered share before its next index is in use. -/
def Gapless (s : NoteStore) : Prop :=
  ∀ name row, s.usernames.find? name = some row → ∀ j pk, j < row.nextIndex →
    shareNoteId d row.cx1 j = .ok (some pk) → s.idInUse pk = true

theorem Gapless.empty : NoteStore.empty.Gapless d := by
  intro name row h
  cases h

/-- Registering a share keeps it so: no index has been passed. -/
theorem gapless_insert {r : UsernameRow} (h : s.Gapless d) (hr : r.nextIndex = 0)
    (hi : s.usernames.insert? r = some s'.usernames)
    (hmono : ∀ id, s.idInUse id = true → s'.idInUse id = true) : s'.Gapless d := by
  intro name row hrow j pk hj hpk
  rw [Table.find?_insert? hi] at hrow
  split at hrow
  · cases hrow
    omega
  · exact hmono _ (h name row hrow j pk hj hpk)

/-- **Every transaction that derives keys as the mint does keeps it so.** -/
theorem Gapless.step {filed : Option Str} (h : s.Gapless d) (hs : NamesStep now u filed s s')
    (hd : ∀ derive, u.derives = some derive → derive = shareNoteId d)
    (hmono : ∀ id, s.idInUse id = true → s'.idInUse id = true) : s'.Gapless d := by
  have same : s'.usernames = s.usernames → s'.Gapless d := by
    intro hn name row hrow j pk hj hpk
    exact hmono _ (h name row (hn ▸ hrow) j pk hj hpk)
  cases hs with
  | keep hn => exact same hn
  | hold _ _ _ _ _ hn => exact same hn
  | lapse _ _ _ _ _ hn => exact same hn
  | register username cx1 xp nostrPubkey _ _ hn => exact gapless_insert h rfl hn hmono
  | settle f _ _ _ _ hn => exact gapless_insert h rfl hn hmono
  | update username cx1 xp _ _ _ hn =>
    intro name row hrow j pk hj hpk
    rw [hn, Table.find?_modify] at hrow
    obtain ⟨row', hrow', rfl⟩ := Option.map_eq_some_iff.1 hrow
    split at hj
    · exact absurd hj (Nat.not_lt_zero j)
    · rename_i hne
      rw [if_neg hne] at hpk
      exact hmono _ (h name row' hrow' j pk hj hpk)
  | delete username _ hn =>
    intro name row hrow j pk hj hpk
    rw [hn, Table.find?_erase] at hrow
    split at hrow
    · cases hrow
    · exact hmono _ (h name row hrow j pk hj hpk)
  | advance username index hn _ _ _ row' derive pk' n hg hder hpk' hpassed hadded =>
    obtain rfl := hd derive hder
    intro name row hrow j pk hj hpk
    rw [hn, Table.find?_modify] at hrow
    obtain ⟨row₀, hrow₀, rfl⟩ := Option.map_eq_some_iff.1 hrow
    by_cases hname : name = username
    · subst hname
      cases hg.symm.trans hrow₀
      rw [if_pos rfl] at hj hpk
      have hle : j ≤ index := Nat.lt_succ_iff.1 hj
      rcases Nat.lt_or_ge j row'.nextIndex with hbefore | hafter
      · exact hmono _ (h name row' hg j pk hbefore hpk)
      · rcases Nat.eq_or_lt_of_le hle with rfl | hlt
        · cases hpk'.symm.trans hpk
          exact idInUse_eq_true.2 (.inl ⟨n, hadded⟩)
        · exact hmono _ (hpassed.2 j pk hafter hlt hpk)
    · rw [if_neg hname] at hj hpk
      exact hmono _ (h name row₀ hrow₀ j pk hj hpk)

end NoteStore

section Histories

variable {d : Deps} {cfg : Settings d} {s : State} {w : World (mint cfg)} {a : Actor mintSig}

/-- The mint derives every share's keys in one way. -/
theorem MayWrite.derives {u : Update} (hu : MayWrite cfg w a u) {derive : DeriveNote}
    (hd : u.derives = some derive) : derive = shareNoteId d := by
  cases u with
  | settleMint hash derive' =>
    cases hu.1.symm.trans hd
    rfl
  | transferToUsername burnIds username amountMsat derive' =>
    cases hd
    obtain ⟨_, _, _, _, _, _, -, -, -, -, hder, -⟩ := hu
    exact hder
  | _ => cases hd

/-- In every history, every key that was passed is in use. -/
theorem Run.gapless (h : Run (law cfg) s w) (hs : s.store.Gapless d) : w.st.store.Gapless d := by
  refine Run.store_induct h (P := NoteStore.Gapless d) hs ?_ fun hg => hg
  intro w₀ a u i out s' _ _ hu hg ho
  refine hg.step (Update.namesStep ho) (fun derive hd => hu.derives hd) fun id hid => ?_
  exact NoteStore.idInUse_mono (Update.notesStep (Update.swapsMeet_true _) ho).evolves
    (Update.mintsStep ho) hid

end Histories

/-! ## A lookup with nothing beside it -/

section Alone

variable {d : Deps} {cfg : Settings d} {env : Surroundings (mint cfg)} {m : Moment (mint cfg)}
  {noteId : Str}

theorem alone_settleMintIfPaid (h : Str) : (settleMintIfPaid cfg h).alone env m =
    if cfg.fundingsourceBackend = none then (m, some (.ok false))
    else match env.answers (.isInvoiceSettled h) with
      | .error () => (m, some (.error .other))
      | .ok false => (m, some (.ok false))
      | .ok true =>
        match (Update.settleMint h (some (shareNoteId d))).run (env.inputs m.ops) m.st.store with
        | none => (m, none)
        | some (.ok _, store) => (⟨m.ops + 1, { m.st with store }⟩, some (.ok true))
        | some (.error e, store) => (⟨m.ops + 1, { m.st with store }⟩, some (.error e)) := by
  unfold settleMintIfPaid
  by_cases hb : cfg.fundingsourceBackend = none
  · rw [if_pos hb, if_pos hb]
    rfl
  · rw [if_neg hb, if_neg hb, Prog.alone_bind, alone_isInvoiceSettled]
    cases hp : env.answers (.isInvoiceSettled h) with
    | error e => cases e; rfl
    | ok paid =>
      cases paid with
      | false => rfl
      | true =>
        simp only [if_true]
        rw [Prog.alone_bind, alone_write]
        rcases (Update.settleMint h (some (shareNoteId d))).run (env.inputs m.ops) m.st.store with
          _ | ⟨_ | _, _⟩ <;> rfl

theorem alone_mintSettledByNoteId : (mintSettledByNoteId cfg noteId).alone env m =
    match m.st.store.pendingMintByNoteId noteId with
    | none => (⟨m.ops + 1, m.st⟩, some (.ok false))
    | some (h, _) => (settleMintIfPaid cfg h).alone env ⟨m.ops + 1, m.st⟩ := by
  show Prog.alone env (match m.st.store.pendingMintByNoteId noteId with
    | none => pure false
    | some (paymentHash, _) => settleMintIfPaid cfg paymentHash : Mint Bool) _ = _
  rcases m.st.store.pendingMintByNoteId noteId with _ | ⟨h, amountMsat⟩ <;> rfl

theorem alone_noteAmountById : (noteAmountById cfg noteId).alone env m =
    match m.st.store.noteAmount noteId with
    | some amountMsat => (⟨m.ops + 1, m.st⟩, some (.ok (some amountMsat)))
    | none => match (mintSettledByNoteId cfg noteId).alone env ⟨m.ops + 1, m.st⟩ with
      | (m', some (.ok true)) => (⟨m'.ops + 1, m'.st⟩, some (.ok (m'.st.store.noteAmount noteId)))
      | (m', some (.ok false)) => (m', some (.ok none))
      | (m', some (.error e)) => (m', some (.error e))
      | (m', none) => (m', none) := by
  show Prog.alone env (match m.st.store.noteAmount noteId with
    | some amountMsat => pure (some amountMsat)
    | none => do
      let settled ← mintSettledByNoteId cfg noteId
      if settled then read (.noteAmount noteId) else return none : Mint (Option ℤ)) _ = _
  cases m.st.store.noteAmount noteId with
  | some amountMsat => rfl
  | none =>
    show Prog.alone env (do
      let settled ← mintSettledByNoteId cfg noteId
      if settled then read (.noteAmount noteId) else return none : Mint (Option ℤ)) _ = _
    rw [Prog.alone_bind]
    rcases (mintSettledByNoteId cfg noteId).alone env ⟨m.ops + 1, m.st⟩ with ⟨m', _ | _ | _ | _⟩ <;>
      rfl

theorem alone_noteRecord :
    Prog.alone (α := Option (ℤ × ℤ × Bool × Bool)) env (read (.noteRecord noteId)) m =
      (⟨m.ops + 1, m.st⟩, some (.ok (m.st.store.noteRecord noteId))) := rfl

theorem alone_notePending : Prog.alone (α := Bool) env (read (.notePending noteId)) m =
    (⟨m.ops + 1, m.st⟩, some (.ok (m.st.store.notePending noteId))) := rfl

/-- What `get_withdraw` answers for a note on file that is neither spent nor reserved. -/
def liveAnswer (cfg : Settings d) (baseUrl noteId : Str) (amountMsat : ℤ) : Mint Response := do
  let (base, host) ← Prog.ofExcept (cfg.publicBaseUrlAndHost baseUrl)
  let domain ← domain cfg baseUrl
  let c ← certificate cfg noteId amountMsat domain
  let pubkey ← mintPubkey cfg
  return .withdrawRequest (base ++ "/w/cb".toList) none amountMsat
    ("lnurlcash bearer note on ".toList ++ host) pubkey c

theorem alone_getWithdraw {baseUrl p : Str} {amount : Option ℤ}
    (hp : Spend.decodeNote d p = some noteId) :
    (getWithdraw cfg baseUrl none (some p) amount).alone env m =
      match (noteAmountById cfg noteId).alone env m with
      | (m', some (.ok _)) => match m'.st.store.notes.find? noteId with
        | none => (⟨m'.ops + 1, m'.st⟩, some (.error (.http "Unknown note.")))
        | some n =>
          if n.spent then (⟨m'.ops + 1, m'.st⟩, some (.error (.http "already in use")))
          else if n.pending then (⟨m'.ops + 2, m'.st⟩, some (.error (.http "pending")))
          else (liveAnswer cfg baseUrl noteId n.amountMsat).alone env ⟨m'.ops + 2, m'.st⟩
      | (m', some (.error e)) => (m', some (.error e))
      | (m', none) => (m', none) := by
  rw [getWithdraw, queriedNote, noteByRef, hp, Prog.alone_bind, Prog.alone_bind, Prog.alone_bind]
  rcases (noteAmountById cfg noteId).alone env m with ⟨m', _ | _ | _⟩
  · rfl
  · rfl
  · simp only [Prog.alone_bind, alone_noteRecord, alone_notePending, Prog.alone_pure,
      Prog.alone_orRaise, Prog.alone_raiseIf, NoteStore.noteRecord, NoteStore.notePending]
    cases hn : m'.st.store.notes.find? noteId with
    | none => rfl
    | some n =>
      cases hs : n.spent with
      | true => simp [hs]
      | false =>
        cases hpend : n.pending with
        | true => simp [hn, hs, hpend]
        | false =>
          simp only [hn, hs, hpend, liveAnswer, Prog.alone_bind, Prog.alone_pure,
            Prog.alone_ofExcept, Option.map_some, Option.any_some, Bool.not_false, Bool.and_false,
            Bool.false_eq_true, if_false]

/-- Signing fails, or gives 64 bytes and a recovery id from 0 to 3. -/
def SignsWell (env : Surroundings (mint cfg)) : Prop :=
  ∀ noteId dom amountMsat rs recoveryId,
    env.answers (.signMessage noteId dom amountMsat) = .ok (rs, recoveryId) →
      rs.length = 64 ∧ 0 ≤ recoveryId ∧ recoveryId ≤ 3

theorem alone_certificate (hbits : ConvertsBytes d) (hsign : SignsWell env)
    (m : Moment (mint cfg)) (noteId : Str) (amountMsat : ℤ) (dom : Str) :
    ∃ c, (certificate cfg noteId amountMsat dom).alone env m = (m, some (.ok c)) := by
  rw [certificate, Prog.alone_bind, signNote]
  by_cases hb : cfg.fundingsourceBackend = none
  · rw [if_pos hb]
    exact ⟨none, rfl⟩
  · rw [if_neg hb, Prog.alone_bind, Prog.alone_ask]
    cases hs : env.answers (.signMessage noteId dom amountMsat) with
    | error e => exact ⟨none, rfl⟩
    | ok signed =>
      obtain ⟨rs, recoveryId⟩ := signed
      obtain ⟨hlen, hlow, hhigh⟩ := hsign _ _ _ _ _ hs
      have hrange : ¬ (recoveryId < 0 ∨ 256 ≤ recoveryId) := by omega
      have hlen' : (rs ++ [UInt8.ofNat recoveryId.toNat]).length = 65 := by simp [hlen]
      obtain ⟨c, hc⟩ := hbits.encodeCs1_ok hlen' amountMsat
      refine ⟨some c, ?_⟩
      simp only [Prog.alone_bind, Prog.alone_raiseIf, if_neg hrange, Prog.alone_pure,
        Prog.alone_ofExcept, hc]

theorem alone_mintPubkey (env : Surroundings (mint cfg)) (m : Moment (mint cfg)) :
    ∃ pubkey, (mintPubkey cfg).alone env m = (m, some (.ok pubkey)) := by
  unfold mintPubkey
  split
  · exact ⟨none, rfl⟩
  · exact ⟨some d.sparkSigningPubkey, rfl⟩
  · rw [Prog.alone_bind, Prog.alone_ask]
    dsimp only
    split <;> exact ⟨_, rfl⟩

/-- A live note is described, where the mint's domain can be read. -/
theorem alone_liveAnswer (hbits : ConvertsBytes d) (hsign : SignsWell env)
    (m : Moment (mint cfg)) {baseUrl dom : Str} (hdom : mintDomain cfg baseUrl = .ok dom)
    (noteId : Str) (amountMsat : ℤ) : ∃ callback description pubkey c,
      (liveAnswer cfg baseUrl noteId amountMsat).alone env m =
        (m, some (.ok (.withdrawRequest callback none amountMsat description pubkey c))) := by
  obtain ⟨base, host, hbase⟩ := publicBaseUrlAndHost_of_mintDomain hdom
  obtain ⟨c, hc⟩ := alone_certificate hbits hsign m noteId amountMsat dom
  obtain ⟨pubkey, hpubkey⟩ := alone_mintPubkey env m
  refine ⟨base ++ "/w/cb".toList, "lnurlcash bearer note on ".toList ++ host, pubkey, c, ?_⟩
  rw [liveAnswer, domain, hdom, hbase]
  simp only [Prog.alone_bind, Prog.alone_ofExcept, Prog.alone_pure, hc, hpubkey]

/-- And where it cannot, what reading it raises is raised. -/
theorem alone_liveAnswer_raised {baseUrl : Str} {e : Exn} (h : mintDomain cfg baseUrl = .error e)
    (noteId : Str) (amountMsat : ℤ) :
    (liveAnswer cfg baseUrl noteId amountMsat).alone env m = (m, some (.error e)) := by
  rw [liveAnswer, Prog.alone_bind, Prog.alone_ofExcept]
  cases hb : cfg.publicBaseUrlAndHost baseUrl with
  | error e' =>
    rw [mintDomain, hb] at h
    cases h
    rfl
  | ok base => simp only [domain, Prog.alone_bind, Prog.alone_ofExcept, h]

/-! ## The answer -/

/-- The answer to `GET /w?p=`, with nothing beside it. -/
def getWithdrawAlone (env : Surroundings (mint cfg)) (s : State) (baseUrl p : Str)
    (amount : Option ℤ) : Option (Except Exn Response) :=
  ((body cfg (.request ⟨baseUrl, .getWithdraw none (some p) amount⟩)).alone env ⟨0, s⟩).2

/-- An answer that a recovery scan counts: a live note, `pending` or `already in use`. -/
def Counted : Option (Except Exn Response) → Prop
  | some (.ok (.withdrawRequest ..)) => True
  | some (.ok (.error reason)) => reason = "already in use" ∨ reason = "pending"
  | _ => False

/-- The detail of an internal error. -/
def internalErrorDetail (context reference : String) : String :=
  s!"{context} (reference: {reference})."

/-- It is none of the answers that a scan counts. -/
theorem not_counted_internalErrorDetail (reference : String) :
    ¬ Counted (some (.ok (.error (internalErrorDetail "Internal error" reference)))) := by
  have hlen : 14 < (internalErrorDetail "Internal error" reference).length := by
    simp only [internalErrorDetail, String.length_append]
    have hprefix : (toString "Internal error" ++ toString " (reference: ").length = 27 := by decide
    rw [String.length_append] at hprefix
    omega
  rintro (h | h)
  · rw [h] at hlen
    exact absurd hlen (by decide)
  · rw [h] at hlen
    exact absurd hlen (by decide)

theorem not_counted_unknown : ¬ Counted (some (.ok (.error "Unknown note."))) := by
  rintro (h | h)
  · exact absurd h (by decide)
  · exact absurd h (by decide)

/-- An exception is answered with its detail, or as an internal error. -/
theorem alone_lnurlErrorResponse (p : Mint Response) : (lnurlErrorResponse p).alone env m =
    match p.alone env m with
    | (m', some (.ok resp)) => (m', some (.ok resp))
    | (m', some (.error (.http detail))) => (m', some (.ok (.error detail)))
    | (m', some (.error _)) => (⟨m'.ops + 1, m'.st⟩,
        some (.ok (.error (internalErrorDetail "Internal error" (env.inputs m'.ops).reference))))
    | (m', none) => (m', none) := by
  show (p.thenE _).alone env m = _
  rw [Prog.alone_thenE]
  rcases p.alone env m with ⟨m', _ | (_ | _ | _) | _⟩ <;> rfl

/-- What a note on file is answered with: it is counted, unless it is live and the mint's domain
cannot be read. -/
theorem counted_iff_of_onFile {m' : Moment (mint cfg)} {x : Option ℤ} {n : NoteRow}
    (hbits : ConvertsBytes d) (hsign : SignsWell env) {s : State} {p : Str}
    (hp : Spend.decodeNote d p = some noteId)
    (hlookup : (noteAmountById cfg noteId).alone env ⟨0, s⟩ = (m', some (.ok x)))
    (hn : m'.st.store.notes.find? noteId = some n) (baseUrl : Str) (amount : Option ℤ) :
    Counted (getWithdrawAlone env s baseUrl p amount) ↔
      (n.spent = true ∨ n.pending = true) ∨ ∃ dom, mintDomain cfg baseUrl = .ok dom := by
  show Counted
    ((lnurlErrorResponse (getWithdraw cfg baseUrl none (some p) amount)).alone env ⟨0, s⟩).2 ↔ _
  rw [alone_lnurlErrorResponse, alone_getWithdraw hp, hlookup]
  dsimp only
  rw [hn]
  dsimp only
  cases n.spent with
  | true => exact iff_of_true (.inl rfl) (.inl (.inl rfl))
  | false =>
    cases n.pending with
    | true => exact iff_of_true (.inr rfl) (.inl (.inr rfl))
    | false =>
      cases hdom : mintDomain cfg baseUrl with
      | ok dom =>
        obtain ⟨callback, description, pubkey, c, hlive⟩ := alone_liveAnswer hbits hsign
          ⟨m'.ops + 2, m'.st⟩ hdom noteId n.amountMsat
        simp only [Bool.false_eq_true, if_false, hlive]
        exact iff_of_true trivial (.inr ⟨dom, rfl⟩)
      | error e =>
        simp only [Bool.false_eq_true, if_false, alone_liveAnswer_raised hdom]
        refine iff_of_false ?_ (by simp)
        have hhttp := not_http_of_mintDomain hdom
        cases e with
        | http detail => exact absurd rfl (hhttp detail)
        | _ => exact not_counted_internalErrorDetail _

/-- What a note that is not on file is answered with. -/
theorem getWithdrawAlone_of_unknown {m' : Moment (mint cfg)} {x : Option ℤ} {s : State} {p : Str}
    (hp : Spend.decodeNote d p = some noteId)
    (hlookup : (noteAmountById cfg noteId).alone env ⟨0, s⟩ = (m', some (.ok x)))
    (hn : m'.st.store.notes.find? noteId = none) (baseUrl : Str) (amount : Option ℤ) :
    getWithdrawAlone env s baseUrl p amount = some (.ok (.error "Unknown note.")) := by
  show ((lnurlErrorResponse (getWithdraw cfg baseUrl none (some p) amount)).alone env ⟨0, s⟩).2 = _
  rw [alone_lnurlErrorResponse, alone_getWithdraw hp, hlookup]
  dsimp only
  rw [hn]

/-- A lookup that raises is no answer that a scan counts. -/
theorem not_counted_of_raised {m' : Moment (mint cfg)} {s : State} {p : Str}
    (hp : Spend.decodeNote d p = some noteId)
    (hlookup : (noteAmountById cfg noteId).alone env ⟨0, s⟩ = (m', some (.error .other)))
    (baseUrl : Str) (amount : Option ℤ) :
    ¬ Counted (getWithdrawAlone env s baseUrl p amount) := by
  show ¬ Counted
    ((lnurlErrorResponse (getWithdraw cfg baseUrl none (some p) amount)).alone env ⟨0, s⟩).2
  rw [alone_lnurlErrorResponse, alone_getWithdraw hp, hlookup]
  exact not_counted_internalErrorDetail _

/-- Looking for a note that is on file changes nothing. -/
theorem alone_noteAmountById_onFile (env : Surroundings (mint cfg)) {s : State} {n : NoteRow}
    (hn : s.store.notes.find? noteId = some n)
    (hnone : s.store.pendingMintByNoteId noteId = none) :
    ∃ ops x, (noteAmountById cfg noteId).alone env ⟨0, s⟩ = (⟨ops, s⟩, some (.ok x)) := by
  rw [alone_noteAmountById, alone_mintSettledByNoteId]
  dsimp only
  rw [hnone, NoteStore.noteAmount, hn, Option.bind_some]
  cases n.spent with
  | true => exact ⟨2, none, rfl⟩
  | false => exact ⟨1, some n.amountMsat, rfl⟩

/-- Looking for a note that a mint's invoice names settles the mint if the invoice is paid. -/
theorem alone_noteAmountById_named (env : Surroundings (mint cfg)) {s : State} {h : Str}
    {amountMsat : ℤ}
    (hn : s.store.notes.find? noteId = none)
    (hpend : s.store.pendingMintByNoteId noteId = some (h, amountMsat)) :
    (noteAmountById cfg noteId).alone env ⟨0, s⟩ =
      match (settleMintIfPaid cfg h).alone env ⟨2, s⟩ with
      | (m', some (.ok true)) => (⟨m'.ops + 1, m'.st⟩, some (.ok (m'.st.store.noteAmount noteId)))
      | (m', some (.ok false)) => (m', some (.ok none))
      | (m', some (.error e)) => (m', some (.error e))
      | (m', none) => (m', none) := by
  rw [alone_noteAmountById, alone_mintSettledByNoteId]
  dsimp only
  rw [hpend, NoteStore.noteAmount, hn]
  rfl

/-- What the mint that names an unissued note is: the only one, and unpaid. -/
theorem NoteStore.Credits.pendingMintByNoteId {s : NoteStore} (hc : s.Credits) {r : MintRow}
    (hr : r ∈ s.mints.rows) (hid : r.noteId = some noteId)
    (hn : s.notes.find? noteId = none) :
    s.pendingMintByNoteId noteId = some (r.paymentHash, r.amountMsat) ∧ r.minted = false := by
  have hunpaid : r.minted = false := by
    rw [← Bool.not_eq_true]
    intro hp
    obtain ⟨id, n, hid', hn', -⟩ := hc.credited (Table.find?_of_mem hr) hp
    cases hid.symm.trans hid'
    rw [hn] at hn'
    cases hn'
  refine ⟨?_, hunpaid⟩
  unfold NoteStore.pendingMintByNoteId
  cases hf : s.mints.rows.find? fun m => m.noteId = some noteId && !m.minted with
  | none =>
    rw [List.find?_eq_none] at hf
    exact absurd (hf r hr) (by simp [hid, hunpaid])
  | some r' =>
    have hr' := List.mem_of_find?_eq_some hf
    have hid' := List.find?_some hf
    simp only [Bool.and_eq_true, decide_eq_true_eq] at hid'
    have hkey := hc.named_once (Table.find?_of_mem hr) (Table.find?_of_mem hr') hid hid'.1
    rw [Table.eq_of_key hr hr' hkey]
    rfl

/-- **When a passed index is answered as one that is used.** A registered share's key before its
next index is answered as a live note, with `pending` or with `already in use`, exactly when every
unpaid mint that names it turns out to be paid, and its note is spent or reserved or the mint's
domain can be read off the base URL. Where the domain can be read it is otherwise answered as
unknown, unless the lookup of that mint's invoice raises. -/
theorem passed_index_counted_iff (hbits : ConvertsBytes d)
    (hsign : SignsWell env) {c : Config (mint cfg)} (h : Reach State.initial c) {name : Str}
    {row : UsernameRow} (hrow : c.w.st.store.usernames.find? name = some row) {j : ℕ} {pk : Str}
    (hj : j < row.nextIndex) (hpk : shareNoteId d row.cx1 j = .ok (some pk)) {p : Str}
    (hp : Spend.decodeNote d p = some pk) (baseUrl : Str) (amount : Option ℤ) :
    (Counted (getWithdrawAlone env c.w.st baseUrl p amount) ↔
      (∀ hash m, c.w.st.store.mints.find? hash = some m → m.noteId = some pk → m.minted = false →
        cfg.fundingsourceBackend ≠ none ∧ env.answers (.isInvoiceSettled hash) = .ok true) ∧
      ((∃ n, c.w.st.store.notes.find? pk = some n ∧ (n.spent = true ∨ n.pending = true)) ∨
        ∃ dom, mintDomain cfg baseUrl = .ok dom)) ∧
    (¬ Counted (getWithdrawAlone env c.w.st baseUrl p amount) →
      (∃ dom, mintDomain cfg baseUrl = .ok dom) →
      (∀ hash, env.answers (.isInvoiceSettled hash) ≠ .error ()) →
      getWithdrawAlone env c.w.st baseUrl p amount = some (.ok (.error "Unknown note."))) := by
  have hr : Run (law cfg) State.initial c.w := Reach.law h
  have hc : c.w.st.store.Credits := Run.credits hr .empty
  have huse := Run.gapless hr .empty name row hrow j pk hj hpk
  cases hn : c.w.st.store.notes.find? pk with
  | some n =>
    -- on file, so that no unpaid mint names it
    have hfree : ∀ hash m, c.w.st.store.mints.find? hash = some m → m.noteId = some pk →
        m.minted = true := by
      intro hash m hm hid
      rw [← Bool.not_eq_false]
      intro hpaid
      cases hn.symm.trans (hc.free hm hpaid hid)
    have hnone : c.w.st.store.pendingMintByNoteId pk = none := by
      rw [NoteStore.pendingMintByNoteId, Option.map_eq_none_iff, List.find?_eq_none]
      intro m hm hb
      simp only [Bool.and_eq_true, decide_eq_true_eq, Bool.not_eq_true'] at hb
      rw [hfree _ m (Table.find?_of_mem hm) hb.1] at hb
      cases hb.2
    obtain ⟨ops, x, hlookup⟩ := alone_noteAmountById_onFile env hn hnone
    have hcounted := counted_iff_of_onFile hbits hsign hp hlookup hn baseUrl amount
    refine ⟨hcounted.trans ⟨fun hlive => ⟨fun hash m hm hid hpaid => ?_, ?_⟩, ?_⟩,
      fun hnot hdom => absurd (hcounted.2 (.inr hdom)) hnot⟩
    · rw [hfree hash m hm hid] at hpaid
      cases hpaid
    · exact hlive.imp_left fun hused => ⟨n, rfl, hused⟩
    · rintro ⟨-, ⟨n', hn', hused⟩ | hdom⟩
      · cases hn'
        exact .inl hused
      · exact .inr hdom
  | none =>
    obtain ⟨n, hn'⟩ | ⟨r, hmem, hid⟩ := NoteStore.idInUse_eq_true.1 huse
    · cases hn.symm.trans hn'
    obtain ⟨hpend, hunpaid⟩ := hc.pendingMintByNoteId hmem hid hn
    have hfind : c.w.st.store.mints.find? r.paymentHash = some r := Table.find?_of_mem hmem
    -- the condition is about this mint
    have honly : (∀ hash m, c.w.st.store.mints.find? hash = some m → m.noteId = some pk →
        m.minted = false → cfg.fundingsourceBackend ≠ none ∧
          env.answers (.isInvoiceSettled hash) = .ok true) ↔
        cfg.fundingsourceBackend ≠ none ∧
          env.answers (.isInvoiceSettled r.paymentHash) = .ok true := by
      refine ⟨fun hall => hall _ r hfind hid hunpaid, fun hpaid hash m hm hid' _ => ?_⟩
      rwa [hc.named_once hm hfind hid' hid]
    have hoff : ((∃ n : NoteRow, none = some n ∧ (n.spent = true ∨ n.pending = true)) ∨
        ∃ dom, mintDomain cfg baseUrl = .ok dom) ↔ ∃ dom, mintDomain cfg baseUrl = .ok dom :=
      or_iff_right fun ⟨_, hn', _⟩ => by cases hn'
    rw [honly, hoff]
    have hlookup := alone_noteAmountById_named env hn hpend
    rw [alone_settleMintIfPaid] at hlookup
    by_cases hb : cfg.fundingsourceBackend = none
    · rw [if_pos hb] at hlookup
      have hunknown := getWithdrawAlone_of_unknown hp hlookup hn baseUrl amount
      rw [hunknown]
      exact ⟨⟨fun hcounted => absurd hcounted not_counted_unknown,
        fun hpaid => absurd hb hpaid.1.1⟩, fun _ _ _ => rfl⟩
    rw [if_neg hb] at hlookup
    cases hpaid : env.answers (.isInvoiceSettled r.paymentHash) with
    | error e =>
      rw [hpaid] at hlookup
      have hnot := not_counted_of_raised hp hlookup baseUrl amount
      refine ⟨⟨fun hcounted => absurd hcounted hnot, fun hp => ?_⟩, fun _ _ hall => ?_⟩
      · cases hp.1.2
      · exact absurd hpaid (hall _)
    | ok paid =>
      rw [hpaid] at hlookup
      cases paid with
      | false =>
        have hunknown := getWithdrawAlone_of_unknown hp hlookup hn baseUrl amount
        rw [hunknown]
        refine ⟨⟨fun hcounted => absurd hcounted not_counted_unknown, fun hp => ?_⟩,
          fun _ _ _ => rfl⟩
        cases hp.1.2
      | true =>
        obtain ⟨out, s', ho, -, hadd⟩ := hc.settleMint_named hfind hid (env.inputs 2).now
          (some (shareNoteId d))
        have hrun : (Update.settleMint r.paymentHash (some (shareNoteId d))).run (env.inputs 2)
            c.w.st.store = some (.ok out, s') := Update.run_eq_some.2 (.inl ⟨out, rfl, ho⟩)
        dsimp only at hlookup
        rw [hrun] at hlookup
        have hcounted := counted_iff_of_onFile hbits hsign hp hlookup (hadd hunpaid).2.1 baseUrl
          amount
        rw [or_iff_right (by simp [NoteStore.newNote])] at hcounted
        exact ⟨hcounted.trans ⟨fun hdom => ⟨⟨hb, rfl⟩, hdom⟩, And.right⟩,
          fun hnot hdom => absurd (hcounted.2 hdom) hnot⟩

end Alone

/-! ## A hidden note -/

/-- A stand-in that tells the keys of a share apart: a note's key begins with its index. -/
def Deps.apart : Deps := { Deps.standIn with
  hmacSha512 := fun _ msg => msg.reverse
  publicKeyAdd := fun key scalar => some (key.take 1 ++ scalar) }

/-- A mint on it, without fees. -/
def Settings.apart : Settings .apart := { Settings.standIn with
  baseUrl_hostname := Settings.standIn.baseUrl_hostname
  onionUrl_hostname := Settings.standIn.onionUrl_hostname }

/-- The first key of the share that is called `l`. -/
def apartKey : Str :=
  match shareNoteId .apart (hex ((decodeCx1 .apart (standInCx1 'l')).getD [])) 0 with
  | .ok (some pk) => pk
  | _ => []

/-- What a lookup meets at the stand-in's mint, with nothing paid. -/
def apartSurroundings : Surroundings (mint Settings.apart) :=
  ⟨standInAnswer [] false, fun _ => ⟨1, ""⟩⟩

theorem signsWell_apart : SignsWell apartSurroundings := by
  intro noteId dom amountMsat rs recoveryId h
  cases h
  exact ⟨rfl, le_refl _, by decide⟩

theorem convertsBytes_apart : ConvertsBytes .apart := by
  intro data
  exact Option.some_ne_none (data.map UInt8.toNat)

/-- Alice is paid, from this number on. -/
def paidRun (tid : ℕ) : List (Choice (mint Settings.apart)) :=
  standInSells tid "alice".toList "y".toList 0 ++
    standInAsks (tid + 6) (.verifyInvoice "y".toList) ++ standInGoes 5 1 ++
    [.answer (tid + 6) (standInAnswer [] true)] ++ standInGoes 1 1

/-- Whether alice's first key was passed. -/
def firstPassed (c : Config (mint Settings.apart)) : Bool :=
  (c.w.st.store.usernames.find? "alice".toList).any fun row => decide (0 < row.nextIndex) &&
    match shareNoteId .apart row.cx1 0 with
    | .ok (some pk) => pk = apartKey
    | _ => false

theorem firstPassed_eq_true {c : Config (mint Settings.apart)} (h : firstPassed c = true) :
    ∃ row, c.w.st.store.usernames.find? "alice".toList = some row ∧ 0 < row.nextIndex ∧
      shareNoteId .apart row.cx1 0 = .ok (some apartKey) := by
  obtain ⟨row, hrow, h⟩ := (Option.any_eq_true _ _).1 h
  rw [Bool.and_eq_true] at h
  refine ⟨row, hrow, of_decide_eq_true h.1, ?_⟩
  have hkey := h.2
  split at hkey
  · rename_i pk hpk
    rw [hpk, of_decide_eq_true hkey]
  · cases hkey

theorem passed_index_counted_iff_paid : ∃ c : Config (mint Settings.apart),
    Reach State.initial c ∧ ∃ row, c.w.st.store.usernames.find? "alice".toList = some row ∧
      0 < row.nextIndex ∧ shareNoteId .apart row.cx1 0 = .ok (some apartKey) ∧
      Counted (getWithdrawAlone apartSurroundings c.w.st "mint".toList apartKey none) := by
  have hrun : (standInRun (standInRegisters 0 "alice".toList 'l' 0 ++ paidRun 3)).any (fun c =>
      firstPassed c && c.w.st.store.mints.rows.all MintRow.minted) = true := by decide +kernel
  obtain ⟨c, hc, h⟩ := exists_standInRun hrun
  rw [Bool.and_eq_true] at h
  obtain ⟨row, hrow, hj, hpk⟩ := firstPassed_eq_true h.1
  have hdecode : Spend.decodeNote .apart apartKey = some apartKey := by decide +kernel
  have hiff := (passed_index_counted_iff convertsBytes_apart
    signsWell_apart hc hrow hj hpk hdecode "mint".toList none).1
  refine ⟨c, hc, row, hrow, hj, hpk, ?_⟩
  rw [hiff]
  refine ⟨fun hash m hm _ hunpaid => ?_, .inr ⟨_, rfl⟩⟩
  rw [List.all_eq_true.1 h.2 m (Table.mem_of_find? hm)] at hunpaid
  cases hunpaid

/-- Somebody asks for an invoice to the first key of alice's share, and leaves it unpaid. -/
def hiddenRun : List (Choice (mint Settings.apart)) :=
  standInRegisters 0 "alice".toList 'l' 0 ++ standInMints 3 "x".toList apartKey ++ paidRun 8

/-- The answer that there is no such note. -/
def saysUnknown : Option (Except Exn Response) → Bool
  | some (.ok (.error reason)) => reason = "Unknown note."
  | _ => false

theorem saysUnknown_eq_true {r : Option (Except Exn Response)} (h : saysUnknown r = true) :
    r = some (.ok (.error "Unknown note.")) := by
  unfold saysUnknown at h
  split at h
  · rw [of_decide_eq_true h]
  · cases h

/-- **A passed index is answered as one that was never reached.** -/
theorem passed_index_hidden : ∃ c : Config (mint Settings.apart), Reach State.initial c ∧
    ∃ row, c.w.st.store.usernames.find? "alice".toList = some row ∧
      ∃ j pk p, j < row.nextIndex ∧ shareNoteId .apart row.cx1 j = .ok (some pk) ∧
        Spend.decodeNote .apart p = some pk ∧
        getWithdrawAlone apartSurroundings c.w.st "mint".toList p none =
          some (.ok (.error "Unknown note.")) := by
  have hrun : (standInRun hiddenRun).any (fun c => firstPassed c &&
      saysUnknown (getWithdrawAlone apartSurroundings c.w.st "mint".toList apartKey none)) =
        true := by decide +kernel
  obtain ⟨c, hc, h⟩ := exists_standInRun hrun
  rw [Bool.and_eq_true] at h
  obtain ⟨row, hrow, hj, hpk⟩ := firstPassed_eq_true h.1
  exact ⟨c, hc, row, hrow, 0, apartKey, apartKey, hj, hpk, by decide +kernel,
    saysUnknown_eq_true h.2⟩

end LnurlMint
