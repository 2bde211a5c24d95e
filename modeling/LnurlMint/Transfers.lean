import LnurlMint.Credits

/-!
# An internal transfer is made once

A note can be paid to a registered username without leaving the mint: it is burned, and a note of
the same amount appears on the username's share. The transaction picks the share's next note before
it checks what it burns, and relies on being undone as a whole. What it burns is spent from then on,
so no later transfer burns it again; a request that comes too late recognises its own transfer by
the username and the amount on the burn's record, and these are written by transfers only.

## Main definitions

* `Task.transfer` — what a request asks to be transferred
* `transfers` — the events that transfer a note

## Main results

* `Update.burns_eq` — only swaps and transfers are recorded
* `Run.transferred` — a recorded transfer was made
* `internal_transfer_once`
-/

namespace LnurlMint

open Relational Interleave

/-! ## The record of burns -/

namespace NoteStore

variable {s s' : NoteStore} {now : ℤ} {u : Update}

/-- Only swaps and transfers are recorded. -/
theorem burns_eq {i : Input} {out : u.Out} (hu : u.SwapsMeet fun _ _ _ => False)
    (ho : u.apply i s = .ok (out, s')) : s'.burns = s.burns := by
  cases Update.notesStep hu ho with
  | keep _ hb => exact hb
  | credit _ _ _ hb => exact hb
  | swap _ _ _ _ _ _ _ _ hok => exact hok.elim
  | burn _ _ _ _ _ hb => exact hb
  | reserve _ _ _ _ hs => rw [hs]
  | finalize _ _ hs =>
    rw [hs]
    rfl
  | restore _ _ hs =>
    rw [hs]
    rfl

/-- What a swap leaves of the record: one burn more. -/
theorem Swapped.mem_burns {burnIds mintNoteIds : List Str} {mintAmounts : List ℤ}
    {toUsername : Option Str} (h : s.Swapped s' now burnIds mintNoteIds mintAmounts toUsername)
    {b : BurnRow} (hb : b ∈ s'.burns.rows) : b ∈ s.burns.rows ∨ b.burnKey = burnKey burnIds ∧
      b.toUsername = toUsername ∧ mintAmounts.head? = some b.amount1Msat := by
  obtain ⟨id, ids, amount, amounts, -, rfl, hi⟩ := h.burns
  rcases (Table.mem_insert? hi).1 hb with hb | rfl
  exacts [.inl hb, .inr ⟨rfl, rfl, rfl⟩]

theorem burnKey_singleton (id : Str) : burnKey [id] = id := by
  simp [burnKey, sortedJoin]

/-- What a transfer does: the note is burned, and one of its amount that was not in use appears on
the share that is registered under the username. -/
theorem transferToUsername_one {reference : String} {id username pk : Str} {amountMsat : ℤ}
    {derive : DeriveNote}
    (ho : s.transferToUsername now reference [id] username amountMsat derive = .ok (pk, s')) :
    ∃ n row index, s.notes.find? id = some n ∧ n.spent = false ∧ n.pending = false ∧
      s.usernames.find? username = some row ∧ derive row.cx1 index = .ok (some pk) ∧
      row.nextIndex ≤ index ∧ s.idInUse pk = false ∧
      s'.notes.find? id = some { n with spent := true } ∧
      s'.notes.find? pk = some (newNote now (pk, amountMsat)) ∧
      ∀ id', id' ≠ id → id' ≠ pk → s'.notes.find? id' = s.notes.find? id' := by
  obtain ⟨row, index, hrow, hd, hpassed, h⟩ := transferToUsername_ok ho
  obtain ⟨n, hn, hs, hp⟩ := h.burnable id List.mem_cons_self
  have huse := h.unused pk List.mem_cons_self
  have hnone : s.notes.find? pk = none := by
    simpa [idInUse] using (Bool.or_eq_false_iff.1 huse).1
  have hne : id ≠ pk := by
    rintro rfl
    rw [show s.notes.find? id = some n from hn] at hnone
    cases hnone
  refine ⟨n, row, index, hn, hs, hp, hrow, hd, hpassed.1, huse, ?_, ?_, ?_⟩
  · rw [h.find?, show NoteStore.notes _ = s.notes from rfl, hn]
    simp
  · rw [h.find?, show NoteStore.notes _ = s.notes from rfl, hnone]
    simp [newNote]
  · intro id' hid hpk
    rw [h.find?, show NoteStore.notes _ = s.notes from rfl]
    simp [newNote, hid, Ne.symm hpk]

end NoteStore

/-! ## Transfers in histories -/

section Histories

variable {d : Deps} {cfg : Settings d} {s : State} {w w' : World (mint cfg)} {a : Actor mintSig}
  {id : Str}

variable (d) in
/-- The username, amount and `k1` of a request for an internal transfer. -/
def Task.transfer : Task → Option (Str × ℤ × Str)
  | .request ⟨_, .getPayCallbackForUsername name amountMsat _ _ (some k1)⟩ =>
    some (addressName d name, amountMsat, k1)
  | _ => none

theorem Task.transfer_eq_some {t : Task} {username k1 : Str} {amountMsat : ℤ}
    (ht : t.transfer d = some (username, amountMsat, k1)) : ∃ baseUrl name comment nostr,
      t = .request ⟨baseUrl, .getPayCallbackForUsername name amountMsat comment nostr (some k1)⟩ ∧
        username = addressName d name := by
  unfold Task.transfer at ht
  split at ht
  · cases ht
    exact ⟨_, _, _, _, rfl, rfl⟩
  · cases ht

theorem Task.spends_of_transfer {t : Task} {username k1 : Str} {amountMsat : ℤ}
    (ht : t.transfer d = some (username, amountMsat, k1)) : t.spends = some [k1] := by
  obtain ⟨_, _, _, _, rfl, -⟩ := Task.transfer_eq_some ht
  rfl

/-- The events that transfer this note. -/
def transfers (id : Str) : Event (mint cfg) → Bool
  | .did _ (.write (.transferToUsername burnIds ..)) _ (.ok _) _ => burnIds = [id]
  | _ => false

theorem transfers_eq_true {e : Event (mint cfg)} (h : transfers id e = true) :
    ∃ a username amountMsat derive i pk pre,
      e = .did a (.write (.transferToUsername [id] username amountMsat derive)) i (.ok pk) pre := by
  cases e with
  | did a o i out pre =>
    cases o with
    | write u =>
      cases u with
      | transferToUsername burnIds username amountMsat derive =>
        rcases out with e | pk
        · cases h
        · exact ⟨a, username, amountMsat, derive, i, pk, pre, by rw [of_decide_eq_true h]⟩
      | _ => cases h
    | _ => cases h
  | _ => cases h

/-- A note is transferred once. -/
theorem Run.transferred_once (h : Run (law cfg) s w) (id : Str) :
    w.hist.countP (transfers id) ≤ 1 := by
  refine (h.once (Q := fun s : State =>
    ∃ n, s.store.notes.find? id = some n ∧ n.spent = true) ?_ ?_).1
  · rintro w e w' hn ⟨n, hfind, hs⟩
    obtain ⟨n', hfind', -, -, hs'⟩ := (Next.evolves hn).note hfind
    exact ⟨n', hfind', hs' hs⟩
  · intro w e w' _ hn he
    obtain ⟨a, username, amountMsat, derive, i, pk, pre, rfl⟩ := transfers_eq_true he
    obtain ⟨-, ho⟩ := Next.write_ok hn
    obtain ⟨n, row, index, hfind, hs, -, -, -, -, -, hafter, -⟩ :=
      NoteStore.transferToUsername_one ho
    refine ⟨?_, _, hafter, rfl⟩
    rintro ⟨n', hfind', hs'⟩
    cases hfind.symm.trans hfind'
    rw [hs] at hs'
    cases hs'

/-- A transfer on record was made. -/
theorem Run.transferred (h : Run (law cfg) State.initial w) {b : BurnRow} {username : Str}
    (hb : b ∈ w.st.store.burns.rows) (hu : b.toUsername = some username)
    (hk : b.burnKey = NoteStore.burnKey [id]) : ∃ a derive i pk pre,
      .did a (.write (.transferToUsername [id] username b.amount1Msat derive)) i (.ok pk) pre ∈
        w.hist := by
  induction h with
  | start => cases hb
  | @step w w' e h hn ih =>
    have hold : b ∈ w.st.store.burns.rows → ∃ a derive i pk pre,
        .did a (.write (.transferToUsername [id] username b.amount1Msat derive)) i (.ok pk) pre ∈
          w'.hist := by
      intro hb
      obtain ⟨a, derive, i, pk, pre, he⟩ := ih hb
      exact ⟨a, derive, i, pk, pre, by rw [hn.hist]; exact List.mem_cons_of_mem _ he⟩
    rcases Next.store hn with ⟨-, he⟩ | ⟨a, u, i, r, rfl, hmay, hr⟩ | ⟨-, he⟩
    · exact hold (he ▸ hb)
    · rcases Update.run_eq_some.1 hr with ⟨out, rfl, ho⟩ | ⟨_, -, -, -, he⟩
      · cases u with
        | swap burnIds mintNoteIds mintAmounts =>
          obtain ⟨s₁, ho, he⟩ := map_eq_ok.1 ho
          cases he
          have hswap := NoteStore.swapLocked_ok (NoteStore.reported_eq_ok.1 ho)
          rcases hswap.mem_burns hb with hb | ⟨-, hto, -⟩
          · exact hold hb
          · rw [hu] at hto
            cases hto
        | transferToUsername burnIds payee amountMsat derive =>
          obtain ⟨row, index, -, -, -, hswap⟩ := NoteStore.transferToUsername_ok ho
          rcases hswap.mem_burns hb with hb | ⟨hkey, hto, hamount⟩
          · exact hold hb
          · obtain ⟨_, _, _, _, _, id', -, -, rfl, -⟩ := hmay
            rw [hk, NoteStore.burnKey_singleton, NoteStore.burnKey_singleton] at hkey
            subst hkey
            cases hu.symm.trans hto
            cases hamount
            exact ⟨a, derive, i, out, _, by rw [hn.hist]; exact List.mem_cons_self⟩
        | _ => exact hold (NoteStore.burns_eq (by trivial) ho ▸ hb)
      · exact hold (he ▸ hb)
    · rw [he] at hb
      exact hold hb

/-- Beside its transfer, a request for one only settles mints. -/
theorem MayWrite.of_transfer {u : Update} {username k1 : Str} {amountMsat : ℤ}
    (ht : a.task.transfer d = some (username, amountMsat, k1)) (hu : MayWrite cfg w a u) :
    (∃ hash derive, u = .settleMint hash derive) ∨
      ∃ id derive, u = .transferToUsername [id] username amountMsat derive ∧
        noteIdOf d k1 = some id ∧ derive = shareNoteId d ∧
        amountMsat = w.st.store.worth [id] := by
  have hspends := Task.spends_of_transfer ht
  cases u with
  | settleMint hash derive => exact .inl ⟨hash, derive, rfl⟩
  | transferToUsername =>
    obtain ⟨_, _, _, _, _, id, htask, hid, rfl, rfl, rfl, hworth⟩ := hu
    rw [htask] at ht
    cases ht
    exact .inr ⟨id, _, rfl, hid, rfl, hworth⟩
  | createMint => exact hu.1.elim _ hspends
  | registerUsername => exact hu.1.elim _ hspends
  | updateUsername => exact hu.1.elim _ hspends
  | holdUsername => exact hu.1.elim _ hspends
  | settleAddressFee => exact hu.1.elim _ hspends
  | markZapPublished => exact NoCallback.elim hu _ hspends
  | markMeltSettled => exact NoCallback.elim hu _ hspends
  | swap =>
    obtain ⟨_, _, _, _, _, _, _, htask, -⟩ := hu
    rw [htask] at ht
    cases ht
  | markPending =>
    obtain ⟨-, _, _, _, _, _, _, _, _, _, htask, -⟩ := hu
    rw [htask] at ht
    cases ht
  | recordMelt =>
    obtain ⟨⟨_, _, _, _, _, htask⟩, -⟩ := hu
    rw [htask] at ht
    cases ht
  | payAddressFeeWithNotes =>
    obtain ⟨-, _, _, _, _, _, _, _, _, _, _, _, htask, -⟩ := hu
    rw [htask] at ht
    cases ht
  | deleteUsername =>
    obtain ⟨_, _, _, _, _, _, _, htask, -⟩ := hu
    rw [htask] at ht
    cases ht
  | finalizeMelt =>
    rcases hu with ⟨_, _, htask, -⟩ | ⟨htask, -⟩ <;> rw [htask] at ht <;> cases ht
  | restore =>
    rcases hu with ⟨_, _, htask, -⟩ | ⟨htask, -⟩ <;> rw [htask] at ht <;> cases ht

/-- **An internal transfer is made once.** Whatever happens to a note, it is transferred at most
once: to the username that its request named, at its full amount, and to a note of the share then
registered under that name which nobody had used. A request that is answered OK rests on such a
transfer, its own or one made before. And everything else that a request for a transfer does leaves
burns and usernames as they were, and of the notes at most adds its own, from a mint that is
paid. -/
theorem internal_transfer_once {c : Config (mint cfg)} (h : Reach State.initial c) (id : Str) :
    c.w.hist.countP (transfers id) ≤ 1 ∧
    (∀ a burnIds username amountMsat derive i pk pre, id ∈ burnIds →
      .did a (.write (.transferToUsername burnIds username amountMsat derive)) i (.ok pk) pre ∈
        c.w.hist →
      burnIds = [id] ∧
      (∃ k1, a.task.transfer d = some (username, amountMsat, k1) ∧ noteIdOf d k1 = some id) ∧
      ∃ s' n row index, (Update.transferToUsername burnIds username amountMsat derive).apply i
          pre.store = .ok (pk, s') ∧
        pre.store.notes.find? id = some n ∧ n.spent = false ∧ n.amountMsat = amountMsat ∧
        pre.store.usernames.find? username = some row ∧
        shareNoteId d row.cx1 index = .ok (some pk) ∧ pre.store.idInUse pk = false ∧
        s'.notes.find? id = some { n with spent := true } ∧
        s'.notes.find? pk = some ⟨pk, amountMsat, false, false, none, i.now⟩ ∧
        ∀ id', id' ≠ id → id' ≠ pk → s'.notes.find? id' = pre.store.notes.find? id') ∧
    (∀ a username amountMsat k1 resp pre later before,
      a.task.transfer d = some (username, amountMsat, k1) → noteIdOf d k1 = some id →
      c.w.hist = later ++ .finished a (.ok resp) pre :: before → (∀ reason, resp ≠ .error reason) →
      ∃ a' derive i pk pre',
        .did a' (.write (.transferToUsername [id] username amountMsat derive)) i
        (.ok pk) pre' ∈ before) ∧
    ∀ a username amountMsat k1 o i out pre s',
      a.task.transfer d = some (username, amountMsat, k1) → noteIdOf d k1 = some id →
      .did a o i out pre ∈ c.w.hist → exec o i pre = some (out, s') →
      transfers id (.did a o i out pre : Event (mint cfg)) = false →
      s'.store.burns = pre.store.burns ∧ s'.store.usernames = pre.store.usernames ∧
      (s'.store.notes = pre.store.notes ∨ ∃ hash derive m, o = .write (.settleMint hash derive) ∧
        (∃ pre', .answered a (.isInvoiceSettled hash) (.ok true) pre' ∈ c.w.hist) ∧
        pre.store.mints.find? hash = some m ∧ m.minted = false ∧ m.noteId = some id ∧
        pre.store.notes.insert? ⟨id, m.amountMsat, false, false, none, i.now⟩ =
          some s'.store.notes) := by
  have hr : Run (law cfg) State.initial c.w := Reach.law h
  refine ⟨Run.transferred_once hr id, ?_, ?_, ?_⟩
  · intro a burnIds username amountMsat derive i pk pre hmem he
    obtain ⟨w₀, w₁, -, hn, -⟩ := hr.past he
    obtain ⟨hu, ho⟩ := Next.write_ok hn
    obtain ⟨-, rfl, -⟩ := Next.write hn
    obtain ⟨_, _, _, _, k1, id', htask, hid, rfl, rfl, rfl, hworth⟩ := hu
    obtain rfl := List.mem_singleton.1 hmem
    obtain ⟨n, row, index, hfind, hs, -, hrow, hd, -, huse, hrest⟩ :=
      NoteStore.transferToUsername_one ho
    refine ⟨rfl, ⟨k1, by rw [htask]; rfl, hid⟩, _, n, row, index, ho, hfind, hs, ?_, hrow, hd, huse,
      hrest⟩
    rw [hworth, NoteStore.worth]
    simp [hfind]
  · intro a username amountMsat k1 resp pre later before ht hid hh hok
    obtain ⟨w₀, w₁, h₀, rfl, hn, -⟩ := hr.cut hh
    have hrested := hn.lawful.2.2 resp rfl
    obtain ⟨_, name, _, _, htask, rfl⟩ := Task.transfer_eq_some ht
    rw [Rested, htask] at hrested
    obtain ⟨id', hid', htransferred⟩ := hrested hok
    cases hid.symm.trans hid'
    rcases htransferred with ⟨derive, pk, i, pre', he⟩ | ⟨b, hb, hk, hto, hamount⟩
    · exact ⟨a, derive, i, pk, pre', he⟩
    · obtain ⟨a', derive, i, pk, pre', he⟩ := Run.transferred h₀ hb hto hk
      rw [hamount] at he
      exact ⟨a', derive, i, pk, pre', he⟩
  · intro a username amountMsat k1 o i out pre s' ht hid he hx hno
    obtain ⟨w₀, w₁, h₀, hn, hf⟩ := hr.past he
    cases o with
    | write u =>
      obtain ⟨hu, rfl, -⟩ := Next.write hn
      obtain ⟨⟨r, store⟩, hrun, heq⟩ := Option.map_eq_some_iff.1 hx
      cases heq
      rcases Update.run_eq_some.1 hrun with ⟨out, rfl, ho⟩ | ⟨_, -, -, -, rfl⟩
      · rcases hu.of_transfer ht with ⟨hash, derive, rfl⟩ | ⟨id', derive, rfl, hid', -⟩
        · have hspends := Task.spends_of_transfer ht
          obtain ⟨k, hk, id', m, hid', hm, hmid⟩ := Run.settles_named h₀ hspends hu
          obtain rfl := List.mem_singleton.1 hk
          cases hid.symm.trans hid'
          obtain ⟨hburns, hnames, hnotes⟩ := NoteStore.settleMint_named_ok hm hmid ho
          refine ⟨hburns, hnames, ?_⟩
          rcases hnotes with rfl | ⟨hp, hi⟩
          · exact .inl rfl
          · obtain ⟨-, ⟨pre', hheard⟩, -⟩ := hu
            exact .inr ⟨hash, derive, m, rfl, ⟨pre', (hn.follows.trans hf).mem hheard⟩, hm, hp,
              hmid,
              hi⟩
        · cases hid.symm.trans hid'
          rw [transfers, decide_eq_false_iff_not] at hno
          exact absurd rfl hno
      · exact ⟨rfl, rfl, .inl rfl⟩
    | _ =>
      cases hx
      exact ⟨rfl, rfl, .inl rfl⟩

/-- A note is minted and transferred. -/
def transferredRun : List (Choice standInMint) :=
  standInMints 0 "h".toList (standInKey '1') ++ standInRegisters 5 "alice".toList 'z' 0 ++
    standInAsks 8
      (.getPayCallbackForUsername "alice".toList 10000 none none (some (standInKey '1'))) ++
    standInGoes 4 1 ++ [.answer 8 (standInAnswer [] true)] ++ standInGoes 7 1

theorem internal_transfer_once_transferred : ∃ c : Config standInMint, Reach State.initial c ∧
    c.w.hist.countP (transfers (standInKey '1')) = 1 := by
  have hrun : (standInRun transferredRun).any (fun c =>
      c.w.hist.any (transfers (standInKey '1'))) = true := by decide +kernel
  obtain ⟨c, hc, hany⟩ := exists_standInRun hrun
  refine ⟨c, hc, Nat.le_antisymm (internal_transfer_once hc _).1 ?_⟩
  exact List.countP_pos_iff.2 (List.any_eq_true.1 hany)

end Histories

end LnurlMint
