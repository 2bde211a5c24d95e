import LnurlMint.Histories

/-!
# A paid mint is credited once

A mint that names its note reserves the id until its invoice is paid. Four methods put ids into the
two tables that hold them, `notes` and `mints`, and each checks both, so an id that an unpaid mint
has reserved belongs to no note and to no other mint. `MintsStep` says once what any transaction
does to the two tables, and the invariant `Credits` follows by cases.

Then settling such a mint cannot fail, and the flag it sets makes it credit once.

## Main definitions

* `MintsStep` — what a transaction does to `mints`, and to the ids that have notes
* `NoteStore.Credits` — the invariant
* `credits` — the events that credit a mint

## Main results

* `Update.mintsStep`, `NoteStore.Credits.step`
* `NoteStore.Credits.settleMint_named` — settling a mint that named its note succeeds
* `Run.credited` — a settled mint was credited by one event
* `paid_mint_credited_once`
-/

namespace LnurlMint

open Relational Interleave

/-! ## One transaction -/

/-- What a transaction does to `mints`, and to which ids have notes. -/
inductive MintsStep (now : ℤ) (u : Update) (s s' : NoteStore) : Prop
  /-- Nothing: notes may be rewritten, but none is added. -/
  | keep (hm : s'.mints = s.mints)
      (hn : ∀ id, s'.notes.find? id = none ↔ s.notes.find? id = none)
  /-- A zap receipt is noted. -/
  | receipt (h receiptId : Str)
      (hm : s'.mints = s.mints.modify h fun m => { m with zapReceipt := some receiptId })
      (hn : s'.notes = s.notes)
  /-- An invoice is recorded. -/
  | create (m : MintRow) (hu : u = .createMint m.paymentHash m.pr m.amountMsat m.noteId
        m.zapRequest m.username) (hp : m.minted = false)
      (hx : m.noteId.isNone ≠ m.username.isNone)
      (hf : ∀ id, m.noteId = some id → s.idInUse id = false)
      (hm : s.mints.insert? m = some s'.mints) (hn : s'.notes = s.notes)
  /-- Notes are added under ids that were not in use. -/
  | mint (ids : List Str) (hf : ∀ id ∈ ids, s.idInUse id = false) (hm : s'.mints = s.mints)
      (hn : ∀ id, s'.notes.find? id = none ↔ s.notes.find? id = none ∧ id ∉ ids)
  /-- A mint is settled: its note is added, under the id it named or one that was not in use. -/
  | settle (m : MintRow) (id : Str) (derive : Option DeriveNote)
      (hu : u = .settleMint m.paymentHash derive) (hg : s.mints.find? m.paymentHash = some m)
      (hp : m.minted = false) (hid : m.noteId = some id ∨ m.noteId = none ∧ s.idInUse id = false)
      (hm : ∀ h, s'.mints.find? h = (s.mints.find? h).map fun x =>
        if h = m.paymentHash then { m with minted := true, noteId := some id } else x)
      (hn : s.notes.insert? (NoteStore.newNote now (id, m.amountMsat)) = some s'.notes)

/-- A mint is the one that was on file before: of the same invoice, and if it is not settled now it
was not, and has the note that it had. -/
structure MintRow.Continues (m₀ m : MintRow) : Prop where
  pr : m₀.pr = m.pr
  amountMsat : m₀.amountMsat = m.amountMsat
  zapRequest : m₀.zapRequest = m.zapRequest
  username : m₀.username = m.username
  unsettled : m.minted = false → m₀.minted = false ∧ m₀.noteId = m.noteId

theorem MintRow.Continues.refl (m : MintRow) : m.Continues m :=
  ⟨rfl, rfl, rfl, rfl, fun h => ⟨h, rfl⟩⟩

namespace NoteStore

variable {s s' : NoteStore} {now : ℤ} {u : Update}

/-- **A mint was on file before a transaction, or the transaction recorded it.** -/
theorem mint_of_mintsStep (hs : MintsStep now u s s') {h : Str} {m : MintRow}
    (hm : s'.mints.find? h = some m) : (∃ m₀, s.mints.find? h = some m₀ ∧ m₀.Continues m) ∨
      u = .createMint h m.pr m.amountMsat m.noteId m.zapRequest m.username ∧
        m.noteId.isNone ≠ m.username.isNone := by
  cases hs with
  | keep hsame => exact .inl ⟨m, hsame ▸ hm, .refl m⟩
  | mint _ _ hsame => exact .inl ⟨m, hsame ▸ hm, .refl m⟩
  | receipt h' receiptId hmod =>
    rw [hmod, Table.find?_modify] at hm
    obtain ⟨m₀, hm₀, rfl⟩ := Option.map_eq_some_iff.1 hm
    refine .inl ⟨m₀, hm₀, ?_⟩
    split
    · exact ⟨rfl, rfl, rfl, rfl, fun hp => ⟨hp, rfl⟩⟩
    · exact .refl m₀
  | create m' hu _ hx _ hins =>
    rw [Table.find?_insert? hins] at hm
    split at hm
    · rename_i he
      obtain rfl := Option.some.inj hm
      exact .inr ⟨he ▸ hu, hx⟩
    · exact .inl ⟨m, hm, .refl m⟩
  | settle m' id derive _ hg _ _ hsettle =>
    rw [hsettle] at hm
    obtain ⟨m₀, hm₀, hsettled⟩ := Option.map_eq_some_iff.1 hm
    refine .inl ⟨m₀, hm₀, ?_⟩
    split at hsettled
    · rename_i he
      subst he hsettled
      cases hm₀.symm.trans hg
      exact ⟨rfl, rfl, rfl, rfl, by rintro ⟨⟩⟩
    · exact hsettled ▸ .refl m₀

/-- A rewrite of notes adds none. -/
theorem find?_rewrite_eq_none {ids : List Str} {f : NoteRow → NoteRow} {id : Str}
    (h : s'.notes.find? id = (s.notes.find? id).map fun n => if id ∈ ids then f n else n) :
    s'.notes.find? id = none ↔ s.notes.find? id = none := by
  rw [h, Option.map_eq_none_iff]

/-- The ids that have notes after a swap. -/
theorem Swapped.find?_eq_none {burnIds mintNoteIds : List Str} {mintAmounts : List ℤ}
    {toUsername : Option Str} (h : s.Swapped s' now burnIds mintNoteIds mintAmounts toUsername)
    (id : Str) : s'.notes.find? id = none ↔
      s.notes.find? id = none ∧ id ∉ (mintNoteIds.zip mintAmounts).map Prod.fst := by
  rw [h.find?, Option.or_eq_none_iff, Option.map_eq_none_iff, List.find?_eq_none]
  refine and_congr_right fun _ => ⟨fun h hm => ?_, fun h n hn => ?_⟩
  · obtain ⟨out, hout, rfl⟩ := List.mem_map.1 hm
    exact h _ (List.mem_map_of_mem hout) (by simp [newNote])
  · obtain ⟨out, hout, rfl⟩ := List.mem_map.1 hn
    intro he
    exact h (List.mem_map.2 ⟨out, hout, of_decide_eq_true he⟩)

theorem Swapped.mints {burnIds mintNoteIds : List Str} {mintAmounts : List ℤ}
    {toUsername : Option Str} (h : s.Swapped s' now burnIds mintNoteIds mintAmounts toUsername) :
    s'.mints = s.mints := by
  obtain ⟨_, _, _, _, _, _, -, -, -, -, rfl⟩ := h.left
  rfl

/-- A swap adds the notes it mints, under ids that were not in use. It may be made from a store
that differs in its usernames. -/
theorem Swapped.mintsStep {s₀ : NoteStore} {burnIds mintNoteIds : List Str} {mintAmounts : List ℤ}
    {toUsername : Option Str}
    (h : s₀.Swapped s' now burnIds mintNoteIds mintAmounts toUsername) (hm : s₀.mints = s.mints)
    (hn : s₀.notes = s.notes) : MintsStep now u s s' := by
  refine .mint _ (fun id hid => ?_) (h.mints.trans hm) (hn ▸ h.find?_eq_none)
  obtain ⟨out, hout, rfl⟩ := List.mem_map.1 hid
  have huse := h.unused _ (List.of_mem_zip hout).1
  rwa [idInUse, hm, hn] at huse

/-- A settlement rewrites its mint's row and no other. -/
theorem find?_settled {h : Str} {m : MintRow} {id : Str} (hg : s.mints.find? h = some m)
    (hid : m.noteId = some id) (h' : Str) :
    (s.markMinted h).mints.find? h' = (s.mints.find? h').map fun x =>
      if h' = h then { m with minted := true, noteId := some id } else x := by
  rw [markMinted, Table.find?_modify]
  by_cases he : h' = h
  · subst he
    rw [hg, ← hid]
    simp
  · simp [he]

theorem find?_settled_named {h : Str} {m : MintRow} {id : Str} (hg : s.mints.find? h = some m)
    (h' : Str) :
    ((s.markMinted h).nameMintNote h id).mints.find? h' = (s.mints.find? h').map fun x =>
      if h' = h then { m with minted := true, noteId := some id } else x := by
  rw [nameMintNote, Table.find?_modify, markMinted, Table.find?_modify]
  by_cases he : h' = h
  · subst he
    rw [hg]
    simp
  · simp [he]

end NoteStore

open NoteStore in
theorem Update.mintsStep {i : Input} {s s' : NoteStore} {u : Update} {out : u.Out}
    (h : u.apply i s = .ok (out, s')) : MintsStep i.now u s s' := by
  cases u with
  | createMint =>
    obtain ⟨s₁, h, he⟩ := map_eq_ok.1 h
    cases he
    obtain ⟨hx, hf, mints, hm, rfl⟩ := createMint_ok h
    exact .create _ rfl rfl hx hf hm rfl
  | settleMint hash derive =>
    rcases settleMint_ok h with ⟨-, rfl, -⟩ | ⟨m, notes, hg, hp, -, ⟨id, hid, hi, rfl⟩ |
      ⟨username, derive', pk, index, row, hid, hu, -, -, -, huse, -, hi, rfl⟩⟩
    · exact .keep rfl fun _ => Iff.rfl
    all_goals obtain rfl := Table.key_of_find? hg
    · exact .settle m id derive rfl hg hp (.inl hid) (find?_settled hg hid) hi
    · exact .settle m pk derive rfl hg hp (.inr ⟨hid, huse⟩) (find?_settled_named hg) hi
  | markZapPublished hash receiptId =>
    cases h
    exact .receipt hash receiptId rfl rfl
  | swap =>
    obtain ⟨s₁, h, he⟩ := map_eq_ok.1 h
    cases he
    exact (swapLocked_ok (reported_eq_ok.1 h)).mintsStep rfl rfl
  | transferToUsername =>
    obtain ⟨row, index, -, -, -, h⟩ := transferToUsername_ok h
    exact h.mintsStep rfl rfl
  | markPending ids hash =>
    obtain ⟨s₁, h, he⟩ := map_eq_ok.1 h
    cases he
    obtain ⟨-, rfl⟩ := markPending_ok h
    exact .keep rfl fun id => find?_rewrite_eq_none (find?_reserve ids hash id)
  | finalizeMelt ids =>
    cases h
    exact .keep rfl fun id => find?_rewrite_eq_none (find?_finalizeMelt ids id)
  | restore ids =>
    cases h
    exact .keep rfl fun id => find?_rewrite_eq_none (find?_restore ids id)
  | registerUsername =>
    obtain ⟨s₁, h, he⟩ := map_eq_ok.1 h
    cases he
    obtain ⟨-, _, _, -, -, rfl⟩ := registerUsername_ok h
    exact .keep rfl fun _ => Iff.rfl
  | holdUsername =>
    obtain ⟨s₁, h, he⟩ := map_eq_ok.1 h
    cases he
    obtain ⟨-, _, _, -, -, rfl⟩ := holdUsername_ok h
    exact .keep rfl fun _ => Iff.rfl
  | settleAddressFee =>
    rcases settleAddressFee_ok h with ⟨-, rfl, -⟩ |
      ⟨f, -, -, ⟨-, rfl, -⟩ | ⟨-, -, _, -, rfl⟩⟩ <;> exact .keep rfl fun _ => Iff.rfl
  | payAddressFeeWithNotes ids =>
    obtain ⟨-, -, f, us, -, -, -, -, -, -, -, rfl⟩ := payAddressFeeWithNotes_ok h
    exact .keep rfl fun id => find?_rewrite_eq_none (find?_burnNotes ids id)
  | updateUsername =>
    obtain ⟨s₁, h, he⟩ := map_eq_ok.1 h
    cases he
    obtain ⟨_, _, -, -, rfl⟩ := updateUsername_ok h
    exact .keep rfl fun _ => Iff.rfl
  | _ => cases h; exact .keep rfl fun _ => Iff.rfl

/-! ## The invariant -/

namespace NoteStore

variable {s s' : NoteStore} {now : ℤ} {u : Update}

/-- The invariant of `mints`: an id that an unpaid mint named has no note, no two mints name one
id, and a settled mint has its note. -/
structure Credits (s : NoteStore) : Prop where
  free : ∀ {h m id}, s.mints.find? h = some m → m.minted = false → m.noteId = some id →
    s.notes.find? id = none
  named_once : ∀ {h h' m m' id}, s.mints.find? h = some m → s.mints.find? h' = some m' →
    m.noteId = some id → m'.noteId = some id → h = h'
  credited : ∀ {h m}, s.mints.find? h = some m → m.minted = true →
    ∃ id n, m.noteId = some id ∧ s.notes.find? id = some n ∧ n.amountMsat = m.amountMsat

theorem Credits.empty : Credits .empty where
  free h := by simp [NoteStore.empty] at h
  named_once h := by simp [NoteStore.empty] at h
  credited h := by simp [NoteStore.empty] at h

theorem noteId_ne_of_unused {id h : Str} {m : MintRow} (hu : s.idInUse id = false)
    (hm : s.mints.find? h = some m) : m.noteId ≠ some id :=
  (idInUse_eq_false.1 hu).2 m (Table.mem_of_find? hm)

/-- A transaction that adds no mint and settles none, and no note under an id that an unpaid mint
has. -/
theorem Credits.of_mints (hc : s.Credits) (he : s.Evolves s')
    (hm : ∀ {h m'}, s'.mints.find? h = some m' → ∃ m, s.mints.find? h = some m ∧
      m'.minted = m.minted ∧ m'.noteId = m.noteId ∧ m'.amountMsat = m.amountMsat)
    (hn : ∀ {h m id}, s.mints.find? h = some m → m.noteId = some id → s.notes.find? id = none →
      s'.notes.find? id = none) : s'.Credits where
  free hg hp hid := by
    obtain ⟨m, hg, hp', hid', -⟩ := hm hg
    exact hn hg (hid' ▸ hid) (hc.free hg (hp' ▸ hp) (hid' ▸ hid))
  named_once hg hg' hid hid' := by
    obtain ⟨m, hg, -, hn, -⟩ := hm hg
    obtain ⟨m', hg', -, hn', -⟩ := hm hg'
    exact hc.named_once hg hg' (hn ▸ hid) (hn' ▸ hid')
  credited hg hp := by
    obtain ⟨m, hg, hp', hid', ha⟩ := hm hg
    obtain ⟨id, n, hid, hn, ha'⟩ := hc.credited hg (hp' ▸ hp)
    obtain ⟨n', hn', ha'', -⟩ := he.note hn
    exact ⟨id, n', hid'.trans hid, hn', ha''.trans (ha'.trans ha.symm)⟩

/-- **Every transaction keeps the invariant.** -/
theorem Credits.step (hc : s.Credits) (he : s.Evolves s') (hs : MintsStep now u s s') :
    s'.Credits := by
  cases hs with
  | keep hm hn =>
    exact hc.of_mints he (fun h => ⟨_, hm ▸ h, rfl, rfl, rfl⟩) fun _ _ h => (hn _).2 h
  | receipt hash receiptId hm hn =>
    refine hc.of_mints he (fun h => ?_) fun _ _ h => hn ▸ h
    rw [hm, Table.find?_modify] at h
    obtain ⟨m, hg, rfl⟩ := Option.map_eq_some_iff.1 h
    exact ⟨m, hg, by split <;> rfl, by split <;> rfl, by split <;> rfl⟩
  | mint ids hf hm hn =>
    refine hc.of_mints he (fun h => ⟨_, hm ▸ h, rfl, rfl, rfl⟩) fun hg hid h => ?_
    exact (hn _).2 ⟨h, fun hmem => noteId_ne_of_unused (hf _ hmem) hg hid⟩
  | create m hu hp hx hf hm hn =>
    have cases' : ∀ {h x}, s'.mints.find? h = some x →
        x = m ∧ h = m.paymentHash ∨ s.mints.find? h = some x := by
      intro h x hg
      rw [Table.find?_insert? hm] at hg
      split at hg
      · rename_i hk
        exact .inl ⟨(Option.some.inj hg).symm, hk.symm⟩
      · exact .inr hg
    refine ⟨fun {h x id} hg hp' hid => ?_, fun {h h' x x' id} hg hg' hid hid' => ?_,
      fun {h x} hg hp' => ?_⟩
    · rw [hn]
      rcases cases' hg with ⟨rfl, -⟩ | hg
      · exact (idInUse_eq_false.1 (hf id hid)).1
      · exact hc.free hg hp' hid
    · rcases cases' hg with ⟨rfl, rfl⟩ | hg <;> rcases cases' hg' with ⟨rfl, rfl⟩ | hg'
      · rfl
      · exact absurd hid' (noteId_ne_of_unused (hf id hid) hg')
      · exact absurd hid (noteId_ne_of_unused (hf id hid') hg)
      · exact hc.named_once hg hg' hid hid'
    · rcases cases' hg with ⟨rfl, rfl⟩ | hg
      · simp [hp] at hp'
      · rw [hn]
        exact hc.credited hg hp'
  | settle m id derive hu hg₀ hp₀ hid₀ hm hn =>
    have cases' : ∀ {h x}, s'.mints.find? h = some x →
        x = { m with minted := true, noteId := some id } ∧ h = m.paymentHash ∨
          h ≠ m.paymentHash ∧ s.mints.find? h = some x := by
      intro h x hg
      rw [hm] at hg
      obtain ⟨x₀, hx₀, rfl⟩ := Option.map_eq_some_iff.1 hg
      by_cases hk : h = m.paymentHash
      · exact .inl ⟨if_pos hk, hk⟩
      · exact .inr ⟨hk, by rw [if_neg hk]; exact hx₀⟩
    -- no other mint has the id, whether this one named it or it was not in use
    have other : ∀ {h x}, h ≠ m.paymentHash → s.mints.find? h = some x → x.noteId ≠ some id := by
      intro h x hne hg hid
      rcases hid₀ with hid₀ | ⟨-, huse⟩
      · exact hne (hc.named_once hg hg₀ hid hid₀)
      · exact noteId_ne_of_unused huse hg hid
    refine ⟨fun {h x id'} hg hp hid => ?_, fun {h h' x x' id'} hg hg' hid hid' => ?_,
      fun {h x} hg hp => ?_⟩
    · rcases cases' hg with ⟨rfl, -⟩ | ⟨hne, hg⟩
      · cases hp
      · rw [Table.find?_insert? hn, if_neg]
        · exact hc.free hg hp hid
        · intro hk
          exact other hne hg (by rw [hid, ← hk]; rfl)
    · rcases cases' hg with ⟨rfl, rfl⟩ | ⟨hne, hg⟩ <;>
        rcases cases' hg' with ⟨rfl, rfl⟩ | ⟨hne', hg'⟩
      · rfl
      · cases hid
        exact absurd hid' (other hne' hg')
      · cases hid'
        exact absurd hid (other hne hg)
      · exact hc.named_once hg hg' hid hid'
    · rcases cases' hg with ⟨rfl, rfl⟩ | ⟨-, hg⟩
      · exact ⟨id, _, rfl, (Table.find?_insert? hn id).trans (if_pos rfl), rfl⟩
      · obtain ⟨id', n, hid', hn', ha⟩ := hc.credited hg hp
        obtain ⟨n', hn'', ha', -⟩ := he.note hn'
        exact ⟨id', n', hid', hn'', ha'.trans ha⟩

/-- **Settling a mint that named its note succeeds**: the first time it adds that note and nothing
else, and after that it does nothing. -/
theorem Credits.settleMint_named (hc : s.Credits) {h id : Str} {m : MintRow}
    (hg : s.mints.find? h = some m) (hid : m.noteId = some id) (now : ℤ)
    (derive : Option DeriveNote) :
    ∃ out s', s.settleMint now h derive = .ok (out, s') ∧
      (m.minted = true → out = none ∧ s' = s) ∧
      (m.minted = false → out = some m.amountMsat ∧
        s'.notes.find? id = some (newNote now (id, m.amountMsat)) ∧
        ∀ id', id' ≠ id → s'.notes.find? id' = s.notes.find? id') := by
  cases hp : m.minted with
  | true => exact ⟨none, s, by simp [settleMint, hg, hp], fun _ => ⟨rfl, rfl⟩, by simp⟩
  | false =>
    obtain ⟨notes, hi⟩ :
        ∃ notes, s.notes.insert? (newNote now (id, m.amountMsat)) = some notes := by
      cases hi : s.notes.insert? (newNote now (id, m.amountMsat)) with
      | none => exact absurd (hc.free hg hp hid) (Table.insert?_eq_none.1 hi)
      | some notes => exact ⟨notes, rfl⟩
    have hins : (s.markMinted h).insertNote now id m.amountMsat =
        .ok { s.markMinted h with notes } := insertNote_ok.2 ⟨notes, hi, rfl⟩
    refine ⟨_, { s.markMinted h with notes }, ?_, by simp, fun _ => ⟨rfl, ?_, fun id' hne => ?_⟩⟩
    · simp [settleMint, hg, hp, hid, hins, bind, Except.bind, pure, Except.pure]
    · exact (Table.find?_insert? hi id).trans (if_pos rfl)
    · exact (Table.find?_insert? hi id').trans (if_neg (Ne.symm hne))

/-- What the mint that is pending for a note names. -/
theorem pendingMintByNoteId_eq_some {id hash : Str} {amountMsat : ℤ}
    (h : s.pendingMintByNoteId id = some (hash, amountMsat)) :
    ∃ m, s.mints.find? hash = some m ∧ m.noteId = some id ∧ m.minted = false := by
  obtain ⟨m, hm, he⟩ := Option.map_eq_some_iff.1 h
  obtain ⟨rfl, -⟩ := Prod.mk.inj he
  have hpending := List.find?_some hm
  simp only [Bool.and_eq_true, decide_eq_true_eq, Bool.not_eq_true'] at hpending
  exact ⟨m, Table.find?_of_mem (List.mem_of_find?_eq_some hm), hpending⟩

/-- A mint keeps the name of its note, and its amount. -/
theorem named_of_mintsStep {h id : Str} {m : MintRow} (hs : MintsStep now u s s')
    (hg : s.mints.find? h = some m) (hid : m.noteId = some id) :
    ∃ m', s'.mints.find? h = some m' ∧ m'.noteId = some id ∧ m'.amountMsat = m.amountMsat := by
  cases hs with
  | keep hm => exact ⟨m, hm ▸ hg, hid, rfl⟩
  | mint _ _ hm => exact ⟨m, hm ▸ hg, hid, rfl⟩
  | receipt h' receiptId hm =>
    refine ⟨_, by rw [hm, Table.find?_modify, hg]; rfl, ?_⟩
    split <;> exact ⟨hid, rfl⟩
  | create m' _ _ _ _ hm => exact ⟨m, Table.find?_of_insert? hm hg, hid, rfl⟩
  | settle m' id' derive _ hg' _ hid' hm =>
    refine ⟨_, by rw [hm, hg]; rfl, ?_⟩
    split
    · rename_i he
      subst he
      cases hg.symm.trans hg'
      rcases hid' with hid' | ⟨hnone, -⟩
      · exact ⟨hid'.symm.trans hid, rfl⟩
      · rw [hid] at hnone
        cases hnone
    · exact ⟨hid, rfl⟩

/-- Settling a mint that named its note adds that note or does nothing. -/
theorem settleMint_named_ok {h id : Str} {m : MintRow} {derive : Option DeriveNote}
    {out : Option ℤ} (hg : s.mints.find? h = some m) (hid : m.noteId = some id)
    (ho : s.settleMint now h derive = .ok (out, s')) : s'.burns = s.burns ∧
      s'.usernames = s.usernames ∧ (s' = s ∨ m.minted = false ∧
        s.notes.insert? (newNote now (id, m.amountMsat)) = some s'.notes) := by
  rcases settleMint_ok ho with ⟨-, rfl, -⟩ | ⟨m', notes, hg', hp, -, ⟨id', hid', hi, rfl⟩ |
    ⟨_, _, _, _, _, hnone, -⟩⟩
  · exact ⟨rfl, rfl, .inl rfl⟩
  · cases hg.symm.trans hg'
    cases hid.symm.trans hid'
    exact ⟨rfl, rfl, .inr ⟨hp, hi⟩⟩
  · cases hg.symm.trans hg'
    rw [hid] at hnone
    cases hnone

end NoteStore

/-! ## Settled once -/

namespace NoteStore

variable {s s' : NoteStore} {now : ℤ} {u : Update}

theorem mintSettled_of_find? {h : Str} {m : MintRow} (hg : s.mints.find? h = some m) :
    s.mintSettled h = m.minted := by
  rw [mintSettled, hg]
  rfl

/-- Whether a mint is settled changes by its settlement alone. -/
theorem mintSettled_of_mintsStep {hash : Str} (hs : MintsStep now u s s')
    (hu : ∀ derive, u ≠ .settleMint hash derive) : s'.mintSettled hash = s.mintSettled hash := by
  unfold mintSettled
  cases hs with
  | keep hm hn => rw [hm]
  | mint ids hf hm hn => rw [hm]
  | receipt h receiptId hm hn =>
    rw [hm, Table.find?_modify]
    cases s.mints.find? hash with
    | none => rfl
    | some m => by_cases hk : hash = h <;> simp [hk]
  | create m hu' hp hx hf hm hn =>
    rw [Table.find?_insert? hm]
    by_cases hk : m.paymentHash = hash
    · subst hk
      simp [hp, (Table.insert?_eq_some.1 hm).1]
    · rw [if_neg hk]
  | settle m id derive hu' hg hp hid hm hn =>
    have hne : hash ≠ m.paymentHash := by
      rintro rfl
      exact hu derive hu'
    rw [hm]
    cases s.mints.find? hash <;> simp [hne]

/-- Settling returns an amount if it settles, and only if the mint was not settled before. -/
theorem mintSettled_settleMint {hash : Str} {derive : Option DeriveNote} {out : Option ℤ}
    (h : s.settleMint now hash derive = .ok (out, s')) :
    (s'.mintSettled hash).toNat = (s.mintSettled hash).toNat + out.isSome.toNat := by
  rcases settleMint_ok h with ⟨rfl, rfl, -⟩ | ⟨m, notes, hg, hp, rfl, hs⟩
  · rfl
  have hbefore : s.mintSettled hash = false := by rw [mintSettled_of_find? hg, hp]
  have hafter : s'.mintSettled hash = true := by
    rcases hs with ⟨id, hid, -, rfl⟩ | ⟨_, _, pk, _, _, -, -, -, -, -, -, -, -, rfl⟩
    · exact mintSettled_of_find? (m := { m with minted := true, noteId := some id })
        (by rw [find?_settled hg hid, hg]; simp)
    · exact mintSettled_of_find? (m := { m with minted := true, noteId := some pk })
        (by rw [find?_settled_named hg, hg]; simp)
  rw [hbefore, hafter]
  rfl

end NoteStore

section Histories

variable {d : Deps} {cfg : Settings d} {s : State} {w w' : World (mint cfg)}

/-- The events that credit the mint of this invoice. -/
def credits (hash : Str) : Event (mint cfg) → Bool
  | .did _ (.write (.settleMint h _)) _ (.ok (some _)) _ => h = hash
  | _ => false

theorem credits_of_ne {hash : Str} {a : Actor mintSig} {u : Update} {i : Input}
    {r : Except Exn u.Out} {pre : State} (hu : ∀ derive, u ≠ .settleMint hash derive) :
    credits hash (.did a (.write u) i r pre : Event (mint cfg)) = false := by
  cases u with
  | settleMint h derive =>
    have hne : h ≠ hash := by
      rintro rfl
      exact hu derive rfl
    rcases r with e | _ | amount <;> simp [credits, hne]
  | _ => rfl

/-- One event credits a mint if it settles it. -/
theorem Next.mintSettled {e : Event (mint cfg)} (h : Next (law cfg) w e w') (hash : Str) :
    (w'.st.store.mintSettled hash).toNat =
      (w.st.store.mintSettled hash).toNat + (credits hash e).toNat := by
  rcases Next.store h with ⟨hne, he⟩ | ⟨a, u, i, r, rfl, -, hr⟩ | ⟨rfl, he⟩
  · rw [he]
    have hc : credits hash e = false := by
      cases e with
      | did a o i out pre =>
        cases o with
        | write u => exact absurd rfl (hne a u i out pre)
        | _ => rfl
      | _ => rfl
    simp [hc]
  · by_cases hu : ∃ derive, u = .settleMint hash derive
    · obtain ⟨derive, rfl⟩ := hu
      rcases Update.run_eq_some.1 hr with ⟨out, rfl, ho⟩ | ⟨e, rfl, -, -, he⟩
      · rw [NoteStore.mintSettled_settleMint ho]
        cases out <;> simp [credits]
      · rw [he]
        rfl
    · have hu : ∀ derive, u ≠ .settleMint hash derive := fun derive he => hu ⟨derive, he⟩
      rw [credits_of_ne hu]
      exact congrArg Bool.toNat (Update.run_induct (P := fun s =>
        s.mintSettled hash = w.st.store.mintSettled hash) hr rfl fun _ ho =>
          NoteStore.mintSettled_of_mintsStep (Update.mintsStep ho) hu)
  · rw [he]
    rfl

/-- **A mint that is settled was credited by one event, and one that is not by none.** -/
theorem Run.credited (h : Run (law cfg) s w) {hash : Str}
    (hs : s.store.mintSettled hash = false) :
    w.hist.countP (LnurlMint.credits hash) = (w.st.store.mintSettled hash).toNat := by
  induction h with
  | start => simp [hs]
  | step h hn ih =>
    rw [hn.hist, List.countP_cons, ih, Next.mintSettled hn]
    cases LnurlMint.credits hash _ <;> rfl

theorem Run.credits (h : Run (law cfg) s w) (hs : s.store.Credits) : w.st.store.Credits :=
  Run.store_induct h hs
    (fun _ _ _ hc ho => hc.step (Update.notesStep (Update.swapsMeet_true _) ho).evolves
      (Update.mintsStep ho))
    fun hc => ⟨hc.free, hc.named_once, hc.credited⟩

/-- A mint that has a note keeps it, and its amount. -/
theorem Follows.mint_named (hf : Follows (law cfg) w w') (h : Run (law cfg) s w) {hash id : Str}
    {m : MintRow} (hm : w.st.store.mints.find? hash = some m) (hid : m.noteId = some id) :
    ∃ m', w'.st.store.mints.find? hash = some m' ∧ m'.noteId = some id ∧
      m'.amountMsat = m.amountMsat := by
  refine hf.keep (P := fun w : World (mint cfg) => ∃ m', w.st.store.mints.find? hash = some m' ∧
    m'.noteId = some id ∧ m'.amountMsat = m.amountMsat) h ⟨m, hm, hid, rfl⟩ ?_
  intro w e w' _ hn hkept
  rcases Next.store hn with ⟨-, he⟩ | ⟨a, u, i, r, -, -, hr⟩ | ⟨-, he⟩
  · rwa [he]
  · refine Update.run_induct (P := fun s : NoteStore => ∃ m', s.mints.find? hash = some m' ∧
      m'.noteId = some id ∧ m'.amountMsat = m.amountMsat) hr hkept fun out ho => ?_
    obtain ⟨m₁, hm₁, hid₁, hamount⟩ := hkept
    obtain ⟨m', hm', hid', ha⟩ := NoteStore.named_of_mintsStep (Update.mintsStep ho) hm₁ hid₁
    exact ⟨m', hm', hid', ha.trans hamount⟩
  · rw [he]
    exact hkept

/-- What a task read of the mint that named a note still holds of the mint. -/
theorem Run.named (h : Run (law cfg) s w) {a : Actor mintSig} {hash id : Str} {amountMsat : ℤ}
    (hs : Saw w a (.pendingMintByNoteId id) (some (hash, amountMsat))) :
    ∃ m, w.st.store.mints.find? hash = some m ∧ m.noteId = some id := by
  obtain ⟨i, pre, he⟩ := hs
  obtain ⟨w₀, w₁, h₀, hn, hf⟩ := h.past he
  obtain ⟨hout, hst⟩ := Next.read hn
  obtain ⟨m, hm, hid, -⟩ := NoteStore.pendingMintByNoteId_eq_some hout.symm
  obtain ⟨m', hm', hid', -⟩ := Follows.mint_named hf (h₀.step hn) (hst ▸ hm) hid
  exact ⟨m', hm', hid'⟩

/-- A task that means to spend notes settles mints of those notes only. -/
theorem Run.settles_named (h : Run (law cfg) s w) {a : Actor mintSig} {hash : Str}
    {derive : Option DeriveNote} {k1 : List Str} (hk : a.task.spends = some k1)
    (hu : MayWrite cfg w a (.settleMint hash derive)) : ∃ k ∈ k1, ∃ id m,
      noteIdOf d k = some id ∧ w.st.store.mints.find? hash = some m ∧ m.noteId = some id := by
  obtain ⟨-, -, hnamed⟩ := hu
  obtain ⟨k, hkm, id, amountMsat, hid, hsaw⟩ := hnamed k1 hk
  obtain ⟨m, hm, hmid⟩ := Run.named h hsaw
  exact ⟨k, hkm, id, m, hid, hm, hmid⟩

/-- An attempt to settle a mint that named its note succeeds, and leaves it settled for good. -/
theorem Run.attempted (h : Run (law cfg) State.initial w) {a : Actor mintSig} {hash id : Str}
    {derive : Option DeriveNote} {i : Input} {r : Except Exn (Option ℤ)} {pre : State} {m : MintRow}
    (he : .did a (.write (.settleMint hash derive)) i r pre ∈ w.hist)
    (hg : pre.store.mints.find? hash = some m) (hid : m.noteId = some id) :
    (∃ out, r = .ok out) ∧ w.st.store.mintSettled hash = true := by
  obtain ⟨w₀, w₁, h₀, hn, hf⟩ := h.past he
  have hcount : ∀ {w : World (mint cfg)}, Run (law cfg) State.initial w →
      w.hist.countP (LnurlMint.credits hash) = (w.st.store.mintSettled hash).toNat := fun h =>
    Run.credited h rfl
  have hsettled : (∃ out, r = .ok out) ∧ w₁.st.store.mintSettled hash = true := by
    obtain ⟨-, rfl, hr⟩ := Next.write hn
    obtain ⟨out, s', ho, hold, hnew⟩ :=
      (Run.credits h₀ .empty).settleMint_named hg hid i.now derive
    obtain ⟨rfl, hs'⟩ : r = .ok out ∧ w₁.st.store = s' := by
      rcases Update.run_eq_some.1 hr with ⟨out', rfl, ho'⟩ | ⟨e, rfl, he', -⟩
      · cases ho.symm.trans ho'
        exact ⟨rfl, rfl⟩
      · cases ho.symm.trans he'
    refine ⟨⟨out, rfl⟩, ?_⟩
    have hbool := NoteStore.mintSettled_settleMint ho
    rw [hs']
    cases hp : m.minted with
    | true => rw [(hold hp).2, NoteStore.mintSettled_of_find? hg, hp]
    | false =>
      rw [(hnew hp).1] at hbool
      cases hm : s'.mintSettled hash with
      | true => rfl
      | false => simp [hm] at hbool
  refine ⟨hsettled.1, ?_⟩
  -- the event that credited it is still in the history
  obtain ⟨es, hes⟩ := hf.hist
  have h₁ := hcount (h₀.step hn)
  have hw := hcount h
  rw [hes, List.countP_append, h₁, hsettled.2] at hw
  cases hm : w.st.store.mintSettled hash with
  | true => rfl
  | false => simp [hm] at hw

/-- **A paid mint that named its note is credited exactly once, and nothing can block it.**

In every history, an id that an unpaid mint has reserved has no note, and no two mints have one id.
So at any moment settling such a mint succeeds: an unpaid one gets its note, of its amount, and
nothing else is added; one that is settled stays as it is. Every attempt made so far succeeded and
left its mint settled. A mint that is settled was credited by exactly one attempt and has its note,
one that is not by none, and before any attempt the funding source had said that the invoice is
paid. -/
theorem paid_mint_credited_once {c : Config (mint cfg)} (h : Reach State.initial c) :
    (∀ m ∈ c.w.st.store.mints.rows, m.minted = false → ∀ id, m.noteId = some id →
      c.w.st.store.notes.find? id = none) ∧
    (∀ m ∈ c.w.st.store.mints.rows, ∀ m' ∈ c.w.st.store.mints.rows, ∀ id,
      m.noteId = some id → m'.noteId = some id → m = m') ∧
    (∀ m ∈ c.w.st.store.mints.rows, ∀ id, m.noteId = some id → ∀ now derive,
      ∃ out s', c.w.st.store.settleMint now m.paymentHash derive = .ok (out, s') ∧
        (m.minted = true → out = none ∧ s' = c.w.st.store) ∧
        (m.minted = false → out = some m.amountMsat ∧
          s'.notes.find? id = some ⟨id, m.amountMsat, false, false, none, now⟩ ∧
          ∀ id', id' ≠ id → s'.notes.find? id' = c.w.st.store.notes.find? id')) ∧
    (∀ a hash derive i r pre m id, .did a (.write (.settleMint hash derive)) i r pre ∈ c.w.hist →
      pre.store.mints.find? hash = some m → m.noteId = some id →
      (∃ out, r = .ok out) ∧ c.w.st.store.mintSettled hash = true) ∧
    (∀ m ∈ c.w.st.store.mints.rows,
      c.w.hist.countP (credits m.paymentHash) = (if m.minted then 1 else 0) ∧
      (m.minted = true → ∃ id n, m.noteId = some id ∧ c.w.st.store.notes.find? id = some n ∧
        n.amountMsat = m.amountMsat)) ∧
    (∀ later a hash derive i r pre before,
      c.w.hist = later ++ .did a (.write (.settleMint hash derive)) i r pre :: before →
      ∃ pre', .answered a (.isInvoiceSettled hash) (.ok true) pre' ∈ before) := by
  have hr : Run (law cfg) State.initial c.w := Reach.law h
  have hc : c.w.st.store.Credits := Run.credits hr .empty
  refine ⟨fun m hm hp id hid => hc.free (Table.find?_of_mem hm) hp hid,
    fun m hm m' hm' id hid hid' => ?_,
    fun m hm id hid now derive => hc.settleMint_named (Table.find?_of_mem hm) hid now derive,
    fun a hash derive i r pre m id he hg hid => Run.attempted hr he hg hid,
    fun m hm => ⟨?_, fun hp => hc.credited (Table.find?_of_mem hm) hp⟩,
    fun later a hash derive i r pre before hh => ?_⟩
  · have hk := hc.named_once (Table.find?_of_mem hm) (Table.find?_of_mem hm') hid hid'
    exact Table.eq_of_key hm hm' hk
  · rw [Run.credited hr rfl, NoteStore.mintSettled_of_find? (Table.find?_of_mem hm)]
    cases m.minted <;> rfl
  · obtain ⟨w₀, w₁, -, rfl, hn, -⟩ := hr.cut hh
    obtain ⟨-, hheard, -⟩ := hn.lawful
    exact hheard

/-- A mint is paid for and settled by a lookup of its invoice. -/
def settlementRun : List (Choice standInMint) :=
  standInMints 0 "h".toList (standInKey '1') ++ standInAsks 5 (.verifyInvoice "h".toList) ++
    standInGoes 5 1 ++ [.answer 5 (standInAnswer [] true)] ++ standInGoes 1 1

theorem paid_mint_credited_once_settlement : ∃ c : Config standInMint, Reach State.initial c ∧
    ∃ m ∈ c.w.st.store.mints.rows, m.noteId = some (standInKey '1') ∧ m.minted = true ∧
      c.w.hist.countP (credits m.paymentHash) = 1 := by
  have hrun : (standInRun settlementRun).any (fun c => c.w.st.store.mints.rows.any fun m =>
      m.noteId = some (standInKey '1') && m.minted) = true := by decide +kernel
  obtain ⟨c, hc, hm⟩ := exists_standInRun hrun
  obtain ⟨m, hm, hp⟩ := List.any_eq_true.1 hm
  simp only [Bool.and_eq_true, decide_eq_true_eq] at hp
  have hcount := ((paid_mint_credited_once hc).2.2.2.2.1 m hm).1
  exact ⟨c, hc, m, hm, hp.1, hp.2, by simpa [hp.2] using hcount⟩

end Histories

end LnurlMint
