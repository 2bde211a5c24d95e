import LnurlMint.Transactions

/-!
# The life of a note

Seven methods rewrite the three flags of a note, two of them without looking. `NotesStep` says once
what any transaction can do to `notes` and `burns`, and the facts about a note's life follow from
it by cases: a note is never removed and never changes its value, a spent note stays spent, no note
is both spent and reserved, and the burns table is a faithful second copy of what was burned
together for what.

The burns table is keyed by the sorted, joined ids of a burn. That key names a set of notes only
because no id contains the separator, so the results here ask for hex ids, which is what every
caller passes. With them, two burns with a note in common are one and the same, since its note was
spent by the first.

## Main definitions

* `NotesStep` — what a transaction does to `notes` and `burns`
* `NoteStore.Evolves` — what no transaction takes back
* `NoteStore.Lifecycle` — the invariant
* `Update.WellFormed` — what callers pass

## Main results

* `Update.notesStep`, `Update.evolves`
* `NoteStore.Lifecycle.step` — every transaction keeps the invariant
* `NoteStore.note_lifecycle` — the life of a note, over every sequence of methods
-/

namespace LnurlMint

open Relational

/-- The notes a burn named. -/
def BurnRow.burned (b : BurnRow) : List Str := b.burnKey.splitOn '|'

/-- Every swap that the method may make has burn ids, mint ids and amounts that satisfy `ok`. -/
def Update.SwapsMeet (ok : List Str → List Str → List ℤ → Prop) : Update → Prop
  | swap burnIds mintNoteIds mintAmounts => ok burnIds mintNoteIds mintAmounts
  | transferToUsername burnIds _ amountMsat _ => ∀ pk, ok burnIds [pk] [amountMsat]
  | _ => True

/-- What a transaction does to `notes` and `burns`, given what its swaps satisfy. -/
inductive NotesStep (ok : List Str → List Str → List ℤ → Prop) (now : ℤ) (u : Update)
    (s s' : NoteStore) : Prop
  /-- Nothing. -/
  | keep (hn : s'.notes = s.notes) (hb : s'.burns = s.burns)
  /-- A note is credited. -/
  | credit (out : Str × ℤ) (hu : ∃ h derive, u = .settleMint h derive)
      (hn : s.notes.insert? (NoteStore.newNote now out) = some s'.notes)
      (hb : s'.burns = s.burns)
  /-- Notes are swapped for others, from a store with these same notes, mints and burns. -/
  | swap (s₀ : NoteStore) (hn : s₀.notes = s.notes) (hm : s₀.mints = s.mints)
      (hb : s₀.burns = s.burns) (burnIds mintNoteIds : List Str) (mintAmounts : List ℤ)
      (toUsername : Option Str) (hok : ok burnIds mintNoteIds mintAmounts)
      (h : s₀.Swapped s' now burnIds mintNoteIds mintAmounts toUsername)
  /-- Notes are burned for nothing minted. -/
  | burn (burnIds : List Str) (hu : ∃ h total, u = .payAddressFeeWithNotes burnIds h total)
      (hd : burnIds.Nodup) (hburn : ∀ id ∈ burnIds, s.Burnable id)
      (hn : s'.notes = (s.burnNotes burnIds).notes) (hb : s'.burns = s.burns)
  /-- Notes are reserved. -/
  | reserve (noteIds : List Str) (h : Str) (hu : u = .markPending noteIds h)
      (hburn : ∀ id ∈ noteIds, s.Burnable id)
      (hs : s' = { s with notes := s.notes.modifyEach noteIds fun n =>
        { n with pending := true, pendingPaymentHash := some h } })
  /-- Notes are burned for good, whatever they were. -/
  | finalize (noteIds : List Str) (hu : u = .finalizeMelt noteIds)
    (hs : s' = s.finalizeMelt noteIds)
  /-- Reservations are cleared, whosever they were. -/
  | restore (noteIds : List Str) (hu : u = .restore noteIds) (hs : s' = s.restore noteIds)

theorem Update.notesStep {ok : List Str → List Str → List ℤ → Prop} {i : Input}
    {s s' : NoteStore} {u : Update} {out : u.Out} (hok : u.SwapsMeet ok)
    (h : u.apply i s = .ok (out, s')) : NotesStep ok i.now u s s' := by
  cases u with
  | createMint =>
    obtain ⟨s₁, h, he⟩ := map_eq_ok.1 h
    cases he
    obtain ⟨-, -, mints, -, rfl⟩ := NoteStore.createMint_ok h
    exact .keep rfl rfl
  | settleMint =>
    rcases NoteStore.settleMint_ok h with ⟨-, rfl, -⟩ |
      ⟨m, notes, -, -, -, ⟨id, -, hi, rfl⟩ | ⟨_, _, pk, _, _, -, -, -, -, -, -, -, hi, rfl⟩⟩
    · exact .keep rfl rfl
    · exact .credit _ ⟨_, _, rfl⟩ hi rfl
    · exact .credit _ ⟨_, _, rfl⟩ hi rfl
  | markZapPublished => cases h; exact .keep rfl rfl
  | swap =>
    obtain ⟨s₁, h, he⟩ := map_eq_ok.1 h
    cases he
    exact .swap s rfl rfl rfl _ _ _ _ hok (NoteStore.swapLocked_ok (NoteStore.reported_eq_ok.1 h))
  | transferToUsername =>
    obtain ⟨row, index, -, -, -, h⟩ := NoteStore.transferToUsername_ok h
    refine .swap _ ?_ ?_ ?_ _ _ _ _ (hok _) h <;> rfl
  | recordMelt => cases h; exact .keep rfl rfl
  | markMeltSettled => cases h; exact .keep rfl rfl
  | markPending noteIds hash =>
    obtain ⟨s₁, h, he⟩ := map_eq_ok.1 h
    cases he
    obtain ⟨hb, rfl⟩ := NoteStore.markPending_ok h
    exact .reserve noteIds hash rfl hb rfl
  | finalizeMelt => cases h; exact .finalize _ rfl rfl
  | restore => cases h; exact .restore _ rfl rfl
  | registerUsername =>
    obtain ⟨s₁, h, he⟩ := map_eq_ok.1 h
    cases he
    obtain ⟨-, _, _, -, -, rfl⟩ := NoteStore.registerUsername_ok h
    exact .keep rfl rfl
  | holdUsername =>
    obtain ⟨s₁, h, he⟩ := map_eq_ok.1 h
    cases he
    obtain ⟨-, _, _, -, -, rfl⟩ := NoteStore.holdUsername_ok h
    exact .keep rfl rfl
  | settleAddressFee =>
    rcases NoteStore.settleAddressFee_ok h with ⟨-, rfl, -⟩ |
      ⟨f, -, -, ⟨-, rfl, -⟩ | ⟨-, -, _, -, rfl⟩⟩ <;> exact .keep rfl rfl
  | payAddressFeeWithNotes =>
    obtain ⟨hd, hb, f, _, -, -, -, -, -, -, -, rfl⟩ := NoteStore.payAddressFeeWithNotes_ok h
    exact .burn _ ⟨_, _, rfl⟩ hd hb rfl rfl
  | updateUsername =>
    obtain ⟨s₁, h, he⟩ := map_eq_ok.1 h
    cases he
    obtain ⟨_, _, -, -, rfl⟩ := NoteStore.updateUsername_ok h
    exact .keep rfl rfl
  | deleteUsername => cases h; exact .keep rfl rfl

/-! ## What is never taken back -/

namespace NoteStore

variable {s s' s'' : NoteStore} {now : ℤ}

/-- `s'` came from `s`: every note is still there with its value, spent if it was, and every burn
is still recorded as it was. -/
structure Evolves (s s' : NoteStore) : Prop where
  note : ∀ {id n}, s.notes.find? id = some n → ∃ n', s'.notes.find? id = some n' ∧
    n'.amountMsat = n.amountMsat ∧ n'.lockedAt = n.lockedAt ∧ (n.spent = true → n'.spent = true)
  burn : ∀ {k b}, s.burns.find? k = some b → s'.burns.find? k = some b

theorem Evolves.refl (s : NoteStore) : s.Evolves s :=
  ⟨fun h => ⟨_, h, rfl, rfl, id⟩, id⟩

theorem Evolves.trans (h : s.Evolves s') (h' : s'.Evolves s'') : s.Evolves s'' where
  note hn := by
    obtain ⟨n', hn', ha, hl, hs⟩ := h.note hn
    obtain ⟨n'', hn'', ha', hl', hs'⟩ := h'.note hn'
    exact ⟨n'', hn'', ha'.trans ha, hl'.trans hl, hs' ∘ hs⟩
  burn hb := h'.burn (h.burn hb)

theorem find?_burnNotes (ids : List Str) (id : Str) :
    (s.burnNotes ids).notes.find? id =
      (s.notes.find? id).map fun n => if id ∈ ids then { n with spent := true } else n := by
  rw [burnNotes, Table.find?_modifyEach]
  exact fun _ => rfl

theorem find?_finalizeMelt (ids : List Str) (id : Str) :
    (s.finalizeMelt ids).notes.find? id = (s.notes.find? id).map fun n =>
      if id ∈ ids then { n with spent := true, pending := false, pendingPaymentHash := none }
      else n := by
  rw [finalizeMelt, Table.find?_modifyEach]
  exact fun _ => rfl

theorem find?_restore (ids : List Str) (id : Str) :
    (s.restore ids).notes.find? id = (s.notes.find? id).map fun n =>
      if id ∈ ids then { n with pending := false, pendingPaymentHash := none } else n := by
  rw [restore, Table.find?_modifyEach]
  exact fun _ => rfl

theorem find?_reserve (ids : List Str) (h id : Str) :
    (s.notes.modifyEach ids fun n =>
      { n with pending := true, pendingPaymentHash := some h }).find? id =
      (s.notes.find? id).map fun n =>
        if id ∈ ids then { n with pending := true, pendingPaymentHash := some h } else n := by
  rw [Table.find?_modifyEach]
  exact fun _ => rfl

/-- Rewriting the notes named by `ids` takes nothing back, if the rewrite does not. -/
theorem Evolves.of_rewrite {ids : List Str} {f : NoteRow → NoteRow} (hb : s'.burns = s.burns)
    (hn : ∀ id, s'.notes.find? id = (s.notes.find? id).map fun n => if id ∈ ids then f n else n)
    (hf : ∀ n, (f n).amountMsat = n.amountMsat ∧ (f n).lockedAt = n.lockedAt ∧
      (n.spent = true → (f n).spent = true)) : s.Evolves s' := by
  refine ⟨fun {id n} h => ?_, fun h => hb ▸ h⟩
  rw [hn, h]
  refine ⟨_, rfl, ?_⟩
  split
  exacts [hf n, ⟨rfl, rfl, fun h => h⟩]

/-- The notes after a swap: the old ones, burned if named, and then the new ones. -/
theorem Swapped.find? {burnIds mintNoteIds : List Str} {mintAmounts : List ℤ}
    {toUsername : Option Str} (h : s.Swapped s' now burnIds mintNoteIds mintAmounts toUsername)
    (id : Str) :
    s'.notes.find? id =
      ((s.notes.find? id).map fun n => if id ∈ burnIds then { n with spent := true } else n).or
        (((mintNoteIds.zip mintAmounts).map (newNote now)).find? fun n => n.id = id) := by
  obtain ⟨notes, burns, _, _, _, _, -, -, hr, -, rfl⟩ := h.left
  rw [← find?_burnNotes]
  unfold Table.find?
  rw [hr, List.find?_append]

theorem Swapped.burns {burnIds mintNoteIds : List Str} {mintAmounts : List ℤ}
    {toUsername : Option Str} (h : s.Swapped s' now burnIds mintNoteIds mintAmounts toUsername) :
    ∃ id ids amount amounts, mintNoteIds = id :: ids ∧ mintAmounts = amount :: amounts ∧
      s.burns.insert? ⟨burnKey burnIds, id, ids.head?, amount, amounts.head?, toUsername⟩ =
        some s'.burns := by
  obtain ⟨notes, burns, id, ids, amount, amounts, hi, ha, -, hb, rfl⟩ := h.left
  exact ⟨id, ids, amount, amounts, hi, ha, hb⟩

end NoteStore

open NoteStore

/-- **No transaction removes a note, changes its value, or gives a spent one back.** -/
theorem NotesStep.evolves {ok : List Str → List Str → List ℤ → Prop} {now : ℤ}
    {u : Update} {s s' : NoteStore} (h : NotesStep ok now u s s') : s.Evolves s' := by
  cases h with
  | keep hn hb => exact ⟨fun h => ⟨_, hn ▸ h, rfl, rfl, id⟩, fun h => hb ▸ h⟩
  | credit out _ hn hb =>
    exact ⟨fun h => ⟨_, Table.find?_of_insert? hn h, rfl, rfl, id⟩, fun h => hb ▸ h⟩
  | swap s₀ hn hm hb burnIds _ _ _ _ hs =>
    refine ⟨fun {id n} h => ?_, fun h => ?_⟩
    · rw [hs.find?, hn, h]
      exact ⟨_, rfl, by split <;> rfl, by split <;> rfl, by split <;> simp_all⟩
    · obtain ⟨_, _, _, _, -, -, hi⟩ := hs.burns
      exact Table.find?_of_insert? hi (hb ▸ h)
  | burn ids _ _ _ hn hb =>
    have hf := fun id => (congrArg (·.find? id) hn).trans (find?_burnNotes ids id)
    exact .of_rewrite hb hf fun _ => ⟨rfl, rfl, fun _ => rfl⟩
  | reserve ids hash _ _ hs =>
    subst hs
    exact .of_rewrite rfl (find?_reserve ids hash) fun _ => ⟨rfl, rfl, fun h => h⟩
  | finalize ids _ hs =>
    subst hs
    exact .of_rewrite rfl (find?_finalizeMelt ids) fun _ => ⟨rfl, rfl, fun _ => rfl⟩
  | restore ids _ hs =>
    subst hs
    exact .of_rewrite rfl (find?_restore ids) fun _ => ⟨rfl, rfl, fun h => h⟩

theorem Update.swapsMeet_true (u : Update) : u.SwapsMeet fun _ _ _ => True := by
  cases u <;> simp [SwapsMeet]

theorem Update.evolves {i : Input} {s s' : NoteStore} {u : Update} {r : Except Exn u.Out}
    (h : u.run i s = some (r, s')) : s.Evolves s' :=
  Update.run_induct h (.refl s) fun _ ho => (Update.notesStep u.swapsMeet_true ho).evolves

/-! ## The invariant -/

/-- The flags of a note fit together. -/
structure NoteRow.Coherent (n : NoteRow) : Prop where
  /-- No note is both spent and reserved. -/
  exclusive : n.spent = true → n.pending = false
  /-- A reservation names its payment hash, and nothing else does. -/
  reserved : n.pending = n.pendingPaymentHash.isSome

/-- The outputs a burn recorded. -/
def BurnRow.outputs (b : BurnRow) : List (Str × ℤ) :=
  (b.id, b.amount1Msat) :: (b.id2.toList.zip b.amount2Msat.toList)

/-- A swap as every caller makes it: something is burned, ids do not contain the separator of burn
keys, and there are one or two outputs with as many amounts. -/
def ProperSwap (burnIds mintNoteIds : List Str) (mintAmounts : List ℤ) : Prop :=
  burnIds ≠ [] ∧ (∀ id ∈ burnIds, '|' ∉ id) ∧ mintNoteIds.length = mintAmounts.length ∧
    mintNoteIds.length ≤ 2

namespace NoteStore

/-- The invariant of `notes` and `burns`. -/
structure Lifecycle (s : NoteStore) : Prop where
  /-- The flags of every note fit together. -/
  coherent : ∀ {id n}, s.notes.find? id = some n → n.Coherent
  /-- A burn's notes are spent. -/
  burned_spent : ∀ b ∈ s.burns.rows, ∀ id ∈ b.burned, ∃ n, s.notes.find? id = some n ∧
    n.spent = true
  /-- Two burns share no note. -/
  burned_disjoint : ∀ b ∈ s.burns.rows, ∀ b' ∈ s.burns.rows, ∀ id, id ∈ b.burned →
    id ∈ b'.burned → b = b'
  /-- A burn's outputs are notes of these amounts. -/
  recorded : ∀ b ∈ s.burns.rows, ∀ out ∈ b.outputs, ∃ n, s.notes.find? out.1 = some n ∧
    n.amountMsat = out.2
  /-- A second output has an amount, and only a second output. -/
  second : ∀ b ∈ s.burns.rows, b.id2.isSome = b.amount2Msat.isSome

theorem Lifecycle.empty : Lifecycle .empty where
  coherent h := by simp [NoteStore.empty] at h
  burned_spent := by simp [NoteStore.empty]
  burned_disjoint := by simp [NoteStore.empty]
  recorded := by simp [NoteStore.empty]
  second := by simp [NoteStore.empty]

variable {s s' : NoteStore} {now : ℤ}

/-- What a transaction that records no burn has to show. -/
theorem Lifecycle.of_evolves (h : s.Lifecycle) (he : s.Evolves s') (hb : s'.burns = s.burns)
    (hc : ∀ {id n}, s'.notes.find? id = some n → n.Coherent) : s'.Lifecycle where
  coherent := hc
  burned_spent b hb' id hid := by
    obtain ⟨n, hn, hs⟩ := h.burned_spent b (hb ▸ hb') id hid
    obtain ⟨n', hn', -, -, hs'⟩ := he.note hn
    exact ⟨n', hn', hs' hs⟩
  burned_disjoint := hb ▸ h.burned_disjoint
  recorded b hb' out hout := by
    obtain ⟨n, hn, ha⟩ := h.recorded b (hb ▸ hb') out hout
    obtain ⟨n', hn', ha', -⟩ := he.note hn
    exact ⟨n', hn', ha'.trans ha⟩
  second := hb ▸ h.second

/-- The same for one that rewrites the notes named by `ids`. -/
theorem Lifecycle.of_rewrite {ids : List Str} {f : NoteRow → NoteRow} (h : s.Lifecycle)
    (he : s.Evolves s') (hb : s'.burns = s.burns)
    (hn : ∀ id, s'.notes.find? id = (s.notes.find? id).map fun n => if id ∈ ids then f n else n)
    (hf : ∀ id ∈ ids, ∀ n, s.notes.find? id = some n → n.Coherent → (f n).Coherent) :
    s'.Lifecycle := by
  refine h.of_evolves he hb fun {id n} h' => ?_
  rw [hn] at h'
  obtain ⟨n₀, hn₀, rfl⟩ := Option.map_eq_some_iff.1 h'
  split
  · rename_i hm
    exact hf id hm n₀ hn₀ (h.coherent hn₀)
  · exact h.coherent hn₀

/-- The notes named by a proper burn are those its key splits into. -/
theorem mem_burned {burnIds : List Str} (hne : burnIds ≠ []) (hbar : ∀ id ∈ burnIds, '|' ∉ id)
    {b : BurnRow} (hk : b.burnKey = burnKey burnIds) {id : Str} : id ∈ b.burned ↔ id ∈ burnIds := by
  rw [BurnRow.burned, hk, burnKey, splitOn_sortedJoin hbar hne]
  exact (List.perm_insertionSort _ _).mem_iff

/-- A new note of a swap is on file with its amount. -/
theorem Swapped.minted {burnIds mintNoteIds : List Str} {mintAmounts : List ℤ}
    {toUsername : Option Str} (h : s.Swapped s' now burnIds mintNoteIds mintAmounts toUsername)
    {out : Str × ℤ} (hout : out ∈ mintNoteIds.zip mintAmounts) :
    s'.notes.find? out.1 = some (newNote now out) := by
  have hid : out.1 ∈ mintNoteIds := (List.of_mem_zip hout).1
  obtain ⟨notes, _, _, _, _, _, -, -, hr, -, rfl⟩ := h.left
  refine Table.find?_eq_some.2 ⟨?_, rfl⟩
  rw [hr]
  exact List.mem_append_right _ (List.mem_map_of_mem hout)

/-- A note after a swap is an old one, burned if it was named, or a new one. -/
theorem Swapped.cases {burnIds mintNoteIds : List Str} {mintAmounts : List ℤ}
    {toUsername : Option Str} (h : s.Swapped s' now burnIds mintNoteIds mintAmounts toUsername)
    {id : Str} {n : NoteRow} (hn : s'.notes.find? id = some n) :
    (∃ n₀, s.notes.find? id = some n₀ ∧
      n = if id ∈ burnIds then { n₀ with spent := true } else n₀) ∨
      s.notes.find? id = none ∧ ∃ out ∈ mintNoteIds.zip mintAmounts, n = newNote now out := by
  rw [h.find?] at hn
  cases h₀ : s.notes.find? id with
  | some n₀ =>
    rw [h₀] at hn
    exact .inl ⟨n₀, rfl, (Option.some.inj hn).symm⟩
  | none =>
    rw [h₀] at hn
    obtain ⟨out, hout, rfl⟩ := List.mem_map.1 (List.mem_of_find?_eq_some hn)
    exact .inr ⟨rfl, out, hout, rfl⟩

theorem Burnable.pending_eq_false {id : Str} {n : NoteRow} (h : s.Burnable id)
    (hn : s.notes.find? id = some n) : n.pending = false := by
  obtain ⟨n', hn', -, hp⟩ := h
  rw [hn] at hn'
  cases hn'
  exact hp

theorem Burnable.spent_eq_false {id : Str} {n : NoteRow} (h : s.Burnable id)
    (hn : s.notes.find? id = some n) : n.spent = false := by
  obtain ⟨n', hn', hs, -⟩ := h
  rw [hn] at hn'
  cases hn'
  exact hs

theorem Swapped.lifecycle {burnIds mintNoteIds : List Str} {mintAmounts : List ℤ}
    {toUsername : Option Str} (hok : ProperSwap burnIds mintNoteIds mintAmounts)
    (h : s.Swapped s' now burnIds mintNoteIds mintAmounts toUsername) (hl : s.Lifecycle)
    (he : s.Evolves s') : s'.Lifecycle := by
  obtain ⟨hne, hbar, hlen, hle⟩ := hok
  obtain ⟨id₁, ids, amount₁, amounts, rfl, rfl, hi⟩ := h.burns
  have hrow : ∀ {b}, b ∈ s'.burns.rows → b ∈ s.burns.rows ∨
      b = ⟨burnKey burnIds, id₁, ids.head?, amount₁, amounts.head?, toUsername⟩ := fun hb =>
    (Table.mem_insert? hi).1 hb
  -- a note of the new burn was unspent until now, so no earlier burn has it
  have fresh : ∀ b ∈ s.burns.rows, ∀ id ∈ b.burned, id ∉ burnIds := by
    intro b hb id hid hm
    obtain ⟨n, hn, hs⟩ := hl.burned_spent b hb id hid
    simp [(h.burnable id hm).spent_eq_false hn] at hs
  refine ⟨fun {id n} hn => ?_, fun b hb id hid => ?_,
    fun b hb b' hb' id hid hid' => ?_, fun b hb out hout => ?_, fun b hb => ?_⟩
  · rcases h.cases hn with ⟨n₀, hn₀, he⟩ | ⟨-, out, -, rfl⟩
    · have hc := hl.coherent hn₀
      split at he
      · rename_i hm
        have hp := (h.burnable id hm).pending_eq_false hn₀
        exact he ▸ ⟨fun _ => hp, hc.reserved⟩
      · exact he ▸ hc
    · exact ⟨fun _ => rfl, rfl⟩
  · rcases hrow hb with hb | rfl
    · obtain ⟨n, hn, hs⟩ := hl.burned_spent b hb id hid
      obtain ⟨n', hn', -, -, hs'⟩ := he.note hn
      exact ⟨n', hn', hs' hs⟩
    · have hm := (mem_burned hne hbar rfl).1 hid
      obtain ⟨n₀, hn₀, -⟩ := h.burnable id hm
      exact ⟨{ n₀ with spent := true }, by rw [h.find?, hn₀]; simp [hm], rfl⟩
  · rcases hrow hb with hb | rfl <;> rcases hrow hb' with hb' | rfl
    · exact hl.burned_disjoint b hb b' hb' id hid hid'
    · exact absurd ((mem_burned hne hbar rfl).1 hid') (fresh b hb id hid)
    · exact absurd ((mem_burned hne hbar rfl).1 hid) (fresh b' hb' id hid')
    · rfl
  · rcases hrow hb with hb | rfl
    · obtain ⟨n, hn, ha⟩ := hl.recorded b hb out hout
      obtain ⟨n', hn', ha', -⟩ := he.note hn
      exact ⟨n', hn', ha'.trans ha⟩
    · have hz : out ∈ (id₁ :: ids).zip (amount₁ :: amounts) := by
        match ids, amounts, hlen, hle with
        | [], [], _, _ => simpa [BurnRow.outputs] using hout
        | [_], [_], _, _ => simpa [BurnRow.outputs] using hout
      exact ⟨_, h.minted hz, rfl⟩
  · rcases hrow hb with hb | rfl
    · exact hl.second b hb
    · match ids, amounts, hlen, hle with
      | [], [], _, _ => rfl
      | [_], [_], _, _ => rfl

/-- **Every transaction keeps the invariant.** -/
theorem Lifecycle.step {u : Update} (hl : s.Lifecycle) (h : NotesStep ProperSwap now u s s') :
    s'.Lifecycle := by
  have he := h.evolves
  cases h with
  | keep hn hb => exact hl.of_evolves he hb (hn ▸ hl.coherent)
  | credit out hu hn hb =>
    refine hl.of_evolves he hb fun {id n} h => ?_
    rw [Table.find?_insert? hn] at h
    split at h
    · cases h
      exact ⟨fun _ => rfl, rfl⟩
    · exact hl.coherent h
  | swap s₀ hn hm hb burnIds mintIds amounts toUser hok hs =>
    have hl₀ : s₀.Lifecycle :=
      ⟨hn ▸ hl.coherent, hn ▸ hb ▸ hl.burned_spent, hb ▸ hl.burned_disjoint,
        hn ▸ hb ▸ hl.recorded, hb ▸ hl.second⟩
    exact hs.lifecycle hok hl₀ ⟨fun h => he.note (hn ▸ h), fun h => he.burn (hb ▸ h)⟩
  | burn ids hu hd hburn hn hb =>
    have hf := fun id => (congrArg (·.find? id) hn).trans (find?_burnNotes ids id)
    refine hl.of_rewrite he hb hf fun id hm n hn hc => ?_
    have hp := (hburn id hm).pending_eq_false hn
    exact ⟨fun _ => hp, hc.reserved⟩
  | reserve ids hash hu hburn hs =>
    subst hs
    refine hl.of_rewrite he rfl (find?_reserve ids hash) fun id hm n hn hc => ⟨fun hs => ?_, rfl⟩
    have := (hburn id hm).spent_eq_false hn
    simp_all
  | finalize ids _ hs =>
    subst hs
    exact hl.of_rewrite he rfl (find?_finalizeMelt ids) fun _ _ _ _ _ => ⟨fun _ => rfl, rfl⟩
  | restore ids _ hs =>
    subst hs
    exact hl.of_rewrite he rfl (find?_restore ids) fun _ _ _ _ _ => ⟨fun _ => rfl, rfl⟩

/-- **The burns table never refuses a swap**: a burnable note is in no burn yet. -/
theorem Lifecycle.burnKey_unused (hl : s.Lifecycle) {burnIds : List Str} (hne : burnIds ≠ [])
    (hbar : ∀ id ∈ burnIds, '|' ∉ id) (hburn : ∀ id ∈ burnIds, s.Burnable id) :
    s.burns.find? (burnKey burnIds) = none := by
  rw [Table.find?_eq_none]
  intro b hb hk
  obtain ⟨id, hid⟩ := List.exists_mem_of_ne_nil burnIds hne
  obtain ⟨n, hn, hs⟩ := hl.burned_spent b hb id ((mem_burned hne hbar hk).2 hid)
  simp [(hburn id hid).spent_eq_false hn] at hs

theorem checkBurnable_ne_integrity {id : Str} : s.checkBurnable id ≠ .error .integrity := by
  unfold checkBurnable
  cases s.notes.find? id with
  | none => simp
  | some n => cases hs : n.spent <;> cases hp : n.pending <;> simp [hs, hp]

theorem checkBurnIds_ne_integrity {seen ids : List Str} :
    s.checkBurnIds seen ids ≠ .error .integrity := by
  induction ids generalizing seen with
  | nil => simp [checkBurnIds]
  | cons id ids ih =>
    unfold checkBurnIds
    split
    · simp
    · intro h
      rcases bind_eq_error.1 h with h | ⟨-, -, h⟩
      exacts [checkBurnable_ne_integrity h, ih h]

theorem checkMintIds_ne_integrity {seen ids : List Str} :
    s.checkMintIds seen ids ≠ .error .integrity := by
  induction ids generalizing seen with
  | nil => simp [checkMintIds]
  | cons id ids ih =>
    unfold checkMintIds
    split
    · simp
    · split <;> simp [ih]

/-- Distinct ids that no note has can all be inserted. -/
theorem insertNotes_ne_error {outs : List (Str × ℤ)} (hd : (outs.map Prod.fst).Nodup)
    (hn : ∀ out ∈ outs, s.notes.find? out.1 = none) (e : Exn) :
    s.insertNotes now outs ≠ .error e := by
  induction outs generalizing s with
  | nil => simp [insertNotes]
  | cons out outs ih =>
    obtain ⟨hd₁, hd₂⟩ := List.nodup_cons.1 hd
    cases hi : s.notes.insert? (newNote now out) with
    | none => exact absurd (hn out List.mem_cons_self) (Table.insert?_eq_none.1 hi)
    | some notes =>
      have h₁ : s.insertNote now out.1 out.2 = .ok { s with notes } := insertNote_ok.2 ⟨_, hi, rfl⟩
      unfold insertNotes
      rw [h₁]
      refine ih hd₂ fun out' hout' => ?_
      rw [Table.find?_insert? hi, if_neg, hn out' (List.mem_cons_of_mem _ hout')]
      exact fun he => hd₁ ((show out.1 = out'.1 from he) ▸ List.mem_map_of_mem hout')

/-- **A proper swap meets no constraint of the database**: all its checks came first. -/
theorem Lifecycle.swapLocked_ne_integrity (hl : s.Lifecycle) {burnIds mintNoteIds : List Str}
    {mintAmounts : List ℤ} (hok : ProperSwap burnIds mintNoteIds mintAmounts)
    (toUsername : Option Str) :
    s.swapLocked now burnIds mintNoteIds mintAmounts toUsername ≠ .error .integrity := by
  obtain ⟨hne, hbar, hlen, -⟩ := hok
  intro h
  rcases bind_eq_error.1 h with h | ⟨⟨⟩, hb, h⟩
  · exact checkBurnIds_ne_integrity h
  rcases bind_eq_error.1 h with h | ⟨⟨⟩, hm, h⟩
  · exact checkMintIds_ne_integrity h
  obtain ⟨-, -, hb⟩ := checkBurnIds_ok.1 hb
  obtain ⟨hmn, -, hm⟩ := checkMintIds_ok.1 hm
  have hfst : (mintNoteIds.zip mintAmounts).map Prod.fst = mintNoteIds :=
    List.map_fst_zip (Nat.le_of_eq hlen)
  have hfree : ∀ out ∈ mintNoteIds.zip mintAmounts,
      (s.burnNotes burnIds).notes.find? out.1 = none := fun out hout => by
    rw [find?_burnNotes, (idInUse_eq_false.1 (hm _ (List.of_mem_zip hout).1)).1]
    rfl
  rcases bind_eq_error.1 h with h | ⟨s₁, hi, h⟩
  · exact insertNotes_ne_error (hfst.symm ▸ hmn) hfree _ h
  obtain ⟨notes, rfl, -⟩ := insertNotes_ok hi
  match mintNoteIds, mintAmounts with
  | id :: ids, amount :: amounts =>
    have hk := hl.burnKey_unused hne hbar hb
    cases hr : s.burns.insert? ⟨burnKey burnIds, id, ids.head?, amount, amounts.head?,
        toUsername⟩ with
    | none => exact absurd hk (Table.insert?_eq_none.1 hr)
    | some burns => simp only [burnNotes, hr, reduceCtorEq] at h
  | [], _ => simp at h
  | _ :: _, [] => simp at h

end NoteStore

/-! ## The methods as they are called -/

/-- The notes that a method asks to be burnable. -/
def Update.consumed : Update → List Str
  | swap burnIds .. | transferToUsername burnIds .. | markPending burnIds _
  | payAddressFeeWithNotes burnIds .. => burnIds
  | _ => []

/-- The notes that a method burns for others. -/
def Update.swapped : Update → List Str
  | swap burnIds .. | transferToUsername burnIds .. => burnIds
  | _ => []

/-- What every caller passes to a swap or a transfer: some notes to burn, by ids without the
separator of burn keys, and one or two outputs with as many amounts. -/
def Update.WellFormed : Update → Prop
  | swap burnIds mintNoteIds mintAmounts => burnIds ≠ [] ∧ (∀ id ∈ burnIds, '|' ∉ id) ∧
      mintNoteIds.length = mintAmounts.length ∧ mintNoteIds.length ∈ [1, 2]
  | transferToUsername burnIds .. => burnIds ≠ [] ∧ ∀ id ∈ burnIds, '|' ∉ id
  | _ => True

/-- The same of one step of a sequence. -/
def StoreOp.WellFormed : StoreOp → Prop
  | method _ u => u.WellFormed
  | reopen => True

theorem Update.WellFormed.swapsMeet {u : Update} (h : u.WellFormed) : u.SwapsMeet ProperSwap := by
  cases u with
  | swap burnIds mintNoteIds mintAmounts =>
    obtain ⟨hne, hbar, hlen, hle⟩ := h
    refine ⟨hne, hbar, hlen, ?_⟩
    simp only [List.mem_cons, List.not_mem_nil, or_false] at hle
    omega
  | transferToUsername burnIds => exact fun pk => ⟨h.1, h.2, rfl, by simp⟩
  | _ => trivial

theorem Update.WellFormed.swapped {u : Update} (h : u.WellFormed) {id : Str}
    (hid : id ∈ u.swapped) :
    u.swapped ≠ [] ∧ ∀ id ∈ u.swapped, '|' ∉ id := by
  cases u with
  | swap => exact ⟨h.1, h.2.1⟩
  | transferToUsername => exact h
  | _ => simp [Update.swapped] at hid

/-- A method that succeeds found the notes it burns or reserves burnable. -/
theorem Update.burnable {i : Input} {s s' : NoteStore} {u : Update} {out : u.Out}
    (h : u.run i s = some (.ok out, s')) {id : Str} (hid : id ∈ u.consumed) : s.Burnable id := by
  obtain ⟨out, he, h⟩ := (Update.run_eq_some.1 h).resolve_right (by simp)
  cases u with
  | swap =>
    obtain ⟨_, h, -⟩ := map_eq_ok.1 h
    exact (swapLocked_ok (reported_eq_ok.1 h)).burnable id hid
  | transferToUsername =>
    obtain ⟨_, _, -, -, -, h⟩ := transferToUsername_ok h
    exact h.burnable id hid
  | markPending =>
    obtain ⟨_, h, -⟩ := map_eq_ok.1 h
    exact (markPending_ok h).1 id hid
  | payAddressFeeWithNotes => exact (payAddressFeeWithNotes_ok h).2.1 id hid
  | _ => simp [consumed] at hid

/-- A swap or transfer that succeeds is recorded under the key of its notes. -/
theorem Update.recorded {i : Input} {s s' : NoteStore} {u : Update} {out : u.Out}
    (h : u.run i s = some (.ok out, s')) {id : Str} (hid : id ∈ u.swapped) :
    ∃ b ∈ s'.burns.rows, b.burnKey = burnKey u.swapped := by
  obtain ⟨out, he, h⟩ := (Update.run_eq_some.1 h).resolve_right (by simp)
  cases u with
  | swap =>
    obtain ⟨_, h, he⟩ := map_eq_ok.1 h
    cases he
    obtain ⟨_, _, _, _, -, -, hi⟩ := (swapLocked_ok (reported_eq_ok.1 h)).burns
    exact ⟨_, (Table.mem_insert? hi).2 (.inr rfl), rfl⟩
  | transferToUsername =>
    obtain ⟨_, _, -, -, -, h⟩ := transferToUsername_ok h
    obtain ⟨_, _, _, _, -, -, hi⟩ := h.burns
    exact ⟨_, (Table.mem_insert? hi).2 (.inr rfl), rfl⟩
  | _ => simp [swapped] at hid

namespace NoteStore

variable {s s' : NoteStore}

theorem Lifecycle.run {op : StoreOp} (hl : s.Lifecycle) (hop : op.WellFormed)
    (h : op.run s = some s') : s'.Lifecycle := by
  cases op with
  | reopen =>
    cases h
    exact ⟨hl.coherent, hl.burned_spent, hl.burned_disjoint, hl.recorded, hl.second⟩
  | method i u =>
    obtain ⟨r, h⟩ := StoreOp.run_method.1 h
    exact Update.run_induct h hl fun _ ho => hl.step (Update.notesStep hop.swapsMeet ho)

theorem Lifecycle.steps {ops : List StoreOp} (hl : s.Lifecycle)
    (hops : ∀ op ∈ ops, op.WellFormed) (h : s.steps ops = some s') : s'.Lifecycle :=
  steps_induct (fun op hop => fun hl h => hl.run (hops op hop) h) hl h

theorem Evolves.run {op : StoreOp} (h : op.run s = some s') : s.Evolves s' := by
  cases op with
  | reopen =>
    cases h
    exact ⟨fun h => ⟨_, h, rfl, rfl, id⟩, id⟩
  | method i u =>
    obtain ⟨r, h⟩ := StoreOp.run_method.1 h
    exact Update.evolves h

theorem Evolves.steps {ops : List StoreOp} (h : s.steps ops = some s') : s.Evolves s' :=
  steps_induct (fun _ _ => fun he h => he.trans (Evolves.run h)) (.refl s) h

/-- **The life of a note**, over every sequence of methods from an empty store.

Notes and burns only grow and a spent note stays spent; no note is both spent and reserved, and a
reservation is what names a payment hash; every output on record is a note of that amount; two
burns share no note, and the burns table refuses no swap. Whatever a method of the sequence burned
or reserved was neither spent nor reserved then, and what a swap or transfer burned is in exactly
one burn at the end. -/
theorem note_lifecycle {ops : List StoreOp} {s : NoteStore}
    (hops : ∀ op ∈ ops, op.WellFormed) (hs : empty.steps ops = some s) :
    (∀ n ∈ s.notes.rows, (n.spent = true → n.pending = false) ∧
      (n.pending = true ↔ ∃ h, n.pendingPaymentHash = some h)) ∧
    (∀ b ∈ s.burns.rows, ∀ out ∈ b.outputs, ∃ n ∈ s.notes.rows, n.id = out.1 ∧
      n.amountMsat = out.2) ∧
    (∀ b ∈ s.burns.rows, ∀ b' ∈ s.burns.rows, b ≠ b' → b.burned.Disjoint b'.burned) ∧
    (∀ now burnIds mintNoteIds mintAmounts toUsername usernames,
      (Update.swap burnIds mintNoteIds mintAmounts).WellFormed →
      ({ s with usernames } : NoteStore).swapLocked now burnIds mintNoteIds mintAmounts toUsername ≠
        .error .integrity) ∧
    (∀ before after s₀, ops = before ++ after → empty.steps before = some s₀ →
      ∀ n ∈ s₀.notes.rows, ∃ n' ∈ s.notes.rows, n'.id = n.id ∧ n'.amountMsat = n.amountMsat ∧
        n'.lockedAt = n.lockedAt ∧ (n.spent = true → n'.spent = true)) ∧
    (∀ before after i u out s₀ s₁, ops = before ++ .method i u :: after →
      empty.steps before = some s₀ → u.run i s₀ = some (.ok out, s₁) →
      (∀ id ∈ u.consumed, s₀.Burnable id) ∧
      ∀ id ∈ u.swapped, ∃! b, b ∈ s.burns.rows ∧ id ∈ b.burned) := by
  have hl : s.Lifecycle := Lifecycle.empty.steps hops hs
  refine ⟨fun n hn => ?_, fun b hb out hout => ?_, fun b hb b' hb' hne id hid hid' => ?_, ?_, ?_,
    ?_⟩
  · obtain ⟨hx, hr⟩ := hl.coherent (Table.find?_of_mem hn)
    exact ⟨hx, by rw [hr, Option.isSome_iff_exists]⟩
  · obtain ⟨n, hn, ha⟩ := hl.recorded b hb out hout
    exact ⟨n, Table.mem_of_find? hn, Table.key_of_find? hn, ha⟩
  · exact hne (hl.burned_disjoint b hb b' hb' id hid hid')
  · intro now burnIds mintNoteIds mintAmounts toUsername usernames hw
    have hl' : ({ s with usernames } : NoteStore).Lifecycle :=
      ⟨hl.coherent, hl.burned_spent, hl.burned_disjoint, hl.recorded, hl.second⟩
    exact hl'.swapLocked_ne_integrity hw.swapsMeet toUsername
  · rintro before after s₀ rfl h₀ n hn
    rw [steps_append, h₀] at hs
    obtain ⟨n', hn', ha, hl, hs⟩ := (Evolves.steps hs).note (Table.find?_of_mem hn)
    exact ⟨n', Table.mem_of_find? hn', Table.key_of_find? hn', ha, hl, hs⟩
  · rintro before after i u out s₀ s₁ rfl h₀ h
    refine ⟨fun id hid => Update.burnable h hid, fun id hid => ?_⟩
    obtain ⟨hne, hbar⟩ := Update.WellFormed.swapped (hops (.method i u) (by simp)) hid
    obtain ⟨b, hb, hk⟩ := Update.recorded h hid
    rw [steps_append, h₀] at hs
    have hs₁ : s₁.steps after = some s := by simpa [steps, StoreOp.run, h] using hs
    have hb' : s.burns.find? b.burnKey = some b :=
      (Evolves.steps hs₁).burn (Table.find?_of_mem hb)
    have hid' : id ∈ b.burned := (mem_burned hne hbar hk).2 hid
    refine ⟨b, ⟨Table.mem_of_find? hb', hid'⟩, ?_⟩
    rintro b' ⟨hb'', hid''⟩
    exact hl.burned_disjoint b' hb'' b (Table.mem_of_find? hb') id hid'' hid'

/-- A note is minted and rotated. -/
def rotation : List StoreOp :=
  [.method ⟨0, ""⟩ (.createMint "h".toList "i".toList 10 (some "a".toList) none none),
    .method ⟨1, ""⟩ (.settleMint "h".toList none),
    .method ⟨2, ""⟩ (.swap ["a".toList] ["b".toList] [10])]

theorem note_lifecycle_rotation : ∃ s, empty.steps rotation = some s ∧
    ∃! b, b ∈ s.burns.rows ∧ "a".toList ∈ b.burned := by
  have hops : ∀ op ∈ rotation, op.WellFormed := by
    rintro op (_ | ⟨_, _ | ⟨_, _ | ⟨_, ⟨⟩⟩⟩⟩)
    exacts [trivial, trivial, ⟨by decide, by decide, rfl, by decide⟩]
  obtain ⟨-, -, -, -, -, h⟩ := note_lifecycle hops rfl
  exact ⟨_, rfl, (h (rotation.take 2) [] ⟨2, ""⟩ (.swap ["a".toList] ["b".toList] [10]) () _ _
    rfl rfl rfl).2 _ List.mem_cons_self⟩

end NoteStore

end LnurlMint
