import LnurlMint.Effects

/-!
# What each transaction does

One lemma for each method of the store that writes: if it returns, then these checks passed and
this is the store it left. Everything proved later about the store starts from one of these and
never unfolds a method again.

A method that raises is not mentioned, since it leaves the store as it was.

## Main definitions

* `NoteStore.Burnable` — issued, unspent, not reserved
* `NoteStore.Swapped` — what a swap checked and what it left
* `StoreOp`, `NoteStore.steps` — sequences of methods

## Main results

* `NoteStore.settleMint_ok`, `NoteStore.swapLocked_ok`, `NoteStore.settleAddressFee_ok`, … — one
  for each method
* `Update.run_eq_some` — a method returned and left its transaction's store, or raised and left
  the store alone
* `NoteStore.steps_induct` — what every method keeps, every sequence of methods keeps
-/

namespace LnurlMint

open Relational

theorem bind_eq_ok {ε α β : Type} {x : Except ε α} {f : α → Except ε β} {b : β} :
    (x >>= f) = .ok b ↔ ∃ a, x = .ok a ∧ f a = .ok b := by
  cases x <;> simp [bind, Except.bind]

theorem bind_eq_error {ε α β : Type} {x : Except ε α} {f : α → Except ε β} {e : ε} :
    (x >>= f) = .error e ↔ x = .error e ∨ ∃ a, x = .ok a ∧ f a = .error e := by
  cases x <;> simp [bind, Except.bind]

theorem map_eq_ok {ε α β : Type} {x : Except ε α} {f : α → β} {b : β} :
    x.map f = .ok b ↔ ∃ a, x = .ok a ∧ f a = b := by
  cases x <;> simp [Except.map]

theorem pure_eq_ok {ε α : Type} {x y : α} : (pure x : Except ε α) = .ok y ↔ x = y := by
  simp [pure, Except.pure]

/-- A check followed by the rest. -/
theorem check_eq_ok {ε β : Type} {x : Except ε Unit} {y : Except ε β} {b : β} :
    (do x; y) = .ok b ↔ x = .ok () ∧ y = .ok b := by
  rw [bind_eq_ok]
  exact ⟨fun ⟨(), h⟩ => h, fun h => ⟨(), h⟩⟩

namespace NoteStore

variable {s s' : NoteStore} {now : ℤ}

/-! ## Checks -/

/-- A note that can be burned or reserved: issued, unspent and not reserved. -/
def Burnable (s : NoteStore) (noteId : Str) : Prop :=
  ∃ n, s.notes.find? noteId = some n ∧ n.spent = false ∧ n.pending = false

theorem checkBurnable_ok {noteId : Str} :
    s.checkBurnable noteId = .ok () ↔ s.Burnable noteId := by
  unfold checkBurnable Burnable
  cases s.notes.find? noteId with
  | none => simp
  | some n => cases hs : n.spent <;> cases hp : n.pending <;> simp [hs, hp]

theorem checkBurnIds_ok {seen ids : List Str} :
    s.checkBurnIds seen ids = .ok () ↔
      ids.Nodup ∧ (∀ id ∈ ids, id ∉ seen) ∧ ∀ id ∈ ids, s.Burnable id := by
  induction ids generalizing seen with
  | nil => simp [checkBurnIds]
  | cons id ids ih =>
    unfold checkBurnIds
    split
    · rename_i h
      simp [h]
    · rename_i h
      simp only [check_eq_ok, checkBurnable_ok, ih, List.nodup_cons, List.forall_mem_cons]
      constructor
      · rintro ⟨hb, hn, hs, hr⟩
        exact ⟨⟨fun hm => hs id hm List.mem_cons_self, hn⟩,
          ⟨h, fun x hx hm => hs x hx (List.mem_cons_of_mem _ hm)⟩, hb, hr⟩
      · rintro ⟨⟨hm, hn⟩, ⟨-, hs⟩, hb, hr⟩
        refine ⟨hb, hn, fun x hx hc => ?_, hr⟩
        rcases List.mem_cons.1 hc with rfl | hc
        exacts [hm hx, hs x hx hc]

theorem idInUse_eq_false {noteId : Str} :
    s.idInUse noteId = false ↔
      s.notes.find? noteId = none ∧ ∀ m ∈ s.mints.rows, m.noteId ≠ some noteId := by
  simp [idInUse, Option.isSome_eq_false_iff]

theorem checkMintIds_ok {seen ids : List Str} :
    s.checkMintIds seen ids = .ok () ↔
      ids.Nodup ∧ (∀ id ∈ ids, id ∉ seen) ∧ ∀ id ∈ ids, s.idInUse id = false := by
  induction ids generalizing seen with
  | nil => simp [checkMintIds]
  | cons id ids ih =>
    unfold checkMintIds
    split
    · rename_i h
      have : s.idInUse id = true := by simp [idInUse, h]
      simp [this]
    · rename_i h
      split
      · rename_i h'
        simp only [Bool.or_eq_true, decide_eq_true_eq] at h'
        rcases h' with h' | h'
        · simp [h']
        · have : s.idInUse id = true := by simp [idInUse, h']
          simp [this]
      · rename_i h'
        simp only [Bool.or_eq_true, decide_eq_true_eq, not_or, Bool.not_eq_true] at h'
        have hu : s.idInUse id = false := by
          simp only [idInUse, h'.2, Bool.false_or]
          simpa using h
        simp only [ih, List.nodup_cons, List.forall_mem_cons]
        constructor
        · rintro ⟨hn, hs, hr⟩
          exact ⟨⟨fun hm => hs id hm List.mem_cons_self, hn⟩,
            ⟨h'.1, fun x hx hm => hs x hx (List.mem_cons_of_mem _ hm)⟩, hu, hr⟩
        · rintro ⟨⟨hm, hn⟩, ⟨-, hs⟩, -, hr⟩
          refine ⟨hn, fun x hx hc => ?_, hr⟩
          rcases List.mem_cons.1 hc with rfl | hc
          exacts [hm hx, hs x hx hc]

theorem checkReservable_ok {ids : List Str} :
    s.checkReservable ids = .ok () ↔ ∀ id ∈ ids, s.Burnable id := by
  induction ids with
  | nil => simp [checkReservable]
  | cons id ids ih =>
    rw [checkReservable, check_eq_ok, checkBurnable_ok, ih, List.forall_mem_cons]

/-! ## Crediting -/

/-- A note as it is credited. -/
def newNote (now : ℤ) (out : Str × ℤ) : NoteRow := ⟨out.1, out.2, false, false, none, now⟩

theorem insertNote_ok {noteId : Str} {amountMsat : ℤ} :
    s.insertNote now noteId amountMsat = .ok s' ↔
      ∃ notes, s.notes.insert? (newNote now (noteId, amountMsat)) = some notes ∧
        s' = { s with notes } := by
  unfold insertNote newNote
  cases h : s.notes.insert? (newNote now (noteId, amountMsat)) <;>
    simp only [newNote] at h <;> simp [h, eq_comm]

theorem insertNotes_ok {outs : List (Str × ℤ)} (h : s.insertNotes now outs = .ok s') :
    ∃ notes : Table NoteRow.id, s' = { s with notes } ∧
      notes.rows = s.notes.rows ++ outs.map (newNote now) := by
  induction outs generalizing s with
  | nil =>
    obtain rfl : s = s' := by simpa [insertNotes] using h
    exact ⟨s.notes, rfl, by simp⟩
  | cons out outs ih =>
    obtain ⟨s₁, h₁, h₂⟩ := bind_eq_ok.1 h
    obtain ⟨notes₁, hi, rfl⟩ := insertNote_ok.1 h₁
    obtain ⟨notes, rfl, hr⟩ := ih h₂
    exact ⟨notes, rfl, by rw [hr, (Table.insert?_eq_some.1 hi).2]; simp⟩

theorem createMint_ok {h pr : Str} {amountMsat : ℤ} {noteId zap username : Option Str}
    (hok : s.createMint now h pr amountMsat noteId zap username = .ok s') :
    noteId.isNone ≠ username.isNone ∧ (∀ id, noteId = some id → s.idInUse id = false) ∧
      ∃ mints, s.mints.insert? ⟨h, pr, amountMsat, false, noteId, zap, none, now, username⟩ =
        some mints ∧ s' = { s with mints } := by
  unfold createMint at hok
  split at hok
  · cases hok
  rename_i hne
  split at hok
  · cases hok
  rename_i hu
  refine ⟨hne, fun id hid => by simpa [hid] using hu, ?_⟩
  split at hok
  · cases hok
  · rename_i mints hm
    exact ⟨mints, hm, (Except.ok.inj hok).symm⟩

/-- The indices from `start` on, up to `index`, whose keys are all in use. -/
def Passed (derive : ℕ → Except Exn (Option Str)) (start index : ℕ) : Prop :=
  start ≤ index ∧ ∀ j pk, start ≤ j → j < index → derive j = .ok (some pk) → s.idInUse pk = true

theorem Passed.refl (derive : ℕ → Except Exn (Option Str)) (index : ℕ) :
    s.Passed derive index index :=
  ⟨Nat.le_refl _, fun j _ hj hj' => absurd hj' (by omega)⟩

/-- One more index in front whose key, if it has one, is in use. -/
theorem Passed.cons {derive : ℕ → Except Exn (Option Str)} {start index : ℕ}
    (h : s.Passed derive (start + 1) index)
    (hstart : ∀ pk, derive start = .ok (some pk) → s.idInUse pk = true) :
    s.Passed derive start index := by
  obtain ⟨hle, hused⟩ := h
  refine ⟨by omega, fun j pk hj hj' hd => ?_⟩
  rcases Nat.eq_or_lt_of_le hj with rfl | hj
  · exact hstart pk hd
  · exact hused j pk hj hj' hd

theorem searchIndex_ok {derive : ℕ → Except Exn (Option Str)} {fuel start : ℕ} {pk : Str}
    {index : ℕ} (h : s.searchIndex derive fuel start = .ok (pk, index)) :
    derive index = .ok (some pk) ∧ s.idInUse pk = false ∧ s.Passed derive start index := by
  induction fuel generalizing start with
  | zero => cases h
  | succ fuel ih =>
    obtain ⟨o, ho, h⟩ := bind_eq_ok.1 h
    cases o with
    | none =>
      obtain ⟨h₁, h₂, h₃⟩ := ih h
      refine ⟨h₁, h₂, h₃.cons fun pk' hd => ?_⟩
      cases ho.symm.trans hd
    | some pk' =>
      simp only at h
      split at h
      · rename_i hused
        obtain ⟨h₁, h₂, h₃⟩ := ih h
        refine ⟨h₁, h₂, h₃.cons fun pk'' hd => ?_⟩
        cases ho.symm.trans hd
        exact hused
      · rename_i hu
        obtain ⟨rfl, rfl⟩ : pk' = pk ∧ start = index := by simpa using h
        exact ⟨ho, by simpa using hu, .refl _ _⟩

/-- Picking a note on a share: a key of the share on file, not in use, and only the index moves. -/
theorem claimIndex_ok {username : Str} {derive : DeriveNote} {pk : Str} {index : ℕ}
    (h : s.claimIndex username derive = .ok ((pk, index), s')) :
    ∃ row, s.usernames.find? username = some row ∧ derive row.cx1 index = .ok (some pk) ∧
      s.idInUse pk = false ∧ s.Passed (derive row.cx1) row.nextIndex index ∧
      s' = { s with usernames :=
        s.usernames.modify username fun r => { r with nextIndex := index + 1 } } := by
  unfold claimIndex at h
  cases hr : s.usernames.find? username with
  | none => simp [hr] at h
  | some row =>
    simp only [hr] at h
    obtain ⟨⟨pk', i⟩, hs, h⟩ := bind_eq_ok.1 h
    obtain ⟨h₁, h₂, h₃⟩ := searchIndex_ok hs
    cases pure_eq_ok.1 h
    exact ⟨row, rfl, h₁, h₂, h₃, rfl⟩

@[simp] theorem idInUse_markMinted (h noteId : Str) :
    (s.markMinted h).idInUse noteId = s.idInUse noteId := by
  unfold idInUse markMinted
  congr 1
  simp only [Table.rows_modify, List.any_map]
  congr 1
  funext m
  simp only [Function.comp]
  split <;> rfl

/-- Settling credits nothing, or the note a mint named, or the next note of the share of the
username it was issued for. -/
theorem settleMint_ok {h : Str} {derive : Option DeriveNote} {out : Option ℤ}
    (hok : s.settleMint now h derive = .ok (out, s')) :
    (out = none ∧ s' = s ∧ ∀ m, s.mints.find? h = some m →
        m.minted = true ∨ m.noteId = none ∧ m.username = none) ∨
      ∃ m notes, s.mints.find? h = some m ∧ m.minted = false ∧ out = some m.amountMsat ∧
        ((∃ id, m.noteId = some id ∧
            s.notes.insert? (newNote now (id, m.amountMsat)) = some notes ∧
            s' = { s.markMinted h with notes }) ∨
          ∃ username derive' pk index row, m.noteId = none ∧ m.username = some username ∧
            derive = some derive' ∧ s.usernames.find? username = some row ∧
            derive' row.cx1 index = .ok (some pk) ∧ s.idInUse pk = false ∧
            s.Passed (derive' row.cx1) row.nextIndex index ∧
            s.notes.insert? (newNote now (pk, m.amountMsat)) = some notes ∧
            s' = { (s.markMinted h).nameMintNote h pk with
              notes
              usernames :=
                s.usernames.modify username fun r => { r with nextIndex := index + 1 } }) := by
  unfold settleMint at hok
  cases hm : s.mints.find? h with
  | none =>
    obtain ⟨rfl, rfl⟩ : none = out ∧ s = s' := by simpa [hm] using hok
    exact .inl ⟨rfl, rfl, by simp⟩
  | some m =>
    simp only [hm] at hok
    split at hok
    · rename_i hmt
      obtain ⟨rfl, rfl⟩ : none = out ∧ s = s' := by simpa using hok
      exact .inl ⟨rfl, rfl, by rintro _ ⟨⟩; exact .inl hmt⟩
    rename_i hmt
    split at hok
    · rename_i hid hu
      obtain ⟨rfl, rfl⟩ : none = out ∧ s = s' := by simpa using hok
      exact .inl ⟨rfl, rfl, by rintro _ ⟨⟩; exact .inr ⟨hid, hu⟩⟩
    · rename_i id hid
      obtain ⟨s₁, h₁, h₂⟩ := bind_eq_ok.1 hok
      cases pure_eq_ok.1 h₂
      obtain ⟨notes, hi, rfl⟩ := insertNote_ok.1 h₁
      exact .inr ⟨m, notes, rfl, by simpa using hmt, rfl, .inl ⟨id, hid, hi, rfl⟩⟩
    · rename_i username hid hu
      cases derive with
      | none => cases hok
      | some derive =>
        obtain ⟨⟨⟨pk, index⟩, s₁⟩, h₁, h₂⟩ := bind_eq_ok.1 hok
        obtain ⟨s₂, h₂, h₃⟩ := bind_eq_ok.1 h₂
        cases pure_eq_ok.1 h₃
        obtain ⟨row, hrow, hd, huse, hpassed, rfl⟩ := claimIndex_ok h₁
        obtain ⟨notes, hi, hs'⟩ := insertNote_ok.1 h₂
        subst hs'
        exact .inr ⟨m, notes, rfl, by simpa using hmt, rfl, .inr ⟨username, derive, pk, index, row,
          hid, hu, rfl, hrow, hd, by simpa using huse, by simpa [Passed] using hpassed, hi, rfl⟩⟩

/-! ## Burning -/

/-- What a swap checked and what it left: the notes it burned were burnable and distinct, the notes
it minted were not in use and distinct, and one burn was recorded. -/
structure Swapped (s s' : NoteStore) (now : ℤ) (burnIds mintNoteIds : List Str)
    (mintAmounts : List ℤ) (toUsername : Option Str) : Prop where
  burn_nodup : burnIds.Nodup
  burnable : ∀ id ∈ burnIds, s.Burnable id
  mint_nodup : mintNoteIds.Nodup
  unused : ∀ id ∈ mintNoteIds, s.idInUse id = false
  left : ∃ notes burns id ids amount amounts, mintNoteIds = id :: ids ∧
    mintAmounts = amount :: amounts ∧
    Table.rows notes =
      (s.burnNotes burnIds).notes.rows ++ (mintNoteIds.zip mintAmounts).map (newNote now) ∧
    s.burns.insert? ⟨burnKey burnIds, id, ids.head?, amount, amounts.head?, toUsername⟩ =
      some burns ∧
    s' = { s with notes, burns }

theorem swapLocked_ok {burnIds mintNoteIds : List Str} {mintAmounts : List ℤ}
    {toUsername : Option Str}
    (h : s.swapLocked now burnIds mintNoteIds mintAmounts toUsername = .ok s') :
    s.Swapped s' now burnIds mintNoteIds mintAmounts toUsername := by
  obtain ⟨hb, h⟩ := check_eq_ok.1 h
  obtain ⟨hm, h⟩ := check_eq_ok.1 h
  obtain ⟨s₁, h₁, h⟩ := bind_eq_ok.1 h
  obtain ⟨hbn, -, hb⟩ := checkBurnIds_ok.1 hb
  obtain ⟨hmn, -, hm⟩ := checkMintIds_ok.1 hm
  obtain ⟨notes, rfl, hr⟩ := insertNotes_ok h₁
  refine ⟨hbn, hb, hmn, hm, ?_⟩
  cases mintNoteIds with
  | nil => cases h
  | cons id ids =>
    cases mintAmounts with
    | nil => cases h
    | cons amount amounts =>
      cases hi : s.burns.insert? ⟨burnKey burnIds, id, ids.head?, amount, amounts.head?,
        toUsername⟩ with
      | none => simp [burnNotes, hi] at h
      | some burns =>
        refine ⟨notes, burns, id, ids, amount, amounts, rfl, rfl, hr, hi, ?_⟩
        simpa [burnNotes, hi, eq_comm] using h

@[simp] theorem reported_eq_ok {α : Type} {context reference : String} {x : Except Exn α} {a : α} :
    reported context reference x = .ok a ↔ x = .ok a := by
  unfold reported
  split <;> simp

/-- An internal transfer picks the next note of the share and swaps into it. -/
theorem transferToUsername_ok {reference : String} {burnIds : List Str} {username pk : Str}
    {amountMsat : ℤ} {derive : DeriveNote}
    (h : s.transferToUsername now reference burnIds username amountMsat derive = .ok (pk, s')) :
    ∃ row index, s.usernames.find? username = some row ∧
      derive row.cx1 index = .ok (some pk) ∧ s.Passed (derive row.cx1) row.nextIndex index ∧
      ({ s with usernames := s.usernames.modify username fun r =>
          { r with nextIndex := index + 1 } } : NoteStore).Swapped s' now burnIds [pk]
        [amountMsat] (some username) := by
  obtain ⟨⟨⟨pk', index⟩, s₁⟩, h₁, h⟩ := bind_eq_ok.1 (reported_eq_ok.1 h)
  obtain ⟨s₂, h₂, h⟩ := bind_eq_ok.1 h
  cases pure_eq_ok.1 h
  obtain ⟨row, hrow, hd, -, hpassed, rfl⟩ := claimIndex_ok h₁
  exact ⟨row, index, hrow, hd, hpassed, swapLocked_ok h₂⟩

theorem markPending_ok {noteIds : List Str} {h : Str} (hok : s.markPending noteIds h = .ok s') :
    (∀ id ∈ noteIds, s.Burnable id) ∧
      s' = { s with notes := s.notes.modifyEach noteIds fun n =>
        { n with pending := true, pendingPaymentHash := some h } } := by
  obtain ⟨hr, hok⟩ := check_eq_ok.1 hok
  exact ⟨checkReservable_ok.1 hr, (pure_eq_ok.1 hok).symm⟩

/-! ## Usernames -/

theorem usernameTaken_eq_false {username : Str} :
    s.usernameTaken now username = false ↔ s.usernames.find? username = none ∧
      ∀ f ∈ s.addressFees.rows, f.holds now username = false := by
  simp [usernameTaken, Option.isSome_eq_false_iff]

theorem acceptKey_ok {xp : Str} :
    s.acceptKey xp = .ok s' ↔
      ∃ acceptedKeys, s.acceptedKeys.insert? xp = some acceptedKeys ∧
        s' = { s with acceptedKeys } := by
  unfold acceptKey
  cases s.acceptedKeys.insert? xp <;> simp [eq_comm]

theorem insertUsername_ok {username cx1 : Str} {nostrPubkey : Option Str} :
    s.insertUsername username cx1 nostrPubkey = .ok s' ↔
      ∃ usernames, s.usernames.insert? ⟨username, cx1, 0, nostrPubkey⟩ = some usernames ∧
        s' = { s with usernames } := by
  unfold insertUsername
  cases s.usernames.insert? ⟨username, cx1, 0, nostrPubkey⟩ <;> simp [eq_comm]

theorem registerUsername_ok {username cx1 xp : Str} {nostrPubkey : Option Str}
    (h : s.registerUsername now username cx1 xp nostrPubkey = .ok s') :
    s.usernameTaken now username = false ∧
      ∃ usernames acceptedKeys, s.acceptedKeys.insert? xp = some acceptedKeys ∧
        s.usernames.insert? ⟨username, cx1, 0, nostrPubkey⟩ = some usernames ∧
        s' = { s with usernames, acceptedKeys } := by
  unfold registerUsername at h
  split at h
  · cases h
  rename_i ht
  obtain ⟨s₁, h₁, h⟩ := bind_eq_ok.1 h
  obtain ⟨acceptedKeys, hk, rfl⟩ := acceptKey_ok.1 h₁
  obtain ⟨usernames, hu, rfl⟩ := insertUsername_ok.1 h
  exact ⟨by simpa using ht, usernames, acceptedKeys, hk, hu, rfl⟩

theorem holdUsername_ok {h pr username cx1 xp : Str} {nostrPubkey : Option Str}
    {amountMsat expiresAt : ℤ}
    (hok : s.holdUsername now h pr username cx1 xp nostrPubkey amountMsat expiresAt = .ok s') :
    s.usernameTaken now username = false ∧
      ∃ addressFees acceptedKeys, s.acceptedKeys.insert? xp = some acceptedKeys ∧
        s.addressFees.insert? ⟨h, pr, username, cx1, nostrPubkey, amountMsat, now, expiresAt,
          false⟩ = some addressFees ∧
        s' = { s with addressFees, acceptedKeys } := by
  unfold holdUsername at hok
  split at hok
  · cases hok
  rename_i ht
  obtain ⟨s₁, h₁, hok⟩ := bind_eq_ok.1 hok
  obtain ⟨acceptedKeys, hk, rfl⟩ := acceptKey_ok.1 h₁
  split at hok
  · cases hok
  · rename_i addressFees hf
    exact ⟨by simpa using ht, addressFees, acceptedKeys, hk, hf, (Except.ok.inj hok).symm⟩

/-- Settling an address fee does nothing, or keeps the fee and registers nobody, or registers the
username that was held. -/
theorem settleAddressFee_ok {h : Str} {out : Option (Str × Bool)}
    (hok : s.settleAddressFee now h = .ok (out, s')) :
    (out = none ∧ s' = s ∧ ∀ f, s.addressFees.find? h = some f → f.paid = true) ∨
      ∃ f, s.addressFees.find? h = some f ∧ f.paid = false ∧
        (out = some (f.username, false) ∧ s' = s.markPaid h ∧
            (s.markPaid h).usernameTaken now f.username = true ∨
          out = some (f.username, true) ∧ (s.markPaid h).usernameTaken now f.username = false ∧
            ∃ usernames, s.usernames.insert? ⟨f.username, f.cx1, 0, f.nostrPubkey⟩ =
              some usernames ∧ s' = { s.markPaid h with usernames }) := by
  unfold settleAddressFee at hok
  cases hf : s.addressFees.find? h with
  | none =>
    obtain ⟨rfl, rfl⟩ : none = out ∧ s = s' := by simpa [hf] using hok
    exact .inl ⟨rfl, rfl, by simp⟩
  | some f =>
    simp only [hf] at hok
    split at hok
    · rename_i hp
      obtain ⟨rfl, rfl⟩ : none = out ∧ s = s' := by simpa using hok
      exact .inl ⟨rfl, rfl, by rintro _ ⟨⟩; exact hp⟩
    rename_i hp
    refine .inr ⟨f, rfl, by simpa using hp, ?_⟩
    split at hok
    · rename_i ht
      cases hok
      exact .inl ⟨rfl, rfl, ht⟩
    · rename_i ht
      obtain ⟨s₁, h₁, hok⟩ := bind_eq_ok.1 hok
      cases pure_eq_ok.1 hok
      obtain ⟨usernames, hu, hs⟩ := insertUsername_ok.1 h₁
      exact .inr ⟨rfl, by simpa using ht, usernames, hu, hs⟩

theorem payAddressFeeWithNotes_ok {burnIds : List Str} {h username : Str} {totalMsat : ℤ}
    (hok : s.payAddressFeeWithNotes now burnIds h totalMsat = .ok (username, s')) :
    burnIds.Nodup ∧ (∀ id ∈ burnIds, s.Burnable id) ∧
      ∃ f usernames, s.addressFees.find? h = some f ∧ f.paid = false ∧ now < f.expiresAt ∧
        f.amountMsat = totalMsat ∧ username = f.username ∧
        (s.markPaid h).usernameTaken now f.username = false ∧
        s.usernames.insert? ⟨f.username, f.cx1, 0, f.nostrPubkey⟩ = some usernames ∧
        s' = ({ s.markPaid h with usernames } : NoteStore).burnNotes burnIds := by
  unfold payAddressFeeWithNotes at hok
  split at hok
  · rename_i hf
    obtain ⟨hb, hok⟩ := check_eq_ok.1 hok
    obtain ⟨hbn, -, hb⟩ := checkBurnIds_ok.1 hb
    obtain ⟨⟨out, s₁⟩, h₁, hok⟩ := bind_eq_ok.1 hok
    refine ⟨hbn, hb, ?_⟩
    rcases settleAddressFee_ok h₁ with
      ⟨rfl, -⟩ | ⟨f, hf', hp, ⟨rfl, -⟩ | ⟨rfl, ht, usernames, hu, rfl⟩⟩
    · cases hok
    · cases hok
    · cases pure_eq_ok.1 hok
      simp only [hf', Option.any_some, Bool.and_eq_true, decide_eq_true_eq] at hf
      exact ⟨f, usernames, hf', hp, hf.1.2, hf.2, rfl, ht, hu, rfl⟩
  · cases hok

theorem updateUsername_ok {username cx1 xp : Str} (h : s.updateUsername username cx1 xp = .ok s') :
    ∃ row acceptedKeys, s.usernames.find? username = some row ∧
      s.acceptedKeys.insert? xp = some acceptedKeys ∧
      s' = { s with
        acceptedKeys
        usernames := s.usernames.modify username fun r => { r with cx1, nextIndex := 0 } } := by
  unfold updateUsername at h
  cases hr : s.usernames.find? username with
  | none => simp [hr] at h
  | some row =>
    simp only [hr, Option.isNone_some, Bool.false_eq_true, if_false] at h
    obtain ⟨s₁, h₁, h⟩ := bind_eq_ok.1 h
    obtain ⟨acceptedKeys, hk, rfl⟩ := acceptKey_ok.1 h₁
    exact ⟨row, acceptedKeys, rfl, hk, (pure_eq_ok.1 h).symm⟩

end NoteStore

/-! ## All transactions at once -/

/-- A method that returns left the store of its transaction; one that raised left it alone. -/
theorem Update.run_eq_some {i : Input} {s s' : NoteStore} {u : Update} {r : Except Exn u.Out} :
    u.run i s = some (r, s') ↔
      (∃ out, r = .ok out ∧ u.apply i s = .ok (out, s')) ∨
        ∃ e, r = .error e ∧ u.apply i s = .error e ∧ e ≠ .hangs ∧ s' = s := by
  unfold Update.run
  cases h : u.apply i s with
  | ok x =>
    obtain ⟨out, s₁⟩ := x
    simp only [Option.some.injEq, Prod.mk.injEq, Except.ok.injEq, reduceCtorEq, false_and,
      and_false, exists_false, or_false]
    exact ⟨fun ⟨h₁, h₂⟩ => ⟨out, h₁.symm, rfl, h₂⟩, fun ⟨_, h₁, h₂, h₃⟩ => ⟨by rw [h₁, h₂], h₃⟩⟩
  | error e => cases e <;> simp [eq_comm]

/-- A property of stores that every transaction keeps is kept by every method. -/
theorem Update.run_induct {P : NoteStore → Prop} {i : Input} {s s' : NoteStore} {u : Update}
    {r : Except Exn u.Out} (h : u.run i s = some (r, s')) (hs : P s)
    (hok : ∀ out, u.apply i s = .ok (out, s') → P s') : P s' := by
  rcases Update.run_eq_some.1 h with ⟨out, -, ho⟩ | ⟨-, -, -, -, rfl⟩
  exacts [hok out ho, hs]

/-! ## Sequences of methods -/

/-- What happens to a store: a method at its time, or the database is opened again. -/
inductive StoreOp
  | method (i : Input) (u : Update)
  | reopen

/-- When it happens, if it reads the clock. -/
def StoreOp.time? : StoreOp → Option ℤ
  | method i _ => some i.now
  | reopen => none

/-- The store it leaves, unless it never returns. -/
def StoreOp.run (s : NoteStore) : StoreOp → Option NoteStore
  | method i u => (u.run i s).map Prod.snd
  | reopen => some s.reopen

theorem StoreOp.run_method {s s' : NoteStore} {i : Input} {u : Update} :
    (method i u).run s = some s' ↔ ∃ r, u.run i s = some (r, s') := by
  simp [StoreOp.run]

namespace NoteStore

variable {s s' : NoteStore}

/-- The store after a sequence of these. -/
def steps (s : NoteStore) : List StoreOp → Option NoteStore
  | [] => some s
  | op :: ops => (op.run s).bind fun s => s.steps ops

theorem steps_append {ops ops' : List StoreOp} :
    s.steps (ops ++ ops') = (s.steps ops).bind fun s => s.steps ops' := by
  induction ops generalizing s with
  | nil => rfl
  | cons op ops ih =>
    simp only [List.cons_append, steps, Option.bind_assoc]
    exact congrArg _ (funext fun _ => ih)

/-- What each of them keeps, a sequence of them keeps. -/
theorem steps_induct {P : NoteStore → Prop} {ops : List StoreOp}
    (hstep : ∀ op ∈ ops, ∀ {s s'}, P s → op.run s = some s' → P s') (hs : P s)
    (h : s.steps ops = some s') : P s' := by
  induction ops generalizing s with
  | nil => cases h; exact hs
  | cons op ops ih =>
    obtain ⟨s₁, h₁, h₂⟩ := Option.bind_eq_some_iff.1 h
    exact ih (fun op' hop => hstep op' (List.mem_cons_of_mem _ hop))
      (hstep op List.mem_cons_self hs h₁) h₂

end NoteStore

end LnurlMint
