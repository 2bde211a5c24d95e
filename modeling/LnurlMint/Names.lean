import LnurlMint.Transactions
import Mathlib.Data.List.Induction

/-!
# Who holds a name

A username is taken by a row of `usernames`, or by an address fee that is unpaid and has not
expired. The two live in different tables and the second kind ends by itself, so that a name has
one owner is a statement about a store and a time. It survives the passing of time, and every
transaction keeps it at the time it reads.

`NamesStep` says once what any transaction can do to usernames, address fees and accepted keys.

## Main definitions

* `Update.filed`, `NamesStep` — the share a transaction puts on file, and what it does to names
* `NoteStore.OneOwner` — the invariant, at a time

## Main results

* `Update.namesStep`
* `NoteStore.OneOwner.step`, `NoteStore.OneOwner.mono`
* `NoteStore.one_owner` — one owner per name, over every sequence of methods
-/

namespace LnurlMint

open Relational

/-- The payment hash of the address fee that a method settles. -/
def Update.settles : Update → Option Str
  | settleAddressFee h | payAddressFeeWithNotes _ h _ => some h
  | _ => none

/-- How a method derives the notes of a share. -/
def Update.derives : Update → Option DeriveNote
  | settleMint _ derive => derive
  | transferToUsername _ _ _ derive => some derive
  | _ => none

/-- The share that a method put on file. -/
def Update.filed (s : NoteStore) : (u : Update) → u.Out → Option Str
  | registerUsername _ cx1 .., _ | updateUsername _ cx1 _, _ => some cx1
  | settleAddressFee h, some (_, true) => (s.addressFees.find? h).map FeeRow.cx1
  | payAddressFeeWithNotes _ h _, _ => (s.addressFees.find? h).map FeeRow.cx1
  | _, _ => none

/-- What a transaction does to usernames, address fees and accepted keys, and the share it puts on
file. -/
inductive NamesStep (now : ℤ) (u : Update) (filed : Option Str) (s s' : NoteStore) : Prop
  /-- Nothing. -/
  | keep (hn : s'.usernames = s.usernames) (hf : s'.addressFees = s.addressFees)
      (hk : s'.acceptedKeys = s.acceptedKeys) (hc : filed = none)
  /-- The next note of a share is picked and added, past others that are in use. -/
  | advance (username : Str) (index : ℕ)
      (hn : s'.usernames = s.usernames.modify username fun r => { r with nextIndex := index + 1 })
      (hf : s'.addressFees = s.addressFees) (hk : s'.acceptedKeys = s.acceptedKeys)
      (hc : filed = none) (row : UsernameRow) (derive : DeriveNote) (pk : Str) (n : NoteRow)
      (hg : s.usernames.find? username = some row) (hd : u.derives = some derive)
      (hpk : derive row.cx1 index = .ok (some pk))
      (hpassed : s.Passed (derive row.cx1) row.nextIndex index)
      (hadded : s'.notes.find? pk = some n)
  /-- A free name is registered. -/
  | register (username cx1 xp : Str) (nostrPubkey : Option Str)
      (hu : u = .registerUsername username cx1 xp nostrPubkey)
      (ht : s.usernameTaken now username = false)
      (hn : s.usernames.insert? ⟨username, cx1, 0, nostrPubkey⟩ = some s'.usernames)
      (hf : s'.addressFees = s.addressFees) (hk : s.acceptedKeys.insert? xp = some s'.acceptedKeys)
      (hc : filed = some cx1)
  /-- A free name is held. -/
  | hold (f : FeeRow) (xp : Str) (hp : f.paid = false)
      (hu : u = .holdUsername f.paymentHash f.pr f.username f.cx1 xp f.nostrPubkey f.amountMsat
        f.expiresAt)
      (ht : s.usernameTaken now f.username = false) (hn : s'.usernames = s.usernames)
      (hf : s.addressFees.insert? f = some s'.addressFees)
      (hk : s.acceptedKeys.insert? xp = some s'.acceptedKeys) (hc : filed = none)
  /-- A fee is paid for a name that is taken. -/
  | lapse (f : FeeRow) (hp : f.paid = false) (hu : u.settles = some f.paymentHash)
      (hg : s.addressFees.find? f.paymentHash = some f)
      (ht : (s.markPaid f.paymentHash).usernameTaken now f.username = true)
      (hn : s'.usernames = s.usernames)
      (hf : s'.addressFees = (s.markPaid f.paymentHash).addressFees)
      (hk : s'.acceptedKeys = s.acceptedKeys) (hc : filed = none)
  /-- A fee is paid and its name registered. -/
  | settle (f : FeeRow) (hp : f.paid = false) (hu : u.settles = some f.paymentHash)
      (hg : s.addressFees.find? f.paymentHash = some f)
      (ht : (s.markPaid f.paymentHash).usernameTaken now f.username = false)
      (hn : s.usernames.insert? ⟨f.username, f.cx1, 0, f.nostrPubkey⟩ = some s'.usernames)
      (hf : s'.addressFees = (s.markPaid f.paymentHash).addressFees)
      (hk : s'.acceptedKeys = s.acceptedKeys) (hc : filed = some f.cx1)
  /-- A name is moved to another share. -/
  | update (username cx1 xp : Str) (row : UsernameRow) (hu : u = .updateUsername username cx1 xp)
      (hg : s.usernames.find? username = some row)
      (hn : s'.usernames = s.usernames.modify username fun r => { r with cx1, nextIndex := 0 })
      (hf : s'.addressFees = s.addressFees) (hk : s.acceptedKeys.insert? xp = some s'.acceptedKeys)
      (hc : filed = some cx1)
  /-- A name is freed. -/
  | delete (username : Str) (hu : u = .deleteUsername username)
      (hn : s'.usernames = s.usernames.erase username)
      (hf : s'.addressFees = s.addressFees) (hk : s'.acceptedKeys = s.acceptedKeys)
      (hc : filed = none)

open NoteStore in
theorem Update.namesStep {i : Input} {s s' : NoteStore} {u : Update} {out : u.Out}
    (h : u.apply i s = .ok (out, s')) : NamesStep i.now u (u.filed s out) s s' := by
  cases u with
  | createMint =>
    obtain ⟨s₁, h, he⟩ := map_eq_ok.1 h
    cases he
    obtain ⟨-, -, mints, -, rfl⟩ := createMint_ok h
    exact .keep rfl rfl rfl rfl
  | settleMint =>
    rcases settleMint_ok h with ⟨-, rfl, -⟩ |
      ⟨m, notes, -, -, -, ⟨id, -, hi, rfl⟩ |
        ⟨username, derive, pk, index, row, -, -, rfl, hrow, hd, -, hpassed, hi, rfl⟩⟩
    · exact .keep rfl rfl rfl rfl
    · exact .keep rfl rfl rfl rfl
    · exact .advance username index rfl rfl rfl rfl row derive pk _ hrow rfl hd hpassed
        ((Table.find?_insert? hi pk).trans (if_pos rfl))
  | swap =>
    obtain ⟨s₁, h, he⟩ := map_eq_ok.1 h
    cases he
    obtain ⟨_, _, _, _, _, _, -, -, -, -, rfl⟩ := (swapLocked_ok (reported_eq_ok.1 h)).left
    exact .keep rfl rfl rfl rfl
  | transferToUsername burnIds username amountMsat derive =>
    obtain ⟨row, index, hrow, hd, hpassed, h⟩ := transferToUsername_ok h
    obtain ⟨_, _, _, _, _, _, -, -, hr, -, rfl⟩ := h.left
    refine .advance username index rfl rfl rfl rfl row derive out (newNote i.now (out, amountMsat))
      hrow rfl hd hpassed (Table.find?_eq_some.2 ⟨?_, rfl⟩)
    rw [hr]
    exact List.mem_append_right _ List.mem_cons_self
  | markPending =>
    obtain ⟨s₁, h, he⟩ := map_eq_ok.1 h
    cases he
    obtain ⟨-, rfl⟩ := markPending_ok h
    exact .keep rfl rfl rfl rfl
  | registerUsername username cx1 xp nostrPubkey =>
    obtain ⟨s₁, h, he⟩ := map_eq_ok.1 h
    cases he
    obtain ⟨ht, usernames, keys, hk, hu, rfl⟩ := registerUsername_ok h
    exact .register username cx1 xp nostrPubkey rfl ht hu rfl hk rfl
  | holdUsername h pr username cx1 xp npub amount expiresAt =>
    obtain ⟨s₁, h, he⟩ := map_eq_ok.1 h
    cases he
    obtain ⟨ht, fees, keys, hk, hf, rfl⟩ := holdUsername_ok h
    exact .hold _ xp rfl rfl ht rfl hf hk rfl
  | settleAddressFee hash =>
    rcases settleAddressFee_ok h with
      ⟨rfl, rfl, -⟩ | ⟨f, hg, hp, ⟨rfl, rfl, ht⟩ | ⟨rfl, ht, us, hn, rfl⟩⟩
    · exact .keep rfl rfl rfl rfl
    all_goals obtain rfl := Table.key_of_find? hg
    · exact .lapse f hp rfl hg ht rfl rfl rfl rfl
    · exact .settle f hp rfl hg ht hn rfl rfl (by simp [filed, hg])
  | payAddressFeeWithNotes burnIds hash total =>
    obtain ⟨-, -, f, us, hg, hp, -, -, -, ht, hn, rfl⟩ := payAddressFeeWithNotes_ok h
    obtain rfl := Table.key_of_find? hg
    exact .settle f hp rfl hg ht hn rfl rfl (by simp [filed, hg])
  | updateUsername username cx1 xp =>
    obtain ⟨s₁, h, he⟩ := map_eq_ok.1 h
    cases he
    obtain ⟨row, keys, hg, hk, rfl⟩ := updateUsername_ok h
    exact .update username cx1 xp row rfl hg rfl rfl hk rfl
  | deleteUsername username => cases h; exact .delete username rfl rfl rfl rfl rfl
  | _ => cases h; exact .keep rfl rfl rfl rfl

theorem FeeRow.holds_eq_true {now : ℤ} {username : Str} {f : FeeRow} :
    f.holds now username = true ↔ f.username = username ∧ f.paid = false ∧ now < f.expiresAt := by
  simp [holds, and_assoc]

namespace NoteStore

variable {s s' : NoteStore} {now t t' : ℤ} {u : Update} {filed : Option Str}

/-- At time `t`, no name has two owners: a name that is held is not registered, and has one hold. -/
structure OneOwner (s : NoteStore) (t : ℤ) : Prop where
  free : ∀ f ∈ s.addressFees.rows, ∀ name, f.holds t name = true →
    s.usernames.find? name = none
  unique : ∀ f ∈ s.addressFees.rows, ∀ f' ∈ s.addressFees.rows, ∀ name,
    f.holds t name = true → f'.holds t name = true → f = f'

theorem OneOwner.empty (t : ℤ) : NoteStore.empty.OneOwner t where
  free := by simp [NoteStore.empty]
  unique := by simp [NoteStore.empty]

/-- A hold ends by itself and never begins so. -/
theorem OneOwner.mono (h : s.OneOwner t) (ht : t ≤ t') : s.OneOwner t' := by
  have held : ∀ {f : FeeRow} {name}, f.holds t' name = true → f.holds t name = true := by
    intro f name hf
    obtain ⟨hn, hp, he⟩ := FeeRow.holds_eq_true.1 hf
    exact FeeRow.holds_eq_true.2 ⟨hn, hp, by omega⟩
  exact ⟨fun f hf name hh => h.free f hf name (held hh),
    fun f hf f' hf' name hh hh' => h.unique f hf f' hf' name (held hh) (held hh')⟩

/-- Every name on file after a rewrite of one row was on file before. -/
theorem find?_modify_eq_none {us : Table UsernameRow.username} {username name : Str}
    {g : UsernameRow → UsernameRow} {hg} (h : us.find? name = none) :
    (us.modify username g hg).find? name = none := by
  rw [Table.find?_modify, h]
  rfl

/-- A fee that still holds after one was marked paid is another one, as it was. -/
theorem holds_markPaid {h : Str} {f : FeeRow} {name : Str}
    (hf : f ∈ (s.markPaid h).addressFees.rows) (hh : f.holds t name = true) :
    f ∈ s.addressFees.rows ∧ f.paymentHash ≠ h := by
  obtain ⟨f₀, hf₀, rfl⟩ := List.mem_map.1 hf
  split at hh
  · simp [FeeRow.holds] at hh
  · rename_i hne
    exact ⟨by simpa [hne] using hf₀, by simp [hne]⟩

/-- **Every transaction keeps the invariant at its time.** -/
theorem OneOwner.step (h : s.OneOwner now) (hs : NamesStep now u filed s s') : s'.OneOwner now := by
  cases hs with
  | keep hn hf hk => exact ⟨hf ▸ hn ▸ h.free, hf ▸ h.unique⟩
  | advance username index hn hf hk =>
    refine ⟨fun f hf' name hh => ?_, hf ▸ h.unique⟩
    rw [hn]
    exact find?_modify_eq_none (h.free f (hf ▸ hf') name hh)
  | register username cx1 xp npub hu ht hn hf hk =>
    refine ⟨fun f hf' name hh => ?_, hf ▸ h.unique⟩
    rw [Table.find?_insert? hn, if_neg, h.free f (hf ▸ hf') name hh]
    rintro rfl
    simp [(usernameTaken_eq_false.1 ht).2 f (hf ▸ hf')] at hh
  | hold f xp hp hu ht hn hf hk =>
    have hnew : ∀ {f'}, f' ∈ s'.addressFees.rows → ∀ {name}, f'.holds now name = true →
        f' ∈ s.addressFees.rows ∧ name ≠ f.username ∨ f' = f ∧ name = f.username := by
      intro f' hf' name hh
      rcases (Table.mem_insert? hf).1 hf' with hf' | rfl
      · refine .inl ⟨hf', ?_⟩
        rintro rfl
        simp [(usernameTaken_eq_false.1 ht).2 f' hf'] at hh
      · exact .inr ⟨rfl, (FeeRow.holds_eq_true.1 hh).1.symm⟩
    refine ⟨fun f' hf' name hh => ?_, fun f₁ hf₁ f₂ hf₂ name hh₁ hh₂ => ?_⟩
    · rw [hn]
      rcases hnew hf' hh with ⟨hf', -⟩ | ⟨rfl, rfl⟩
      exacts [h.free f' hf' name hh, (usernameTaken_eq_false.1 ht).1]
    · rcases hnew hf₁ hh₁ with ⟨hf₁, hn₁⟩ | ⟨rfl, hn₁⟩ <;>
        rcases hnew hf₂ hh₂ with ⟨hf₂, hn₂⟩ | ⟨rfl, hn₂⟩
      · exact h.unique f₁ hf₁ f₂ hf₂ name hh₁ hh₂
      · exact absurd hn₂ hn₁
      · exact absurd hn₁ hn₂
      · rfl
  | lapse f hp hu hg ht hn hf hk =>
    refine ⟨fun f' hf' name hh => ?_, fun f₁ hf₁ f₂ hf₂ name hh₁ hh₂ => ?_⟩
    · rw [hn]
      exact h.free f' (holds_markPaid (hf ▸ hf') hh).1 name hh
    · exact h.unique f₁ (holds_markPaid (hf ▸ hf₁) hh₁).1 f₂ (holds_markPaid (hf ▸ hf₂) hh₂).1
        name hh₁ hh₂
  | settle f hp hu hg ht hn hf hk =>
    refine ⟨fun f' hf' name hh => ?_, fun f₁ hf₁ f₂ hf₂ name hh₁ hh₂ => ?_⟩
    · rw [Table.find?_insert? hn, if_neg, h.free f' (holds_markPaid (hf ▸ hf') hh).1 name hh]
      rintro rfl
      simp [(usernameTaken_eq_false.1 ht).2 f' (hf ▸ hf')] at hh
    · exact h.unique f₁ (holds_markPaid (hf ▸ hf₁) hh₁).1 f₂ (holds_markPaid (hf ▸ hf₂) hh₂).1
        name hh₁ hh₂
  | update username cx1 xp row hu hg hn hf hk =>
    refine ⟨fun f hf' name hh => ?_, hf ▸ h.unique⟩
    rw [hn]
    exact find?_modify_eq_none (h.free f (hf ▸ hf') name hh)
  | delete username hu hn hf hk =>
    refine ⟨fun f hf' name hh => ?_, hf ▸ h.unique⟩
    rw [hn, Table.find?_erase]
    split
    exacts [rfl, h.free f (hf ▸ hf') name hh]

theorem OneOwner.steps {ops : List StoreOp} (h : ∀ t, s.OneOwner t)
    (hclock : (ops.filterMap StoreOp.time?).Pairwise (· ≤ ·)) (hs : s.steps ops = some s')
    (ht : ∀ t' ∈ ops.filterMap StoreOp.time?, t' ≤ t) : s'.OneOwner t := by
  induction ops using List.reverseRecOn generalizing s' t with
  | nil => cases hs; exact h t
  | append_singleton ops op ih =>
    rw [steps_append] at hs
    obtain ⟨s₁, h₁, h₂⟩ := Option.bind_eq_some_iff.1 hs
    have hop : op.run s₁ = some s' := by simpa [NoteStore.steps] using h₂
    rw [List.filterMap_append, List.pairwise_append] at hclock
    rw [List.filterMap_append] at ht
    cases op with
    | reopen =>
      have h₁ := ih hclock.1 h₁ fun t' ht' => ht t' (List.mem_append_left _ ht')
      cases hop
      exact ⟨h₁.free, h₁.unique⟩
    | method i u =>
      obtain ⟨r, hr⟩ := StoreOp.run_method.1 hop
      -- the method's time is the latest so far, and `t` is no earlier
      have h₁ : s₁.OneOwner i.now := ih hclock.1 h₁ fun t' ht' =>
        hclock.2.2 t' ht' i.now List.mem_cons_self
      have h₂ : s'.OneOwner i.now :=
        Update.run_induct (P := fun s => s.OneOwner i.now) hr h₁ fun _ ho =>
          h₁.step (Update.namesStep ho)
      exact h₂.mono (ht i.now (List.mem_append_right _ List.mem_cons_self))

/-- A registration stays, with its owner, until it is moved or freed by name. -/
theorem registration_kept {name : Str} {row : UsernameRow} (hs : NamesStep now u filed s s')
    (h : s.usernames.find? name = some row) (hd : u ≠ .deleteUsername name) :
    ∃ row', s'.usernames.find? name = some row' ∧ row'.nostrPubkey = row.nostrPubkey ∧
      (row'.cx1 = row.cx1 ∨ ∃ xp, u = .updateUsername name row'.cx1 xp) := by
  cases hs with
  | keep hn => exact ⟨row, hn ▸ h, rfl, .inl rfl⟩
  | advance username index hn =>
    rw [hn, Table.find?_modify, h]
    exact ⟨_, rfl, by split <;> rfl, .inl (by split <;> rfl)⟩
  | register _ _ _ _ _ _ hn => exact ⟨row, Table.find?_of_insert? hn h, rfl, .inl rfl⟩
  | hold _ _ _ _ _ hn => exact ⟨row, hn ▸ h, rfl, .inl rfl⟩
  | lapse _ _ _ _ _ hn => exact ⟨row, hn ▸ h, rfl, .inl rfl⟩
  | settle _ _ _ _ _ hn => exact ⟨row, Table.find?_of_insert? hn h, rfl, .inl rfl⟩
  | update username cx1 xp _ hu _ hn =>
    rw [hn, Table.find?_modify, h]
    by_cases he : name = username
    · subst he
      exact ⟨_, rfl, by simp, .inr ⟨xp, by simpa using hu⟩⟩
    · exact ⟨_, rfl, by simp [he], .inl (by simp [he])⟩
  | delete username hu hn =>
    refine ⟨row, ?_, rfl, .inl rfl⟩
    rw [hn, Table.find?_erase, if_neg, h]
    rintro rfl
    exact hd hu

/-- While a hold stands, the name is registered by nothing but the payment of its own fee, and no
other fee is added for it. -/
theorem hold_kept {f : FeeRow} {name : Str} (hs : NamesStep now u filed s s') (h : s.OneOwner now)
    (hf : f ∈ s.addressFees.rows) (hh : f.holds now name = true) :
    (s'.usernames.find? name ≠ none → u.settles = some f.paymentHash) ∧
      ∀ f' ∈ s'.addressFees.rows, f'.username = name →
        s.addressFees.find? f'.paymentHash ≠ none := by
  have hnone := h.free f hf name hh
  have taken : ∀ {username}, s.usernameTaken now username = false → name ≠ username := by
    rintro _ ht rfl
    simp [(usernameTaken_eq_false.1 ht).2 f hf] at hh
  have old : ∀ f' ∈ s.addressFees.rows, f'.username = name →
      s.addressFees.find? f'.paymentHash ≠ none := fun f' hf' _ => by
    simp [Table.find?_of_mem hf']
  have old' : ∀ hash, ∀ f' ∈ (s.markPaid hash).addressFees.rows, f'.username = name →
      s.addressFees.find? f'.paymentHash ≠ none := fun hash f' hf' _ => by
    obtain ⟨f₀, hf₀, rfl⟩ := List.mem_map.1 hf'
    have : (if f₀.paymentHash = hash then { f₀ with paid := true } else f₀).paymentHash =
        f₀.paymentHash := by split <;> rfl
    simp [this, Table.find?_of_mem hf₀]
  cases hs with
  | keep hn hf' => exact ⟨fun hr => absurd (hn ▸ hnone) hr, hf' ▸ old⟩
  | advance username index hn hf' =>
    exact ⟨fun hr => absurd (by rw [hn]; exact find?_modify_eq_none hnone) hr, hf' ▸ old⟩
  | register username _ _ _ _ ht hn hf' =>
    refine ⟨fun hr => absurd ?_ hr, hf' ▸ old⟩
    rw [Table.find?_insert? hn, if_neg (taken ht).symm, hnone]
  | hold f' xp hp hu ht hn hf' =>
    refine ⟨fun hr => absurd (hn ▸ hnone) hr, fun f₁ hf₁ hname => ?_⟩
    rcases (Table.mem_insert? hf').1 hf₁ with hf₁ | rfl
    exacts [old f₁ hf₁ hname, absurd hname.symm (taken ht)]
  | lapse f' hp hu hg ht hn hf' => exact ⟨fun hr => absurd (hn ▸ hnone) hr, hf' ▸ old' _⟩
  | settle f' hp hu hg ht hn hf' =>
    refine ⟨fun hr => ?_, hf' ▸ old' _⟩
    rw [Table.find?_insert? hn] at hr
    by_cases he : f'.username = name
    · -- the fee that was paid is the one that holds the name
      subst he
      have hne : f.paymentHash = f'.paymentHash := by
        by_contra hne
        have hm : f ∈ (s.markPaid f'.paymentHash).addressFees.rows :=
          List.mem_map.2 ⟨f, hf, by simp [hne]⟩
        simp [(usernameTaken_eq_false.1 ht).2 f hm] at hh
      rw [hu, hne]
    · exact absurd (by simp [he, hnone]) hr
  | update username cx1 xp row hu hg hn hf' =>
    exact ⟨fun hr => absurd (by rw [hn]; exact find?_modify_eq_none hnone) hr, hf' ▸ old⟩
  | delete username hu hn hf' =>
    exact ⟨fun hr => absurd (by rw [hn, Table.find?_erase]; split <;> simp [hnone]) hr, hf' ▸ old⟩

/-- A fee that is still unexpired finds its name free. -/
theorem OneOwner.free_markPaid {f : FeeRow} (h : s.OneOwner now)
    (hg : s.addressFees.find? f.paymentHash = some f) (hp : f.paid = false)
    (he : now < f.expiresAt) :
    (s.markPaid f.paymentHash).usernameTaken now f.username = false := by
  have hh : f.holds now f.username = true := FeeRow.holds_eq_true.2 ⟨rfl, hp, he⟩
  have hf := Table.mem_of_find? hg
  refine usernameTaken_eq_false.2 ⟨h.free f hf _ hh, fun f' hf' => ?_⟩
  by_contra hc
  have hc : f'.holds now f.username = true := by simpa using hc
  obtain ⟨hf', hne⟩ := holds_markPaid hf' hc
  exact hne (congrArg _ (h.unique f' hf' f hf _ hc hh))

/-- A fee seen paid in time registers its name. -/
theorem OneOwner.settleAddressFee {hash : Str} {f : FeeRow} (h : s.OneOwner now)
    (hg : s.addressFees.find? hash = some f) (hp : f.paid = false) (he : now < f.expiresAt) :
    ∃ s', s.settleAddressFee now hash = .ok (some (f.username, true), s') ∧
      s'.usernames.find? f.username = some ⟨f.username, f.cx1, 0, f.nostrPubkey⟩ := by
  obtain rfl := Table.key_of_find? hg
  have ht := h.free_markPaid hg hp he
  have hnone := (usernameTaken_eq_false.1 ht).1
  cases hi : s.usernames.insert? ⟨f.username, f.cx1, 0, f.nostrPubkey⟩ with
  | none => exact absurd hnone (Table.insert?_eq_none.1 hi)
  | some usernames =>
    refine ⟨{ s.markPaid f.paymentHash with usernames }, ?_, ?_⟩
    · have hins : (s.markPaid f.paymentHash).insertUsername f.username f.cx1 f.nostrPubkey =
          .ok { s.markPaid f.paymentHash with usernames } := insertUsername_ok.2 ⟨_, hi, rfl⟩
      simp [NoteStore.settleAddressFee, hg, hp, ht, hins, bind, Except.bind, pure, Except.pure]
    · exact (Table.find?_insert? hi _).trans (if_pos rfl)

/-- **One owner per address**, over every sequence of methods whose times do not decrease.

At any time from the last method on, a name that is held is not registered and has that one hold.
Whatever method comes next, a registration is only moved by an update and only removed by a
deletion, and a name that is held is registered by no method but the settlement of its own fee and
gets no other hold. A fee settled before it expires registers its name, so one that is settled and
registers nobody has expired. -/
theorem one_owner {ops : List StoreOp} {s : NoteStore} {t : ℤ}
    (hclock : (ops.filterMap StoreOp.time?).Pairwise (· ≤ ·))
    (hs : NoteStore.empty.steps ops = some s) (ht : ∀ t' ∈ ops.filterMap StoreOp.time?, t' ≤ t) :
    (∀ f ∈ s.addressFees.rows, ∀ name, f.holds t name = true →
      s.usernames.find? name = none ∧
      ∀ f' ∈ s.addressFees.rows, f'.holds t name = true → f' = f) ∧
    (∀ u reference r s', Update.run ⟨t, reference⟩ s u = some (r, s') →
      (∀ name row, s.usernames.find? name = some row → u ≠ .deleteUsername name →
        ∃ row', s'.usernames.find? name = some row' ∧ row'.nostrPubkey = row.nostrPubkey ∧
          (row'.cx1 = row.cx1 ∨ ∃ xp, u = .updateUsername name row'.cx1 xp)) ∧
      ∀ f ∈ s.addressFees.rows, ∀ name, f.holds t name = true →
        (s'.usernames.find? name ≠ none → u.settles = some f.paymentHash) ∧
        ∀ f' ∈ s'.addressFees.rows, f'.username = name →
          s.addressFees.find? f'.paymentHash ≠ none) ∧
    (∀ hash f, s.addressFees.find? hash = some f → f.paid = false → t < f.expiresAt →
      (∃ s', s.settleAddressFee t hash = .ok (some (f.username, true), s') ∧
        s'.usernames.find? f.username = some ⟨f.username, f.cx1, 0, f.nostrPubkey⟩) ∧
      ∀ burnIds, burnIds.Nodup → (∀ id ∈ burnIds, s.Burnable id) →
        ∃ s', s.payAddressFeeWithNotes t burnIds hash f.amountMsat = .ok (f.username, s') ∧
          s'.usernames.find? f.username = some ⟨f.username, f.cx1, 0, f.nostrPubkey⟩) ∧
    (∀ hash name s', s.settleAddressFee t hash = .ok (some (name, false), s') →
      ∃ f, s.addressFees.find? hash = some f ∧ f.username = name ∧ f.expiresAt ≤ t) := by
  have ho : s.OneOwner t := OneOwner.steps OneOwner.empty hclock hs ht
  refine ⟨fun f hf name hh => ⟨ho.free f hf name hh, fun f' hf' hh' =>
      ho.unique f' hf' f hf name hh' hh⟩, fun u reference r s' h => ?_,
    fun hash f hg hp he => ⟨ho.settleAddressFee hg hp he, fun burnIds hd hb => ?_⟩,
    fun hash name s' h => ?_⟩
  · obtain ⟨filed, hn⟩ : ∃ filed, NamesStep t u filed s s' :=
      Update.run_induct (P := fun s' => ∃ filed, NamesStep t u filed s s') h
        ⟨_, .keep rfl rfl rfl rfl⟩ fun _ ho => ⟨_, Update.namesStep ho⟩
    exact ⟨fun name row hr hd => registration_kept hn hr hd,
      fun f hf name hh => hold_kept hn ho hf hh⟩
  · obtain ⟨s', h, hr⟩ := ho.settleAddressFee hg hp he
    refine ⟨s'.burnNotes burnIds, ?_, hr⟩
    have hb : s.checkBurnIds [] burnIds = .ok () := checkBurnIds_ok.2 ⟨hd, by simp, hb⟩
    simp [payAddressFeeWithNotes, hg, hp, he, hb, h, bind, Except.bind, pure, Except.pure]
  · rcases settleAddressFee_ok h with ⟨ho', -⟩ | ⟨f, hg, hp, ⟨ho', -⟩ | ⟨ho', -⟩⟩
    · cases ho'
    · obtain rfl : name = f.username := by simpa using ho'
      refine ⟨f, hg, rfl, not_lt.1 fun he => ?_⟩
      obtain ⟨s₂, h₂, -⟩ := ho.settleAddressFee hg hp he
      simp [h] at h₂
    · simp at ho'

/-- A name is held from time 0 to time 10. -/
def hold : List StoreOp :=
  [.method ⟨0, ""⟩
    (.holdUsername "h".toList "i".toList "alice".toList "c".toList "x".toList none 5 10)]

theorem one_owner_hold : ∃ s, NoteStore.empty.steps hold = some s ∧
    ∃ s', s.settleAddressFee 5 "h".toList = .ok (some ("alice".toList, true), s') := by
  obtain ⟨-, -, h, -⟩ := @one_owner hold _ 5 (List.pairwise_singleton _ _) rfl (by decide)
  exact ⟨_, rfl, ((h "h".toList _ rfl rfl (by decide)).1).imp fun _ h => h.1⟩

end NoteStore

end LnurlMint
