import LnurlMint.AddressFees
import LnurlMint.Attempts

/-!
# What stays on record

An invoice that the mint issued or paid stays on record for good, under the same payment hash and
with the same text, and one that is settled stays settled. So what was read of it once may be relied
on at any time after.

## Main definitions

* `NoteStore.Retains`

## Main results

* `Update.retains`, `Follows.retains` — no transaction and no restart takes it back
-/

namespace LnurlMint

open Interleave Relational

/-- A mint goes on: it is of the same invoice, and as settled, and as much known of its note. -/
structure MintRow.Persists (m m' : MintRow) : Prop where
  pr : m'.pr = m.pr
  zapRequest : m'.zapRequest = m.zapRequest
  minted : m.minted = true → m'.minted = true
  named : m.noteId.isSome = true ∨ m.username.isSome = true →
    m'.noteId.isSome = true ∨ m'.username.isSome = true

theorem MintRow.Persists.refl (m : MintRow) : m.Persists m := ⟨rfl, rfl, id, id⟩

theorem MintRow.Persists.trans {m m' m'' : MintRow} (h : m.Persists m') (h' : m'.Persists m'') :
    m.Persists m'' :=
  ⟨h'.pr.trans h.pr, h'.zapRequest.trans h.zapRequest, h'.minted ∘ h.minted, h'.named ∘ h.named⟩

namespace NoteStore

variable {s s' s'' : NoteStore} {now : ℤ} {u : Update} {hash : Str}

/-- `s'` came from `s`: every invoice is still on record, and settled if it was. -/
structure Retains (s s' : NoteStore) : Prop where
  mint : ∀ {hash m}, s.mints.find? hash = some m →
    ∃ m', s'.mints.find? hash = some m' ∧ m.Persists m'
  fee : ∀ {hash f}, s.addressFees.find? hash = some f → ∃ f', s'.addressFees.find? hash = some f' ∧
    f'.pr = f.pr ∧ (f.paid = true → f'.paid = true)
  melt : ∀ {hash m}, s.melts.find? hash = some m → ∃ m', s'.melts.find? hash = some m' ∧
    m'.pr = m.pr ∧ (m.settled = true → m'.settled = true)

theorem Retains.refl (s : NoteStore) : s.Retains s :=
  ⟨fun h => ⟨_, h, .refl _⟩, fun h => ⟨_, h, rfl, id⟩, fun h => ⟨_, h, rfl, id⟩⟩

theorem Retains.trans (h : s.Retains s') (h' : s'.Retains s'') : s.Retains s'' where
  mint hm := by
    obtain ⟨m', hm', hg⟩ := h.mint hm
    obtain ⟨m'', hm'', hg'⟩ := h'.mint hm'
    exact ⟨m'', hm'', hg.trans hg'⟩
  fee hf := by
    obtain ⟨f', hf', hp, hs⟩ := h.fee hf
    obtain ⟨f'', hf'', hp', hs'⟩ := h'.fee hf'
    exact ⟨f'', hf'', hp'.trans hp, hs' ∘ hs⟩
  melt hm := by
    obtain ⟨m', hm', hp, hs⟩ := h.melt hm
    obtain ⟨m'', hm'', hp', hs'⟩ := h'.melt hm'
    exact ⟨m'', hm'', hp'.trans hp, hs' ∘ hs⟩

/-! ## One transaction -/

theorem persists_of_mintsStep {m : MintRow} (hs : MintsStep now u s s')
    (hm : s.mints.find? hash = some m) : ∃ m', s'.mints.find? hash = some m' ∧ m.Persists m' := by
  cases hs with
  | keep he => exact ⟨m, he ▸ hm, .refl m⟩
  | mint _ _ he => exact ⟨m, he ▸ hm, .refl m⟩
  | receipt h receiptId he =>
    refine ⟨_, by rw [he, Table.find?_modify, hm]; rfl, ?_⟩
    split
    exacts [⟨rfl, rfl, id, id⟩, .refl m]
  | create m' _ _ _ _ he => exact ⟨m, Table.find?_of_insert? he hm, .refl m⟩
  | settle m' id' derive _ hg _ _ he =>
    refine ⟨_, by rw [he, hm]; rfl, ?_⟩
    split
    · next h =>
      subst h
      cases hm.symm.trans hg
      exact ⟨rfl, rfl, fun _ => rfl, fun _ => .inl rfl⟩
    · exact .refl m

theorem fee_of_markPaid {f : FeeRow} (hf : s.addressFees.find? hash = some f) (hash' : Str) :
    ∃ f', (s.markPaid hash').addressFees.find? hash = some f' ∧ f'.pr = f.pr ∧
      (f.paid = true → f'.paid = true) := by
  refine ⟨_, by rw [markPaid, Table.find?_modify, hf]; rfl, ?_⟩
  split
  exacts [⟨rfl, fun _ => rfl⟩, ⟨rfl, id⟩]

theorem fee_of_namesStep {f : FeeRow} {filed : Option Str} (hs : NamesStep now u filed s s')
    (hf : s.addressFees.find? hash = some f) : ∃ f', s'.addressFees.find? hash = some f' ∧
      f'.pr = f.pr ∧ (f.paid = true → f'.paid = true) := by
  have same : s'.addressFees = s.addressFees → ∃ f', s'.addressFees.find? hash = some f' ∧
      f'.pr = f.pr ∧ (f.paid = true → f'.paid = true) := fun he => ⟨f, he ▸ hf, rfl, id⟩
  cases hs with
  | keep _ he => exact same he
  | advance _ _ _ he => exact same he
  | register _ _ _ _ _ _ _ he => exact same he
  | update _ _ _ _ _ _ _ he => exact same he
  | delete _ _ _ he => exact same he
  | hold _ _ _ _ _ _ he => exact ⟨f, Table.find?_of_insert? he hf, rfl, id⟩
  | lapse _ _ _ _ _ _ he => exact he ▸ fee_of_markPaid hf _
  | settle _ _ _ _ _ _ he => exact he ▸ fee_of_markPaid hf _

theorem melt_of_apply {i : Input} {out : u.Out} {m : MeltRow} (ho : u.apply i s = .ok (out, s'))
    (hm : s.melts.find? hash = some m) : ∃ m', s'.melts.find? hash = some m' ∧
      m'.pr = m.pr ∧ (m.settled = true → m'.settled = true) := by
  by_cases hr : ∃ h pr, u = .recordMelt h pr
  · obtain ⟨h, pr, rfl⟩ := hr
    cases ho
    refine ⟨m, ?_, rfl, id⟩
    rw [recordMelt, Table.find?_insertOrIgnore, hm, Option.getD_some, ite_self]
  by_cases hset : ∃ h, u = .markMeltSettled h
  · obtain ⟨h, rfl⟩ := hset
    cases ho
    refine ⟨_, by rw [markMeltSettled, Table.find?_modify, hm]; rfl, ?_⟩
    split
    exacts [⟨rfl, fun _ => rfl⟩, ⟨rfl, id⟩]
  · refine ⟨m, ?_, rfl, id⟩
    rw [melts_eq ho (fun h pr he => hr ⟨h, pr, he⟩) fun h he => hset ⟨h, he⟩, hm]

end NoteStore

section Histories

variable {d : Deps} {cfg : Settings d} {w w' : World (mint cfg)}

/-- **No transaction takes an invoice off the record.** -/
theorem Update.retains {u : Update} {i : Input} {s s' : NoteStore} {out : u.Out}
    (ho : u.apply i s = .ok (out, s')) : s.Retains s' :=
  ⟨NoteStore.persists_of_mintsStep (Update.mintsStep ho),
    NoteStore.fee_of_namesStep (Update.namesStep ho), NoteStore.melt_of_apply ho⟩

theorem Next.retains {e : Event (mint cfg)} (h : Next (law cfg) w e w') :
    w.st.store.Retains w'.st.store := by
  rcases Next.store h with ⟨-, he⟩ | ⟨a, u, i, r, -, -, hr⟩ | ⟨-, he⟩
  · rw [he]
    exact .refl _
  · exact Update.run_induct hr (.refl _) fun _ ho => Update.retains ho
  · rw [he]
    exact ⟨fun hm => ⟨_, hm, .refl _⟩, fun hf => ⟨_, hf, rfl, id⟩, fun hm => ⟨_, hm, rfl, id⟩⟩

/-- **What is on record, and settled, is so at any time after.** -/
theorem Follows.retains (h : Follows (law cfg) w w') : w.st.store.Retains w'.st.store := by
  induction h with
  | refl => exact .refl _
  | step _ hn ih => exact ih.trans (Next.retains hn)

end Histories

end LnurlMint
