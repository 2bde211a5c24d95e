import LnurlMint.Lib.Loop
import LnurlMint.Router.Redeem
import Mathlib.Order.Bounds.Basic

/-!
# Picking a note on a share

To credit a share the mint tries its keys one index after another, holding the lock of the store,
until one derives and is not in use. The loop has no bound, so it ends by what the derivation says.

A superseded share ends it at `2 ^ 32`, where the index outgrows its four bytes and the encoding
raises. A current share never does: from `2 ^ 31` on an index is a hardened one, which derives no
key, and the loop skips it as it skips any other. Once the usable indices below are passed, it goes
on for ever.

## Main definitions

* `NoteStore.Usable` — an index derives a key that is not in use
* `NoteStore.claimTurn` — one turn of the loop
* `NoteStore.ClaimEnds` — the loop ends, and the index is the one it should be

## Main results

* `NoteStore.claim_ends_iff` — when crediting a share ends
-/

namespace LnurlMint

open Relational Loop

/-! ## Which indices derive a key -/

section Shares

variable {d : Deps} {cx1 : Str} {data : Bytes} {index : ℕ}

/-- A hardened index derives no key. -/
theorem deriveNotePubkey_hardened (h : hardened ≤ index) :
    deriveNotePubkey d data index = none := by
  rw [deriveNotePubkey, ckdPub, if_pos h]
  rfl

theorem shareNoteId_current (hs : shareOnFile cx1 = .ok (some (false, data))) :
    shareNoteId d cx1 index = .ok ((deriveNotePubkey d data index).map hex) := by
  rw [shareNoteId, hs]
  rfl

theorem shareNoteId_superseded (hs : shareOnFile cx1 = .ok (some (true, data))) :
    shareNoteId d cx1 index = (legacyDerivePubkey d (data.take 32) (data.drop 32)
      purposeLightningAddress index).map fun pk => pk.map hex := by
  rw [shareNoteId, hs]
  rfl

/-- A share of the superseded form is 64 bytes. -/
theorem length_superseded (hs : shareOnFile cx1 = .ok (some (true, data))) : data.length = 64 := by
  rw [shareOnFile] at hs
  split at hs
  · cases hs
  · split at hs
    · simp at hs
    · split at hs
      · rename_i hlen
        simp only [Except.ok.injEq, Option.some.injEq, Prod.mk.injEq, true_and] at hs
        exact hs ▸ hlen
      · simp at hs

/-- A superseded share raises at an index that four bytes do not hold. -/
theorem shareNoteId_overflow (hs : shareOnFile cx1 = .ok (some (true, data)))
    (h : 2 ^ 32 ≤ index) : shareNoteId d cx1 index = .error .other := by
  have hlen := length_superseded hs
  have hbytes : ¬((data.take 32).length ≠ 32 ∨ (data.drop 32).length ≠ 32) := by
    simp [hlen]
  rw [shareNoteId_superseded hs, legacyDerivePubkey, if_neg hbytes, if_pos h]
  rfl

end Shares

namespace NoteStore

variable {d : Deps} {s : NoteStore} {derive : ℕ → Except Exn (Option Str)} {username : Str}
  {row : UsernameRow} {index : ℕ} {pk : Str}

/-! ## The loop -/

variable (s) in
/-- The index derives a key, and no note, mint or burned note has it. -/
def Usable (derive : ℕ → Except Exn (Option Str)) (index : ℕ) (pk : Str) : Prop :=
  derive index = .ok (some pk) ∧ s.idInUse pk = false

variable (s) in
/-- One turn of the loop of `_claim_index`: on to the next index, or out of it. -/
def claimTurn (derive : ℕ → Except Exn (Option Str)) (index : ℕ) : ℕ ⊕ Except Exn (Str × ℕ) :=
  match derive index with
  | .error e => .inr (.error e)
  | .ok none => .inl (index + 1)
  | .ok (some pk) => if s.idInUse pk then .inl (index + 1) else .inr (.ok (pk, index))

theorem claimTurn_counts (j j' : ℕ) (h : s.claimTurn derive j = .inl j') : j' = j + 1 := by
  rw [claimTurn] at h
  split at h
  · cases h
  · exact (Sum.inl.inj h).symm
  · split at h
    · exact (Sum.inl.inj h).symm
    · cases h

theorem claimTurn_raises {e : Exn} :
    s.claimTurn derive index = .inr (.error e) ↔ derive index = .error e := by
  rw [claimTurn]
  split
  · rename_i e' he
    simp [he]
  · rename_i hnone
    simp [hnone]
  · rename_i pk hpk
    split <;> simp [hpk]

theorem claimTurn_picks {j : ℕ} :
    s.claimTurn derive index = .inr (.ok (pk, j)) ↔ j = index ∧ s.Usable derive index pk := by
  rw [claimTurn, Usable]
  split
  · rename_i e he
    simp [he]
  · rename_i hnone
    simp [hnone]
  · rename_i pk' hpk'
    split
    · rename_i huse
      rw [hpk']
      constructor
      · intro h
        cases h
      · rintro ⟨-, h, hu⟩
        cases h
        exact absurd huse (by simp [hu])
    · rename_i huse
      rw [hpk']
      constructor
      · intro h
        cases h
        exact ⟨rfl, rfl, Bool.eq_false_iff.2 huse⟩
      · rintro ⟨rfl, h, -⟩
        cases h
        rfl

/-- The search is so many turns of the loop. -/
theorem searchIndex_eq (fuel : ℕ) :
    s.searchIndex derive fuel index =
      (turnsOf (s.claimTurn derive) fuel index).getD (.error .hangs) := by
  induction fuel generalizing index with
  | zero => rfl
  | succ fuel ih =>
    rw [searchIndex, turnsOf, claimTurn]
    cases hd : derive index with
    | error e => rfl
    | ok o =>
      cases o with
      | none => exact ih
      | some pk =>
        by_cases huse : s.idInUse pk = true
        · simp only [huse, if_true]
          exact (if_pos huse).trans ih
        · simp only [huse]
          exact if_neg huse

/-- The loop leaves with the first usable index, unless a derivation raises before. -/
theorem leaves_picks {j : ℕ} (h : Leaves (s.claimTurn derive) index (.ok (pk, j))) :
    s.Usable derive j pk ∧ IsLeast {i | index ≤ i ∧ ∃ pk, s.Usable derive i pk} j := by
  obtain ⟨i, hi, hpick, hbefore⟩ := (leaves_search claimTurn_counts).1 h
  obtain ⟨rfl, hu⟩ := claimTurn_picks.1 hpick
  refine ⟨hu, ⟨hi, pk, hu⟩, fun k hk => ?_⟩
  obtain ⟨hik, pk', hu'⟩ := hk
  by_contra hlt
  have hgoes := hbefore k hik (by omega)
  rw [claimTurn_picks.2 ⟨rfl, hu'⟩] at hgoes
  cases hgoes

/-! ## When it ends -/

variable (s) in
/-- The store with the index that a share is searched from next. -/
def setNextIndex (username : Str) (next : ℕ) : NoteStore :=
  { s with usernames := s.usernames.modify username fun r => { r with nextIndex := next } }

variable (s) in
/-- The loop ends on the share of this row: with the least usable index from the stored one on,
and the stored one is left one past it, or with what a derivation raises, and nothing is written. -/
def ClaimEnds (derive : DeriveNote) (username : Str) (row : UsernameRow) : Prop :=
  (∃ index pk,
    IsLeast {i | row.nextIndex ≤ i ∧ ∃ pk, s.Usable (derive row.cx1) i pk} index ∧
    s.Usable (derive row.cx1) index pk ∧
    Leaves (s.claimTurn (derive row.cx1)) row.nextIndex (.ok (pk, index)) ∧
    s.claimIndex username derive = .ok ((pk, index), s.setNextIndex username (index + 1))) ∨
  ∃ e, Leaves (s.claimTurn (derive row.cx1)) row.nextIndex (.error e) ∧
    s.claimIndex username derive = .error e

theorem claimIndex_eq {derive : DeriveNote} (hrow : s.usernames.find? username = some row) :
    s.claimIndex username derive =
      ((turnsOf (s.claimTurn (derive row.cx1)) (2 ^ 32 - row.nextIndex + 1) row.nextIndex).getD
        (.error .hangs)).map fun r => (r, { s with
          usernames := s.usernames.modify username fun row =>
            { row with nextIndex := r.2 + 1 } }) := by
  rw [← searchIndex_eq, claimIndex, hrow]
  rfl

variable {data : Bytes} {legacy : Bool}

/-- The turns that the search is given are all it can need. -/
theorem leaves_claim {r : Except Exn (Str × ℕ)}
    (hshare : shareOnFile row.cx1 = .ok (some (legacy, data))) :
    Leaves (s.claimTurn (shareNoteId d row.cx1)) row.nextIndex r ↔
      turnsOf (s.claimTurn (shareNoteId d row.cx1)) (2 ^ 32 - row.nextIndex + 1) row.nextIndex =
        some r := by
  refine search_within claimTurn_counts fun j hj hbeyond b hb => ?_
  cases legacy with
  | true =>
    -- the largest index that still fits is followed by one that raises
    refine ⟨max row.nextIndex (2 ^ 32), .error .other, le_max_left _ _, max_lt hj hbeyond, ?_⟩
    exact claimTurn_raises.2 (shareNoteId_overflow hshare (le_max_right _ _))
  | false =>
    have hnone : shareNoteId d row.cx1 j = .ok none := by
      have hhard : hardened ≤ j := by
        rw [hardened]
        omega
      rw [shareNoteId_current hshare, deriveNotePubkey_hardened hhard]
      rfl
    rw [claimTurn, hnone] at hb
    cases hb

/-- The crediting ends as it should exactly if the loop leaves. -/
theorem claimEnds_iff_leaves (hrow : s.usernames.find? username = some row)
    (hshare : shareOnFile row.cx1 = .ok (some (legacy, data))) :
    s.ClaimEnds (shareNoteId d) username row ↔
      ∃ r, Leaves (s.claimTurn (shareNoteId d row.cx1)) row.nextIndex r := by
  constructor
  · rintro (⟨index, pk, -, -, hl, -⟩ | ⟨e, hl, -⟩)
    · exact ⟨_, hl⟩
    · exact ⟨_, hl⟩
  · rintro ⟨r, hl⟩
    have hclaim : s.claimIndex username (shareNoteId d) = _ := claimIndex_eq hrow
    rw [(leaves_claim hshare).1 hl] at hclaim
    cases r with
    | error e => exact .inr ⟨e, hl, hclaim⟩
    | ok p =>
      obtain ⟨hu, hleast⟩ := leaves_picks hl
      exact .inl ⟨p.2, p.1, hleast, hu, hl, hclaim⟩

/-- The loop leaves for a superseded share, and for a current one that has a usable index left. -/
theorem exists_leaves_claim (hshare : shareOnFile row.cx1 = .ok (some (legacy, data))) :
    (∃ r, Leaves (s.claimTurn (shareNoteId d row.cx1)) row.nextIndex r) ↔
      legacy = true ∨ ∃ index, row.nextIndex ≤ index ∧ index < hardened ∧
        ∃ pk, s.Usable (shareNoteId d row.cx1) index pk := by
  rw [exists_leaves_search claimTurn_counts]
  cases legacy with
  | true =>
    refine iff_of_true ⟨max row.nextIndex (2 ^ 32), le_max_left _ _, .error .other, ?_⟩ (.inl rfl)
    exact claimTurn_raises.2 (shareNoteId_overflow hshare (le_max_right _ _))
  | false =>
    constructor
    · rintro ⟨j, hj, b, hb⟩
      refine .inr ⟨j, hj, ?_⟩
      rw [claimTurn, shareNoteId_current hshare] at hb
      cases hder : deriveNotePubkey d data j with
      | none =>
        rw [hder] at hb
        cases hb
      | some key =>
        rw [hder] at hb
        refine ⟨?_, hex key, ?_⟩
        · by_contra hle
          rw [deriveNotePubkey_hardened (Nat.le_of_not_lt hle)] at hder
          cases hder
        · refine ⟨by rw [shareNoteId_current hshare, hder]; rfl, ?_⟩
          by_contra huse
          simp [Bool.eq_true_of_not_eq_false huse] at hb
    · rintro (h | ⟨j, hj, -, pk, hu⟩)
      · cases h
      · exact ⟨j, hj, _, claimTurn_picks.2 ⟨rfl, hu⟩⟩

/-- **When crediting a share ends**: always for a superseded share, and for a current one exactly
while an index below the hardened ones is usable. Where it does not end it goes on for ever. -/
theorem claim_ends_iff (d : Deps) (s : NoteStore) (username : Str) (row : UsernameRow)
    (legacy : Bool) (data : Bytes) (hrow : s.usernames.find? username = some row)
    (hshare : shareOnFile row.cx1 = .ok (some (legacy, data))) :
    (s.ClaimEnds (shareNoteId d) username row ↔
      legacy = true ∨ ∃ index, row.nextIndex ≤ index ∧ index < hardened ∧
        ∃ pk, s.Usable (shareNoteId d row.cx1) index pk) ∧
    (¬s.ClaimEnds (shareNoteId d) username row →
      (∀ r, ¬Leaves (s.claimTurn (shareNoteId d row.cx1)) row.nextIndex r) ∧
      s.claimIndex username (shareNoteId d) = .error .hangs) := by
  refine ⟨(claimEnds_iff_leaves hrow hshare).trans (exists_leaves_claim hshare), fun h => ?_⟩
  rw [claimEnds_iff_leaves hrow hshare, not_exists] at h
  refine ⟨h, ?_⟩
  have hnone : turnsOf (s.claimTurn (shareNoteId d row.cx1)) (2 ^ 32 - row.nextIndex + 1)
      row.nextIndex = none :=
    Option.eq_none_iff_forall_not_mem.2 fun r hr => h r ((leaves_claim hshare).2 hr)
  rw [claimIndex_eq hrow, hnone]
  rfl

/-- A share, as the stand-in mint decodes it. -/
def standInShare : Bytes := (decodeCx1 .standIn (standInCx1 'l')).getD []

/-- The name it is registered under, with this many of its indices passed. -/
def standInPassed (index : ℕ) : UsernameRow := ⟨"alice".toList, hex standInShare, index, none⟩

/-- A store that has this name on file and nothing else. -/
def sharing (row : UsernameRow) : NoteStore :=
  { NoteStore.empty with usernames := ⟨[row], List.nodup_singleton _⟩ }

theorem shareOnFile_standInPassed :
    shareOnFile (standInPassed index).cx1 = .ok (some (false, standInShare)) := by
  have hlen : standInShare.length = 65 := by decide +kernel
  rw [standInPassed, shareOnFile, fromhex_hex]
  exact congrArg Except.ok (if_pos hlen)

/-- A share with nothing passed is credited. -/
theorem claim_ends_standIn :
    (sharing (standInPassed 0)).ClaimEnds (shareNoteId .standIn) "alice".toList
      (standInPassed 0) := by
  obtain ⟨key, hkey⟩ : ∃ key, deriveNotePubkey .standIn standInShare 0 = some key :=
    Option.isSome_iff_exists.1 (by decide +kernel)
  have hpk : shareNoteId .standIn (standInPassed 0).cx1 0 = .ok (some (hex key)) := by
    rw [shareNoteId_current shareOnFile_standInPassed, hkey]
    rfl
  exact (claim_ends_iff .standIn (sharing (standInPassed 0)) "alice".toList (standInPassed 0)
    false standInShare rfl shareOnFile_standInPassed).1.2
      (.inr ⟨0, le_refl 0, by decide, hex key, hpk, rfl⟩)

/-- A share with every index passed that derives a key is never credited: the loop goes on for
ever. -/
theorem claim_hangs : ∃ row data, decodeCx1 .standIn (standInCx1 'l') = some data ∧
    row.cx1 = hex data ∧ row.nextIndex = 2 ^ 31 ∧
    (sharing row).usernames.find? "alice".toList = some row ∧
    ¬(sharing row).ClaimEnds (shareNoteId .standIn) "alice".toList row ∧
    ∀ r, ¬Leaves ((sharing row).claimTurn (shareNoteId .standIn row.cx1)) row.nextIndex r := by
  obtain ⟨data, hdata⟩ : ∃ data, decodeCx1 .standIn (standInCx1 'l') = some data :=
    Option.isSome_iff_exists.1 (by decide +kernel)
  have hnot : ¬∃ r, Leaves ((sharing (standInPassed (2 ^ 31))).claimTurn
      (shareNoteId .standIn (standInPassed (2 ^ 31)).cx1)) (2 ^ 31) r := by
    intro h
    rcases (exists_leaves_claim shareOnFile_standInPassed).1 h with
      h | ⟨index, hle, hlt, -⟩
    · cases h
    · exact absurd (lt_of_le_of_lt hle hlt) (by decide)
  refine ⟨standInPassed (2 ^ 31), data, hdata, ?_, rfl, rfl, ?_, not_exists.1 hnot⟩
  · rw [standInPassed, standInShare, hdata]
    rfl
  · exact fun h => hnot ((claimEnds_iff_leaves rfl shareOnFile_standInPassed).1 h)

end NoteStore

end LnurlMint
