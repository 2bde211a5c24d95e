import LnurlMint.Opening
import LnurlMint.Ownership

/-!
# Three readings of one share

A share on file is 65 bytes in hex, the chain code before the compressed point, or, from before
that form, 64 bytes, the x-only point before the chain code. Its key is read off it in three places
that share no code. The start-up backfill cuts the hex with `substr`, whose positions count from
one; `_share_xp` and `_share_note_id` slice the bytes; and what a registration, a hold or an update
records as accepted was sliced off the share before it was spelled in hex.

`ShareFields` is a share by its fields, so the two orders of the fields are each written once, and
every reading is compared with the fields rather than with another reading.

## Main definitions

* `ShareFields` — a share by its fields, with the lengths they have
* `NoteStore.Shares` — every share on file or held is one

## Main results

* `isShare_iff` — the shares the mint writes are those with fields
* `Run.shares` — and a history files no others
* `share_readings_agree`
-/

namespace LnurlMint

open Relational Interleave NoteStore

/-! ## A share by its fields -/

/-- A share on file. -/
inductive ShareFields
  /-- LUD-26's: a chain code and a compressed point. -/
  | lud26 (chainCode point : Bytes) (hc : chainCode.length = 32) (hp : point.length = 33)
  /-- The superseded one: an x-only point and a chain code. -/
  | legacy (branchPoint chainCode : Bytes) (hp : branchPoint.length = 32)
      (hc : chainCode.length = 32)

namespace ShareFields

/-- Its bytes. -/
def data : ShareFields → Bytes
  | lud26 chainCode point .. => chainCode ++ point
  | legacy branchPoint chainCode .. => branchPoint ++ chainCode

/-- The share as it is filed. -/
def cx1 (f : ShareFields) : Str := hex f.data

/-- Whether it is of the superseded form. -/
def isLegacy : ShareFields → Bool
  | lud26 .. => false
  | legacy .. => true

/-- The x coordinate of its point. -/
def xp : ShareFields → Bytes
  | lud26 _ point .. => point.drop 1
  | legacy branchPoint _ .. => branchPoint

/-- The key of one of its notes: the child of its point and chain code, or their tweak. -/
def noteKey (d : Deps) (index : ℕ) : ShareFields → Except Exn (Option Bytes)
  | lud26 chainCode point .. =>
    .ok ((ckdPub d point chainCode index).map fun child => child.1.drop 1)
  | legacy branchPoint chainCode .. =>
    legacyDerivePubkey d branchPoint chainCode purposeLightningAddress index

variable (f : ShareFields)

theorem length_data : f.data.length = if f.isLegacy then 64 else 65 := by
  cases f with
  | lud26 chainCode point hc hp =>
    show (chainCode ++ point).length = 65
    rw [List.length_append, hc, hp]
  | legacy branchPoint chainCode hp hc =>
    show (branchPoint ++ chainCode).length = 64
    rw [List.length_append, hp, hc]

theorem length_xp : f.xp.length = 32 := by
  cases f with
  | lud26 _ point _ hp =>
    show (point.drop 1).length = 32
    rw [List.length_drop, hp]
  | legacy _ _ hp => exact hp

/-- The length tells the two forms apart. -/
theorem shareOnFile_cx1 : shareOnFile f.cx1 = .ok (some (f.isLegacy, f.data)) := by
  have hlen := f.length_data
  rw [shareOnFile, cx1, fromhex_hex]
  cases h : f.isLegacy <;> simp [h] at hlen <;> simp [hlen]

theorem shareXp_cx1 : shareXp f.cx1 = .ok (some f.xp) := by
  rw [shareXp, shareOnFile_cx1]
  cases f with
  | lud26 chainCode point hc hp =>
    -- one byte past the chain code, which is the point's parity
    have hdrop : (chainCode ++ point).drop 33 = point.drop 1 := by
      rw [List.drop_append, List.drop_eq_nil_of_le (by omega), hc]
      rfl
    exact congrArg (fun xp => Except.ok (some xp)) hdrop
  | legacy branchPoint chainCode hp hc =>
    have htake : (branchPoint ++ chainCode).take 32 = branchPoint := by
      rw [← hp, List.take_left]
    exact congrArg (fun xp => Except.ok (some xp)) htake

theorem shareNoteId_cx1 (d : Deps) (index : ℕ) :
    shareNoteId d f.cx1 index = (f.noteKey d index).map (Option.map hex) := by
  rw [shareNoteId, shareOnFile_cx1]
  cases f with
  | lud26 chainCode point hc hp =>
    show Except.ok ((deriveNotePubkey d (chainCode ++ point) index).map hex) = _
    rw [deriveNotePubkey, ← hc, List.drop_left, List.take_left]
    rfl
  | legacy branchPoint chainCode hp hc =>
    show (legacyDerivePubkey d ((branchPoint ++ chainCode).take 32)
      ((branchPoint ++ chainCode).drop 32) purposeLightningAddress index >>=
        fun pk => pure (pk.map hex)) = _
    rw [← hp, List.take_left, List.drop_left]
    rfl

end ShareFields

/-- The shares that the mint writes are those with fields. -/
theorem isShare_iff {cx1 : Str} : IsShare cx1 ↔ ∃ f : ShareFields, cx1 = f.cx1 := by
  constructor
  · rintro ⟨share, rfl, hlen | hlen⟩
    · refine ⟨.legacy (share.take 32) (share.drop 32) ?_ ?_, ?_⟩
      · rw [List.length_take, hlen]
        rfl
      · rw [List.length_drop, hlen]
      · exact congrArg hex (List.take_append_drop 32 share).symm
    · refine ⟨.lud26 (share.take 32) (share.drop 32) ?_ ?_, ?_⟩
      · rw [List.length_take, hlen]
        rfl
      · rw [List.length_drop, hlen]
      · exact congrArg hex (List.take_append_drop 32 share).symm
  · rintro ⟨f, rfl⟩
    have hlen := f.length_data
    refine ⟨f.data, rfl, ?_⟩
    split at hlen
    exacts [.inl hlen, .inr hlen]

theorem ShareFields.backfillKey_cx1 (f : ShareFields) : backfillKey f.cx1 = hex f.xp := by
  obtain ⟨xp, hxp, hkey⟩ := (isShare_iff.2 ⟨f, rfl⟩).shareXp
  rw [f.shareXp_cx1] at hxp
  cases hxp
  exact hkey

/-- What a registration, a hold or an update brings is a share of the present form, and what it
records as accepted is the x coordinate of its point. -/
theorem shareOf_iff {cx1 xp : Str} : ShareOf cx1 xp ↔
    ∃ f : ShareFields, f.isLegacy = false ∧ cx1 = f.cx1 ∧ xp = hex f.xp := by
  constructor
  · intro h
    have hkey := h.backfillKey
    obtain ⟨f, rfl⟩ := isShare_iff.1 h.isShare
    refine ⟨f, ?_, rfl, by rw [← hkey, f.backfillKey_cx1]⟩
    obtain ⟨share, hlen, hshare, -⟩ := h
    have hdata : f.data = share := hex_injective hshare
    have hlen' := f.length_data
    rw [hdata, hlen] at hlen'
    cases hform : f.isLegacy with
    | false => rfl
    | true => simp [hform] at hlen'
  · rintro ⟨f, hform, rfl, rfl⟩
    have hlen := f.length_data
    rw [hform] at hlen
    have hxp := f.shareXp_cx1
    rw [shareXp, f.shareOnFile_cx1, hform] at hxp
    refine ⟨f.data, hlen, rfl, congrArg hex ?_⟩
    exact (Option.some.inj (Except.ok.inj hxp)).symm

/-! ## The backfill's positions -/

/-- `substr(X, Y, Z)` for a position `Y` from 1 on: `Z` characters, the `Y`th first. -/
def substr (x : Str) (y z : ℕ) : Str := (x.drop (y - 1)).take z

/-- The key that the backfill reads, by the positions that its statement names. -/
theorem backfillKey_eq_substr (cx1 : Str) : backfillKey cx1 =
    if cx1.length = 128 then substr cx1 1 64 else substr cx1 67 64 := rfl

/-! ## Histories -/

namespace NoteStore

variable {s s' : NoteStore} {now : ℤ} {u : Update} {filed : Option Str}

/-- Every share on file or held is of one of the two forms. -/
structure Shares (s : NoteStore) : Prop where
  names : ∀ {name row}, s.usernames.find? name = some row → IsShare row.cx1
  holds : ∀ {hash f}, s.addressFees.find? hash = some f → f.paid = false → IsShare f.cx1

theorem Shares.of_forms (h : ∀ cx1 ∈ s.sharesOnFile ++ s.sharesHeld, IsShare cx1) : s.Shares where
  names hg := h _ (List.mem_append_left _ (List.mem_map_of_mem (Table.mem_of_find? hg)))
  holds hg hp := by
    refine h _ (List.mem_append_right _ (List.mem_map_of_mem ?_))
    exact List.mem_filter.2 ⟨Table.mem_of_find? hg, by rw [hp]; rfl⟩

theorem Shares.onFile (h : s.Shares) : ∀ cx1 ∈ s.sharesOnFile, IsShare cx1 := by
  intro cx1 hm
  obtain ⟨row, hrow, rfl⟩ := List.mem_map.1 hm
  exact h.names (Table.find?_of_mem hrow)

/-- **A transaction keeps them**: what it files was held, or was brought. -/
theorem Shares.step (h : s.Shares) (hs : NamesStep now u filed s s')
    (hu : ∀ cx1 xp, u.brings = some (cx1, xp) → ShareOf cx1 xp) : s'.Shares := by
  have hfiled : ∀ cx1 ∈ filed, IsShare cx1 := isShare_of_namesStep hs h.holds hu
  refine ⟨fun hg => ?_, fun {hash f} hg hp => ?_⟩
  · obtain ⟨username, hn⟩ := shares_of_namesStep hs
    rcases hn hg with ⟨row, hg, hx⟩ | ⟨-, he⟩
    · exact hx ▸ h.names hg
    · exact hfiled _ he
  · cases hs with
    | hold f' xp _ hu' _ _ hf =>
      rw [Table.find?_insert? hf] at hg
      split at hg
      · cases hg
        exact (hu f.cx1 xp (by rw [hu']; rfl)).isShare
      · exact h.holds hg hp
    | lapse _ _ _ _ _ _ hf => exact h.holds (find?_markPaid (hf ▸ hg) hp).1 hp
    | settle _ _ _ _ _ _ hf => exact h.holds (find?_markPaid (hf ▸ hg) hp).1 hp
    | keep _ hf => exact h.holds (hf ▸ hg) hp
    | advance _ _ _ hf => exact h.holds (hf ▸ hg) hp
    | register _ _ _ _ _ _ _ hf => exact h.holds (hf ▸ hg) hp
    | update _ _ _ _ _ _ _ hf => exact h.holds (hf ▸ hg) hp
    | delete _ _ _ hf => exact h.holds (hf ▸ hg) hp

end NoteStore

section Histories

variable {d : Deps} {cfg : Settings d} {s : State} {w : World (mint cfg)} {a : Actor mintSig}

/-- **A history files shares of these forms only.** -/
theorem Run.shares (h : Run (law cfg) s w) (hs : s.store.Shares) : w.st.store.Shares :=
  Run.store_induct h hs
    (fun _ _ hu hl ho => hl.step (Update.namesStep ho) fun _ _ hb => hu.shareOf hb)
    fun hl => ⟨hl.names, hl.holds⟩

/-- What was brought is a share of the present form, and its key was recorded for good. -/
theorem Run.brought (h : Run (law cfg) s w) {u : Update} {i : Input} {r : Except Exn u.Out}
    {pre : State} {cx1 xp : Str} (he : .did a (.write u) i r pre ∈ w.hist)
    (hb : u.brings = some (cx1, xp)) :
    ShareOf cx1 xp ∧ ∀ out, r = .ok out → xp ∈ w.st.store.acceptedKeys.rows := by
  obtain ⟨w₀, w₁, h₀, hn, hf⟩ := h.past he
  refine ⟨(Next.write hn).1.shareOf hb, fun out ho => ?_⟩
  subst ho
  obtain ⟨-, hap⟩ := Next.write_ok hn
  have hnow := (acceptedKeys_insert? (acceptedKeys_brings hap hb)).2 xp
  exact hf.keep (h₀.step hn) (hnow.2 (.inr rfl)) fun _ hn hk => Next.acceptedKeys hn hk

end Histories

/-- **Three readings of a share's key agree.** Of a share of either form the backfill's positions,
inside its statement too, and the key that proofs verify against are the same 32 bytes, in lower
case hex where they are spelled, and the derivation of a note is given that point and that chain
code. In every history, what a registration, a hold or an update brings is such a share and the key
it records as accepted is that key; and every share on file in a state that is reached is one, if
those that were there at the start are. -/
theorem share_readings_agree (d : Deps) (cfg : Settings d) :
    (∀ f : ShareFields, f.xp.length = 32 ∧ IsHex (hex f.xp) ∧
      (if f.cx1.length = 128 then substr f.cx1 1 64 else substr f.cx1 67 64) = hex f.xp ∧
      Opening.keyOfShare (.text f.cx1) = .text (hex f.xp) ∧
      shareXp f.cx1 = .ok (some f.xp) ∧
      ∀ index, shareNoteId d f.cx1 index = (f.noteKey d index).map (Option.map hex)) ∧
    ∀ (s : State) (c : Config (mint cfg)), Reach s c →
      (∀ a u i r pre cx1 xp, .did a (.write u) i r pre ∈ c.w.hist → u.brings = some (cx1, xp) →
        ∃ f : ShareFields, f.isLegacy = false ∧ cx1 = f.cx1 ∧ xp = hex f.xp ∧
          ∀ out, r = .ok out → xp ∈ c.w.st.store.acceptedKeys.rows) ∧
      ((∀ cx1 ∈ s.store.sharesOnFile ++ s.store.sharesHeld, IsShare cx1) →
        ∀ cx1 ∈ c.w.st.store.sharesOnFile, ∃ f : ShareFields, cx1 = f.cx1) := by
  refine ⟨fun f => ⟨f.length_xp, isHex_hex _, ?_, ?_, f.shareXp_cx1, f.shareNoteId_cx1 d⟩,
    fun s c h => ⟨fun a u i r pre cx1 xp he hb => ?_, fun hs cx1 hm => ?_⟩⟩
  · rw [← backfillKey_eq_substr, f.backfillKey_cx1]
  · rw [Opening.keyOfShare, f.backfillKey_cx1]
  · obtain ⟨hshare, hacc⟩ := Run.brought (Reach.law h) he hb
    obtain ⟨f, hform, hcx1, hxp⟩ := shareOf_iff.1 hshare
    exact ⟨f, hform, hcx1, hxp, hacc⟩
  · have hshares := Run.shares (Reach.law h) (.of_forms hs)
    exact isShare_iff.1 (hshares.onFile cx1 hm)

/-- `alice` is registered. -/
def registeredRun : List (Choice standInMint) :=
  standInAsks 0 (.registerUsername "alice".toList (standInForm .register "alice".toList 'p')) ++
    standInGoes 2 0

/-- A registration has happened. -/
def registered : Event standInMint → Bool
  | .did _ (.write (.registerUsername ..)) _ (.ok _) _ => true
  | _ => false

theorem registered_eq_true {e : Event standInMint} (h : registered e = true) :
    ∃ a username cx1 xp npub i pre,
      e = .did a (.write (.registerUsername username cx1 xp npub)) i (.ok ()) pre := by
  unfold registered at h
  split at h
  · exact ⟨_, _, _, _, _, _, _, rfl⟩
  · cases h

theorem share_readings_agree_registered : ∃ c : Config standInMint, Reach State.initial c ∧
    ∃ a username cx1 xp npub i pre,
      .did a (.write (.registerUsername username cx1 xp npub)) i (.ok ()) pre ∈ c.w.hist ∧
      ∃ f : ShareFields, f.isLegacy = false ∧ cx1 = f.cx1 ∧ xp = hex f.xp ∧
        xp ∈ c.w.st.store.acceptedKeys.rows := by
  have hrun : (standInRun registeredRun).any (fun c => c.w.hist.any registered) = true := by
    decide +kernel
  obtain ⟨c, hc, he⟩ := exists_standInRun hrun
  obtain ⟨e, he, hreg⟩ := List.any_eq_true.1 he
  obtain ⟨a, username, cx1, xp, npub, i, pre, rfl⟩ := registered_eq_true hreg
  obtain ⟨f, hform, hcx1, hxp, hacc⟩ :=
    ((share_readings_agree .standIn .standIn).2 State.initial c hc).1 _ _ _ _ _ cx1 xp he rfl
  exact ⟨c, hc, a, username, cx1, xp, npub, i, pre, he, f, hform, hcx1, hxp, hacc () rfl⟩

end LnurlMint
