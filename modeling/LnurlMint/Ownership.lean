import LnurlMint.Histories
import LnurlMint.Names

/-!
# An ownership proof takes effect once

The proofs that register, move and free an address carry no nonce. What keeps a captured one from
being used again is that a share's key goes on file at most once: `accepted_keys` remembers every
key that a registration or an update ever brought, and a key that has left the file cannot come
back. So a registration or an update cannot repeat, because its key would have to be accepted
again; and a deletion cannot, because the key that its proof verifies against is gone for good.

The invariant `Owned` links the four tables: what was ever put on file was accepted, what is on
file was put there, and what an unpaid fee holds was accepted but has not been put on file yet.

## Main definitions

* `IsShare` — a share as the mint writes it
* `NoteStore.Owned` — the invariant
* `filed` — the shares a history put on file
* `OwnershipProof` — what a registration request carries

## Main results

* `NoteStore.Owned.step`, `Run.owned`
* `Run.accepted_once` — no key is accepted twice
* `Run.freed_once` — no key frees a name twice
* `ownership_proof_once`
-/

namespace LnurlMint

open Relational Interleave

/-! ## Shares -/

/-- A share as the mint writes it, in either form. -/
def IsShare (cx1 : Str) : Prop :=
  ∃ share : Bytes, cx1 = hex share ∧ (share.length = 64 ∨ share.length = 65)

/-- The key that proofs verify against is the one that the start-up backfill reads. -/
theorem IsShare.shareXp {cx1 : Str} (h : IsShare cx1) :
    ∃ xp, shareXp cx1 = .ok (some xp) ∧ NoteStore.backfillKey cx1 = hex xp := by
  obtain ⟨share, rfl, hlen⟩ := h
  have hl := length_hex share
  rcases hlen with hlen | hlen
  · refine ⟨share.take 32, ?_, ?_⟩
    · simp [LnurlMint.shareXp, shareOnFile, fromhex_hex, hlen, Except.map]
    · rw [NoteStore.backfillKey, if_pos (by omega)]
      exact take_hex 32 share
  · refine ⟨share.drop 33, ?_, ?_⟩
    · simp [LnurlMint.shareXp, shareOnFile, fromhex_hex, hlen, Except.map]
    · have hdrop : (share.drop 33).length = 32 := by rw [List.length_drop, hlen]
      rw [NoteStore.backfillKey, if_neg (by omega), drop_hex 33 share]
      refine (take_hex 32 _).trans (congrArg hex ?_)
      exact List.take_of_length_le (Nat.le_of_eq hdrop)

theorem ShareOf.isShare {cx1 xp : Str} (h : ShareOf cx1 xp) : IsShare cx1 := by
  obtain ⟨share, hlen, rfl, -⟩ := h
  exact ⟨share, rfl, .inr hlen⟩

theorem ShareOf.backfillKey {cx1 xp : Str} (h : ShareOf cx1 xp) :
    NoteStore.backfillKey cx1 = xp := by
  obtain ⟨share, hlen, rfl, rfl⟩ := h
  obtain ⟨xp, hxp, hk⟩ := IsShare.shareXp ⟨share, rfl, .inr hlen⟩
  have hread : some (share.drop 33) = some xp := by
    simpa [shareXp, shareOnFile, fromhex_hex, hlen, Except.map] using hxp
  rw [hk, Option.some.inj hread]

/-- The share and the key that a method brings. -/
def Update.brings : Update → Option (Str × Str)
  | registerUsername _ cx1 xp _ | updateUsername _ cx1 xp => some (cx1, xp)
  | holdUsername _ _ _ cx1 xp .. => some (cx1, xp)
  | _ => none

/-! ## The invariant -/

namespace NoteStore

variable {s s' : NoteStore} {keys : List Str} {now : ℤ} {u : Update} {filed : Option Str}

/-- `keys` are the keys that were ever put on file. Each was put there once and is accepted; every
username has one of them, and no two the same; and a fee that is not paid yet holds an accepted key
that is none of them, and no two the same. -/
structure Owned (s : NoteStore) (keys : List Str) : Prop where
  names : ∀ {name row}, s.usernames.find? name = some row →
    IsShare row.cx1 ∧ backfillKey row.cx1 ∈ keys
  names_once : ∀ {name name' row row'}, s.usernames.find? name = some row →
    s.usernames.find? name' = some row' → backfillKey row.cx1 = backfillKey row'.cx1 → name = name'
  holds : ∀ {h f}, s.addressFees.find? h = some f → f.paid = false →
    IsShare f.cx1 ∧ backfillKey f.cx1 ∈ s.acceptedKeys.rows ∧ backfillKey f.cx1 ∉ keys
  holds_once : ∀ {h h' f f'}, s.addressFees.find? h = some f → f.paid = false →
    s.addressFees.find? h' = some f' → f'.paid = false →
    backfillKey f.cx1 = backfillKey f'.cx1 → h = h'
  nodup : keys.Nodup
  accepted : ∀ k ∈ keys, k ∈ s.acceptedKeys.rows

/-- A username's share after a transaction is the one it had, or the one put on file, which one
username gets. -/
theorem shares_of_namesStep (hs : NamesStep now u filed s s') :
    ∃ username, ∀ {name row'}, s'.usernames.find? name = some row' →
      (∃ row, s.usernames.find? name = some row ∧ row.cx1 = row'.cx1) ∨
        name = username ∧ filed = some row'.cx1 := by
  have inserted : ∀ {r : UsernameRow}, s.usernames.insert? r = some s'.usernames →
      filed = some r.cx1 → ∀ {name row'}, s'.usernames.find? name = some row' →
      (∃ row, s.usernames.find? name = some row ∧ row.cx1 = row'.cx1) ∨
        name = r.username ∧ filed = some row'.cx1 := by
    intro r hn hc name row' hg
    rw [Table.find?_insert? hn] at hg
    split at hg
    · rename_i he
      cases hg
      exact .inr ⟨he.symm, hc⟩
    · exact .inl ⟨_, hg, rfl⟩
  cases hs with
  | keep hn => exact ⟨[], fun hg => .inl ⟨_, hn ▸ hg, rfl⟩⟩
  | hold f xp hp hu ht hn => exact ⟨[], fun hg => .inl ⟨_, hn ▸ hg, rfl⟩⟩
  | lapse f hp hu hg₀ ht hn => exact ⟨[], fun hg => .inl ⟨_, hn ▸ hg, rfl⟩⟩
  | register username cx1 xp npub hu ht hn hf hk hc => exact ⟨username, inserted hn hc⟩
  | settle f hp hu hg₀ ht hn hf hk hc => exact ⟨f.username, inserted hn hc⟩
  | advance username index hn =>
    refine ⟨[], fun hg => .inl ?_⟩
    rw [hn, Table.find?_modify] at hg
    obtain ⟨row, hg₀, rfl⟩ := Option.map_eq_some_iff.1 hg
    exact ⟨row, hg₀, by split <;> rfl⟩
  | update username cx1 xp row hu hg₀ hn hf hk hc =>
    refine ⟨username, fun {name row'} hg => ?_⟩
    rw [hn, Table.find?_modify] at hg
    obtain ⟨row, hg₁, rfl⟩ := Option.map_eq_some_iff.1 hg
    by_cases he : name = username
    · exact .inr ⟨he, by simp [he, hc]⟩
    · exact .inl ⟨row, hg₁, by simp [he]⟩
  | delete username hu hn =>
    refine ⟨[], fun {name row} hg => .inl ⟨row, ?_, rfl⟩⟩
    rw [hn, Table.find?_erase] at hg
    by_cases he : name = username
    · rw [if_pos he] at hg
      cases hg
    · rwa [if_neg he] at hg

/-- A step that puts nothing on file and holds no new name. -/
theorem Owned.of_names (h : s.Owned keys)
    (hn : ∀ {name row'}, s'.usernames.find? name = some row' →
      ∃ row, s.usernames.find? name = some row ∧ row.cx1 = row'.cx1)
    (hf : ∀ {hash f}, s'.addressFees.find? hash = some f → f.paid = false →
      s.addressFees.find? hash = some f)
    (hk : ∀ k ∈ s.acceptedKeys.rows, k ∈ s'.acceptedKeys.rows) : s'.Owned keys where
  names hg := by
    obtain ⟨row, hg, he⟩ := hn hg
    exact he ▸ h.names hg
  names_once hg hg' he := by
    obtain ⟨row, hg, hx⟩ := hn hg
    obtain ⟨row', hg', hx'⟩ := hn hg'
    exact h.names_once hg hg' (by rw [hx, hx', he])
  holds hg hp := by
    obtain ⟨hx, ha, hnew⟩ := h.holds (hf hg hp) hp
    exact ⟨hx, hk _ ha, hnew⟩
  holds_once hg hp hg' hp' he := h.holds_once (hf hg hp) hp (hf hg' hp') hp' he
  nodup := h.nodup
  accepted k hm := hk k (h.accepted k hm)

/-- A step that puts a new share on file, for one name. -/
theorem Owned.file (h : s.Owned keys) (username : Str) {cx1 : Str} (hx : IsShare cx1)
    (hnew : backfillKey cx1 ∉ keys)
    (hn : ∀ {name row'}, s'.usernames.find? name = some row' →
      (∃ row, s.usernames.find? name = some row ∧ row.cx1 = row'.cx1) ∨
        name = username ∧ row'.cx1 = cx1)
    (hf : ∀ {hash f}, s'.addressFees.find? hash = some f → f.paid = false →
      s.addressFees.find? hash = some f ∧ backfillKey f.cx1 ≠ backfillKey cx1)
    (hk : ∀ k, k = backfillKey cx1 ∨ k ∈ s.acceptedKeys.rows → k ∈ s'.acceptedKeys.rows) :
    s'.Owned (backfillKey cx1 :: keys) where
  names hg := by
    rcases hn hg with ⟨row, hg, he⟩ | ⟨-, he⟩
    · obtain ⟨hx', hm⟩ := h.names hg
      exact he ▸ ⟨hx', List.mem_cons_of_mem _ hm⟩
    · rw [he]
      exact ⟨hx, List.mem_cons_self⟩
  names_once hg hg' he := by
    rcases hn hg with ⟨row, hg, hr⟩ | ⟨rfl, hr⟩ <;> rcases hn hg' with ⟨row', hg', hr'⟩ | ⟨rfl, hr'⟩
    · exact h.names_once hg hg' (by rw [hr, hr', he])
    · rw [hr', ← hr] at he
      exact absurd (he ▸ (h.names hg).2) hnew
    · rw [hr, ← hr'] at he
      exact absurd (he ▸ (h.names hg').2) hnew
    · rfl
  holds hg hp := by
    obtain ⟨hg, hne⟩ := hf hg hp
    obtain ⟨hx, ha, hnot⟩ := h.holds hg hp
    refine ⟨hx, hk _ (.inr ha), fun hm => ?_⟩
    rcases List.mem_cons.1 hm with he | hm
    exacts [hne he, hnot hm]
  holds_once hg hp hg' hp' he := h.holds_once (hf hg hp).1 hp (hf hg' hp').1 hp' he
  nodup := List.nodup_cons.2 ⟨hnew, h.nodup⟩
  accepted k hm := hk k ((List.mem_cons.1 hm).imp id fun hm => h.accepted k hm)

/-- An unpaid fee after one was marked paid is another one, as it was. -/
theorem find?_markPaid {hash h : Str} {f : FeeRow}
    (hg : (s.markPaid hash).addressFees.find? h = some f) (hp : f.paid = false) :
    s.addressFees.find? h = some f ∧ h ≠ hash := by
  rw [markPaid, Table.find?_modify] at hg
  obtain ⟨f₀, hg, rfl⟩ := Option.map_eq_some_iff.1 hg
  by_cases he : h = hash
  · simp [he] at hp
  · exact ⟨by simpa [he] using hg, he⟩

/-- What an insertion into the accepted keys says. -/
theorem acceptedKeys_insert? {xp : Str} (hk : s.acceptedKeys.insert? xp = some s'.acceptedKeys) :
    xp ∉ s.acceptedKeys.rows ∧
      ∀ k, k ∈ s'.acceptedKeys.rows ↔ k ∈ s.acceptedKeys.rows ∨ k = xp := by
  have hnone := (Table.insert?_eq_some.1 hk).1
  exact ⟨fun hm => Table.find?_eq_none.1 hnone xp hm rfl, fun k => Table.mem_insert? hk⟩

/-- **Every transaction keeps the invariant.** -/
theorem Owned.step (h : s.Owned keys) (hs : NamesStep now u filed s s')
    (hu : ∀ cx1 xp, u.brings = some (cx1, xp) → ShareOf cx1 xp) :
    s'.Owned (filed.toList.map backfillKey ++ keys) := by
  -- a key that was just accepted was not on file and is held by no fee
  have fresh : ∀ {cx1 xp}, s.acceptedKeys.insert? xp = some s'.acceptedKeys → ShareOf cx1 xp →
      backfillKey cx1 ∉ keys ∧
      (∀ {hash f}, s.addressFees.find? hash = some f → f.paid = false →
        backfillKey f.cx1 ≠ backfillKey cx1) ∧
      ∀ k, k = backfillKey cx1 ∨ k ∈ s.acceptedKeys.rows → k ∈ s'.acceptedKeys.rows := by
    intro cx1 xp hk hx
    obtain ⟨hnew, hmem⟩ := acceptedKeys_insert? hk
    rw [hx.backfillKey]
    exact ⟨fun hm => hnew (h.accepted _ hm), fun hg hp he => hnew (he ▸ (h.holds hg hp).2.1),
      fun k hm => (hmem k).2 hm.symm⟩
  obtain ⟨username, hn⟩ := shares_of_namesStep hs
  -- a transaction that puts nothing on file leaves every username its share
  have same : filed = none → ∀ {name row'}, s'.usernames.find? name = some row' →
      ∃ row, s.usernames.find? name = some row ∧ row.cx1 = row'.cx1 := by
    intro hc name row' hg
    rcases hn hg with hg | ⟨-, he⟩
    · exact hg
    · rw [hc] at he
      cases he
  have moved : ∀ {cx1}, filed = some cx1 → ∀ {name row'}, s'.usernames.find? name = some row' →
      (∃ row, s.usernames.find? name = some row ∧ row.cx1 = row'.cx1) ∨
        name = username ∧ row'.cx1 = cx1 := by
    intro cx1 hc name row' hg
    refine (hn hg).imp id fun ⟨he, hc'⟩ => ⟨he, ?_⟩
    rw [hc] at hc'
    exact (Option.some.inj hc').symm
  cases hs with
  | keep _ hf hk hc =>
    subst hc
    exact h.of_names (same rfl) (fun hg _ => hf ▸ hg) fun k hm => hk ▸ hm
  | advance _ _ _ hf hk hc =>
    subst hc
    exact h.of_names (same rfl) (fun hg _ => hf ▸ hg) fun k hm => hk ▸ hm
  | delete _ _ _ hf hk hc =>
    subst hc
    exact h.of_names (same rfl) (fun hg _ => hf ▸ hg) fun k hm => hk ▸ hm
  | lapse f hp hu' hg₀ ht _ hf hk hc =>
    subst hc
    exact h.of_names (same rfl) (fun hg hp' => (find?_markPaid (hf ▸ hg) hp').1) fun k hm => hk ▸ hm
  | register _ cx1 xp npub hu' ht _ hf hk hc =>
    subst hc
    have hx : ShareOf cx1 xp := hu cx1 xp (by rw [hu']; rfl)
    obtain ⟨hnew, hfee, hacc⟩ := fresh hk hx
    exact h.file username hx.isShare hnew (moved rfl) (fun hg hp => ⟨hf ▸ hg, hfee (hf ▸ hg) hp⟩)
      hacc
  | update _ cx1 xp row hu' hg₀ _ hf hk hc =>
    subst hc
    have hx : ShareOf cx1 xp := hu cx1 xp (by rw [hu']; rfl)
    obtain ⟨hnew, hfee, hacc⟩ := fresh hk hx
    exact h.file username hx.isShare hnew (moved rfl) (fun hg hp => ⟨hf ▸ hg, hfee (hf ▸ hg) hp⟩)
      hacc
  | settle f hp hu' hg₀ ht _ hf hk hc =>
    subst hc
    obtain ⟨hx, hacc, hnew⟩ := h.holds hg₀ hp
    refine h.file username hx hnew (moved rfl) (fun hg hp' => ?_)
      fun k hm => hk ▸ hm.elim (fun he => he ▸ hacc) id
    obtain ⟨hg, hne⟩ := find?_markPaid (hf ▸ hg) hp'
    exact ⟨hg, fun he => hne (h.holds_once hg hp' hg₀ hp he)⟩
  | hold f xp hp hu' ht _ hf hk hc =>
    subst hc
    have hx : ShareOf f.cx1 xp := hu f.cx1 xp (by rw [hu']; rfl)
    obtain ⟨hnew, hfee, hacc⟩ := fresh hk hx
    have cases' : ∀ {hash f'}, s'.addressFees.find? hash = some f' →
        f' = f ∧ hash = f.paymentHash ∨ s.addressFees.find? hash = some f' := by
      intro hash f' hg
      rw [Table.find?_insert? hf] at hg
      split at hg
      · rename_i he
        exact .inl ⟨(Option.some.inj hg).symm, he.symm⟩
      · exact .inr hg
    refine ⟨fun hg => ?_, fun hg hg' he => ?_, fun hg hp' => ?_, fun hg hp₁ hg' hp₂ he => ?_,
      h.nodup, fun k hm => hacc k (.inr (h.accepted k hm))⟩
    · obtain ⟨row, hg, he⟩ := same rfl hg
      exact he ▸ h.names hg
    · obtain ⟨row, hg, hr⟩ := same rfl hg
      obtain ⟨row', hg', hr'⟩ := same rfl hg'
      exact h.names_once hg hg' (by rw [hr, hr', he])
    · rcases cases' hg with ⟨rfl, -⟩ | hg
      · exact ⟨hx.isShare, hacc _ (.inl rfl), hnew⟩
      · obtain ⟨hx', ha, hnot⟩ := h.holds hg hp'
        exact ⟨hx', hacc _ (.inr ha), hnot⟩
    · rcases cases' hg with ⟨rfl, rfl⟩ | hg <;> rcases cases' hg' with ⟨rfl, rfl⟩ | hg'
      · rfl
      · exact absurd he.symm (hfee hg' hp₂)
      · exact absurd he (hfee hg hp₁)
      · exact h.holds_once hg hp₁ hg' hp₂ he

/-! ## Opening the database -/

/-- The shares of usernames. -/
def sharesOnFile (s : NoteStore) : List Str := s.usernames.rows.map UsernameRow.cx1

/-- The shares of fees that are not paid. -/
def sharesHeld (s : NoteStore) : List Str :=
  (s.addressFees.rows.filter fun f => !f.paid).map FeeRow.cx1

/-- A store that the mint may start from: no two of its shares, on file or held, have the same key,
and a key that is held was accepted. -/
structure FiledOnce (s : NoteStore) : Prop where
  shares : ∀ cx1 ∈ s.sharesOnFile ++ s.sharesHeld, IsShare cx1
  distinct : ((s.sharesOnFile ++ s.sharesHeld).map shareXp).Nodup
  accepted : ∀ cx1 ∈ s.sharesHeld, backfillKey cx1 ∈ s.acceptedKeys.rows

theorem filedOnce_empty : empty.FiledOnce :=
  ⟨by simp [sharesOnFile, sharesHeld, empty], by simp [sharesOnFile, sharesHeld, empty],
    by simp [sharesHeld, empty]⟩

theorem backfillKey_eq_iff {cx1 cx1' : Str} (h : IsShare cx1) (h' : IsShare cx1') :
    backfillKey cx1 = backfillKey cx1' ↔ shareXp cx1 = shareXp cx1' := by
  obtain ⟨xp, hx, hk⟩ := h.shareXp
  obtain ⟨xp', hx', hk'⟩ := h'.shareXp
  rw [hk, hk', hx, hx']
  constructor
  · intro he
    rw [hex_injective he]
  · intro he
    cases he
    rfl

theorem nodup_shareXp {shares : List Str} (h : ∀ cx1 ∈ shares, IsShare cx1) :
    (shares.map shareXp).Nodup ↔ (shares.map backfillKey).Nodup := by
  rw [List.Nodup, List.Nodup, List.pairwise_map, List.pairwise_map]
  exact List.Pairwise.iff_of_mem fun ha hb =>
    (not_congr (backfillKey_eq_iff (h _ ha) (h _ hb))).symm

theorem mem_insertOrIgnore_key {t : Table fun xp : Str => xp} {xp k : Str}
    (h : k ∈ t.rows ∨ k = xp) : k ∈ (t.insertOrIgnore xp).rows := by
  have hfind := Table.find?_insertOrIgnore t xp k
  rcases h with h | rfl
  · rw [Table.find?_of_mem (t := t) h] at hfind
    refine Table.mem_of_find? (k := k) (hfind.trans ?_)
    split <;> rfl
  · rw [if_pos rfl] at hfind
    have hmem := Table.mem_of_find? hfind
    cases hg : t.find? k with
    | none => rwa [hg] at hmem
    | some r =>
      rw [hg] at hmem
      exact Table.key_of_find? hg ▸ hmem

/-- Opening the database accepts what is on file, and forgets nothing. -/
theorem acceptedKeys_reopen {k : Str}
    (h : k ∈ s.acceptedKeys.rows ∨ k ∈ s.sharesOnFile.map backfillKey) :
    k ∈ s.reopen.acceptedKeys.rows := by
  have all : ∀ (rows : List UsernameRow) (t : Table fun xp : Str => xp),
      (k ∈ t.rows ∨ ∃ r ∈ rows, backfillKey r.cx1 = k) →
      k ∈ (rows.foldl (fun keys r => keys.insertOrIgnore (backfillKey r.cx1)) t).rows := by
    intro rows
    induction rows with
    | nil => simp
    | cons r rows ih =>
      intro t hk
      rw [List.foldl_cons]
      refine ih _ ?_
      rcases hk with hk | ⟨r', hr', rfl⟩
      · exact .inl (mem_insertOrIgnore_key (.inl hk))
      · rcases List.mem_cons.1 hr' with rfl | hr'
        · exact .inl (mem_insertOrIgnore_key (.inr rfl))
        · exact .inr ⟨r', hr', rfl⟩
  refine all _ _ (h.imp id fun hm => ?_)
  obtain ⟨cx1, hcx1, rfl⟩ := List.mem_map.1 hm
  obtain ⟨r, hr, rfl⟩ := List.mem_map.1 hcx1
  exact ⟨r, hr, rfl⟩

theorem FiledOnce.owned (h : s.FiledOnce) : s.reopen.Owned (s.sharesOnFile.map backfillKey) := by
  have hdistinct := (nodup_shareXp h.shares).1 h.distinct
  rw [List.map_append] at hdistinct
  obtain ⟨hnames, hheld, hdisjoint⟩ := List.nodup_append.1 hdistinct
  have onFile : ∀ {name row}, s.usernames.find? name = some row → row.cx1 ∈ s.sharesOnFile :=
    fun hg => List.mem_map_of_mem (Table.mem_of_find? hg)
  have mem_unpaid : ∀ {hash f}, s.addressFees.find? hash = some f → f.paid = false →
      f ∈ s.addressFees.rows.filter fun f => !f.paid := fun hg hp =>
    List.mem_filter.2 ⟨Table.mem_of_find? hg, by simp [hp]⟩
  have held : ∀ {hash f}, s.addressFees.find? hash = some f → f.paid = false →
      f.cx1 ∈ s.sharesHeld := fun hg hp => List.mem_map_of_mem (mem_unpaid hg hp)
  refine ⟨fun hg => ⟨h.shares _ (List.mem_append_left _ (onFile hg)),
    List.mem_map_of_mem (onFile hg)⟩, fun hg hg' he => ?_, fun hg hp => ?_,
    fun hg hp hg' hp' he => ?_, hnames, fun k hk => acceptedKeys_reopen (.inr hk)⟩
  · rw [sharesOnFile, List.map_map] at hnames
    have hrow := List.inj_on_of_nodup_map hnames (Table.mem_of_find? hg) (Table.mem_of_find? hg') he
    rw [← Table.key_of_find? hg, ← Table.key_of_find? hg', hrow]
  · refine ⟨h.shares _ (List.mem_append_right _ (held hg hp)),
      acceptedKeys_reopen (.inl (h.accepted _ (held hg hp))), fun hm => ?_⟩
    exact hdisjoint _ hm _ (List.mem_map_of_mem (held hg hp)) rfl
  · rw [sharesHeld, List.map_map] at hheld
    have hrow := List.inj_on_of_nodup_map hheld (mem_unpaid hg hp) (mem_unpaid hg' hp') he
    rw [← Table.key_of_find? hg, ← Table.key_of_find? hg', hrow]

/-- A method that brings a key finds it new and accepts it. -/
theorem acceptedKeys_brings {i : Input} {out : u.Out} {cx1 xp : Str}
    (h : u.apply i s = .ok (out, s')) (hb : u.brings = some (cx1, xp)) :
    s.acceptedKeys.insert? xp = some s'.acceptedKeys := by
  cases u with
  | registerUsername =>
    obtain ⟨s₁, h, he⟩ := map_eq_ok.1 h
    cases he
    cases hb
    obtain ⟨-, _, _, hk, -, rfl⟩ := registerUsername_ok h
    exact hk
  | holdUsername =>
    obtain ⟨s₁, h, he⟩ := map_eq_ok.1 h
    cases he
    cases hb
    obtain ⟨-, _, _, hk, -, rfl⟩ := holdUsername_ok h
    exact hk
  | updateUsername =>
    obtain ⟨s₁, h, he⟩ := map_eq_ok.1 h
    cases he
    cases hb
    obtain ⟨_, _, -, hk, rfl⟩ := updateUsername_ok h
    exact hk
  | _ => cases hb

/-- No transaction forgets an accepted key. -/
theorem acceptedKeys_of_namesStep (hs : NamesStep now u filed s s') {k : Str}
    (h : k ∈ s.acceptedKeys.rows) : k ∈ s'.acceptedKeys.rows := by
  have inserted : ∀ {xp}, s.acceptedKeys.insert? xp = some s'.acceptedKeys →
      k ∈ s'.acceptedKeys.rows := fun hk => ((acceptedKeys_insert? hk).2 k).2 (.inl h)
  cases hs with
  | register _ _ _ _ _ _ _ _ hk => exact inserted hk
  | hold _ _ _ _ _ _ _ hk => exact inserted hk
  | update _ _ _ _ _ _ _ _ hk => exact inserted hk
  | keep _ _ hk => exact hk ▸ h
  | advance _ _ _ _ hk => exact hk ▸ h
  | lapse _ _ _ _ _ _ _ hk => exact hk ▸ h
  | settle _ _ _ _ _ _ _ hk => exact hk ▸ h
  | delete _ _ _ _ hk => exact hk ▸ h

/-- What a transaction puts on file is a share, if what is held is. -/
theorem isShare_of_namesStep (hs : NamesStep now u filed s s')
    (hheld : ∀ {hash f}, s.addressFees.find? hash = some f → f.paid = false → IsShare f.cx1)
    (hu : ∀ cx1 xp, u.brings = some (cx1, xp) → ShareOf cx1 xp) : ∀ cx1 ∈ filed, IsShare cx1 := by
  intro cx1 hc
  cases hs with
  | register _ _ xp _ hu' _ _ _ _ hc' =>
    cases hc.symm.trans hc'
    exact (hu cx1 xp (by rw [hu']; rfl)).isShare
  | update _ _ xp _ hu' _ _ _ _ hc' =>
    cases hc.symm.trans hc'
    exact (hu cx1 xp (by rw [hu']; rfl)).isShare
  | settle f hp _ hg _ _ _ _ hc' =>
    cases hc.symm.trans hc'
    exact hheld hg hp
  | keep _ _ _ hc' => cases hc.symm.trans hc'
  | advance _ _ _ _ _ hc' => cases hc.symm.trans hc'
  | hold _ _ _ _ _ _ _ _ hc' => cases hc.symm.trans hc'
  | lapse _ _ _ _ _ _ _ _ hc' => cases hc.symm.trans hc'
  | delete _ _ _ _ _ hc' => cases hc.symm.trans hc'

end NoteStore

/-! ## Histories -/

section Histories

variable {d : Deps} {cfg : Settings d} {s : State} {w w' : World (mint cfg)} {a a' : Actor mintSig}
  {t : NoteStore} {keys : List Str} {k : Str}

/-- The shares that an event put on file. -/
def filedBy : Event (mint cfg) → List Str
  | .did _ (.write u) _ (.ok out) pre => (u.filed pre.store out).toList
  | _ => []

/-- The shares that a history put on file, newest first. -/
def filed (hist : List (Event (mint cfg))) : List Str := hist.flatMap filedBy

theorem MayWrite.shareOf {u : Update} {cx1 xp : Str} (h : MayWrite cfg w a u)
    (hb : u.brings = some (cx1, xp)) : ShareOf cx1 xp := by
  cases u with
  | registerUsername => cases hb; exact h.2.1
  | updateUsername => cases hb; exact h.2
  | holdUsername => cases hb; exact h.2.1
  | _ => cases hb

/-- What an event does to names: at most a transaction, and it puts on file what that does. -/
theorem Next.names {e : Event (mint cfg)} (h : Next (law cfg) w e w') :
    (filedBy e = [] ∧ w'.st.store.usernames = w.st.store.usernames ∧
        w'.st.store.addressFees = w.st.store.addressFees ∧
        ∀ k ∈ w.st.store.acceptedKeys.rows, k ∈ w'.st.store.acceptedKeys.rows) ∨
      ∃ a u i out, e = .did a (.write u) i (.ok out) w.st ∧ MayWrite cfg w a u ∧
        u.apply i w.st.store = .ok (out, w'.st.store) := by
  rcases Next.store h with ⟨hne, he⟩ | ⟨a, u, i, r, rfl, hu, hr⟩ | ⟨rfl, he⟩
  · refine .inl ⟨?_, by rw [he], by rw [he], fun k hk => he ▸ hk⟩
    cases e with
    | did a o i out pre =>
      cases o with
      | write u => exact absurd rfl (hne a u i out pre)
      | _ => rfl
    | _ => rfl
  · rcases Update.run_eq_some.1 hr with ⟨out, rfl, ho⟩ | ⟨e, rfl, -, -, he⟩
    · exact .inr ⟨a, u, i, out, rfl, hu, ho⟩
    · exact .inl ⟨rfl, by rw [he], by rw [he], fun k hk => he ▸ hk⟩
  · refine .inl ⟨rfl, by rw [he]; rfl, by rw [he]; rfl, fun k hk => ?_⟩
    rw [he]
    exact NoteStore.acceptedKeys_reopen (.inl hk)

theorem Next.owned {e : Event (mint cfg)} (h : Next (law cfg) w e w')
    (ho : w.st.store.Owned keys) :
    w'.st.store.Owned ((filedBy e).map NoteStore.backfillKey ++ keys) ∧
      ∀ cx1 ∈ filedBy e, IsShare cx1 := by
  rcases Next.names h with ⟨he, hn, hf, hk⟩ | ⟨a, u, i, out, rfl, hu, hap⟩
  · rw [he]
    exact ⟨ho.of_names (fun hg => ⟨_, hn ▸ hg, rfl⟩) (fun hg _ => hf ▸ hg) hk, by simp⟩
  · have hs := Update.namesStep hap
    have hb : ∀ cx1 xp, u.brings = some (cx1, xp) → ShareOf cx1 xp := fun _ _ hb => hu.shareOf hb
    have hheld : ∀ {hash f}, w.st.store.addressFees.find? hash = some f → f.paid = false →
        IsShare f.cx1 := fun hg hp => (ho.holds hg hp).1
    exact ⟨ho.step hs hb, fun cx1 hc =>
      NoteStore.isShare_of_namesStep hs hheld hb cx1 (Option.mem_toList.1 hc)⟩

/-- **What is on file fits together in every history.** -/
theorem Run.owned (h : Run (law cfg) s w) (ht : t.FiledOnce) (hs : s.store = t.reopen) :
    w.st.store.Owned ((filed w.hist ++ t.sharesOnFile).map NoteStore.backfillKey) ∧
      ∀ cx1 ∈ filed w.hist ++ t.sharesOnFile, IsShare cx1 := by
  induction h with
  | start => exact ⟨hs ▸ ht.owned, fun cx1 hc => ht.shares cx1 (List.mem_append_left _ hc)⟩
  | step h hn ih =>
    obtain ⟨ho, hx⟩ := Next.owned hn ih.1
    rw [hn.hist, filed, List.flatMap_cons, List.append_assoc, List.map_append]
    refine ⟨ho, fun cx1 hc => ?_⟩
    rcases List.mem_append.1 hc with hc | hc
    exacts [hx cx1 hc, ih.2 cx1 hc]

theorem Next.acceptedKeys {e : Event (mint cfg)} (h : Next (law cfg) w e w')
    (hk : k ∈ w.st.store.acceptedKeys.rows) : k ∈ w'.st.store.acceptedKeys.rows := by
  rcases Next.names h with ⟨-, -, -, hmono⟩ | ⟨a, u, i, out, -, -, hap⟩
  · exact hmono k hk
  · exact NoteStore.acceptedKeys_of_namesStep (Update.namesStep hap) hk

/-- **No key is accepted twice.** -/
theorem Run.accepted_once {u u' : Update} {i i' : Input} {out : u.Out} {out' : u'.Out}
    {pre pre' : State} {cx1 cx1' xp : Str} (hb : u.brings = some (cx1, xp))
    (hb' : u'.brings = some (cx1', xp)) :
    ¬ Before (law cfg) s (.did a (.write u) i (.ok out) pre)
      (.did a' (.write u') i' (.ok out') pre') w := by
  rintro ⟨w₀, w₁, w₂, w₃, h₀, hn, hf, hn', -⟩
  obtain ⟨-, hap⟩ := Next.write_ok hn
  obtain ⟨-, hap'⟩ := Next.write_ok hn'
  have hnow := (NoteStore.acceptedKeys_insert? (NoteStore.acceptedKeys_brings hap hb)).2 xp
  have hthen := (NoteStore.acceptedKeys_insert? (NoteStore.acceptedKeys_brings hap' hb')).1
  exact hthen (hf.keep (h₀.step hn) (hnow.2 (.inr rfl)) fun _ hn hk => Next.acceptedKeys hn hk)

/-- A key was put on file, and no username has it any more. -/
def Gone (t : NoteStore) (k : Str) (w : World (mint cfg)) : Prop :=
  k ∈ (filed w.hist ++ t.sharesOnFile).map NoteStore.backfillKey ∧
    ∀ {name row}, w.st.store.usernames.find? name = some row → NoteStore.backfillKey row.cx1 ≠ k

/-- A key that is gone stays gone. -/
theorem Gone.next {e : Event (mint cfg)} (h : Gone t k w) (hr : Run (law cfg) s w)
    (ht : t.FiledOnce) (hs : s.store = t.reopen) (hn : Next (law cfg) w e w') : Gone t k w' := by
  obtain ⟨ho, -⟩ := Run.owned (hr.step hn) ht hs
  have hk' : (filed w'.hist ++ t.sharesOnFile).map NoteStore.backfillKey =
      (filedBy e).map NoteStore.backfillKey ++
        (filed w.hist ++ t.sharesOnFile).map NoteStore.backfillKey := by
    rw [hn.hist, filed, List.flatMap_cons, List.append_assoc, List.map_append]
    rfl
  refine ⟨hk' ▸ List.mem_append_right _ h.1, fun hg he => ?_⟩
  rcases Next.names hn with ⟨-, hsame, -⟩ | ⟨a, u, i, out, rfl, -, hap⟩
  · exact h.2 (hsame ▸ hg) he
  · obtain ⟨_, hshares⟩ := NoteStore.shares_of_namesStep (Update.namesStep hap)
    rcases hshares hg with ⟨row, hg, hrow⟩ | ⟨-, hnew⟩
    · exact h.2 hg (by rw [hrow, he])
    · -- the key of a share that is put on file now was not on file before
      have hnodup := hk' ▸ ho.nodup
      have hmem : k ∈ (filedBy (.did a (.write u) i (.ok out) w.st : Event (mint cfg))).map
          NoteStore.backfillKey := by
        rw [← he]
        exact List.mem_map_of_mem (Option.mem_toList.2 hnew)
      exact (List.nodup_append.1 hnodup).2.2 _ hmem _ h.1 rfl

/-- A deletion that happened was allowed, and took the name off the file. -/
theorem Next.deleted {username : Str} {i : Input} {r : Except Exn Unit} {pre : State}
    (h : Next (law cfg) w (.did a (.write (.deleteUsername username)) i r pre) w') :
    pre = w.st ∧ MayWrite cfg w a (.deleteUsername username) ∧
      w'.st.store = w.st.store.deleteUsername username := by
  obtain ⟨hu, hpre, hr⟩ := Next.write h
  rcases Update.run_eq_some.1 hr with ⟨_, -, hap⟩ | ⟨_, -, hap, -⟩
  · have hst := (Prod.mk.inj (Except.ok.inj hap)).2
    exact ⟨hpre, hu, hst.symm⟩
  · cases hap

/-- **No key frees a name twice.** -/
theorem Run.freed_once (ht : t.FiledOnce) (hs : s.store = t.reopen) {username username' : Str}
    {i i' : Input} {pre pre' : State} {row row' : UsernameRow}
    (h : Before (law cfg) s (.did a (.write (.deleteUsername username)) i (.ok ()) pre)
      (.did a' (.write (.deleteUsername username')) i' (.ok ()) pre') w)
    (hg : pre.store.usernames.find? username = some row)
    (hg' : pre'.store.usernames.find? username' = some row') :
    shareXp row.cx1 ≠ shareXp row'.cx1 := by
  obtain ⟨w₀, w₁, w₂, w₃, h₀, hn, hf, hn', -⟩ := h
  obtain ⟨rfl, -, hstore⟩ := Next.deleted hn
  obtain ⟨rfl, -, -⟩ := Next.deleted hn'
  obtain ⟨ho, -⟩ := Run.owned h₀ ht hs
  have hgone : Gone t (NoteStore.backfillKey row.cx1) w₁ := by
    refine ⟨?_, fun {name row₁} hg₁ he => ?_⟩
    · rw [hn.hist]
      exact (ho.names hg).2
    · rw [hstore, NoteStore.deleteUsername, Table.find?_erase] at hg₁
      by_cases hname : name = username
      · rw [if_pos hname] at hg₁
        cases hg₁
      · rw [if_neg hname] at hg₁
        exact hname (ho.names_once hg₁ hg he)
  have hlater : Gone t (NoteStore.backfillKey row.cx1) w₂ :=
    hf.keep (h₀.step hn) hgone fun hr hn hg => hg.next hr ht hs hn
  obtain ⟨ho', -⟩ := Run.owned (hf.run (h₀.step hn)) ht hs
  intro hxp
  exact hlater.2 hg' ((NoteStore.backfillKey_eq_iff (ho.names hg).1 (ho'.names hg').1).2 hxp).symm

/-! ## Requests -/

/-- What a registration request carries. -/
structure OwnershipProof where
  action : ProofAction
  baseUrl : Str
  /-- The username in the path. -/
  name : Str
  form : Form

/-- The request that carries it. -/
def OwnershipProof.task (p : OwnershipProof) : Task :=
  .request ⟨p.baseUrl, match p.action with
    | .register => .registerUsername p.name p.form
    | .update => .updateRegisteredUsername p.name p.form
    | .unregister => .deleteRegisteredUsername p.name p.form⟩

variable (cfg) in
/-- The message that its signature has to be for. -/
def OwnershipProof.message (p : OwnershipProof) : Except Exn Str :=
  (mintDomain cfg p.baseUrl).map fun dom => registerMessage p.action dom (d.lower p.name)
    (d.lower ((p.form.get "cx1".toList).getD []))

/-- Two requests carry the same path username, share and signatures. -/
def OwnershipProof.Same (p p' : OwnershipProof) : Prop :=
  p.name = p'.name ∧ ∀ param ∈ ["cx1", "sig", "newsig"],
    p.form.get param.toList = p'.form.get param.toList

variable (d) in
/-- A signature in hex verifies a message under a key. -/
def Signs (key : Bytes) (sig message : Str) : Prop :=
  ∃ data, fromhex sig = some data ∧ d.schnorrVerify key data (d.sha256 (utf8 message)) = true

theorem signs_of_proves {action : ProofAction} {dom username cx1 sig : Str} {key : Bytes}
    (h : proves d action dom username cx1 key sig = true) :
    Signs d key sig (registerMessage action dom username (d.lower cx1)) :=
  (Option.any_eq_true _ _).1 h

/-- A request was answered, and not with an error. -/
def AnsweredOk (hist : List (Event (mint cfg))) (a : Actor mintSig) : Prop :=
  ∃ resp pre, .finished a (.ok resp) pre ∈ hist ∧ ∀ reason, resp ≠ .error reason

theorem AnsweredOk.rested (h : AnsweredOk w.hist a) (hr : Run (law cfg) s w) :
    ∃ w₀ resp, Rested cfg w₀ a resp ∧ (∀ reason, resp ≠ .error reason) ∧
      ∀ {u r}, Wrote w₀ a u r → Wrote w a u r := by
  obtain ⟨resp, pre, he, hok⟩ := h
  obtain ⟨w₀, w₁, -, hn, hf⟩ := hr.past he
  obtain ⟨-, -, hrest⟩ := hn.lawful
  refine ⟨w₀, resp, hrest resp rfl, hok, ?_⟩
  rintro u r ⟨i, pre, hm⟩
  exact ⟨i, pre, (hn.follows.trans hf).mem hm⟩

/-- A registration or an update that was answered OK brought the key of its share, on the strength
of its signature. -/
theorem AnsweredOk.brought (h : AnsweredOk w.hist a) (hr : Run (law cfg) s w) {p : OwnershipProof}
    (hp : a.task = p.task) (ha : p.action ≠ .unregister) :
    (∃ c share u out cx1, p.form.get "cx1".toList = some c ∧ decodeCx1 d c = some share ∧
      u.brings = some (cx1, hex (share.drop 33)) ∧ Wrote w a u (.ok out)) ∧
    ∃ sig m key, p.form.get "sig".toList = some sig ∧ p.message cfg = .ok m ∧
      Signs d key sig m := by
  obtain ⟨w₀, resp, hrest, hok, hlater⟩ := h.rested hr
  obtain ⟨action, baseUrl, name, form⟩ := p
  cases action with
  | register =>
    have hp : a.task = .request ⟨baseUrl, .registerUsername name form⟩ := hp
    simp only [Rested, hp] at hrest
    obtain ⟨c, share, sig, dom, hc, hshare, hsig, hdom, hproves, hwrote⟩ := hrest hok
    refine ⟨?_, sig, _, _, hsig, ?_, signs_of_proves hproves⟩
    · rcases hwrote with ⟨cx1, npub, hw⟩ | ⟨hash, pr, cx1, npub, amountMsat, expiresAt, hw⟩
      · exact ⟨c, share, .registerUsername (d.lower name) cx1 _ npub, (), cx1, hc, hshare, rfl,
          hlater hw⟩
      · exact ⟨c, share, .holdUsername hash pr (d.lower name) cx1 _ npub amountMsat expiresAt, (),
          cx1, hc, hshare, rfl, hlater hw⟩
    · rw [OwnershipProof.message, hdom, hc]
      rfl
  | update =>
    have hp : a.task = .request ⟨baseUrl, .updateRegisteredUsername name form⟩ := hp
    simp only [Rested, hp] at hrest
    obtain ⟨c, share, sig, dom, xp, cx1, hc, hshare, hsig, hdom, hproves, hw⟩ := hrest hok
    refine ⟨⟨c, share, .updateUsername (d.lower name) cx1 _, (), cx1, hc, hshare, rfl, hlater hw⟩,
      sig, _, _, hsig, ?_, signs_of_proves hproves⟩
    rw [OwnershipProof.message, hdom, hc]
    rfl
  | unregister => exact absurd rfl ha

/-- A deletion that was answered OK took its name off the file, on the strength of a signature
under the key that was on file for it. -/
theorem AnsweredOk.freed (h : AnsweredOk w.hist a) (hr : Run (law cfg) s w) {p : OwnershipProof}
    (hp : a.task = p.task) (ha : p.action = .unregister) :
    ∃ i pre row xp sig m,
      .did a (.write (.deleteUsername (d.lower p.name))) i (.ok ()) pre ∈ w.hist ∧
      pre.store.usernames.find? (d.lower p.name) = some row ∧ shareXp row.cx1 = .ok (some xp) ∧
      p.form.get "sig".toList = some sig ∧ p.message cfg = .ok m ∧ Signs d xp sig m := by
  obtain ⟨w₀, resp, hrest, hok, hlater⟩ := h.rested hr
  obtain ⟨action, baseUrl, name, form⟩ := p
  obtain rfl : action = .unregister := ha
  have hp : a.task = .request ⟨baseUrl, .deleteRegisteredUsername name form⟩ := hp
  simp only [Rested, hp] at hrest
  have hw : Wrote w a (.deleteUsername (d.lower name)) (.ok ()) := hlater (hrest hok)
  obtain ⟨i, pre, he⟩ := hw
  obtain ⟨w₁, w₂, -, hn, -⟩ := hr.past he
  obtain ⟨rfl, hu, -⟩ := Next.deleted hn
  obtain ⟨baseUrl', name', form', sig, row, xp, dom, htask, -, hsig, hrow, hxp, hdom, hproves⟩ := hu
  rw [hp] at htask
  cases htask
  refine ⟨i, w₁.st, row, xp, sig, _, he, hrow, hxp, hsig, ?_, signs_of_proves hproves⟩
  rw [OwnershipProof.message, hdom]
  rfl

/-- A message names what it proves. -/
theorem prefix_registerMessage (action : ProofAction) (dom username cx1 : Str) :
    "LNURLcash:".toList ++ action.word <+: registerMessage action dom username cx1 := by
  cases action with
  | unregister =>
    have hlit : "LNURLcash:".toList ++ ProofAction.word .unregister <+:
        "LNURLcash:unregister:".toList := by decide
    show _ <+: "LNURLcash:unregister:".toList ++ dom ++ ':' :: username
    rw [List.append_assoc]
    exact hlit.trans (List.prefix_append _ _)
  | register | update =>
    exact ((List.prefix_append _ (':' :: dom)).trans (List.prefix_append _ (':' :: username))).trans
      (List.prefix_append _ (':' :: cx1))

/-- **A message fixes its action.** -/
theorem registerMessage_action {action action' : ProofAction}
    {dom dom' username username' cx1 cx1' : Str}
    (h : registerMessage action dom username cx1 = registerMessage action' dom' username' cx1') :
    action = action' := by
  have hword := prefix_registerMessage action dom username cx1
  have hword' := prefix_registerMessage action' dom' username' cx1'
  rw [← h] at hword'
  have hwords := List.prefix_or_prefix_of_prefix hword hword'
  revert hwords
  cases action <;> cases action' <;> decide

theorem message_action {p p' : OwnershipProof} {m : Str} (hm : p.message cfg = .ok m)
    (hm' : p'.message cfg = .ok m) : p.action = p'.action := by
  obtain ⟨dom, -, rfl⟩ := map_eq_ok.1 hm
  obtain ⟨dom', -, he⟩ := map_eq_ok.1 hm'
  exact registerMessage_action he.symm

/-- Whatever was answered OK carried a signature that verifies its message. -/
theorem AnsweredOk.signed (h : AnsweredOk w.hist a) (hr : Run (law cfg) s w) {p : OwnershipProof}
    (hp : a.task = p.task) :
    ∃ sig m key, p.form.get "sig".toList = some sig ∧ p.message cfg = .ok m ∧
      Signs d key sig m := by
  by_cases ha : p.action = .unregister
  · obtain ⟨_, _, _, xp, sig, m, -, -, -, hsig, hm, hsigns⟩ := h.freed hr hp ha
    exact ⟨sig, m, xp, hsig, hm, hsigns⟩
  · exact (h.brought hr hp ha).2

/-- **An ownership proof takes effect once**, if a signature verifies a message under one key at
most, and one message at most.

Two requests that carry the same username, share and signatures and were both answered OK are one
request: two registrations or updates would put one key on file twice, two deletions would free two
names with one key, and a deletion and another request have different messages. And in every
history, restarts included, no key is put on file twice, for one username or for two, counting those
that were on file from the start. -/
theorem ownership_proof_once {c : Config (mint cfg)}
    (hkey : ∀ key key' sig digest, d.schnorrVerify key sig digest = true →
      d.schnorrVerify key' sig digest = true → key = key')
    (hmessage : ∀ key key' sig m m', d.schnorrVerify key sig (d.sha256 (utf8 m)) = true →
      d.schnorrVerify key' sig (d.sha256 (utf8 m')) = true → m = m')
    (ht : t.FiledOnce) (hs : s.store = t.reopen) (h : Reach s c) :
    (∀ a a' : Actor mintSig, ∀ p p' : OwnershipProof, a.task = p.task → a'.task = p'.task →
      AnsweredOk c.w.hist a → AnsweredOk c.w.hist a' → p.Same p' → a.tid = a'.tid) ∧
    ((filed c.w.hist ++ t.sharesOnFile).map shareXp).Nodup := by
  have hr : Run (law cfg) s c.w := Reach.law h
  refine ⟨fun a a' p p' hp hp' hok hok' hsame => ?_, ?_⟩
  · by_contra htid
    obtain ⟨-, hparams⟩ := hsame
    by_cases hact : p.action = .unregister ∨ p'.action = .unregister
    · have haction : p.action = p'.action := by
        obtain ⟨sig, m, key, hsig, hm, data, hdata, hverify⟩ := hok.signed hr hp
        obtain ⟨sig', m', key', hsig', hm', data', hdata', hverify'⟩ := hok'.signed hr hp'
        obtain rfl : sig = sig' := by
          rw [hparams "sig" (by simp), hsig'] at hsig
          exact (Option.some.inj hsig).symm
        obtain rfl : data = data' := Option.some.inj (hdata.symm.trans hdata')
        obtain rfl : m = m' := hmessage _ _ _ _ _ hverify hverify'
        exact message_action hm hm'
      -- one signature, so one message and one key: both are deletions, and of one key's names
      have hdel : p.action = .unregister ∧ p'.action = .unregister :=
        hact.elim (fun ha => ⟨ha, haction ▸ ha⟩) fun ha => ⟨haction.trans ha, ha⟩
      obtain ⟨i, pre, row, xp, sig, m, he, hrow, hxp, hsig, hm, data, hdata, hverify⟩ :=
        hok.freed hr hp hdel.1
      obtain ⟨i', pre', row', xp', sig', m', he', hrow', hxp', hsig', hm', data', hdata',
        hverify'⟩ := hok'.freed hr hp' hdel.2
      obtain rfl : sig = sig' := by
        rw [hparams "sig" (by simp), hsig'] at hsig
        exact (Option.some.inj hsig).symm
      obtain rfl : data = data' := Option.some.inj (hdata.symm.trans hdata')
      obtain rfl : m = m' := hmessage _ _ _ _ _ hverify hverify'
      have hsame : shareXp row.cx1 = shareXp row'.cx1 := by
        rw [hxp, hxp', hkey xp xp' data _ hverify hverify']
      have hne : (.did a (.write (.deleteUsername (d.lower p.name))) i (.ok ()) pre :
          Event (mint cfg)) ≠
            .did a' (.write (.deleteUsername (d.lower p'.name))) i' (.ok ()) pre' :=
        fun heq => htid (congrArg Actor.tid (Event.did.inj heq).1)
      rcases hr.before_or he he' hne with hbefore | hbefore
      · exact Run.freed_once ht hs hbefore hrow hrow' hsame
      · exact Run.freed_once ht hs hbefore hrow' hrow hsame.symm
    · rw [not_or] at hact
      obtain ⟨⟨x, share, u, out, cx1, hx, hshare, hb, hw⟩, -⟩ := hok.brought hr hp hact.1
      obtain ⟨⟨x', share', u', out', cx1', hx', hshare', hb', hw'⟩, -⟩ :=
        hok'.brought hr hp' hact.2
      obtain rfl : x = x' := by
        rw [hparams "cx1" (by simp), hx'] at hx
        exact (Option.some.inj hx).symm
      obtain rfl : share = share' := Option.some.inj (hshare.symm.trans hshare')
      obtain ⟨i, pre, he⟩ := hw
      obtain ⟨i', pre', he'⟩ := hw'
      have hne : (.did a (.write u) i (.ok out) pre : Event (mint cfg)) ≠
          .did a' (.write u') i' (.ok out') pre' := fun heq => by
        cases heq
        exact htid rfl
      rcases hr.before_or he he' hne with hbefore | hbefore
      · exact absurd hbefore (Run.accepted_once hb hb')
      · exact absurd hbefore (Run.accepted_once hb' hb)
  · obtain ⟨ho, hx⟩ := Run.owned hr ht hs
    exact (NoteStore.nodup_shareXp hx).2 ho.nodup

/-- The proof that frees `alice`. -/
def standInFreeing : OwnershipProof :=
  ⟨.unregister, "mint".toList, "alice".toList, standInForm .unregister "alice".toList 'p'⟩

/-- A name is registered, freed, registered with another share, and asked to be freed again with
the proof of the first time. -/
def freedRun : List (Choice standInMint) :=
  standInAsks 0 (.registerUsername "alice".toList (standInForm .register "alice".toList 'p')) ++
    standInGoes 2 0 ++
    standInAsks 3 (.deleteRegisteredUsername "alice".toList standInFreeing.form) ++
    standInGoes 3 1 ++
    standInAsks 7 (.registerUsername "alice".toList (standInForm .register "alice".toList 'z')) ++
    standInGoes 2 2 ++
    standInAsks 10 (.deleteRegisteredUsername "alice".toList standInFreeing.form) ++ standInGoes 2 3

/-- A request of this task has been answered with success. -/
def granted (t : Task) : Event (mint cfg) → Bool
  | .finished a (.ok (.registered none)) _ => decide (a.task = t)
  | _ => false

theorem AnsweredOk.of_granted {t : Task} {e : Event (mint cfg)} (h : granted t e = true)
    (he : e ∈ w.hist) : ∃ a : Actor mintSig, a.task = t ∧ AnsweredOk w.hist a := by
  unfold granted at h
  split at h
  · rename_i a pre
    exact ⟨a, of_decide_eq_true h, _, pre, he, by simp⟩
  · cases h

theorem ownership_proof_once_freed : ∃ c : Config standInMint, Reach State.initial c ∧
    ∃ a : Actor mintSig, a.task = standInFreeing.task ∧ AnsweredOk c.w.hist a ∧
      ∀ a' : Actor mintSig, a'.task = standInFreeing.task → AnsweredOk c.w.hist a' →
        a.tid = a'.tid := by
  have hrun : (standInRun freedRun).any
      (fun c => c.w.hist.any (granted standInFreeing.task)) = true := by decide +kernel
  obtain ⟨c, hc, he⟩ := exists_standInRun hrun
  obtain ⟨e, he, hok⟩ := List.any_eq_true.1 he
  obtain ⟨a, ha, hanswered⟩ := AnsweredOk.of_granted hok he
  have hkey : ∀ key key' sig digest, Deps.standIn.schnorrVerify key sig digest = true →
      Deps.standIn.schnorrVerify key' sig digest = true → key = key' := by
    intro key key' sig digest h h'
    simp only [Deps.standIn, Bool.and_eq_true, decide_eq_true_eq] at h h'
    exact List.append_cancel_right (h.2.symm.trans h'.2)
  have hmessage : ∀ key key' sig m m',
      Deps.standIn.schnorrVerify key sig (Deps.standIn.sha256 (utf8 m)) = true →
      Deps.standIn.schnorrVerify key' sig (Deps.standIn.sha256 (utf8 m')) = true → m = m' := by
    intro key key' sig m m' h h'
    simp only [Deps.standIn, Bool.and_eq_true, decide_eq_true_eq, id] at h h'
    exact utf8_injective (List.append_inj (h.2.symm.trans h'.2) (h.1.trans h'.1.symm)).2
  obtain ⟨honce, -⟩ := ownership_proof_once hkey hmessage NoteStore.filedOnce_empty rfl hc
  exact ⟨c, hc, a, ha, hanswered, fun a' ha' hok' =>
    honce a a' _ _ ha ha' hanswered hok' ⟨rfl, fun _ _ => rfl⟩⟩

/-! ## A signature that verifies two messages -/

/-- A stand-in whose signatures are keys, and verify every message. -/
def Deps.lax : Deps := { Deps.standIn with schnorrVerify := fun key sig _ => decide (sig = key) }

/-- A mint on it, without fees. -/
def Settings.lax : Settings .lax := { Settings.standIn with
  baseUrl_hostname := Settings.standIn.baseUrl_hostname
  onionUrl_hostname := Settings.standIn.onionUrl_hostname }

/-- What the owner of a share sends to it, whatever it is to prove. -/
def laxForm : Form :=
  ⟨[("cx1".toList, standInCx1 'p'),
    ("sig".toList, hex (((decodeCx1 .lax (standInCx1 'p')).getD []).drop 33))], []⟩

/-- The two requests. -/
def laxProof (action : ProofAction) : OwnershipProof :=
  ⟨action, "mint".toList, "alice".toList, laxForm⟩

/-- A name is registered, and freed with the same signature. -/
def laxRun : List (Choice (mint Settings.lax)) :=
  standInAsks 0 (.registerUsername "alice".toList laxForm) ++ standInGoes 2 0 ++
    standInAsks 3 (.deleteRegisteredUsername "alice".toList laxForm) ++ standInGoes 3 1

/-- **A signature may register a name and free it again**, if it verifies both messages under the
same key. -/
theorem ownership_proof_twice :
    (∀ key key' sig digest, Deps.lax.schnorrVerify key sig digest = true →
      Deps.lax.schnorrVerify key' sig digest = true → key = key') ∧
    NoteStore.empty.FiledOnce ∧ State.initial.store = NoteStore.empty.reopen ∧
    ∃ c : Config (mint Settings.lax), Reach State.initial c ∧
      ∃ a a' : Actor mintSig, ∃ p p' : OwnershipProof, a.task = p.task ∧ a'.task = p'.task ∧
        AnsweredOk c.w.hist a ∧ AnsweredOk c.w.hist a' ∧ p.Same p' ∧ a.tid ≠ a'.tid := by
  have hrun : (standInRun laxRun).any (fun c => c.w.hist.any (granted (laxProof .register).task) &&
      c.w.hist.any (granted (laxProof .unregister).task)) = true := by decide +kernel
  obtain ⟨c, hc, he⟩ := exists_standInRun hrun
  rw [Bool.and_eq_true, List.any_eq_true, List.any_eq_true] at he
  obtain ⟨⟨e, he, hok⟩, e', he', hok'⟩ := he
  obtain ⟨a, ha, hanswered⟩ := AnsweredOk.of_granted hok he
  obtain ⟨a', ha', hanswered'⟩ := AnsweredOk.of_granted hok' he'
  refine ⟨fun key key' sig _ h h' => ?_, NoteStore.filedOnce_empty, rfl, c, hc, a, a', _, _, ha,
    ha', hanswered, hanswered', ⟨rfl, fun _ _ => rfl⟩, fun htid => ?_⟩
  · exact (of_decide_eq_true h).symm.trans (of_decide_eq_true h')
  · obtain ⟨_, _, hf, -⟩ := hanswered
    obtain ⟨_, _, hf', -⟩ := hanswered'
    have hr : Run (law Settings.lax) State.initial c.w := Reach.law hc
    have heq : a = a' := hr.actor_eq (hr.joined hf rfl) (hr.joined hf' rfl) htid
    rw [heq, ha'] at ha
    exact absurd ha (by decide)

end Histories

end LnurlMint
