import LnurlMint.Claiming
import LnurlMint.Domains
import LnurlMint.ShareReadings

/-!
# Where a payment to an address goes

An invoice for an address is recorded under the name, and the share is looked up when the invoice
settles, so that one that is never paid leaves no unused index behind. Until then the name may be
moved, and the payment goes where it was moved to. It may also be freed. Then settling the invoice
raises, whoever tries and however often, because nobody has the name; or somebody else has
registered it, and is credited.

So it is decided by whether the name is freed between the moment at which the request for the
invoice reads the share and the moment at which the invoice is settled.

## Main definitions

* `registers`, `frees`, `moves` — what events do to a name
* `OfRegistration` — a share that the registration has, or had
* `Issued` — an invoice for a name, and what has happened since the name was looked up
* `CreditsRegistration`

## Main results

* `Follows.registration` — a name that is not freed stays with its registration
* `Follows.reregistered` — a name that is freed and on file was registered again
* `address_payment_credited`
-/

namespace LnurlMint

open Relational Interleave Loop

/-! ## One transaction -/

/-- The name that a transaction registers. -/
def Update.registers : (u : Update) → u.Out → Option Str
  | .registerUsername username .., _ => some username
  | .settleAddressFee _, some (username, true) => some username
  | .payAddressFeeWithNotes .., username => some username
  | _, _ => none

namespace NoteStore

variable {s s' : NoteStore} {now : ℤ} {u : Update} {username : Str} {row : UsernameRow}

/-- A name that a transaction registers was not on file. -/
theorem find?_of_registers {i : Input} {out : u.Out} (h : u.apply i s = .ok (out, s'))
    (hr : u.registers out = some username) : s.usernames.find? username = none := by
  cases u with
  | registerUsername =>
    obtain ⟨s₁, h, he⟩ := map_eq_ok.1 h
    cases hr
    exact (usernameTaken_eq_false.1 (registerUsername_ok h).1).1
  | settleAddressFee =>
    rcases settleAddressFee_ok h with ⟨rfl, -⟩ | ⟨f, -, -, ⟨rfl, -⟩ | ⟨rfl, ht, -⟩⟩
    · cases hr
    · cases hr
    · cases hr
      exact (usernameTaken_eq_false.1 ht).1
  | payAddressFeeWithNotes =>
    obtain ⟨-, -, f, -, -, -, -, -, rfl, ht, -⟩ := payAddressFeeWithNotes_ok h
    cases hr
    exact (usernameTaken_eq_false.1 ht).1
  | _ => cases hr

/-- A name on file is freed, or keeps its share, or is moved to another. -/
theorem find?_of_namesStep {filed : Option Str} (hs : NamesStep now u filed s s')
    (hrow : s.usernames.find? username = some row) : u = .deleteUsername username ∨
      ∃ row', s'.usernames.find? username = some row' ∧
        (row'.cx1 = row.cx1 ∨ ∃ xp, u = .updateUsername username row'.cx1 xp) := by
  have kept : s'.usernames = s.usernames → u = .deleteUsername username ∨
      ∃ row', s'.usernames.find? username = some row' ∧
        (row'.cx1 = row.cx1 ∨ ∃ xp, u = .updateUsername username row'.cx1 xp) :=
    fun hn => .inr ⟨row, hn ▸ hrow, .inl rfl⟩
  have inserted : ∀ {r : UsernameRow}, s.usernames.insert? r = some s'.usernames →
      u = .deleteUsername username ∨ ∃ row', s'.usernames.find? username = some row' ∧
        (row'.cx1 = row.cx1 ∨ ∃ xp, u = .updateUsername username row'.cx1 xp) := by
    intro r hn
    refine .inr ⟨row, ?_, .inl rfl⟩
    exact Table.find?_of_insert? hn hrow
  cases hs with
  | keep hn => exact kept hn
  | hold _ _ _ _ _ hn => exact kept hn
  | lapse _ _ _ _ _ hn => exact kept hn
  | register _ _ _ _ _ _ hn => exact inserted hn
  | settle _ _ _ _ _ hn => exact inserted hn
  | advance name index hn =>
    refine .inr ⟨_, by rw [hn, Table.find?_modify, hrow]; rfl, .inl ?_⟩
    split <;> rfl
  | update name cx1 xp row₀ hu _ hn =>
    refine .inr ⟨_, by rw [hn, Table.find?_modify, hrow]; rfl, ?_⟩
    split
    · rename_i he
      exact .inr ⟨xp, he ▸ hu⟩
    · exact .inl rfl
  | delete name hu hn =>
    by_cases he : username = name
    · exact .inl (he ▸ hu)
    · refine .inr ⟨row, ?_, .inl rfl⟩
      rw [hn, Table.find?_erase, if_neg he]
      exact hrow

/-- A name that comes on file is registered. -/
theorem registers_of_find? {i : Input} {out : u.Out} (h : u.apply i s = .ok (out, s'))
    (hnone : s.usernames.find? username = none) (hrow : s'.usernames.find? username = some row) :
    u.registers out = some username := by
  have kept : s'.usernames = s.usernames → u.registers out = some username := by
    intro hn
    rw [hn, hnone] at hrow
    cases hrow
  have inserted : ∀ {r : UsernameRow}, s.usernames.insert? r = some s'.usernames →
      r.username = username := by
    intro r hn
    rw [Table.find?_insert? hn] at hrow
    split at hrow
    · rename_i he
      exact he
    · rw [hnone] at hrow
      cases hrow
  cases Update.namesStep h with
  | keep hn => exact kept hn
  | hold _ _ _ _ _ hn => exact kept hn
  | lapse _ _ _ _ _ hn => exact kept hn
  | register _ _ _ _ hu _ hn =>
    obtain rfl := inserted hn
    subst hu
    rfl
  | settle f hp hu hg _ hn _ _ hfiled =>
    obtain rfl := inserted hn
    cases u with
    | settleAddressFee =>
      cases hu
      rcases settleAddressFee_ok h with ⟨rfl, -⟩ | ⟨f', hg', -, ⟨rfl, -⟩ | ⟨rfl, -⟩⟩
      · cases hfiled
      · cases hfiled
      · cases hg.symm.trans hg'
        rfl
    | payAddressFeeWithNotes =>
      cases hu
      obtain ⟨-, -, f', -, hg', -, -, -, rfl, -⟩ := payAddressFeeWithNotes_ok h
      cases hg.symm.trans hg'
      rfl
    | _ => cases hu
  | advance name index hn =>
    rw [hn, Table.find?_modify, hnone] at hrow
    cases hrow
  | update _ _ _ _ _ _ hn =>
    rw [hn, Table.find?_modify, hnone] at hrow
    cases hrow
  | delete _ _ hn =>
    rw [hn, Table.find?_erase, hnone, ite_self] at hrow
    cases hrow

end NoteStore

section Histories

variable {d : Deps} {cfg : Settings d} {s : State} {w w' : World (mint cfg)} {a : Actor mintSig}
  {hash username branch : Str} {since : List (Event (mint cfg))} {row : UsernameRow}

/-! ## One event -/

/-- The event registers a name. -/
def registers (username : Str) : Event (mint cfg) → Bool
  | .did _ (.write u) _ (.ok out) _ => u.registers out = some username
  | _ => false

/-- The event frees a name. -/
def frees (username : Str) : Event (mint cfg) → Bool
  | .did _ (.write (.deleteUsername name)) _ (.ok _) _ => name = username
  | _ => false

/-- The event moves a name to a share. -/
def moves (username cx1 : Str) : Event (mint cfg) → Bool
  | .did _ (.write (.updateUsername name cx1' _)) _ (.ok _) _ => name = username && cx1' = cx1
  | _ => false

/-- What an event does to names: nothing, or a transaction. -/
theorem Next.namesWritten {e : Event (mint cfg)} (h : Next (law cfg) w e w') :
    ((∀ username, registers username e = false ∧ frees username e = false) ∧
        w'.st.store.usernames = w.st.store.usernames) ∨
      ∃ a u i out, e = .did a (.write u) i (.ok out) w.st ∧
        u.apply i w.st.store = .ok (out, w'.st.store) := by
  rcases Next.store h with ⟨hne, he⟩ | ⟨a, u, i, r, rfl, -, hr⟩ | ⟨rfl, he⟩
  · refine .inl ⟨fun username => ?_, by rw [he]⟩
    cases e with
    | did a o i out pre =>
      cases o with
      | write u => exact absurd rfl (hne a u i out pre)
      | _ => exact ⟨rfl, rfl⟩
    | _ => exact ⟨rfl, rfl⟩
  · rcases Update.run_eq_some.1 hr with ⟨out, rfl, ho⟩ | ⟨e, rfl, -, -, he⟩
    · exact .inr ⟨a, u, i, out, rfl, ho⟩
    · refine .inl ⟨fun username => ⟨rfl, ?_⟩, by rw [he]⟩
      cases u <;> rfl
  · exact .inl ⟨fun _ => ⟨rfl, rfl⟩, by rw [he]; rfl⟩

/-- A name on file is freed, or stays with its registration, on its share or on one that it is moved
to. -/
theorem Next.named {e : Event (mint cfg)} (h : Next (law cfg) w e w')
    (hrow : w.st.store.usernames.find? username = some row) : frees username e = true ∨
      registers username e = false ∧ ∃ row', w'.st.store.usernames.find? username = some row' ∧
        (row'.cx1 = row.cx1 ∨ moves username row'.cx1 e = true) := by
  rcases Next.namesWritten h with ⟨hno, hsame⟩ | ⟨a, u, i, out, rfl, ho⟩
  · exact .inr ⟨(hno username).1, row, hsame ▸ hrow, .inl rfl⟩
  · rcases NoteStore.find?_of_namesStep (Update.namesStep ho) hrow with rfl | ⟨row', hrow', hx⟩
    · exact .inl (decide_eq_true rfl)
    · refine .inr ⟨?_, row', hrow', hx.imp id ?_⟩
      · refine decide_eq_false fun hr => ?_
        rw [NoteStore.find?_of_registers ho hr] at hrow
        cases hrow
      · rintro ⟨xp, rfl⟩
        simp [moves]

/-- A name that comes on file is registered. -/
theorem Next.appears {e : Event (mint cfg)} (h : Next (law cfg) w e w')
    (hnone : w.st.store.usernames.find? username = none)
    (hrow : w'.st.store.usernames.find? username = some row) : registers username e = true := by
  rcases Next.namesWritten h with ⟨-, hsame⟩ | ⟨a, u, i, out, rfl, ho⟩
  · rw [hsame, hnone] at hrow
    cases hrow
  · exact decide_eq_true (NoteStore.registers_of_find? ho hnone hrow)

/-- A name that is freed is not on file. -/
theorem Next.find?_of_frees {e : Event (mint cfg)} (h : Next (law cfg) w e w')
    (hf : frees username e = true) : w'.st.store.usernames.find? username = none := by
  rcases Next.namesWritten h with ⟨hno, -⟩ | ⟨a, u, i, out, rfl, ho⟩
  · rw [(hno username).2] at hf
    cases hf
  · cases u with
    | deleteUsername name =>
      obtain rfl : name = username := of_decide_eq_true hf
      have hstore : w.st.store.deleteUsername name = w'.st.store :=
        (Prod.mk.inj (Except.ok.inj ho)).2
      rw [← hstore, NoteStore.deleteUsername, Table.find?_erase, if_pos rfl]
    | _ => cases hf

/-! ## A registration -/

/-- A share of the registration that had this one before: nobody has registered the name since, and
the share is the same, or one that the name was moved to. -/
structure OfRegistration (username branch : Str) (since : List (Event (mint cfg))) (cx1 : Str) :
    Prop where
  unregistered : ∀ e ∈ since, registers username e = false
  moved : cx1 = branch ∨ ∃ e ∈ since, moves username cx1 e = true

/-- **A name that is not freed stays with its registration.** -/
theorem Follows.registration (h : Follows (law cfg) w w')
    (hrow : w.st.store.usernames.find? username = some row) (hh : w'.hist = since ++ w.hist)
    (hf : ∀ e ∈ since, frees username e = false) :
    ∃ row', w'.st.store.usernames.find? username = some row' ∧
      OfRegistration username row.cx1 since row'.cx1 := by
  induction h generalizing since with
  | refl =>
    obtain rfl := List.self_eq_append_left.1 hh
    exact ⟨row, hrow, by simp, .inl rfl⟩
  | @step w₁ w₂ e h hn ih =>
    obtain ⟨since, rfl, hs⟩ := h.since_cons hn hh
    rw [List.forall_mem_cons] at hf
    obtain ⟨row₁, hrow₁, hreg⟩ := ih hs hf.2
    rcases Next.named hn hrow₁ with hfreed | ⟨hno, row₂, hrow₂, hx⟩
    · rw [hf.1] at hfreed
      cases hfreed
    · refine ⟨row₂, hrow₂, List.forall_mem_cons.2 ⟨hno, hreg.unregistered⟩, ?_⟩
      rcases hx with hx | hmoved
      · rw [hx]
        exact hreg.moved.imp id fun ⟨e, he, hm⟩ => ⟨e, List.mem_cons_of_mem _ he, hm⟩
      · exact .inr ⟨e, List.mem_cons_self, hmoved⟩

/-- **A name that was freed and is on file was registered again.** -/
theorem Follows.reregistered (h : Follows (law cfg) w w') (hh : w'.hist = since ++ w.hist)
    (hf : ∃ e ∈ since, frees username e = true)
    (hrow : w'.st.store.usernames.find? username = some row) :
    ∃ e ∈ since, registers username e = true := by
  induction h generalizing since row with
  | refl =>
    obtain rfl := List.self_eq_append_left.1 hh
    simp at hf
  | @step w₁ w₂ e h hn ih =>
    obtain ⟨since, rfl, hs⟩ := h.since_cons hn hh
    rw [List.exists_mem_cons_iff] at hf ⊢
    rcases hf with hfreed | hf
    · rw [Next.find?_of_frees hn hfreed] at hrow
      cases hrow
    · cases hrow₁ : w₁.st.store.usernames.find? username with
      | none => exact .inl (Next.appears hn hrow₁ hrow)
      | some row₁ => exact .inr (ih hs hf hrow₁)

/-! ## An invoice for an address -/

/-- An address is its own lower case. -/
theorem LowersLetters.lower_addressName (hd : LowersLetters d) (name : Str) :
    d.lower (addressName d name) = addressName d name := by
  refine lower_eq_self fun x hx => ?_
  obtain ⟨c, -, hx⟩ := mem_lower ((List.takeWhile_prefix _).subset hx)
  exact (hd.mem_lower_singleton hx).1

/-- An invoice for a name: it was recorded by a request that had read this share of the name, and
`since` is what has happened since it did. -/
def Issued (hash username branch : Str) (since hist : List (Event (mint cfg))) : Prop :=
  ∃ a i pre before,
    hist = since ++ .did a (.read (.usernameBranch username)) i (some branch) pre :: before ∧
    ∃ pr amountMsat noteId zapRequest i' pre', .did a (.write
      (.createMint hash pr amountMsat noteId zapRequest (some username))) i' (.ok ()) pre' ∈ since

/-- Every mint was recorded, and unless it is settled it has the note that it was recorded with. -/
theorem Run.mint_recorded (h : Run (law cfg) State.initial w) {m : MintRow}
    (hm : w.st.store.mints.find? hash = some m) : ∃ a noteId,
      Wrote w a (.createMint hash m.pr m.amountMsat noteId m.zapRequest m.username) (.ok ()) ∧
        noteId.isNone ≠ m.username.isNone ∧ (m.minted = false → m.noteId = noteId) := by
  induction h generalizing m with
  | start => cases hm
  | @step w w' e h hn ih =>
    have hold : ∀ {m₀}, w.st.store.mints.find? hash = some m₀ → m₀.Continues m → ∃ a noteId,
        Wrote w' a (.createMint hash m.pr m.amountMsat noteId m.zapRequest m.username) (.ok ()) ∧
          noteId.isNone ≠ m.username.isNone ∧ (m.minted = false → m.noteId = noteId) := by
      intro m₀ hm₀ hc
      obtain ⟨a, noteId, ⟨i, pre, he⟩, hx, hnote⟩ := ih hm₀
      rw [hc.pr, hc.amountMsat, hc.zapRequest, hc.username] at he
      refine ⟨a, noteId, ⟨i, pre, hn.follows.mem he⟩, hc.username ▸ hx, fun hp => ?_⟩
      obtain ⟨hp₀, hid⟩ := hc.unsettled hp
      exact hid.symm.trans (hnote hp₀)
    rcases Next.store hn with ⟨-, he⟩ | ⟨a, u, i, r, rfl, -, hr⟩ | ⟨-, he⟩
    · exact hold (he ▸ hm) (.refl m)
    · rcases Update.run_eq_some.1 hr with ⟨out, rfl, ho⟩ | ⟨_, -, -, -, he⟩
      · rcases NoteStore.mint_of_mintsStep (Update.mintsStep ho) hm with ⟨m₀, hm₀, hc⟩ | ⟨rfl, hx⟩
        · exact hold hm₀ hc
        · refine ⟨a, m.noteId, ⟨i, w.st, ?_⟩, hx, fun _ => rfl⟩
          rw [hn.hist]
          exact List.mem_cons_self
      · exact hold (he ▸ hm) (.refl m)
    · rw [he] at hm
      exact hold hm (.refl m)

/-- A mint for a name was issued to it, for what the payer pays less the fee, and has no note before
it is settled. -/
theorem Run.issued_to (hlower : LowersLetters d) (h : Run (law cfg) State.initial w) {m : MintRow}
    (hm : w.st.store.mints.find? hash = some m) (hname : m.username = some username) :
    (∃ branch since, Issued hash username branch since w.hist) ∧
      (∃ a gross preimage,
        Heard w a (.createInvoice gross none m.zapRequest none) (.ok (m.pr, preimage)) ∧
        m.amountMsat = gross - mintFeeMsat cfg gross) ∧
      (m.minted = false → m.noteId = none) := by
  obtain ⟨a, noteId, ⟨i, pre, he⟩, hx, hnote⟩ := Run.mint_recorded h hm
  obtain rfl : noteId = none := by
    rw [hname] at hx
    simpa using hx
  obtain ⟨es, rest, hh⟩ := List.append_of_mem he
  obtain ⟨w₀, w₁, h₀, rfl, hn, hf⟩ := h.cut hh
  obtain ⟨⟨-, -, ⟨gross, preimage, hheard, -, -, hamount, -⟩, hissued⟩, -⟩ := Next.write hn
  refine ⟨?_, ⟨a, gross, preimage, ?_, hamount⟩, hnote⟩
  · obtain ⟨htask, branch, i', pre', hread⟩ := hissued username hname
    have hlow : d.lower username = username := by
      unfold Task.invoices at htask
      split at htask
      · cases htask
        exact hlower.lower_addressName _
      · cases htask
    rw [hlow] at hread
    obtain ⟨between, before, hb⟩ := List.append_of_mem hread
    refine ⟨branch, es ++ .did a (.write (.createMint hash m.pr m.amountMsat none m.zapRequest
      m.username)) i (.ok ()) pre :: between, a, i', pre', before, ?_, m.pr, m.amountMsat, none,
      m.zapRequest, i, pre, ?_⟩
    · rw [hh, hb, List.append_assoc, List.cons_append]
    · rw [hname]
      simp
  · obtain ⟨pre', he'⟩ := hheard.heard
    exact ⟨pre', (hn.follows.trans hf).mem he'⟩

/-! ## Settling it -/

/-- Where a share's derivation raises, it raises from there on. -/
theorem shareNoteId_raises_mono {cx1 : Str} {legacy : Bool} {data : Bytes} {e : Exn} {j index : ℕ}
    (hshare : shareOnFile cx1 = .ok (some (legacy, data))) (he : shareNoteId d cx1 j = .error e)
    (hle : j ≤ index) : ∃ e', shareNoteId d cx1 index = .error e' := by
  cases legacy with
  | false =>
    rw [shareNoteId_current hshare] at he
    cases he
  | true =>
    have hlarge : 2 ^ 32 ≤ j := by
      by_contra hlt
      rw [shareNoteId_superseded hshare, legacyDerivePubkey, if_neg hlt] at he
      split at he <;> cases he
    exact ⟨_, shareNoteId_overflow hshare (hlarge.trans hle)⟩

namespace NoteStore

/-- Settling a mint for a name adds a note of its amount, under a key of the share on file. -/
theorem settleMint_credits {s s' : NoteStore} {now : ℤ} {m : MintRow} {derive : DeriveNote}
    {out : Option ℤ} (h : s.settleMint now hash (some derive) = .ok (out, s'))
    (hm : s.mints.find? hash = some m) (hp : m.minted = false) (hid : m.noteId = none)
    (hname : m.username = some username) : out = some m.amountMsat ∧
      ∃ row index id, s.usernames.find? username = some row ∧ row.nextIndex ≤ index ∧
        s.Usable (derive row.cx1) index id ∧
        s'.mints.find? hash = some { m with minted := true, noteId := some id } ∧
        ∀ id', s'.notes.find? id' =
          if id' = id then some (newNote now (id, m.amountMsat)) else s.notes.find? id' := by
  rcases settleMint_ok h with ⟨-, -, hno⟩ | ⟨m', notes, hm', -, rfl,
    ⟨_, hid', -⟩ | ⟨name, derive', pk, index, row, -, hname', hd, hrow, hpk, huse, hpassed, hins,
      rfl⟩⟩
  · rcases hno m hm with hminted | ⟨-, hnone⟩
    · rw [hp] at hminted
      cases hminted
    · rw [hname] at hnone
      cases hnone
  · cases hm.symm.trans hm'
    rw [hid] at hid'
    cases hid'
  · cases hm.symm.trans hm'
    cases hname.symm.trans hname'
    cases hd
    refine ⟨rfl, row, index, pk, hrow, hpassed.1, ⟨hpk, huse⟩, ?_, fun id' => ?_⟩
    · simp [markMinted, nameMintNote, Table.find?_modify, hm]
    · rw [Table.find?_insert? hins]
      exact if_congr eq_comm rfl rfl

/-- Settling a mint for a name succeeds exactly if the share on file has a usable index left. -/
theorem settleMint_succeeds_iff {s : NoteStore} (now : ℤ) {m : MintRow} {legacy : Bool}
    {data : Bytes} (hm : s.mints.find? hash = some m) (hp : m.minted = false)
    (hid : m.noteId = none) (hname : m.username = some username)
    (hrow : s.usernames.find? username = some row)
    (hshare : shareOnFile row.cx1 = .ok (some (legacy, data))) :
    (∃ out s', s.settleMint now hash (some (shareNoteId d)) = .ok (out, s')) ↔
      ∃ index, row.nextIndex ≤ index ∧ ∃ id, s.Usable (shareNoteId d row.cx1) index id := by
  constructor
  · rintro ⟨out, s', h⟩
    obtain ⟨-, row', index, id, hrow', hle, hu, -⟩ := settleMint_credits h hm hp hid hname
    cases hrow.symm.trans hrow'
    exact ⟨index, hle, id, hu⟩
  · rintro ⟨index, hle, id, hpk, huse⟩
    have hu : (s.markMinted hash).Usable (shareNoteId d row.cx1) index id :=
      ⟨hpk, (idInUse_markMinted hash id).trans huse⟩
    have hleaves : ∃ r, Leaves ((s.markMinted hash).claimTurn (shareNoteId d row.cx1))
        row.nextIndex r :=
      (exists_leaves_search claimTurn_counts).2 ⟨index, hle, _, claimTurn_picks.2 ⟨rfl, hu⟩⟩
    rcases (claimEnds_iff_leaves (s := s.markMinted hash) hrow hshare).2 hleaves with
      ⟨j, pk, -, ⟨-, hfree⟩, -, hclaim⟩ | ⟨e, hraised, -⟩
    · rw [idInUse_markMinted] at hfree
      have hnone : s.notes.insert? (newNote now (pk, m.amountMsat)) ≠ none := fun hnone =>
        Table.insert?_eq_none.1 hnone (idInUse_eq_false.1 hfree).1
      obtain ⟨notes, hins⟩ := Option.ne_none_iff_exists'.1 hnone
      refine ⟨some m.amountMsat, { ((s.markMinted hash).setNextIndex username (j + 1)).nameMintNote
        hash pk with notes }, ?_⟩
      rw [settleMint, hm]
      simp only [hp, hid, hname, hclaim]
      exact bind_eq_ok.2 ⟨_, rfl, bind_eq_ok.2 ⟨_, insertNote_ok.2 ⟨notes, hins, rfl⟩, rfl⟩⟩
    · -- a derivation raises only where all later ones do
      obtain ⟨j, hj, hr, hbefore⟩ := (leaves_search claimTurn_counts).1 hraised
      by_cases hlt : index < j
      · have hgoes := hbefore index hle hlt
        rw [claimTurn_picks.2 ⟨rfl, hu⟩] at hgoes
        cases hgoes
      · obtain ⟨e', he'⟩ :=
          shareNoteId_raises_mono hshare (claimTurn_raises.1 hr) (Nat.not_lt.1 hlt)
        rw [he'] at hpk
        cases hpk

variable (d) in
/-- Nobody has the name, or its share has a usable index left. -/
def Unexhausted (s : NoteStore) (username : Str) : Prop :=
  ∀ row, s.usernames.find? username = some row → ∃ index, row.nextIndex ≤ index ∧
    ∃ id, s.Usable (shareNoteId d row.cx1) index id

end NoteStore

variable (d) in
/-- From one store to the next the registration is credited that an invoice was issued to: one note
is added, of this amount, under a key of a share of the registration. -/
def CreditsRegistration (username branch : Str) (since : List (Event (mint cfg)))
    (amountMsat now : ℤ) (s s' : NoteStore) : Prop :=
  ∃ row index id, s.usernames.find? username = some row ∧
    OfRegistration username branch since row.cx1 ∧ shareNoteId d row.cx1 index = .ok (some id) ∧
    s.notes.find? id = none ∧ ∀ id', s'.notes.find? id' =
      if id' = id then some (NoteStore.newNote now (id, amountMsat)) else s.notes.find? id'

/-- An invoice was issued on a share that the name had. -/
theorem Issued.read (h : Issued hash username branch since w.hist) (hr : Run (law cfg) s w) :
    ∃ w₁ row, Follows (law cfg) w₁ w ∧ w.hist = since ++ w₁.hist ∧
      w₁.st.store.usernames.find? username = some row ∧ row.cx1 = branch := by
  obtain ⟨a, i, pre, before, hh, -⟩ := h
  obtain ⟨w₀, w₁, -, rfl, hn, hf⟩ := hr.cut hh
  obtain ⟨hout, hst⟩ := Next.read hn
  obtain ⟨row, hrow, hcx1⟩ := Option.map_eq_some_iff.1 hout.symm
  exact ⟨w₁, row, hf, hn.hist ▸ hh, hst ▸ hrow, hcx1⟩

/-- **Settling an invoice for a name credits the registration that it was issued to exactly if the
name has not been freed since**, as long as there is a usable index. -/
theorem Run.credits_registration_iff (h : Run (law cfg) State.initial w) {m : MintRow} (now : ℤ)
    (hm : w.st.store.mints.find? hash = some m) (hp : m.minted = false) (hid : m.noteId = none)
    (hname : m.username = some username) (hissued : Issued hash username branch since w.hist) :
    (∃ s', w.st.store.settleMint now hash (some (shareNoteId d)) = .ok (some m.amountMsat, s') ∧
      CreditsRegistration d username branch since m.amountMsat now w.st.store s') ↔
    (∀ e ∈ since, frees username e = false) ∧ w.st.store.Unexhausted d username := by
  obtain ⟨w₁, row₁, hf, hh, hrow₁, rfl⟩ := hissued.read h
  constructor
  · rintro ⟨s', ho, row, index, id, hrow, hreg, -⟩
    refine ⟨?_, fun row' hrow' => ?_⟩
    · by_contra hfreed
      simp only [not_forall, Bool.not_eq_false] at hfreed
      obtain ⟨e, he, hfree⟩ := hfreed
      obtain ⟨e', he', hregisters⟩ := Follows.reregistered hf hh ⟨e, he, hfree⟩ hrow
      rw [hreg.unregistered e' he'] at hregisters
      cases hregisters
    · obtain ⟨-, row₂, j, id₂, hrow₂, hle, hu, -⟩ :=
        NoteStore.settleMint_credits ho hm hp hid hname
      cases hrow'.symm.trans hrow₂
      exact ⟨j, hle, id₂, hu⟩
  · rintro ⟨hfree, hleft⟩
    obtain ⟨row, hrow, hreg⟩ := Follows.registration hf hrow₁ hh hfree
    have hempty : NoteStore.empty.Shares := .of_forms
      (by simp [NoteStore.sharesOnFile, NoteStore.sharesHeld, NoteStore.empty])
    obtain ⟨f, hfields⟩ := isShare_iff.1 ((Run.shares h hempty).names hrow)
    obtain ⟨out, s', ho⟩ := (NoteStore.settleMint_succeeds_iff now hm hp hid hname hrow
      (hfields ▸ f.shareOnFile_cx1)).2 (hleft row hrow)
    obtain ⟨rfl, row', index, id, hrow', -, hu, -, hnotes⟩ :=
      NoteStore.settleMint_credits ho hm hp hid hname
    cases hrow.symm.trans hrow'
    exact ⟨s', ho, row, index, id, hrow, hreg, hu.1, (NoteStore.idInUse_eq_false.1 hu.2).1, hnotes⟩

/-- **A payment to an address is credited to the registration that its invoice was issued to exactly
if the name is not freed before it settles**, as long as the share on file has a usable index.

Every mint for a name was issued on a share that the name had, for what is paid less the fee, and is
credited once. Until then, settling it adds one note of its amount under a key of the registration's
share, which may have been moved, exactly if nobody has freed the name since the share was read. And
every attempt that was made to settle one did so, and the note is still there, exactly if nobody had
freed the name by then. -/
theorem address_payment_credited (hlower : LowersLetters d) {c : Config (mint cfg)}
    (h : Reach State.initial c) :
    (∀ m ∈ c.w.st.store.mints.rows, ∀ username, m.username = some username →
      (∃ branch since, Issued m.paymentHash username branch since c.w.hist) ∧
      (∃ a gross preimage,
        Heard c.w a (.createInvoice gross none m.zapRequest none) (.ok (m.pr, preimage)) ∧
        m.amountMsat = gross - mintFeeMsat cfg gross) ∧
      c.w.hist.countP (credits m.paymentHash) = (if m.minted then 1 else 0) ∧
      (m.minted = false → ∀ branch since now,
        Issued m.paymentHash username branch since c.w.hist →
        ((∃ s', c.w.st.store.settleMint now m.paymentHash (some (shareNoteId d)) =
            .ok (some m.amountMsat, s') ∧
          CreditsRegistration d username branch since m.amountMsat now c.w.st.store s') ↔
        (∀ e ∈ since, frees username e = false) ∧ c.w.st.store.Unexhausted d username))) ∧
    ∀ later a hash derive i r pre before m username branch since,
      c.w.hist = later ++ .did a (.write (.settleMint hash derive)) i r pre :: before →
      pre.store.mints.find? hash = some m → m.minted = false → m.username = some username →
      Issued hash username branch since before →
      ((r = .ok (some m.amountMsat) ∧ ∃ row index id m' n,
          pre.store.usernames.find? username = some row ∧
          OfRegistration username branch since row.cx1 ∧
          shareNoteId d row.cx1 index = .ok (some id) ∧
          c.w.st.store.mints.find? hash = some m' ∧ m'.noteId = some id ∧
          c.w.st.store.notes.find? id = some n ∧ n.amountMsat = m.amountMsat) ↔
        (∀ e ∈ since, frees username e = false) ∧ pre.store.Unexhausted d username) := by
  have hrun : Run (law cfg) State.initial c.w := Reach.law h
  constructor
  · intro m hmem username hname
    have hm : c.w.st.store.mints.find? m.paymentHash = some m := Table.find?_of_mem hmem
    obtain ⟨hissued, hnet, hid⟩ := Run.issued_to hlower hrun hm hname
    refine ⟨hissued, hnet, ?_, fun hp branch since now hi =>
      Run.credits_registration_iff hrun now hm hp (hid hp) hname hi⟩
    rw [Run.credited hrun rfl, NoteStore.mintSettled_of_find? hm]
    cases m.minted <;> rfl
  · intro later a hash derive i r pre before m username branch since hh hm hp hname hissued
    obtain ⟨w₀, w₁, h₀, rfl, hn, hf⟩ := hrun.cut hh
    obtain ⟨⟨rfl, -⟩, rfl, hr⟩ := Next.write hn
    obtain ⟨-, -, hid⟩ := Run.issued_to hlower h₀ hm hname
    rw [← Run.credits_registration_iff h₀ i.now hm hp (hid hp) hname hissued]
    constructor
    · rintro ⟨rfl, row, index, id, m', n, hrow, hreg, -⟩
      have ho : w₀.st.store.settleMint i.now hash (some (shareNoteId d)) =
          .ok (some m.amountMsat, w₁.st.store) := (Next.write_ok hn).2
      obtain ⟨-, row', index', id', hrow', -, hu, -, hnotes⟩ :=
        NoteStore.settleMint_credits ho hm hp (hid hp) hname
      cases hrow.symm.trans hrow'
      exact ⟨w₁.st.store, ho, row, index', id', hrow, hreg, hu.1,
        (NoteStore.idInUse_eq_false.1 hu.2).1, hnotes⟩
    · rintro ⟨s', ho, row, -, -, hrow, hreg, -⟩
      obtain ⟨rfl, rfl⟩ : r = .ok (some m.amountMsat) ∧ s' = w₁.st.store := by
        rcases Update.run_eq_some.1 hr with ⟨out, rfl, ho'⟩ | ⟨e, -, he, -⟩
        · cases ho.symm.trans ho'
          exact ⟨rfl, rfl⟩
        · cases ho.symm.trans he
      obtain ⟨-, row', index, id, hrow', -, hu, hm₁, hnotes⟩ :=
        NoteStore.settleMint_credits ho hm hp (hid hp) hname
      cases hrow.symm.trans hrow'
      obtain ⟨m', hm', hid', -⟩ := Follows.mint_named hf (h₀.step hn) hm₁ rfl
      obtain ⟨n, hfind, hamount, -⟩ :=
        (Follows.evolves hf).note ((hnotes id).trans (if_pos rfl))
      exact ⟨rfl, row, index, id, m', n, hrow, hreg, hu.1, hm', hid', hfind, hamount⟩

end Histories

/-! ## A name that is freed -/

/-- The payer's request for an invoice. -/
def standInPayer : Actor mintSig :=
  ⟨3, .request ⟨"mint".toList, .getPayCallbackForUsername "alice".toList 10000 none none none⟩⟩

/-- Alice registers her name, and an invoice for it is made out. -/
def soldRun : List (Choice standInMint) :=
  standInRegisters 0 "alice".toList 'p' 0 ++ standInSells 3 "alice".toList "h".toList 0

/-- The invoice is looked up and found paid, under this number. -/
def lookedUpRun (tid : ℕ) : List (Choice standInMint) :=
  standInAsks tid (.verifyInvoice "h".toList) ++ standInGoes 5 3 ++
    [.answer tid (standInAnswer [] true)] ++ standInGoes 1 3

theorem lowersLetters_standIn : LowersLetters .standIn where
  ne_nil c _ := List.cons_ne_nil c []
  own c hc x hx := by
    obtain rfl := List.mem_singleton.1 hx
    exact .inr ⟨hc, rfl⟩

theorem address_payment_credited_alice : ∃ c : Config standInMint, Reach State.initial c ∧
    ∃ m ∈ c.w.st.store.mints.rows, m.username = some "alice".toList ∧
      c.w.hist.countP (credits m.paymentHash) = 1 := by
  have hrun : (standInRun (soldRun ++ lookedUpRun 9)).any (fun c =>
      c.w.st.store.mints.rows.any fun m => m.username = some "alice".toList && m.minted) =
        true := by
    decide +kernel
  obtain ⟨c, hc, hm⟩ := exists_standInRun hrun
  obtain ⟨m, hm, hp⟩ := List.any_eq_true.1 hm
  simp only [Bool.and_eq_true, decide_eq_true_eq] at hp
  obtain ⟨-, -, hcount, -⟩ :=
    (address_payment_credited lowersLetters_standIn hc).1 m hm "alice".toList hp.1
  exact ⟨c, hc, m, hm, hp.1, by rw [hcount, if_pos hp.2]⟩

/-- An attempt to settle a mint raised. -/
def settleRaised (hash : Str) : Event standInMint → Bool
  | .did _ (.write (.settleMint h _)) _ (.error _) _ => h = hash
  | _ => false

theorem settleRaised_eq_true {hash : Str} {e : Event standInMint} (h : settleRaised hash e = true) :
    ∃ a derive i x pre, e = .did a (.write (.settleMint hash derive)) i (.error x) pre := by
  unfold settleRaised at h
  split at h
  · obtain rfl := of_decide_eq_true h
    exact ⟨_, _, _, _, _, rfl⟩
  · cases h

theorem credits_eq_true {hash : Str} {e : Event standInMint} (h : credits hash e = true) :
    ∃ a derive i amountMsat pre,
      e = .did a (.write (.settleMint hash derive)) i (.ok (some amountMsat)) pre := by
  unfold credits at h
  split at h
  · obtain rfl := of_decide_eq_true h
    exact ⟨_, _, _, _, _, rfl⟩
  · cases h

/-- The payer's request recorded the invoice. -/
def payerRecorded (hash : Str) : Event standInMint → Bool
  | .did a (.write (.createMint h _ _ _ _ (some username))) _ (.ok _) _ =>
    a.tid = standInPayer.tid && a.task = standInPayer.task && h = hash && username = "alice".toList
  | _ => false

theorem payerRecorded_eq_true {hash : Str} {e : Event standInMint}
    (h : payerRecorded hash e = true) : ∃ pr amountMsat noteId zapRequest i pre,
      e = .did standInPayer (.write (.createMint hash pr amountMsat noteId zapRequest
        (some "alice".toList))) i (.ok ()) pre := by
  unfold payerRecorded at h
  split at h
  · rename_i a hash' pr amountMsat noteId zapRequest username i out pre
    obtain ⟨tid, task⟩ := a
    simp only [Bool.and_eq_true, decide_eq_true_eq] at h
    obtain ⟨⟨⟨rfl, rfl⟩, rfl⟩, rfl⟩ := h
    exact ⟨pr, amountMsat, noteId, zapRequest, i, pre, rfl⟩
  · cases h

/-- The payer's request read alice's share. -/
def payerRead : Event standInMint → Bool
  | .did a (.read (.usernameBranch username)) _ (some _) _ =>
    a.tid = standInPayer.tid && a.task = standInPayer.task && username = "alice".toList
  | _ => false

theorem payerRead_eq_true {e : Event standInMint} (h : payerRead e = true) : ∃ branch i pre,
    e = .did standInPayer (.read (.usernameBranch "alice".toList)) i (some branch) pre := by
  unfold payerRead at h
  split at h
  · rename_i a username i branch pre
    obtain ⟨tid, task⟩ := a
    simp only [Bool.and_eq_true, decide_eq_true_eq] at h
    obtain ⟨⟨rfl, rfl⟩, rfl⟩ := h
    exact ⟨branch, i, pre, rfl⟩
  · cases h

/-- There are such events in a history one after the other, the newest first. -/
def inOrder : List (Event standInMint → Bool) → List (Event standInMint) → Bool
  | [], _ => true
  | _ :: _, [] => false
  | p :: ps, e :: hist => p e && inOrder ps hist || inOrder (p :: ps) hist

theorem inOrder_cons {p : Event standInMint → Bool} {ps : List (Event standInMint → Bool)}
    {hist : List (Event standInMint)} (h : inOrder (p :: ps) hist = true) :
    ∃ later e before, hist = later ++ e :: before ∧ p e = true ∧ inOrder ps before = true := by
  induction hist with
  | nil => cases h
  | cons e hist ih =>
    rw [inOrder, Bool.or_eq_true, Bool.and_eq_true] at h
    rcases h with ⟨hp, hrest⟩ | h
    · exact ⟨[], e, hist, rfl, hp, hrest⟩
    · obtain ⟨later, e', before, rfl, hp, hrest⟩ := ih h
      exact ⟨e :: later, e', before, rfl, hp, hrest⟩

/-- **A payment to a name that was freed is lost, or goes to whoever has the name then.** -/
theorem address_payment_lost :
    (∃ c : Config standInMint, Reach State.initial c ∧ ∃ m ∈ c.w.st.store.mints.rows,
      m.username = some "alice".toList ∧ m.minted = false ∧ ∃ a derive i x pre,
        .did a (.write (.settleMint m.paymentHash derive)) i (.error x) pre ∈ c.w.hist) ∧
    ∃ c : Config standInMint, Reach State.initial c ∧
      ∃ later a hash derive i amountMsat pre before branch since,
        c.w.hist = later ++
          .did a (.write (.settleMint hash derive)) i (.ok (some amountMsat)) pre :: before ∧
        Issued hash "alice".toList branch since before ∧
        (∃ e ∈ since, frees "alice".toList e = true) ∧
        ∀ cx1, ¬ OfRegistration "alice".toList branch since cx1 := by
  constructor
  · have hrun : (standInRun (soldRun ++ standInFrees 9 "alice".toList 'p' 1 ++
        lookedUpRun 13)).any (fun c => c.w.st.store.mints.rows.any fun m =>
          m.username = some "alice".toList && !m.minted &&
            c.w.hist.any (settleRaised m.paymentHash)) = true := by
      decide +kernel
    obtain ⟨c, hc, h⟩ := exists_standInRun hrun
    obtain ⟨m, hm, hp⟩ := List.any_eq_true.1 h
    simp only [Bool.and_eq_true, decide_eq_true_eq, Bool.not_eq_true', List.any_eq_true] at hp
    obtain ⟨⟨hname, hminted⟩, e, he, hraised⟩ := hp
    obtain ⟨a, derive, i, x, pre, rfl⟩ := settleRaised_eq_true hraised
    exact ⟨c, hc, m, hm, hname, hminted, a, derive, i, x, pre, he⟩
  · have hrun : (standInRun (soldRun ++ standInFrees 9 "alice".toList 'p' 1 ++
        standInRegisters 13 "alice".toList 'z' 2 ++ lookedUpRun 16)).any (fun c =>
          inOrder [credits "h".toList, registers "alice".toList, frees "alice".toList,
            payerRecorded "h".toList, payerRead] c.w.hist) = true := by
      decide +kernel
    obtain ⟨c, hc, h⟩ := exists_standInRun hrun
    obtain ⟨later, e₁, rest, hh, hcredits, h⟩ := inOrder_cons h
    obtain ⟨l₁, e₂, _, rfl, hregisters, h⟩ := inOrder_cons h
    obtain ⟨l₂, e₃, _, rfl, hfrees, h⟩ := inOrder_cons h
    obtain ⟨l₃, e₄, _, rfl, hrecorded, h⟩ := inOrder_cons h
    obtain ⟨l₄, e₅, before, rfl, hread, -⟩ := inOrder_cons h
    obtain ⟨a, derive, i, amountMsat, pre, rfl⟩ := credits_eq_true hcredits
    obtain ⟨pr, amountMsat', noteId, zapRequest, i', pre', he₄⟩ := payerRecorded_eq_true hrecorded
    obtain ⟨branch, i'', pre'', rfl⟩ := payerRead_eq_true hread
    refine ⟨c, hc, later, a, _, derive, i, amountMsat, pre, _, branch,
      l₁ ++ e₂ :: (l₂ ++ e₃ :: (l₃ ++ e₄ :: l₄)), hh, ?_, ⟨e₃, by simp, hfrees⟩, fun cx1 h => ?_⟩
    · exact ⟨standInPayer, i'', pre'', before, by simp, pr, amountMsat', noteId, zapRequest, i',
        pre', by simp [he₄]⟩
    · rw [h.unregistered e₂ (by simp)] at hregisters
      cases hregisters

end LnurlMint
