import LnurlMint.Credits
import Mathlib.Algebra.Order.BigOperators.Group.List
import Mathlib.Tactic.Linarith
import Mathlib.Tactic.Ring

/-!
# No inflation

What holders hold and what they have redeemed never exceeds what was paid in. A merge gives back a
base fee for every note but one, without asking where the notes came from, so the bound needs a
potential: an unspent note counts for its amount and one base fee. Minting a note costs at least
that; a swap conserves it, because the law lets it give out no more; a melt gives up the base fee.

## Main definitions

* `NoteStore.unspentNotes`, `redeemed`, `paidIn` — what is held, was redeemed, was paid in
* `potential` — what unspent notes count for
* `invoiced` — the funding source makes invoices for the amount it was asked for

## Main results

* `potential_apply` — what one transaction does to the potential
* `no_inflation`
-/

namespace LnurlMint

open Relational Interleave

/-! ## What notes count for -/

/-- How many notes are unspent. -/
def NoteStore.unspentNotes (s : NoteStore) : ℕ := (s.notes.rows.filter fun n => !n.spent).length

/-- What these notes are worth, as far as they are unspent. -/
def NoteStore.unspentWorth (s : NoteStore) (ids : List Str) : ℤ :=
  s.notes.sum fun n => if n.id ∈ ids ∧ n.spent = false then n.amountMsat else 0

/-- What a note counts for: its amount and one base fee, while it is unspent. -/
def NoteRow.counts (base : ℤ) (n : NoteRow) : ℤ := if n.spent then 0 else n.amountMsat + base

/-- What all notes count for. -/
def potential (base : ℤ) (s : NoteStore) : ℤ := s.notes.sum (NoteRow.counts base)

theorem potential_eq (base : ℤ) (s : NoteStore) :
    potential base s = s.outstandingMsat + base * s.unspentNotes := by
  unfold potential NoteStore.outstandingMsat NoteStore.unspentNotes Table.sum
  induction s.notes.rows with
  | nil => simp
  | cons n rows ih =>
    rw [List.map_cons, List.sum_cons, ih, List.map_cons, List.sum_cons, List.filter_cons]
    cases hs : n.spent with
    | true => simp [NoteRow.counts, hs]
    | false =>
      simp only [NoteRow.counts, hs, Bool.false_eq_true, if_false, Bool.not_false, if_true,
        List.length_cons]
      push_cast
      ring

/-! ## One transaction -/

/-- The notes that a method turns spent for good, for something outside the mint. -/
def Update.redeems : Update → List Str
  | finalizeMelt noteIds => noteIds
  | payAddressFeeWithNotes burnIds .. => burnIds
  | _ => []

/-- A swap gives out no more than it burns, base fees included. -/
def Fair (base : ℤ) (s : NoteStore) (burnIds mintNoteIds : List Str) (mintAmounts : List ℤ) :
    Prop :=
  mintNoteIds.length = mintAmounts.length ∧
    mintAmounts.sum + base * mintAmounts.length ≤ s.worth burnIds + base * burnIds.length

namespace NoteStore

variable {s s' : NoteStore} {base now : ℤ}

@[simp] theorem unspentWorth_nil : s.unspentWorth [] = 0 := by
  simp [unspentWorth, Table.sum]

/-- Turning notes spent gives up what they count for, which is at least what they are worth. -/
theorem potential_redeem (hb : 0 ≤ base) {ids : List Str} {f : NoteRow → NoteRow} {hf}
    (hn : s'.notes = s.notes.modifyEach ids f hf) (idem : ∀ n, f (f n) = f n)
    (hspent : ∀ n, (f n).spent = true) :
    potential base s' + s.unspentWorth ids ≤ potential base s := by
  unfold potential unspentWorth
  rw [hn, Table.sum_modifyEach _ _ _ _ idem, ← Table.sum_add]
  refine List.sum_le_sum fun n _ => ?_
  by_cases hid : n.id ∈ ids <;> cases hs : n.spent <;>
    simp [NoteRow.counts, hid, hs, hspent, hb]

/-- What notes that can be burned count for. -/
theorem sum_counts_of_burnable {ids : List Str} (hburn : ∀ id ∈ ids, s.Burnable id) :
    (ids.map fun id => (s.notes.find? id).elim 0 (NoteRow.counts base)).sum =
      s.worth ids + base * ids.length := by
  unfold worth
  induction ids with
  | nil => simp
  | cons id ids ih =>
    obtain ⟨n, hn, hs, -⟩ := hburn id List.mem_cons_self
    have ih := ih fun id' hid' => hburn id' (List.mem_cons_of_mem _ hid')
    simp only [List.map_cons, List.sum_cons, ih, hn, Option.elim_some, NoteRow.counts, hs,
      Bool.false_eq_true, if_false, List.length_cons]
    push_cast
    ring

variable (base) in
/-- Burning distinct notes gives up what they are worth and their base fees. -/
theorem potential_burnNotes {ids : List Str} (hd : ids.Nodup)
    (hburn : ∀ id ∈ ids, s.Burnable id) :
    potential base (s.burnNotes ids) + (s.worth ids + base * ids.length) = potential base s := by
  rw [← sum_counts_of_burnable hburn, ← Table.sum_ite_mem _ hd, potential, potential, burnNotes,
    Table.sum_modifyEach, ← Table.sum_add]
  · refine Table.sum_congr fun n _ => ?_
    by_cases hid : n.id ∈ ids <;> simp [NoteRow.counts, hid]
  · exact fun _ => rfl

variable (base now) in
/-- What new notes count for. -/
theorem sum_counts_newNote {ids : List Str} {amounts : List ℤ}
    (hlen : ids.length = amounts.length) :
    (((ids.zip amounts).map (newNote now)).map (NoteRow.counts base)).sum =
      amounts.sum + base * amounts.length := by
  induction ids generalizing amounts with
  | nil =>
    obtain rfl : amounts = [] := List.length_eq_zero_iff.1 hlen.symm
    simp
  | cons id ids ih =>
    cases amounts with
    | nil => cases hlen
    | cons amount amounts =>
      have ih := ih (Nat.succ.inj hlen)
      simp only [List.zip_cons_cons, List.map_cons, List.sum_cons, ih, NoteRow.counts, newNote,
        Bool.false_eq_true, if_false, List.length_cons]
      push_cast
      ring

variable (base) in
/-- What a swap does to the potential. -/
theorem Swapped.potential_eq {burnIds mintNoteIds : List Str} {mintAmounts : List ℤ}
    {toUsername : Option Str} (h : s.Swapped s' now burnIds mintNoteIds mintAmounts toUsername)
    (hlen : mintNoteIds.length = mintAmounts.length) :
    potential base s' + (s.worth burnIds + base * burnIds.length) =
      potential base s + (mintAmounts.sum + base * mintAmounts.length) := by
  obtain ⟨notes, burns, _, _, _, _, -, -, hr, -, rfl⟩ := h.left
  have hburn := potential_burnNotes base h.burn_nodup h.burnable
  have hnew : potential base { s with notes, burns } =
      potential base (s.burnNotes burnIds) + (mintAmounts.sum + base * mintAmounts.length) := by
    rw [← sum_counts_newNote base now hlen]
    unfold potential Table.sum
    rw [hr, List.map_append, List.sum_append]
  linarith

/-- **A fair swap raises no potential.** -/
theorem Swapped.potential_le {burnIds mintNoteIds : List Str} {mintAmounts : List ℤ}
    {toUsername : Option Str} (h : s.Swapped s' now burnIds mintNoteIds mintAmounts toUsername)
    (hfair : Fair base s burnIds mintNoteIds mintAmounts) :
    potential base s' ≤ potential base s := by
  have heq := h.potential_eq base hfair.1
  have hle := hfair.2
  linarith

/-- A rewrite that leaves amounts and spent flags alone leaves the potential alone. -/
theorem potential_rewrite {ids : List Str} {f : NoteRow → NoteRow} {hf}
    (hn : s'.notes = s.notes.modifyEach ids f hf) (idem : ∀ n, f (f n) = f n)
    (hsame : ∀ n, (f n).counts base = n.counts base) : potential base s' = potential base s := by
  rw [potential, potential, hn, Table.sum_modifyEach _ _ _ _ idem]
  refine Table.sum_congr fun n _ => ?_
  by_cases hid : n.id ∈ ids
  · rw [if_pos hid, hsame]
  · rw [if_neg hid]

end NoteStore

open NoteStore in
/-- What is neither a settlement nor a redemption raises no potential. -/
theorem NotesStep.potential_le {base now : ℤ} {u : Update} {s s' : NoteStore}
    (hu : ∀ h derive, u ≠ .settleMint h derive) (hr : u.redeems = [])
    (hs : NotesStep (Fair base s) now u s s') : potential base s' ≤ potential base s := by
  cases hs with
  | keep hn => exact le_of_eq (congrArg (Table.sum · (NoteRow.counts base)) hn)
  | credit out hu' =>
    obtain ⟨h, derive, rfl⟩ := hu'
    exact absurd rfl (hu h derive)
  | swap s₀ hn hm hb' burnIds mintIds amounts toUser hfair hs =>
    have hfair₀ : Fair base s₀ burnIds mintIds amounts := by rwa [Fair, worth, hn]
    have hle := hs.potential_le hfair₀
    rwa [potential, potential, hn] at hle
  | burn ids hu' hd hburn hn =>
    obtain ⟨h, total, rfl⟩ := hu'
    obtain rfl : ids = [] := hr
    exact le_of_eq (congrArg (Table.sum · (NoteRow.counts base)) hn)
  | reserve ids hash _ _ hs =>
    subst hs
    exact le_of_eq (potential_rewrite rfl (fun _ => rfl) fun _ => rfl)
  | finalize ids hu' hs =>
    subst hu' hs
    obtain rfl : ids = [] := hr
    exact le_refl _
  | restore ids _ hs =>
    subst hs
    exact le_of_eq (potential_rewrite rfl (fun _ => rfl) fun _ => rfl)

open NoteStore in
/-- **What a transaction other than a settlement redeems, it takes from the potential.** -/
theorem potential_apply {base : ℤ} {i : Input} {u : Update} {s s' : NoteStore} {out : u.Out}
    (hb : 0 ≤ base) (hok : u.SwapsMeet (Fair base s)) (hu : ∀ h derive, u ≠ .settleMint h derive)
    (h : u.apply i s = .ok (out, s')) :
    potential base s' + s.unspentWorth u.redeems ≤ potential base s := by
  have other : u.redeems = [] → potential base s' + s.unspentWorth u.redeems ≤ potential base s :=
    fun hr => by
      rw [hr, unspentWorth_nil, add_zero]
      exact (Update.notesStep hok h).potential_le hu hr
  cases u with
  | finalizeMelt ids =>
    cases h
    exact potential_redeem hb rfl (fun _ => rfl) fun _ => rfl
  | payAddressFeeWithNotes ids =>
    obtain ⟨-, -, f, us, -, -, -, -, -, -, -, rfl⟩ := payAddressFeeWithNotes_ok h
    exact potential_redeem hb rfl (fun _ => rfl) fun _ => rfl
  | _ => exact other rfl

/-- A settlement adds what its note counts for. -/
theorem potential_settleMint (base : ℤ) {now : ℤ} {hash : Str} {derive : Option DeriveNote}
    {out : Option ℤ} {s s' : NoteStore} (h : s.settleMint now hash derive = .ok (out, s')) :
    (out = none ∧ potential base s' = potential base s) ∨
      ∃ m, s.mints.find? hash = some m ∧ out = some m.amountMsat ∧
        potential base s' = potential base s + (m.amountMsat + base) := by
  rcases NoteStore.settleMint_ok h with ⟨rfl, rfl, -⟩ | ⟨m, notes, hg, -, rfl, hs⟩
  · exact .inl ⟨rfl, rfl⟩
  · refine .inr ⟨m, hg, rfl, ?_⟩
    rcases hs with ⟨id, -, hi, rfl⟩ | ⟨_, _, pk, _, _, -, -, -, -, -, -, -, hi, rfl⟩
    · exact Table.sum_insert? hi _
    · exact Table.sum_insert? hi _

/-! ## What is paid in -/

section Prices

variable {d : Deps} {cfg : Settings d}

/-- The fee is at least its flat part. -/
theorem baseFeeMsat_le_mintFeeMsat (cfg : Settings d) {amountMsat : ℤ} (h : 0 ≤ amountMsat) :
    (cfg.baseFeeMsat : ℤ) ≤ mintFeeMsat cfg amountMsat := by
  have hppm : 0 ≤ amountMsat * cfg.feePpm := Int.mul_nonneg h (Int.natCast_nonneg _)
  simp only [mintFeeMsat]
  omega

variable (d) in
/-- The amount of an invoice. -/
def invoiceAmount (pr : Str) : ℤ :=
  match d.decodeInvoice pr with
  | .ok inv => inv.amountMsat.getD 0
  | .error _ => 0

variable (d) in
/-- Every note that a mint credits, with one base fee, is worth at most the mint's invoice. -/
def Priced (base : ℤ) (s : NoteStore) : Prop :=
  ∀ h m, s.mints.find? h = some m → m.amountMsat + base ≤ invoiceAmount d m.pr

/-- A transaction keeps the prices, if the invoice it may record is for its amount and the fee. -/
theorem Priced.step {base now : ℤ} {u : Update} {s s' : NoteStore} (hp : Priced d base s)
    (hs : MintsStep now u s s')
    (hnew : ∀ h pr amountMsat id zap username,
      u = .createMint h pr amountMsat id zap username → amountMsat + base ≤ invoiceAmount d pr) :
    Priced d base s' := by
  intro hash m hm
  rcases NoteStore.mint_of_mintsStep hs hm with ⟨m₀, hm₀, hc⟩ | ⟨hu, -⟩
  · have hle := hp _ _ hm₀
    rwa [hc.amountMsat, hc.pr] at hle
  · exact hnew _ _ _ _ _ _ hu

variable (d) in
/-- What the invoices of the settled mints were for. -/
def NoteStore.paidIn (s : NoteStore) : ℤ :=
  s.mints.sum fun m => if m.minted then invoiceAmount d m.pr else 0

/-- Nothing but a settlement changes what is paid in. -/
theorem paidIn_of_mintsStep {now : ℤ} {u : Update} {s s' : NoteStore}
    (hu : ∀ h derive, u ≠ .settleMint h derive) (hs : MintsStep now u s s') :
    s'.paidIn d = s.paidIn d := by
  unfold NoteStore.paidIn
  cases hs with
  | keep hm => rw [hm]
  | mint ids hf hm => rw [hm]
  | receipt h receiptId hm =>
    rw [hm, Table.sum_modify_of_eq]
    exact fun _ => rfl
  | create m hu' hp hx hf hm =>
    rw [Table.sum_insert? hm, hp]
    simp
  | settle m id derive hu' => exact absurd hu' (hu _ _)

/-- A settlement pays in its invoice. -/
theorem paidIn_settleMint {now : ℤ} {hash : Str} {derive : Option DeriveNote} {out : Option ℤ}
    {s s' : NoteStore} (h : s.settleMint now hash derive = .ok (out, s')) :
    (out = none ∧ s'.paidIn d = s.paidIn d) ∨
      ∃ m, s.mints.find? hash = some m ∧ out = some m.amountMsat ∧
        s'.paidIn d = s.paidIn d + invoiceAmount d m.pr := by
  rcases NoteStore.settleMint_ok h with ⟨rfl, rfl, -⟩ | ⟨m, notes, hg, hp, rfl, hs⟩
  · exact .inl ⟨rfl, rfl⟩
  have hmark : (s.markMinted hash).paidIn d = s.paidIn d + invoiceAmount d m.pr := by
    rw [NoteStore.paidIn, NoteStore.markMinted, Table.sum_modify, hg]
    simp [NoteStore.paidIn, hp]
  refine .inr ⟨m, hg, rfl, ?_⟩
  rcases hs with ⟨id, -, -, rfl⟩ | ⟨_, _, pk, _, _, -, -, -, -, -, -, -, -, rfl⟩
  · exact hmark
  · have hname : ((s.markMinted hash).nameMintNote hash pk).paidIn d =
        (s.markMinted hash).paidIn d := by
      rw [NoteStore.paidIn, NoteStore.nameMintNote, Table.sum_modify_of_eq]
      · rfl
      · exact fun _ => rfl
    exact hname.trans hmark

end Prices

/-! ## Histories -/

section Histories

variable {d : Deps} {cfg : Settings d} {s : State} {w w' : World (mint cfg)} {a : Actor mintSig}

/-- What an event redeems. -/
def redeemedBy : Event (mint cfg) → ℤ
  | .did _ (.write u) _ (.ok _) pre => pre.store.unspentWorth u.redeems
  | _ => 0

/-- What was redeemed so far. -/
def redeemed (hist : List (Event (mint cfg))) : ℤ := (hist.map redeemedBy).sum

/-- Unless the event is an invoice created for another amount than it was asked for. -/
def invoiced : Event (mint cfg) → Bool
  | .answered _ (.createInvoice amountMsat ..) (.ok (pr, _)) _ => invoiceAmount d pr = amountMsat
  | _ => true

/-- A split charges a base fee, and a merge gives one back for every note but one. -/
theorem SwapAmounts.fair {totalMsat : ℤ} {notes : ℕ} {amount : Option ℤ} {mintAmounts : List ℤ}
    (h : SwapAmounts cfg totalMsat notes amount mintAmounts) (hn : 0 < notes) :
    mintAmounts.sum + cfg.baseFeeMsat * mintAmounts.length ≤
      totalMsat + cfg.baseFeeMsat * notes := by
  cases amount with
  | none =>
    rw [show mintAmounts = [_] from h]
    simp only [List.sum_singleton, List.length_singleton, Nat.cast_one]
    linarith
  | some x =>
    obtain ⟨-, -, rfl⟩ := h
    have hone : (cfg.baseFeeMsat : ℤ) * 1 ≤ cfg.baseFeeMsat * notes :=
      mul_le_mul_of_nonneg_left (by exact_mod_cast hn) (Int.natCast_nonneg _)
    simp only [List.sum_cons, List.sum_nil, List.length_cons, List.length_nil]
    push_cast
    linarith

/-- The swaps and transfers that the law allows are fair. -/
theorem MayWrite.fair {u : Update} (h : MayWrite cfg w a u) :
    u.SwapsMeet (Fair cfg.baseFeeMsat w.st.store) := by
  cases u with
  | swap burnIds mintNoteIds mintAmounts =>
    obtain ⟨_, k1, amount, _, _, o1, o2, -, hs, hn, ho, rfl, hamts, -⟩ := h
    exact ⟨hamts.length_eq ho, hamts.fair (List.length_pos_iff.2 (hn.ne_nil hs.1))⟩
  | transferToUsername =>
    obtain ⟨_, _, _, _, _, id, -, -, rfl, -, -, rfl⟩ := h
    intro pk
    exact ⟨rfl, by simp⟩
  | _ => trivial

/-- What the law lets be recorded for an invoice leaves room for the base fee. -/
theorem MayWrite.priced {h pr : Str} {amountMsat : ℤ} {id zap username : Option Str}
    (hu : MayWrite cfg w a (.createMint h pr amountMsat id zap username))
    (hinv : ∀ e ∈ w.hist, invoiced e = true) :
    amountMsat + cfg.baseFeeMsat ≤ invoiceAmount d pr := by
  obtain ⟨-, -, ⟨gross, preimage, hjust, -, hmin, rfl, -, -⟩, -⟩ := hu
  obtain ⟨pre, hheard⟩ := hjust.heard
  have hamount : invoiceAmount d pr = gross := by simpa [invoiced] using hinv _ hheard
  have hgross : 0 ≤ gross := by omega
  have hfee := baseFeeMsat_le_mintFeeMsat cfg hgross
  omega

theorem Run.priced (h : Run (law cfg) s w) (hs : Priced d cfg.baseFeeMsat s.store)
    (hinv : ∀ e ∈ w.hist, invoiced e = true) : Priced d cfg.baseFeeMsat w.st.store := by
  refine Run.store_induct h hs (fun h₀ hf hu hp ho => ?_) fun hp => hp
  refine hp.step (Update.mintsStep ho) ?_
  rintro h pr amountMsat id zap username rfl
  exact hu.priced fun e he => hinv e (hf.mem he)

/-- One event takes what it redeems from the potential, or adds less than is paid in. -/
theorem Next.conserves {e : Event (mint cfg)} (h : Next (law cfg) w e w')
    (hp : Priced d cfg.baseFeeMsat w.st.store) :
    potential cfg.baseFeeMsat w'.st.store + redeemedBy e - w'.st.store.paidIn d ≤
      potential cfg.baseFeeMsat w.st.store - w.st.store.paidIn d := by
  rcases Next.store h with ⟨hne, he⟩ | ⟨a, u, i, r, rfl, hu, hr⟩ | ⟨rfl, he⟩
  · have hnone : redeemedBy e = 0 := by
      cases e with
      | did a o i out pre =>
        cases o with
        | write u => exact absurd rfl (hne a u i out pre)
        | _ => rfl
      | _ => rfl
    rw [he, hnone, add_zero]
  · rcases Update.run_eq_some.1 hr with ⟨out, rfl, ho⟩ | ⟨e, rfl, -, -, he⟩
    · by_cases hset : ∃ hash derive, u = .settleMint hash derive
      · obtain ⟨hash, derive, rfl⟩ := hset
        have hred : redeemedBy (.did a (.write (.settleMint hash derive)) i (.ok out)
            w.st : Event (mint cfg)) = 0 := NoteStore.unspentWorth_nil
        rw [hred, add_zero]
        rcases potential_settleMint cfg.baseFeeMsat ho with ⟨rfl, hpot⟩ |
          ⟨m, hm, rfl, hpot⟩ <;> rcases paidIn_settleMint (d := d) ho with ⟨hout, hpaid⟩ |
          ⟨m', hm', hout, hpaid⟩
        · rw [hpot, hpaid]
        · cases hout
        · cases hout
        · cases hm.symm.trans hm'
          have hle := hp _ _ hm
          omega
      · have hset : ∀ hash derive, u ≠ .settleMint hash derive := fun hash derive he =>
          hset ⟨hash, derive, he⟩
        have hpaid := paidIn_of_mintsStep (d := d) hset (Update.mintsStep ho)
        have hpot := potential_apply (Int.natCast_nonneg _) hu.fair hset ho
        rw [hpaid]
        exact sub_le_sub_right hpot _
    · rw [he]
      show _ + 0 - _ ≤ _
      rw [add_zero]
  · rw [he]
    show _ + 0 - _ ≤ _
    rw [add_zero]
    exact le_refl _

/-- **What is held and was redeemed, base fees included, was paid in.** -/
theorem Run.conserves (h : Run (law cfg) State.initial w)
    (hinv : ∀ e ∈ w.hist, invoiced e = true) :
    potential cfg.baseFeeMsat w.st.store + redeemed w.hist ≤ w.st.store.paidIn d := by
  induction h with
  | start => exact le_refl 0
  | step h hn ih =>
    rw [hn.hist] at hinv
    have hbefore := fun e he => hinv e (List.mem_cons_of_mem _ he)
    have hp : Priced d cfg.baseFeeMsat _ := Run.priced h (fun h m hm => by cases hm) hbefore
    have hstep := Next.conserves hn hp
    have ih := ih hbefore
    rw [hn.hist, redeemed, List.map_cons, List.sum_cons]
    rw [redeemed] at ih
    omega

/-- **No inflation.** If invoices are for the amounts they were asked for, then whatever was minted,
rotated, split, merged, transferred and melted, in whatever order, the unspent notes with a base fee
for each and all that was ever redeemed come to no more than the invoices of the settled mints. -/
theorem no_inflation {c : Config (mint cfg)} (h : Reach State.initial c)
    (hinv : ∀ e ∈ c.w.hist, invoiced e = true) :
    c.w.st.store.outstandingMsat + cfg.baseFeeMsat * c.w.st.store.unspentNotes +
        redeemed c.w.hist ≤ c.w.st.store.paidIn d ∧
      c.w.st.store.outstandingMsat + redeemed c.w.hist ≤ c.w.st.store.paidIn d := by
  have hle := Run.conserves (Reach.law h) hinv
  rw [potential_eq] at hle
  have hfees : (0 : ℤ) ≤ cfg.baseFeeMsat * c.w.st.store.unspentNotes :=
    Int.mul_nonneg (Int.natCast_nonneg _) (Int.natCast_nonneg _)
  exact ⟨hle, by omega⟩

/-- A note is minted and melted, and the invoice it was melted into is paid. -/
def meltedRun : List (Choice standInMint) :=
  standInMints 0 "h".toList (standInKey '1') ++ standInMelts 5 (standInKey '1') "p".toList ++
    [.wake 20] ++ standInGoes 1 1 ++ [.answer 20 (standInAnswer [] true)] ++ standInGoes 4 1

theorem no_inflation_melted : ∃ c : Config standInMint, Reach State.initial c ∧
    redeemed c.w.hist = 10000 ∧ 10000 ≤ c.w.st.store.paidIn .standIn := by
  have hrun : (standInRun meltedRun).any (fun c => c.w.hist.all invoiced &&
      decide (redeemed c.w.hist = 10000) && decide (c.w.st.store.outstandingMsat = 0)) = true := by
    decide +kernel
  obtain ⟨c, hc, h⟩ := exists_standInRun hrun
  simp only [Bool.and_eq_true, decide_eq_true_eq, List.all_eq_true] at h
  obtain ⟨⟨hinv, hred⟩, hout⟩ := h
  have hle := (no_inflation hc hinv).2
  rw [hred, hout, zero_add] at hle
  exact ⟨c, hc, hred, hle⟩

end Histories

end LnurlMint
