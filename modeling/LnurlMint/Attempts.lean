import LnurlMint.Credits
import LnurlMint.Names

/-!
# One attempt for each payment hash

Three tables hold payment hashes: `mints` and `address_fees` those of invoices that the mint made
out, `melts` those that it pays. A melt looks its hash up in all three, reserves its note and
records itself in `melts` before it gives way, so nobody else gets between the lookups and the
record. Rows are never deleted. So a hash is recorded once, its payment is scheduled once, and a
payment task makes its attempt once; a restart forgets the task but not the row. Nothing is
scheduled for a melt whose own request gives it up after the record.

An invoice that the mint makes out later must not have a hash that it pays already. That is up to
the funding source: `fresh` says of one of its answers that the invoice's hash is on no row.

## Main definitions

* `attempts`, `scheduled`, `records` — the events that lead to a payment
* `abandons` — a melt is given up by its own request
* `fresh` — the answers that bring an invoice with a new hash
* `NoteStore.Apart` — no hash that the mint pays is that of an invoice of its own

## Main results

* `Run.attempted_le`, `Run.scheduled_le`, `Run.recorded_once` — each step at most as often as the
  one before it
* `one_payment_attempt`
* `Run.not_attempted` — no attempt is made for a melt that its request gave up
-/

namespace LnurlMint

open Relational Interleave

/-! ## Payment hashes on file -/

namespace NoteStore

variable {s s' : NoteStore} {now : ℤ} {u : Update} {hash : Str}

/-- Only a melt touches the record of melts. -/
theorem melts_eq {i : Input} {out : u.Out} (ho : u.apply i s = .ok (out, s'))
    (hr : ∀ hash pr, u ≠ .recordMelt hash pr) (hm : ∀ hash, u ≠ .markMeltSettled hash) :
    s'.melts = s.melts := by
  cases u with
  | recordMelt hash pr => exact absurd rfl (hr hash pr)
  | markMeltSettled hash => exact absurd rfl (hm hash)
  | createMint =>
    obtain ⟨s₁, ho, he⟩ := map_eq_ok.1 ho
    cases he
    obtain ⟨-, -, _, -, rfl⟩ := createMint_ok ho
    rfl
  | settleMint =>
    rcases settleMint_ok ho with ⟨-, rfl, -⟩ | ⟨_, _, -, -, -, ⟨_, -, -, rfl⟩ |
      ⟨_, _, _, _, _, -, -, -, -, -, -, -, -, rfl⟩⟩ <;> rfl
  | swap =>
    obtain ⟨s₁, ho, he⟩ := map_eq_ok.1 ho
    cases he
    obtain ⟨_, _, _, _, _, _, -, -, -, -, rfl⟩ := (swapLocked_ok (reported_eq_ok.1 ho)).left
    rfl
  | transferToUsername =>
    obtain ⟨_, _, -, -, -, ho⟩ := transferToUsername_ok ho
    obtain ⟨_, _, _, _, _, _, -, -, -, -, rfl⟩ := ho.left
    rfl
  | markPending =>
    obtain ⟨s₁, ho, he⟩ := map_eq_ok.1 ho
    cases he
    obtain ⟨-, rfl⟩ := markPending_ok ho
    rfl
  | registerUsername =>
    obtain ⟨s₁, ho, he⟩ := map_eq_ok.1 ho
    cases he
    obtain ⟨-, _, _, -, -, rfl⟩ := registerUsername_ok ho
    rfl
  | holdUsername =>
    obtain ⟨s₁, ho, he⟩ := map_eq_ok.1 ho
    cases he
    obtain ⟨-, _, _, -, -, rfl⟩ := holdUsername_ok ho
    rfl
  | settleAddressFee =>
    rcases settleAddressFee_ok ho with ⟨-, rfl, -⟩ |
      ⟨_, -, -, ⟨-, rfl, -⟩ | ⟨-, -, _, -, rfl⟩⟩ <;> rfl
  | payAddressFeeWithNotes =>
    obtain ⟨-, -, _, _, -, -, -, -, -, -, -, rfl⟩ := payAddressFeeWithNotes_ok ho
    rfl
  | updateUsername =>
    obtain ⟨s₁, ho, he⟩ := map_eq_ok.1 ho
    cases he
    obtain ⟨_, _, -, -, rfl⟩ := updateUsername_ok ho
    rfl
  | _ => cases ho; rfl

/-- No transaction takes a melt off the record, and one puts it there. -/
theorem find?_melts {i : Input} {out : u.Out} (ho : u.apply i s = .ok (out, s')) :
    s'.melts.find? hash = none ↔ s.melts.find? hash = none ∧ ∀ pr, u ≠ .recordMelt hash pr := by
  by_cases hr : ∃ h pr, u = .recordMelt h pr
  · obtain ⟨h, pr, rfl⟩ := hr
    cases ho
    rw [recordMelt, Table.find?_insertOrIgnore]
    by_cases he : h = hash
    · rw [if_pos he]
      exact iff_of_false (Option.some_ne_none _) fun hn => hn.2 pr (he ▸ rfl)
    · rw [if_neg he]
      exact ⟨fun hn => ⟨hn, fun pr' hu => he (Update.recordMelt.inj hu).1⟩, fun hn => hn.1⟩
  · by_cases hm : ∃ h, u = .markMeltSettled h
    · obtain ⟨h, rfl⟩ := hm
      cases ho
      rw [markMeltSettled, Table.find?_modify]
      simp
    · rw [melts_eq ho (fun h pr he => hr ⟨h, pr, he⟩) fun h he => hm ⟨h, he⟩]
      exact ⟨fun hn => ⟨hn, fun pr he => hr ⟨hash, pr, he⟩⟩, fun hn => hn.1⟩

/-- A payment hash comes to `mints` by an invoice only. -/
theorem mints_find?_eq_none (hs : MintsStep now u s s') (hn : s.mints.find? hash = none)
    (hu : ∀ pr amountMsat noteId zap username,
      u ≠ .createMint hash pr amountMsat noteId zap username) : s'.mints.find? hash = none := by
  cases hs with
  | keep hm => rwa [hm]
  | mint _ _ hm => rwa [hm]
  | receipt h receiptId hm => rw [hm, Table.find?_modify, hn, Option.map_none]
  | create m hcreate _ _ _ hins =>
    rw [Table.find?_insert? hins, if_neg, hn]
    rintro rfl
    exact hu _ _ _ _ _ hcreate
  | settle m id derive _ _ _ _ hm => rw [hm, hn, Option.map_none]

/-- And to `address_fees` by a held name only. -/
theorem addressFees_find?_eq_none {filed : Option Str} (hs : NamesStep now u filed s s')
    (hn : s.addressFees.find? hash = none)
    (hu : ∀ pr username cx1 xp npub amountMsat expiresAt,
      u ≠ .holdUsername hash pr username cx1 xp npub amountMsat expiresAt) :
    s'.addressFees.find? hash = none := by
  have hpaid : ∀ h, (s.markPaid h).addressFees.find? hash = none := by
    intro h
    rw [markPaid, Table.find?_modify, hn, Option.map_none]
  cases hs with
  | hold f xp _ hhold _ _ hf =>
    rw [Table.find?_insert? hf, if_neg, hn]
    rintro rfl
    exact hu _ _ _ _ _ _ _ hhold
  | lapse f _ _ _ _ _ hf => rw [hf, hpaid]
  | settle f _ _ _ _ _ hf => rw [hf, hpaid]
  | keep _ hf => rwa [hf]
  | advance _ _ _ hf => rwa [hf]
  | register _ _ _ _ _ _ _ hf => rwa [hf]
  | update _ _ _ _ _ _ _ hf => rwa [hf]
  | delete _ _ _ hf => rwa [hf]

/-- No hash that the mint pays is that of an invoice of its own. -/
def Apart (s : NoteStore) : Prop :=
  ∀ hash, s.melts.find? hash ≠ none → s.mints.find? hash = none ∧ s.addressFees.find? hash = none

theorem Apart.step {i : Input} {out : u.Out} (ha : s.Apart) (ho : u.apply i s = .ok (out, s'))
    (hmelt : ∀ {h pr}, u = .recordMelt h pr →
      s.mints.find? h = none ∧ s.addressFees.find? h = none)
    (hmint : ∀ {h pr amountMsat noteId zap username},
      u = .createMint h pr amountMsat noteId zap username → s.melts.find? h = none)
    (hfee : ∀ {h pr username cx1 xp npub amountMsat expiresAt},
      u = .holdUsername h pr username cx1 xp npub amountMsat expiresAt →
        s.melts.find? h = none) : s'.Apart := by
  intro hash hmelts
  by_cases hu : ∃ pr, u = .recordMelt hash pr
  · obtain ⟨pr, rfl⟩ := hu
    cases ho
    exact hmelt rfl
  · have hbefore : s.melts.find? hash ≠ none :=
      fun hn => hmelts ((find?_melts ho).2 ⟨hn, fun pr he => hu ⟨pr, he⟩⟩)
    obtain ⟨hm, hf⟩ := ha hash hbefore
    constructor
    · refine mints_find?_eq_none (Update.mintsStep ho) hm ?_
      intro _ _ _ _ _ he
      exact hbefore (hmint he)
    · refine addressFees_find?_eq_none (Update.namesStep ho) hf ?_
      intro _ _ _ _ _ _ _ he
      exact hbefore (hfee he)

end NoteStore

/-! ## Events -/

section Events

variable {d : Deps} {cfg : Settings d} {s : State} {w w' : World (mint cfg)} {a : Actor mintSig}
  {hash pr : Str}

/-- An answer that brings an invoice does not bring one with a payment hash that is on a row. -/
def fresh : Event (mint cfg) → Bool
  | .answered _ (.createInvoice ..) (.ok (pr, preimage)) pre =>
    (createdHash d pr preimage).all fun h => (pre.store.mints.find? h).isNone &&
      (pre.store.addressFees.find? h).isNone && (pre.store.melts.find? h).isNone
  | _ => true

/-- An attempt to pay an invoice with this payment hash. -/
def attempts (hash : Str) : Event (mint cfg) → Bool
  | .called _ (.payInvoice pr _) _ => invoiceHash d pr = some hash
  | _ => false

/-- Whose attempt it is. -/
def attempter (hash : Str) (e : Event (mint cfg)) : Option (Actor mintSig) :=
  match e with
  | .called a .. => if attempts hash e then some a else none
  | _ => none

/-- The payment task that is scheduled for this hash. -/
def scheduled (hash : Str) : Event (mint cfg) → Option (Actor mintSig)
  | .spawned _ ⟨tid, .meltPay noteIds pr inv⟩ =>
    if invoiceHash d pr = some hash then some ⟨tid, .meltPay noteIds pr inv⟩ else none
  | _ => none

/-- The record of a melt into this hash. -/
def records (hash : Str) : Event (mint cfg) → Bool
  | .did _ (.write (.recordMelt h _)) .. => h = hash
  | _ => false

theorem records_eq_true {e : Event (mint cfg)} (h : records hash e = true) :
    ∃ a pr i r pre, e = .did a (.write (.recordMelt hash pr)) i r pre := by
  cases e with
  | did a o i out pre =>
    cases o with
    | write u =>
      cases u with
      | recordMelt h' pr => exact ⟨a, pr, i, out, pre, by rw [of_decide_eq_true h]⟩
      | _ => cases h
    | _ => cases h
  | _ => cases h

theorem attempts_eq_true {e : Event (mint cfg)} (h : attempts hash e = true) :
    ∃ a pr limit pre, e = .called a (.payInvoice pr limit) pre ∧ invoiceHash d pr = some hash := by
  cases e with
  | called a c pre =>
    cases c with
    | payInvoice pr limit => exact ⟨a, pr, limit, pre, rfl, of_decide_eq_true h⟩
    | _ => cases h
  | _ => cases h

theorem attempter_eq_some {e : Event (mint cfg)} (h : attempter hash e = some a) :
    ∃ pr limit pre, e = .called a (.payInvoice pr limit) pre ∧ invoiceHash d pr = some hash := by
  cases e with
  | called b c pre =>
    rw [attempter] at h
    split at h
    · rename_i hattempt
      cases h
      obtain ⟨_, pr, limit, _, ⟨⟩, hp⟩ := attempts_eq_true hattempt
      exact ⟨pr, limit, pre, rfl, hp⟩
    · cases h
  | _ => cases h

theorem isSome_attempter (e : Event (mint cfg)) :
    (attempter hash e).isSome = attempts hash e := by
  cases e with
  | called a c pre =>
    rw [attempter]
    split
    · rename_i h
      rw [h]
      rfl
    · rename_i h
      simpa using h
  | _ => rfl

theorem scheduled_eq_some {e : Event (mint cfg)} {b : Actor mintSig}
    (h : scheduled hash e = some b) : ∃ a noteIds pr inv, e = .spawned a b ∧
      b.task = .meltPay noteIds pr inv ∧ invoiceHash d pr = some hash := by
  cases e with
  | spawned a b' =>
    obtain ⟨tid, t⟩ := b'
    cases t with
    | meltPay noteIds pr inv =>
      rw [scheduled] at h
      split at h
      · rename_i hp
        cases h
        exact ⟨a, noteIds, pr, inv, rfl, rfl, hp⟩
      · cases h
    | _ => cases h
  | _ => cases h

/-- The request of a melt into this hash gives it up. -/
def abandons (hash : Str) : Event (mint cfg) → Bool
  | .did ⟨_, .request _⟩ (.trackMeltEnd h) .. => h = hash
  | _ => false

theorem abandons_eq_true {e : Event (mint cfg)} (h : abandons hash e = true) :
    ∃ a req i pre, e = .did a (.trackMeltEnd hash) i () pre ∧ a.task = .request req := by
  cases e with
  | did a o i out pre =>
    obtain ⟨tid, t⟩ := a
    cases t with
    | request req =>
      cases o with
      | trackMeltEnd h' => exact ⟨_, req, i, pre, by rw [of_decide_eq_true h], rfl⟩
      | _ => cases h
    | _ => cases h
  | _ => cases h

/-- When a melt is recorded, its hash is on no row: it was looked up when the note was reserved,
and nobody got between. -/
theorem Run.unused (h : Run (law cfg) s w) (hu : MayWrite cfg w a (.recordMelt hash pr)) :
    w.st.store.melts.find? hash = none ∧ w.st.store.mints.find? hash = none ∧
      w.st.store.addressFees.find? hash = none := by
  obtain ⟨-, -, ids, i, i', pre, pre', rest, hh⟩ := hu
  obtain ⟨w₁, h₁, hh₁, hn₁⟩ := h.last hh
  obtain ⟨w₀, -, -, hn₀⟩ := h₁.last hh₁
  obtain ⟨⟨-, _, _, _, _, _, _, _, _, _, -, -, -, -, -, hfee, hmint, hmelt, -⟩, ho⟩ :=
    Next.write_ok hn₀
  obtain ⟨s', ho, he⟩ := map_eq_ok.1 ho
  obtain ⟨-, rfl⟩ := NoteStore.markPending_ok ho
  have hstore : w.st.store = w₁.st.store := by
    rcases Next.store hn₁ with ⟨-, he⟩ | ⟨_, _, _, _, ⟨⟩, -⟩ | ⟨⟨⟩, -⟩
    exact he
  rw [hstore, ← (Prod.mk.inj he).2]
  exact ⟨Option.map_eq_none_iff.1 hmelt, Option.map_eq_none_iff.1 hmint,
    Option.map_eq_none_iff.1 hfee⟩

/-- An invoice that was just made out has a hash that is on no row. -/
theorem Run.fresh (h : Run (law cfg) s w) (hfresh : ∀ e ∈ w.hist, fresh e = true)
    {amountMsat : ℤ} {memo zap : Option Str} {expiry : Option ℕ} {preimage : Option Bytes}
    (hj : JustHeard w a (.createInvoice amountMsat memo zap expiry) (.ok (pr, preimage)))
    (hc : createdHash d pr preimage = some hash) : w.st.store.melts.find? hash = none := by
  obtain ⟨pre, rest, hh⟩ := hj
  obtain ⟨w₀, -, -, hn⟩ := h.last hh
  have hnew := hfresh _ (by rw [hh]; exact List.mem_cons_self)
  obtain ⟨hstep, -, -⟩ := hn
  cases hstep
  simp only [LnurlMint.fresh, hc, Option.all_some, Bool.and_eq_true,
    Option.isNone_iff_eq_none] at hnew
  exact hnew.2

/-- No hash that the mint pays is that of an invoice of its own, in any history. -/
theorem Run.apart (h : Run (law cfg) s w) (hs : s.store.Apart)
    (hfresh : ∀ e ∈ w.hist, LnurlMint.fresh e = true) : w.st.store.Apart := by
  induction h with
  | start => exact hs
  | step h hn ih =>
    rw [hn.hist] at hfresh
    have hfresh := fun e he => hfresh e (List.mem_cons_of_mem _ he)
    have ha := ih hfresh
    rcases Next.store hn with ⟨-, he⟩ | ⟨a, u, i, r, -, hu, hr⟩ | ⟨-, he⟩
    · rw [he]
      exact ha
    · refine Update.run_induct hr ha fun out ho => ha.step ho ?_ ?_ ?_
      · rintro hash pr rfl
        exact (Run.unused h hu).2
      · rintro hash pr amountMsat noteId zap username rfl
        obtain ⟨-, -, ⟨_, _, hj, hc, -⟩, -⟩ := hu
        exact Run.fresh h hfresh hj hc
      · rintro hash pr username cx1 xp npub amountMsat expiresAt rfl
        obtain ⟨-, -, -, _, _, _, _, hj, hc⟩ := hu
        exact Run.fresh h hfresh hj hc
    · rw [he]
      exact ha

/-! ## Each step at most as often as the one before -/

/-- A hash is recorded once. -/
theorem Run.recorded_once (h : Run (law cfg) s w) (hash : Str) :
    w.hist.countP (records hash) ≤ 1 ∧
      (w.st.store.melts.find? hash = none → w.hist.countP (records hash) = 0) := by
  have honce := h.once (p := records hash) (Q := fun s => s.store.melts.find? hash ≠ none) ?_ ?_
  · exact ⟨honce.1, fun hn => honce.2 (not_not.2 hn)⟩
  · intro w e w' hn hsome
    rcases Next.store hn with ⟨-, he⟩ | ⟨a, u, i, r, -, hu, hr⟩ | ⟨-, he⟩
    · rwa [he]
    · exact Update.run_induct (P := fun s => s.melts.find? hash ≠ none) hr hsome
        fun out ho hnone => hsome ((NoteStore.find?_melts ho).1 hnone).1
    · rwa [he]
  · intro w e w' h hn hrec
    obtain ⟨a, pr, i, r, pre, rfl⟩ := records_eq_true hrec
    obtain ⟨hu, -, hr⟩ := Next.write hn
    refine ⟨not_not.2 (Run.unused h hu).1, fun hnone => ?_⟩
    rcases Update.run_eq_some.1 hr with ⟨out, -, ho⟩ | ⟨e, -, ho, -⟩
    · exact ((NoteStore.find?_melts ho).1 hnone).2 pr rfl
    · cases ho

/-- The payment of a melt is scheduled once for each record, right after it, or the melt is given up
then. -/
theorem Run.scheduled_le (h : Run (law cfg) s w) (hash : Str) :
    (w.hist.filterMap (scheduled hash)).length + w.hist.countP (abandons hash) +
      (if w.hist.head?.any (records hash) = true then 1 else 0) ≤
        w.hist.countP (records hash) := by
  induction h with
  | start => exact Nat.le_refl 0
  | @step w w' e h hn ih =>
    rw [hn.hist, List.countP_cons, List.countP_cons, List.head?_cons, Option.any_some]
    cases hb : scheduled hash e with
    | none =>
      rw [List.filterMap_cons_none hb]
      by_cases hdrop : abandons hash e = true
      · obtain ⟨a, req, i, pre, rfl, ht⟩ := abandons_eq_true hdrop
        -- the event before was its record
        have hhead : w.hist.head?.any (records hash) = true := by
          rcases hn.lawful with ⟨_, _, _, ht', -⟩ |
            ⟨_, _, _, _, _, _, _, _, _, _, _, _, _, _, -, -, hhist⟩
          · cases ht.symm.trans ht'
          · rw [hhist, List.head?_cons, Option.any_some]
            exact decide_eq_true rfl
        rw [if_pos hhead] at ih
        rw [if_pos hdrop, show records hash (Event.did a (.trackMeltEnd hash) i () pre :
          Event (mint cfg)) = false from rfl]
        simp only [Bool.false_eq_true, if_false]
        omega
      · rw [if_neg hdrop]
        omega
    | some b =>
      obtain ⟨a, noteIds, pr, inv, rfl, ht, hp⟩ := scheduled_eq_some hb
      rw [List.filterMap_cons_some hb, List.length_cons]
      -- the event before was its record
      have hhead : w.hist.head?.any (records hash) = true := by
        have hmay : MaySpawn cfg w a b.task := hn.lawful
        rw [ht] at hmay
        obtain ⟨id, pr', inv', h', n, _, _, _, _, _, _, rest, ⟨⟩, hdec, hh, -, -, hhist⟩ := hmay
        have hash_eq : h' = hash := by
          rw [invoiceHash, hdec] at hp
          exact Option.some.inj (hh.symm.trans hp)
        rw [hhist, List.head?_cons, Option.any_some, hash_eq]
        exact decide_eq_true rfl
      rw [if_pos hhead] at ih
      rw [show records hash (Event.spawned a b : Event (mint cfg)) = false from rfl,
        show abandons hash (Event.spawned a b : Event (mint cfg)) = false from rfl]
      simp only [Bool.false_eq_true, if_false]
      omega

/-- Whoever tries to pay was scheduled to, and tries once. -/
theorem Run.attempted_le (h : Run (law cfg) s w) (hash : Str) :
    (w.hist.filterMap (attempter hash)).Nodup ∧
      ∀ a ∈ w.hist.filterMap (attempter hash), a ∈ w.hist.filterMap (scheduled hash) := by
  induction h with
  | start => exact ⟨List.nodup_nil, fun a ha => by cases ha⟩
  | @step w w' e h hn ih =>
    rw [hn.hist]
    have hold : ∀ a ∈ w.hist.filterMap (attempter hash),
        a ∈ (e :: w.hist).filterMap (scheduled hash) := by
      intro a ha
      obtain ⟨e', he', hs⟩ := List.mem_filterMap.1 (ih.2 a ha)
      exact List.mem_filterMap.2 ⟨e', List.mem_cons_of_mem _ he', hs⟩
    cases ha : attempter hash e with
    | none =>
      rw [List.filterMap_cons_none ha]
      exact ⟨ih.1, hold⟩
    | some a =>
      rw [List.filterMap_cons_some ha, List.nodup_cons, List.forall_mem_cons]
      obtain ⟨pr, limit, pre, rfl, hp⟩ := attempter_eq_some ha
      obtain ⟨hstep, ⟨-, ⟨ids, inv, ht⟩, honce⟩, -⟩ := hn
      refine ⟨⟨?_, ih.1⟩, ?_, hold⟩
      · intro hmem
        obtain ⟨e', he', hs⟩ := List.mem_filterMap.1 hmem
        obtain ⟨pr', limit', pre', rfl, -⟩ := attempter_eq_some hs
        exact honce pr' limit' pre' he'
      · -- it is a payment task, and those are only ever scheduled
        obtain ⟨b, hb⟩ := h.spawned_of_joined (mem_alive (hstep.alive rfl)) (by rw [ht])
        refine List.mem_filterMap.2 ⟨_, List.mem_cons_of_mem _ hb, ?_⟩
        obtain ⟨tid, _⟩ := a
        obtain rfl : _ = Task.meltPay ids pr inv := ht
        rw [scheduled, if_pos hp]

/-- There are at most as many attempts as records that were not given up. -/
theorem Run.countP_attempts_add_le (h : Run (law cfg) s w) (hash : Str) :
    w.hist.countP (attempts hash) + w.hist.countP (abandons hash) ≤
      w.hist.countP (records hash) := by
  obtain ⟨hnodup, hsub⟩ := Run.attempted_le h hash
  have hattempts : w.hist.countP (attempts hash) ≤ (w.hist.filterMap (scheduled hash)).length :=
    calc w.hist.countP (attempts hash)
        = (w.hist.filterMap (attempter hash)).length := by
          rw [List.length_filterMap_eq_countP]
          simp only [isSome_attempter]
      _ ≤ (w.hist.filterMap (scheduled hash)).length :=
          (List.subperm_of_subset hnodup hsub).length_le
  have hle := Run.scheduled_le h hash
  omega

theorem Run.countP_attempts_le (h : Run (law cfg) s w) (hash : Str) :
    w.hist.countP (attempts hash) ≤ w.hist.countP (records hash) :=
  (Nat.le_add_right _ _).trans (Run.countP_attempts_add_le h hash)

/-- No attempt is made for a melt that its request gave up. -/
theorem Run.not_attempted (h : Run (law cfg) s w) {e e' : Event (mint cfg)} {hash : Str}
    (he : e ∈ w.hist) (hdrop : abandons hash e = true) (he' : e' ∈ w.hist) :
    attempts hash e' = false := by
  refine Bool.eq_false_iff.2 fun hattempt => ?_
  have hdrops : 0 < w.hist.countP (abandons hash) := List.countP_pos_iff.2 ⟨e, he, hdrop⟩
  have hattempts : 0 < w.hist.countP (attempts hash) :=
    List.countP_pos_iff.2 ⟨e', he', hattempt⟩
  have hle := Run.countP_attempts_add_le h hash
  have honce := (Run.recorded_once h hash).1
  omega

theorem Run.hash_ne_of_abandoned (h : Run (law cfg) s w) {e : Event (mint cfg)} {hash pr : Str}
    {a : Actor mintSig} {limit : ℤ} {pre : State} (he : e ∈ w.hist)
    (hdrop : abandons hash e = true) (hc : .called a (.payInvoice pr limit) pre ∈ w.hist) :
    invoiceHash d pr ≠ some hash := by
  intro hp
  have hattempt : attempts hash (Event.called a (.payInvoice pr limit) pre : Event (mint cfg)) =
      true := decide_eq_true hp
  have hnot := Run.not_attempted h he hdrop hc
  exact Bool.false_ne_true (hnot.symm.trans hattempt)

/-- **One payment attempt for each payment hash.** If no invoice is made out with a hash that is on
a row already, then whatever is melted, in whichever order and however often the process dies, no
hash is paid for twice, and none that is the hash of an invoice of the mint's own. -/
theorem one_payment_attempt {c : Config (mint cfg)} (h : Reach State.initial c)
    (hfresh : ∀ e ∈ c.w.hist, fresh e = true) :
    (∀ hash, c.w.hist.countP (attempts hash) ≤ 1) ∧
    ∀ a pr limit pre, .called a (.payInvoice pr limit) pre ∈ c.w.hist →
      ∃ hash, invoiceHash d pr = some hash ∧
        (∀ m ∈ c.w.st.store.mints.rows, m.paymentHash ≠ hash) ∧
        ∀ f ∈ c.w.st.store.addressFees.rows, f.paymentHash ≠ hash := by
  have hr : Run (law cfg) State.initial c.w := Reach.law h
  constructor
  · exact fun hash => (Run.countP_attempts_le hr hash).trans (Run.recorded_once hr hash).1
  · intro a pr limit pre hcall
    obtain ⟨w₀, w₁, h₀, hn, -⟩ := hr.past hcall
    obtain ⟨-, ⟨ids, inv, ht⟩, -⟩ := hn.lawful
    obtain ⟨b, hb⟩ := h₀.spawned_of_joined (mem_alive (hn.step.alive rfl)) (by rw [ht])
    obtain ⟨w₂, w₃, -, hn, -⟩ := h₀.past hb
    have hmay : MaySpawn cfg w₂ b a.task := hn.lawful
    rw [ht] at hmay
    obtain ⟨_, _, _, hash, _, _, _, _, _, _, _, _, ⟨⟩, hdec, hh, -⟩ := hmay
    have hp : invoiceHash d pr = some hash := by rw [invoiceHash, hdec]; exact hh
    have hmelts : c.w.st.store.melts.find? hash ≠ none := by
      intro hnone
      have hzero := Run.countP_attempts_le hr hash
      rw [(Run.recorded_once hr hash).2 hnone, Nat.le_zero, List.countP_eq_zero] at hzero
      exact hzero _ hcall (decide_eq_true hp)
    obtain ⟨hm, hf⟩ := Run.apart hr (fun _ hn => absurd rfl hn) hfresh hash hmelts
    exact ⟨hash, hp, Table.find?_eq_none.1 hm, Table.find?_eq_none.1 hf⟩

/-- A note is minted and melted, and its payment attempted. -/
def attemptedRun : List (Choice standInMint) :=
  standInMints 0 "h".toList (standInKey '1') ++ standInMelts 5 (standInKey '1') "p".toList ++
    [.wake 20] ++ standInGoes 1 1

theorem one_payment_attempt_melted : ∃ c : Config standInMint, Reach State.initial c ∧
    c.w.hist.countP (attempts "p".toList) = 1 := by
  have hrun : (standInRun attemptedRun).any (fun c => c.w.hist.all fresh &&
      c.w.hist.any (attempts "p".toList)) = true := by
    decide +kernel
  obtain ⟨c, hc, h⟩ := exists_standInRun hrun
  simp only [Bool.and_eq_true, List.all_eq_true] at h
  obtain ⟨hfresh, hany⟩ := h
  refine ⟨c, hc, Nat.le_antisymm ((one_payment_attempt hc hfresh).1 _) ?_⟩
  exact List.countP_pos_iff.2 (List.any_eq_true.1 hany)

end Events

end LnurlMint
