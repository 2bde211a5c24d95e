import LnurlMint.Conservation

/-!
# What a sunset mint owes

With `SUNSET_MINT` on a mint refuses to make out invoices and to split notes, so that what it owes
can only shrink: rotations, transfers and melts leave the number of unspent notes and their total as
they are, or lower. A merge lowers the number, but it gives back a base fee for each note but one,
and that raises the total.

Both numbers are read off the potential of `LnurlMint.Conservation`, which weighs a note by its
amount and any base fee: what raises the potential for no base fee at all raises neither of them.

## Main definitions

* `Winds` — neither the number of unspent notes nor their total rises
* `refunds` — the events that give base fees back
* `NoteStore.NonNeg` — no amount on file is negative

## Main results

* `sunset_winds_iff` — when a sunset mint winds down
-/

namespace LnurlMint

open Relational Interleave

/-! ## The two numbers -/

/-- Neither the number of unspent notes nor their total rises. -/
def Winds (s s' : NoteStore) : Prop :=
  s'.unspentNotes ≤ s.unspentNotes ∧ s'.outstandingMsat ≤ s.outstandingMsat

theorem Winds.refl (s : NoteStore) : Winds s s := ⟨le_refl _, le_refl _⟩

theorem Winds.trans {s s' s'' : NoteStore} (h : Winds s s') (h' : Winds s' s'') : Winds s s'' :=
  ⟨h'.1.trans h.1, h'.2.trans h.2⟩

/-- What raises no potential, whatever the base fee, raises neither number. -/
theorem Winds.of_potential {s s' : NoteStore}
    (h : ∀ base : ℤ, 0 ≤ base → potential base s' ≤ potential base s) : Winds s s' := by
  have hout := h 0 (le_refl 0)
  rw [potential_eq, potential_eq, zero_mul, zero_mul, add_zero, add_zero] at hout
  refine ⟨?_, hout⟩
  by_contra hlt
  -- a base fee larger than all that is owed tells the numbers apart
  have hbase : 0 ≤ s.outstandingMsat - s'.outstandingMsat + 1 := by omega
  have hpot := h _ hbase
  rw [potential_eq, potential_eq] at hpot
  have hmore : (s.unspentNotes : ℤ) + 1 ≤ s'.unspentNotes := by omega
  have hmul := mul_le_mul_of_nonneg_left hmore hbase
  rw [mul_add, mul_one] at hmul
  omega

/-! ## Amounts -/

namespace NoteStore

variable {s s' : NoteStore} {now : ℤ} {u : Update}

/-- No amount on file is negative. -/
structure NonNeg (s : NoteStore) : Prop where
  notes : ∀ {id n}, s.notes.find? id = some n → 0 ≤ n.amountMsat
  mints : ∀ {h m}, s.mints.find? h = some m → 0 ≤ m.amountMsat

theorem worth_nonneg (hs : ∀ {id n}, s.notes.find? id = some n → 0 ≤ n.amountMsat)
    (ids : List Str) : 0 ≤ s.worth ids := by
  refine List.sum_nonneg fun x hx => ?_
  obtain ⟨id, -, rfl⟩ := List.mem_map.1 hx
  cases hn : s.notes.find? id with
  | none => exact le_refl _
  | some n => exact hs hn

theorem unspentWorth_nonneg (hs : ∀ {id n}, s.notes.find? id = some n → 0 ≤ n.amountMsat)
    (ids : List Str) : 0 ≤ s.unspentWorth ids := by
  refine List.sum_nonneg fun x hx => ?_
  obtain ⟨n, hn, rfl⟩ := List.mem_map.1 hx
  split
  · exact hs (Table.find?_of_mem hn)
  · exact le_refl _

/-- A rewrite that leaves amounts alone makes none negative. -/
theorem notes_nonneg_of_rewrite {ids : List Str} {f : NoteRow → NoteRow}
    (hs : ∀ {id n}, s.notes.find? id = some n → 0 ≤ n.amountMsat)
    (hn : ∀ id, s'.notes.find? id = (s.notes.find? id).map fun n => if id ∈ ids then f n else n)
    (hf : ∀ n, (f n).amountMsat = n.amountMsat) {id : Str} {n : NoteRow}
    (h : s'.notes.find? id = some n) : 0 ≤ n.amountMsat := by
  rw [hn] at h
  obtain ⟨n', hn', rfl⟩ := Option.map_eq_some_iff.1 h
  split
  · rw [hf]
    exact hs hn'
  · exact hs hn'

/-- What is not a settlement and gives out no negative amount leaves none on file. -/
theorem notes_nonneg_of_notesStep (hu : ∀ h derive, u ≠ .settleMint h derive)
    (hstep : NotesStep (fun _ _ amounts => ∀ x ∈ amounts, 0 ≤ x) now u s s')
    (hs : ∀ {id n}, s.notes.find? id = some n → 0 ≤ n.amountMsat) {id : Str} {n : NoteRow}
    (h : s'.notes.find? id = some n) : 0 ≤ n.amountMsat := by
  cases hstep with
  | keep hn => exact hs (hn ▸ h)
  | credit out hu' =>
    obtain ⟨h, derive, rfl⟩ := hu'
    exact absurd rfl (hu h derive)
  | swap s₀ hn _ _ burnIds mintNoteIds mintAmounts _ hok hswap =>
    rw [hswap.find?, hn, Option.or_eq_some_iff] at h
    rcases h with h | ⟨-, h⟩
    · obtain ⟨n', hn', rfl⟩ := Option.map_eq_some_iff.1 h
      have hle := hs hn'
      split <;> exact hle
    · obtain ⟨out, hout, rfl⟩ := List.mem_map.1 (List.mem_of_find?_eq_some h)
      exact hok _ (List.of_mem_zip hout).2
  | burn ids _ _ _ hn =>
    have hfind := fun id => (congrArg (·.find? id) hn).trans (find?_burnNotes ids id)
    exact notes_nonneg_of_rewrite hs hfind (by exact fun _ => rfl) h
  | reserve ids hash _ _ he =>
    subst he
    exact notes_nonneg_of_rewrite hs (find?_reserve ids hash) (by exact fun _ => rfl) h
  | finalize ids _ he =>
    subst he
    exact notes_nonneg_of_rewrite hs (find?_finalizeMelt ids) (by exact fun _ => rfl) h
  | restore ids _ he =>
    subst he
    exact notes_nonneg_of_rewrite hs (find?_restore ids) (by exact fun _ => rfl) h

end NoteStore

/-! ## Sunset -/

section Histories

variable {d : Deps} {cfg : Settings d} {s : State} {w w' : World (mint cfg)} {a : Actor mintSig}

/-- The events that give base fees back. -/
def refunds : Event (mint cfg) → Bool
  | .did _ (.write (.swap burnIds ..)) _ (.ok _) _ => cfg.baseFeeMsat ≠ 0 && 1 < burnIds.length
  | _ => false

theorem refunds_eq_true {e : Event (mint cfg)} (h : refunds e = true) :
    ∃ a burnIds mintNoteIds mintAmounts i pre,
      e = .did a (.write (.swap burnIds mintNoteIds mintAmounts)) i (.ok ()) pre ∧
        cfg.baseFeeMsat ≠ 0 ∧ 1 < burnIds.length := by
  cases e with
  | did a o i out pre =>
    cases o with
    | write u =>
      cases u with
      | swap burnIds mintNoteIds mintAmounts =>
        rcases out with e | ⟨⟩
        · cases h
        · exact ⟨a, burnIds, mintNoteIds, mintAmounts, i, pre, rfl, by simpa [refunds] using h⟩
      | _ => cases h
    | _ => cases h
  | _ => cases h

/-- A mint on file was there from the start, and so was its amount; it may have been settled
since. -/
theorem Run.issued (hsun : cfg.sunsetMint = true) (h : Run (law cfg) s w) {hash : Str} {m : MintRow}
    (hm : w.st.store.mints.find? hash = some m) : ∃ m₀, s.store.mints.find? hash = some m₀ ∧
      m.amountMsat = m₀.amountMsat ∧ (m.minted = false → m₀.minted = false) := by
  revert m
  refine Run.store_induct (P := fun s' => ∀ {m}, s'.mints.find? hash = some m →
    ∃ m₀, s.store.mints.find? hash = some m₀ ∧ m.amountMsat = m₀.amountMsat ∧
      (m.minted = false → m₀.minted = false)) h (fun hm => ⟨_, hm, rfl, id⟩) ?_ fun hP => hP
  intro w₀ a u i out s' h₀ _ hu hP ho m hm
  rcases NoteStore.mint_of_mintsStep (Update.mintsStep ho) hm with ⟨m', hm', hc⟩ | ⟨rfl, -⟩
  · obtain ⟨m₀, hm₀, ha, hp⟩ := hP hm'
    exact ⟨m₀, hm₀, hc.amountMsat.symm.trans ha, fun hpaid => hp (hc.unsettled hpaid).1⟩
  · rw [hu.2.1] at hsun
    cases hsun

/-- A sunset mint swaps notes for one note of their total and the base fees that it gives back. -/
theorem MayWrite.sunset_swap (hsun : cfg.sunsetMint = true) {burnIds mintNoteIds : List Str}
    {mintAmounts : List ℤ} (h : MayWrite cfg w a (.swap burnIds mintNoteIds mintAmounts)) :
    1 ≤ burnIds.length ∧ mintNoteIds.length = 1 ∧
      mintAmounts = [w.st.store.worth burnIds + ((burnIds.length : ℤ) - 1) * cfg.baseFeeMsat] := by
  obtain ⟨_, k1, amount, _, _, o1, o2, -, ⟨hne, -, hsplit⟩, hn, ho, rfl, hamts, -⟩ := h
  obtain rfl : amount = none := by
    cases amount with
    | none => rfl
    | some x => exact absurd ⟨hsun, rfl⟩ hsplit
  obtain rfl : o2 = none := ho.2
  exact ⟨List.length_pos_iff.2 (hn.ne_nil hne), rfl, hamts⟩

/-- Swaps and transfers give out no negative amounts. -/
theorem MayWrite.outputs_nonneg {u : Update} (hu : MayWrite cfg w a u) (hs : w.st.store.NonNeg) :
    u.SwapsMeet fun _ _ amounts => ∀ x ∈ amounts, 0 ≤ x := by
  cases u with
  | swap burnIds mintNoteIds mintAmounts =>
    obtain ⟨_, k1, amount, _, _, o1, o2, -, ⟨hne, -, -⟩, hn, -, rfl, hamts, -⟩ := hu
    intro x hx
    cases amount with
    | none =>
      obtain rfl := hamts
      obtain rfl := List.mem_singleton.1 hx
      have hone : 0 < burnIds.length := List.length_pos_iff.2 (hn.ne_nil hne)
      have hrefund : 0 ≤ ((burnIds.length : ℤ) - 1) * cfg.baseFeeMsat :=
        mul_nonneg (by omega) (Int.natCast_nonneg _)
      exact add_nonneg (NoteStore.worth_nonneg hs.notes _) hrefund
    | some amount =>
      obtain ⟨hpos, hrest, rfl⟩ := hamts
      rcases List.mem_cons.1 hx with rfl | hx
      · omega
      · obtain rfl := List.mem_singleton.1 hx
        omega
  | transferToUsername =>
    obtain ⟨_, _, _, _, _, _, -, -, rfl, -, -, rfl⟩ := hu
    intro pk x hx
    obtain rfl := List.mem_singleton.1 hx
    exact NoteStore.worth_nonneg hs.notes _
  | _ => trivial

/-- A settled note is worth its mint's amount. -/
theorem NoteStore.notes_nonneg_of_settleMint {s s' : NoteStore} {now : ℤ} {hash : Str}
    {derive : Option DeriveNote} {out : Option ℤ} (hs : s.NonNeg)
    (ho : s.settleMint now hash derive = .ok (out, s')) {id : Str} {n : NoteRow}
    (hn : s'.notes.find? id = some n) : 0 ≤ n.amountMsat := by
  have hcredit : s'.notes = s.notes ∨ ∃ m id, s.mints.find? hash = some m ∧
      s.notes.insert? (newNote now (id, m.amountMsat)) = some s'.notes := by
    rcases settleMint_ok ho with ⟨-, rfl, -⟩ | ⟨m, notes, hg, -, -, ⟨id, -, hi, rfl⟩ |
      ⟨_, _, pk, _, _, -, -, -, -, -, -, -, hi, rfl⟩⟩
    exacts [.inl rfl, .inr ⟨m, id, hg, hi⟩, .inr ⟨m, pk, hg, hi⟩]
  rcases hcredit with he | ⟨m, pk, hg, hi⟩
  · exact hs.notes (he ▸ hn)
  · rw [Table.find?_insert? hi] at hn
    split at hn
    · cases hn
      exact hs.mints hg
    · exact hs.notes hn

/-- The amounts of mints stay, and those of new ones are not negative. -/
theorem NoteStore.mints_nonneg_of_mintsStep {s s' : NoteStore} {now : ℤ} {u : Update}
    (hs : s.NonNeg) (hstep : MintsStep now u s s')
    (hcreate : ∀ h pr amountMsat id zap username,
      u = .createMint h pr amountMsat id zap username → 0 ≤ amountMsat) {hash : Str} {m : MintRow}
    (hm : s'.mints.find? hash = some m) : 0 ≤ m.amountMsat := by
  rcases NoteStore.mint_of_mintsStep hstep hm with ⟨m₀, hm₀, hc⟩ | ⟨hu, -⟩
  · exact hc.amountMsat ▸ hs.mints hm₀
  · exact hcreate _ _ _ _ _ _ hu

/-- Whatever its settings, a mint never puts a negative amount on file. -/
theorem Run.nonNeg (h : Run (law cfg) s w) (hs : s.store.NonNeg) : w.st.store.NonNeg := by
  refine Run.store_induct h hs ?_ fun hs => ⟨hs.notes, hs.mints⟩
  intro w₀ a u i out s' _ _ hu hs ho
  constructor
  · intro id n hn
    by_cases hset : ∃ hash derive, u = .settleMint hash derive
    · obtain ⟨hash, derive, rfl⟩ := hset
      exact NoteStore.notes_nonneg_of_settleMint hs ho hn
    · exact NoteStore.notes_nonneg_of_notesStep (fun h derive he => hset ⟨h, derive, he⟩)
        (Update.notesStep (hu.outputs_nonneg hs) ho) hs.notes hn
  · intro hash m hm
    refine NoteStore.mints_nonneg_of_mintsStep hs (Update.mintsStep ho) ?_ hm
    rintro h pr amountMsat id zap username rfl
    obtain ⟨-, -, ⟨_, _, -, -, -, -, hmin, -⟩, -⟩ := hu
    omega

/-- So none is on file in any run of a mint that started empty, or from such a run. -/
theorem Reach.nonNeg {c : Config (mint cfg)} (h : Reach s c) (hs : s.store.NonNeg) :
    c.w.st.store.NonNeg :=
  Run.nonNeg (Reach.law h) hs

theorem State.initial_nonNeg : State.initial.store.NonNeg := by
  constructor
  · intro id n hn
    cases hn
  · intro hash m hm
    cases hm

/-- A transaction of a sunset mint that is no settlement and gives no base fees back winds down. -/
theorem MayWrite.winds (hsun : cfg.sunsetMint = true) (h : Run (law cfg) s w)
    (hs : s.store.NonNeg) {u : Update} (hu : MayWrite cfg w a u)
    (hset : ∀ hash derive, u ≠ .settleMint hash derive)
    (hno : ∀ burnIds mintNoteIds mintAmounts, u = .swap burnIds mintNoteIds mintAmounts →
      cfg.baseFeeMsat = 0 ∨ burnIds.length ≤ 1) {i : Input} {out : u.Out} {s' : NoteStore}
    (ho : u.apply i w.st.store = .ok (out, s')) : Winds w.st.store s' := by
  refine Winds.of_potential fun base hb => ?_
  have hfair : u.SwapsMeet (Fair base w.st.store) := by
    cases u with
    | swap burnIds mintNoteIds mintAmounts =>
      obtain ⟨hone, hlen, rfl⟩ := hu.sunset_swap hsun
      have hrefund : ((burnIds.length : ℤ) - 1) * cfg.baseFeeMsat = 0 := by
        rcases hno _ _ _ rfl with hzero | hle
        · rw [hzero, Nat.cast_zero, mul_zero]
        · rw [show (burnIds.length : ℤ) = 1 by omega, sub_self, zero_mul]
      have hfee : base * 1 ≤ base * burnIds.length :=
        mul_le_mul_of_nonneg_left (by exact_mod_cast hone) hb
      refine ⟨hlen, ?_⟩
      rw [hrefund, add_zero, List.sum_singleton, List.length_singleton, Nat.cast_one]
      linarith
    | transferToUsername =>
      obtain ⟨_, _, _, _, _, _, -, -, rfl, -, -, rfl⟩ := hu
      intro pk
      exact ⟨rfl, by simp⟩
    | _ => trivial
  have hle := potential_apply hb hfair hset ho
  have hredeemed := NoteStore.unspentWorth_nonneg (Run.nonNeg h hs).notes u.redeems
  linarith

/-- One that gives base fees back raises the total. -/
theorem MayWrite.not_winds (hsun : cfg.sunsetMint = true) {burnIds mintNoteIds : List Str}
    {mintAmounts : List ℤ} (hu : MayWrite cfg w a (.swap burnIds mintNoteIds mintAmounts))
    (hbase : cfg.baseFeeMsat ≠ 0) (htwo : 1 < burnIds.length) {i : Input} {out : Unit}
    {s' : NoteStore}
    (ho : (Update.swap burnIds mintNoteIds mintAmounts).apply i w.st.store = .ok (out, s')) :
    ¬ Winds w.st.store s' := by
  obtain ⟨-, hlen, rfl⟩ := hu.sunset_swap hsun
  obtain ⟨s₁, ho, he⟩ := map_eq_ok.1 ho
  cases he
  have hpot := (NoteStore.swapLocked_ok (NoteStore.reported_eq_ok.1 ho)).potential_eq 0 hlen
  rw [potential_eq, potential_eq] at hpot
  simp only [zero_mul, add_zero, List.sum_singleton] at hpot
  have hrefund : 0 < ((burnIds.length : ℤ) - 1) * cfg.baseFeeMsat :=
    mul_pos (by omega) (by exact_mod_cast Nat.pos_of_ne_zero hbase)
  rintro ⟨-, hout⟩
  linarith

/-- What settles a mint settles one that was there from the start. -/
theorem Run.settled_issued (hsun : cfg.sunsetMint = true) (h : Run (law cfg) s w) {hash : Str}
    {derive : Option DeriveNote} {i : Input} {out : Option ℤ} {s' : NoteStore}
    (ho : w.st.store.settleMint i.now hash derive = .ok (out, s')) :
    Winds w.st.store s' ∨ (∃ amountMsat, out = some amountMsat) ∧
      ∃ m, s.store.mints.find? hash = some m ∧ m.minted = false := by
  rcases NoteStore.settleMint_ok ho with ⟨-, rfl, -⟩ | ⟨m, notes, hg, hp, rfl, -⟩
  · exact .inl (.refl _)
  · obtain ⟨m₀, hm₀, -, hp₀⟩ := Run.issued hsun h hg
    exact .inr ⟨⟨_, rfl⟩, m₀, hm₀, hp₀ hp⟩

/-- One event. -/
theorem Next.winds (hsun : cfg.sunsetMint = true) (h : Run (law cfg) s w) (hs : s.store.NonNeg)
    {e : Event (mint cfg)} (hn : Next (law cfg) w e w') (hno : refunds e = false)
    (hset : ∀ hash, credits hash e = false) : Winds w.st.store w'.st.store := by
  rcases Next.store hn with ⟨-, he⟩ | ⟨a, u, i, r, rfl, hu, hr⟩ | ⟨-, he⟩
  · rw [he]
    exact .refl _
  · rcases Update.run_eq_some.1 hr with ⟨out, rfl, ho⟩ | ⟨_, -, -, -, he⟩
    · by_cases hsettle : ∃ hash derive, u = .settleMint hash derive
      · obtain ⟨hash, derive, rfl⟩ := hsettle
        refine (Run.settled_issued hsun h ho).resolve_right ?_
        rintro ⟨⟨amountMsat, rfl⟩, -⟩
        exact absurd (hset hash) (by simp [credits])
      · refine hu.winds hsun h hs (fun hash derive he => hsettle ⟨hash, derive, he⟩) ?_ ho
        rintro burnIds mintNoteIds mintAmounts rfl
        simpa [refunds, imp_iff_not_or] using hno
    · rw [he]
      exact .refl _
  · rw [he]
    exact .refl _

theorem Run.winds (hsun : cfg.sunsetMint = true) (h : Run (law cfg) s w) (hs : s.store.NonNeg)
    (hno : ∀ e ∈ w.hist, refunds e = false ∧ ∀ hash, LnurlMint.credits hash e = false) :
    Winds s.store w.st.store := by
  induction h with
  | start => exact .refl _
  | step h hn ih =>
    rw [hn.hist, List.forall_mem_cons] at hno
    exact (ih hno.2).trans (Next.winds hsun h hs hn hno.1.1 hno.1.2)

/-- **When a sunset mint winds down.** Each transaction of a run lowers the number of unspent notes
and their total or leaves them, or else settles an invoice from before, exactly when no merge gives
base fees back. In a run without such merges and settlements, neither number is higher at the
end. -/
theorem sunset_winds_iff (hsun : cfg.sunsetMint = true) (hs : s.store.NonNeg)
    {c : Config (mint cfg)} (h : Reach s c) :
    ((∀ a o i out pre s', .did a o i out pre ∈ c.w.hist → exec o i pre = some (out, s') →
        Winds pre.store s'.store ∨ ∃ hash derive m, o = .write (.settleMint hash derive) ∧
          s.store.mints.find? hash = some m ∧ m.minted = false) ↔
      ∀ e ∈ c.w.hist, refunds e = false) ∧
    ((∀ e ∈ c.w.hist, refunds e = false ∧ ∀ hash, credits hash e = false) →
      Winds s.store c.w.st.store) := by
  have hr : Run (law cfg) s c.w := Reach.law h
  refine ⟨⟨?_, ?_⟩, ?_⟩
  · intro hall e he
    rw [← Bool.not_eq_true]
    intro hrefund
    obtain ⟨a, burnIds, mintNoteIds, mintAmounts, i, pre, rfl, hbase, htwo⟩ :=
      refunds_eq_true hrefund
    obtain ⟨w₀, w₁, -, hn, -⟩ := hr.past he
    obtain ⟨hu, ho⟩ := Next.write_ok hn
    obtain ⟨-, rfl, hrun⟩ := Next.write hn
    have hx : exec (.write (.swap burnIds mintNoteIds mintAmounts)) i w₀.st =
        some (.ok (), { w₀.st with store := w₁.st.store }) := by
      rw [exec, hrun]
      rfl
    rcases hall _ _ _ _ _ _ he hx with hwinds | ⟨_, _, _, ⟨⟩, -⟩
    exact hu.not_winds hsun hbase htwo ho hwinds
  · intro hno a o i out pre s' he hx
    obtain ⟨w₀, w₁, h₀, hn, -⟩ := hr.past he
    cases o with
    | write u =>
      obtain ⟨hu, rfl, -⟩ := Next.write hn
      obtain ⟨⟨r, store⟩, hrun, heq⟩ := Option.map_eq_some_iff.1 hx
      cases heq
      rcases Update.run_eq_some.1 hrun with ⟨out, rfl, ho⟩ | ⟨_, -, -, -, rfl⟩
      · by_cases hsettle : ∃ hash derive, u = .settleMint hash derive
        · obtain ⟨hash, derive, rfl⟩ := hsettle
          refine (Run.settled_issued hsun h₀ ho).imp_right ?_
          rintro ⟨-, m, hm, hp⟩
          exact ⟨hash, derive, m, rfl, hm, hp⟩
        · refine .inl (hu.winds hsun h₀ hs (fun hash derive he => hsettle ⟨hash, derive, he⟩) ?_ ho)
          rintro burnIds mintNoteIds mintAmounts rfl
          simpa [refunds, imp_iff_not_or] using hno _ he
      · exact .inl (.refl _)
    | _ =>
      cases hx
      exact .inl (.refl _)
  · exact fun hno => Run.winds hsun hr hs hno

/-! ## A merge -/

/-- The stand-in's mint with a base fee. -/
def Settings.charging : Settings .standIn := { Settings.standIn with baseFeeMsat := 1000 }

/-- The same mint, sunset. -/
def Settings.sunset : Settings .standIn := { Settings.charging with sunsetMint := true }

/-- An invoice is looked up and found paid, under this number. -/
def standInLooksUp (tid : ℕ) (hash : Str) : List (Choice (mint Settings.charging)) :=
  standInAsks tid (.verifyInvoice hash) ++ standInGoes 5 1 ++
    [.answer tid (standInAnswer [] true)] ++ standInGoes 2 1

/-- Two notes are minted. -/
def twoNotesRun : List (Choice (mint Settings.charging)) :=
  standInMints 0 "a".toList (standInKey '1') ++ standInMints 5 "b".toList (standInKey '2') ++
    standInLooksUp 10 "a".toList ++ standInLooksUp 19 "b".toList

/-- What they leave. -/
def twoNotes : Option State := (standInRun twoNotesRun).map fun c => c.w.st

/-- The sunset mint goes on from there, and is asked to swap these notes for one. -/
def sunsetRun (k1 : List Str) (steps : ℕ) : List (Choice (mint Settings.sunset)) :=
  standInAsks 0 (.getWithdrawCallback k1 none none (some (standInKey '3')) none) ++
    standInGoes steps 2

theorem exists_sunsetRun {k1 : List Str} {steps : ℕ}
    {P : State → Config (mint Settings.sunset) → Bool}
    (h : twoNotes.any (fun s => ((Config.start s).play (sunsetRun k1 steps)).any (P s)) = true) :
    ∃ c₀ : Config (mint Settings.charging), Reach State.initial c₀ ∧ ∃ s : State, s = c₀.w.st ∧
      ∃ c : Config (mint Settings.sunset), Reach s c ∧ P s c = true := by
  obtain ⟨s, hs, hplay⟩ := (Option.any_eq_true _ _).1 h
  obtain ⟨c, hc, hp⟩ := (Option.any_eq_true _ _).1 hplay
  obtain ⟨c₀, hc₀, he⟩ := Option.map_eq_some_iff.1 hs
  exact ⟨c₀, Reach.play .start hc₀, s, he.symm, c, Reach.play .start hc, hp⟩

/-- The events that ask for a settlement. -/
def settles : Event (mint cfg) → Bool
  | .did _ (.write (.settleMint ..)) .. => true
  | _ => false

theorem credits_of_not_settles {e : Event (mint cfg)} (h : settles e = false) (hash : Str) :
    credits hash e = false := by
  cases e with
  | did a o i out pre =>
    cases o with
    | write u =>
      refine credits_of_ne fun derive hu => ?_
      subst hu
      cases h
    | _ => rfl
  | _ => rfl

/-- The last event is a swap that burned `k1` and left what is owed as `rel` relates the two. -/
def swappedLast (k1 : List Str) (rel : ℤ → ℤ → Bool) (c : Config (mint Settings.sunset)) : Bool :=
  match c.w.hist with
  | .did _ (.write (.swap burnIds ..)) _ (.ok _) pre :: _ =>
    burnIds = k1 && rel pre.store.outstandingMsat c.w.st.store.outstandingMsat
  | _ => false

theorem swappedLast_eq_true {k1 : List Str} {rel : ℤ → ℤ → Bool}
    {c : Config (mint Settings.sunset)} (h : swappedLast k1 rel c = true) :
    ∃ a mintNoteIds mintAmounts i pre rest, c.w.hist =
        .did a (.write (.swap k1 mintNoteIds mintAmounts)) i (.ok ()) pre :: rest ∧
      rel pre.store.outstandingMsat c.w.st.store.outstandingMsat = true := by
  unfold swappedLast at h
  split at h
  · rename_i a burnIds mintNoteIds mintAmounts i _ pre rest hh
    rw [Bool.and_eq_true] at h
    obtain rfl := of_decide_eq_true h.1
    exact ⟨a, mintNoteIds, mintAmounts, i, pre, rest, hh, h.2⟩
  · cases h

/-- A rotation leaves both numbers as they were. -/
theorem sunset_winds_iff_rotation : ∃ c₀ : Config (mint Settings.charging),
    Reach State.initial c₀ ∧ ∃ s : State, s = c₀.w.st ∧
      ∃ c : Config (mint Settings.sunset), Reach s c ∧
        (∃ a mintNoteIds mintAmounts i pre rest, c.w.hist =
          .did a (.write (.swap [standInKey '1'] mintNoteIds mintAmounts)) i (.ok ()) pre :: rest) ∧
        Winds s.store c.w.st.store := by
  have hrun : twoNotes.any (fun s => ((Config.start s).play (sunsetRun [standInKey '1'] 5)).any
      fun c => swappedLast [standInKey '1'] (fun _ _ => true) c &&
        c.w.hist.all fun e => !refunds e && !settles e) = true := by
    decide +kernel
  obtain ⟨c₀, hc₀, s, hs, c, hc, h⟩ := exists_sunsetRun hrun
  rw [Bool.and_eq_true] at h
  obtain ⟨hlast, hevents⟩ := h
  have hpos : s.store.NonNeg := hs ▸ Reach.nonNeg hc₀ State.initial_nonNeg
  have hwinds := (sunset_winds_iff rfl hpos hc).2 fun e he => by
    have hb := List.all_eq_true.1 hevents e he
    rw [Bool.and_eq_true, Bool.not_eq_true', Bool.not_eq_true'] at hb
    exact ⟨hb.1, credits_of_not_settles hb.2⟩
  obtain ⟨a, mintNoteIds, mintAmounts, i, pre, rest, hh, -⟩ := swappedLast_eq_true hlast
  exact ⟨c₀, hc₀, s, hs, c, hc, ⟨a, mintNoteIds, mintAmounts, i, pre, rest, hh⟩, hwinds⟩

/-- **A merge raises what a sunset mint owes.** -/
theorem sunset_merge_raises : ∃ c₀ : Config (mint Settings.charging),
    Reach State.initial c₀ ∧ ∃ s : State, s = c₀.w.st ∧
      ∃ c : Config (mint Settings.sunset), Reach s c ∧
        ∃ a burnIds mintNoteIds mintAmounts i pre rest,
          c.w.hist =
            .did a (.write (.swap burnIds mintNoteIds mintAmounts)) i (.ok ()) pre :: rest ∧
          pre.store.outstandingMsat < c.w.st.store.outstandingMsat := by
  have hrun : twoNotes.any (fun s => ((Config.start s).play
      (sunsetRun [standInKey '1', standInKey '2'] 8)).any
        (swappedLast [standInKey '1', standInKey '2'] (· < ·))) = true := by decide +kernel
  obtain ⟨c₀, hc₀, s, hs, c, hc, h⟩ := exists_sunsetRun hrun
  obtain ⟨a, mintNoteIds, mintAmounts, i, pre, rest, hh, hlt⟩ := swappedLast_eq_true h
  exact ⟨c₀, hc₀, s, hs, c, hc, a, _, mintNoteIds, mintAmounts, i, pre, rest, hh,
    of_decide_eq_true hlt⟩

end Histories

end LnurlMint
