import LnurlMint.Conservation

/-!
# The books balance

`LnurlMint.Conservation` bounds what holders can claim by what was paid in. Here the difference is
accounted for to the last msat. What was paid in is what is outstanding, what was redeemed, and what
the mint earned; and it earned the fees of the settled mints and a base fee for every split, less
the base fees that merges gave back. A rotation, a transfer and a melt earn it nothing.

The accounts are kept twice, as a bookkeeper would: from the store, as it is now, and from the
history, event by event.

## Main definitions

* `issued`, `splits`, `mergedAway` — the history's side
* `NoteStore.issuedMsat`, `NoteStore.mintFees` — the store's side
* `earned` — what the mint charged, less what it gave back

## Main results

* `Run.outstanding_eq` — what is outstanding, from the history
* `books_balance`
-/

namespace LnurlMint

open Relational Interleave

/-! ## One transaction -/

namespace NoteStore

variable {s s' : NoteStore} {now : ℤ}

theorem outstandingMsat_eq_potential (s : NoteStore) : s.outstandingMsat = potential 0 s := by
  rw [potential_eq, zero_mul, add_zero]

/-- What is redeemed is no longer outstanding. -/
theorem outstanding_redeem {ids : List Str} {f : NoteRow → NoteRow} {hf}
    (hn : s'.notes = s.notes.modifyEach ids f hf) (idem : ∀ n, f (f n) = f n)
    (hspent : ∀ n, (f n).spent = true) :
    s'.outstandingMsat + s.unspentWorth ids = s.outstandingMsat := by
  unfold outstandingMsat unspentWorth
  rw [hn, Table.sum_modifyEach _ _ _ _ idem, ← Table.sum_add]
  refine Table.sum_congr fun n _ => ?_
  by_cases hid : n.id ∈ ids <;> by_cases hs : n.spent = true <;> simp [hid, hs, hspent]

/-- A swap takes what it burns and adds what it gives out. -/
theorem Swapped.outstanding_eq {burnIds mintNoteIds : List Str} {mintAmounts : List ℤ}
    {toUsername : Option Str} (h : s.Swapped s' now burnIds mintNoteIds mintAmounts toUsername)
    (hlen : mintNoteIds.length = mintAmounts.length) :
    s'.outstandingMsat + s.worth burnIds = s.outstandingMsat + mintAmounts.sum := by
  have heq := h.potential_eq 0 hlen
  rw [outstandingMsat_eq_potential, outstandingMsat_eq_potential]
  linarith

end NoteStore

open NoteStore in
/-- A transaction that neither swaps, settles nor redeems leaves what is outstanding. -/
theorem NotesStep.outstanding_eq {now : ℤ} {u : Update} {s s' : NoteStore}
    (hu : ∀ h derive, u ≠ .settleMint h derive) (hr : u.redeems = [])
    (hs : NotesStep (fun _ _ _ => False) now u s s') : s'.outstandingMsat = s.outstandingMsat := by
  cases hs with
  | keep hn => exact congrArg (Table.sum · fun n => if n.spent then 0 else n.amountMsat) hn
  | credit out hu' =>
    obtain ⟨h, derive, rfl⟩ := hu'
    exact absurd rfl (hu h derive)
  | swap s₀ _ _ _ _ _ _ _ hok => exact hok.elim
  | burn ids hu' hd hburn hn =>
    obtain ⟨h, total, rfl⟩ := hu'
    obtain rfl : ids = [] := hr
    exact congrArg (Table.sum · fun n => if n.spent then 0 else n.amountMsat) hn
  | reserve ids hash _ _ hs =>
    subst hs
    rw [outstandingMsat_eq_potential, outstandingMsat_eq_potential]
    exact potential_rewrite rfl (fun _ => rfl) fun _ => rfl
  | finalize ids hu' hs =>
    subst hu' hs
    obtain rfl : ids = [] := hr
    rfl
  | restore ids _ hs =>
    subst hs
    rw [outstandingMsat_eq_potential, outstandingMsat_eq_potential]
    exact potential_rewrite rfl (fun _ => rfl) fun _ => rfl

/-- A method that makes notes out of notes. -/
def Update.Swaps : Update → Prop
  | .swap .. | .transferToUsername .. => True
  | _ => False

open NoteStore in
/-- **What a transaction that neither swaps nor settles redeems, it takes from what is
outstanding.** -/
theorem outstanding_apply {i : Input} {u : Update} {s s' : NoteStore} {out : u.Out}
    (hswap : ¬ u.Swaps) (hu : ∀ h derive, u ≠ .settleMint h derive)
    (h : u.apply i s = .ok (out, s')) :
    s'.outstandingMsat + s.unspentWorth u.redeems = s.outstandingMsat := by
  have other : u.SwapsMeet (fun _ _ _ => False) → u.redeems = [] →
      s'.outstandingMsat + s.unspentWorth u.redeems = s.outstandingMsat := fun hok hr => by
    rw [hr, unspentWorth_nil, add_zero]
    exact (Update.notesStep hok h).outstanding_eq hu hr
  cases u with
  | finalizeMelt ids =>
    cases h
    exact outstanding_redeem rfl (fun _ => rfl) fun _ => rfl
  | payAddressFeeWithNotes ids =>
    obtain ⟨-, -, f, us, -, -, -, -, -, -, -, rfl⟩ := payAddressFeeWithNotes_ok h
    exact outstanding_redeem rfl (fun _ => rfl) fun _ => rfl
  | swap | transferToUsername => exact absurd trivial hswap
  | _ => exact other trivial rfl

open NoteStore in
/-- A transfer takes what it burns and adds the amount. -/
theorem outstanding_transfer {i : Input} {burnIds : List Str} {username : Str} {amountMsat : ℤ}
    {derive : DeriveNote} {s s' : NoteStore} {out : Str}
    (h : (Update.transferToUsername burnIds username amountMsat derive).apply i s =
      .ok (out, s')) : s'.outstandingMsat + s.worth burnIds = s.outstandingMsat + amountMsat := by
  obtain ⟨row, index, -, -, -, hswapped⟩ := transferToUsername_ok h
  have heq := hswapped.outstanding_eq rfl
  rwa [List.sum_singleton] at heq

/-! ## The history's side -/

section Histories

variable {d : Deps} {cfg : Settings d} {s : State} {w w' : World (mint cfg)} {a : Actor mintSig}

/-- What an event issued: the note of a settled mint. -/
def issuedBy : Event (mint cfg) → ℤ
  | .did _ (.write (.settleMint ..)) _ (.ok (some amountMsat)) _ => amountMsat
  | _ => 0

/-- Whether an event split notes. -/
def splitBy : Event (mint cfg) → ℤ
  | .did _ (.write (.swap _ [_, _] _)) _ (.ok _) _ => 1
  | _ => 0

/-- How many notes an event merged away. -/
def mergedAwayBy : Event (mint cfg) → ℤ
  | .did _ (.write (.swap burnIds [_] _)) _ (.ok _) _ => burnIds.length - 1
  | _ => 0

/-- What was issued so far. -/
def issued (hist : List (Event (mint cfg))) : ℤ := (hist.map issuedBy).sum

/-- How often notes were split. -/
def splits (hist : List (Event (mint cfg))) : ℤ := (hist.map splitBy).sum

/-- How many notes were merged away. -/
def mergedAway (hist : List (Event (mint cfg))) : ℤ := (hist.map mergedAwayBy).sum

variable (cfg) in
/-- What an event adds to what is outstanding. -/
def posted (e : Event (mint cfg)) : ℤ :=
  issuedBy e - redeemedBy e - cfg.baseFeeMsat * splitBy e + cfg.baseFeeMsat * mergedAwayBy e

/-- A swap gives out what it burns, less a base fee for a split, and with the base fees of the notes
that it merges away. -/
theorem posted_swap {burnIds mintNoteIds : List Str} {mintAmounts : List ℤ} (i : Input)
    (pre : State)
    (hu : MayWrite cfg w a (.swap burnIds mintNoteIds mintAmounts)) :
    mintNoteIds.length = mintAmounts.length ∧
      w.st.store.worth burnIds + posted cfg
        (.did a (.write (.swap burnIds mintNoteIds mintAmounts)) i (.ok ()) pre) =
      mintAmounts.sum := by
  obtain ⟨_, k1, amount, _, _, o1, o2, -, hs, hn, ho, rfl, hamts, -⟩ := hu
  refine ⟨hamts.length_eq ho, ?_⟩
  have hnone : redeemedBy (.did a (.write (.swap burnIds (o1 :: o2.toList) mintAmounts)) i (.ok ())
      pre : Event (mint cfg)) = 0 := NoteStore.unspentWorth_nil
  rw [posted, hnone]
  cases amount with
  | none =>
    obtain rfl : o2 = none := ho.2
    rw [show mintAmounts = [_] from hamts]
    simp only [Option.toList, issuedBy, splitBy, mergedAwayBy, List.sum_singleton]
    ring
  | some x =>
    obtain ⟨o2, rfl⟩ := Option.isSome_iff_exists.1 ho.2.1
    rw [hamts.2.2]
    simp only [Option.toList, issuedBy, splitBy, mergedAwayBy, List.sum_cons, List.sum_nil]
    ring

theorem posted_of_ne {e : Event (mint cfg)}
    (h : ∀ a u i r pre, e ≠ .did a (.write u) i r pre) : posted cfg e = 0 := by
  cases e with
  | did a o i out pre =>
    cases o with
    | write u => exact absurd rfl (h a u i out pre)
    | _ => simp [posted, issuedBy, redeemedBy, splitBy, mergedAwayBy]
  | _ => simp [posted, issuedBy, redeemedBy, splitBy, mergedAwayBy]

theorem posted_failed {u : Update} {i : Input} {e : Exn} {pre : State} :
    posted cfg (.did a (.write u) i (.error e) pre) = 0 := by
  cases u with
  | swap burnIds mintNoteIds mintAmounts =>
    rcases mintNoteIds with _ | ⟨_, _ | ⟨_, _ | _⟩⟩ <;>
      simp [posted, issuedBy, redeemedBy, splitBy, mergedAwayBy]
  | _ => simp [posted, issuedBy, redeemedBy, splitBy, mergedAwayBy]

/-- Without a swap and a settlement, what is posted is what is redeemed. -/
theorem posted_redeems {u : Update} {i : Input} {out : u.Out} {pre : State}
    (hset : ∀ h derive, u ≠ .settleMint h derive)
    (hswap : ∀ burnIds mintNoteIds mintAmounts, u ≠ .swap burnIds mintNoteIds mintAmounts) :
    posted cfg (.did a (.write u) i (.ok out) pre) =
      -pre.store.unspentWorth u.redeems := by
  cases u with
  | settleMint => exact absurd rfl (hset _ _)
  | swap => exact absurd rfl (hswap _ _ _)
  | _ => simp [posted, issuedBy, redeemedBy, splitBy, mergedAwayBy]

/-- **What an event posts is what it does to the sum.** -/
theorem Next.outstanding_eq {e : Event (mint cfg)} (h : Next (law cfg) w e w') :
    w'.st.store.outstandingMsat = w.st.store.outstandingMsat + posted cfg e := by
  rcases Next.store h with ⟨hne, he⟩ | ⟨a, u, i, r, rfl, hu, hr⟩ | ⟨rfl, he⟩
  · rw [he, posted_of_ne hne, add_zero]
  · rcases Update.run_eq_some.1 hr with ⟨out, rfl, ho⟩ | ⟨e, rfl, -, -, he⟩
    · have other : (∀ h derive, u ≠ .settleMint h derive) → ¬ u.Swaps →
          w'.st.store.outstandingMsat = w.st.store.outstandingMsat +
            posted cfg (.did a (.write u) i (.ok out) w.st) := by
        intro hset hswap
        have heq := outstanding_apply hswap hset ho
        rw [posted_redeems hset fun _ _ _ hu => hswap (by rw [hu]; trivial)]
        linarith
      cases u with
      | settleMint hash derive =>
        rw [NoteStore.outstandingMsat_eq_potential, NoteStore.outstandingMsat_eq_potential]
        rcases potential_settleMint 0 ho with ⟨rfl, hpot⟩ | ⟨m, -, rfl, hpot⟩ <;> rw [hpot] <;>
          simp [posted, issuedBy, redeemedBy, splitBy, mergedAwayBy, Update.redeems]
      | swap burnIds mintNoteIds mintAmounts =>
        obtain ⟨s₁, hs₁, he⟩ := map_eq_ok.1 ho
        cases he
        have hswapped := NoteStore.swapLocked_ok (NoteStore.reported_eq_ok.1 hs₁)
        obtain ⟨hlen, hposted⟩ := posted_swap i w.st hu
        have heq := hswapped.outstanding_eq hlen
        linarith
      | transferToUsername burnIds username amountMsat derive =>
        have hworth : amountMsat = w.st.store.worth burnIds := by
          obtain ⟨_, _, _, _, _, _, -, -, -, -, -, hworth⟩ := hu
          exact hworth
        have heq := outstanding_transfer ho
        have hnone : posted cfg (.did a (.write (.transferToUsername burnIds username
            amountMsat derive)) i (.ok out) w.st) = 0 := by
          simp [posted, issuedBy, redeemedBy, splitBy, mergedAwayBy, Update.redeems]
        linarith
      | _ => exact other (by simp) id
    · rw [he, posted_failed, add_zero]
  · rw [he, posted_of_ne (by simp), add_zero]
    rfl

theorem sum_posted (hist : List (Event (mint cfg))) :
    (hist.map (posted cfg)).sum = issued hist - redeemed hist - cfg.baseFeeMsat * splits hist +
      cfg.baseFeeMsat * mergedAway hist := by
  induction hist with
  | nil => simp [issued, redeemed, splits, mergedAway]
  | cons e hist ih =>
    rw [List.map_cons, List.sum_cons, ih]
    simp only [posted, issued, redeemed, splits, mergedAway, List.map_cons, List.sum_cons]
    ring

/-- **What is outstanding, from the history.** -/
theorem Run.outstanding_eq (h : Run (law cfg) s w) :
    w.st.store.outstandingMsat = s.store.outstandingMsat + (issued w.hist - redeemed w.hist -
      cfg.baseFeeMsat * splits w.hist + cfg.baseFeeMsat * mergedAway w.hist) := by
  rw [← sum_posted]
  exact h.tally (f := fun s : State => s.store.outstandingMsat) fun _ hn => Next.outstanding_eq hn

/-! ## The store's side -/

/-- What the settled mints issued. -/
def NoteStore.issuedMsat (s : NoteStore) : ℤ :=
  s.mints.sum fun m => if m.minted then m.amountMsat else 0

/-- The fees of the settled mints. -/
def NoteStore.mintFees (cfg : Settings d) (s : NoteStore) : ℤ :=
  s.mints.sum fun m => if m.minted then mintFeeMsat cfg (invoiceAmount d m.pr) else 0

theorem issuedMsat_of_mintsStep {now : ℤ} {u : Update} {s s' : NoteStore}
    (hu : ∀ h derive, u ≠ .settleMint h derive) (hs : MintsStep now u s s') :
    s'.issuedMsat = s.issuedMsat := by
  unfold NoteStore.issuedMsat
  cases hs with
  | keep hm => rw [hm]
  | mint ids hf hm => rw [hm]
  | receipt h receiptId hm =>
    rw [hm, Table.sum_modify_of_eq]
    exact fun _ => rfl
  | create m hu' hp hx hf hm =>
    rw [Table.sum_insert? hm, hp]
    simp
  | settle m id derive hu' => exact absurd hu' (hu _ _)

theorem issuedMsat_settleMint {now : ℤ} {hash : Str} {derive : Option DeriveNote}
    {out : Option ℤ} {s s' : NoteStore} (h : s.settleMint now hash derive = .ok (out, s')) :
    s'.issuedMsat = s.issuedMsat + out.getD 0 := by
  rcases NoteStore.settleMint_ok h with ⟨rfl, rfl, -⟩ | ⟨m, notes, hg, hp, rfl, hs⟩
  · exact (add_zero _).symm
  have hmark : (s.markMinted hash).issuedMsat = s.issuedMsat + m.amountMsat := by
    rw [NoteStore.issuedMsat, NoteStore.markMinted, Table.sum_modify, hg]
    simp [NoteStore.issuedMsat, hp]
  rcases hs with ⟨id, -, -, rfl⟩ | ⟨_, _, pk, _, _, -, -, -, -, -, -, -, -, rfl⟩
  · exact hmark
  · have hname : ((s.markMinted hash).nameMintNote hash pk).issuedMsat =
        (s.markMinted hash).issuedMsat := by
      rw [NoteStore.issuedMsat, NoteStore.nameMintNote, Table.sum_modify_of_eq]
      · rfl
      · exact fun _ => rfl
    exact hname.trans hmark

/-- Both sides of the books agree on what was issued. -/
theorem Run.issued_eq (h : Run (law cfg) s w) :
    w.st.store.issuedMsat = s.store.issuedMsat + issued w.hist := by
  refine h.tally (f := fun s : State => s.store.issuedMsat) fun {w e w'} _ hn => ?_
  rcases Next.store hn with ⟨hne, he⟩ | ⟨a, u, i, r, rfl, -, hr⟩ | ⟨rfl, he⟩
  · have hnone : issuedBy e = 0 := by
      cases e with
      | did a o i out pre =>
        cases o with
        | write u => exact absurd rfl (hne a u i out pre)
        | _ => rfl
      | _ => rfl
    simp only [he, hnone, add_zero]
  · rcases Update.run_eq_some.1 hr with ⟨out, rfl, ho⟩ | ⟨e, rfl, -, -, he⟩
    · by_cases hset : ∃ hash derive, u = .settleMint hash derive
      · obtain ⟨hash, derive, rfl⟩ := hset
        have heq := issuedMsat_settleMint ho
        cases out with
        | none => exact heq
        | some x => exact heq
      · have heq := issuedMsat_of_mintsStep (fun h derive he => hset ⟨h, derive, he⟩)
          (Update.mintsStep ho)
        cases u with
        | settleMint hash derive => exact absurd ⟨hash, derive, rfl⟩ hset
        | _ => simp only [heq, issuedBy, add_zero]
    · cases u <;> simp only [he, issuedBy, add_zero]
  · have hreopen : w'.st.store.issuedMsat = w.st.store.issuedMsat := by rw [he]; rfl
    simp only [hreopen, issuedBy, add_zero]

variable (cfg) in
/-- Every mint is for its invoice less the fee. -/
def Charged (s : NoteStore) : Prop :=
  ∀ h m, s.mints.find? h = some m →
    m.amountMsat = invoiceAmount d m.pr - mintFeeMsat cfg (invoiceAmount d m.pr)

theorem Run.charged (h : Run (law cfg) s w) (hs : Charged cfg s.store)
    (hinv : ∀ e ∈ w.hist, invoiced e = true) : Charged cfg w.st.store := by
  refine Run.store_induct h hs (fun h₀ hf hu hp ho => ?_) fun hp => hp
  intro hash m hm
  rcases NoteStore.mint_of_mintsStep (Update.mintsStep ho) hm with ⟨m₀, hm₀, hc⟩ | ⟨rfl, -⟩
  · rw [← hc.amountMsat, ← hc.pr]
    exact hp _ _ hm₀
  · obtain ⟨-, -, ⟨gross, preimage, hjust, -, -, hnet, -, -⟩, -⟩ := hu
    obtain ⟨pre, hheard⟩ := hjust.heard
    have hamount : invoiceAmount d m.pr = gross := by
      simpa [invoiced] using hinv _ (hf.mem hheard)
    rw [hamount, hnet]

/-- What the settled mints were paid is what they issued and their fees. -/
theorem Charged.paidIn_eq {s : NoteStore} (h : Charged cfg s) :
    s.paidIn d = s.issuedMsat + s.mintFees cfg := by
  unfold NoteStore.paidIn NoteStore.issuedMsat NoteStore.mintFees
  rw [← Table.sum_add]
  refine Table.sum_congr fun m hm => ?_
  split
  · rw [h _ m (Table.find?_of_mem hm)]
    omega
  · rfl

/-- What the mint charged, less what it gave back. -/
def earned (w : World (mint cfg)) : ℤ :=
  w.st.store.mintFees cfg + cfg.baseFeeMsat * splits w.hist - cfg.baseFeeMsat * mergedAway w.hist

/-- **The books balance.** If invoices are for the amounts they were asked for, then in every run
what was paid in for the settled mints is what is outstanding, what was redeemed and what the mint
earned, to the last msat; and what it earned covers a base fee for every unspent note, so that
merging them all would not leave it short. -/
theorem books_balance {c : Config (mint cfg)} (h : Reach State.initial c)
    (hinv : ∀ e ∈ c.w.hist, invoiced e = true) :
    c.w.st.store.paidIn d = c.w.st.store.outstandingMsat + redeemed c.w.hist + earned c.w ∧
      cfg.baseFeeMsat * c.w.st.store.unspentNotes ≤ earned c.w := by
  have hr := Reach.law h
  have hcharged : Charged cfg c.w.st.store := Run.charged hr (fun h m hm => by cases hm) hinv
  have hpaid := hcharged.paidIn_eq
  have hissued := Run.issued_eq hr
  have hout := Run.outstanding_eq hr
  have hle := Run.conserves hr hinv
  have hnone : (State.initial.store).issuedMsat = 0 := rfl
  have hnone' : (State.initial.store).outstandingMsat = 0 := rfl
  rw [potential_eq] at hle
  have hbalance : c.w.st.store.paidIn d =
      c.w.st.store.outstandingMsat + redeemed c.w.hist + earned c.w := by
    rw [earned]
    omega
  exact ⟨hbalance, by omega⟩

/-- A mint that charges a base fee. -/
def Settings.baseFee : Settings .standIn := { Settings.standIn with baseFeeMsat := 1000 }

/-- Two notes are minted and merged. -/
def mergedRun : List (Choice (mint Settings.baseFee)) :=
  standInMints 0 "h".toList (standInKey '1') ++ standInMints 5 "g".toList (standInKey '2') ++
    standInAsks 10 (.getWithdrawCallback [standInKey '1', standInKey '2'] none none
      (some (standInKey '3')) none) ++
    standInGoes 3 1 ++ [.answer 10 (standInAnswer [] true)] ++ standInGoes 7 1 ++
    [.answer 10 (standInAnswer [] true)] ++ standInGoes 6 1

/-- Of 20000 msat the merged note is worth 19000: the mint charged two fees and gave one back. -/
theorem books_balance_merged : ∃ c : Config (mint Settings.baseFee), Reach State.initial c ∧
    c.w.st.store.outstandingMsat = 19000 ∧ c.w.st.store.paidIn .standIn = 20000 ∧
    earned c.w = 1000 := by
  have hrun : (standInRun mergedRun).any (fun c => c.w.hist.all invoiced &&
      decide (c.w.st.store.outstandingMsat = 19000) && decide (redeemed c.w.hist = 0) &&
      decide (c.w.st.store.paidIn .standIn = 20000)) = true := by decide +kernel
  obtain ⟨c, hc, h⟩ := exists_standInRun hrun
  simp only [Bool.and_eq_true, decide_eq_true_eq, List.all_eq_true] at h
  obtain ⟨⟨⟨hinv, hout⟩, hred⟩, hpaid⟩ := h
  have hbalance := (books_balance hc hinv).1
  rw [hout, hred, hpaid] at hbalance
  exact ⟨c, hc, hout, hpaid, by omega⟩

end Histories

end LnurlMint
