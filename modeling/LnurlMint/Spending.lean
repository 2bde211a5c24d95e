import LnurlMint.Lib.Conduct
import LnurlMint.Powers
import LnurlMint.Payouts

/-!
# Only who opens a note can spend it

A note is a bearer instrument, so what protects it is the check at the till: whoever names it in a
`k1` must show a spend that verifies against the note's own key, at the clock, within the domains of
this mint, from when the note was credited. The check is made far from where the note is taken. In
between a request waits for the funding source, others come and go, and the notes that a melt takes
are burned by a background task that checks nothing at all.

Here the two ends are joined. A request takes no note that its own reading has not opened, which is
a rule about its own past; and a note that is spent or reserved, whoever finalized it, was taken by
a request before.

## Main definitions

* `Opens`, `spendingRule` — what must have been read first

## Main results

* `body_spending` — every task's program keeps the rule
* `spent_notes_opened`
-/

namespace LnurlMint

open Relational Interleave

section Rules

variable {d : Deps} (cfg : Settings d)

/-- These acts read the note and the clock, and one of these `k1`s opens the note as it was read. -/
def Opens (k1s : List Str) (acts : List (Act mintSig)) (id : Str) : Prop :=
  ∃ k ∈ k1s, ∃ parsed t amountMsat lockedAt spent pending,
    Spend.parse d k = some parsed ∧ parsed.noteId = id ∧
    Act.did (S := mintSig) (Op.read (.noteRecord id))
      (some (amountMsat, lockedAt, spent, pending)) ∈ acts ∧
    Act.did (S := mintSig) Op.now t ∈ acts ∧
    Spend.verify d parsed t lockedAt cfg.spendDomains = none

variable {cfg} in
theorem Opens.mono {k1s k1s' : List Str} {acts acts' : List (Act mintSig)} {id : Str}
    (h : Opens cfg k1s acts id) (hk : k1s ⊆ k1s') (ha : acts <:+ acts') :
    Opens cfg k1s' acts' id := by
  obtain ⟨k, hmem, parsed, t, amountMsat, lockedAt, spent, pending, hp, hid, hr, ht, hv⟩ := h
  exact ⟨k, hk hmem, parsed, t, amountMsat, lockedAt, spent, pending, hp, hid, ha.subset hr,
    ha.subset ht, hv⟩

/-- A task takes only notes that it has opened, by a `k1` of its request. -/
def spendingRule (task : Task) : Rule mintSig Response where
  op acts o := ∀ u, o = .write u → ∀ id ∈ u.consumed, Opens cfg (task.spends.getD []) acts id
  call _ _ := True
  task _ _ := True
  value _ _ := True

/-- What takes no note. -/
def takesNone : Scope mintSig where
  op o := ∀ u, o = .write u → u.consumed = []
  call _ := True
  task _ := True

theorem looks_takesNone : Looks takesNone :=
  ⟨fun _ _ h => (by cases h), fun _ h => (by cases h), fun _ h => (by cases h)⟩

theorem op_takesNone {u : Update} (h : u.consumed = []) : takesNone.op (.write u) := fun _ hu => by
  cases hu
  exact h

theorem settlesMint_takesNone (h : Str) : SettlesMint d takesNone h :=
  ⟨trivial, op_takesNone rfl⟩

variable {cfg} {task : Task} {t : List (Act mintSig)} {α : Type}

theorem spendingRule_allows : (spendingRule cfg task).Allows takesNone where
  op _ _ h u hu id hid := by
    rw [h u hu] at hid
    cases hid
  call _ _ _ := trivial
  task _ _ _ := trivial

/-- What takes no note keeps the rule. -/
theorem keeps_takesNone {p : Mint α} {P : α → Prop} (h : p.Within takesNone P) :
    p.Keeps (spendingRule cfg task) (fun x _ => P x) t :=
  .of_within spendingRule_allows h

theorem keeps_take {u : Update} (h : ∀ id ∈ u.consumed, Opens cfg (task.spends.getD []) t id) :
    (write u).Keeps (spendingRule cfg task) (fun _ _ => True) t := by
  refine .bind (.perform fun u' hu => ?_) fun r _ _ _ => ?_
  · cases hu
    exact h
  · exact keeps_takesNone ((Prog.Within.ofExcept r).weaken fun _ _ => trivial)

/-! ## Verified notes -/

/-- A verified note was opened. -/
theorem verifiedNote_keeps {k1 : Str} :
    (verifiedNote cfg k1).Keeps (spendingRule cfg task)
      (fun v t' => Opens cfg [k1] t' v.noteId) t := by
  rw [verifiedNote]
  split
  · trivial
  · next parsed hparsed =>
    refine .bind (keeps_takesNone (within_noteAmountById looks_takesNone settlesMint_takesNone))
      fun _ t₁ _ _ => ?_
    refine .bind (.perform fun u hu => (by cases hu)) fun record t₂ _ hrecord => ?_
    cases record with
    | none => trivial
    | some record =>
      obtain ⟨amountMsat, lockedAt, spent, pending⟩ := record
      refine .bind (.perform fun u hu => (by cases hu)) fun now t₃ _ hnow => ?_
      split
      · trivial
      · next hverify =>
        refine .pure ⟨k1, List.mem_singleton_self _, parsed, now, amountMsat, lockedAt, spent,
          pending, hparsed, rfl, ?_, ?_, hverify⟩
        · rw [hnow, hrecord]
          exact List.mem_cons_of_mem _ List.mem_cons_self
        · rw [hnow]
          exact List.mem_cons_self

theorem keeps_rejectionsAnswered {rewrite : String → String} {p : Mint α}
    {P : α → List (Act mintSig) → Prop} (h : p.Keeps (spendingRule cfg task) P t) :
    (rejectionsAnswered rewrite p).Keeps (spendingRule cfg task) P t :=
  .tryCatch h fun e _ _ => by cases e <;> trivial

theorem keeps_burnErrorsAnswered {p : Mint α} {P : α → List (Act mintSig) → Prop}
    (h : p.Keeps (spendingRule cfg task) P t) :
    (burnErrorsAnswered p).Keeps (spendingRule cfg task) P t :=
  .tryCatch h fun e _ _ => by cases e <;> trivial

theorem verifiedNotes_keeps (k1 : List Str) :
    (verifiedNotes cfg k1).Keeps (spendingRule cfg task)
      (fun notes t' => ∀ id ∈ notes.map fun n => n.noteId, Opens cfg k1 t' id) t := by
  induction k1 generalizing t with
  | nil => exact .pure (by simp)
  | cons k k1 ih =>
    refine .bind (keeps_rejectionsAnswered verifiedNote_keeps) fun note t₁ _ hnote => ?_
    refine .bind ih fun notes t₂ ht₂ hnotes => .pure ?_
    intro id hid
    rcases List.mem_cons.1 hid with rfl | hid
    · exact hnote.mono (by simp) ht₂
    · exact (hnotes id hid).mono (List.subset_cons_self _ _) List.suffix_rfl

/-! ## The handlers that take notes -/

variable {baseUrl : Str}

theorem internalTransfer_keeps {name : Str} {amount : ℤ} {k1 : Str}
    (htask : task.spends = some [k1]) :
    (internalTransfer cfg name amount k1).Keeps (spendingRule cfg task) (fun _ _ => True) t := by
  refine .bind (keeps_takesNone (.orRaise _ _)) fun _ _ _ _ => ?_
  refine .bind (keeps_takesNone (.raiseIf _ _)) fun _ _ _ _ => ?_
  refine .bind (keeps_rejectionsAnswered verifiedNote_keeps) fun note t₁ _ hnote => ?_
  refine .bind (keeps_takesNone (within_read looks_takesNone)) fun burn t₂ ht₂ _ => ?_
  refine .bind (keeps_takesNone (within_read looks_takesNone)) fun recipient t₃ ht₃ _ => ?_
  split
  · exact .pure trivial
  · refine .bind (keeps_takesNone (.raiseIf _ _)) fun _ t₄ ht₄ _ => ?_
    refine .bind (keeps_takesNone (.raiseIf _ _)) fun _ t₅ ht₅ _ => ?_
    refine .bind (keeps_takesNone (.raiseIf _ _)) fun _ t₆ ht₆ _ => ?_
    refine .bind (.attempt (keeps_take fun id hid => ?_)) fun credited _ _ _ => ?_
    · obtain rfl := List.mem_singleton.1 hid
      rw [htask]
      exact hnote.mono (List.Subset.refl _) (ht₂.trans (ht₃.trans (ht₄.trans (ht₅.trans ht₆))))
    · split <;> trivial

theorem rotateSplitMerge_keeps {k1 : List Str} {notes : List Verified} {amount : Option ℤ}
    {p1 : Str} {p2 : Option Str} (htask : task.spends = some k1)
    (hnotes : ∀ id ∈ notes.map fun n => n.noteId, Opens cfg k1 t id) :
    (rotateSplitMerge cfg baseUrl notes amount p1 p2).Keeps (spendingRule cfg task)
      (fun _ _ => True) t := by
  have hcert : ∀ {id dom : Str} {amountMsat : ℤ} {t : List (Act mintSig)},
      (certificate cfg id amountMsat dom).Keeps (spendingRule cfg task) (fun _ _ => True) t :=
    keeps_takesNone (within_certificate trivial)
  have htake : ∀ {outs amounts t'}, t <:+ t' →
      (write (.swap (notes.map fun n => n.noteId) outs amounts)).Keeps (spendingRule cfg task)
        (fun _ _ => True) t' := fun ht' => keeps_take fun id hid => by
    rw [htask]
    exact (hnotes id hid).mono (List.Subset.refl _) ht'
  refine .bind (keeps_takesNone (within_read looks_takesNone)) fun burn t₁ ht₁ _ => ?_
  split
  · exact keeps_takesNone (within_replay fun _ => trivial)
  · refine .bind (keeps_takesNone within_unspentTotal) fun totalMsat t₂ ht₂ _ => ?_
    split
    · refine keeps_burnErrorsAnswered (.bind (keeps_takesNone (.raiseIf _ _)) fun _ t₃ ht₃ _ => ?_)
      refine .bind (keeps_takesNone (.raiseIf _ _)) fun _ t₄ ht₄ _ => ?_
      refine .bind (keeps_takesNone (.raiseIf _ _)) fun _ t₅ ht₅ _ => ?_
      refine .bind (htake (ht₁.trans (ht₂.trans (ht₃.trans (ht₄.trans ht₅))))) fun _ _ _ _ => ?_
      refine .bind (keeps_takesNone (.ofExcept _)) fun _ _ _ _ => ?_
      exact .bind hcert fun _ _ _ _ => .bind hcert fun _ _ _ _ => .pure trivial
    · refine keeps_burnErrorsAnswered (.bind (htake (ht₁.trans ht₂)) fun _ _ _ _ => ?_)
      refine .bind (keeps_takesNone (.ofExcept _)) fun _ _ _ _ => ?_
      exact .bind hcert fun _ _ _ _ => .pure trivial

theorem melt_keeps {k1 : List Str} {notes : List Verified} {pr : Str}
    (htask : task.spends = some k1)
    (hnotes : ∀ id ∈ notes.map fun n => n.noteId, Opens cfg k1 t id) :
    (melt cfg baseUrl notes pr).Keeps (spendingRule cfg task) (fun _ _ => True) t := by
  have htake : ∀ {u : Update} {t'}, u.consumed = notes.map (fun n => n.noteId) → t <:+ t' →
      (write u).Keeps (spendingRule cfg task) (fun _ _ => True) t' :=
    fun hu ht' => keeps_take fun id hid => by
      rw [htask]
      exact (hnotes id (hu ▸ hid)).mono (List.Subset.refl _) ht'
  refine .bind (keeps_takesNone within_unspentTotal) fun totalMsat t₁ ht₁ _ => ?_
  split
  · trivial
  · refine .bind (keeps_takesNone (.raiseIf _ _)) fun _ t₂ ht₂ _ => ?_
    split
    · exact .bind (keeps_takesNone within_requireFundingSource) fun _ _ _ _ => trivial
    · refine .bind (keeps_takesNone (within_read looks_takesNone)) fun fee t₃ ht₃ _ => ?_
      have ht₃ := ht₁.trans (ht₂.trans ht₃)
      split
      · refine .bind (keeps_takesNone (.raiseIf _ _)) fun _ t₄ ht₄ _ => ?_
        exact .bind (keeps_burnErrorsAnswered (htake rfl (ht₃.trans ht₄)))
          fun _ _ _ _ => .bind (keeps_takesNone within_verifyUrl) fun _ _ _ _ => .pure trivial
      · refine .bind (keeps_takesNone (within_read looks_takesNone)) fun _ t₄ ht₄ _ => ?_
        refine .bind (keeps_takesNone (.raiseIf _ _)) fun _ t₅ ht₅ _ => ?_
        refine .bind (keeps_takesNone (within_read looks_takesNone)) fun _ t₆ ht₆ _ => ?_
        refine .bind (keeps_takesNone (.raiseIf _ _)) fun _ t₇ ht₇ _ => ?_
        refine .bind (keeps_takesNone within_requireFundingSource) fun _ t₈ ht₈ _ => ?_
        have ht₈ := ht₃.trans (ht₄.trans (ht₅.trans (ht₆.trans (ht₇.trans ht₈))))
        refine .bind (keeps_burnErrorsAnswered (htake rfl ht₈)) fun _ _ _ _ => ?_
        have hrest : ∀ {p : Mint Response}, p.Within takesNone (fun _ => True) →
            ∀ {t}, p.Keeps (spendingRule cfg task) (fun _ _ => True) t := fun h => keeps_takesNone h
        refine hrest (.bind (.perform fun u hu => by cases hu) fun _ _ => ?_)
        refine .bind (P := fun _ => True) (.tryCatch ?_ fun _ => ?_) fun _ _ => .pure trivial
        · refine .bind (within_write (op_takesNone rfl)) fun _ _ => ?_
          exact .bind within_verifyUrl fun _ _ => .bind (.start trivial) fun _ _ => .pure trivial
        · exact .bind (.perform fun u hu => by cases hu) fun _ _ => trivial

theorem getWithdrawCallback_keeps {k1 : List Str} {pr : Option Str} {amount : Option ℤ}
    {p1 p2 : Option Str} (htask : task.spends = some k1) :
    (getWithdrawCallback cfg baseUrl k1 pr amount p1 p2).Keeps (spendingRule cfg task)
      (fun _ _ => True) t := by
  refine .bind (P := fun _ _ => True) (keeps_takesNone ?_) fun _ _ _ _ => ?_
  · exact .bind (.raiseIf _ _) fun _ _ => .bind (.raiseIf _ _) fun _ _ =>
      .bind (.raiseIf _ _) fun _ _ => (Prog.Within.raiseIf _ _).weaken fun _ _ => trivial
  · cases pr with
    | some pr =>
      exact .bind (verifiedNotes_keeps k1) fun notes _ _ hnotes => melt_keeps htask hnotes
    | none =>
      refine .bind (P := fun _ _ => True) (keeps_takesNone ?_) fun outs _ _ _ => ?_
      · refine .bind (.orRaise _ _) fun _ _ => ?_
        split
        · exact .pure trivial
        · exact .bind (.orRaise _ _) fun _ _ => .pure trivial
      · exact .bind (verifiedNotes_keeps k1) fun notes _ _ hnotes =>
          rotateSplitMerge_keeps htask hnotes

theorem getPayCallbackForUsername_keeps (baseUrl name : Str) (amount : ℤ)
    (comment nostr : Option Str) {k1 : Str} (htask : task.spends = some [k1]) :
    (getPayCallbackForUsername cfg baseUrl name amount comment nostr (some k1)).Keeps
      (spendingRule cfg task) (fun _ _ => True) t := by
  refine .bind (keeps_takesNone (within_registeredUsernameBranch cfg looks_takesNone))
    fun branch _ _ _ => ?_
  exact .bind (keeps_takesNone (.raiseIf _ _)) fun _ _ _ _ => internalTransfer_keeps htask

/-- A task that spends nothing on request takes nothing. -/
theorem powers_le_takesNone (ht : task.spends = none) : task.powers cfg ≤ takesNone := by
  refine ⟨?_, fun _ _ => trivial, fun _ _ => trivial⟩
  rintro _ ho u rfl
  cases task with
  | request r =>
    obtain ⟨baseUrl, endpoint⟩ := r
    have hmay := (show (Task.request ⟨baseUrl, endpoint⟩).mayWrite cfg u from ho).2
    cases endpoint with
    | getWithdrawCallback => cases ht
    | getPayCallbackForUsername name amount comment nostr k1 =>
      cases k1 with
      | some k1 => cases ht
      | none => cases u <;> first | rfl | exact hmay.elim
    | _ => cases u <;> first | rfl | exact hmay.elim
  | _ => cases u <;> first | rfl | exact (show False from ho).elim

theorem route_keeps (r : Request) :
    (route cfg r).Keeps (spendingRule cfg (.request r)) (fun _ _ => True) t := by
  have other : (Task.request r).spends = none →
      (route cfg r).Keeps (spendingRule cfg (.request r)) (fun _ _ => True) t := fun ht =>
    keeps_takesNone ((route_within cfg r).mono (powers_le_takesNone ht) fun _ => id)
  obtain ⟨baseUrl, endpoint⟩ := r
  cases endpoint with
  | getWithdrawCallback => exact getWithdrawCallback_keeps rfl
  | getPayCallbackForUsername name amount comment nostr k1 =>
    cases k1 with
    | some k1 => exact getPayCallbackForUsername_keeps baseUrl name amount comment nostr rfl
    | none => exact other rfl
  | _ => exact other rfl

/-- **Every task takes only notes that it has opened.** -/
theorem body_spending (task : Task) :
    (body cfg task).Keeps (spendingRule cfg task) (fun _ _ => True) t := by
  cases task with
  | request r =>
    refine .tryCatch (route_keeps r) fun e _ _ => ?_
    cases e with
    | http detail => exact .pure trivial
    | _ =>
      exact keeps_takesNone
        (.bind (within_logInternalError looks_takesNone) fun _ _ => .pure trivial)
  | _ =>
    exact keeps_takesNone ((body_within cfg _).mono (powers_le_takesNone rfl) fun _ => id)

end Rules

/-! ## Every run -/

section Runs

variable {d : Deps} {cfg : Settings d} {s : State} {w w' : World (mint cfg)} {a : Actor mintSig}
  {id : Str} {n : NoteRow}

/-- A note is spent after a transaction if it was before, or the transaction was to burn it, for
other notes or for good. -/
theorem NotesStep.spent {now : ℤ} {u : Update} {s s' : NoteStore} {n' : NoteRow}
    (h : NotesStep (fun burnIds _ _ => burnIds = u.consumed) now u s s')
    (hn : s'.notes.find? id = some n') (hs : n'.spent = true) :
    s.Spent id ∨ id ∈ u.consumed ∨ ∃ ids, u = .finalizeMelt ids ∧ id ∈ ids := by
  have rewritten : ∀ {ids : List Str} {f : NoteRow → NoteRow},
      s'.notes.find? id = (s.notes.find? id).map (fun n => if id ∈ ids then f n else n) →
      s.Spent id ∨ id ∈ ids := by
    intro ids f he
    rw [he] at hn
    obtain ⟨n, hfind, rfl⟩ := Option.map_eq_some_iff.1 hn
    by_cases hid : id ∈ ids
    · exact .inr hid
    · rw [if_neg hid] at hs
      exact .inl ⟨n, hfind, hs⟩
  cases h with
  | keep hk => exact .inl ⟨n', hk ▸ hn, hs⟩
  | credit out _ hi =>
    rw [Table.find?_insert? hi] at hn
    split at hn
    · cases hn
      cases hs
    · exact .inl ⟨n', hn, hs⟩
  | swap s₀ hk _ _ burnIds mintIds amounts _ hok hswap =>
    subst hok
    rw [hswap.find?, hk] at hn
    rcases Option.or_eq_some_iff.1 hn with hn | ⟨-, hn⟩
    · obtain ⟨n, hfind, rfl⟩ := Option.map_eq_some_iff.1 hn
      by_cases hid : id ∈ u.consumed
      · exact .inr (.inl hid)
      · rw [if_neg hid] at hs
        exact .inl ⟨n, hfind, hs⟩
    · obtain ⟨out, -, rfl⟩ := List.mem_map.1 (List.mem_of_find?_eq_some hn)
      cases hs
  | burn ids hu _ _ hk =>
    obtain ⟨h, total, rfl⟩ := hu
    have he := congrArg (·.find? id) hk
    exact (rewritten (he.trans (NoteStore.find?_burnNotes ids id))).imp_right .inl
  | reserve ids hash hu _ he =>
    subst hu he
    exact (rewritten (NoteStore.find?_reserve ids hash id)).imp_right .inl
  | finalize ids hu he =>
    subst hu he
    exact (rewritten (NoteStore.find?_finalizeMelt ids id)).imp_right
      fun hid => .inr ⟨ids, rfl, hid⟩
  | restore ids hu he =>
    subst hu he
    rcases rewritten (NoteStore.find?_restore ids id) with h | hid
    · exact .inl h
    · rw [NoteStore.find?_restore] at hn
      obtain ⟨n, hfind, rfl⟩ := Option.map_eq_some_iff.1 hn
      rw [if_pos hid] at hs
      exact .inl ⟨n, hfind, hs⟩

theorem Update.swapsMeet_consumed (u : Update) :
    u.SwapsMeet fun burnIds _ _ => burnIds = u.consumed := by
  cases u <;> simp [SwapsMeet, consumed]

/-- A request took the note. -/
def Taken (w : World (mint cfg)) (id : Str) : Prop :=
  ∃ a u out, id ∈ u.consumed ∧ Wrote w a u (.ok out)

theorem Taken.mono (h : Taken w id) (hsub : ∀ e ∈ w.hist, e ∈ w'.hist) : Taken w' id := by
  obtain ⟨a, u, out, hid, hw⟩ := h
  exact ⟨a, u, out, hid, hw.mono hsub⟩

/-- Whoever finalizes a note, a request had reserved it. -/
theorem Run.taken_of_finalize (h : Run (law cfg) State.initial w) (ha : Joined w.hist a)
    {ids : List Str} (hu : MayWrite cfg w a (.finalizeMelt ids)) (hid : id ∈ ids) : Taken w id := by
  rcases hu with ⟨pr, inv, ht, -⟩ | ⟨-, hash, -, -, -, -, grouped, hsaw, hgroup⟩
  · obtain ⟨hash, id', rfl, -, -, b, -, -, -, -, hb, -⟩ := Run.pays h ha ht
    exact ⟨b, .markPending [id'] hash, (), hid, hb⟩
  · obtain ⟨w₀, i, pre, w₁, -, hn, hf, -, hres⟩ := Run.listed h hsaw hgroup
    obtain ⟨b, hb⟩ := hres id hid
    exact ⟨b, .markPending [id] hash, (), List.mem_singleton_self _,
      hb.mono fun e he => (hn.follows.trans hf).mem he⟩

/-- **A note that is spent was taken by a request.** -/
theorem Run.taken (h : Run (law cfg) State.initial w) (hs : w.st.store.Spent id) :
    Taken w id := by
  induction h with
  | start =>
    obtain ⟨n, hn, -⟩ := hs
    cases hn
  | @step w w' e h hn ih =>
    have hmono : ∀ e ∈ w.hist, e ∈ w'.hist := fun e he => hn.follows.mem he
    have old : w.st.store.Spent id → Taken w' id := fun hs => (ih hs).mono hmono
    rcases Next.store hn with ⟨-, he⟩ | ⟨a, u, i, r, rfl, hu, hr⟩ | ⟨-, he⟩
    · exact old (he ▸ hs)
    · rcases Update.run_eq_some.1 hr with ⟨out, rfl, ho⟩ | ⟨_, rfl, -, -, he⟩
      · obtain ⟨n', hn', hs'⟩ := hs
        rcases (Update.notesStep u.swapsMeet_consumed ho).spent hn' hs' with hs | hid |
          ⟨ids, rfl, hid⟩
        · exact old hs
        · exact ⟨a, u, out, hid, i, w.st, by rw [hn.hist]; exact List.mem_cons_self⟩
        · exact (Run.taken_of_finalize h (mem_alive (hn.step.alive rfl)) hu hid).mono hmono
      · exact old (he ▸ hs)
    · rw [he] at hs
      exact old hs

/-- What a record that was read says of when the note was credited is still so. -/
theorem Run.lockedAt_eq (h : Run (law cfg) s w) {amountMsat lockedAt : ℤ} {spent pending : Bool}
    (hsaw : Saw w a (.noteRecord id) (some (amountMsat, lockedAt, spent, pending)))
    (hn : w.st.store.notes.find? id = some n) : lockedAt = n.lockedAt := by
  obtain ⟨i, pre, he⟩ := hsaw
  obtain ⟨w₀, w₁, -, hnext, hf⟩ := h.past he
  obtain ⟨n₀, hn₀, hrow⟩ := Option.map_eq_some_iff.1 (Next.read hnext).1.symm
  obtain ⟨n', hn', -, hlocked, -⟩ := (Follows.evolves (hnext.follows.trans hf)).note hn₀
  cases hrow
  rw [← hlocked]
  exact congrArg NoteRow.lockedAt (Option.some.inj (hn'.symm.trans hn))

/-- **Only who opens a note can spend it.** In every run a note that is spent, or reserved by a
melt, was taken by a request one of whose `k1`s opens it: it names the note, and the spend in it
verified, at a time that the request read, against when the note was credited. -/
theorem spent_notes_opened {c : Config (mint cfg)} (h : Reach State.initial c)
    (hn : c.w.st.store.notes.find? id = some n) (hs : n.spent = true ∨ n.pending = true) :
    ∃ a u out, Wrote c.w a u (.ok out) ∧ id ∈ u.consumed ∧
      ∃ k1s, a.task.spends = some k1s ∧ ∃ k ∈ k1s, ∃ parsed t, Spend.parse d k = some parsed ∧
        parsed.noteId = id ∧ SawTime c.w a t ∧
        Spend.verify d parsed t n.lockedAt cfg.spendDomains = none := by
  have hr : Run (law cfg) State.initial c.w := Reach.law h
  have hc := h.conduct (R := spendingRule cfg) fun t =>
    (body_spending t).mono fun _ _ _ _ => trivial
  obtain ⟨a, u, out, hid, i, pre, he⟩ : Taken c.w id := by
    rcases hs with hs | hpend
    · exact Run.taken hr ⟨n, hn, hs⟩
    · have hsome := ((Run.lifecycle hr .empty).coherent hn).reserved
      rw [hpend] at hsome
      obtain ⟨hash, hhash⟩ := Option.isSome_iff_exists.1 hsome.symm
      obtain ⟨b, hb⟩ := Run.reserver hr (fun _ _ ⟨_, hf, _⟩ => by cases hf) ⟨n, hn, hhash⟩
      exact ⟨b, .markPending [id] hash, (), List.mem_singleton_self _, hb⟩
  obtain ⟨w₀, w₁, h₀, hnext, hf, hrule⟩ := hr.conduct_past hc he
  obtain ⟨k, hk, parsed, t, amountMsat, lockedAt, spent, pending, hparse, hpid, hrecord, htime,
    hverify⟩ := hrule u rfl id hid
  have past : ∀ {o : Op} {out : o.Out}, Act.did (S := mintSig) o out ∈ acts a.tid w₀.hist →
      ∃ i pre, Event.did a o i out pre ∈ c.w.hist := by
    intro o out hm
    obtain ⟨i', pre', he'⟩ := h₀.did_of_acts (mem_alive (hnext.step.alive rfl)) hm
    exact ⟨i', pre', (hnext.follows.trans hf).mem he'⟩
  obtain rfl := Run.lockedAt_eq hr (past hrecord) hn
  cases hspends : a.task.spends with
  | none =>
    rw [hspends] at hk
    cases hk
  | some k1s =>
    rw [hspends] at hk
    exact ⟨a, u, out, ⟨i, pre, he⟩, hid, k1s, hspends, k, hk, parsed, t, hparse, hpid, past htime,
      hverify⟩

/-- The note of `paidMeltRun` was burned by a background task, and opened by the request. -/
theorem spent_notes_opened_melted : ∃ c : Config standInMint, Reach State.initial c ∧
    ∃ a u out, Wrote c.w a u (.ok out) ∧ standInKey '1' ∈ u.consumed ∧
      ∃ k1s, a.task.spends = some k1s ∧ ∃ k ∈ k1s, noteIdOf .standIn k = some (standInKey '1') := by
  have hrun : (standInRun paidMeltRun).any (fun c =>
      (c.w.st.store.notes.find? (standInKey '1')).any (·.spent)) = true := by
    decide +kernel
  obtain ⟨c, hc, h⟩ := exists_standInRun hrun
  obtain ⟨n, hn, hs⟩ := (Option.any_eq_true _ _).1 h
  obtain ⟨a, u, out, hw, hid, k1s, hk1s, k, hk, parsed, t, hparse, hpid, -⟩ :=
    spent_notes_opened hc hn (.inl hs)
  refine ⟨c, hc, a, u, out, hw, hid, k1s, hk1s, k, hk, ?_⟩
  rw [noteIdOf, hparse, ← hpid]
  rfl

end Runs

end LnurlMint
