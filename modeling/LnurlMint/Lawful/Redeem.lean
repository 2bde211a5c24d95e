import LnurlMint.Lawful.Address
import Mathlib.Tactic.Linarith

/-!
# Redeeming notes keeps the law

The rules for the withdraw side of the router. The requests that have to excuse their errors are
those of the callback. The rules of a rotate, split or merge follow what it has read about its notes
down to the burn it finds or makes. A melt owes its four steps, in order and with nothing between,
or nothing at all.

## Main results

* `serves_getWithdraw`
* `lawful_swapRequest` — a rotate, split or merge accounts for its answer
* `lawful_meltRequest` — a melt that ends in an error did nothing
-/

namespace LnurlMint

open Interleave

variable {d : Deps} {cfg : Settings d} {a : Actor mintSig} {w w' : World (mint cfg)}

/-! ## Looking at a note -/

theorem wp_queriedNote {k1 p : Option Str}
    {Q : Except Exn (Str × ℤ × Bool) → World (mint cfg) → Prop} (hr : Unreserved w a)
    (ht : NoCallback a.task)
    (hok : ∀ noteId amountMsat spent w', Later a w w' →
      Signable w'.st.store noteId amountMsat → Q (.ok (noteId, amountMsat, spent)) w')
    (herr : ∀ e w', Later a w w' → Q (.error e) w') :
    wp (law cfg) a (queriedNote cfg k1 p) Q w := by
  unfold queriedNote
  split
  · refine wp_bind.2 (wp_rejectionsAnswered (wp_verifiedNote hr (ht.elim · ·)
      (fun v w₁ hl _ hf => ⟨fun x hx => ?_, by simp⟩)
      fun e w₁ hl _ => ⟨by simp, fun _ _ => herr _ _ hl⟩))
    cases hx
    obtain ⟨n, hn, ha, -⟩ := hf
    exact hok _ _ _ _ hl (.inl ⟨n, hn, ha⟩)
  · refine wp_bind.2 (wp_noteByRef hr ht fun r w₁ hl => ?_)
    cases r with
    | error e => exact herr _ _ hl
    | ok ref =>
    refine wp_bind.2 (wp_orRaise.2 ⟨fun _ => herr _ _ hl, fun noteId _ => ?_⟩)
    refine wp_bind.2 (wp_read fun i w₂ hl₂ hst _ => ?_)
    have hl₂ := hl.trans hl₂
    rw [← hst]
    refine wp_bind.2 (wp_orRaise.2 ⟨fun _ => herr _ _ hl₂, fun ⟨amt, locked, spent, p⟩ hrec => ?_⟩)
    obtain ⟨n, hn, he⟩ := Option.map_eq_some_iff.1 hrec
    cases he
    exact hok _ _ _ _ hl₂ (.inl ⟨n, hn, rfl⟩)
  · exact herr _ _ (.refl w)

theorem serves_getWithdraw {baseUrl : Str} {k1 p : Option Str} (amount : Option ℤ)
    (hu : Unaccountable cfg a) (ht : NoCallback a.task) (hr : Unreserved w a) :
    Serves cfg a w (getWithdraw cfg baseUrl k1 p amount) := by
  unfold Serves getWithdraw
  refine wp_bind.2 (wp_queriedNote hr ht (fun noteId amountMsat spent w₁ hl hs => ?_)
    fun e w₁ hl => (hr.later hl).raise)
  have hr := hr.later hl
  refine wp_bind.2 (wp_raiseIf.2 ⟨fun _ => hr.raise, fun _ => ?_⟩)
  refine wp_bind.2 (wp_read fun i w₂ hl₂ hst _ => ?_)
  have hr := hr.later hl₂
  have hs := hst ▸ hs
  refine wp_bind.2 (wp_raiseIf.2 ⟨fun _ => hr.raise, fun _ => ?_⟩)
  refine wp_bind.2 (wp_ofExcept_cases.2 ⟨fun _ _ => hr.raise, fun ⟨base, host⟩ _ => ?_⟩)
  refine wp_bind.2 (wp_domain (fun dom _ => ?_) fun _ _ => hr.raise)
  refine wp_bind.2 (wp_certificate hr hs (fun c w₃ hl₃ _ => ?_)
    fun e w₃ hl₃ _ => (hr.later hl₃).raise)
  have hr := hr.later hl₃
  refine wp_bind.2 (wp_mintPubkey hr fun r w₄ hl₄ => ?_)
  have hr := hr.later hl₄
  cases r with
  | error e => exact hr.raise
  | ok pubkey => exact hr.answer (hu _ _)

/-! ## The callback's checks -/

theorem wp_checkShape {k1 : List Str} {pr : Option Str} {amount : Option ℤ}
    {Q : Except Exn Unit → World (mint cfg) → Prop}
    (hok : Shape cfg k1 amount → (pr.isSome = true → k1.length ≤ 1) → Q (.ok ()) w)
    (herr : ∀ e, (pr = none → ¬ Shape cfg k1 amount) → Q (.error e) w) :
    wp (law cfg) a (checkShape cfg k1 pr amount) Q w := by
  refine wp_bind.2 (wp_raiseIf.2 ⟨fun h => herr _ fun _ hs => hs.1 h, fun hne => ?_⟩)
  refine wp_bind.2 (wp_raiseIf.2 ⟨fun h => herr _ fun _ hs => not_lt.2 hs.2.1 h, fun hle => ?_⟩)
  refine wp_bind.2 (wp_raiseIf.2 ⟨fun h => herr _ fun hp _ => by simp [hp] at h, fun hpr => ?_⟩)
  refine wp_raiseIf.2 ⟨fun h => herr _ fun _ hs => hs.2.2 h, fun hsun => ?_⟩
  exact hok ⟨hne, not_lt.1 hle, hsun⟩ fun hp => not_lt.1 fun hlt => hpr ⟨hp, .inl hlt⟩

theorem wp_outputs {amount : Option ℤ} {p1 p2 : Option Str}
    {Q : Except Exn (Str × Option Str) → World (mint cfg) → Prop}
    (hok : ∀ o1 o2, Asks d amount p1 p2 o1 o2 → Q (.ok (o1, o2)) w)
    (herr : ∀ e, (∀ o1 o2, ¬ Asks d amount p1 p2 o1 o2) → Q (.error e) w) :
    wp (law cfg) a (outputs (d := d) amount p1 p2) Q w := by
  refine wp_bind.2 (wp_orRaise.2 ⟨fun h => herr _ fun o1 o2 ho => ?_, fun o1 h1 => ?_⟩)
  · simp [ho.1] at h
  cases amount with
  | none => exact hok _ _ ⟨h1, rfl⟩
  | some x =>
    refine wp_bind.2 (wp_orRaise.2 ⟨fun h => herr _ fun o1 o2 ho => ?_, fun o2 h2 => ?_⟩)
    · obtain ⟨-, hs, he⟩ := ho
      simp [← he, h] at hs
    · exact hok _ _ ⟨h1, rfl, h2⟩

theorem Refused.later {k : Str} (h : Refused w a k) (hl : Later a w w') (hst : w'.st = w.st) :
    Refused w' a k := by
  rcases h with h | ⟨id, hid, h⟩ | ⟨parsed, t, n, hp, ht, hn, h⟩ | h
  · exact .inl h
  · exact .inr (.inl ⟨id, hid, by rw [hst]; exact h⟩)
  · exact .inr (.inr (.inl ⟨parsed, t, n, hp, ht.later hl, by rw [hst]; exact hn, h⟩))
  · exact .inr (.inr (.inr (h.later hl)))

/-- The verified notes are those the `k1`s name, one for each. -/
theorem wp_verifiedNotes {k1s : List Str}
    {Q : Except Exn (List Verified) → World (mint cfg) → Prop} (hr : Unreserved w a)
    (ht : ∀ k1, a.task.spends = some k1 → ∀ k ∈ k1s, k ∈ k1)
    (hok : ∀ vs w', Later a w w' → Named d k1s (vs.map Verified.noteId) →
      (∀ v ∈ vs, OnFile w'.st.store v) → Q (.ok vs) w')
    (herr : ∀ e w', Later a w w' → (∃ k ∈ k1s, Refused w' a k) → Q (.error e) w') :
    wp (law cfg) a (verifiedNotes cfg k1s) Q w := by
  induction k1s generalizing Q w with
  | nil => exact hok _ _ (.refl w) rfl (by simp)
  | cons k k1s ih =>
    refine wp_bind.2 (wp_rejectionsAnswered (wp_verifiedNote hr
      (fun k1 he => ht k1 he k List.mem_cons_self)
      (fun v w₁ hl hid hf => ⟨fun x hx => ?_, by simp⟩)
      fun e w₁ hl h => ⟨by simp, fun _ _ => herr _ _ hl ⟨k, List.mem_cons_self, h⟩⟩))
    cases hx
    refine wp_bind.2 (ih (hr.later hl)
      (fun k1 he k' hk' => ht k1 he k' (List.mem_cons_of_mem _ hk'))
      (fun vs w₂ hl₂ hn hfs => ?_)
      fun e w₂ hl₂ ⟨k', hk', h⟩ =>
        herr _ _ (hl.trans hl₂) ⟨k', List.mem_cons_of_mem _ hk', h⟩)
    refine hok _ _ (hl.trans hl₂) ?_ ?_
    · unfold Named at hn ⊢
      simp only [List.map_cons, hn, hid]
    · rintro v' (_ | ⟨_, hv'⟩)
      exacts [hf.evolves hl₂.evolves, hfs v' hv']

/-! ## Rotates, splits and merges -/

/-- What a rotate, split or merge shows when it ends: its answer rests on a burn that it found or
made, or it has an excuse. -/
def Accounts (cfg : Settings d) (a : Actor mintSig) (baseUrl : Str) (k1 : List Str)
    (amount : Option ℤ) (p1 p2 : Option Str) (r : Except Exn Response) (w : World (mint cfg)) :
    Prop :=
  Unreserved w a ∧ OwnWrites cfg w a ∧
  (∀ resp, r = .ok resp → ∃ c c2 ids b, resp = .withdrawSuccess c c2 none none ∧
      Rests cfg w k1 amount p1 p2 ids b ∧ Certified cfg w a c b.id b.amount1Msat ∧
      (b.id2 = none → c2 = none) ∧
      (∀ id2 amount2Msat, b.id2 = some id2 → b.amount2Msat = some amount2Msat →
        Certified cfg w a c2 id2 amount2Msat) ∧
      (Replays cfg w a ids amount b ∨ Wrote w a (.swap ids (b.id :: b.id2.toList)
        (b.amount1Msat :: b.amount2Msat.toList)) (.ok ()))) ∧
  ((∃ e, r = .error e) → Excuse cfg w a baseUrl k1 amount p1 p2 ∧ Blameless cfg w a baseUrl) ∧
  ((∃ resp, r = .ok resp) → ¬ Domainless cfg baseUrl)

variable {baseUrl : Str} {k1 : List Str} {amount : Option ℤ} {p1 p2 : Option Str}

theorem Excuse.later (h : Excuse cfg w a baseUrl k1 amount p1 p2) (hl : Later a w w')
    (hst : w'.st = w.st) : Excuse cfg w' a baseUrl k1 amount p1 p2 := by
  cases h with
  | shape h => exact .shape h
  | outputs h => exact .outputs h
  | unparsed k hk h => exact .unparsed k hk h
  | missing k id hk hid h => exact .missing k id hk hid (by rw [hst]; exact h)
  | unverified k parsed t n hk hp ht hn h =>
    exact .unverified k parsed t n hk hp (ht.later hl) (by rw [hst]; exact hn) h
  | unanswered h hh => exact .unanswered h (hh.later hl)
  | unsettled h derive e hw => exact .unsettled h derive e (hw.later hl)
  | fresh ids o1 o2 hids ho h => exact .fresh ids o1 o2 hids ho (by rw [hst]; exact h)
  | domain h => exact .domain h
  | unsigned h => exact .unsigned (h.later hl)

theorem Rests.later {ids : List Str} {b : BurnRow} (h : Rests cfg w k1 amount p1 p2 ids b)
    (hl : Later a w w') : Rests cfg w' k1 amount p1 p2 ids b where
  shape := h.shape
  named := h.named
  asks := h.asks
  mem := Relational.Table.mem_of_find? (hl.evolves.burn (Relational.Table.find?_of_mem h.mem))
  key := h.key
  amount := h.amount

theorem OwnWrites.of_clean (h : Clean w a) : OwnWrites cfg w a := fun _ _ hw => .inl (h.settles hw)

theorem OwnWrites.later (h : OwnWrites cfg w a) (hl : Later a w w') : OwnWrites cfg w' a := by
  obtain ⟨es, heq, hes⟩ := hl.hist
  rintro u r ⟨i, pre, he⟩
  rw [heq] at he
  rcases List.mem_append.1 he with he | he
  exacts [.inl (hes _ he rfl), h u r ⟨i, pre, he⟩]

theorem Blameless.later (h : Blameless cfg w a baseUrl) (hl : Later a w w') :
    Blameless cfg w' a baseUrl := by
  rcases h with h | h | h
  exacts [.inl (h.later hl), .inr (.inl h), .inr (.inr (h.later hl))]

theorem accounts_error {e : Exn} (hr : Unreserved w a) (hw : OwnWrites cfg w a)
    (h : Excuse cfg w a baseUrl k1 amount p1 p2) (hb : Blameless cfg w a baseUrl) :
    Accounts cfg a baseUrl k1 amount p1 p2 (.error e) w :=
  ⟨hr, hw, by simp, fun _ => ⟨h, hb⟩, by simp⟩

/-- An error before anything was done. -/
theorem accounts_refused {e : Exn} (hc : Clean w a)
    (h : Excuse cfg w a baseUrl k1 amount p1 p2) :
    Accounts cfg a baseUrl k1 amount p1 p2 (.error e) w :=
  accounts_error hc.unreserved (.of_clean hc) h (.inl hc.harmless)

/-- How a request came by the burn that its answer rests on: it found it, or made it. -/
def FoundOrMade (cfg : Settings d) (w : World (mint cfg)) (a : Actor mintSig) (ids : List Str)
    (amount : Option ℤ) (b : BurnRow) : Prop :=
  Replays cfg w a ids amount b ∨ Wrote w a (.swap ids (b.id :: b.id2.toList)
    (b.amount1Msat :: b.amount2Msat.toList)) (.ok ())

theorem FoundOrMade.later {ids : List Str} {b : BurnRow} (h : FoundOrMade cfg w a ids amount b)
    (hl : Later a w w') : FoundOrMade cfg w' a ids amount b := by
  rcases h with ⟨burn, hs, hr⟩ | h
  exacts [.inl ⟨burn, hs.later hl, hr⟩, .inr (h.later hl)]

/-- A burn on record is answered with its certificates. -/
theorem accounts_replay {ids : List Str} {b : BurnRow} (hr : Unreserved w a)
    (hw : OwnWrites cfg w a)
    (h : Rests cfg w k1 amount p1 p2 ids b) (hd : FoundOrMade cfg w a ids amount b) :
    wp (law cfg) a (replay cfg baseUrl b.id b.id2 b.amount1Msat b.amount2Msat)
      (Accounts cfg a baseUrl k1 amount p1 p2) w := by
  refine wp_bind.2 (wp_domain (fun dom hdom => ?_) fun e hd =>
    accounts_error hr hw (.domain hd) (.inr (.inl hd)))
  have hnamed : ¬ Domainless cfg baseUrl := not_domainless_iff.2 ⟨dom, hdom⟩
  have hs : Signable w.st.store b.id b.amount1Msat := .inr ⟨b, h.mem, List.mem_cons_self⟩
  refine wp_bind.2 (wp_certificate hr hs (fun c w₁ hl hc => ?_) fun e w₁ hl hb =>
    accounts_error (hr.later hl) (hw.later hl) (.unsigned hb) (.inr (.inr hb)))
  simp only [Prog.onOk_ok]
  split
  · rename_i p2' amount2Msat h2 ha2
    have hs₂ : Signable w₁.st.store p2' amount2Msat :=
      .inr ⟨b, (h.later hl).mem, by simp [BurnRow.outputs, h2, ha2]⟩
    refine wp_bind.2 (wp_certificate (hr.later hl) hs₂ (fun c2 w₂ hl₂ hc2 => ?_) fun e w₂ hl₂ hb =>
      accounts_error ((hr.later hl).later hl₂) ((hw.later hl).later hl₂) (.unsigned hb)
        (.inr (.inr hb)))
    refine ⟨(hr.later hl).later hl₂, (hw.later hl).later hl₂, ?_, by simp, fun _ => hnamed⟩
    rintro _ ⟨⟩
    refine ⟨c, c2, ids, b, rfl, (h.later hl).later hl₂, hc.later hl₂, by simp [h2],
      fun id2 amt2 he he' => ?_, (hd.later hl).later hl₂⟩
    cases h2.symm.trans he
    cases ha2.symm.trans he'
    exact hc2
  · rename_i hne
    refine ⟨hr.later hl, hw.later hl, ?_, by simp, fun _ => hnamed⟩
    rintro _ ⟨⟩
    exact ⟨c, none, ids, b, rfl, h.later hl, hc, fun _ => rfl,
      fun id2 amt2 he he' => absurd he' (hne id2 amt2 he), hd.later hl⟩

theorem worth_of_onFile {s : NoteStore} {vs : List Verified} (h : ∀ v ∈ vs, OnFile s v) :
    s.worth (vs.map Verified.noteId) = (vs.map Verified.amountMsat).sum := by
  unfold NoteStore.worth
  rw [List.map_map]
  congr 1
  refine List.map_congr_left fun v hv => ?_
  obtain ⟨n, hn, ha, -⟩ := h v hv
  simp [hn, ha]

/-- A swap that succeeds is on record, and is answered with its certificates; one that fails leaves
the record as it was. -/
theorem accounts_swap {ids : List Str} {o1 : Str} {o2 : Option Str} {amount1 : ℤ}
    {amount2 : Option ℤ}
    (ha : a.task = .request ⟨baseUrl, .getWithdrawCallback k1 none amount p1 p2⟩)
    (hc : Clean w a) (hs : Shape cfg k1 amount) (hn : Named d k1 ids)
    (ho : Asks d amount p1 p2 o1 o2) (hamt : (if o2.isSome then some amount1 else none) = amount)
    (hbal : SwapAmounts cfg (w.st.store.worth ids) ids.length amount (amount1 :: amount2.toList))
    (hfresh : replayed o1 o2 amount (w.st.store.findBurn ids) = none) :
    wp (law cfg) a
      (do write (.swap ids (o1 :: o2.toList) (amount1 :: amount2.toList))
          replay cfg baseUrl o1 o2 amount1 amount2)
      (Accounts cfg a baseUrl k1 amount p1 p2) w := by
  have hmay : MayWrite cfg w a (.swap ids (o1 :: o2.toList) (amount1 :: amount2.toList)) :=
    ⟨baseUrl, k1, amount, p1, p2, o1, o2, ha, hs, hn, ho, rfl, hbal, hc.unswapped⟩
  refine wp_bind.2 (wp_write hmay fun i r s' h => ?_)
  have hr' := hc.unreserved.wrote (i := i) (r := r) (s := { w.st with store := s' }) (by simp)
  have hw' : OwnWrites cfg (w.record (.did a (.write (.swap ids (o1 :: o2.toList)
      (amount1 :: amount2.toList))) i r w.st) { w.st with store := s' }) a := by
    rintro u r' ⟨i', pre, he⟩
    rcases List.mem_cons.1 he with he | he
    · cases he
      exact .inr ⟨_, _, _, rfl⟩
    · exact .inl (hc.settles ⟨i', pre, he⟩)
  rcases Update.run_eq_some.1 h with ⟨out, rfl, hok⟩ | ⟨e, rfl, -, -, rfl⟩
  · obtain ⟨s₁, hsw, he⟩ := map_eq_ok.1 hok
    cases he
    obtain ⟨id, ids', amt, amts, hid, hamts, hi⟩ :=
      (NoteStore.swapLocked_ok (NoteStore.reported_eq_ok.1 hsw)).burns
    cases hid
    cases hamts
    have hhead : ∀ {α : Type} (x : Option α), x.toList.head? = x := fun x => by cases x <;> rfl
    rw [hhead, hhead] at hi
    exact accounts_replay (b := ⟨NoteStore.burnKey ids, o1, o2, amount1, amount2, none⟩) hr' hw'
      ⟨hs, hn, ho, (Relational.Table.mem_insert? hi).2 (.inr rfl), rfl, hamt⟩ (.inr wrote_record)
  · exact accounts_error hr' hw' (.fresh ids o1 o2 hn ho hfresh) (.inl hc.harmless.failed)

theorem wp_burnErrorsAnswered {α : Type} {p : Mint α}
    {Q : Except Exn α → World (mint cfg) → Prop}
    (h : wp (law cfg) a p (fun r w =>
      (∀ x, r = .ok x → Q (.ok x) w) ∧ ((∃ e, r = .error e) → ∀ e, Q (.error e) w)) w) :
    wp (law cfg) a (burnErrorsAnswered p) Q w :=
  wp_rethrow (fun e => by cases e <;> exact ⟨_, rfl⟩) h

/-- The accounts of a rotate, split or merge do not depend on which error it ends with. -/
theorem accounts_rethrow {p : Mint Response}
    (h : wp (law cfg) a p (Accounts cfg a baseUrl k1 amount p1 p2) w) :
    wp (law cfg) a (burnErrorsAnswered p) (Accounts cfg a baseUrl k1 amount p1 p2) w := by
  refine wp_burnErrorsAnswered (wp_mono h fun r w₁ h => ⟨fun x hx => hx ▸ h, ?_⟩)
  obtain ⟨hr, hw, -, herr, -⟩ := h
  exact fun he e => accounts_error hr hw (herr he).1 (herr he).2

theorem accounts_rotateSplitMerge {vs : List Verified} {o1 : Str} {o2 : Option Str}
    (ha : a.task = .request ⟨baseUrl, .getWithdrawCallback k1 none amount p1 p2⟩)
    (hc : Clean w a) (hs : Shape cfg k1 amount) (hn : Named d k1 (vs.map Verified.noteId))
    (hf : ∀ v ∈ vs, OnFile w.st.store v) (ho : Asks d amount p1 p2 o1 o2) :
    wp (law cfg) a (rotateSplitMerge cfg baseUrl vs amount o1 o2)
      (Accounts cfg a baseUrl k1 amount p1 p2) w := by
  unfold rotateSplitMerge
  refine wp_bind.2 (wp_read fun i w₁ hl hst hsaw => ?_)
  have hc := hc.later hl
  rw [← hst] at hf hsaw ⊢
  simp only [Prog.onOk_ok, Query.answer]
  split
  · rename_i amount1 amount2 hrep
    have hsaw : Replays cfg w₁ a (vs.map Verified.noteId) amount
        ⟨NoteStore.burnKey (vs.map Verified.noteId), o1, o2, amount1, amount2, none⟩ :=
      ⟨_, hsaw, hrep⟩
    obtain ⟨recorded, hb, hrep⟩ := Option.bind_eq_some_iff.1 hrep
    obtain ⟨b, hfind, rfl⟩ := Option.map_eq_some_iff.1 hb
    obtain ⟨⟨rfl, rfl, hamt⟩, heq⟩ := Option.ite_none_right_eq_some.1 hrep
    obtain ⟨rfl, rfl⟩ := Prod.mk.inj (Option.some.inj heq)
    exact accounts_replay hc.unreserved (.of_clean hc) ⟨hs, hn, ho,
      Relational.Table.mem_of_find? hfind, Relational.Table.key_of_find? hfind, hamt⟩ (.inl hsaw)
  · rename_i hfresh
    have hex : ∀ {e : Exn}, Accounts cfg a baseUrl k1 amount p1 p2 (.error e) w₁ :=
      accounts_refused hc (.fresh _ o1 o2 hn ho hfresh)
    refine wp_bind.2 (wp_bind.2 (wp_raiseIf.2 ⟨fun _ => hex, fun _ => ?_⟩))
    have hworth := worth_of_onFile hf
    simp only [Prog.onOk_ok]
    split
    · rename_i x p2'
      refine accounts_rethrow ?_
      refine wp_bind.2 (wp_raiseIf.2 ⟨fun _ => hex, fun hlt => ?_⟩)
      refine wp_bind.2 (wp_raiseIf.2 ⟨fun _ => hex, fun _ => ?_⟩)
      refine wp_bind.2 (wp_raiseIf.2 ⟨fun _ => hex, fun hchange => ?_⟩)
      refine @accounts_swap d cfg a w₁ baseUrl k1 (some x) p1 p2 _ o1 (some p2') x
        (some ((vs.map Verified.amountMsat).sum - x - cfg.baseFeeMsat)) ha hc hs hn ho rfl ?_ hfresh
      refine ⟨(not_not.1 hlt).1, ?_, ?_⟩
      · rw [hworth]
        exact not_lt.1 hchange
      · rw [hworth]
        rfl
    · rename_i hne
      obtain ⟨rfl, rfl⟩ : amount = none ∧ o2 = none := by
        cases amount with
        | none => exact ⟨rfl, ho.2⟩
        | some x =>
          obtain ⟨-, hsome, -⟩ := ho
          obtain ⟨p2', rfl⟩ := Option.isSome_iff_exists.1 hsome
          exact absurd rfl (hne x p2' rfl)
      refine accounts_rethrow ?_
      refine @accounts_swap d cfg a w₁ baseUrl k1 none p1 p2 _ o1 none _ none ha hc hs hn ho rfl ?_
        hfresh
      show [_] = [_]
      rw [hworth, List.length_map]

/-- **A rotate, split or merge keeps the law and accounts for its answer.** -/
theorem lawful_swapRequest
    (ha : a.task = .request ⟨baseUrl, .getWithdrawCallback k1 none amount p1 p2⟩)
    (hc : Clean w a) :
    wp (law cfg) a (lnurlErrorResponse (getWithdrawCallback cfg baseUrl k1 none amount p1 p2))
      (fun r w => (law cfg).finished w a r) w := by
  have inner : wp (law cfg) a (getWithdrawCallback cfg baseUrl k1 none amount p1 p2)
      (Accounts cfg a baseUrl k1 amount p1 p2) w := by
    unfold getWithdrawCallback
    refine wp_bind.2 (wp_checkShape (fun hs _ => ?_) fun e hs =>
      accounts_refused hc (.shape (hs rfl)))
    refine wp_bind.2 (wp_outputs (fun o1 o2 ho => ?_) fun e h => accounts_refused hc (.outputs h))
    refine wp_bind.2 (wp_verifiedNotes hc.unreserved (fun _ he k hk => ?_)
      (fun vs w₁ hl hn hf => ?_) fun e w₁ hl ⟨k, hk, h⟩ => accounts_refused (hc.later hl) ?_)
    · rw [ha] at he
      cases he
      exact hk
    · exact accounts_rotateSplitMerge ha (hc.later hl) hs hn hf ho
    · rcases h with h | ⟨id, hid, h⟩ | ⟨parsed, t, n, hp, ht, hn, h⟩ | ⟨h, hh⟩ | ⟨h, derive, e, h'⟩
      exacts [.unparsed k hk h, .missing k id hk hid h, .unverified k parsed t n hk hp ht hn h,
        .unanswered h hh, .unsettled h derive e h']
  refine wp_answered (wp_mono inner fun r w₁ ⟨hr, hw, hok, herr, hnamed⟩ =>
    ⟨hr.recorded, ?_, ?_⟩)
  · intro resp hresp
    have hok := hok resp hresp
    simp only [Rested, ha]
    refine ⟨?_, fun _ => hnamed ⟨resp, hresp⟩, fun _ => ⟨.inl hok, hw⟩, fun h => absurd rfl h⟩
    rintro ⟨reason, rfl⟩
    obtain ⟨_, _, _, _, he, -⟩ := hok
    cases he
  · intro he w₂ hl hst reason
    obtain ⟨hx, hb⟩ := herr he
    simp only [Rested, ha]
    exact ⟨fun _ => hb.later hl, fun h => absurd rfl (h reason),
      fun _ => ⟨.inr ⟨⟨reason, rfl⟩, hx.later hl hst⟩, hw.later hl⟩, fun h => absurd rfl h⟩

/-! ## Melts -/

/-- What a melt shows when it ends: its reservation is recorded; if it answered then it has
committed, and no error is its answer; and if it raised then it did nothing, or could not make up
the `verify` URL. -/
def MeltAccounts (cfg : Settings d) (a : Actor mintSig) (baseUrl : Str) (r : Except Exn Response)
    (w : World (mint cfg)) : Prop :=
  Recorded w a ∧
    ((∃ resp, r = .ok resp) → (∀ reason, r ≠ .ok (.error reason)) ∧ Committed cfg w a) ∧
    ((∃ e, r = .error e) → Harmless w a ∨ Stranded cfg w a baseUrl) ∧
    ((∃ resp, r = .ok resp) → ¬ Linkless cfg baseUrl)

theorem Clean.meltRefused (h : Clean w a) {e : Exn} : MeltAccounts cfg a baseUrl (.error e) w :=
  ⟨h.unreserved.recorded, by simp, fun _ => .inl h.harmless, by simp⟩

theorem wp_verifyUrl {h : Str} {Q : Except Exn (Option Str) → World (mint cfg) → Prop}
    (hok : ∀ url, ¬ Linkless cfg baseUrl → Q (.ok url) w)
    (herr : ∀ e, Linkless cfg baseUrl → Q (.error e) w) :
    wp (law cfg) a (verifyUrl cfg baseUrl h) Q w := by
  unfold verifyUrl
  split
  · rename_i hverify
    refine wp_bind.2 (wp_ofExcept_cases.2 ⟨fun e he => herr e ⟨hverify, e, he⟩, fun base hb => ?_⟩)
    refine hok _ ?_
    rintro ⟨-, e, he⟩
    cases hb.symm.trans he
  · rename_i hverify
    exact hok _ fun hlink => hverify hlink.1



theorem accounts_meltIntoAddressFee {id pr h feePr : Str} {inv : Invoice} {n : NoteRow}
    {rest : Str × ℤ × ℤ × Bool}
    (ha : a.task = .request ⟨baseUrl, .getWithdrawCallback k1 (some pr) amount p1 p2⟩)
    (hc : Clean w a) (hnamed : Named d k1 [id]) (hdec : d.decodeInvoice pr = .ok inv)
    (hh : inv.paymentHash = some h) (hfee : w.st.store.addressFee h = some (feePr, rest))
    (hn : w.st.store.notes.find? id = some n) :
    wp (law cfg) a (meltIntoAddressFee cfg baseUrl [id] pr h feePr n.amountMsat)
      (MeltAccounts cfg a baseUrl) w := by
  unfold meltIntoAddressFee
  refine wp_bind.2 (wp_raiseIf.2 ⟨fun _ => hc.meltRefused, fun hpr => ?_⟩)
  have hmay : MayWrite cfg w a (.payAddressFeeWithNotes [id] h n.amountMsat) :=
    ⟨hc, baseUrl, k1, pr, amount, p1, p2, id, n, feePr, rest, inv, ha, hnamed, rfl, hdec, hh, hfee,
      not_not.1 hpr, hn, rfl⟩
  refine wp_bind.2 (wp_burnErrorsAnswered (wp_write hmay fun i r s' _ => ?_))
  have hr' := hc.unreserved.wrote (i := i) (r := r) (s := { w.st with store := s' }) (by simp)
  refine ⟨fun x hx => ?_, ?_⟩
  · subst hx
    refine wp_bind.2 (wp_verifyUrl (fun url hlink => ?_) fun e hlink => ?_)
    · exact ⟨hr'.recorded, fun _ => ⟨by simp, .inl ⟨_, _, _, _, wrote_record⟩⟩, by simp,
        fun _ => hlink⟩
    · refine ⟨hr'.recorded, by simp, fun _ => .inr ⟨hlink, .inl ⟨_, _, _, _, wrote_record⟩, ?_⟩,
        by simp⟩
      rintro b (_ | ⟨_, hb⟩)
      exact hc.unscheduled b hb
  · rintro ⟨e, rfl⟩ e'
    exact ⟨hr'.recorded, by simp, fun _ => .inl hc.harmless.failed, by simp⟩

/-- The steps of a melt record its reservation, whatever comes after them. -/
theorem Recorded.of_melt {e : Event (mint cfg)} {ids : List Str} {h pr : Str} {i₁ i₂ i₃ : Input}
    {pre₁ pre₂ pre₃ : State} (hr : Unreserved w a)
    (he : ∀ ids h i pre, e ≠ .did a (.write (.markPending ids h)) i (.ok ()) pre)
    (hw : w'.hist = e :: .did a (.write (.recordMelt h pr)) i₃ (.ok ()) pre₃ ::
      .did a (.trackMeltStart h) i₂ () pre₂ ::
      .did a (.write (.markPending ids h)) i₁ (.ok ()) pre₁ :: w.hist) : Recorded w' a := by
  rintro ids' h' ⟨i, pre, hm⟩
  rw [hw] at hm
  rcases List.mem_cons.1 hm with hm | hm
  · exact absurd hm.symm (he ids' h' i pre)
  rcases hm with _ | ⟨_, _ | ⟨_, he⟩⟩
  rcases List.mem_cons.1 he with he | he
  · cases he
    exact ⟨pr, i₃, pre₃, by rw [hw]; exact .tail _ (.head _)⟩
  · exact absurd ⟨i, pre, he⟩ (hr ids' h')

/-- A reservation goes on to record its melt and to spawn the payment, with nothing between. -/
theorem accounts_reserveAndSpawn {id pr h : Str} {inv : Invoice} {n : NoteRow}
    (ha : a.task = .request ⟨baseUrl, .getWithdrawCallback k1 (some pr) amount p1 p2⟩)
    (hc : Clean w a) (hnamed : Named d k1 [id]) (hdec : d.decodeInvoice pr = .ok inv)
    (hh : inv.paymentHash = some h) (hfee : w.st.store.addressFee h = none)
    (hmint : w.st.store.mintPr h = none) (hmelt : w.st.store.meltPr h = none)
    (hn : w.st.store.notes.find? id = some n) (hamt : inv.amountMsat = some n.amountMsat) :
    wp (law cfg) a (reserveAndSpawn cfg baseUrl [id] pr h inv) (MeltAccounts cfg a baseUrl) w := by
  unfold reserveAndSpawn
  have hr := hc.unreserved
  have hmay : MayWrite cfg w a (.markPending [id] h) := ⟨hr, baseUrl, k1, pr, amount, p1, p2, id, n,
    inv, ha, hnamed, rfl, hdec, hh, hfee, hmint, hmelt, hn, hamt⟩
  refine wp_bind.2 (wp_burnErrorsAnswered (wp_write hmay fun i₁ r s₁ h₁ =>
    ⟨fun x hx => ?_, ?_⟩))
  · subst hx
    refine wp_bind.2 (wp_perform.2 fun i₂ out s₂ h₂ => ⟨⟨[id], i₁, w.st, w.hist, rfl⟩, ?_⟩)
    cases h₂
    have hinv : invoiceHash d pr = some h := by simp [invoiceHash, hdec, hh]
    simp only [Prog.onOk_ok, Prog.tryCatch_eq]
    refine wp_bind.2 (wp_thenE.2 ?_)
    refine wp_bind.2 (wp_write ⟨⟨baseUrl, k1, amount, p1, p2, ha⟩, hinv, [id], i₂, i₁, _, _, w.hist,
      rfl⟩ fun i₃ r₃ s₃ h₃ => ?_)
    have hev : w.st.store.Evolves s₃ := (Update.evolves h₁).trans (Update.evolves h₃)
    cases h₃
    obtain ⟨n', hn', ha', -⟩ := hev.note hn
    refine wp_bind.2 (wp_verifyUrl (fun url hlink => ?_) fun e hlink => ?_)
    · refine wp_bind.2 (wp_start.2 ⟨⟨id, pr, inv, h, n', i₃, i₂, i₁, _, _, _, w.hist, rfl, hdec, hh,
        hn', by rw [ha', hamt], rfl⟩, ?_⟩)
      exact ⟨.of_melt hr (by simp) rfl, fun _ => ⟨by simp, .inr ⟨[id], h, i₁, w.st, by simp⟩⟩,
        by simp, fun _ => hlink⟩
    · -- no task was spawned: the registration is dropped, and the error passes
      refine wp_bind.2 (wp_perform.2 fun i₄ out s₄ h₄ => ⟨.inr ⟨baseUrl, k1, pr, amount, p1, p2,
        [id], i₃, i₂, i₁, _, _, _, w.hist, ha, hlink, rfl⟩, ?_⟩)
      refine ⟨.of_melt hr (by simp) rfl, by simp,
        fun _ => .inr ⟨hlink, .inr ⟨[id], h, i₁, w.st, by simp⟩, ?_⟩, by simp⟩
      rintro b (_ | ⟨_, _ | ⟨_, _ | ⟨_, _ | ⟨_, hb⟩⟩⟩⟩)
      exact hc.unscheduled b hb
  · rintro ⟨e, rfl⟩ e'
    have hr' : Unreserved (w.record (.did a (.write (.markPending [id] h)) i₁ (.error e) w.st)
        { w.st with store := s₁ }) a := by
      refine hr.record fun ids h' i pre he => ?_
      cases he
    exact ⟨hr'.recorded, by simp, fun _ => .inl hc.harmless.failed, by simp⟩

theorem accounts_melt {v : Verified} {pr : Str}
    (ha : a.task = .request ⟨baseUrl, .getWithdrawCallback k1 (some pr) amount p1 p2⟩)
    (hc : Clean w a) (hnamed : Named d k1 [v.noteId]) (hf : OnFile w.st.store v) :
    wp (law cfg) a (melt cfg baseUrl [v] pr) (MeltAccounts cfg a baseUrl) w := by
  unfold melt
  refine wp_bind.2 (wp_bind.2 (wp_raiseIf.2 ⟨fun _ => hc.meltRefused, fun _ => ?_⟩))
  simp only [Prog.onOk_ok, Prog.pure_eq, wp_done]
  split
  · exact hc.meltRefused
  rename_i inv hdec
  refine wp_bind.2 (wp_raiseIf.2 ⟨fun _ => hc.meltRefused, fun hamt => ?_⟩)
  simp only [Prog.onOk_ok]
  split
  · exact wp_bind.2 (wp_requireFundingSource fun r => by cases r <;> exact hc.meltRefused)
  rename_i h hh
  refine wp_bind.2 (wp_read fun i₁ w₁ hl₁ hst₁ _ => ?_)
  have hc := hc.later hl₁
  simp only [Prog.onOk_ok]
  split
  · rename_i feePr rest hfee
    obtain ⟨n, hn, hval, -⟩ := hf
    rw [← hst₁] at hn hfee
    have hsum : ([v].map fun n => n.amountMsat).sum = n.amountMsat := by simp [hval]
    rw [hsum]
    exact accounts_meltIntoAddressFee ha hc hnamed hdec hh hfee hn
  rename_i hfee
  refine wp_bind.2 (wp_read fun i₂ w₂ hl₂ hst₂ _ => ?_)
  have hc := hc.later hl₂
  refine wp_bind.2 (wp_raiseIf.2 ⟨fun _ => hc.meltRefused, fun hmint => ?_⟩)
  refine wp_bind.2 (wp_read fun i₃ w₃ hl₃ hst₃ _ => ?_)
  have hc := hc.later hl₃
  refine wp_bind.2 (wp_raiseIf.2 ⟨fun _ => hc.meltRefused, fun hmelt => ?_⟩)
  refine wp_bind.2 (wp_requireFundingSource fun r => ?_)
  cases r with
  | error e => exact hc.meltRefused
  | ok _ =>
  obtain ⟨n, hn, hval, -⟩ := hf
  -- the three tables are read off the store that the note is reserved on
  have hst₃₁ : w₃.st = w₁.st := by rw [hst₃, hst₂]
  have hst : w₃.st = w.st := by rw [hst₃₁, hst₁]
  rw [← hst] at hfee hn
  rw [← hst₃₁] at hmint
  rw [← hst₃] at hmelt
  refine accounts_reserveAndSpawn ha hc hnamed hdec hh hfee ?_ ?_ hn ?_
  · simpa [Query.answer] using hmint
  · simpa [Query.answer] using hmelt
  · simpa [hval] using not_not.1 hamt

theorem lawful_meltRequest {pr : Str}
    (ha : a.task = .request ⟨baseUrl, .getWithdrawCallback k1 (some pr) amount p1 p2⟩)
    (hc : Clean w a) :
    wp (law cfg) a (lnurlErrorResponse (getWithdrawCallback cfg baseUrl k1 (some pr) amount p1 p2))
      (fun r w => (law cfg).finished w a r) w := by
  have inner : wp (law cfg) a (getWithdrawCallback cfg baseUrl k1 (some pr) amount p1 p2)
      (MeltAccounts cfg a baseUrl) w := by
    unfold getWithdrawCallback
    refine wp_bind.2 (wp_checkShape (fun hs hlen => ?_) fun e _ => hc.meltRefused)
    refine wp_bind.2 (wp_verifiedNotes hc.unreserved (fun _ he k hk => ?_)
      (fun vs w₁ hl hn hf => ?_) fun e w₁ hl _ => (hc.later hl).meltRefused)
    · rw [ha] at he
      cases he
      exact hk
    · obtain ⟨v, rfl⟩ : ∃ v, vs = [v] := by
        have hlen' := hn.length_eq
        rw [List.length_map] at hlen'
        exact List.length_eq_one_iff.1
          (hlen' ▸ le_antisymm (hlen rfl) (List.length_pos_iff.2 hs.1))
      exact accounts_melt ha (hc.later hl) hn (hf v List.mem_cons_self)
  refine wp_answered (wp_mono inner fun r w₁ haccounts => ?_)
  obtain ⟨hr, hok, herr, hlink⟩ := haccounts
  refine ⟨hr, ?_, ?_⟩
  · rintro resp rfl
    simp only [Rested, ha]
    obtain ⟨hnot, hdone⟩ := hok ⟨resp, rfl⟩
    have herr : ∀ reason, resp ≠ .error reason := fun reason he => hnot reason (by rw [he])
    have hno : ¬∃ reason, resp = .error reason := by
      rintro ⟨reason, he⟩
      exact herr reason he
    exact ⟨fun he => absurd he hno, fun _ => hlink ⟨resp, rfl⟩, by simp,
      fun _ => ⟨fun he => absurd he hno, fun _ => hdone⟩⟩
  · intro he w₂ hl _ reason
    simp only [Rested, ha]
    have herr := (herr he).imp (fun h => h.later hl) fun h => h.later hl
    exact ⟨fun _ => herr.imp_right fun h => .inl h.linkless.domainless,
      fun h => absurd rfl (h reason), by simp,
      fun _ => ⟨fun _ => herr, fun h => absurd rfl (h reason)⟩⟩

end LnurlMint
