import LnurlMint.Law

/-!
# Lookups and settlements keep the law

One rule for each shared part of the router, in the order of `LnurlMint.Router.Settle`. A rule says
what its program leaves alone, which is all but what is settled on the way, and what a result or an
exception tells about the world it ends in.

## Main results

* `wp_mintSettledByNoteId`, `wp_mintSettled`, `wp_addressFeeSettled`
* `wp_verifiedNote` — what a verified `k1` tells about its note
* `wp_certificate` — what a certificate rests on
-/

namespace LnurlMint

open Interleave

variable {d : Deps} {cfg : Settings d} {a : Actor mintSig} {w w' : World (mint cfg)}

/-- A lookup failed: the funding source did not answer, or a settlement was refused. -/
def Failed (w : World (mint cfg)) (a : Actor mintSig) : Prop :=
  (∃ h, Heard w a (.isInvoiceSettled h) (.error ())) ∨
    ∃ h derive e, Wrote w a (.settleMint h derive) (.error e)

theorem Failed.later (h : Failed w a) (hl : Later a w w') : Failed w' a := by
  rcases h with ⟨hash, h⟩ | ⟨hash, derive, e, h⟩
  exacts [.inl ⟨hash, h.later hl⟩, .inr ⟨hash, derive, e, h.later hl⟩]

/-- A handler that only raises something else. -/
theorem wp_rethrow {α : Type} {p : Mint α} {f : Exn → Mint α}
    {Q : Except Exn α → World (mint cfg) → Prop} (hf : ∀ e, ∃ e', f e = throw e')
    (h : wp (law cfg) a p (fun r w =>
      (∀ x, r = .ok x → Q (.ok x) w) ∧ ((∃ e, r = .error e) → ∀ e, Q (.error e) w)) w) :
    wp (law cfg) a (tryCatch p f) Q w := by
  rw [Prog.tryCatch_eq, wp_thenE]
  refine wp_mono h fun r w₁ hr => ?_
  cases r with
  | ok x => exact hr.1 x rfl
  | error e =>
    obtain ⟨e', he⟩ := hf e
    rw [Prog.onError_error, he]
    exact hr.2 ⟨e, rfl⟩ e'

theorem wp_valueErrorsAnswered {α : Type} {p : Mint α}
    {Q : Except Exn α → World (mint cfg) → Prop}
    (h : wp (law cfg) a p (fun r w =>
      (∀ x, r = .ok x → Q (.ok x) w) ∧ ((∃ e, r = .error e) → ∀ e, Q (.error e) w)) w) :
    wp (law cfg) a (valueErrorsAnswered p) Q w :=
  wp_rethrow (fun e => by cases e <;> exact ⟨_, rfl⟩) h

theorem wp_rejectionsAnswered {α : Type} {rewrite : String → String} {p : Mint α}
    {Q : Except Exn α → World (mint cfg) → Prop}
    (h : wp (law cfg) a p (fun r w =>
      (∀ x, r = .ok x → Q (.ok x) w) ∧ ((∃ e, r = .error e) → ∀ e, Q (.error e) w)) w) :
    wp (law cfg) a (rejectionsAnswered rewrite p) Q w :=
  wp_rethrow (fun e => by cases e <;> exact ⟨_, rfl⟩) h

/-! ## The funding source -/

theorem wp_createInvoice {amountMsat : ℤ} {memo dh : Option Str} {expiry : Option ℕ}
    {Q : Except Exn (Str × Option Bytes) → World (mint cfg) → Prop} (hr : Unreserved w a)
    (hQ : ∀ r w', Later a w w' →
      (∀ x, r = .ok x → JustHeard w' a (.createInvoice amountMsat memo dh expiry) (.ok x)) →
        Q r w') :
    wp (law cfg) a (createInvoice amountMsat memo dh expiry) Q w := by
  refine wp_bind.2 (wp_ask hr trivial fun ans w₁ hl _ ⟨pre, rest, hh⟩ => ?_)
  refine wp_answer (fun x hx => hQ _ _ hl fun y hy => ?_) fun _ => hQ _ _ hl (by simp)
  cases hy
  exact ⟨pre, rest, by rw [hh, hx]⟩

theorem wp_isInvoiceSettled {h : Str} {Q : Except Exn Bool → World (mint cfg) → Prop}
    (hr : Unreserved w a) (ht : AsksAbout w a h)
    (hQ : ∀ r w', Later a w w' →
      (∀ b, r = .ok b → Heard w' a (.isInvoiceSettled h) (.ok b)) →
      (∀ e, r = .error e → Heard w' a (.isInvoiceSettled h) (.error ())) → Q r w') :
    wp (law cfg) a (isInvoiceSettled h) Q w := by
  refine wp_bind.2 (wp_ask hr ht fun ans w₁ hl _ ⟨pre, rest, hh⟩ => ?_)
  refine wp_answer (fun x hx => hQ _ _ hl (fun y hy => ?_) (by simp))
    fun hx => hQ _ _ hl (by simp) fun _ _ => ?_
  · cases hy
    exact ⟨pre, by rw [hh, hx]; exact List.mem_cons_self⟩
  · exact ⟨pre, by rw [hh, hx]; exact List.mem_cons_self⟩

/-! ## Settling -/

theorem wp_settleMintIfPaid {h : Str} {Q : Except Exn Bool → World (mint cfg) → Prop}
    (hr : Unreserved w a) (ht : AsksAbout w a h)
    (hQ : ∀ r w', Later a w w' → ((∃ e, r = .error e) → Failed w' a) → Q r w') :
    wp (law cfg) a (settleMintIfPaid cfg h) Q w := by
  unfold settleMintIfPaid
  split
  · exact hQ _ _ (.refl w) (by simp)
  · refine wp_bind.2 (wp_isInvoiceSettled hr ht fun r w₁ hl hok herr => ?_)
    cases r with
    | error e => exact hQ _ _ hl fun _ => .inl ⟨h, herr e rfl⟩
    | ok paid =>
      cases paid with
      | false => exact hQ _ _ hl (by simp)
      | true =>
        have ht₁ : AsksAbout w₁ a h := by
          intro k1 he
          obtain ⟨k, hk, id, amt, hid, hs⟩ := ht k1 he
          exact ⟨k, hk, id, amt, hid, hs.later hl⟩
        refine wp_bind.2 (wp_settle ⟨rfl, hok true rfl, ht₁⟩ trivial fun r w₂ hl₂ hw => ?_)
        cases r with
        | ok _ => exact hQ _ _ (hl.trans hl₂) (by simp)
        | error e => exact hQ _ _ (hl.trans hl₂) fun _ => .inr ⟨h, _, e, hw⟩

theorem wp_mintSettledByNoteId {id : Str} {Q : Except Exn Bool → World (mint cfg) → Prop}
    (hr : Unreserved w a) (ht : ∀ k1, a.task.spends = some k1 → ∃ k ∈ k1, noteIdOf d k = some id)
    (hQ : ∀ r w', Later a w w' → ((∃ e, r = .error e) → Failed w' a) → Q r w') :
    wp (law cfg) a (mintSettledByNoteId cfg id) Q w := by
  refine wp_bind.2 (wp_read fun i w₁ hl _ hs => ?_)
  simp only [Prog.onOk_ok]
  split
  · exact hQ _ _ hl (by simp)
  · rename_i h amountMsat he
    refine wp_settleMintIfPaid (hr.later hl) (fun k1 ha => ?_)
      fun r w₂ hl₂ => hQ r w₂ (hl.trans hl₂)
    obtain ⟨k, hk, hid⟩ := ht k1 ha
    exact ⟨k, hk, id, amountMsat, hid, he ▸ hs⟩

theorem wp_mintSettled {h : Str} {Q : Except Exn Bool → World (mint cfg) → Prop}
    (hr : Unreserved w a) (ht : NoCallback a.task) (hQ : ∀ r w', Later a w w' → Q r w') :
    wp (law cfg) a (mintSettled cfg h) Q w := by
  refine wp_bind.2 (wp_read fun i w₁ hl _ _ => ?_)
  simp only [Prog.onOk_ok]
  split
  · exact hQ _ _ hl
  refine wp_bind.2 (wp_read fun i w₂ hl₂ _ _ => ?_)
  simp only [Prog.onOk_ok]
  split
  · exact hQ _ _ (hl.trans hl₂)
  exact wp_settleMintIfPaid (hr.later (hl.trans hl₂)) (ht.elim · ·)
    fun r w₃ hl₃ _ => hQ r w₃ ((hl.trans hl₂).trans hl₃)

theorem wp_addressFeeSettled {h : Str} {Q : Except Exn Bool → World (mint cfg) → Prop}
    (hr : Unreserved w a) (ht : NoCallback a.task) (hQ : ∀ r w', Later a w w' → Q r w') :
    wp (law cfg) a (addressFeeSettled cfg h) Q w := by
  refine wp_bind.2 (wp_read fun i w₁ hl _ _ => ?_)
  simp only [Prog.onOk_ok]
  split
  · exact hQ _ _ hl
  split
  · exact hQ _ _ hl
  split
  · exact hQ _ _ hl
  refine wp_bind.2 (wp_isInvoiceSettled (hr.later hl) (ht.elim · ·) fun r w₂ hl₂ hok _ => ?_)
  have hl₂ := hl.trans hl₂
  cases r with
  | error e => exact hQ _ _ hl₂
  | ok paid =>
    cases paid with
    | false => exact hQ _ _ hl₂
    | true =>
      refine wp_bind.2 (wp_settle ⟨ht, hok true rfl⟩ trivial fun r w₃ hl₃ _ => ?_)
      cases r <;> exact hQ _ _ (hl₂.trans hl₃)

theorem wp_mintPreimage {h : Str} {Q : Except Exn (Option Str) → World (mint cfg) → Prop}
    (hr : Unreserved w a) (hQ : ∀ r w', Later a w w' → Q r w') :
    wp (law cfg) a (mintPreimage cfg h) Q w := by
  unfold mintPreimage
  split
  · exact hQ _ _ (.refl w)
  · exact wp_bind.2 (wp_ask hr trivial fun ans w₁ hl _ _ => hQ _ _ hl)

theorem wp_meltPreimage {h : Str} {Q : Except Exn (Option Str) → World (mint cfg) → Prop}
    (hr : Unreserved w a) (hQ : ∀ r w', Later a w w' → Q r w') :
    wp (law cfg) a (meltPreimage cfg h) Q w := by
  unfold meltPreimage
  split
  · exact hQ _ _ (.refl w)
  · exact wp_bind.2 (wp_ask hr trivial fun ans w₁ hl _ _ => hQ _ _ hl)

theorem wp_meltSettled {h : Str} {Q : Except Exn Bool → World (mint cfg) → Prop}
    (hr : Unreserved w a) (ht : a.task ≠ .reconcilePendingMelts)
    (hQ : ∀ r w', Later a w w' → Q r w') : wp (law cfg) a (meltSettled cfg h) Q w := by
  refine wp_bind.2 (wp_read fun i w₁ hl _ _ => ?_)
  simp only [Prog.onOk_ok]
  split
  · exact hQ _ _ hl
  split
  · exact hQ _ _ hl
  rw [Prog.tryCatch_eq, wp_thenE]
  refine wp_bind.2 (wp_ask (hr.later hl) (fun he => absurd he ht) fun ans w₂ hl₂ _ _ => ?_)
  exact wp_answer (fun x _ => hQ _ _ (hl.trans hl₂)) fun _ => hQ _ _ (hl.trans hl₂)

/-! ## Notes -/

theorem wp_noteAmountById {id : Str} {Q : Except Exn (Option ℤ) → World (mint cfg) → Prop}
    (hr : Unreserved w a) (ht : ∀ k1, a.task.spends = some k1 → ∃ k ∈ k1, noteIdOf d k = some id)
    (hQ : ∀ r w', Later a w w' → ((∃ e, r = .error e) → Failed w' a) → Q r w') :
    wp (law cfg) a (noteAmountById cfg id) Q w := by
  refine wp_bind.2 (wp_read fun i w₁ hl _ _ => ?_)
  simp only [Prog.onOk_ok]
  split
  · exact hQ _ _ hl (by simp)
  refine wp_bind.2 (wp_mintSettledByNoteId (hr.later hl) ht fun r w₂ hl₂ hf => ?_)
  have hl₂ := hl.trans hl₂
  cases r with
  | error e => exact hQ _ _ hl₂ fun _ => hf ⟨e, rfl⟩
  | ok settled =>
    cases settled with
    | false => exact hQ _ _ hl₂ (by simp)
    | true => exact wp_read fun i w₃ hl₃ _ _ => hQ _ _ (hl₂.trans hl₃) (by simp)

/-- Why a `k1` is refused. -/
def Refused (w : World (mint cfg)) (a : Actor mintSig) (k1 : Str) : Prop :=
  noteIdOf d k1 = none ∨
  (∃ id, noteIdOf d k1 = some id ∧ w.st.store.notes.find? id = none) ∨
  (∃ parsed t n, Spend.parse d k1 = some parsed ∧ SawTime w a t ∧
    w.st.store.notes.find? parsed.noteId = some n ∧
    Spend.verify d parsed t n.lockedAt cfg.spendDomains ≠ none) ∨
  Failed w a

/-- A verified note is on file with its amount, and is spent if it was said to be. -/
def OnFile (s : NoteStore) (v : Verified) : Prop :=
  ∃ n, s.notes.find? v.noteId = some n ∧ n.amountMsat = v.amountMsat ∧
    (v.spent = true → n.spent = true)

theorem OnFile.evolves {s s' : NoteStore} {v : Verified} (h : OnFile s v) (he : s.Evolves s') :
    OnFile s' v := by
  obtain ⟨n, hn, ha, hs⟩ := h
  obtain ⟨n', hn', ha', -, hs'⟩ := he.note hn
  exact ⟨n', hn', ha'.trans ha, hs' ∘ hs⟩

theorem wp_verifiedNote {k1 : Str} {Q : Except Exn Verified → World (mint cfg) → Prop}
    (hr : Unreserved w a) (ht : ∀ k1s, a.task.spends = some k1s → k1 ∈ k1s)
    (hok : ∀ v w', Later a w w' → noteIdOf d k1 = some v.noteId → OnFile w'.st.store v →
      Q (.ok v) w')
    (herr : ∀ e w', Later a w w' → Refused w' a k1 → Q (.error e) w') :
    wp (law cfg) a (verifiedNote cfg k1) Q w := by
  unfold verifiedNote
  split
  · rename_i hp
    exact herr _ _ (.refl w) (.inl (by simp [noteIdOf, hp]))
  rename_i parsed hp
  have hid : noteIdOf d k1 = some parsed.noteId := by simp [noteIdOf, hp]
  refine wp_bind.2 (wp_noteAmountById hr (fun k1s he => ⟨k1, ht k1s he, hid⟩)
    fun r w₁ hl hf => ?_)
  cases r with
  | error e => exact herr _ _ hl (.inr (.inr (.inr (hf ⟨e, rfl⟩))))
  | ok _ =>
    refine wp_bind.2 (wp_read fun i w₂ hl₂ hst _ => ?_)
    have hl₂ := hl.trans hl₂
    rw [← hst]
    simp only [Prog.onOk_ok, Query.answer, NoteStore.noteRecord]
    cases hn : w₂.st.store.notes.find? parsed.noteId with
    | none => exact herr _ _ hl₂ (.inr (.inl ⟨_, hid, hn⟩))
    | some n =>
      refine wp_bind.2 (wp_now fun t w₃ hl₃ hst₃ hs => ?_)
      have hl₃ := hl₂.trans hl₃
      have hn₃ : w₃.st.store.notes.find? parsed.noteId = some n := by rw [hst₃, hn]
      simp only [Prog.onOk_ok]
      split
      · rename_i reason hv
        exact herr _ _ hl₃ (.inr (.inr (.inl ⟨parsed, t, n, hp, hs, hn₃, by simp [hv]⟩)))
      · exact hok _ _ hl₃ hid ⟨n, hn₃, rfl, id⟩

theorem wp_noteByRef {value : Str} {Q : Except Exn (Option Str) → World (mint cfg) → Prop}
    (hr : Unreserved w a) (ht : NoCallback a.task) (hQ : ∀ r w', Later a w w' → Q r w') :
    wp (law cfg) a (noteByRef cfg value) Q w := by
  unfold noteByRef
  split
  · exact hQ _ _ (.refl w)
  refine wp_bind.2 (wp_noteAmountById hr (ht.elim · ·) fun r w₁ hl _ => ?_)
  cases r <;> exact hQ _ _ hl

/-! ## Certificates -/

/-- What the mint can sign: a note on file, or an output on record. -/
def Signable (s : NoteStore) (noteId : Str) (amountMsat : ℤ) : Prop :=
  (∃ n, s.notes.find? noteId = some n ∧ n.amountMsat = amountMsat) ∨
    ∃ b ∈ s.burns.rows, (noteId, amountMsat) ∈ b.outputs

theorem Signable.evolves {s s' : NoteStore} {noteId : Str} {amountMsat : ℤ}
    (h : Signable s noteId amountMsat) (he : s.Evolves s') : Signable s' noteId amountMsat := by
  rcases h with ⟨n, hn, ha⟩ | ⟨b, hb, ho⟩
  · obtain ⟨n', hn', ha', -⟩ := he.note hn
    exact .inl ⟨n', hn', ha'.trans ha⟩
  · exact .inr ⟨b, Relational.Table.mem_of_find? (he.burn (Relational.Table.find?_of_mem hb)), ho⟩

theorem BadSignature.later (h : BadSignature cfg w a) (hl : Later a w w') :
    BadSignature cfg w' a := by
  obtain ⟨noteId, dom, amountMsat, rs, recoveryId, hh, hb⟩ := h
  exact ⟨noteId, dom, amountMsat, rs, recoveryId, hh.later hl, hb⟩

theorem Certified.later {c : Option Str} {noteId : Str} {amountMsat : ℤ}
    (h : Certified cfg w a c noteId amountMsat) (hl : Later a w w') :
    Certified cfg w' a c noteId amountMsat := by
  rcases h with rfl | ⟨dom, rs, recoveryId, x, hh, he, hc⟩
  exacts [.inl rfl, .inr ⟨dom, rs, recoveryId, x, hh.later hl, he, hc⟩]

theorem wp_certificate {noteId dom : Str} {amountMsat : ℤ}
    {Q : Except Exn (Option Str) → World (mint cfg) → Prop} (hr : Unreserved w a)
    (hs : Signable w.st.store noteId amountMsat)
    (hok : ∀ c w', Later a w w' → Certified cfg w' a c noteId amountMsat → Q (.ok c) w')
    (herr : ∀ e w', Later a w w' → BadSignature cfg w' a → Q (.error e) w') :
    wp (law cfg) a (certificate cfg noteId amountMsat dom) Q w := by
  unfold certificate signNote
  refine wp_bind.2 ?_
  split
  · exact hok _ _ (.refl w) (.inl rfl)
  refine wp_bind.2 (wp_ask hr hs fun ans w₁ hl _ ⟨pre, rest, hh⟩ => ?_)
  simp only [Prog.onOk_ok]
  split
  · exact hok _ _ hl (.inl rfl)
  rename_i rs recoveryId hans
  have hh : Heard w₁ a (.signMessage noteId dom amountMsat) (.ok (rs, recoveryId)) :=
    ⟨pre, by rw [hh]; exact List.mem_cons_self⟩
  refine wp_bind.2 (wp_raiseIf.2 ⟨fun hb => ?_, fun _ => ?_⟩)
  · exact herr _ _ hl ⟨noteId, dom, amountMsat, rs, recoveryId, hh, hb.imp_right .inl⟩
  · refine wp_bind.2 (wp_ofExcept.2 ?_)
    cases he : encodeCs1 d amountMsat (rs ++ [UInt8.ofNat recoveryId.toNat]) with
    | error e =>
      exact herr _ _ hl ⟨noteId, dom, amountMsat, rs, recoveryId, hh, .inr (.inr ⟨e, he⟩)⟩
    | ok x => exact hok _ _ hl (.inr ⟨dom, rs, recoveryId, x, hh, he, rfl⟩)

theorem wp_domain {baseUrl : Str} {Q : Except Exn Str → World (mint cfg) → Prop}
    (hok : ∀ dom, mintDomain cfg baseUrl = .ok dom → Q (.ok dom) w)
    (herr : ∀ e, Domainless cfg baseUrl → Q (.error e) w) :
    wp (law cfg) a (domain cfg baseUrl) Q w :=
  wp_ofExcept_cases.2 ⟨fun e he => herr e ⟨e, he⟩, hok⟩

theorem wp_mintPubkey {Q : Except Exn (Option Str) → World (mint cfg) → Prop}
    (hr : Unreserved w a) (hQ : ∀ r w', Later a w w' → Q r w') :
    wp (law cfg) a (mintPubkey cfg) Q w := by
  unfold mintPubkey
  split
  · exact hQ _ _ (.refl w)
  · exact hQ _ _ (.refl w)
  refine wp_bind.2 (wp_ask hr trivial fun ans w₁ hl _ _ => ?_)
  simp only [Prog.onOk_ok]
  split <;> exact hQ _ _ hl

end LnurlMint
