import LnurlMint.Lib.Conduct
import LnurlMint.Powers
import LnurlMint.Retention

/-!
# What the mint discloses of payments

A preimage proves a payment, and for a mint whose note rests on it, it is the note. The mint asks
the funding source for one in two places: to answer `GET /verify`, and to publish a zap receipt.
Both serve anybody, so what keeps a preimage from being served too early, or for the wrong invoice,
is what the handler read before it asked.

`/verify` tells three kinds of invoice apart by where they are on record, and each has its own way
of being settled. What an answer says is read at one moment and sent at a later one, and between the
two others run.

## Main definitions

* `Direction` — which way the payment of an invoice goes
* `disclosureRule` — what a task must have read before it asks, and before it answers

## Main results

* `body_disclosure` — every task keeps the rule
* `preimages_disclosed` — whose preimages are asked for
* `verify_truthful` — what an answer says is so
-/

namespace LnurlMint

open Interleave Relational

variable {d : Deps} {cfg : Settings d}

/-! ## Directions -/

/-- Which way the payment of an invoice goes: in, for a note or for a name, or out. -/
inductive Direction
  | note
  | name
  | melt
deriving DecidableEq

namespace Direction

/-- The invoice of this hash is on record. A mint's is so that its note does not rest on the
preimage. -/
def OnFile (s : NoteStore) (hash pr : Str) : Direction → Prop
  | note => ∃ m, s.mints.find? hash = some m ∧ m.pr = pr ∧
    (m.noteId.isSome = true ∨ m.username.isSome = true)
  | name => ∃ f, s.addressFees.find? hash = some f ∧ f.pr = pr
  | melt => ∃ m, s.melts.find? hash = some m ∧ m.pr = pr

/-- It is on record as settled. -/
def Settled (s : NoteStore) (hash : Str) : Direction → Prop
  | note => s.mintSettled hash = true
  | name => s.feePaid hash = true
  | melt => s.meltSettled hash = true

/-- The acts show that it is on record. -/
def Shows (t : List (Act mintSig)) (hash pr : Str) : Direction → Prop
  | note => .did (.read (.mintPr hash)) (some pr) ∈ t ∧
    .did (.read (.mintUsesComment hash)) true ∈ t
  | name => ∃ rest, .did (.read (.addressFee hash)) (some (pr, rest)) ∈ t
  | melt => .did (.read (.meltPr hash)) (some pr) ∈ t

/-- The acts show that it is settled: it was read, or done after it was seen on record. For a melt,
the funding source's word is enough. -/
def ShowsSettled (t : List (Act mintSig)) (hash pr : Str) : Direction → Prop
  | note => .did (.read (.mintSettled hash)) true ∈ t ∨ ∃ derive out t₀,
    .did (.write (.settleMint hash derive)) (.ok out) :: t₀ <:+ t ∧ note.Shows t₀ hash pr
  | name => (∃ fee, .did (.read (.addressFee hash)) fee ∈ t ∧ fee.any (·.2.2.2.2) = true) ∨
    ∃ out t₀, .did (.write (.settleAddressFee hash)) (.ok out) :: t₀ <:+ t ∧ name.Shows t₀ hash pr
  | melt => .did (.read (.meltSettled hash)) true ∈ t ∨
    .heard (.isPaymentComplete hash) (.ok true) ∈ t

/-- The acts show that it was not settled. -/
def ShowsUnsettled (t : List (Act mintSig)) (hash : Str) : Direction → Prop
  | note => .did (.read (.mintSettled hash)) false ∈ t
  | name => ∃ fee, .did (.read (.addressFee hash)) fee ∈ t ∧ fee.any (·.2.2.2.2) = false
  | melt => .did (.read (.meltSettled hash)) false ∈ t

/-- The funding source answered with this preimage. -/
def ShowsPreimage (t : List (Act mintSig)) (hash : Str) (preimage : Bytes) : Direction → Prop
  | note | name => .heard (.invoicePreimage hash) (.ok (some preimage)) ∈ t
  | melt => .heard (.paymentPreimage hash) (.ok (some preimage)) ∈ t

variable {t t' : List (Act mintSig)} {hash pr : Str} {dir : Direction}

theorem Shows.mono (h : dir.Shows t hash pr) (hs : t <:+ t') : dir.Shows t' hash pr := by
  cases dir with
  | note => exact ⟨hs.subset h.1, hs.subset h.2⟩
  | name =>
    obtain ⟨rest, h⟩ := h
    exact ⟨rest, hs.subset h⟩
  | melt => exact hs.subset h

theorem ShowsSettled.mono (h : dir.ShowsSettled t hash pr) (hs : t <:+ t') :
    dir.ShowsSettled t' hash pr := by
  cases dir with
  | note =>
    refine h.imp (fun h => hs.subset h) ?_
    rintro ⟨derive, out, t₀, h, hshows⟩
    exact ⟨derive, out, t₀, h.trans hs, hshows⟩
  | name =>
    refine h.imp ?_ ?_
    · rintro ⟨fee, h, hpaid⟩
      exact ⟨fee, hs.subset h, hpaid⟩
    · rintro ⟨out, t₀, h, hshows⟩
      exact ⟨out, t₀, h.trans hs, hshows⟩
  | melt => exact h.imp (fun h => hs.subset h) fun h => hs.subset h

end Direction

/-! ## The rule -/

/-- What is shown of a hash before the preimage of an invoice of the mint's is asked for: to a
request, that it is on record and settled, and else that it is that of a settled zap. -/
def MayAskPreimage (task : Task) (t : List (Act mintSig)) (hash : Str) : Prop :=
  match task with
  | .request _ => ∃ dir pr, dir ≠ Direction.melt ∧ dir.Shows t hash pr ∧ dir.ShowsSettled t hash pr
  | _ => ∃ zaps pr raw, .did (.read .unpublishedZaps) zaps ∈ t ∧ (hash, pr, raw) ∈ zaps

/-- What is shown when `/verify` answers. -/
def MayVerify (t : List (Act mintSig)) (hash : Str) (settled : Bool) (preimage : Option Str)
    (pr : Str) : Prop :=
  ∃ dir : Direction, dir.Shows t hash pr ∧ (settled = true → dir.ShowsSettled t hash pr) ∧
    (settled = false → preimage = none ∧ dir.ShowsUnsettled t hash) ∧
    ∀ p, preimage = some p → ∃ bytes, dir.ShowsPreimage t hash bytes ∧ p = hex bytes

/-- A task asks for a preimage, and answers about a payment, by what it was shown. -/
def disclosureRule (task : Task) : Rule mintSig Response where
  op _ _ := True
  call t
    | .invoicePreimage hash => MayAskPreimage task t hash
    | .paymentPreimage hash =>
      ∃ pr, Direction.melt.Shows t hash pr ∧ Direction.melt.ShowsSettled t hash pr
    | _ => True
  task _ _ := True
  value t resp :=
    match task, resp with
    | .request ⟨_, .verifyInvoice hash⟩, .verified settled preimage pr =>
      MayVerify t hash settled preimage pr
    | _, _ => True

/-- The calls that ask for no preimage. -/
def asksNone : Scope mintSig where
  op _ := True
  call
    | .invoicePreimage _ | .paymentPreimage _ => False
    | _ => True
  task _ := True

section Programs

variable {task : Task} {t : List (Act mintSig)} {hash pr : Str} {α : Type}

theorem disclosureRule_allows : (disclosureRule task).Allows asksNone where
  op _ _ _ := trivial
  call t c hc := by
    cases c with
    | invoicePreimage | paymentPreimage => exact hc.elim
    | _ => trivial
  task _ _ _ := trivial

theorem keeps_asksNone {p : Mint α} {P : α → Prop} (h : p.Within asksNone P) :
    p.Keeps (disclosureRule task) (fun x _ => P x) t :=
  .of_within disclosureRule_allows h

theorem keeps_read (q : Query) :
    (read q).Keeps (disclosureRule task) (fun x t' => t' = .did (.read q) x :: t) t :=
  .perform trivial

theorem keeps_write (u : Update) : (write u).Keeps (disclosureRule task)
    (fun x t' => t' = .did (.write u) (.ok x) :: t) t := by
  refine .bind (.perform trivial) fun r t₁ _ ht₁ => ?_
  cases r with
  | ok x => exact ht₁
  | error e => trivial

theorem isPaymentComplete_keeps : (isPaymentComplete hash).Keeps (disclosureRule task)
    (fun x t' => t' = .heard (.isPaymentComplete hash) (.ok x) :: t) t := by
  refine .bind (.ask trivial) fun ans t₁ _ ht₁ => ?_
  cases ans with
  | ok x => exact ht₁
  | error e => trivial

/-! ### Whether it is settled -/

/-- What the answer to whether it is settled shows. -/
def Tells (dir : Direction) (hash pr : Str) (settled : Bool) (t : List (Act mintSig)) : Prop :=
  (settled = true → dir.ShowsSettled t hash pr) ∧ (settled = false → dir.ShowsUnsettled t hash)

theorem tells_true {dir : Direction} (h : dir.ShowsSettled t hash pr) : Tells dir hash pr true t :=
  ⟨fun _ => h, fun he => (by cases he)⟩

theorem tells_false {dir : Direction} (h : dir.ShowsUnsettled t hash) :
    Tells dir hash pr false t :=
  ⟨fun he => (by cases he), fun _ => h⟩

theorem settleMintIfPaid_keeps (hfile : Direction.note.Shows t hash pr)
    (hun : Direction.note.ShowsUnsettled t hash) :
    (settleMintIfPaid cfg hash).Keeps (disclosureRule task) (Tells .note hash pr) t := by
  rw [settleMintIfPaid]
  split
  · exact .pure (tells_false hun)
  · refine .bind (keeps_asksNone (within_ask_answer trivial)) fun paid t₁ ht₁ _ => ?_
    split
    · refine .bind (keeps_write _) fun out t₂ _ ht₂ => .pure (tells_true (.inr ?_))
      exact ⟨_, out, t₁, ht₂ ▸ List.suffix_rfl, hfile.mono ht₁⟩
    · exact .pure (tells_false (ht₁.subset hun))

theorem mintSettled_keeps (hfile : Direction.note.Shows t hash pr) :
    (mintSettled cfg hash).Keeps (disclosureRule task) (Tells .note hash pr) t := by
  refine .bind (keeps_read _) fun settled t₁ ht₁ hans => ?_
  have hread : .did (.read (.mintSettled hash)) settled ∈ t₁ := hans ▸ List.mem_cons_self
  cases settled with
  | true => exact .pure (tells_true (.inl hread))
  | false =>
    refine .bind (keeps_read _) fun pending t₂ ht₂ _ => ?_
    have hun : Direction.note.ShowsUnsettled t₂ hash := ht₂.subset hread
    split
    · exact .pure (tells_false hun)
    · exact settleMintIfPaid_keeps (hfile.mono (ht₁.trans ht₂)) hun

theorem addressFeeSettled_keeps (hfile : Direction.name.Shows t hash pr) :
    (addressFeeSettled cfg hash).Keeps (disclosureRule task) (Tells .name hash pr) t := by
  refine .bind (keeps_read _) fun fee t₁ ht₁ hans => ?_
  have hread : .did (.read (.addressFee hash)) fee ∈ t₁ := hans ▸ List.mem_cons_self
  split
  · exact .pure (tells_false ⟨none, hread, rfl⟩)
  · next paid =>
    cases paid with
    | true => exact .pure (tells_true (.inl ⟨_, hread, rfl⟩))
    | false =>
      have hun : Direction.name.ShowsUnsettled t₁ hash := ⟨_, hread, rfl⟩
      rw [if_neg Bool.false_ne_true]
      split
      · exact .pure (tells_false hun)
      · refine .bind (keeps_asksNone (within_ask_answer trivial)) fun paid t₂ ht₂ _ => ?_
        split
        · refine .bind (keeps_write _) fun out t₃ _ ht₃ => .pure (tells_true (.inr ?_))
          exact ⟨out, t₂, ht₃ ▸ List.suffix_rfl, hfile.mono (ht₁.trans ht₂)⟩
        · obtain ⟨fee, hfee, hpaid⟩ := hun
          exact .pure (tells_false ⟨fee, ht₂.subset hfee, hpaid⟩)

theorem meltSettled_keeps :
    (meltSettled cfg hash).Keeps (disclosureRule task) (Tells .melt hash pr) t := by
  refine .bind (keeps_read _) fun settled t₁ _ ht₁ => ?_
  have hread : .did (.read (.meltSettled hash)) settled ∈ t₁ := ht₁ ▸ List.mem_cons_self
  cases settled with
  | true => exact .pure (tells_true (.inl hread))
  | false =>
    rw [if_neg Bool.false_ne_true]
    split
    · exact .pure (tells_false hread)
    · refine Prog.Keeps.thenE isPaymentComplete_keeps (fun paid t₂ ht₂ he => ?_) fun _ t₂ ht₂ =>
        .pure (tells_false (ht₂.subset hread))
      cases paid with
      | true => exact tells_true (.inr (he ▸ List.mem_cons_self))
      | false => exact tells_false (ht₂.subset hread)

/-! ### The preimage -/

theorem preimageHex_eq_some {ans : Except Unit (Option Bytes)} {p : Str}
    (h : preimageHex ans = some p) : ∃ bytes, ans = .ok (some bytes) ∧ p = hex bytes := by
  unfold preimageHex at h
  split at h
  · exact ⟨_, rfl, (Option.some.inj h).symm⟩
  · cases h

/-- What the preimage that is served shows. -/
def Discloses (dir : Direction) (hash : Str) (preimage : Option Str) (t : List (Act mintSig)) :
    Prop :=
  ∀ p, preimage = some p → ∃ bytes, dir.ShowsPreimage t hash bytes ∧ p = hex bytes

theorem mintPreimage_keeps {dir : Direction} (hdir : dir ≠ .melt)
    (hmay : MayAskPreimage task t hash) :
    (mintPreimage cfg hash).Keeps (disclosureRule task) (Discloses dir hash) t := by
  rw [mintPreimage]
  split
  · exact .pure fun p hp => by cases hp
  · refine .bind (.ask hmay) fun ans t₁ _ ht₁ => .pure fun p hp => ?_
    obtain ⟨bytes, rfl, rfl⟩ := preimageHex_eq_some hp
    refine ⟨bytes, ?_, rfl⟩
    cases dir with
    | melt => exact absurd rfl hdir
    | _ => exact ht₁ ▸ List.mem_cons_self

theorem meltPreimage_keeps (hfile : Direction.melt.Shows t hash pr)
    (hsettled : Direction.melt.ShowsSettled t hash pr) :
    (meltPreimage cfg hash).Keeps (disclosureRule task) (Discloses .melt hash) t := by
  rw [meltPreimage]
  split
  · exact .pure fun p hp => by cases hp
  · refine .bind (.ask ⟨pr, hfile, hsettled⟩) fun ans t₁ _ ht₁ => .pure fun p hp => ?_
    obtain ⟨bytes, rfl, rfl⟩ := preimageHex_eq_some hp
    exact ⟨bytes, ht₁ ▸ List.mem_cons_self, rfl⟩

/-! ### The handler -/

/-- The answer to `/verify` says what the acts show. -/
def VerifiedAs (hash : Str) (resp : Response) (t : List (Act mintSig)) : Prop :=
  ∃ settled preimage pr, resp = .verified settled preimage pr ∧
    MayVerify t hash settled preimage pr

theorem verifyResponse_keeps {dir : Direction} {isSettled : Mint Bool}
    {preimageOf : Mint (Option Str)} (hfile : dir.Shows t hash pr)
    (hs : isSettled.Keeps (disclosureRule task) (Tells dir hash pr) t)
    (hp : ∀ t', dir.Shows t' hash pr → dir.ShowsSettled t' hash pr →
      preimageOf.Keeps (disclosureRule task) (Discloses dir hash) t') :
    (verifyResponse pr isSettled preimageOf).Keeps (disclosureRule task)
      (VerifiedAs hash) t := by
  refine .bind hs fun settled t₁ ht₁ htells => ?_
  cases settled with
  | true =>
    have hsettled := htells.1 rfl
    refine .bind (hp t₁ (hfile.mono ht₁) hsettled) fun preimage t₂ ht₂ hdiscloses => .pure ?_
    exact ⟨true, preimage, pr, rfl, dir, hfile.mono (ht₁.trans ht₂), fun _ => hsettled.mono ht₂,
      fun he => (by cases he), hdiscloses⟩
  | false =>
    exact .pure ⟨false, none, pr, rfl, dir, hfile.mono ht₁, fun he => (by cases he),
      fun _ => ⟨rfl, htells.2 rfl⟩, fun p hp => by cases hp⟩

theorem verifyInvoice_keeps {r : Request} :
    (verifyInvoice cfg hash).Keeps (disclosureRule (.request r)) (VerifiedAs hash) t := by
  refine .bind (keeps_asksNone (.raiseIf _ _)) fun _ _ _ _ => ?_
  refine .bind (keeps_read _) fun mintPr t₁ _ ht₁ => ?_
  split
  · refine .bind (keeps_read _) fun usesComment t₂ ht₂ hread => ?_
    refine .bind (keeps_asksNone (.raiseIf _ _)) fun _ t₃ ht₃ huses => ?_
    obtain rfl : usesComment = true := Bool.of_not_eq_false huses
    have hfile : Direction.note.Shows t₃ hash _ :=
      ⟨ht₃.subset (ht₂.subset (ht₁ ▸ List.mem_cons_self)),
        ht₃.subset (hread ▸ List.mem_cons_self)⟩
    exact verifyResponse_keeps hfile (mintSettled_keeps hfile) fun t' hfile hsettled =>
      mintPreimage_keeps (by decide) ⟨.note, _, by decide, hfile, hsettled⟩
  · refine .bind (keeps_read _) fun fee t₂ _ ht₂ => ?_
    split
    · have hfile : Direction.name.Shows t₂ hash _ := ⟨_, ht₂ ▸ List.mem_cons_self⟩
      exact verifyResponse_keeps hfile (addressFeeSettled_keeps hfile) fun t' hfile hsettled =>
        mintPreimage_keeps (by decide) ⟨.name, _, by decide, hfile, hsettled⟩
    · refine .bind (keeps_read _) fun meltPr t₃ _ ht₃ => ?_
      split
      · have hfile : Direction.melt.Shows t₃ hash _ := ht₃ ▸ List.mem_cons_self
        exact verifyResponse_keeps hfile meltSettled_keeps fun t' hfile hsettled =>
          meltPreimage_keeps hfile hsettled
      · trivial

theorem looks_asksNone : Looks asksNone := ⟨fun _ => trivial, trivial, trivial⟩

theorem publishZapReceipt_keeps {secret : Str} {zap : Str × Str × Str}
    {zaps : List (Str × Str × Str)} (hz : zap ∈ zaps)
    (hread : .did (.read .unpublishedZaps) zaps ∈ t) :
    (publishZapReceipt cfg secret zap).Keeps (disclosureRule .publishZapReceipts)
      (fun _ _ => True) t := by
  obtain ⟨hash, pr, raw⟩ := zap
  refine .bind (keeps_asksNone (.ofExcept _)) fun _ t₁ ht₁ _ => ?_
  have hmay : MayAskPreimage .publishZapReceipts t₁ hash := ⟨zaps, pr, raw, ht₁.subset hread, hz⟩
  refine .bind (mintPreimage_keeps (by decide : Direction.note ≠ .melt) hmay) fun _ t₂ _ _ => ?_
  refine keeps_asksNone (P := fun _ => True) (.bind (within_now looks_asksNone) fun _ _ => ?_)
  refine .bind (.orRaise _ _) fun _ _ => .bind (.orRaise _ _) fun _ _ => ?_
  refine .bind (.ask trivial) fun _ _ => ?_
  split
  · exact within_write trivial
  · exact .pure trivial

theorem publishZapReceipts_keeps :
    (publishZapReceipts cfg).Keeps (disclosureRule .publishZapReceipts) (fun _ _ => True) t := by
  refine .bind (keeps_asksNone (within_settlePolledMints cfg looks_asksNone
    (fun _ => ⟨trivial, trivial⟩) fun _ => ⟨trivial, trivial⟩)) fun _ t₁ _ _ => ?_
  refine .bind (keeps_asksNone (.orRaise _ _)) fun secret t₂ _ _ => ?_
  refine .bind (keeps_read _) fun zaps t₃ _ ht₃ => ?_
  have hread : .did (.read .unpublishedZaps) zaps ∈ t₃ := ht₃ ▸ List.mem_cons_self
  have all : ∀ rest, (∀ z ∈ rest, z ∈ zaps) → ∀ t, t₃ <:+ t →
      (forEach (publishZapReceipt cfg secret) rest).Keeps (disclosureRule .publishZapReceipts)
        (fun _ _ => True) t := by
    intro rest
    induction rest with
    | nil => exact fun _ _ _ => trivial
    | cons z rest ih =>
      intro hall t ht
      refine .bind (publishZapReceipt_keeps (hall z List.mem_cons_self) (ht.subset hread))
        fun _ t' ht' _ => ih (fun z hz => hall z (List.mem_cons_of_mem _ hz)) t' (ht.trans ht')
  exact all zaps (fun _ hz => hz) t₃ List.suffix_rfl

/-- The tasks that ask for preimages. -/
def Task.asksPreimages : Task → Bool
  | .request ⟨_, .verifyInvoice _⟩ | .publishZapReceipts => true
  | _ => false

theorem powers_asksNone (ht : task.asksPreimages = false) : task.powers cfg ≤ asksNone := by
  refine ⟨fun _ _ => trivial, fun c hc => ?_, fun _ _ => trivial⟩
  cases c with
  | invoicePreimage | paymentPreimage =>
    cases task with
    | request r =>
      obtain ⟨baseUrl, endpoint⟩ := r
      obtain ⟨-, hc⟩ := hc
      cases endpoint with
      | verifyInvoice => cases ht
      | getPayCallbackForUsername _ _ _ _ k1 => cases k1 <;> exact hc
      | getWithdrawCallback _ pr => cases pr <;> exact hc
      | _ => exact hc
    | publishZapReceipts => cases ht
    | _ => exact hc
  | _ => trivial

/-- Every task asks and answers by what it was shown. -/
theorem body_disclosure (task : Task) : (body cfg task).Keeps (disclosureRule task)
    (fun resp t' => (disclosureRule task).value t' resp) t := by
  by_cases ht : task.asksPreimages = true
  · cases task with
    | request r =>
      obtain ⟨baseUrl, endpoint⟩ := r
      cases endpoint with
      | verifyInvoice hash =>
        refine .tryCatch (verifyInvoice_keeps.mono ?_) fun e t' _ => ?_
        · rintro _ t' - ⟨settled, preimage, pr, rfl, hmay⟩
          exact hmay
        · cases e with
          | http detail => trivial
          | _ => exact ⟨trivial, fun _ => trivial⟩
      | _ => cases ht
    | publishZapReceipts =>
      exact publishZapReceipts_keeps.thenE (fun _ _ _ _ => trivial) fun _ _ _ => trivial
    | _ => cases ht
  · have ht : task.asksPreimages = false := Bool.eq_false_iff.2 ht
    have hw := (body_within cfg task).mono (powers_asksNone ht) fun _ => id
    refine (keeps_asksNone hw).mono fun resp t' _ _ => ?_
    cases task with
    | request r =>
      obtain ⟨baseUrl, endpoint⟩ := r
      cases endpoint with
      | verifyInvoice => cases ht
      | _ => trivial
    | _ => trivial

end Programs

/-! ## What was shown is so -/

section Histories

variable {s : State} {w : World (mint cfg)} {a : Actor mintSig} {hash pr : Str} {dir : Direction}

/-- What an actor read of the store was so, and what stays so still is. -/
theorem Run.read_kept (h : Run (law cfg) s w) (ha : Joined w.hist a) (q : Query) {out : q.Out}
    (hm : Act.did (S := mintSig) (.read q) out ∈ acts a.tid w.hist) :
    ∃ i s₀, out = q.answer i s₀ ∧ s₀.Retains w.st.store := by
  obtain ⟨i, pre, he⟩ := h.did_of_acts ha hm
  obtain ⟨w₀, w₁, -, hn, hf⟩ := h.past he
  exact ⟨i, w₀.st.store, (Next.read hn).1, Follows.retains (hn.follows.trans hf)⟩

theorem Direction.OnFile.retained {s₀ s₁ : NoteStore} (h : dir.OnFile s₀ hash pr)
    (hr : s₀.Retains s₁) : dir.OnFile s₁ hash pr := by
  cases dir with
  | note =>
    obtain ⟨m, hm, rfl, hnamed⟩ := h
    obtain ⟨m', hm', hp⟩ := hr.mint hm
    exact ⟨m', hm', hp.pr, hp.named hnamed⟩
  | name =>
    obtain ⟨f, hf, rfl⟩ := h
    obtain ⟨f', hf', hp, -⟩ := hr.fee hf
    exact ⟨f', hf', hp⟩
  | melt =>
    obtain ⟨m, hm, rfl⟩ := h
    obtain ⟨m', hm', hp, -⟩ := hr.melt hm
    exact ⟨m', hm', hp⟩

theorem Direction.Settled.retained {s₀ s₁ : NoteStore} (h : dir.Settled s₀ hash)
    (hr : s₀.Retains s₁) : dir.Settled s₁ hash := by
  cases dir with
  | note =>
    obtain ⟨m, hm, hs⟩ := (Option.any_eq_true _ _).1 h
    obtain ⟨m', hm', hp⟩ := hr.mint hm
    exact (Option.any_eq_true _ _).2 ⟨m', hm', hp.minted hs⟩
  | name =>
    obtain ⟨f, hf, hs⟩ := (Option.any_eq_true _ _).1 h
    obtain ⟨f', hf', -, hp⟩ := hr.fee hf
    exact (Option.any_eq_true _ _).2 ⟨f', hf', hp hs⟩
  | melt =>
    obtain ⟨m, hm, hs⟩ := (Option.any_eq_true _ _).1 h
    obtain ⟨m', hm', -, hp⟩ := hr.melt hm
    exact (Option.any_eq_true _ _).2 ⟨m', hm', hp hs⟩

theorem Direction.Shows.onFile (hs : dir.Shows (acts a.tid w.hist) hash pr)
    (h : Run (law cfg) s w) (ha : Joined w.hist a) : dir.OnFile w.st.store hash pr := by
  cases dir with
  | note =>
    obtain ⟨i, s₀, hpr, hr⟩ := Run.read_kept h ha (.mintPr hash) hs.1
    obtain ⟨m, hm, rfl⟩ := Option.map_eq_some_iff.1 hpr.symm
    obtain ⟨m', hm', hp⟩ := hr.mint hm
    obtain ⟨i', s₀', hnamed, hr'⟩ := Run.read_kept h ha (.mintUsesComment hash) hs.2
    obtain ⟨m₁, hm₁, hn₁⟩ := (Option.any_eq_true _ _).1 hnamed.symm
    obtain ⟨m₂, hm₂, hp₂⟩ := hr'.mint hm₁
    obtain rfl := Option.some.inj (hm'.symm.trans hm₂)
    exact ⟨m', hm', hp.pr, hp₂.named (Bool.or_eq_true_iff.1 hn₁)⟩
  | name =>
    obtain ⟨rest, hs⟩ := hs
    obtain ⟨i, s₀, hfee, hr⟩ := Run.read_kept h ha (.addressFee hash) hs
    obtain ⟨f, hf, he⟩ := Option.map_eq_some_iff.1 hfee.symm
    have hfile : Direction.name.OnFile s₀ hash pr := ⟨f, hf, congrArg Prod.fst he⟩
    exact hfile.retained hr
  | melt =>
    obtain ⟨i, s₀, hpr, hr⟩ := Run.read_kept h ha (.meltPr hash) hs
    obtain ⟨m, hm, he⟩ := Option.map_eq_some_iff.1 hpr.symm
    have hfile : Direction.melt.OnFile s₀ hash pr := ⟨m, hm, he⟩
    exact hfile.retained hr

theorem NoteStore.mem_unpublishedZaps {s : NoteStore} {raw : Str}
    (h : (hash, pr, raw) ∈ s.unpublishedZaps) : ∃ m, s.mints.find? hash = some m ∧
      m.pr = pr ∧ m.minted = true ∧ m.zapRequest = some raw := by
  obtain ⟨m, hm, he⟩ := List.mem_filterMap.1 h
  split at he
  · next hc =>
    obtain ⟨z, hz, he⟩ := Option.map_eq_some_iff.1 he
    cases he
    exact ⟨m, Table.find?_of_mem hm, rfl, (Bool.and_eq_true_iff.1 hc).1, hz⟩
  · cases he

theorem NoteStore.mintSettled_of_settled {s s' : NoteStore} {now : ℤ} {derive : Option DeriveNote}
    {out : Option ℤ} (hfile : Direction.note.OnFile s hash pr)
    (ho : s.settleMint now hash derive = .ok (out, s')) : s'.mintSettled hash = true := by
  have htoNat := mintSettled_settleMint ho
  rcases settleMint_ok ho with ⟨rfl, rfl, hall⟩ | ⟨m, -, -, -, rfl, -⟩
  · obtain ⟨m, hm, -, hnamed⟩ := hfile
    rw [mintSettled_of_find? hm]
    refine (hall m hm).resolve_right ?_
    rintro ⟨hid, huser⟩
    simp [hid, huser] at hnamed
  · cases hs : s'.mintSettled hash with
    | true => rfl
    | false => simp [hs] at htoNat

theorem NoteStore.any_addressFee (s : NoteStore) (hash : Str) :
    (s.addressFee hash).any (·.2.2.2.2) = s.feePaid hash := by
  rw [addressFee, Option.any_map]
  rfl

theorem NoteStore.feePaid_of_settled {s s' : NoteStore} {now : ℤ} {out : Option (Str × Bool)}
    (hfile : Direction.name.OnFile s hash pr)
    (ho : s.settleAddressFee now hash = .ok (out, s')) : s'.feePaid hash = true := by
  have hmarked : ∀ f, s.addressFees.find? hash = some f →
      (s.markPaid hash).feePaid hash = true := fun f hf => by
    rw [feePaid, markPaid, Table.find?_modify, hf]
    simp
  rcases settleAddressFee_ok ho with ⟨-, rfl, hall⟩ |
    ⟨f, hf, -, ⟨-, rfl, -⟩ | ⟨-, -, _, -, rfl⟩⟩
  · obtain ⟨f, hf, -⟩ := hfile
    rw [feePaid, hf]
    exact hall f hf
  · exact hmarked f hf
  · exact hmarked f hf

/-- What was shown to be settled is, or the funding source said so. -/
theorem Direction.ShowsSettled.settled (hs : dir.ShowsSettled (acts a.tid w.hist) hash pr)
    (h : Run (law cfg) s w) (ha : Joined w.hist a) : dir.Settled w.st.store hash ∨
      dir = .melt ∧ Heard w a (.isPaymentComplete hash) (.ok true) := by
  cases dir with
  | note =>
    left
    rcases hs with hs | ⟨derive, out, t₀, hs, hshows⟩
    · obtain ⟨i, s₀, hset, hr⟩ := Run.read_kept h ha (.mintSettled hash) hs
      have hset : Direction.note.Settled s₀ hash := hset.symm
      exact hset.retained hr
    · obtain ⟨es, e, rest, hh, hact, rfl⟩ := exists_of_acts hs
      obtain ⟨i, pre, rfl⟩ := h.event_eq ha (hh ▸ List.mem_append_right _ List.mem_cons_self) hact
      obtain ⟨w₀, w₁, h₀, rfl, hn, hf⟩ := h.cut hh
      have hfile := hshows.onFile h₀ (mem_alive (hn.step.alive rfl))
      have hset : Direction.note.Settled w₁.st.store hash :=
        NoteStore.mintSettled_of_settled hfile (Next.write_ok hn).2
      exact hset.retained (Follows.retains hf)
  | name =>
    left
    rcases hs with ⟨fee, hs, hpaid⟩ | ⟨out, t₀, hs, hshows⟩
    · obtain ⟨i, s₀, hset, hr⟩ := Run.read_kept h ha (.addressFee hash) hs
      rw [hset] at hpaid
      have hset : Direction.name.Settled s₀ hash := (s₀.any_addressFee hash).symm.trans hpaid
      exact hset.retained hr
    · obtain ⟨es, e, rest, hh, hact, rfl⟩ := exists_of_acts hs
      obtain ⟨i, pre, rfl⟩ := h.event_eq ha (hh ▸ List.mem_append_right _ List.mem_cons_self) hact
      obtain ⟨w₀, w₁, h₀, rfl, hn, hf⟩ := h.cut hh
      have hfile := hshows.onFile h₀ (mem_alive (hn.step.alive rfl))
      have hset : Direction.name.Settled w₁.st.store hash :=
        NoteStore.feePaid_of_settled hfile (Next.write_ok hn).2
      exact hset.retained (Follows.retains hf)
  | melt =>
    refine hs.imp (fun hs => ?_) fun hs => ⟨rfl, h.heard_of_acts ha hs⟩
    obtain ⟨i, s₀, hset, hr⟩ := Run.read_kept h ha (.meltSettled hash) hs
    have hset : Direction.melt.Settled s₀ hash := hset.symm
    exact hset.retained hr

/-- An actor was told this of a store in which the invoice was not settled. -/
def SawUnsettled (w : World (mint cfg)) (a : Actor mintSig) (dir : Direction) (hash : Str) : Prop :=
  ∃ o i out pre, Event.did (M := mint cfg) a o i out pre ∈ w.hist ∧ ¬ dir.Settled pre.store hash

/-- What was shown not to be settled was not. -/
theorem Direction.ShowsUnsettled.unsettled (hs : dir.ShowsUnsettled (acts a.tid w.hist) hash)
    (h : Run (law cfg) s w) (ha : Joined w.hist a) : SawUnsettled w a dir hash := by
  have told : ∀ (q : Query) {out : q.Out},
      Act.did (S := mintSig) (.read q) out ∈ acts a.tid w.hist →
      (∀ i store, out = q.answer i store → ¬ dir.Settled store hash) →
      SawUnsettled w a dir hash := by
    intro q out hm hq
    obtain ⟨i, pre, he⟩ := h.did_of_acts ha hm
    obtain ⟨w₀, w₁, -, hn, -⟩ := h.past he
    obtain ⟨rfl, -⟩ := hn.exec
    exact ⟨.read q, i, out, _, he, hq i _ (Next.read hn).1⟩
  cases dir with
  | note =>
    refine told (.mintSettled hash) hs fun i store hq hset => ?_
    exact Bool.false_ne_true (hq.trans hset)
  | name =>
    obtain ⟨fee, hm, hpaid⟩ := hs
    refine told (.addressFee hash) hm fun i store hq hset => ?_
    rw [hq] at hpaid
    exact Bool.false_ne_true (hpaid.symm.trans ((store.any_addressFee hash).trans hset))
  | melt =>
    refine told (.meltSettled hash) hs fun i store hq hset => ?_
    exact Bool.false_ne_true (hq.trans hset)

/-- The funding source answered a task with this preimage. -/
def HeardPreimage (w : World (mint cfg)) (a : Actor mintSig) (hash : Str) (preimage : Bytes) :
    Direction → Prop
  | .note | .name => Heard w a (.invoicePreimage hash) (.ok (some preimage))
  | .melt => Heard w a (.paymentPreimage hash) (.ok (some preimage))

end Histories

/-! ## Every run -/

theorem mayCall_invoicePreimage {task : Task} {hash : Str}
    (h : task.mayCall cfg (.invoicePreimage hash)) :
    (∃ baseUrl, task = .request ⟨baseUrl, .verifyInvoice hash⟩ ∧ cfg.verifyEnabled = true) ∨
      task = .publishZapReceipts ∧ cfg.nostrKey.isSome = true := by
  cases task with
  | request r =>
    obtain ⟨baseUrl, endpoint⟩ := r
    obtain ⟨henabled, h⟩ := h
    cases endpoint with
    | verifyInvoice hash' =>
      obtain rfl : hash = hash' := h
      exact .inl ⟨baseUrl, rfl, henabled⟩
    | getPayCallbackForUsername _ _ _ _ k1 => cases k1 <;> exact h.elim
    | getWithdrawCallback _ pr => cases pr <;> exact h.elim
    | _ => exact h.elim
  | publishZapReceipts => exact .inr ⟨rfl, h⟩
  | _ => exact h.elim

theorem mayCall_paymentPreimage {task : Task} {hash : Str}
    (h : task.mayCall cfg (.paymentPreimage hash)) :
    ∃ baseUrl, task = .request ⟨baseUrl, .verifyInvoice hash⟩ ∧ cfg.verifyEnabled = true := by
  cases task with
  | request r =>
    obtain ⟨baseUrl, endpoint⟩ := r
    obtain ⟨henabled, h⟩ := h
    cases endpoint with
    | verifyInvoice hash' =>
      obtain rfl : hash = hash' := h
      exact ⟨baseUrl, rfl, henabled⟩
    | getPayCallbackForUsername _ _ _ _ k1 => cases k1 <;> exact h.elim
    | getWithdrawCallback _ pr => cases pr <;> exact h.elim
    | _ => exact h.elim
  | _ => exact h.elim

variable {s : State} {c : Config (mint cfg)} {a : Actor mintSig} {hash : Str} {pre : State}

/-- **Preimages are asked for once they are due.** In every run from any state, whatever
interleaves, the preimage of an invoice that the mint issued is asked for only to answer `/verify`,
while it is served, about an invoice that is on record as settled at that moment, and not one whose
preimage is its note; or for the receipt of a zap that is on record as settled. That of an invoice
it paid is asked for only to answer `/verify`, about a melt that is on record, and settled there or
by the funding source's word. -/
theorem preimages_disclosed (h : Reach s c) :
    (.called a (.invoicePreimage hash) pre ∈ c.w.hist →
      (∃ baseUrl, a.task = .request ⟨baseUrl, .verifyInvoice hash⟩ ∧ cfg.verifyEnabled = true ∧
        ∃ dir : Direction, dir ≠ .melt ∧ (∃ pr, dir.OnFile pre.store hash pr) ∧
          dir.Settled pre.store hash) ∨
      a.task = .publishZapReceipts ∧ cfg.nostrKey.isSome = true ∧
        ∃ m, pre.store.mints.find? hash = some m ∧ m.minted = true ∧ m.zapRequest.isSome = true) ∧
    (.called a (.paymentPreimage hash) pre ∈ c.w.hist →
      ∃ baseUrl, a.task = .request ⟨baseUrl, .verifyInvoice hash⟩ ∧ cfg.verifyEnabled = true ∧
        (∃ pr, Direction.melt.OnFile pre.store hash pr) ∧
        (Direction.melt.Settled pre.store hash ∨
          Heard c.w a (.isPaymentComplete hash) (.ok true))) := by
  have hr : Run (law cfg) s c.w := Reach.law h
  have hc := h.conduct body_disclosure
  constructor
  · intro he
    have hcall : a.task.mayCall cfg (.invoicePreimage hash) := h.within (body_within cfg) he
    obtain ⟨w₀, w₁, h₀, hn, -, hholds⟩ := hr.conduct_past hc he
    have hrule : MayAskPreimage a.task (acts a.tid w₀.hist) hash := hholds
    have ha : Joined w₀.hist a := mem_alive (hn.step.alive rfl)
    obtain rfl : pre = w₀.st := by
      cases hn.step
      rfl
    rcases mayCall_invoicePreimage hcall with ⟨baseUrl, htask, henabled⟩ | ⟨htask, hkey⟩
    · rw [htask] at hrule
      obtain ⟨dir, pr, hdir, hshows, hsettled⟩ := hrule
      refine .inl ⟨baseUrl, htask, henabled, dir, hdir, ⟨pr, hshows.onFile h₀ ha⟩, ?_⟩
      exact (hsettled.settled h₀ ha).resolve_right fun hm => hdir hm.1
    · rw [htask] at hrule
      obtain ⟨zaps, pr, raw, hread, hz⟩ := hrule
      obtain ⟨i, s₀, rfl, hkept⟩ := Run.read_kept h₀ ha .unpublishedZaps hread
      obtain ⟨m, hm, -, hminted, hzap⟩ := NoteStore.mem_unpublishedZaps hz
      obtain ⟨m', hm', hp⟩ := hkept.mint hm
      exact .inr ⟨htask, hkey, m', hm', hp.minted hminted, by rw [hp.zapRequest, hzap]; rfl⟩
  · intro he
    have hcall : a.task.mayCall cfg (.paymentPreimage hash) := h.within (body_within cfg) he
    obtain ⟨baseUrl, htask, henabled⟩ := mayCall_paymentPreimage hcall
    obtain ⟨w₀, w₁, h₀, hn, hf, pr, hshows, hsettled⟩ := hr.conduct_past hc he
    have ha : Joined w₀.hist a := mem_alive (hn.step.alive rfl)
    obtain rfl : pre = w₀.st := by
      cases hn.step
      rfl
    refine ⟨baseUrl, htask, henabled, ⟨pr, hshows.onFile h₀ ha⟩, ?_⟩
    refine (hsettled.settled h₀ ha).imp_right ?_
    rintro ⟨-, pre, hheard⟩
    exact ⟨pre, (hn.follows.trans hf).mem hheard⟩

/-- The stand-in's answers, with a preimage. -/
def standInReveals : (c : Call) → c.Ans
  | .invoicePreimage _ | .paymentPreimage _ => .ok (some [1])
  | c => standInAnswer [] true c

/-- A note is minted, and its invoice is found to be settled when `/verify` is asked about it. -/
def verifiedRun : List (Choice standInMint) :=
  standInMints 0 "h".toList (standInKey '1') ++ standInAsks 5 (.verifyInvoice "h".toList) ++
    standInGoes 5 1 ++ [.answer 5 standInReveals] ++ standInGoes 2 1 ++
    [.answer 5 standInReveals] ++ standInGoes 1 1

/-- Whether the event asks for this preimage on a request. -/
def asksPreimage (hash : Str) : Event standInMint → Bool
  | .called ⟨_, .request _⟩ (.invoicePreimage hash') _ => hash' = hash
  | _ => false

theorem preimages_disclosed_verified : ∃ c : Config standInMint, Reach State.initial c ∧
    ∃ a pre, Event.called (S := mintSig) a (.invoicePreimage "h".toList) pre ∈ c.w.hist ∧
      ∃ dir : Direction, dir ≠ .melt ∧ dir.Settled pre.store "h".toList := by
  have hrun : (standInRun verifiedRun).any (fun c => c.w.hist.any (asksPreimage "h".toList)) =
      true := by decide +kernel
  obtain ⟨c, hc, h⟩ := exists_standInRun hrun
  obtain ⟨e, he, hasks⟩ := List.any_eq_true.1 h
  unfold asksPreimage at hasks
  split at hasks
  · obtain rfl := of_decide_eq_true hasks
    refine ⟨c, hc, _, _, he, ?_⟩
    rcases (preimages_disclosed hc).1 he with ⟨-, -, -, dir, hdir, -, hsettled⟩ | ⟨htask, -⟩
    · exact ⟨dir, hdir, hsettled⟩
    · cases htask
  · cases hasks

/-- **What `/verify` says is so.** Whatever went on while it was being answered, the invoice in an
answer is on record, and stays so. If the answer is that it is settled, it is on record as settled,
or for a melt the funding source said so; if not, it was not when the store was asked. A preimage is
served of settled invoices only, as the funding source gave it. -/
theorem verify_truthful (h : Reach s c) {baseUrl pr : Str} {settled : Bool}
    {preimage : Option Str} (ha : a.task = .request ⟨baseUrl, .verifyInvoice hash⟩)
    (he : .finished a (.ok (.verified settled preimage pr)) pre ∈ c.w.hist) :
    ∃ dir : Direction, dir.OnFile c.w.st.store hash pr ∧
      (settled = true → dir.Settled c.w.st.store hash ∨
        dir = .melt ∧ Heard c.w a (.isPaymentComplete hash) (.ok true)) ∧
      (settled = false → preimage = none ∧ SawUnsettled c.w a dir hash) ∧
      ∀ p, preimage = some p → ∃ bytes, HeardPreimage c.w a hash bytes dir ∧ p = hex bytes := by
  have hr : Run (law cfg) s c.w := Reach.law h
  have hc := h.conduct body_disclosure
  obtain ⟨w₀, w₁, h₀, hn, hf, hrule⟩ := hr.conduct_past hc he
  have hja : Joined w₀.hist a := mem_alive (hn.step.alive rfl)
  have hkept := Follows.retains (hn.follows.trans hf)
  have hvalue := hrule _ rfl
  rw [ha] at hvalue
  obtain ⟨dir, hshows, hsettled, hunsettled, hpreimage⟩ := hvalue
  refine ⟨dir, (hshows.onFile h₀ hja).retained hkept, fun hs => ?_, fun hs => ?_, fun p hp => ?_⟩
  · refine ((hsettled hs).settled h₀ hja).imp (fun h => h.retained hkept) ?_
    rintro ⟨hdir, pre, hheard⟩
    exact ⟨hdir, pre, (hn.follows.trans hf).mem hheard⟩
  · obtain ⟨hnone, hun⟩ := hunsettled hs
    obtain ⟨o, i, out, pre, hdid, hnot⟩ := hun.unsettled h₀ hja
    exact ⟨hnone, o, i, out, pre, (hn.follows.trans hf).mem hdid, hnot⟩
  · obtain ⟨bytes, hb, hpb⟩ := hpreimage p hp
    refine ⟨bytes, ?_, hpb⟩
    have heard : ∀ {c' : Call} {ans : c'.Ans}, Act.heard (S := mintSig) c' ans ∈
        acts a.tid w₀.hist → Heard c.w a c' ans := fun hm => by
      obtain ⟨pre, hheard⟩ := h₀.heard_of_acts hja hm
      exact ⟨pre, (hn.follows.trans hf).mem hheard⟩
    cases dir <;> exact heard hb

/-- Whether the event is an answer that this invoice is settled, with a preimage. -/
def answersVerified (hash : Str) : Event standInMint → Bool
  | .finished ⟨_, .request ⟨_, .verifyInvoice hash'⟩⟩ (.ok (.verified true (some _) _)) _ =>
    hash' = hash
  | _ => false

theorem verify_truthful_verified : ∃ c : Config standInMint, Reach State.initial c ∧
    ∃ dir : Direction, ∃ a bytes, (dir.Settled c.w.st.store "h".toList ∨
      dir = .melt ∧ Heard c.w a (.isPaymentComplete "h".toList) (.ok true)) ∧
      HeardPreimage c.w a "h".toList bytes dir := by
  have hrun : (standInRun verifiedRun).any (fun c => c.w.hist.any (answersVerified "h".toList)) =
      true := by decide +kernel
  obtain ⟨c, hc, h⟩ := exists_standInRun hrun
  obtain ⟨e, he, hanswers⟩ := List.any_eq_true.1 h
  unfold answersVerified at hanswers
  split at hanswers
  · obtain rfl := of_decide_eq_true hanswers
    obtain ⟨dir, -, hsettled, -, hpreimage⟩ := verify_truthful hc rfl he
    obtain ⟨bytes, hheard, -⟩ := hpreimage _ rfl
    exact ⟨c, hc, dir, _, bytes, hsettled rfl, hheard⟩
  · cases hanswers

end LnurlMint
