import LnurlMint.Redemptions
import LnurlMint.Transfers

/-!
# A mutation that is asked for again

A wallet that got no answer to a rotate, split or merge asks again. The notes it names are spent by
then, and what tells a retry from a conflict is the record of burns: it is kept under a key that
depends on the set of notes alone, and a request that asks for what is on record under its notes'
key is answered from there. Since every note is burned once, a request that names one of these notes
and anything else finds no record that suits it, and ends in an error whatever it read before.

What the record does not cover is the time before the burn. A request looks at its notes one by one
and may settle their mints as it goes, so one that overlaps with the burn may have settled a mint of
its notes, or have ended because the funding source did not answer, and so may one that ends in an
error because of another note that it names. Nor does it cover a retry whose base URL no domain can
be read from: that changes nothing either, but ends in an error.

## Main definitions

* `Commits` — the event that put a burn on record
* `Verifies` — the `k1`s verify against their notes
* `AnswersFor` — a response that certifies the outputs of a burn

## Main results

* `Run.committed` — every burn on record was committed
* `Run.not_excused` — a retry has no excuse for an error
* `Run.unmoved` — after the burn a retry changes nothing
* `Run.rests_of_swap` — a swap puts on record what an answer to it rests on
* `retried_mutation`
* `retry_overlapping` — what the record of burns does not cover does happen
-/

namespace LnurlMint

open Relational Interleave

variable {d : Deps} {cfg : Settings d} {s : State} {w w' : World (mint cfg)} {a : Actor mintSig}
  {k1 k1' ids ids' : List Str} {amount : Option ℤ} {p1 p2 p1' p2' : Option Str} {b b' : BurnRow}

/-! ## What requests name -/

/-- The notes that `k1`s name. -/
theorem Named.unique (h : Named d k1 ids) (h' : Named d k1 ids') : ids = ids' :=
  List.map_injective_iff.2 (Option.some_injective _) (h.symm.trans h')

theorem Named.bar_notMem (h : Named d k1 ids) {id : Str} (hid : id ∈ ids) : '|' ∉ id := by
  obtain ⟨k, -, hk⟩ := h.exists hid
  exact (isHex_of_noteIdOf d hk).bar_notMem

/-- Whoever names a note has it among its notes. -/
theorem Named.mem (h : Named d k1 ids) {k id : Str} (hk : k ∈ k1) (hid : noteIdOf d k = some id) :
    id ∈ ids := by
  have hm : some id ∈ ids.map some := h ▸ hid ▸ List.mem_map_of_mem hk
  obtain ⟨id', hid', he⟩ := List.mem_map.1 hm
  exact Option.some.inj he ▸ hid'

/-- What a request asks for. -/
theorem Asks.unique {o1 o1' : Str} {o2 o2' : Option Str} (h : Asks d amount p1 p2 o1 o2)
    (h' : Asks d amount p1 p2 o1' o2') : o1 = o1' ∧ o2 = o2' := by
  refine ⟨Option.some.inj (h.1.symm.trans h'.1), ?_⟩
  cases amount with
  | none =>
    obtain rfl : o2 = none := h.2
    exact Eq.symm h'.2
  | some x => exact h.2.2.symm.trans h'.2.2

/-! ## The record of a burn -/

/-- The event put this burn on record. -/
def Commits (b : BurnRow) (e : Event (mint cfg)) : Prop :=
  ∃ a u i out pre s', e = .did a (.write u) i (.ok out) pre ∧
    u.apply i pre.store = .ok (out, s') ∧ b ∈ s'.burns.rows ∧
    b.burnKey = NoteStore.burnKey u.swapped ∧ u.swapped ≠ [] ∧ u.swapped.Nodup ∧
    ∀ id ∈ u.swapped, '|' ∉ id

/-- **Every burn on record was committed.** -/
theorem Run.committed (h : Run (law cfg) State.initial w) (hb : b ∈ w.st.store.burns.rows) :
    ∃ es e rest, w.hist = es ++ e :: rest ∧ Commits b e := by
  induction h with
  | start => cases hb
  | @step w w' e h hn ih =>
    have hold : b ∈ w.st.store.burns.rows → ∃ es e' rest, w'.hist = es ++ e' :: rest ∧
        Commits b e' := by
      intro hb
      obtain ⟨es, e', rest, hh, hc⟩ := ih hb
      exact ⟨e :: es, e', rest, by rw [hn.hist, hh]; rfl, hc⟩
    rcases Next.store hn with ⟨-, he⟩ | ⟨a, u, i, r, rfl, hmay, hr⟩ | ⟨-, he⟩
    · exact hold (he ▸ hb)
    · rcases Update.run_eq_some.1 hr with ⟨out, rfl, ho⟩ | ⟨_, -, -, -, he⟩
      · by_cases hold' : b ∈ w.st.store.burns.rows
        · exact hold hold'
        · -- it is on record now
          have hnew : ∀ {now toUsername} {s₀ s' : NoteStore} {burnIds mintNoteIds mintAmounts},
              s₀.Swapped s' now burnIds mintNoteIds mintAmounts toUsername →
              s₀.burns = w.st.store.burns → b ∈ s'.burns.rows →
              b.burnKey = NoteStore.burnKey burnIds ∧ burnIds.Nodup := by
            intro now toUsername s₀ s' burnIds mintNoteIds mintAmounts hs hburns hb
            rcases hs.mem_burns hb with hb | ⟨hk, -⟩
            · exact absurd (hburns ▸ hb) hold'
            · exact ⟨hk, hs.burn_nodup⟩
          have hwell := hmay.wellFormed
          refine ⟨[], _, w.hist, hn.hist, a, u, i, out, _, _, rfl, ho, hb, ?_⟩
          cases u with
          | swap =>
            obtain ⟨s₁, ho, he⟩ := map_eq_ok.1 ho
            cases he
            obtain ⟨hk, hd⟩ :=
              hnew (NoteStore.swapLocked_ok (NoteStore.reported_eq_ok.1 ho)) rfl hb
            exact ⟨hk, hwell.1, hd, hwell.2.1⟩
          | transferToUsername =>
            obtain ⟨row, index, -, -, -, hswap⟩ := NoteStore.transferToUsername_ok ho
            obtain ⟨hk, hd⟩ := hnew hswap rfl hb
            exact ⟨hk, hwell.1, hd, hwell.2⟩
          | _ => exact absurd (NoteStore.burns_eq (by trivial) ho ▸ hb) hold'
      · exact hold (he ▸ hb)
    · rw [he] at hb
      exact hold hb

/-- The notes of an answered request are the burned ones. -/
theorem Rests.burned (hr : Rests cfg w k1 amount p1 p2 ids b) {id : Str} :
    id ∈ b.burned ↔ id ∈ ids :=
  NoteStore.mem_burned (hr.named.ne_nil hr.shape.1) (fun _ hid => hr.named.bar_notMem hid) hr.key

/-- They are spent. -/
theorem Rests.spent (hr : Rests cfg w k1 amount p1 p2 ids b) (hl : w.st.store.Lifecycle) {id : Str}
    (hid : id ∈ ids) : ∃ n, w.st.store.notes.find? id = some n ∧ n.spent = true :=
  hl.burned_spent b hr.mem id (hr.burned.2 hid)

/-- Two answered requests that share a note rest on one burn, and name the same notes. -/
theorem Rests.unique (hr : Rests cfg w k1 amount p1 p2 ids b) (hl : w.st.store.Lifecycle)
    {amount' : Option ℤ} (hr' : Rests cfg w k1' amount' p1' p2' ids' b') {id : Str} (hid : id ∈ ids)
    (hid' : id ∈ ids') : b' = b ∧ ids'.Perm ids := by
  obtain rfl := hl.burned_disjoint b' hr'.mem b hr.mem id (hr'.burned.2 hid') (hr.burned.2 hid)
  refine ⟨rfl, perm_of_sortedJoin (fun _ hid => hr'.named.bar_notMem hid)
    (fun _ hid => hr.named.bar_notMem hid) (hr'.named.ne_nil hr'.shape.1)
    (hr.named.ne_nil hr.shape.1) ?_⟩
  exact hr'.key.symm.trans hr.key

/-- An answer rests on its burn in every world in which it is on record. -/
theorem Rests.of_mem (hr : Rests cfg w k1 amount p1 p2 ids b) (hm : b ∈ w'.st.store.burns.rows) :
    Rests cfg w' k1 amount p1 p2 ids b where
  shape := hr.shape
  named := hr.named
  asks := hr.asks
  mem := hm
  key := hr.key
  amount := hr.amount

theorem Rests.follows (hr : Rests cfg w k1 amount p1 p2 ids b) (hf : Follows (law cfg) w w') :
    Rests cfg w' k1 amount p1 p2 ids b :=
  hr.of_mem (Table.mem_of_find? ((Follows.evolves hf).burn (Table.find?_of_mem hr.mem)))

/-! ## A retry is answered -/

/-- The `k1`s verify against their notes, at every time that the task reads. -/
def Verifies (cfg : Settings d) (w : World (mint cfg)) (a : Actor mintSig) (k1 : List Str) : Prop :=
  ∀ k ∈ k1, ∀ parsed t n, Spend.parse d k = some parsed → SawTime w a t →
    w.st.store.notes.find? parsed.noteId = some n →
      Spend.verify d parsed t n.lockedAt cfg.spendDomains = none

theorem Verifies.before (h : Verifies cfg w' a k1) (hf : Follows (law cfg) w w') :
    Verifies cfg w a k1 := by
  intro k hk parsed t n hp ⟨i, pre, ht⟩ hn
  obtain ⟨n', hn', -, hlocked, -⟩ := (Follows.evolves hf).note hn
  exact hlocked ▸ h k hk parsed t n' hp ⟨i, pre, hf.mem ht⟩ hn'

/-- Settling the mint of a note that is on file succeeds, and does nothing. -/
theorem NoteStore.Credits.settleMint_onFile {s : NoteStore} (hc : s.Credits) {hash id : Str}
    {m : MintRow} {n : NoteRow} (hm : s.mints.find? hash = some m) (hid : m.noteId = some id)
    (hn : s.notes.find? id = some n) (now : ℤ) (derive : Option DeriveNote) :
    s.settleMint now hash derive = .ok (none, s) := by
  have hminted : m.minted = true := by
    rw [← Bool.not_eq_false]
    intro hp
    rw [hc.free hm hp hid] at hn
    cases hn
  obtain ⟨out, s', ho, hold, -⟩ := hc.settleMint_named hm hid now derive
  obtain ⟨rfl, rfl⟩ := hold hminted
  exact ho

/-- **A retry has no excuse for an error**, when its notes' burn is on record. -/
theorem Run.not_excused (h : Run (law cfg) State.initial w)
    (hr : Rests cfg w k1 amount p1 p2 ids b) {baseUrl : Str} (hk : a.task.spends = some k1')
    (hnamed : Named d k1' ids') (hperm : ids'.Perm ids) (hasks : Asks d amount p1' p2' b.id b.id2)
    (hverify : Verifies cfg w a k1')
    (hanswered : ∀ hash, ¬ Heard w a (.isInvoiceSettled hash) (.error ()))
    (hdomain : ¬ Domainless cfg baseUrl) (hsigned : ¬ BadSignature cfg w a) :
    ¬ Excuse cfg w a baseUrl k1' amount p1' p2' := by
  have hl := Run.lifecycle h .empty
  intro hx
  cases hx with
  | shape hs =>
    obtain ⟨hne, hle, hsunset⟩ := hr.shape
    have hlen : k1'.length = k1.length := by
      rw [← hnamed.length_eq, ← hr.named.length_eq, hperm.length_eq]
    refine hs ⟨fun he => hne ?_, hlen ▸ hle, hsunset⟩
    rw [← List.length_eq_zero_iff, ← hlen, he, List.length_nil]
  | outputs hno => exact hno _ _ hasks
  | unparsed k hk hnone =>
    have hm : noteIdOf d k ∈ ids'.map some := hnamed ▸ List.mem_map_of_mem hk
    obtain ⟨id, -, he⟩ := List.mem_map.1 hm
    rw [hnone] at he
    cases he
  | missing k id hk hid hnone =>
    obtain ⟨n, hn, -⟩ := hr.spent hl (hperm.mem_iff.1 (hnamed.mem hk hid))
    rw [hnone] at hn
    cases hn
  | unverified k parsed t n hk hp ht hn hv => exact hv (hverify k hk parsed t n hp ht hn)
  | unanswered hash hh => exact hanswered hash hh
  | unsettled hash derive e hw =>
    obtain ⟨i, pre, he⟩ := hw
    obtain ⟨w₀, w₁, h₀, hn, -⟩ := h.past he
    obtain ⟨hu, rfl, -⟩ := Next.write hn
    obtain ⟨_, -, id, m, -, hm, hid⟩ := Run.settles_named h₀ hk hu
    obtain ⟨⟨out, ⟨⟩⟩, -⟩ := Run.attempted h he hm hid
  | fresh ids₂ o1 o2 hnamed₂ ho hnone =>
    obtain rfl := hnamed₂.unique hnamed
    obtain ⟨rfl, rfl⟩ := ho.unique hasks
    have hkey : NoteStore.burnKey ids₂ = b.burnKey := (sortedJoin_congr hperm).trans hr.key.symm
    rw [NoteStore.findBurn, hkey, Table.find?_of_mem hr.mem] at hnone
    simp [replayed, hr.amount] at hnone
  | domain hd => exact hdomain hd
  | unsigned hbad => exact hsigned hbad

/-! ## A retry changes nothing -/

/-- What was committed stays on record. -/
theorem Commits.recorded {e : Event (mint cfg)} {es rest : List (Event (mint cfg))}
    (hc : Commits b e) (h : Run (law cfg) s w) (hh : w.hist = es ++ e :: rest) :
    b ∈ w.st.store.burns.rows := by
  obtain ⟨a, u, i, out, pre, s', rfl, ho, hb, -⟩ := hc
  obtain ⟨w₀, w₁, -, -, hn, hf⟩ := h.cut hh
  obtain ⟨-, rfl, -⟩ := Next.write hn
  have hstore : s' = w₁.st.store := by
    cases ho.symm.trans (Next.write_ok hn).2
    rfl
  exact Table.mem_of_find? ((Follows.evolves hf).burn (Table.find?_of_mem (hstore ▸ hb)))

/-- **After the burn a retry changes nothing**: its notes are on file and spent, so there is nothing
to settle and nothing to swap. -/
theorem Run.unmoved (h : Run (law cfg) State.initial w) (hr : Rests cfg w k1 amount p1 p2 ids b)
    (hk : a.task.spends = some k1') (hnamed : Named d k1' ids') (hperm : ids'.Perm ids) {o : Op}
    {i : Input} {out : o.Out} {pre : State} (hn : Next (law cfg) w (.did a o i out pre) w')
    (hown : ∀ u, o = .write u → u.Settles ∨
      ∃ burnIds mintNoteIds mintAmounts, u = .swap burnIds mintNoteIds mintAmounts) :
    w'.st.store = w.st.store := by
  have hl := Run.lifecycle h .empty
  rcases Next.store hn with ⟨-, he⟩ | ⟨_, u, _, r, he, hu, hrun⟩ | ⟨he, -⟩
  · exact he
  · cases he
    rcases Update.run_eq_some.1 hrun with ⟨out, rfl, ho⟩ | ⟨_, -, -, -, he⟩
    · rcases hown u rfl with hsettles | ⟨burnIds, mintNoteIds, mintAmounts, rfl⟩
      · cases u with
        | settleMint hash derive =>
          obtain ⟨k, hkm, id, m, hid, hm, hmid⟩ := Run.settles_named h hk hu
          obtain ⟨n, hfind, -⟩ := hr.spent hl (hperm.mem_iff.1 (hnamed.mem hkm hid))
          have hsame := (Run.credits h .empty).settleMint_onFile hm hmid hfind i.now derive
          exact (Prod.mk.inj (Except.ok.inj (ho.symm.trans hsame))).2
        | settleAddressFee => exact hu.1.elim _ hk
        | _ => exact hsettles.elim
      · -- its notes are spent
        obtain ⟨_, _, _, _, _, _, _, ht, hshape, hnamed₂, -⟩ := hu
        rw [ht] at hk
        cases hk
        obtain rfl := hnamed₂.unique hnamed
        obtain ⟨id, hid⟩ := List.exists_mem_of_ne_nil burnIds (hnamed.ne_nil hshape.1)
        obtain ⟨n, hfind, hs⟩ := hr.spent hl (hperm.mem_iff.1 hid)
        rw [(Update.burnable hrun hid).spent_eq_false hfind] at hs
        cases hs
    · exact he
  · cases he

/-- A mint that a task finds pending has no note yet. -/
theorem Run.unissued (h : Run (law cfg) State.initial w) {id : Str} {x : Str × ℤ} {i : Input}
    {pre : State}
    (hn : Next (law cfg) w (.did a (.read (.pendingMintByNoteId id)) i (some x) pre) w') :
    w.st.store.notes.find? id = none := by
  obtain ⟨m, hm, hid, hp⟩ := NoteStore.pendingMintByNoteId_eq_some (Next.read hn).1.symm
  exact (Run.credits h .empty).free hm hp hid

/-- A request that heard no answer about a mint of burned notes was there before they were
burned. -/
theorem Run.arrived_before (h : Run (law cfg) State.initial w) {e : Event (mint cfg)}
    {es rest : List (Event (mint cfg))} (hc : Commits b e) (hh : w.hist = es ++ e :: rest)
    (hr : Rests cfg w k1 amount p1 p2 ids b) (hk : a.task.spends = some k1')
    (hnamed : Named d k1' ids') (hperm : ids'.Perm ids) {hash : Str} {ans : Except Unit Bool}
    (hheard : Heard w a (.isInvoiceSettled hash) ans) : .arrived a ∈ rest := by
  -- it had looked for the mint of such a note, and found it pending
  obtain ⟨pre, hanswered⟩ := hheard
  obtain ⟨pre', hcall⟩ := h.called_of_answered hanswered
  obtain ⟨w₀, w₁, h₀, hn, hf⟩ := h.past hcall
  have hmay : AsksAbout w₀ a hash := hn.lawful.2
  obtain ⟨k, hkm, id, amountMsat, hid, i, pre'', hsaw⟩ := hmay k1' hk
  have hsaw := (hn.follows.trans hf).mem hsaw
  have hmem : id ∈ ids := hperm.mem_iff.1 (hnamed.mem hkm hid)
  rw [hh] at hsaw
  have hrest : .did a (.read (.pendingMintByNoteId id)) i (some (hash, amountMsat)) pre'' ∈
      rest := by
    rcases List.mem_append.1 hsaw with hsaw | hsaw
    · -- by then the note was on file
      obtain ⟨later, between, rfl⟩ := List.append_of_mem hsaw
      rw [List.append_assoc, List.cons_append] at hh
      obtain ⟨w₂, w₃, h₂, hh₂, hn₂, -⟩ := h.cut hh
      obtain ⟨n, hfind, -⟩ := (hr.of_mem (hc.recorded h₂ hh₂)).spent (Run.lifecycle h₂ .empty) hmem
      rw [Run.unissued h₂ hn₂] at hfind
      cases hfind
    · refine (List.mem_cons.1 hsaw).resolve_left fun he => ?_
      obtain ⟨_, _, _, _, _, _, he', -⟩ := hc
      cases he.trans he'
  obtain ⟨w₂, w₃, h₂, hrest', -⟩ := h.cut hh
  rw [← hrest'] at hrest ⊢
  refine (h₂.joined hrest rfl).resolve_right ?_
  rintro ⟨x, hspawn⟩
  obtain ⟨_, _, -, hn, -⟩ := h₂.past hspawn
  obtain ⟨_, _, _, _, _, _, _, _, _, _, _, _, ht, -⟩ := hn.lawful
  rw [ht] at hk
  cases hk

/-- A response that certifies the outputs of a burn. -/
def AnswersFor (cfg : Settings d) (w : World (mint cfg)) (a : Actor mintSig) (resp : Response)
    (b : BurnRow) : Prop :=
  ∃ c c2, resp = .withdrawSuccess c c2 none none ∧ Certified cfg w a c b.id b.amount1Msat ∧
    (b.id2 = none → c2 = none) ∧
    ∀ id2 amount2Msat, b.id2 = some id2 → b.amount2Msat = some amount2Msat →
      Certified cfg w a c2 id2 amount2Msat

/-- A rotate, split or merge writes nothing but settlements and swaps. -/
theorem Next.ownWrites {baseUrl : Str} {resp : Response} {pre : State}
    (ha : a.task = .request ⟨baseUrl, .getWithdrawCallback k1 none amount p1 p2⟩)
    (hn : Next (law cfg) w (.finished a (.ok resp) pre) w') : OwnWrites cfg w a := by
  have hrested := hn.lawful.2.2 resp rfl
  rw [Rested, ha] at hrested
  obtain ⟨-, -, hanswer, -⟩ := hrested
  exact (hanswer rfl).2

/-- What an answered request rests on. -/
theorem Run.rests {baseUrl : Str} {resp : Response} {pre : State}
    (ha : a.task = .request ⟨baseUrl, .getWithdrawCallback k1 none amount p1 p2⟩)
    (hn : Next (law cfg) w (.finished a (.ok resp) pre) w') (hok : ∀ reason, resp ≠ .error reason) :
    pre = w.st ∧ ∃ ids b, Rests cfg w k1 amount p1 p2 ids b ∧ AnswersFor cfg w a resp b := by
  have hrested := hn.lawful.2.2 resp rfl
  rw [Rested, ha] at hrested
  obtain ⟨-, -, hanswer, -⟩ := hrested
  obtain ⟨hstep, -, -⟩ := hn
  obtain ⟨⟨c, c2, ids, b, hresp, hrests, hc, hnone, hc2, -⟩ | ⟨⟨reason, hresp⟩, -⟩, -⟩ :=
    hanswer rfl
  · refine ⟨?_, ids, b, hrests, c, c2, hresp, hc, hnone, hc2⟩
    cases hstep
    rfl
  · exact absurd hresp (hok reason)

/-- A request to rotate, split or merge has an excuse when it is answered with an error. -/
theorem Next.excuse {baseUrl : Str} {reason : String} {pre : State}
    (ha : a.task = .request ⟨baseUrl, .getWithdrawCallback k1 none amount p1 p2⟩)
    (hn : Next (law cfg) w (.finished a (.ok (.error reason)) pre) w') :
    Excuse cfg w a baseUrl k1 amount p1 p2 := by
  have hrested := hn.lawful.2.2 _ rfl
  rw [Rested, ha] at hrested
  obtain ⟨-, -, hanswer, -⟩ := hrested
  obtain ⟨⟨_, _, _, _, hresp, -⟩ | ⟨-, hx⟩, -⟩ := hanswer rfl
  · cases hresp
  · exact hx

/-- No request is answered otherwise whose base URL no domain can be read from. -/
theorem Next.error_of_domainless {baseUrl : Str} {resp : Response} {pre : State}
    (ha : a.task = .request ⟨baseUrl, .getWithdrawCallback k1 none amount p1 p2⟩)
    (hn : Next (law cfg) w (.finished a (.ok resp) pre) w') (hd : Domainless cfg baseUrl) :
    ∃ reason, resp = .error reason := by
  have hrested := hn.lawful.2.2 resp rfl
  rw [Rested, ha] at hrested
  by_contra hok
  exact hrested.2.1 (fun reason he => hok ⟨reason, he⟩) hd

/-- What a request swaps is put on record. -/
theorem Run.rests_of_swap (h : Run (law cfg) s w) {baseUrl : Str}
    (ha : a.task = .request ⟨baseUrl, .getWithdrawCallback k1 none amount p1 p2⟩)
    {burnIds mintNoteIds : List Str} {mintAmounts : List ℤ}
    (hw : Wrote w a (.swap burnIds mintNoteIds mintAmounts) (.ok ())) :
    ∃ b, Rests cfg w k1 amount p1 p2 burnIds b := by
  obtain ⟨i, pre, he⟩ := hw
  obtain ⟨w₀, w₁, h₀, hn, hf⟩ := h.past he
  obtain ⟨⟨_, _, _, _, _, o1, o2, ht, hshape, hnamed, hasks, rfl, hamounts, -⟩, ho⟩ :=
    Next.write_ok hn
  cases ha.symm.trans ht
  obtain ⟨s', ho, hs⟩ := map_eq_ok.1 ho
  obtain ⟨id, ids', amt, amts, hid, rfl, hburns⟩ :=
    (NoteStore.swapLocked_ok (NoteStore.reported_eq_ok.1 ho)).burns
  cases hid
  have hmem := (Table.mem_insert? hburns).2 (.inr rfl)
  rw [(Prod.mk.inj hs).2] at hmem
  have hhead : o2.toList.head? = o2 := by cases o2 <;> rfl
  rw [hhead] at hmem
  have hamount : (if o2.isSome then some amt else none) = amount := by
    cases amount with
    | none => rw [show o2 = none from hasks.2, Option.isSome_none, if_neg Bool.false_ne_true]
    | some amount =>
      obtain ⟨-, -, hamounts⟩ := hamounts
      obtain ⟨rfl, -⟩ := List.cons.inj hamounts
      rw [if_pos hasks.2.1]
  have hrests : Rests cfg w₁ k1 amount p1 p2 burnIds
      ⟨NoteStore.burnKey burnIds, o1, o2, amt, amts.head?, none⟩ :=
    ⟨hshape, hnamed, hasks, hmem, rfl, hamount⟩
  exact ⟨_, hrests.follows hf⟩

/-- **A mutation that is asked for again is answered again, and done once.** A rotate, split or
merge that is answered OK certifies the outputs of a burn of its notes, which was committed before.
A request that ends after that and names the same notes, each once, by `k1`s that verify, for the
same outputs, changes nothing from then on; and it is answered with certificates of the same outputs
if a domain can be read from its base URL, and with an error if none can, as long as no question it
put about a mint of theirs before the burn is answered by an exception. And a request that names a
burned note, now or then, and asks for anything else, is answered with an error and settles paid
mints of its own notes at most. -/
theorem retried_mutation (hbits : ConvertsBytes d) {c : Config (mint cfg)}
    (h : Reach State.initial c) (hsign : ∀ e ∈ c.w.hist, signs e = true)
    {later before : List (Event (mint cfg))} {baseUrl : Str} {resp : Response} {pre : State}
    (ha : a.task = .request ⟨baseUrl, .getWithdrawCallback k1 none amount p1 p2⟩)
    (hh : c.w.hist = later ++ .finished a (.ok resp) pre :: before)
    (hok : ∀ reason, resp ≠ .error reason) :
    ∃ ids b es e rest, Named d k1 ids ∧ ids.Nodup ∧ Asks d amount p1 p2 b.id b.id2 ∧
      AnswersFor cfg ⟨pre, before⟩ a resp b ∧ before = es ++ e :: rest ∧ Commits b e ∧
      b.burnKey = NoteStore.burnKey ids ∧
      (∀ a' baseUrl' k1' p1' p2' ids' r' pre' later' between,
        a'.task = .request ⟨baseUrl', .getWithdrawCallback k1' none amount p1' p2'⟩ →
        c.w.hist = later' ++ .finished a' r' pre' :: (between ++ e :: rest) →
        Named d k1' ids' → ids'.Perm ids → Asks d amount p1' p2' b.id b.id2 →
        Verifies cfg c.w a' k1' →
        (.arrived a' ∈ rest → ∀ hash pre,
          .answered a' (.isInvoiceSettled hash) (.error ()) pre ∉ c.w.hist) →
        (∀ dom, mintDomain cfg baseUrl' = .ok dom →
          ∃ resp', r' = .ok resp' ∧ AnswersFor cfg ⟨pre', between ++ e :: rest⟩ a' resp' b) ∧
        (Domainless cfg baseUrl' → ∃ reason, r' = .ok (.error reason)) ∧
        ∀ o i out pre s', .did a' o i out pre ∈ between → exec o i pre = some (out, s') →
          s'.store = pre.store) ∧
      ∀ a' baseUrl' k1' amount' p1' p2' r' pre' later' before',
        a'.task = .request ⟨baseUrl', .getWithdrawCallback k1' none amount' p1' p2'⟩ →
        c.w.hist = later' ++ .finished a' r' pre' :: before' →
        (∃ k ∈ k1', ∃ id ∈ ids, noteIdOf d k = some id) →
        ¬ ((∃ ids', Named d k1' ids' ∧ ids'.Perm ids) ∧ amount' = amount ∧
          Asks d amount p1' p2' b.id b.id2) →
        (∃ reason, r' = .ok (.error reason)) ∧ Spared a' before' [] ∧
          ∀ hash derive i r pre, .did a' (.write (.settleMint hash derive)) i r pre ∈ before' →
            ∃ k ∈ k1', ∃ id m, noteIdOf d k = some id ∧
              pre.store.mints.find? hash = some m ∧ m.noteId = some id := by
  have hrun : Run (law cfg) State.initial c.w := Reach.law h
  have hsigned {w : World (mint cfg)} (hf : Follows (law cfg) w c.w) :
      ∀ e ∈ w.hist, signs e = true := fun e he => hsign e (hf.mem he)
  obtain ⟨w₀, w₁, h₀, rfl, hn, hf⟩ := hrun.cut hh
  have hf := hn.follows.trans hf
  obtain ⟨rfl, ids, b, hrests, hanswers⟩ := Run.rests ha hn hok
  obtain ⟨es, e, rest, hes, hc⟩ := Run.committed h₀ hrests.mem
  have hnodup : ids.Nodup := by
    obtain ⟨_, _, _, _, _, _, -, -, -, hkey, hne, hd, hbar⟩ := hc
    refine (perm_of_sortedJoin hbar (fun _ hid => hrests.named.bar_notMem hid) hne
      (hrests.named.ne_nil hrests.shape.1) ?_).nodup_iff.1 hd
    exact hkey.symm.trans hrests.key
  refine ⟨ids, b, es, e, rest, hrests.named, hnodup, hrests.asks, hanswers, hes, hc, hrests.key,
    ?_, ?_⟩
  · intro a' baseUrl' k1' p1' p2' ids' r' pre' later' between ha' hh' hnamed hperm hasks hverify
      hanswered
    have hk' : a'.task.spends = some k1' := by
      rw [ha']
      rfl
    obtain ⟨w₂, w₃, h₂, hh₂, hn₂, hf₂⟩ := hrun.cut hh'
    have hf₂ := hn₂.follows.trans hf₂
    obtain ⟨-, ⟨resp', rfl⟩, -⟩ := hn₂.lawful
    have hrests₂ : Rests cfg w₂ k1 amount p1 p2 ids b := hrests.of_mem (hc.recorded h₂ hh₂)
    refine ⟨fun dom hdom => ?_, fun hd => ?_, fun o i out pre s' he hx => ?_⟩
    · have hok' : ∀ reason, resp' ≠ .error reason := by
        rintro reason rfl
        refine Run.not_excused h₂ hrests₂ hk' hnamed hperm hasks (hverify.before hf₂) ?_
          (not_domainless_iff.2 ⟨dom, hdom⟩) ?_ (Next.excuse ha' hn₂)
        · rintro hash ⟨pre, he⟩
          exact hanswered (Run.arrived_before h₂ hc hh₂ hrests₂ hk' hnamed hperm ⟨pre, he⟩) hash
            pre (hf₂.mem he)
        · exact hbits.not_badSignature fun _ _ _ _ _ _ he => signable_of_signs (hsigned hf₂) he
      obtain ⟨rfl, ids₂, b₂, hrests', hanswers'⟩ := Run.rests ha' hn₂ hok'
      obtain rfl := hrests'.named.unique hnamed
      obtain ⟨id, hid⟩ := List.exists_mem_of_ne_nil ids₂ (hnamed.ne_nil hrests'.shape.1)
      obtain ⟨rfl, -⟩ :=
        hrests₂.unique (Run.lifecycle h₂ .empty) hrests' (hperm.mem_iff.1 hid) hid
      exact ⟨resp', rfl, hh₂ ▸ hanswers'⟩
    · obtain ⟨reason, rfl⟩ := Next.error_of_domainless ha' hn₂ hd
      exact ⟨reason, rfl⟩
    have hown := Next.ownWrites ha' hn₂
    obtain ⟨x, y, rfl⟩ := List.append_of_mem he
    rw [List.append_assoc, List.cons_append] at hh₂
    obtain ⟨w₄, w₅, h₄, hh₄, hn₄, hf₄⟩ := h₂.cut hh₂
    have hsame : w₅.st.store = w₄.st.store := by
      refine Run.unmoved h₄ (hrests.of_mem (hc.recorded h₄ hh₄)) hk' hnamed hperm hn₄ ?_
      rintro u rfl
      exact hown u out ⟨i, pre, by rw [hh₂]; simp⟩
    obtain ⟨rfl, hx'⟩ := hn₄.exec
    obtain ⟨-, rfl⟩ := Prod.mk.inj (Option.some.inj (hx.symm.trans hx'))
    exact hsame
  · intro a' baseUrl' k1' amount' p1' p2' r' pre' later' before' ha' hh' ⟨k, hk, id, hid, hkid⟩
      hdiffers
    obtain ⟨w₂, w₃, h₂, rfl, hn₂, hf₂⟩ := hrun.cut hh'
    have hf₂ := hn₂.follows.trans hf₂
    obtain ⟨-, ⟨resp', rfl⟩, -⟩ := hn₂.lawful
    have hk' : a'.task.spends = some k1' := by
      rw [ha']
      rfl
    -- no burn that it could rest on is on record
    have hunrested : ∀ ids' b', ¬ Rests cfg w₂ k1' amount' p1' p2' ids' b' := by
      intro ids' b' hrests'
      obtain ⟨rfl, hperm⟩ := (hrests.follows hf).unique (Run.lifecycle hrun .empty)
        (hrests'.follows hf₂) hid (hrests'.named.mem hk hkid)
      have hamount : amount' = amount := hrests'.amount.symm.trans hrests.amount
      exact hdiffers ⟨⟨ids', hrests'.named, hperm⟩, hamount, hamount ▸ hrests'.asks⟩
    have herr : ∃ reason, resp' = .error reason := by
      by_contra hok'
      obtain ⟨-, ids', b', hrests', -⟩ := Run.rests ha' hn₂ fun reason he => hok' ⟨reason, he⟩
      exact hunrested ids' b' hrests'
    obtain ⟨reason, rfl⟩ := herr
    have hown := Next.ownWrites ha' hn₂
    refine ⟨⟨reason, rfl⟩, Run.all_spared h₂ hk' (hown.not_spawned h₂) ?_, ?_⟩
    · intro o i out pre he
      by_cases hswap : ∃ burnIds mintNoteIds mintAmounts,
          o = .write (.swap burnIds mintNoteIds mintAmounts)
      · obtain ⟨burnIds, mintNoteIds, mintAmounts, rfl⟩ := hswap
        rcases out with e | out
        · exact .inr ⟨e, rfl⟩
        · obtain ⟨b', hrests'⟩ := Run.rests_of_swap h₂ ha' ⟨i, pre, he⟩
          exact absurd hrests' (hunrested burnIds b')
      · exact hown.void h₂ hk' he fun burnIds mintNoteIds mintAmounts ho =>
          hswap ⟨burnIds, mintNoteIds, mintAmounts, ho⟩
    · intro hash derive i r pre he
      obtain ⟨w₄, w₅, h₄, hn₄, -⟩ := h₂.past he
      obtain ⟨hu, rfl, -⟩ := Next.write hn₄
      exact Run.settles_named h₄ hk' hu

/-- A request to merge notes into another is answered, with an error or not. -/
def merges (k1 : List Str) (p1 : Str) (isError : Bool) (tid : ℕ) : Event (mint cfg) → Bool
  | .finished ⟨t, .request ⟨_, .getWithdrawCallback k none none (some p) none⟩⟩ (.ok resp) _ =>
    t = tid && k = k1 && p = p1 && resp.isError = isError
  | _ => false

theorem merges_eq_true {p : Str} {isError : Bool} {tid : ℕ} {e : Event (mint cfg)}
    (h : merges k1 p isError tid e = true) : ∃ baseUrl resp pre, e = .finished
      ⟨tid, .request ⟨baseUrl, .getWithdrawCallback k1 none none (some p) none⟩⟩ (.ok resp) pre ∧
      resp.isError = isError := by
  unfold merges at h
  split at h
  · simp only [Bool.and_eq_true, decide_eq_true_eq] at h
    obtain ⟨⟨⟨rfl, rfl⟩, rfl⟩, he⟩ := h
    exact ⟨_, _, _, rfl, he⟩
  · cases h

/-- The source answers nothing about invoices. -/
def standInSilent : (c : Call) → c.Ans
  | .isInvoiceSettled _ => .error ()
  | c => standInAnswer [] false c

/-- Two paid notes are asked to be merged into a third by four requests at once, which all ask about
the first note. The last hears nothing, and ends. The second hears that it is paid, settles its mint
and asks about the other note. The first hears the same of both and merges them. Now the third hears
nothing, and the second goes on. -/
def overlappingRun : List (Choice standInMint) :=
  standInMints 0 "h".toList (standInKey '1') ++ standInMints 5 "g".toList (standInKey '2') ++
    ([10, 14, 18, 22].map fun tid => standInAsks tid (.getWithdrawCallback
      [standInKey '1', standInKey '2'] none none (some (standInKey '3')) none) ++
        standInGoes 3 1).flatten ++
    [.answer 22 standInSilent] ++ standInGoes 2 1 ++
    [.answer 14 (standInAnswer [] true)] ++ standInGoes 7 1 ++
    [.answer 10 (standInAnswer [] true)] ++ standInGoes 7 1 ++
    [.answer 10 (standInAnswer [] true)] ++ standInGoes 7 1 ++
    [.answer 18 standInSilent] ++ standInGoes 2 1 ++
    [.answer 14 (standInAnswer [] true)] ++ standInGoes 6 1 ++
    [.answer 14 (standInAnswer [] true)] ++ standInGoes 1 1 ++
    [.answer 10 (standInAnswer [] true)] ++ standInGoes 1 1

theorem retried_mutation_merge : ∃ c : Config standInMint, Reach State.initial c ∧
    ∃ b, ∃ e ∈ c.w.hist, Commits b e ∧ b.id = standInKey '3' := by
  have hrun : (standInRun overlappingRun).any (fun c => c.w.hist.all signs &&
      (c.w.hist.any (merges [standInKey '1', standInKey '2'] (standInKey '3') false 10) &&
      decide (Spend.decodeNote .standIn (standInKey '3') = some (standInKey '3')))) = true := by
    decide +kernel
  obtain ⟨c, hc, h⟩ := exists_standInRun hrun
  simp only [Bool.and_eq_true, List.all_eq_true, List.any_eq_true, decide_eq_true_eq] at h
  obtain ⟨hsign, ⟨e, he, hm⟩, hp⟩ := h
  obtain ⟨baseUrl, resp, pre, rfl, hok⟩ := merges_eq_true hm
  obtain ⟨later, before, hh⟩ := List.append_of_mem he
  obtain ⟨ids, b, es, e, rest, -, -, hasks, -, hes, hcommits, -⟩ :=
    retried_mutation (fun _ => Option.some_ne_none _) hc hsign rfl hh fun reason he => by
        rw [he] at hok
        cases hok
  refine ⟨c, hc, b, e, by rw [hh, hes]; simp, hcommits, ?_⟩
  exact Option.some.inj (hasks.1.symm.trans hp)

/-- A paid note is rotated, and asked to be merged with another paid note. -/
def conflictingRun : List (Choice standInMint) :=
  redeemedRun ++ standInMints 19 "g".toList (standInKey '3') ++
    standInAsks 24 (.getWithdrawCallback [standInKey '1', standInKey '3'] none none
      (some (standInKey '4')) none) ++ standInGoes 7 1 ++
    [.answer 24 (standInAnswer [] true)] ++ standInGoes 6 1

/-- A note is rotated, and asked to be rotated again at a base URL that cannot be read. -/
def unreadableRun : List (Choice (mint Settings.unbracketed)) :=
  standInMints 0 "h".toList (standInKey '1') ++
    standInAsks 5 (.getWithdrawCallback [standInKey '1'] none none (some (standInKey '2')) none) ++
    standInGoes 3 1 ++ [.answer 5 (standInAnswer [] true)] ++ standInGoes 7 1 ++
    [.answer 5 (standInAnswer [] true)] ++ standInGoes 1 1 ++
    [.arrive (.request ⟨"http://[/".toList,
      .getWithdrawCallback [standInKey '1'] none none (some (standInKey '2')) none⟩), .wake 19] ++
    standInGoes 7 1

/-- **Retries that overlap with a burn may fail or settle, so may a request that ends in an error,
and a retry whose base URL cannot be read fails.** Of four requests for the same merge one makes it,
one settles a mint before it is made, and two end in errors, before it and after; a request that
names a burned note settles the mint of another before it ends; and a rotation that was answered OK
is asked for again, and ends in an error. -/
theorem retry_overlapping :
    (∃ c : Config standInMint, Reach State.initial c ∧ ∃ k1 p,
      (∃ e ∈ c.w.hist, merges k1 p false 10 e = true) ∧
      (∃ e ∈ c.w.hist, merges k1 p false 14 e = true) ∧
      (∃ hash, ∃ e ∈ c.w.hist, credits hash e = true ∧ e.by? = some 14) ∧
      (∃ e ∈ c.w.hist, merges k1 p true 18 e = true) ∧
      ∃ e ∈ c.w.hist, merges k1 p true 22 e = true) ∧
    (∃ c : Config standInMint, Reach State.initial c ∧ ∃ k k' p p',
      (∃ e ∈ c.w.hist, merges [k] p false 5 e = true) ∧
      (∃ e ∈ c.w.hist, merges [k, k'] p' true 24 e = true) ∧
      ∃ hash, ∃ e ∈ c.w.hist, credits hash e = true ∧ e.by? = some 24) ∧
    ∃ c : Config (mint Settings.unbracketed), Reach State.initial c ∧ ∃ k p,
      (∃ e ∈ c.w.hist, merges [k] p false 5 e = true) ∧
      ∃ e ∈ c.w.hist, merges [k] p true 19 e = true := by
  refine ⟨?_, ?_, ?_⟩
  · have hrun : (standInRun overlappingRun).any (fun c =>
        c.w.hist.any (merges [standInKey '1', standInKey '2'] (standInKey '3') false 10) &&
        c.w.hist.any (merges [standInKey '1', standInKey '2'] (standInKey '3') false 14) &&
        c.w.hist.any (fun e => credits "h".toList e && e.by? = some 14) &&
        c.w.hist.any (merges [standInKey '1', standInKey '2'] (standInKey '3') true 18) &&
        c.w.hist.any (merges [standInKey '1', standInKey '2'] (standInKey '3') true 22)) =
        true := by
      decide +kernel
    obtain ⟨c, hc, h⟩ := exists_standInRun hrun
    simp only [Bool.and_eq_true, List.any_eq_true, decide_eq_true_eq] at h
    obtain ⟨⟨⟨⟨hfirst, hsecond⟩, hsettled⟩, hthird⟩, hlast⟩ := h
    exact ⟨c, hc, _, _, hfirst, hsecond, ⟨_, hsettled⟩, hthird, hlast⟩
  · have hrun : (standInRun conflictingRun).any (fun c =>
        c.w.hist.any (merges [standInKey '1'] (standInKey '2') false 5) &&
        c.w.hist.any (merges [standInKey '1', standInKey '3'] (standInKey '4') true 24) &&
        c.w.hist.any (fun e => credits "g".toList e && e.by? = some 24)) = true := by
      decide +kernel
    obtain ⟨c, hc, h⟩ := exists_standInRun hrun
    simp only [Bool.and_eq_true, List.any_eq_true, decide_eq_true_eq] at h
    obtain ⟨⟨hfirst, hlast⟩, hsettled⟩ := h
    exact ⟨c, hc, _, _, _, _, hfirst, hlast, _, hsettled⟩
  · have hrun : (standInRun unreadableRun).any (fun c =>
        c.w.hist.any (merges [standInKey '1'] (standInKey '2') false 5) &&
        c.w.hist.any (merges [standInKey '1'] (standInKey '2') true 19)) = true := by
      decide +kernel
    obtain ⟨c, hc, h⟩ := exists_standInRun hrun
    simp only [Bool.and_eq_true, List.any_eq_true] at h
    obtain ⟨hfirst, hlast⟩ := h
    exact ⟨c, hc, _, _, hfirst, hlast⟩

end LnurlMint
