import LnurlMint.Credits

/-!
# A redemption is all or nothing

A request to rotate, split, merge or melt notes looks at them first, and may settle mints of theirs
that turn out to be paid. What it came for it does last: one transaction that checks everything
again and either commits or is undone as a whole. What follows on the commit may still raise: the
certificates of a rotate, split or merge name the domain that the request came to, and a melt is
answered with a URL made up of it. A request that comes to a URL the mint cannot read commits, and
is answered with an error all the same; so is one whose signer breaks its promises.

## Main definitions

* `NoteStore.Exchanged` — what a rotate, split or merge does to a store
* `Spares` — what settling a paid mint does, and nothing else
* `Spared` — none of a task's acts does more

## Main results

* `Run.spared` — what a harmless task leaves alone
* `redemption_all_or_nothing`, `committed_swap_answered`
-/

namespace LnurlMint

open Relational Interleave

/-! ## What a swap and a settlement do -/

namespace NoteStore

variable {s s' : NoteStore} {now : ℤ} {burnIds mintNoteIds : List Str} {mintAmounts : List ℤ}

/-- Some notes have been burned and others minted, and that is all that happened to notes. -/
structure Exchanged (s s' : NoteStore) (now : ℤ) (burnIds mintNoteIds : List Str)
    (mintAmounts : List ℤ) : Prop where
  burn_nodup : burnIds.Nodup
  mint_nodup : mintNoteIds.Nodup
  burned : ∀ id ∈ burnIds, ∃ n, s.notes.find? id = some n ∧ n.spent = false ∧ n.pending = false ∧
    s'.notes.find? id = some { n with spent := true }
  minted : ∀ out ∈ mintNoteIds.zip mintAmounts, s.notes.find? out.1 = none ∧
    s'.notes.find? out.1 = some (newNote now out)
  others : ∀ id, id ∉ burnIds → id ∉ mintNoteIds → s'.notes.find? id = s.notes.find? id
  frame : s'.mints = s.mints ∧ s'.usernames = s.usernames ∧ s'.addressFees = s.addressFees ∧
    s'.melts = s.melts

theorem Swapped.exchanged {toUsername : Option Str}
    (h : s.Swapped s' now burnIds mintNoteIds mintAmounts toUsername) :
    s.Exchanged s' now burnIds mintNoteIds mintAmounts where
  burn_nodup := h.burn_nodup
  mint_nodup := h.mint_nodup
  burned := by
    intro id hid
    obtain ⟨n, hn, hs, hp⟩ := h.burnable id hid
    refine ⟨n, hn, hs, hp, ?_⟩
    rw [h.find?, hn, Option.map_some, if_pos hid]
    rfl
  minted := by
    intro out hout
    have huse := h.unused out.1 (List.of_mem_zip hout).1
    refine ⟨?_, h.minted hout⟩
    simpa [idInUse] using (Bool.or_eq_false_iff.1 huse).1
  others := by
    intro id hburn hmint
    have hnone : ((mintNoteIds.zip mintAmounts).map (newNote now)).find? (fun n => n.id = id) =
        none := by
      rw [List.find?_eq_none]
      intro n hn
      obtain ⟨out, hout, rfl⟩ := List.mem_map.1 hn
      have hne : out.1 ≠ id := by
        rintro rfl
        exact hmint (List.of_mem_zip hout).1
      simp [newNote, hne]
    rw [h.find?, hnone, Option.or_none]
    simp [hburn]
  frame := by
    obtain ⟨_, _, _, _, _, _, -, -, -, -, rfl⟩ := h.left
    exact ⟨rfl, rfl, rfl, rfl⟩

end NoteStore

section Histories

variable {d : Deps} {cfg : Settings d} {s : State} {w w' : World (mint cfg)} {a : Actor mintSig}

/-- An act after these events settles one mint that is paid and had named its note, or nothing. -/
inductive Spares (before : List (Event (mint cfg))) (i : Input) (s s' : State) : Prop
  | same (h : s' = s)
  | settled (b : Actor mintSig) (hash id : Str) (pre : State) (m : MintRow)
      (notes : Table NoteRow.id)
      (hpaid : .answered b (.isInvoiceSettled hash) (.ok true) pre ∈ before)
      (hm : s.store.mints.find? hash = some m) (hp : m.minted = false) (hid : m.noteId = some id)
      (hi : s.store.notes.insert? (NoteStore.newNote i.now (id, m.amountMsat)) = some notes)
      (h : s' = { s with store := { s.store.markMinted hash with notes } })

/-- Among these events, which followed the others, `a` schedules nothing, and its acts settle paid
mints at most. -/
def Spared (a : Actor mintSig) (es before : List (Event (mint cfg))) : Prop :=
  (∀ b, .spawned a b ∉ es) ∧ ∀ later o i out pre earlier s',
    es = later ++ .did a o i out pre :: earlier → exec o i pre = some (out, s') →
      Spares (earlier ++ before) i pre s'

/-- A harmless act of a task that means to spend notes settles a mint of theirs at most. -/
theorem Run.spares (h : Run (law cfg) s w) {k1 : List Str} (hk : a.task.spends = some k1)
    {later before : List (Event (mint cfg))} {o : Op} {i : Input} {out : o.Out} {pre s' : State}
    (hh : w.hist = later ++ .did a o i out pre :: before) (hx : exec o i pre = some (out, s'))
    (hv : Void (.did a o i out pre : Event (mint cfg))) : Spares before i pre s' := by
  obtain ⟨w₀, w₁, h₀, rfl, hn, -⟩ := h.cut hh
  cases o with
  | write u =>
    obtain ⟨hu, rfl, hrun⟩ := Next.write hn
    obtain ⟨⟨r, store⟩, hrun', he⟩ := Option.map_eq_some_iff.1 hx
    cases he
    rcases Update.run_eq_some.1 hrun' with ⟨out, rfl, ho⟩ | ⟨_, -, -, -, rfl⟩
    · rcases hv with hv | ⟨e, ⟨⟩⟩
      cases u with
      | settleMint hash derive =>
        obtain ⟨k, -, id, m, -, hm, hid⟩ := Run.settles_named h₀ hk hu
        obtain ⟨-, ⟨pre', hpaid⟩, -⟩ := hu
        rcases NoteStore.settleMint_ok ho with ⟨-, rfl, -⟩ | ⟨m', notes, hm', hp, -,
          ⟨id', hid', hi, rfl⟩ | ⟨_, _, _, _, _, hnone, -⟩⟩
        · exact .same rfl
        · cases hm.symm.trans hm'
          cases hid.symm.trans hid'
          exact .settled a hash id pre' m notes hpaid hm hp hid hi rfl
        · cases hm.symm.trans hm'
          rw [hid] at hnone
          cases hnone
      | settleAddressFee => exact hu.1.elim _ hk
      | _ => exact hv.elim
    · exact .same rfl
  | trackMeltStart => exact hv.elim
  | trackMeltEnd => exact hv.elim
  | _ =>
    cases hx
    exact .same rfl

/-- What a task leaves alone whose acts among these events are harmless. -/
theorem Run.spared (h : Run (law cfg) s w) {k1 : List Str} (hk : a.task.spends = some k1)
    {es before later : List (Event (mint cfg))} (hh : w.hist = later ++ (es ++ before))
    (hspawn : ∀ b, .spawned a b ∉ es)
    (hdid : ∀ o i out pre, .did a o i out pre ∈ es → Void (.did a o i out pre)) :
    Spared a es before := by
  refine ⟨hspawn, ?_⟩
  intro later' o i out pre earlier s' he hx
  have hh' : w.hist = (later ++ later') ++ .did a o i out pre :: (earlier ++ before) := by
    rw [hh, he]
    simp
  exact Run.spares h hk hh' hx (hdid o i out pre (by rw [he]; simp))

theorem Run.all_spared (h : Run (law cfg) s w) {k1 : List Str} (hk : a.task.spends = some k1)
    (hspawn : ∀ b, .spawned a b ∉ w.hist)
    (hdid : ∀ o i out pre, .did a o i out pre ∈ w.hist → Void (.did a o i out pre)) :
    Spared a w.hist [] := by
  have hall : w.hist = [] ++ (w.hist ++ []) := by rw [List.append_nil, List.nil_append]
  exact Run.spared h hk hall hspawn hdid

/-- A rotate, split or merge schedules no payment. -/
theorem OwnWrites.not_spawned (h : Run (law cfg) s w) (hown : OwnWrites cfg w a)
    (b : Actor mintSig) :
    .spawned a b ∉ w.hist := by
  intro he
  obtain ⟨w₀, w₁, -, hn, hf⟩ := h.past he
  obtain ⟨id, pr, _, hash, _, i, _, _, pre, _, _, rest, -, -, -, -, -, hh⟩ := hn.lawful
  have hrecorded : Wrote w a (.recordMelt hash pr) (.ok ()) := by
    refine ⟨i, pre, (hn.follows.trans hf).mem ?_⟩
    rw [hh]
    exact List.mem_cons_self
  rcases hown _ _ hrecorded with hs | ⟨_, _, _, ⟨⟩⟩
  exact hs

/-- Its acts do no harm, but for a swap that succeeds. -/
theorem OwnWrites.void (h : Run (law cfg) s w) (hown : OwnWrites cfg w a) {k1 : List Str}
    (hk : a.task.spends = some k1) {o : Op} {i : Input} {out : o.Out} {pre : State}
    (he : .did a o i out pre ∈ w.hist)
    (hswap : ∀ burnIds mintNoteIds mintAmounts,
      o ≠ .write (.swap burnIds mintNoteIds mintAmounts)) :
    Void (.did a o i out pre : Event (mint cfg)) := by
  cases o with
  | write u =>
    rcases hown u out ⟨i, pre, he⟩ with hs | ⟨burnIds, mintNoteIds, mintAmounts, rfl⟩
    · exact .inl hs
    · exact absurd rfl (hswap _ _ _)
  | trackMeltStart hash =>
    obtain ⟨w₀, w₁, -, hn, hf⟩ := h.past he
    obtain ⟨ids, i', pre', rest, hh⟩ := hn.lawful
    have hreserved : Wrote w a (.markPending ids hash) (.ok ()) := by
      refine ⟨i', pre', (hn.follows.trans hf).mem ?_⟩
      rw [hh]
      exact List.mem_cons_self
    rcases hown _ _ hreserved with hs | ⟨_, _, _, ⟨⟩⟩
    exact hs
  | trackMeltEnd hash =>
    obtain ⟨w₀, w₁, -, hn, hf⟩ := h.past he
    rcases hn.lawful with ⟨_, _, _, ht, -⟩ |
      ⟨_, _, _, _, _, _, ids, _, _, i', _, _, pre', rest, -, -, hh⟩
    · rw [ht] at hk
      cases hk
    · have hreserved : Wrote w a (.markPending ids hash) (.ok ()) := by
        refine ⟨i', pre', (hn.follows.trans hf).mem ?_⟩
        rw [hh]
        simp
      rcases hown _ _ hreserved with hs | ⟨_, _, _, ⟨⟩⟩
      exact hs
  | _ => trivial

/-- A task swaps once. -/
theorem Run.swapped_once (h : Run (law cfg) s w) {es before : List (Event (mint cfg))}
    {burnIds mintNoteIds : List Str} {mintAmounts : List ℤ} {i : Input}
    {out : Except Exn Unit} {pre : State}
    (hh : w.hist =
      es ++ .did a (.write (.swap burnIds mintNoteIds mintAmounts)) i out pre :: before) :
    ∀ burnIds' mintNoteIds' mintAmounts' i' out' pre',
      .did a (.write (.swap burnIds' mintNoteIds' mintAmounts')) i' out' pre' ∉ es ++ before := by
  intro burnIds' mintNoteIds' mintAmounts' i' out' pre' hm
  have unswapped : ∀ {w₀ w₁ : World (mint cfg)} {burnIds mintNoteIds mintAmounts i out pre},
      Next (law cfg) w₀ (.did a (.write (.swap burnIds mintNoteIds mintAmounts)) i out pre) w₁ →
      Unswapped w₀ a := by
    intro w₀ w₁ burnIds mintNoteIds mintAmounts i out pre hn
    obtain ⟨⟨_, _, _, _, _, _, _, -, -, -, -, -, -, hun⟩, -⟩ := Next.write hn
    exact hun
  rcases List.mem_append.1 hm with hm | hm
  · obtain ⟨es', es'', rfl⟩ := List.append_of_mem hm
    rw [List.append_assoc, List.cons_append] at hh
    obtain ⟨w₀, w₁, -, hrest, hn, -⟩ := h.cut hh
    refine unswapped hn burnIds mintNoteIds mintAmounts out ⟨i, pre, ?_⟩
    rw [hrest]
    exact List.mem_append_right _ List.mem_cons_self
  · obtain ⟨w₀, w₁, -, rfl, hn, -⟩ := h.cut hh
    exact unswapped hn burnIds' mintNoteIds' mintAmounts' out' ⟨i', pre', hm⟩

/-! ## Packages that keep their promises -/

/-- `convertbits` turns any bytes into groups of five bits. -/
def ConvertsBytes (d : Deps) : Prop :=
  ∀ data : Bytes, d.bech32.convertbits (data.map UInt8.toNat) 8 5 true ≠ none

/-- Signing fails, or gives 64 bytes and one more. -/
def signable : Except Unit (Bytes × ℤ) → Bool
  | .ok (rs, recoveryId) => rs.length = 64 && (0 ≤ recoveryId && recoveryId < 256)
  | .error _ => true

theorem signable_ok {rs : Bytes} {recoveryId : ℤ} :
    signable (.ok (rs, recoveryId)) = true ↔
      rs.length = 64 ∧ 0 ≤ recoveryId ∧ recoveryId < 256 := by
  simp [signable]

/-- Signing fails, or gives 64 bytes and a recovery id from 0 to 3. -/
def signs : Event (mint cfg) → Bool
  | .answered _ (.signMessage ..) (.ok (rs, recoveryId)) _ =>
    rs.length = 64 && 0 ≤ recoveryId && recoveryId ≤ 3
  | _ => true

theorem signable_of_signs (hsign : ∀ e ∈ w.hist, signs e = true) {b : Actor mintSig}
    {noteId dom : Str} {amountMsat : ℤ} {ans : Except Unit (Bytes × ℤ)} {pre : State}
    (he : .answered b (.signMessage noteId dom amountMsat) ans pre ∈ w.hist) :
    signable ans = true := by
  have hgood := hsign _ he
  rcases ans with ⟨⟩ | ⟨rs, recoveryId⟩
  · rfl
  simp only [signs, Bool.and_eq_true, decide_eq_true_eq] at hgood
  obtain ⟨⟨hlen, hlow⟩, hhigh⟩ := hgood
  exact signable_ok.2 ⟨hlen, hlow, by omega⟩

/-- A certificate can be made of 65 bytes. -/
theorem ConvertsBytes.encodeCs1_ok (hbits : ConvertsBytes d) {signature : Bytes}
    (hlen : signature.length = 65) (amountMsat : ℤ) :
    ∃ c, encodeCs1 d amountMsat signature = .ok c := by
  obtain ⟨values, hv⟩ := Option.ne_none_iff_exists'.1 (hbits signature)
  rw [encodeCs1, if_neg (not_not.2 hlen), Bech32m.encode, hv]
  exact ⟨_, rfl⟩

/-- So can it of every signature. -/
theorem ConvertsBytes.not_badSignature (hbits : ConvertsBytes d)
    (hsign : ∀ b noteId dom amountMsat ans pre,
      .answered b (.signMessage noteId dom amountMsat) ans pre ∈ w.hist → signable ans = true) :
    ¬ BadSignature cfg w a := by
  rintro ⟨noteId, dom, amountMsat, rs, recoveryId, ⟨pre, he⟩, hbad⟩
  obtain ⟨hlen, hlow, hhigh⟩ := signable_ok.1 (hsign _ _ _ _ _ _ he)
  rcases hbad with hneg | hbig | ⟨e, herr⟩
  · omega
  · omega
  · have hlen' : (rs ++ [UInt8.ofNat recoveryId.toNat]).length = 65 := by simp [hlen]
    obtain ⟨c, hc⟩ := hbits.encodeCs1_ok hlen' amountMsat
    cases hc.symm.trans herr

/-- **What a certificate is made of decides whether it can be made.** -/
theorem ConvertsBytes.certificate_eq (hbits : ConvertsBytes d)
    (hback : cfg.fundingsourceBackend ≠ none) (noteId dom : Str) (amountMsat : ℤ) :
    ∃ k, certificate cfg noteId amountMsat dom = .call (.signMessage noteId dom amountMsat) k ∧
      ∀ ans, ∃ r, k ans = .done r ∧ ((∃ c, r = .ok c) ↔ signable ans = true) := by
  refine ⟨_, by rw [certificate, signNote, if_neg hback]; rfl, ?_⟩
  intro ans
  rcases ans with ⟨⟩ | ⟨rs, recoveryId⟩
  · exact ⟨.ok none, rfl, by simp [signable]⟩
  rw [signable_ok]
  by_cases hid : recoveryId < 0 ∨ 256 ≤ recoveryId
  · refine ⟨.error (.value "bytes must be in range(0, 256)"), ?_, ?_⟩
    · simp [Prog.raiseIf, Prog.thenE, hid]
    · constructor
      · rintro ⟨c, ⟨⟩⟩
      · rintro ⟨-, hlow, hhigh⟩
        omega
  · refine ⟨(encodeCs1 d amountMsat (rs ++ [UInt8.ofNat recoveryId.toNat])).map some, ?_, ?_⟩
    · simp only [Prog.raiseIf, if_neg hid, Prog.thenE, Prog.pure_eq, Prog.bind_eq, Prog.onOk_ok,
        Prog.ofExcept]
      cases encodeCs1 d amountMsat (rs ++ [UInt8.ofNat recoveryId.toNat]) <;> rfl
    · by_cases hlen : rs.length = 64
      · have hlen' : (rs ++ [UInt8.ofNat recoveryId.toNat]).length = 65 := by simp [hlen]
        obtain ⟨c, hc⟩ := hbits.encodeCs1_ok hlen' amountMsat
        rw [hc]
        exact ⟨fun _ => ⟨hlen, by omega, by omega⟩, fun _ => ⟨some c, rfl⟩⟩
      · have hlen' : (rs ++ [UInt8.ofNat recoveryId.toNat]).length ≠ 65 := by simpa using hlen
        rw [encodeCs1, if_pos hlen']
        constructor
        · rintro ⟨c, ⟨⟩⟩
        · rintro ⟨hlen'', -⟩
          exact absurd hlen'' hlen

/-! ## Requests to redeem notes -/

/-- A request to redeem notes that is answered with an error did no harm, as long as what follows on
a commit can be made up. -/
theorem Rested.harmless {baseUrl : Str} {k1 : List Str} {pr : Option Str} {amount : Option ℤ}
    {p1 p2 : Option Str} {reason : String} (h : Rested cfg w a (.error reason))
    (ha : a.task = .request ⟨baseUrl, .getWithdrawCallback k1 pr amount p1 p2⟩)
    (haddr : Addressed cfg baseUrl pr) (hsigned : ¬ BadSignature cfg w a) : Harmless w a := by
  rw [Rested, ha] at h
  obtain ⟨hblameless, -, -, hmelt⟩ := h
  cases pr with
  | none =>
    rcases hblameless ⟨reason, rfl⟩ with h | h | h
    exacts [h, absurd h haddr, absurd h hsigned]
  | some pr =>
    obtain ⟨herr, -⟩ := hmelt (Option.some_ne_none pr)
    exact (herr ⟨reason, rfl⟩).resolve_right fun h => haddr h.linkless

/-- **A redemption is all or nothing, where its base URL can be read.** A request that is answered
with an error has settled paid mints of its notes at most, as long as what follows on its commit can
be made up; where it cannot, every request that gets as far as to commit is answered with an error.
A rotate, split or merge that is answered otherwise, and whose burn was not on record before, has
swapped exactly the notes it names for exactly the notes it asks for, once, and apart from that has
settled paid mints of its notes at most. -/
theorem redemption_all_or_nothing (hbits : ConvertsBytes d)
    {c : Config (mint cfg)} (h : Reach s c) (hsign : ∀ e ∈ c.w.hist, signs e = true)
    {later before : List (Event (mint cfg))} {baseUrl : Str} {k1 : List Str} {pr : Option Str}
    {amount : Option ℤ} {p1 p2 : Option Str} {resp : Response} {pre : State}
    (ha : a.task = .request ⟨baseUrl, .getWithdrawCallback k1 pr amount p1 p2⟩)
    (hh : c.w.hist = later ++ .finished a (.ok resp) pre :: before) :
    (Addressed cfg baseUrl pr → ∀ reason, resp = .error reason → Spared a before []) ∧
    (¬ Addressed cfg baseUrl pr → ∃ reason, resp = .error reason) ∧
    (pr = none → (∀ reason, resp ≠ .error reason) →
      (∀ ids b, ¬ Replays cfg ⟨pre, before⟩ a ids amount b) →
      ∃ burnIds o1 o2 mintAmounts i pre' s' later' before',
        before = later' ++
          .did a (.write (.swap burnIds (o1 :: o2.toList) mintAmounts)) i (.ok ()) pre' :: before' ∧
        exec (.write (.swap burnIds (o1 :: o2.toList) mintAmounts)) i pre' = some (.ok (), s') ∧
        Named d k1 burnIds ∧ Asks d amount p1 p2 o1 o2 ∧
        SwapAmounts cfg (pre'.store.worth burnIds) k1.length amount mintAmounts ∧
        pre'.store.Exchanged s'.store i.now burnIds (o1 :: o2.toList) mintAmounts ∧
        Spared a before' [] ∧ Spared a later' (.did a
          (.write (.swap burnIds (o1 :: o2.toList) mintAmounts)) i (.ok ()) pre' :: before')) := by
  obtain ⟨w₀, w₁, h₀, rfl, hn, hf⟩ := (Reach.law h).cut hh
  have hk : a.task.spends = some k1 := by
    rw [ha]
    rfl
  have hrested := hn.lawful.2.2 resp rfl
  have hpre : pre = w₀.st := by
    obtain ⟨hstep, -, -⟩ := hn
    cases hstep
    rfl
  subst hpre
  refine ⟨?_, ?_, ?_⟩
  · rintro haddr reason rfl
    have hsigned : ¬ BadSignature cfg w₀ a := hbits.not_badSignature fun _ _ _ _ _ _ he =>
      signable_of_signs hsign ((hn.follows.trans hf).mem he)
    have hharmless := hrested.harmless ha haddr hsigned
    refine Run.all_spared h₀ hk ?_ ?_
    · intro b hb
      exact hharmless _ hb rfl
    · intro o i out pre he
      exact hharmless _ he rfl
  · intro haddr
    by_contra hok
    rw [Rested, ha] at hrested
    exact haddr (hrested.2.1 fun reason he => hok ⟨reason, he⟩)
  · intro hpr hok hnot
    rw [Rested, ha] at hrested
    obtain ⟨-, -, hanswer, -⟩ := hrested
    obtain ⟨hanswer, hown⟩ := hanswer hpr
    rcases hanswer with ⟨_, _, ids, b, rfl, hrests, -, -, -, hreplay | ⟨i, pre', he⟩⟩ |
      ⟨⟨reason, hresp⟩, -⟩
    · exact absurd hreplay (hnot ids b)
    · obtain ⟨later', before', hh'⟩ := List.append_of_mem he
      obtain ⟨w₂, w₃, h₂, rfl, hn', -⟩ := h₀.cut hh'
      obtain ⟨hu, rfl, hrun⟩ := Next.write hn'
      obtain ⟨-, ho⟩ := Next.write_ok hn'
      obtain ⟨s₁, ho, heq⟩ := map_eq_ok.1 ho
      cases heq
      obtain ⟨_, _, _, _, _, _, _, htask, -, hnamed, -, -, hamounts, -⟩ := hu
      cases ha.symm.trans htask
      have honce := Run.swapped_once h₀ hh'
      have hvoid : ∀ o i out pre, .did a o i out pre ∈ later' ++ w₂.hist →
          Void (.did a o i out pre : Event (mint cfg)) := by
        intro o i out pre he
        refine hown.void h₀ hk (by rw [hh']; rcases List.mem_append.1 he with he | he <;> simp [he])
          ?_
        rintro burnIds mintNoteIds mintAmounts rfl
        exact honce burnIds mintNoteIds mintAmounts i out pre he
      have hspawn := hown.not_spawned h₀
      rw [hh'] at hspawn
      refine ⟨ids, b.id, b.id2, _, i, w₂.st, { w₂.st with store := w₃.st.store }, later', w₂.hist,
        hh', ?_, hrests.named, hrests.asks, ?_, ?_, ?_, ?_⟩
      · rw [exec, hrun]
        rfl
      · rw [← hnamed.length_eq]
        exact hamounts
      · exact (NoteStore.swapLocked_ok (NoteStore.reported_eq_ok.1 ho)).exchanged
      · refine Run.all_spared h₂ hk ?_ ?_
        · intro b hb
          exact hspawn b (by simp [hb])
        · intro o i out pre he
          exact hvoid o i out pre (List.mem_append_right _ he)
      · rw [← List.nil_append (later' ++ _)] at hh'
        refine Run.spared h₀ hk hh' ?_ ?_
        · intro b hb
          exact hspawn b (by simp [hb])
        · intro o i out pre he
          exact hvoid o i out pre (List.mem_append_left _ he)
    · exact absurd hresp (hok reason)

/-- The events other than a burn found on record. -/
def unburned : Event (mint cfg) → Bool
  | .did _ (.read (.findBurn _)) _ burn _ => burn.isNone
  | _ => true

theorem not_replays_of_unburned (hb : ∀ e ∈ w.hist, unburned e = true) (ids : List Str)
    (amount : Option ℤ) (b : BurnRow) : ¬ Replays cfg w a ids amount b := by
  rintro ⟨burn, ⟨i, pre, he⟩, hreplayed⟩
  obtain rfl : burn = none := Option.isNone_iff_eq_none.1 (hb _ he)
  cases hreplayed

/-- The note of a paid mint is rotated. -/
def redeemedRun : List (Choice standInMint) :=
  standInMints 0 "h".toList (standInKey '1') ++
    standInAsks 5 (.getWithdrawCallback [standInKey '1'] none none (some (standInKey '2')) none) ++
    standInGoes 3 1 ++ [.answer 5 (standInAnswer [] true)] ++ standInGoes 7 1 ++
    [.answer 5 (standInAnswer [] true)] ++ standInGoes 1 1

/-- The last event answers a redemption of the note of `redeemedRun` with success. -/
def redeemedLast : List (Event standInMint) → Bool
  | .finished a (.ok (.withdrawSuccess ..)) _ :: _ => match a.task with
    | .request ⟨_, .getWithdrawCallback k1 none _ _ _⟩ => k1 = [standInKey '1']
    | _ => false
  | _ => false

theorem redeemedLast_eq_true {h : List (Event standInMint)} (hr : redeemedLast h = true) :
    ∃ a c c2 pr verify pre before baseUrl amount p1 p2,
      h = .finished a (.ok (.withdrawSuccess c c2 pr verify)) pre :: before ∧
      a.task = .request ⟨baseUrl, .getWithdrawCallback [standInKey '1'] none amount p1 p2⟩ := by
  unfold redeemedLast at hr
  split at hr
  · split at hr
    · rename_i ha
      obtain rfl := of_decide_eq_true hr
      exact ⟨_, _, _, _, _, _, _, _, _, _, _, rfl, ha⟩
    · cases hr
  · cases hr

theorem redemption_all_or_nothing_rotation : ∃ c : Config standInMint, Reach State.initial c ∧
    ∃ a burnIds mintNoteIds mintAmounts i pre, ∃ s' : State,
      .did a (.write (.swap burnIds mintNoteIds mintAmounts)) i (.ok ()) pre ∈ c.w.hist ∧
      exec (.write (.swap burnIds mintNoteIds mintAmounts)) i pre = some (.ok (), s') ∧
      Named .standIn [standInKey '1'] burnIds ∧
      pre.store.Exchanged s'.store i.now burnIds mintNoteIds mintAmounts := by
  have hrun : (standInRun redeemedRun).any (fun c => c.w.hist.all signs && c.w.hist.all unburned &&
      redeemedLast c.w.hist) = true := by decide +kernel
  obtain ⟨c, hc, h⟩ := exists_standInRun hrun
  simp only [Bool.and_eq_true, List.all_eq_true] at h
  obtain ⟨⟨hsign, hunburned⟩, hlast⟩ := h
  obtain ⟨a, _, _, _, _, pre, before, baseUrl, amount, p1, p2, hh, ha⟩ := redeemedLast_eq_true hlast
  have hnot : ∀ ids b, ¬ Replays Settings.standIn ⟨pre, before⟩ a ids amount b := fun ids b =>
    not_replays_of_unburned (fun e he => hunburned e (by
      rw [hh]
      exact List.mem_cons_of_mem _ he)) ids amount b
  have hcut := hh.trans (List.nil_append _).symm
  obtain ⟨burnIds, o1, o2, mintAmounts, i, pre', s', later', before', hb, hexec, hnamed, -, -, hx,
    -⟩ := (redemption_all_or_nothing (fun _ => Option.some_ne_none _) hc hsign ha hcut).2.2 rfl
      (fun _ he => by cases he) hnot
  refine ⟨c, hc, a, burnIds, _, mintAmounts, i, pre', s', ?_, hexec, hnamed, hx⟩
  rw [hh, hb]
  simp

/-! ## A base URL that cannot be read -/

/-- An error response. -/
def Response.isError : Response → Bool
  | .error _ => true
  | _ => false

theorem Response.isError_eq_true {resp : Response} (h : resp.isError = true) :
    ∃ reason, resp = .error reason := by
  unfold Response.isError at h
  split at h
  · exact ⟨_, rfl⟩
  · cases h

/-- The last event answers a request which had run such a transaction, with such a response. -/
def answeredAfter (p : Response → Bool) (q : Update → Bool) : List (Event (mint cfg)) → Bool
  | .finished a (.ok resp) _ :: before => p resp && before.any fun
    | .did b (.write u) _ (.ok _) _ => b.tid = a.tid && b.task = a.task && q u
    | _ => false
  | _ => false

theorem answeredAfter_eq_true {p : Response → Bool} {q : Update → Bool}
    {h : List (Event (mint cfg))} (hp : answeredAfter p q h = true) :
    ∃ a resp pre before u i out pre', h = .finished a (.ok resp) pre :: before ∧ p resp = true ∧
      q u = true ∧ .did a (.write u) i (.ok out) pre' ∈ before := by
  unfold answeredAfter at hp
  split at hp
  · rename_i a resp pre before
    obtain ⟨hresp, hany⟩ := (Bool.and_eq_true _ _).mp hp
    obtain ⟨e, he, hwrote⟩ := List.any_eq_true.1 hany
    split at hwrote
    · rename_i b u i out pre'
      simp only [Bool.and_eq_true, decide_eq_true_eq] at hwrote
      obtain ⟨a, task⟩ := a
      obtain ⟨b, task'⟩ := b
      obtain ⟨⟨rfl, rfl⟩, hq⟩ := hwrote
      exact ⟨_, resp, pre, before, u, i, out, pre', rfl, hresp, hq, he⟩
    · cases hwrote
  · cases hp

/-- A swap. -/
def Update.isSwap : Update → Bool
  | .swap .. => true
  | _ => false

theorem Update.isSwap_eq_true {u : Update} (h : u.isSwap = true) :
    ∃ burnIds mintNoteIds mintAmounts, u = .swap burnIds mintNoteIds mintAmounts := by
  unfold Update.isSwap at h
  split at h
  · exact ⟨_, _, _, rfl⟩
  · cases h

/-- A reservation. -/
def Update.isMarkPending : Update → Bool
  | .markPending .. => true
  | _ => false

theorem Update.isMarkPending_eq_true {u : Update} (h : u.isMarkPending = true) :
    ∃ noteIds hash, u = .markPending noteIds hash := by
  unfold Update.isMarkPending at h
  split at h
  · exact ⟨_, _, rfl⟩
  · cases h

/-- Whether a task was spawned. -/
def spawns : Event (mint cfg) → Bool
  | .spawned .. => true
  | _ => false

theorem Run.swap_task (h : Run (law cfg) s w) {burnIds mintNoteIds : List Str}
    {mintAmounts : List ℤ} {i : Input} {r : Except Exn Unit} {pre : State}
    (he : .did a (.write (.swap burnIds mintNoteIds mintAmounts)) i r pre ∈ w.hist) :
    ∃ baseUrl k1 amount p1 p2,
      a.task = .request ⟨baseUrl, .getWithdrawCallback k1 none amount p1 p2⟩ := by
  obtain ⟨w₀, w₁, -, hn, -⟩ := h.past he
  obtain ⟨⟨baseUrl, k1, amount, p1, p2, _, _, ha, -⟩, -⟩ := Next.write hn
  exact ⟨baseUrl, k1, amount, p1, p2, ha⟩

theorem Settings.standIn_mintDomain (baseUrl : Str) :
    mintDomain standIn baseUrl = .ok "//mint".toList := by
  rfl

/-- A stand-in that reads no URL with a bracket. -/
def Deps.unbracketed : Deps := { Deps.standIn with
  hostname := fun url => if '[' ∈ url then .error "Invalid IPv6 URL" else .ok (some url) }

/-- A mint on it with an onion address, without fees. -/
def Settings.unbracketed : Settings .unbracketed := { Settings.standIn with
  onionUrl := some "onion".toList
  baseUrl_hostname := ⟨_, by decide, rfl⟩
  onionUrl_hostname := by
    rintro _ ⟨⟩
    exact ⟨_, by decide, rfl⟩ }

/-- A withdrawal of the note of this key comes in at such a URL and is begun, under this number; its
paid mint is settled, and it goes on by so many effects. -/
def bracketWithdraws (tid : ℕ) (k1 : Str) (pr p1 : Option Str) (n : ℕ) :
    List (Choice (mint Settings.unbracketed)) :=
  [.arrive (.request ⟨"http://[/".toList, .getWithdrawCallback [k1] pr none p1 none⟩), .wake tid] ++
    standInGoes 3 1 ++ [.answer tid (standInAnswer [] true)] ++ standInGoes n 1

/-- A note is rotated. -/
def bracketRotates : List (Choice (mint Settings.unbracketed)) :=
  standInMints 0 "h".toList (standInKey '1') ++
    bracketWithdraws 5 (standInKey '1') none (some (standInKey '2')) 7

/-- A note is melted. -/
def bracketMelts : List (Choice (mint Settings.unbracketed)) :=
  standInMints 0 "h".toList (standInKey '1') ++
    bracketWithdraws 5 (standInKey '1') (some "lnp".toList) none 13

/-- **A request that is answered with an error can have swapped its note, or reserved it with no
payment to come.** -/
theorem redemption_half_done : ConvertsBytes .unbracketed ∧
    (∃ c : Config (mint Settings.unbracketed), Reach State.initial c ∧
      (∀ e ∈ c.w.hist, signs e = true) ∧
      ∃ a burnIds mintNoteIds mintAmounts i pre pre' reason before,
        c.w.hist = .finished a (.ok (.error reason)) pre :: before ∧
        .did a (.write (.swap burnIds mintNoteIds mintAmounts)) i (.ok ()) pre' ∈ before) ∧
    ∃ c : Config (mint Settings.unbracketed), Reach State.initial c ∧
      (∀ e ∈ c.w.hist, signs e = true) ∧
      (∃ a noteIds hash i pre pre' reason before,
        c.w.hist = .finished a (.ok (.error reason)) pre :: before ∧
        .did a (.write (.markPending noteIds hash)) i (.ok ()) pre' ∈ before) ∧
      c.w.st.store.notePending (standInKey '1') = true ∧
      c.w.st.store.meltPr "p".toList = some "lnp".toList ∧ ∀ a b, .spawned a b ∉ c.w.hist := by
  refine ⟨fun _ => Option.some_ne_none _, ?_, ?_⟩
  · have hrun : (standInRun bracketRotates).any (fun c => c.w.hist.all signs &&
        answeredAfter Response.isError Update.isSwap c.w.hist) = true := by decide +kernel
    obtain ⟨c, hc, h⟩ := exists_standInRun hrun
    rw [Bool.and_eq_true, List.all_eq_true] at h
    obtain ⟨a, resp, pre, before, u, i, out, pre', hh, herr, hu, he⟩ := answeredAfter_eq_true h.2
    obtain ⟨reason, rfl⟩ := Response.isError_eq_true herr
    obtain ⟨burnIds, mintNoteIds, mintAmounts, rfl⟩ := Update.isSwap_eq_true hu
    exact ⟨c, hc, h.1, a, burnIds, mintNoteIds, mintAmounts, i, pre, pre', reason, before, hh, he⟩
  · have hrun : (standInRun bracketMelts).any (fun c => c.w.hist.all signs &&
        answeredAfter Response.isError Update.isMarkPending c.w.hist &&
        (c.w.st.store.notePending (standInKey '1') &&
          c.w.st.store.meltPr "p".toList = some "lnp".toList &&
          c.w.hist.all fun e => !spawns e)) = true := by decide +kernel
    obtain ⟨c, hc, h⟩ := exists_standInRun hrun
    simp only [Bool.and_eq_true, List.all_eq_true, decide_eq_true_eq] at h
    obtain ⟨⟨hsign, hlast⟩, ⟨hpending, hmelt⟩, hnone⟩ := h
    obtain ⟨a, resp, pre, before, u, i, out, pre', hh, herr, hu, he⟩ := answeredAfter_eq_true hlast
    obtain ⟨reason, rfl⟩ := Response.isError_eq_true herr
    obtain ⟨noteIds, hash, rfl⟩ := Update.isMarkPending_eq_true hu
    refine ⟨c, hc, hsign, ⟨a, noteIds, hash, i, pre, pre', reason, before, hh, he⟩, hpending, hmelt,
      fun a b hb => ?_⟩
    have hspawns := hnone _ hb
    rw [spawns] at hspawns
    cases hspawns

/-! ## Answers that wait for a signature

A rotate, split or merge signs after its swap has committed, and what it raises there it answers as
if the swap had failed. -/

/-- **A committed swap is answered OK just where its base URL names a domain, as long as signatures
can be certified.** Making out a certificate raises exactly when the signer's answer is no 65 bytes.
In a history in which none was such, a request whose swap committed is answered OK if the mint's
domain can be read off its base URL, and with an error if not. -/
theorem committed_swap_answered (hbits : ConvertsBytes d) :
    (∀ noteId dom amountMsat,
      (cfg.fundingsourceBackend = none → certificate cfg noteId amountMsat dom = .done (.ok none)) ∧
      (cfg.fundingsourceBackend ≠ none → ∃ k,
        certificate cfg noteId amountMsat dom = .call (.signMessage noteId dom amountMsat) k ∧
        ∀ ans, ∃ r, k ans = .done r ∧ ((∃ c, r = .ok c) ↔ signable ans = true))) ∧
    ∀ c : Config (mint cfg), Reach s c →
      (∀ b noteId dom amountMsat ans pre,
        .answered b (.signMessage noteId dom amountMsat) ans pre ∈ c.w.hist →
        signable ans = true) →
      ∀ a baseUrl endpoint burnIds mintNoteIds mintAmounts i pre pre' r later before,
        a.task = .request ⟨baseUrl, endpoint⟩ →
        c.w.hist = later ++ .finished a r pre :: before →
        .did a (.write (.swap burnIds mintNoteIds mintAmounts)) i (.ok ()) pre' ∈ before →
        ((∃ c c2, r = .ok (.withdrawSuccess c c2 none none)) ↔
          ∃ dom, mintDomain cfg baseUrl = .ok dom) := by
  constructor
  · intro noteId dom amountMsat
    constructor
    · intro hback
      rw [certificate, signNote, if_pos hback]
      rfl
    · intro hback
      exact hbits.certificate_eq hback noteId dom amountMsat
  intro c h hsign a baseUrl endpoint burnIds mintNoteIds mintAmounts i pre pre' r later before htask
    hh hswap
  obtain ⟨w₀, w₁, h₀, rfl, hn, hf⟩ := (Reach.law h).cut hh
  obtain ⟨w₂, w₃, -, hn', -⟩ := h₀.past hswap
  obtain ⟨⟨baseUrl', k1, amount, p1, p2, _, _, ha, -⟩, -⟩ := Next.write hn'
  cases htask.symm.trans ha
  obtain ⟨-, ⟨resp, rfl⟩, hrested⟩ := hn.lawful
  have hrested := hrested resp rfl
  rw [← not_domainless_iff]
  constructor
  · rintro ⟨c, c2, he⟩
    cases he
    rw [Rested, ha] at hrested
    exact hrested.2.1 fun _ => Response.noConfusion
  · intro hnamed
    have hsigned : ¬ BadSignature cfg w₀ a := hbits.not_badSignature
      fun _ _ _ _ _ _ he => hsign _ _ _ _ _ _ ((hn.follows.trans hf).mem he)
    have hanswer := hrested
    rw [Rested, ha] at hanswer
    obtain ⟨-, -, hanswer, -⟩ := hanswer
    obtain ⟨⟨c, c2, _, _, rfl, -⟩ | ⟨⟨reason, rfl⟩, -⟩, -⟩ := hanswer rfl
    · exact ⟨c, c2, rfl⟩
    · rcases hrested.harmless ha hnamed hsigned _ hswap rfl with hs | ⟨e, ⟨⟩⟩
      exact hs.elim

theorem committed_swap_answered_rotation : ∃ c : Config standInMint, Reach State.initial c ∧
    ∃ a burnIds mintNoteIds mintAmounts i pre' c' c2 pre before,
      c.w.hist = .finished a (.ok (.withdrawSuccess c' c2 none none)) pre :: before ∧
      .did a (.write (.swap burnIds mintNoteIds mintAmounts)) i (.ok ()) pre' ∈ before := by
  have hrun : (standInRun redeemedRun).any (fun c => c.w.hist.all signs &&
      answeredAfter (fun _ => true) Update.isSwap c.w.hist) = true := by decide +kernel
  obtain ⟨c, hc, h⟩ := exists_standInRun hrun
  rw [Bool.and_eq_true, List.all_eq_true] at h
  obtain ⟨hsign, hlast⟩ := h
  obtain ⟨a, resp, pre, before, u, i, out, pre', hh, -, hu, he⟩ := answeredAfter_eq_true hlast
  obtain ⟨burnIds, mintNoteIds, mintAmounts, rfl⟩ := Update.isSwap_eq_true hu
  -- the run is that of one request for a swap
  obtain ⟨baseUrl, k1, amount, p1, p2, ha⟩ := Run.swap_task (Reach.law hc)
    (hh ▸ List.mem_cons_of_mem _ he)
  obtain ⟨c', c2, hresp⟩ := ((committed_swap_answered (s := State.initial)
    (fun _ => Option.some_ne_none _)).2 c hc (fun _ _ _ _ _ _ => signable_of_signs hsign)
    a baseUrl _ burnIds mintNoteIds mintAmounts i pre pre' (.ok resp) [] before ha hh he).2
      ⟨_, Settings.standIn_mintDomain baseUrl⟩
  cases hresp
  exact ⟨c, hc, a, burnIds, mintNoteIds, mintAmounts, i, pre', c', c2, pre, before, hh, he⟩

/-- A signer that gives 63 bytes and a recovery id. -/
def shortAnswer : (c : Call) → c.Ans
  | .signMessage .. => .ok (List.replicate 63 0, 0)
  | c => standInAnswer [] true c

/-- The note of a paid mint is rotated, with such a signer. -/
def shortRun : List (Choice standInMint) :=
  standInMints 0 "h".toList (standInKey '1') ++
    standInAsks 5 (.getWithdrawCallback [standInKey '1'] none none (some (standInKey '2')) none) ++
    standInGoes 3 1 ++ [.answer 5 (standInAnswer [] true)] ++ standInGoes 7 1 ++
    [.answer 5 shortAnswer] ++ standInGoes 1 1

/-- **A committed swap can be answered with an error, at a URL that can be read.** -/
theorem committed_swap_refused : ConvertsBytes .standIn ∧
    (∀ baseUrl, ∃ dom, mintDomain Settings.standIn baseUrl = .ok dom) ∧
    ∃ c : Config standInMint, Reach State.initial c ∧
      ∃ a burnIds mintNoteIds mintAmounts i pre' reason pre before,
        c.w.hist = .finished a (.ok (.error reason)) pre :: before ∧
        .did a (.write (.swap burnIds mintNoteIds mintAmounts)) i (.ok ()) pre' ∈ before := by
  have hrun : (standInRun shortRun).any (fun c =>
      answeredAfter Response.isError Update.isSwap c.w.hist) = true := by decide +kernel
  obtain ⟨c, hc, hlast⟩ := exists_standInRun hrun
  obtain ⟨a, resp, pre, before, u, i, out, pre', hh, herr, hu, he⟩ := answeredAfter_eq_true hlast
  obtain ⟨reason, rfl⟩ := Response.isError_eq_true herr
  obtain ⟨burnIds, mintNoteIds, mintAmounts, rfl⟩ := Update.isSwap_eq_true hu
  exact ⟨fun _ => Option.some_ne_none _, fun baseUrl => ⟨_, Settings.standIn_mintDomain baseUrl⟩,
    c, hc, a, burnIds, mintNoteIds, mintAmounts, i, pre', reason, pre, before, hh, he⟩

end Histories

end LnurlMint
