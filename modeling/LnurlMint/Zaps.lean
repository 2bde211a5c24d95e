import LnurlMint.Polling

/-!
# Receipts for zaps

A zap request is checked once, when its invoice is made out, and read again when its receipt is
published. The check looks for tags by name and passes over a tag that is empty; the receipt asks
every tag for its name and raises on an empty one. So a request with an empty tag is accepted and
never gets its receipt, and because a round publishes one receipt after the other and guards none,
neither does any zap that comes after it, in this round or in the next.

A receipt that can be built carries what it should. A round is run alone, as the poll it begins with
is in `LnurlMint.Polling`.

## Main definitions

* `receiptTags` — what a receipt carries
* `Nameless` — a request with an empty tag
* `Accepted`, `Published` — of a zap, at its turn and at the end

## Main results

* `repeatedTags_eq` — when asking all tags for their names raises
* `zap_receipts_iff` — when receipts are built, and when a round publishes them
-/

namespace LnurlMint

open Interleave Relational

/-! ## One receipt -/

section Receipts

variable {d : Deps}

/-- The tags that a receipt takes over from its request. -/
def takenOver (tags : List (List Str)) : List (List Str) :=
  tags.filter fun t => t.head? ∈ [some "e".toList, some "p".toList, some "a".toList]

/-- What a receipt carries: the request's `e`, `p` and `a` tags, the sender, the invoice, the
request word for word, and the preimage if there is one. -/
def receiptTags (tags : List (List Str)) (pubkey bolt11 raw : Str) (preimage : Option Str) :
    List (List Str) :=
  takenOver tags ++ [["P".toList, pubkey], ["bolt11".toList, bolt11],
    ["description".toList, raw]] ++
    ((preimage.filter (· ≠ [])).map fun p => ["preimage".toList, p]).toList

/-- Asking every tag for its name raises exactly when one has none. -/
theorem repeatedTags_eq (tags : List (List Str)) :
    Nostr.repeatedTags tags = if [] ∈ tags then none else some (takenOver tags) := by
  induction tags with
  | nil => rfl
  | cons t tags ih =>
    cases t with
    | nil => simp [Nostr.repeatedTags]
    | cons name t =>
      simp only [Nostr.repeatedTags, List.head?_cons, Option.bind_eq_bind, Option.bind_some, ih]
      by_cases hmem : [] ∈ tags
      · simp [hmem]
      · simp only [Option.bind_some, List.mem_cons, reduceCtorEq, hmem, or_self,
          if_false, takenOver, List.filter_cons, List.head?_cons, Option.some.injEq]
        simp

/-- A request that is accepted was read, and passed the checks. -/
theorem validateZapRequest_eq_ok {raw : Str} {amount : ℤ} {request : Json} :
    Nostr.validateZapRequest d raw amount = .ok (.ok request) ↔
      ∃ event, d.jsonLoads raw = .ok event ∧ Nostr.checkZapRequest d event amount =
        .ok request := by
  rw [Nostr.validateZapRequest]
  split
  · rename_i hload
    simp [hload]
  · rename_i hload
    simp [hload]
  · rename_i event hload
    simp [hload]

/-- What the checks find of a request that they accept. -/
theorem validateZapRequest_ok {raw : Str} {amount : ℤ} {request : Json}
    (h : Nostr.validateZapRequest d raw amount = .ok (.ok request)) :
    d.jsonLoads raw = .ok request ∧ ∃ tags pubkey, Nostr.tags? request = some tags ∧
      request.get "pubkey" = some (.str pubkey) := by
  obtain ⟨event, hload, h⟩ := validateZapRequest_eq_ok.1 h
  rw [Nostr.checkZapRequest] at h
  split at h
  · split at h
    · cases h
    split at h
    · cases h
    rename_i tags htags
    have hverify : Nostr.verifyEvent d event = true ∧ event = request := by
      by_cases hv : Nostr.verifyEvent d event = false
      · rw [if_pos hv] at h
        cases h
      · refine ⟨by simpa using hv, ?_⟩
        rw [if_neg hv] at h
        dsimp only at h
        repeat' split at h
        all_goals cases h
        all_goals rfl
    obtain ⟨hv, rfl⟩ := hverify
    refine ⟨hload, tags, ?_⟩
    obtain ⟨pubkey, hpub, hv⟩ := Option.bind_eq_some_iff.1 (of_decide_eq_true hv)
    obtain ⟨_, -, hv⟩ := Option.bind_eq_some_iff.1 hv
    obtain ⟨_, -, hv⟩ := Option.bind_eq_some_iff.1 hv
    obtain ⟨_, -, hv⟩ := Option.bind_eq_some_iff.1 hv
    obtain ⟨_, -, hv⟩ := Option.bind_eq_some_iff.1 hv
    obtain ⟨_, -, hv⟩ := Option.bind_eq_some_iff.1 hv
    obtain ⟨_, -, hv⟩ := Option.bind_eq_some_iff.1 hv
    obtain ⟨_, hkey, -⟩ := Option.bind_eq_some_iff.1 hv
    obtain ⟨s, hs, -⟩ := Option.bind_eq_some_iff.1 hkey
    cases pubkey <;> cases hs
    exact ⟨s, htags, hpub⟩
  · cases h

/-- A receipt is built unless a tag is empty, and carries what it should. -/
theorem zapReceipt_eq {request : Json} {tags : List (List Str)} {pubkey : Str}
    (htags : Nostr.tags? request = some tags) (hpub : request.get "pubkey" = some (.str pubkey))
    (raw bolt11 : Str) (preimage : Option Str) (secret : Str) (t : ℤ) :
    Nostr.zapReceipt d request raw bolt11 preimage secret t =
      if [] ∈ tags then none
      else some (Nostr.signEvent d Nostr.zapReceiptKind
        (receiptTags tags pubkey bolt11 raw preimage) [] secret t) := by
  rw [Nostr.zapReceipt, htags, hpub, Option.bind_eq_bind, Option.bind_some, repeatedTags_eq]
  split
  · rfl
  · rcases preimage with _ | _ | ⟨c, cs⟩ <;> simp [receiptTags, Json.str?, Option.filter]

end Receipts

variable {d : Deps} {cfg : Settings d}

/-! ## Requests on file -/

/-- The zap requests on file were all accepted, for some amount. -/
def ZapsAccepted (d : Deps) (s : NoteStore) : Prop :=
  ∀ h m raw, s.mints.find? h = some m → m.zapRequest = some raw →
    ∃ amount request, Nostr.validateZapRequest d raw amount = .ok (.ok request)

theorem ZapsAccepted.step {s s' : NoteStore} {now : ℤ} {u : Update} (hz : ZapsAccepted d s)
    (hs : MintsStep now u s s')
    (hu : ∀ {h pr amount id raw username}, u = .createMint h pr amount id (some raw) username →
      ∃ amount request, Nostr.validateZapRequest d raw amount = .ok (.ok request)) :
    ZapsAccepted d s' := by
  intro h m raw hm hraw
  rcases NoteStore.mint_of_mintsStep hs hm with ⟨m₀, hm₀, hc⟩ | ⟨hcreate, -⟩
  · exact hz h m₀ raw hm₀ (hc.zapRequest.trans hraw)
  · rw [hraw] at hcreate
    exact hu hcreate

theorem Run.zapsAccepted {s : State} {w : World (mint cfg)} (h : Run (law cfg) s w)
    (hs : ZapsAccepted d s.store) : ZapsAccepted d w.st.store := by
  refine Run.store_induct h hs (fun _ _ hu hz ho => hz.step (Update.mintsStep ho) ?_) fun hz => hz
  rintro h pr amount id raw username rfl
  obtain ⟨-, -, ⟨gross, _, -, -, -, -, -, hzap⟩, -⟩ := hu
  exact ⟨gross, hzap raw rfl⟩

/-- So are those that a round finds, once it has settled what it could. -/
theorem ZapsAccepted.roundLeaves {env : Surroundings (mint cfg)} {m : Moment (mint cfg)}
    (hz : ZapsAccepted d m.st.store) : ZapsAccepted d (roundLeaves env m) := by
  rw [roundLeaves_eq_sweep]
  refine sweep_keep (P := fun m' : Moment (mint cfg) => ZapsAccepted d m'.st.store) ?_
    (roundPolled env m) hz
  intro m' x hm'
  rcases turn_store env x m' with he | ⟨h, now, out, -, ho⟩ | ⟨h, now, out, -, ho⟩
  · rw [afterTurn, he]
    exact hm'
  · have hs := Update.mintsStep (i := ⟨now, ""⟩) (u := .settleMint h (some (shareNoteId d))) ho
    refine hm'.step hs ?_
    intro _ _ _ _ _ _ he
    cases he
  · have hs := Update.mintsStep (i := ⟨now, ""⟩) (u := .settleAddressFee h) ho
    refine hm'.step hs ?_
    intro _ _ _ _ _ _ he
    cases he

/-! ## One receipt in a round -/

/-- A request with an empty tag. -/
def Nameless (d : Deps) (raw : Str) : Prop :=
  ∃ request tags, d.jsonLoads raw = .ok request ∧ Nostr.tags? request = some tags ∧ [] ∈ tags

/-- A zap has its receipt. -/
def Published (s : NoteStore) (zap : Str × Str × Str) : Prop :=
  ∃ m, s.mints.find? zap.1 = some m ∧ m.zapReceipt.isSome = true

/-- A zap that was accepted and has no receipt yet. -/
def Unpublished (d : Deps) (zap : Str × Str × Str) (s : NoteStore) : Prop :=
  (∃ m, s.mints.find? zap.1 = some m ∧ m.zapReceipt = none) ∧
    ∃ amount request, Nostr.validateZapRequest d zap.2.2 amount = .ok (.ok request)

theorem Unpublished.not_published {s : NoteStore} {zap : Str × Str × Str}
    (h : Unpublished d zap s) : ¬ Published s zap := by
  obtain ⟨⟨m, hm, hnone⟩, -⟩ := h
  rintro ⟨m', hm', hsome⟩
  rw [hm] at hm'
  cases hm'
  rw [hnone] at hsome
  cases hsome

variable (cfg) in
/-- Where a receipt goes: to the relays that the request names, and to the mint's. -/
def receiptRelays (raw : Str) : List Str :=
  (((d.jsonLoads raw).toOption.bind Nostr.tags?).elim [] Nostr.relaysOf ++
    cfg.nostrRelayList).eraseDups

section Receipt

variable (env : Surroundings (mint cfg)) (secret : Str) (m : Moment (mint cfg))

/-- The preimage that the funding source names. -/
def preimageOf (hash : Str) : Option Str :=
  if cfg.fundingsourceBackend = none then none
  else preimageHex (env.answers (.invoicePreimage hash))

/-- The receipt of a zap whose turn comes at this moment. -/
def receiptAt (zap : Str × Str × Str) : Option NostrEvent :=
  (d.jsonLoads zap.2.2).toOption.bind fun request => Nostr.zapReceipt d request zap.2.2 zap.2.1
    (preimageOf env zap.1) secret (env.inputs m.ops).now

/-- It is built, and a relay takes it. -/
def Accepted (zap : Str × Str × Str) : Prop :=
  ∃ receipt, receiptAt env secret m zap = some receipt ∧
    env.answers (.publish (receiptRelays cfg zap.2.2) receipt) = true

/-- The moment after a zap's own turn. -/
def afterReceipt (m : Moment (mint cfg)) (zap : Str × Str × Str) : Moment (mint cfg) :=
  ((publishZapReceipt cfg secret zap).alone env m).1

/-- Whether a zap's own turn ends the round. -/
def endsReceipts (m : Moment (mint cfg)) (zap : Str × Str × Str) : Prop :=
  Prog.ended ((publishZapReceipt cfg secret zap).alone env m).2 = true

instance (zap : Str × Str × Str) : Decidable (endsReceipts env secret m zap) :=
  inferInstanceAs (Decidable (_ = _))

variable {env secret m} {zap : Str × Str × Str}

variable (env secret m) in
theorem receiptAt_eq_none {amount : ℤ} {request : Json}
    (h : Nostr.validateZapRequest d zap.2.2 amount = .ok (.ok request)) :
    receiptAt env secret m zap = none ↔ Nameless d zap.2.2 := by
  obtain ⟨hload, tags, pubkey, htags, hpub⟩ := validateZapRequest_ok h
  rw [receiptAt, hload, Except.toOption, Option.bind_some, zapReceipt_eq htags hpub]
  constructor
  · intro hnone
    by_cases hmem : [] ∈ tags
    · exact ⟨request, tags, hload, htags, hmem⟩
    · rw [if_neg hmem] at hnone
      cases hnone
  · rintro ⟨request', tags', hload', htags', hmem⟩
    rw [hload] at hload'
    cases hload'
    rw [htags] at htags'
    cases htags'
    exact if_pos hmem

theorem alone_mintPreimage (hash : Str) :
    (mintPreimage cfg hash).alone env m = (m, some (.ok (preimageOf env hash))) := by
  by_cases hb : cfg.fundingsourceBackend = none
  · rw [mintPreimage, preimageOf, if_pos hb, if_pos hb]
    rfl
  · rw [mintPreimage, preimageOf, if_neg hb, if_neg hb]
    rfl

/-- A zap's turn: it raises before its receipt is built, or publishes it and notes so if a relay
took it. -/
theorem alone_publishZapReceipt {request : Json} (hload : d.jsonLoads zap.2.2 = .ok request) :
    (publishZapReceipt cfg secret zap).alone env m = match receiptAt env secret m zap with
      | none => (⟨m.ops + 1, m.st⟩, some (.error .other))
      | some receipt =>
        if env.answers (.publish (receiptRelays cfg zap.2.2) receipt) = true then
          (⟨m.ops + 2, { m.st with store := m.st.store.markZapPublished zap.1 receipt.id }⟩,
            some (.ok ()))
        else (⟨m.ops + 1, m.st⟩, some (.ok ())) := by
  rw [receiptAt, hload, Except.toOption, Option.bind_some, publishZapReceipt, hload]
  show (do
    let preimage ← mintPreimage cfg zap.1
    let t ← now
    let receipt ← Prog.orRaise
      (Nostr.zapReceipt d request zap.2.2 zap.2.1 preimage secret t) .other
    let tags ← Prog.orRaise (Nostr.tags? request) .other
    let relays := (Nostr.relaysOf tags ++ cfg.nostrRelayList).eraseDups
    let accepted : Bool ← ask (.publish relays receipt)
    if accepted then write (.markZapPublished zap.1 receipt.id) else return () :
      Mint Unit).alone env m = _
  rw [Prog.alone_bind, alone_mintPreimage]
  show (do
    let receipt ← Prog.orRaise (Nostr.zapReceipt d request zap.2.2 zap.2.1 (preimageOf env zap.1)
      secret (env.inputs m.ops).now) .other
    let tags ← Prog.orRaise (Nostr.tags? request) .other
    let relays := (Nostr.relaysOf tags ++ cfg.nostrRelayList).eraseDups
    let accepted : Bool ← ask (.publish relays receipt)
    if accepted then write (.markZapPublished zap.1 receipt.id) else return () :
      Mint Unit).alone env ⟨m.ops + 1, m.st⟩ = _
  cases hbuilt : Nostr.zapReceipt d request zap.2.2 zap.2.1 (preimageOf env zap.1) secret
    (env.inputs m.ops).now with
  | none => rfl
  | some receipt =>
    -- its tags could be read, or it would not have been built
    obtain ⟨tags, htags, -⟩ := Option.bind_eq_some_iff.1 hbuilt
    have hrelays : receiptRelays cfg zap.2.2 =
        (Nostr.relaysOf tags ++ cfg.nostrRelayList).eraseDups := by
      rw [receiptRelays, hload, Except.toOption, Option.bind_some, htags, Option.elim_some]
    rw [hrelays, htags]
    show (if env.answers (.publish (Nostr.relaysOf tags ++ cfg.nostrRelayList).eraseDups receipt) =
      true then write (.markZapPublished zap.1 receipt.id) else pure () : Mint Unit).alone env
        ⟨m.ops + 1, m.st⟩ = _
    dsimp only
    by_cases htaken : env.answers
        (.publish (Nostr.relaysOf tags ++ cfg.nostrRelayList).eraseDups receipt) = true
    · rw [if_pos htaken, if_pos htaken]
      rfl
    · rw [if_neg htaken, if_neg htaken]
      rfl

variable (env secret m zap) in
/-- A turn leaves the store as it was, or notes a receipt. -/
theorem afterReceipt_store : (afterReceipt env secret m zap).st.store = m.st.store ∨
    ∃ receiptId, (afterReceipt env secret m zap).st.store =
      m.st.store.markZapPublished zap.1 receiptId := by
  rw [afterReceipt]
  cases hload : d.jsonLoads zap.2.2 with
  | error e =>
    rw [publishZapReceipt, hload]
    exact .inl rfl
  | ok request =>
    rw [alone_publishZapReceipt hload]
    split
    · exact .inl rfl
    · split
      · exact .inr ⟨_, rfl⟩
      · exact .inl rfl

theorem find?_markZapPublished (s : NoteStore) (hash receiptId h : Str) :
    (s.markZapPublished hash receiptId).mints.find? h = (s.mints.find? h).map fun m =>
      if h = hash then { m with zapReceipt := some receiptId } else m := by
  rw [NoteStore.markZapPublished, Table.find?_modify]

/-- Who has a receipt keeps it. -/
theorem Published.afterReceipt {other : Str × Str × Str} (h : Published m.st.store zap) :
    Published (afterReceipt env secret m other).st.store zap := by
  obtain ⟨row, hrow, hsome⟩ := h
  rcases afterReceipt_store env secret m other with he | ⟨receiptId, he⟩
  · exact ⟨row, he ▸ hrow, hsome⟩
  · have hfind := find?_markZapPublished m.st.store other.1 receiptId zap.1
    rw [← he, hrow, Option.map_some] at hfind
    refine ⟨_, hfind, ?_⟩
    split
    · rfl
    · exact hsome

/-- Who has none gets none by the turn of another. -/
theorem Unpublished.afterReceipt {other : Str × Str × Str} (hne : other.1 ≠ zap.1)
    (h : Unpublished d zap m.st.store) :
    Unpublished d zap (afterReceipt env secret m other).st.store := by
  obtain ⟨⟨row, hrow, hnone⟩, hvalid⟩ := h
  refine ⟨⟨row, ?_, hnone⟩, hvalid⟩
  rcases afterReceipt_store env secret m other with he | ⟨receiptId, he⟩
  · exact he ▸ hrow
  · rw [he, find?_markZapPublished, hrow, Option.map_some, if_neg hne.symm]

/-- A zap's turn ends the round exactly when its request has an empty tag. -/
theorem endsReceipts_iff (h : Unpublished d zap m.st.store) :
    endsReceipts env secret m zap ↔ Nameless d zap.2.2 := by
  obtain ⟨-, amount, request, hvalid⟩ := h
  rw [endsReceipts, alone_publishZapReceipt (validateZapRequest_ok hvalid).1,
    ← receiptAt_eq_none env secret m hvalid]
  cases receiptAt env secret m zap with
  | none => simp [Prog.ended]
  | some receipt =>
    dsimp only
    split <;> simp [Prog.ended]

/-- And it achieves what it should exactly when a relay takes the receipt. -/
theorem published_afterReceipt_iff (h : Unpublished d zap m.st.store) :
    Published (LnurlMint.afterReceipt env secret m zap).st.store zap ↔
      Accepted env secret m zap := by
  obtain ⟨⟨row, hrow, -⟩, amount, request, hvalid⟩ := id h
  rw [LnurlMint.afterReceipt, alone_publishZapReceipt (validateZapRequest_ok hvalid).1, Accepted]
  cases receiptAt env secret m zap with
  | none => exact iff_of_false h.not_published (by simp)
  | some receipt =>
    dsimp only
    split
    · rename_i htaken
      have hfind := find?_markZapPublished m.st.store zap.1 receipt.id zap.1
      rw [hrow, Option.map_some, if_pos rfl] at hfind
      exact iff_of_true ⟨_, hfind, rfl⟩ ⟨receipt, rfl, htaken⟩
    · rename_i htaken
      refine iff_of_false h.not_published ?_
      rintro ⟨_, ⟨⟩, htaken'⟩
      exact htaken htaken'

end Receipt

/-! ## The round -/

section Round

variable (env : Surroundings (mint cfg)) (m : Moment (mint cfg))

/-- The moment at which a round begins to publish: it has settled what it could and read what has no
receipt. -/
def zapsStart : Moment (mint cfg) :=
  ⟨((settlePolledMints cfg).alone env m).1.ops + 1, ((settlePolledMints cfg).alone env m).1.st⟩

/-- The zaps that it finds without a receipt. -/
def roundZaps : List (Str × Str × Str) := (roundLeaves env m).unpublishedZaps

/-- The store that the whole round leaves, or that it was ended at. -/
def receiptsLeave : NoteStore := ((publishZapReceipts cfg).alone env m).1.st.store

/-- A round that settles what it could goes on to its receipts. -/
theorem receiptsLeave_eq {secret : Str} (hkey : cfg.nostrKey = some secret) :
    receiptsLeave env m = if Prog.ended ((settlePolledMints cfg).alone env m).2 = true then
        roundLeaves env m
      else (sweep (afterReceipt env secret) (endsReceipts env secret) (zapsStart env m)
        (roundZaps env m)).st.store := by
  rw [receiptsLeave, publishZapReceipts, hkey, Prog.alone_bind, roundZaps, roundLeaves, zapsStart]
  rcases (settlePolledMints cfg).alone env m with ⟨m', _ | _ | _⟩
  · rfl
  · rfl
  · show ((forEach (publishZapReceipt cfg secret) m'.st.store.unpublishedZaps).alone env
      ⟨m'.ops + 1, m'.st⟩).1.st.store = _
    rw [alone_forEach]
    rfl

theorem pairwise_unpublishedZaps (s : NoteStore) :
    s.unpublishedZaps.Pairwise fun y x => y.1 ≠ x.1 := by
  rw [NoteStore.unpublishedZaps, List.pairwise_filterMap]
  refine (List.pairwise_map.1 s.mints.nodup).imp ?_
  intro row row' hne y hy x hx
  split at hy
  · split at hx
    · obtain ⟨_, -, rfl⟩ := Option.map_eq_some_iff.1 hy
      obtain ⟨_, -, rfl⟩ := Option.map_eq_some_iff.1 hx
      exact hne
    · cases hx
  · cases hy

theorem unpublished_of_mem {s : NoteStore} (hz : ZapsAccepted d s) {zap : Str × Str × Str}
    (h : zap ∈ s.unpublishedZaps) : Unpublished d zap s := by
  obtain ⟨row, hrow, hzap⟩ := List.mem_filterMap.1 h
  split at hzap
  · rename_i hcond
    obtain ⟨raw, hraw, rfl⟩ := Option.map_eq_some_iff.1 hzap
    have hfind := Table.find?_of_mem hrow
    simp only [Bool.and_eq_true, Option.isNone_iff_eq_none] at hcond
    exact ⟨⟨row, hfind, hcond.2⟩, hz _ _ _ hfind hraw⟩
  · cases hzap

variable {m} in
/-- A zap that comes later still has no receipt when its turn comes. -/
theorem unpublished_at_turn (secret : Str) (hz : ZapsAccepted d m.st.store)
    {l r : List (Str × Str × Str)} {x : Str × Str × Str} (heq : roundZaps env m = l ++ x :: r) :
    Unpublished d x (turns (afterReceipt env secret) (zapsStart env m) l).st.store := by
  have hx : ∀ y ∈ l, y.1 ≠ x.1 := by
    have hpair := pairwise_unpublishedZaps (roundLeaves env m)
    rw [show NoteStore.unpublishedZaps _ = _ from heq, List.pairwise_append] at hpair
    exact fun y hy => hpair.2.2 y hy x List.mem_cons_self
  refine turns_keep (afterReceipt env secret) (fun y x => y.1 ≠ x.1)
    (P := fun x (m : Moment (mint cfg)) => Unpublished d x m.st.store) ?_ l hx
    (unpublished_of_mem hz.roundLeaves (show x ∈ roundZaps env m by rw [heq]; simp))
  exact fun _ _ _ hne h => h.afterReceipt hne

/-- **Which zaps get their receipts.** A request that was accepted has its receipt built, with what
it should carry, exactly when none of its tags is empty. And a round publishes the receipt of every
zap for which a relay would take it, exactly when nothing that it settles first fails and no zap
before such a one has an empty tag. -/
theorem zap_receipts_iff {secret : Str} (hkey : cfg.nostrKey = some secret)
    {c : Config (mint cfg)} (h : Reach State.initial c) (ops : ℕ) :
    (∀ raw amount request, Nostr.validateZapRequest d raw amount = .ok (.ok request) →
      ∃ tags pubkey, Nostr.tags? request = some tags ∧
        request.get "pubkey" = some (.str pubkey) ∧ ((∀ bolt11 preimage t, ∃ receipt,
          Nostr.zapReceipt d request raw bolt11 preimage secret t = some receipt ∧
            receipt.kind = Nostr.zapReceiptKind ∧
            receipt.tags = receiptTags tags pubkey bolt11 raw preimage) ↔ [] ∉ tags)) ∧
    ((∀ l x r, roundZaps env ⟨ops, c.w.st⟩ = l ++ x :: r →
        Accepted env secret
          (turns (afterReceipt env secret) (zapsStart env ⟨ops, c.w.st⟩) l) x →
        Published (receiptsLeave env ⟨ops, c.w.st⟩) x) ↔
      ∀ l x r, roundZaps env ⟨ops, c.w.st⟩ = l ++ x :: r →
        Accepted env secret
          (turns (afterReceipt env secret) (zapsStart env ⟨ops, c.w.st⟩) l) x →
        (∀ l' y r', roundPolled env ⟨ops, c.w.st⟩ = l' ++ y :: r' →
          ¬ y.Fails env (turns (afterTurn env) (roundStart ⟨ops, c.w.st⟩) l')) ∧
        ∀ y ∈ l, ¬ Nameless d y.2.2) := by
  have hz : ZapsAccepted d c.w.st.store :=
    Run.zapsAccepted (Reach.law h) fun _ _ _ hm => by cases hm
  constructor
  · intro raw amount request hvalid
    obtain ⟨-, tags, pubkey, htags, hpub⟩ := validateZapRequest_ok hvalid
    refine ⟨tags, pubkey, htags, hpub, ?_⟩
    constructor
    · intro hall hmem
      obtain ⟨receipt, hbuilt, -⟩ := hall [] none 0
      rw [zapReceipt_eq htags hpub, if_pos hmem] at hbuilt
      cases hbuilt
    · intro hmem bolt11 preimage t
      exact ⟨_, by rw [zapReceipt_eq htags hpub, if_neg hmem], rfl, rfl⟩
  · set m : Moment (mint cfg) := ⟨ops, c.w.st⟩
    have hfresh {l r x} (heq : roundZaps env m = l ++ x :: r) :=
      unpublished_at_turn env secret hz heq
    rw [receiptsLeave_eq env m hkey]
    by_cases hended : Prog.ended ((settlePolledMints cfg).alone env m).2 = true
    · -- nothing is published, and something failed
      rw [if_pos hended]
      obtain ⟨l', y, r', hpolled, hfails⟩ := (round_ended_iff env m).1 hended
      constructor
      · intro hall l x r heq hacc
        have hx := unpublished_of_mem hz.roundLeaves
          (show x ∈ roundZaps env m by rw [heq]; simp)
        exact absurd (hall l x r heq hacc) hx.not_published
      · intro hnone l x r heq hacc
        exact absurd hfails ((hnone l x r heq hacc).1 l' y r' hpolled)
    · rw [if_neg hended]
      have hnofail : ∀ l' y r', roundPolled env m = l' ++ y :: r' →
          ¬ y.Fails env (turns (afterTurn env) (roundStart m) l') :=
        fun l' y r' heq hf => hended ((round_ended_iff env m).2 ⟨l', y, r', heq, hf⟩)
      have hswept := swept_iff (afterReceipt env secret) (endsReceipts env secret)
        (fun y x => y.1 ≠ x.1) (fun x (m : Moment (mint cfg)) => Unpublished d x m.st.store)
        (fun x (m : Moment (mint cfg)) => Published m.st.store x)
        (fun _ _ hu => hu.not_published) (fun _ _ _ hne hu => hu.afterReceipt hne)
        (fun _ _ _ hp => hp.afterReceipt) (pairwise_unpublishedZaps (roundLeaves env m))
        (s := zapsStart env m) fun x hx => unpublished_of_mem hz.roundLeaves hx
      constructor
      · intro hall l x r heq hacc
        refine ⟨hnofail, ?_⟩
        intro y hy hname
        obtain ⟨l₁, l₂, rfl⟩ := List.append_of_mem hy
        rw [List.append_assoc, List.cons_append] at heq
        refine hswept.1 ?_ l₁ y l₂ x r heq ((endsReceipts_iff (hfresh heq)).2 hname) ?_
        · intro l' x' r' heq' hp
          exact hall l' x' r' heq' ((published_afterReceipt_iff (hfresh heq')).1 hp)
        · have heq' : roundZaps env m = (l₁ ++ y :: l₂) ++ x :: r := by
            rw [heq, List.append_assoc]
            rfl
          exact (published_afterReceipt_iff (hfresh heq')).2 hacc
      · intro hnone l x r heq hacc
        refine hswept.2 ?_ l x r heq ((published_afterReceipt_iff (hfresh heq)).2 hacc)
        intro l' x' k y r' heq' hends hp
        have heq'' : roundZaps env m = (l' ++ x' :: k) ++ y :: r' := by
          rw [show roundZaps env m = _ from heq', List.append_assoc]
          rfl
        have hacc' := (published_afterReceipt_iff (hfresh heq'')).1 hp
        exact (hnone _ y r' heq'' hacc').2 x' (by simp) ((endsReceipts_iff (hfresh heq')).1 hends)

end Round

/-! ## An empty tag -/

/-- A zap request that carries these tags beside those it needs. -/
def standInRequest (more : List (List Str)) : Json :=
  let pubkey := standInKey '1'
  let tags := [["p".toList, pubkey], ["relays".toList, "wss://relay".toList]] ++ more
  let ident := Nostr.eventId .standIn (.str pubkey) (.ofInt 0) (.ofInt Nostr.zapRequestKind)
    (Nostr.tagsJson tags) (.str [])
  .obj [("kind".toList, .ofInt Nostr.zapRequestKind), ("tags".toList, Nostr.tagsJson tags),
    ("pubkey".toList, .str pubkey), ("created_at".toList, .ofInt 0), ("content".toList, .str []),
    ("id".toList, .str ident), ("sig".toList, .str (pubkey ++ ident))]

/-- The stand-in with two zap requests, one with an empty tag. -/
def Deps.zapping : Deps := { Deps.standIn with
  jsonLoads := fun raw =>
    if raw = "plain".toList then .ok (standInRequest [])
    else if raw = "empty".toList then .ok (standInRequest [[]])
    else .error (.value "Expecting value") }

/-- A mint on it that can be zapped. -/
def Settings.zapping : Settings .zapping := { Settings.standIn with
  nostrKey := some (standInKey '2')
  baseUrl_hostname := by simp [Settings.standIn, Deps.zapping, Deps.standIn]
  onionUrl_hostname := by simp [Settings.standIn] }

/-- A name is registered and zapped with this request; the invoice has the request for its hash. -/
def standInZaps (tid : ℕ) (name : Str) (share : Char) (raw : Str) :
    List (Choice (mint Settings.zapping)) :=
  standInRegisters tid name share 0 ++
    standInAsks (tid + 3) (.getPayCallbackForUsername name 10000 none (some raw) none) ++
    standInGoes 2 0 ++ [.answer (tid + 3) (standInAnswer ("ln".toList ++ raw) true)] ++
    standInGoes 2 0

/-- Its zap, as a round finds it. -/
def standInZap (raw : Str) : Str × Str × Str := (raw, "ln".toList ++ raw, raw)

/-- Every invoice is paid, and every receipt is taken. -/
def standInTaken : Surroundings (mint Settings.zapping) :=
  ⟨standInAnswer [] true, fun _ => ⟨10, ""⟩⟩

/-- A round finds these zaps, and would publish the receipt of the last had those before it their
turns; whether it has its receipt in the end. -/
def zapEnds (before : List Str) (last : Str) (m : Moment (mint Settings.zapping)) : Option Bool :=
  if roundZaps standInTaken m = before.map standInZap ++ [standInZap last] ∧
      (receiptAt standInTaken (standInKey '2') (turns (afterReceipt standInTaken (standInKey '2'))
        (zapsStart standInTaken m) (before.map standInZap)) (standInZap last)).isSome = true then
    some (((receiptsLeave standInTaken m).mints.find? last).any fun row => row.zapReceipt.isSome)
  else none

theorem zapEnds_eq_some {before : List Str} {last : Str} {m : Moment (mint Settings.zapping)}
    {published : Bool} (h : zapEnds before last m = some published) :
    roundZaps standInTaken m = before.map standInZap ++ standInZap last :: [] ∧
      Accepted standInTaken (standInKey '2') (turns (afterReceipt standInTaken (standInKey '2'))
        (zapsStart standInTaken m) (before.map standInZap)) (standInZap last) ∧
      (Published (receiptsLeave standInTaken m) (standInZap last) ↔ published = true) := by
  rw [zapEnds] at h
  split at h
  · rename_i hcond
    obtain ⟨hzaps, hbuilt⟩ := hcond
    obtain ⟨receipt, hreceipt⟩ := Option.isSome_iff_exists.1 hbuilt
    rw [← Option.some.inj h, Option.any_eq_true]
    exact ⟨hzaps, ⟨receipt, hreceipt, rfl⟩, Iff.rfl⟩
  · cases h

/-- A zap by itself gets its receipt. -/
theorem zap_receipts_iff_plain : ∃ c : Config (mint Settings.zapping), Reach State.initial c ∧
    roundZaps standInTaken ⟨0, c.w.st⟩ = [standInZap "plain".toList] ∧
    Published (receiptsLeave standInTaken ⟨0, c.w.st⟩) (standInZap "plain".toList) := by
  have hrun : (standInRun (standInZaps 0 "bob".toList 'p' "plain".toList)).any (fun c =>
      (zapEnds [] "plain".toList ⟨0, c.w.st⟩).isSome &&
        !Prog.ended ((settlePolledMints Settings.zapping).alone standInTaken ⟨0, c.w.st⟩).2) =
      true := by
    decide +kernel
  obtain ⟨c, hc, h⟩ := exists_standInRun hrun
  simp only [Bool.and_eq_true, Bool.not_eq_true'] at h
  obtain ⟨_, hends⟩ := Option.isSome_iff_exists.1 h.1
  obtain ⟨hzaps, hacc, -⟩ := zapEnds_eq_some hends
  refine ⟨c, hc, hzaps, (zap_receipts_iff standInTaken rfl hc 0).2.2 ?_ [] _ [] hzaps hacc⟩
  intro l x r heq _
  constructor
  · intro l' y r' hpolled hfails
    have hended := (round_ended_iff standInTaken ⟨0, c.w.st⟩).2 ⟨l', y, r', hpolled, hfails⟩
    rw [h.2] at hended
    cases hended
  · rw [hzaps] at heq
    cases l with
    | nil => intro y hy; cases hy
    | cons y l => simp at heq

/-- **A zap with an empty tag is accepted and gets no receipt, and keeps another from its own.** -/
theorem zap_receipt_lost :
    (∃ request, Nostr.validateZapRequest .zapping "empty".toList 10000 = .ok (.ok request) ∧
      ∀ bolt11 preimage secret t,
        Nostr.zapReceipt .zapping request "empty".toList bolt11 preimage secret t = none) ∧
    ∃ c : Config (mint Settings.zapping), Reach State.initial c ∧
      ∃ l x r, roundZaps standInTaken ⟨0, c.w.st⟩ = l ++ x :: r ∧
        Accepted standInTaken (standInKey '2') (turns (afterReceipt standInTaken (standInKey '2'))
          (zapsStart standInTaken ⟨0, c.w.st⟩) l) x ∧
        ¬ Published (receiptsLeave standInTaken ⟨0, c.w.st⟩) x := by
  constructor
  · have haccepted : ((Nostr.validateZapRequest .zapping "empty".toList 10000).toOption.bind
        Except.toOption).isSome = true := by decide +kernel
    have hempty : (((Deps.zapping.jsonLoads "empty".toList).toOption.bind Nostr.tags?).any
        ([] ∈ ·)) = true := by decide +kernel
    cases hvalid : Nostr.validateZapRequest .zapping "empty".toList 10000 with
    | error e =>
      rw [hvalid] at haccepted
      cases haccepted
    | ok checked =>
      cases checked with
      | error problem =>
        rw [hvalid] at haccepted
        cases haccepted
      | ok request =>
      refine ⟨request, rfl, fun bolt11 preimage secret t => ?_⟩
      obtain ⟨hload, tags, pubkey, htags, hpub⟩ := validateZapRequest_ok hvalid
      rw [hload, Except.toOption, Option.bind_some, htags] at hempty
      rw [zapReceipt_eq htags hpub, if_pos (of_decide_eq_true hempty)]
  · have hrun : (standInRun (standInZaps 0 "alice".toList 'z' "empty".toList ++
        standInZaps 9 "bob".toList 'p' "plain".toList)).any (fun c =>
          decide (zapEnds ["empty".toList] "plain".toList ⟨0, c.w.st⟩ = some false)) = true := by
      decide +kernel
    obtain ⟨c, hc, h⟩ := exists_standInRun hrun
    obtain ⟨hzaps, hacc, hpub⟩ := zapEnds_eq_some (of_decide_eq_true h)
    exact ⟨c, hc, _, _, _, hzaps, hacc, fun hp => Bool.false_ne_true (hpub.1 hp)⟩

end LnurlMint
