import LnurlMint.AddressPayments
import LnurlMint.Powers

/-!
# By whose word a name is held

The mint has no accounts. A name belongs to whoever holds the key of the share it was registered
for: he proves it when he registers the name, and the holder of the share on file proves it when the
name is moved or freed. With an address fee, the proof is given long before the name is registered,
by another request than the one that settles the fee, or by a background round.

So the table of names is nothing but what was proved: it can be read off the history alone. A name
is on file for a share exactly if there is a title to it, an unbroken chain that begins with a claim
by the key of a share and goes from one share to the next by the word of the key on file.

## Main definitions

* `Claimed`, `Moved`, `Freed` — what a request proves
* `nameLaw` — names change by these proofs only
* `Title` — the chain

## Main results

* `body_names` — every task keeps that law
* `names_by_title` — the names on file are those that there is a title to
-/

namespace LnurlMint

open Interleave Relational

variable {d : Deps} (cfg : Settings d)

/-! ## Proofs -/

/-- A share that a form brings, and the mint's name that the proofs in it are for. -/
structure Brought (baseUrl : Str) (form : Form) (cx1 : Str) (share : Bytes) (dom : Str) : Prop where
  sent : form.get "cx1".toList = some cx1
  decoded : decodeCx1 d cx1 = some share
  named : mintDomain cfg baseUrl = .ok dom

/-- The task is a request by which the holder of a share's key claims a name for it. -/
def Claimed (t : Task) (username cx1 xp : Str) (nostrPubkey : Option Str) : Prop :=
  ∃ baseUrl name form c share dom sig,
    t = .request ⟨baseUrl, .registerUsername name form⟩ ∧ username = d.lower name ∧
    registrableUsername cfg username = true ∧ Brought cfg baseUrl form c share dom ∧
    cx1 = hex share ∧ xp = hex (share.drop 33) ∧ form.get "sig".toList = some sig ∧
    proves d .register dom username c (share.drop 33) sig = true ∧
    nostrPubkey = ((form.get "npub".toList).bind (decodeNpub d)).map hex ∧
    (nostrPubkey.isSome = true → cfg.nip05Enabled = true)

/-- The task is a request by which the holder of the key on file moves a name to a share, whose own
key claims it. -/
def Moved (t : Task) (username onFile cx1 xp : Str) : Prop :=
  ∃ baseUrl name form c share dom sig newsig onFileXp,
    t = .request ⟨baseUrl, .updateRegisteredUsername name form⟩ ∧ username = d.lower name ∧
    Brought cfg baseUrl form c share dom ∧ cx1 = hex share ∧ xp = hex (share.drop 33) ∧
    form.get "sig".toList = some sig ∧ form.get "newsig".toList = some newsig ∧
    shareXp onFile = .ok (some onFileXp) ∧ proves d .update dom username c onFileXp sig = true ∧
    proves d .register dom username c (share.drop 33) newsig = true

/-- The task is a request by which the holder of the key on file frees a name. -/
def Freed (t : Task) (username onFile : Str) : Prop :=
  ∃ baseUrl name form dom sig onFileXp,
    t = .request ⟨baseUrl, .deleteRegisteredUsername name form⟩ ∧ username = d.lower name ∧
    mintDomain cfg baseUrl = .ok dom ∧ form.get "sig".toList = some sig ∧
    shareXp onFile = .ok (some onFileXp) ∧ proves d .unregister dom username [] onFileXp sig = true

/-- What a task may do to names in this store. -/
def MayName (t : Task) (s : NoteStore) : Update → Prop
  | .registerUsername username cx1 xp nostrPubkey =>
    cfg.addressFee = 0 ∧ Claimed cfg t username cx1 xp nostrPubkey
  | .holdUsername _ _ username cx1 xp nostrPubkey amountMsat _ =>
    cfg.addressFee ≠ 0 ∧ amountMsat = cfg.addressFee ∧ Claimed cfg t username cx1 xp nostrPubkey
  | .updateUsername username cx1 xp => ∃ row, s.usernames.find? username = some row ∧
    Moved cfg t username row.cx1 cx1 xp
  | .deleteUsername username => ∃ row, s.usernames.find? username = some row ∧
    Freed cfg t username row.cx1
  | _ => True

/-- The law that names change by proof only. -/
def nameLaw : Law (mint cfg) where
  did w a o _ _ := match o with
    | .write u => MayName cfg a.task w.st.store u
    | _ => True
  called _ _ _ := True
  spawned _ _ _ := True
  finished _ _ _ := True

/-- What a task may do to names in any store. -/
def namesFreely (t : Task) : Scope mintSig where
  op
    | .write u => ∀ s, MayName cfg t s u
    | _ => True
  call _ := True
  task _ := True

section Programs

variable {cfg} {a : Actor mintSig} {w : World (mint cfg)} {α : Type} {t : Task} {baseUrl name : Str}
  {form : Form}

theorem nameLaw_frees : (nameLaw cfg).Frees a (namesFreely cfg a.task) where
  did w o i out ho := by
    cases o with
    | write u => exact ho w.st.store
    | _ => trivial
  called _ _ _ := trivial
  spawned _ _ _ := trivial

theorem looks_namesFreely : Looks (namesFreely cfg t) := ⟨fun _ => trivial, trivial, trivial⟩

/-! ## Registering -/

theorem claims_required {F : Scope mintSig} {key : String} :
    (required form key).Within F fun v => form.get key.toList = some v :=
  .orRaise _ _

theorem claims_registeredNpub {F : Scope mintSig} : ∀ npub : Option Str,
    (registeredNpub cfg npub).Within F fun pubkey => pubkey = (npub.bind (decodeNpub d)).map hex ∧
      (pubkey.isSome = true → cfg.nip05Enabled = true)
  | none => .pure ⟨rfl, fun h => by cases h⟩
  | some npub => by
    refine .bind (.raiseIf _ _) fun _ hon => .bind (.orRaise _ _) fun decoded hdecoded => ?_
    refine .pure ⟨?_, fun _ => Bool.eq_true_of_not_eq_false hon⟩
    rw [Option.bind_some, hdecoded, Option.map_some]

theorem claims_holdForAddressFee {username : Str} {share : Bytes} {npub : Option Str}
    (hfee : cfg.addressFee ≠ 0)
    (h : Claimed cfg t username (hex share) (hex (share.drop 33)) npub) :
    (holdForAddressFee cfg baseUrl username share npub cfg.addressFee).Within (namesFreely cfg t)
      fun _ => True := by
  refine .bind (within_read looks_namesFreely) fun _ _ => .bind (.raiseIf _ _) fun _ _ => ?_
  refine .bind within_requireFundingSource fun _ _ => .bind (.ofExcept _) fun host _ => ?_
  have hinvoice : (addressFeeInvoice (d := d) username host.2 cfg.addressFee).Within
      (namesFreely cfg t) fun _ => True := by
    refine .bind (within_ask_answer trivial) fun x _ => ?_
    obtain ⟨pr, preimage⟩ := x
    dsimp only
    split
    exacts [trivial, .pure trivial]
  refine .bind (.attempt hinvoice) fun invoice _ => ?_
  split
  · exact within_raiseInternal looks_namesFreely
  · refine .bind (within_paymentHashOf looks_namesFreely) fun hash _ => ?_
    refine .bind (within_valueErrorsAnswered (within_write ?_)) fun _ _ => .pure trivial
    exact fun _ => ⟨hfee, rfl, h⟩

theorem claims_registerUsername :
    (registerUsername cfg baseUrl name form).Within
      (namesFreely cfg (.request ⟨baseUrl, .registerUsername name form⟩)) fun _ => True := by
  refine .bind (.raiseIf _ _) fun _ _ => .bind claims_required fun c hc => ?_
  refine .bind claims_required fun sig hsig => .bind (.raiseIf _ _) fun _ hname => ?_
  refine .bind (.orRaise _ _) fun share hshare => ?_
  refine .bind (claims_registeredNpub _) fun npub ⟨hnpub, hnip05⟩ => ?_
  refine .bind (.ofExcept _) fun dom hdom => .bind (.raiseIf _ _) fun _ hproves => ?_
  have hclaimed : Claimed cfg (.request ⟨baseUrl, .registerUsername name form⟩) (d.lower name)
      (hex share) (hex (share.drop 33)) npub :=
    ⟨baseUrl, name, form, c, share, dom, sig, rfl, rfl, Bool.eq_true_of_not_eq_false hname,
      ⟨hc, hshare, hdom⟩, rfl, rfl, hsig, Bool.eq_true_of_not_eq_false hproves, hnpub, hnip05⟩
  split
  · next hfee =>
    refine .bind (within_valueErrorsAnswered (within_write ?_)) fun _ _ => .pure trivial
    exact fun _ => ⟨hfee, hclaimed⟩
  · next hfee => exact claims_holdForAddressFee hfee hclaimed

/-! ## Moving and freeing -/

/-- What is read is what is there, and stays there until the next call. -/
theorem wp_read_names {q : Query} {Q : Except Exn q.Out → World (mint cfg) → Prop}
    (h : ∀ i w', w'.st = w.st → Q (.ok (q.answer i w.st.store)) w') :
    wp (nameLaw cfg) a (read q) Q w := by
  refine wp_perform.2 fun i out s hs => ⟨trivial, ?_⟩
  obtain ⟨rfl, rfl⟩ := Prod.mk.inj (Option.some.inj hs)
  exact h i _ rfl

theorem wp_write_names {u : Update} {Q : Except Exn u.Out → World (mint cfg) → Prop}
    (h : MayName cfg a.task w.st.store u) (hQ : ∀ r w', Q r w') :
    wp (nameLaw cfg) a (write u) Q w :=
  wp_bind.2 (wp_perform.2 fun _ r _ _ => ⟨h, wp_ofExcept.2 (hQ r _)⟩)

theorem names_updateRegisteredUsername
    (ha : a.task = .request ⟨baseUrl, .updateRegisteredUsername name form⟩) :
    wp (nameLaw cfg) a (updateRegisteredUsername cfg baseUrl name form) (fun _ _ => True) w := by
  refine wp_bind.2 (wp_raiseIf.2 ⟨fun _ => trivial, fun _ => ?_⟩)
  refine wp_bind.2 (wp_orRaise.2 ⟨fun _ => trivial, fun c hc => ?_⟩)
  refine wp_bind.2 (wp_orRaise.2 ⟨fun _ => trivial, fun sig hsig => ?_⟩)
  refine wp_bind.2 (wp_orRaise.2 ⟨fun _ => trivial, fun newsig hnewsig => ?_⟩)
  refine wp_bind.2 (wp_read_names fun i w₁ hst => ?_)
  refine wp_bind.2 (wp_orRaise.2 ⟨fun _ => trivial, fun onFile honFile => ?_⟩)
  refine wp_bind.2 (wp_orRaise.2 ⟨fun _ => trivial, fun share hshare => ?_⟩)
  refine wp_bind.2 (wp_ofExcept.2 ?_)
  cases hxp : shareXp onFile with
  | error e => trivial
  | ok onFileXp =>
    refine wp_bind.2 (wp_ofExcept_cases.2 ⟨fun _ _ => trivial, fun dom hdom => ?_⟩)
    refine wp_bind.2 (wp_orRaise.2 ⟨fun _ => trivial, fun xp hx => ?_⟩)
    refine wp_bind.2 (wp_raiseIf.2 ⟨fun _ => trivial, fun hproves => ?_⟩)
    obtain ⟨hsigned, hclaimed⟩ := not_or.1 hproves
    obtain ⟨row, hrow, rfl⟩ := Option.map_eq_some_iff.1 honFile
    rw [valueErrorsAnswered, Prog.tryCatch_eq]
    refine wp_bind.2 (wp_thenE.2 (wp_write_names ?_ fun r w' => ?_))
    · rw [hst, ha]
      exact ⟨row, hrow, baseUrl, name, form, c, share, dom, sig, newsig, xp, rfl, rfl,
        ⟨hc, hshare, hdom⟩, rfl, rfl, hsig, hnewsig, hx ▸ hxp,
        Bool.eq_true_of_not_eq_false hsigned, Bool.eq_true_of_not_eq_false hclaimed⟩
    · rcases r with e | ⟨⟩
      · cases e <;> trivial
      · trivial

theorem names_deleteRegisteredUsername
    (ha : a.task = .request ⟨baseUrl, .deleteRegisteredUsername name form⟩) :
    wp (nameLaw cfg) a (deleteRegisteredUsername cfg baseUrl name form) (fun _ _ => True) w := by
  refine wp_bind.2 (wp_raiseIf.2 ⟨fun _ => trivial, fun _ => ?_⟩)
  refine wp_bind.2 (wp_orRaise.2 ⟨fun _ => trivial, fun sig hsig => ?_⟩)
  refine wp_bind.2 (wp_read_names fun i w₁ hst => ?_)
  refine wp_bind.2 (wp_orRaise.2 ⟨fun _ => trivial, fun onFile honFile => ?_⟩)
  refine wp_bind.2 (wp_ofExcept.2 ?_)
  cases hxp : shareXp onFile with
  | error e => trivial
  | ok onFileXp =>
    refine wp_bind.2 (wp_orRaise.2 ⟨fun _ => trivial, fun xp hx => ?_⟩)
    refine wp_bind.2 (wp_ofExcept_cases.2 ⟨fun _ _ => trivial, fun dom hdom => ?_⟩)
    refine wp_bind.2 (wp_raiseIf.2 ⟨fun _ => trivial, fun hproves => ?_⟩)
    obtain ⟨row, hrow, rfl⟩ := Option.map_eq_some_iff.1 honFile
    refine wp_bind.2 (wp_write_names ?_ fun r w' => ?_)
    · rw [hst, ha]
      exact ⟨row, hrow, baseUrl, name, form, dom, sig, xp, rfl, rfl, hdom, hsig, hx ▸ hxp,
        Bool.eq_true_of_not_eq_false hproves⟩
    · cases r <;> trivial

/-! ## Every task -/

/-- The other tasks do nothing to names. -/
theorem powers_namesFreely
    (hreg : ∀ baseUrl name form, t ≠ .request ⟨baseUrl, .registerUsername name form⟩)
    (hupd : ∀ baseUrl name form, t ≠ .request ⟨baseUrl, .updateRegisteredUsername name form⟩)
    (hdel : ∀ baseUrl name form, t ≠ .request ⟨baseUrl, .deleteRegisteredUsername name form⟩) :
    t.powers cfg ≤ namesFreely cfg t := by
  refine ⟨fun o ho => ?_, fun _ _ => trivial, fun _ _ => trivial⟩
  cases o with
  | write u =>
    intro s
    cases t with
    | request r =>
      obtain ⟨baseUrl, endpoint⟩ := r
      obtain ⟨-, ho⟩ := ho
      cases u with
      | registerUsername | holdUsername | updateUsername | deleteUsername =>
        cases endpoint with
        | registerUsername name form => exact absurd rfl (hreg baseUrl name form)
        | updateRegisteredUsername name form => exact absurd rfl (hupd baseUrl name form)
        | deleteRegisteredUsername name form => exact absurd rfl (hdel baseUrl name form)
        | getPayCallbackForUsername _ _ _ _ k1 => cases k1 <;> exact ho.elim
        | getWithdrawCallback _ pr amount => cases pr <;> cases amount <;> exact ho.elim
        | _ => exact ho.elim
      | _ => trivial
    | _ => cases u <;> trivial
  | _ => trivial

theorem names_lnurlErrorResponse {p : Mint Response}
    (h : wp (nameLaw cfg) a p (fun _ _ => True) w) :
    wp (nameLaw cfg) a (lnurlErrorResponse p) (fun _ _ => True) w := by
  refine wp_thenE.2 (wp_mono h fun r w' _ => ?_)
  rcases r with e | resp
  · have logged : wp (nameLaw cfg) a (do
        let reason ← logInternalError "Internal error"
        return Response.error reason) (fun _ _ => True) w' := by
      refine wp_bind.2 (wp_bind.2 (wp_perform.2 fun _ _ _ _ => ⟨trivial, trivial⟩))
    cases e with
    | http => trivial
    | _ => exact logged
  · trivial

/-- Every task keeps the law. -/
theorem body_names (a : Actor mintSig) (w : World (mint cfg)) :
    wp (nameLaw cfg) a (body cfg a.task) (fun _ _ => True) w := by
  have freely : ∀ {P : Response → Prop}, (body cfg a.task).Within (namesFreely cfg a.task) P →
      wp (nameLaw cfg) a (body cfg a.task) (fun _ _ => True) w :=
    fun h => wp_mono (wp_of_within nameLaw_frees h) fun _ _ _ => trivial
  by_cases hreg : ∃ baseUrl name form, a.task = .request ⟨baseUrl, .registerUsername name form⟩
  · obtain ⟨baseUrl, name, form, ht⟩ := hreg
    refine freely (P := fun _ => True) ?_
    rw [ht]
    refine .tryCatch claims_registerUsername fun e => ?_
    cases e with
    | http => exact .pure trivial
    | _ => exact .bind (within_logInternalError looks_namesFreely) fun _ _ => .pure trivial
  by_cases hupd : ∃ baseUrl name form,
      a.task = .request ⟨baseUrl, .updateRegisteredUsername name form⟩
  · obtain ⟨baseUrl, name, form, ht⟩ := hupd
    rw [ht]
    exact names_lnurlErrorResponse (names_updateRegisteredUsername ht)
  by_cases hdel : ∃ baseUrl name form,
      a.task = .request ⟨baseUrl, .deleteRegisteredUsername name form⟩
  · obtain ⟨baseUrl, name, form, ht⟩ := hdel
    rw [ht]
    exact names_lnurlErrorResponse (names_deleteRegisteredUsername ht)
  · refine freely ((body_within cfg a.task).mono (powers_namesFreely ?_ ?_ ?_) fun _ => id)
    · exact fun _ _ _ h => hreg ⟨_, _, _, h⟩
    · exact fun _ _ _ h => hupd ⟨_, _, _, h⟩
    · exact fun _ _ _ h => hdel ⟨_, _, _, h⟩

/-- **Names change by proof only**, in every run. -/
theorem Reach.mayName {s : State} {c : Config (mint cfg)} (h : Reach s c) {u : Update} {i : Input}
    {r : Except Exn u.Out} {pre : State} (he : .did a (.write u) i r pre ∈ c.w.hist) :
    MayName cfg a.task pre.store u := by
  have hrun : Run (nameLaw cfg) s c.w :=
    h.run fun a w _ => wp_mono (body_names a w) fun _ _ _ => trivial
  obtain ⟨w₀, w₁, -, hn, -⟩ := hrun.past he
  obtain ⟨rfl, -⟩ := hn.exec
  exact hn.lawful

end Programs

/-! ## Titles -/

/-- A fee on file holds its name for a claim. -/
def Held (hist : List (Event (mint cfg))) (f : FeeRow) : Prop :=
  ∃ a xp i pre, .did a (.write (.holdUsername f.paymentHash f.pr f.username f.cx1 xp f.nostrPubkey
      f.amountMsat f.expiresAt)) i (.ok ()) pre ∈ hist ∧
    f.amountMsat = cfg.addressFee ∧ Claimed cfg a.task f.username f.cx1 xp f.nostrPubkey

/-- The title to a name: it was registered for a claim, right away or once the fee for it was paid,
and from then on it stayed with its share, or was moved to another by the holder of the share's
key, and was not freed. -/
inductive Title (username : Str) : List (Event (mint cfg)) → Str → Option Str → Prop
  /-- The name was free of charge. -/
  | registered {hist a cx1 xp npub i pre} (hfee : cfg.addressFee = 0)
      (hclaimed : Claimed cfg a.task username cx1 xp npub) :
      Title username (.did a (.write (.registerUsername username cx1 xp npub)) i (.ok ()) pre ::
        hist) cx1 npub
  /-- The funding source said that the fee was paid. -/
  | bought {hist a f i pre b pre'} (hf : pre.store.addressFees.find? f.paymentHash = some f)
      (hname : f.username = username) (hheld : Held cfg hist f)
      (hpaid : .answered b (.isInvoiceSettled f.paymentHash) (.ok true) pre' ∈ hist) :
      Title username (.did a (.write (.settleAddressFee f.paymentHash)) i
        (.ok (some (username, true))) pre :: hist) f.cx1 f.nostrPubkey
  /-- A note worth the fee was burned for it. -/
  | exchanged {hist a ids f i pre} (hf : pre.store.addressFees.find? f.paymentHash = some f)
      (hname : f.username = username) (hheld : Held cfg hist f) :
      Title username (.did a (.write (.payAddressFeeWithNotes ids f.paymentHash f.amountMsat)) i
        (.ok username) pre :: hist) f.cx1 f.nostrPubkey
  /-- The name went to another share. -/
  | moved {hist a cx1 cx1' xp npub i pre} (h : Title username hist cx1 npub)
      (hmoved : Moved cfg a.task username cx1 cx1' xp) :
      Title username (.did a (.write (.updateUsername username cx1' xp)) i (.ok ()) pre :: hist)
        cx1' npub
  /-- Something else happened. -/
  | kept {hist e cx1 npub} (h : Title username hist cx1 npub) (hfrees : frees username e = false)
      (hmoves : ∀ cx1', moves username cx1' e = false) : Title username (e :: hist) cx1 npub

section Histories

variable {cfg} {s : State} {w w' : World (mint cfg)} {e : Event (mint cfg)} {a : Actor mintSig}
  {username cx1 xp : Str} {npub : Option Str} {row : UsernameRow} {f : FeeRow} {i : Input}
  {pre : State}

theorem Held.cons {hist : List (Event (mint cfg))} (h : Held cfg hist f) :
    Held cfg (e :: hist) f := by
  obtain ⟨a, xp, i, pre, he, hrest⟩ := h
  exact ⟨a, xp, i, pre, List.mem_cons_of_mem _ he, hrest⟩

/-- A fee goes on for the same claim. -/
theorem Held.paid {hist : List (Event (mint cfg))} (h : Held cfg hist f) (paid : Bool) :
    Held cfg hist { f with paid } := h

namespace NoteStore

variable {st st' : NoteStore} {usernames : Table UsernameRow.username}

theorem find?_of_insert?_row {r : UsernameRow} (hi : st.usernames.insert? r = some usernames) :
    usernames.find? r.username = some r :=
  (Table.find?_insert? hi r.username).trans (if_pos rfl)

/-- A name that is registered is on file for the share that it is registered for. -/
theorem find?_registerUsername (h : st.registerUsername i.now username cx1 xp npub = .ok st') :
    st'.usernames.find? username = some ⟨username, cx1, 0, npub⟩ := by
  obtain ⟨-, usernames, keys, -, hi, rfl⟩ := registerUsername_ok h
  exact find?_of_insert?_row hi

theorem find?_updateUsername (h : st.updateUsername username cx1 xp = .ok st') :
    ∃ row, st.usernames.find? username = some row ∧
      st'.usernames.find? username = some { row with cx1, nextIndex := 0 } := by
  obtain ⟨row, keys, hrow, -, rfl⟩ := updateUsername_ok h
  exact ⟨row, hrow, by rw [Table.find?_modify, hrow, Option.map_some, if_pos rfl]⟩

theorem find?_settleAddressFee {hash : Str}
    (h : st.settleAddressFee i.now hash = .ok (some (username, true), st')) :
    ∃ f, st.addressFees.find? hash = some f ∧ f.username = username ∧
      st'.usernames.find? username = some ⟨username, f.cx1, 0, f.nostrPubkey⟩ := by
  rcases settleAddressFee_ok h with ⟨ho, -⟩ | ⟨f, hf, -, ⟨ho, -⟩ | ⟨ho, -, usernames, hi, rfl⟩⟩
  · cases ho
  · cases ho
  · cases ho
    exact ⟨f, hf, rfl, find?_of_insert?_row hi⟩

theorem find?_payAddressFeeWithNotes {ids : List Str} {hash : Str} {totalMsat : ℤ}
    (h : st.payAddressFeeWithNotes i.now ids hash totalMsat = .ok (username, st')) :
    ∃ f, st.addressFees.find? hash = some f ∧ f.username = username ∧ f.amountMsat = totalMsat ∧
      st'.usernames.find? username = some ⟨username, f.cx1, 0, f.nostrPubkey⟩ := by
  obtain ⟨-, -, f, usernames, hf, -, -, hamount, rfl, -, hi, rfl⟩ := payAddressFeeWithNotes_ok h
  exact ⟨f, hf, rfl, hamount, find?_of_insert?_row hi⟩

end NoteStore

/-! ## One event -/

/-- A name that is neither freed nor moved stays on file as it was. -/
theorem Next.name_kept (hn : Next (law cfg) w e w')
    (hrow : w.st.store.usernames.find? username = some row) (hfrees : frees username e = false)
    (hmoves : ∀ cx1, moves username cx1 e = false) :
    ∃ row', w'.st.store.usernames.find? username = some row' ∧ row'.cx1 = row.cx1 ∧
      row'.nostrPubkey = row.nostrPubkey := by
  rcases Next.namesWritten hn with ⟨-, hsame⟩ | ⟨a, u, i, out, rfl, ho⟩
  · exact ⟨row, hsame ▸ hrow, rfl, rfl⟩
  · obtain ⟨row', hrow', hnpub, hcx1⟩ :=
      NoteStore.registration_kept (Update.namesStep ho) hrow fun hu => by
        subst hu
        simp [frees] at hfrees
    refine ⟨row', hrow', hcx1.resolve_right ?_, hnpub⟩
    rintro ⟨xp, rfl⟩
    have := hmoves row'.cx1
    simp [moves] at this

/-- A fee that is paid for goes on for the same claim. -/
theorem held_markPaid {st : NoteStore} {hash : Str} {hist : List (Event (mint cfg))}
    (hheld : ∀ f ∈ st.addressFees.rows, Held cfg hist f) :
    ∀ f ∈ (st.markPaid hash).addressFees.rows, Held cfg hist f := by
  intro f hf
  obtain ⟨f₀, hf₀, rfl⟩ := List.mem_map.1 hf
  have h₀ := hheld f₀ hf₀
  split
  exacts [h₀.paid true, h₀]

/-- Every fee on file holds its name for a claim. -/
theorem Next.held (hn : Next (law cfg) w e w')
    (hmay : ∀ a u i r, e = .did a (.write u) i r w.st → MayName cfg a.task w.st.store u)
    (hheld : ∀ f ∈ w.st.store.addressFees.rows, Held cfg w.hist f) :
    ∀ f ∈ w'.st.store.addressFees.rows, Held cfg w'.hist f := by
  have before : ∀ f ∈ w.st.store.addressFees.rows, Held cfg w'.hist f := fun f hf => by
    rw [hn.hist]
    exact (hheld f hf).cons
  rcases Next.store hn with ⟨-, he⟩ | ⟨a, u, i, r, rfl, -, hr⟩ | ⟨-, he⟩
  · rwa [he]
  · rcases Update.run_eq_some.1 hr with ⟨out, rfl, ho⟩ | ⟨_, -, -, -, he⟩
    · cases Update.namesStep ho with
      | keep _ hf => rwa [hf]
      | advance _ _ _ hf => rwa [hf]
      | register _ _ _ _ _ _ _ hf => rwa [hf]
      | update _ _ _ _ _ _ _ hf => rwa [hf]
      | delete _ _ _ hf => rwa [hf]
      | lapse _ _ _ _ _ _ hf => exact hf ▸ held_markPaid before
      | settle _ _ _ _ _ _ hf => exact hf ▸ held_markPaid before
      | hold f₀ xp _ hu _ _ hf =>
        intro f hmem
        rcases (Table.mem_insert? hf).1 hmem with hmem | rfl
        · exact before f hmem
        · subst hu
          obtain ⟨-, hamount, hclaimed⟩ := hmay _ _ _ _ rfl
          exact ⟨a, xp, i, w.st, hn.hist ▸ List.mem_cons_self, hamount, hclaimed⟩
    · rwa [he]
  · rwa [he]

/-- A name that comes on file has a title. -/
theorem Next.title_registered (hn : Next (law cfg) w e w')
    (hmay : ∀ a u i r, e = .did a (.write u) i r w.st → MayName cfg a.task w.st.store u)
    (hheld : ∀ f ∈ w.st.store.addressFees.rows, Held cfg w.hist f)
    (hreg : registers username e = true)
    (hrow : w'.st.store.usernames.find? username = some row) :
    Title cfg username (e :: w.hist) row.cx1 row.nostrPubkey := by
  rcases Next.namesWritten hn with ⟨hno, -⟩ | ⟨a, u, i, out, rfl, ho⟩
  · rw [(hno username).1] at hreg
    cases hreg
  have hreg : u.registers out = some username := of_decide_eq_true hreg
  obtain ⟨hu, -⟩ := Next.write_ok hn
  cases u with
  | registerUsername name cx1 xp npub =>
    cases hreg
    obtain ⟨st', ho, he⟩ := map_eq_ok.1 ho
    obtain ⟨hfee, hclaimed⟩ := hmay _ _ _ _ rfl
    cases he
    cases (NoteStore.find?_registerUsername ho).symm.trans hrow
    exact .registered hfee hclaimed
  | settleAddressFee hash =>
    obtain ⟨name, rfl⟩ : ∃ name, out = some (name, true) := by
      rcases out with _ | ⟨name, _ | _⟩
      · cases hreg
      · cases hreg
      · exact ⟨name, rfl⟩
    cases hreg
    obtain ⟨-, pre, hpaid⟩ := hu
    obtain ⟨f, hf, hname, hrow'⟩ := NoteStore.find?_settleAddressFee ho
    obtain rfl := Table.key_of_find? hf
    cases hrow'.symm.trans hrow
    exact .bought hf hname (hheld f (Table.mem_of_find? hf)) hpaid
  | payAddressFeeWithNotes ids hash totalMsat =>
    cases hreg
    obtain ⟨f, hf, hname, rfl, hrow'⟩ := NoteStore.find?_payAddressFeeWithNotes ho
    obtain rfl := Table.key_of_find? hf
    cases hrow'.symm.trans hrow
    exact .exchanged hf hname (hheld f (Table.mem_of_find? hf))
  | _ => cases hreg

/-- **A name on file has a title**, if it had one while it was on file before. -/
theorem Next.title (hn : Next (law cfg) w e w')
    (hmay : ∀ a u i r, e = .did a (.write u) i r w.st → MayName cfg a.task w.st.store u)
    (hheld : ∀ f ∈ w.st.store.addressFees.rows, Held cfg w.hist f)
    (htitle : ∀ row, w.st.store.usernames.find? username = some row →
      Title cfg username w.hist row.cx1 row.nostrPubkey)
    (hrow : w'.st.store.usernames.find? username = some row) :
    Title cfg username w'.hist row.cx1 row.nostrPubkey := by
  rw [hn.hist]
  cases hbefore : w.st.store.usernames.find? username with
  | none => exact Next.title_registered hn hmay hheld (Next.appears hn hbefore hrow) hrow
  | some row₀ =>
    have ht := htitle row₀ hbefore
    cases hfrees : frees username e with
    | true =>
      rw [Next.find?_of_frees hn hfrees] at hrow
      cases hrow
    | false =>
      by_cases hmoves : ∃ cx1, moves username cx1 e = true
      · obtain ⟨cx1, hmoves⟩ := hmoves
        unfold moves at hmoves
        split at hmoves
        · next a name cx1' xp i out pre =>
          obtain ⟨hname, -⟩ := (Bool.and_eq_true _ _).mp hmoves
          obtain rfl := of_decide_eq_true hname
          obtain ⟨-, ho⟩ := Next.write_ok hn
          obtain ⟨rfl, -⟩ := hn.exec
          obtain ⟨st', ho, he⟩ := map_eq_ok.1 ho
          obtain ⟨row₁, hrow₁, hmoved⟩ := hmay _ _ _ _ rfl
          obtain ⟨row₂, hrow₂, hrow'⟩ := NoteStore.find?_updateUsername ho
          cases he
          cases hbefore.symm.trans hrow₁
          cases hbefore.symm.trans hrow₂
          cases hrow'.symm.trans hrow
          exact .moved ht hmoved
        · cases hmoves
      · have hmoves : ∀ cx1, moves username cx1 e = false := fun cx1 =>
          Bool.eq_false_of_not_eq_true fun h => hmoves ⟨cx1, h⟩
        obtain ⟨row', hrow', hcx1, hnpub⟩ := Next.name_kept hn hbefore hfrees hmoves
        cases hrow'.symm.trans hrow
        rw [hcx1, hnpub]
        exact .kept ht hfrees hmoves

/-- **What there is a title to is on file.** -/
theorem Next.on_file (hn : Next (law cfg) w e w')
    (hfile : ∀ cx1 npub, Title cfg username w.hist cx1 npub →
      ∃ row, w.st.store.usernames.find? username = some row ∧ row.cx1 = cx1 ∧
        row.nostrPubkey = npub)
    (h : Title cfg username (e :: w.hist) cx1 npub) :
    ∃ row, w'.st.store.usernames.find? username = some row ∧ row.cx1 = cx1 ∧
      row.nostrPubkey = npub := by
  cases h with
  | registered =>
    obtain ⟨-, ho⟩ := Next.write_ok hn
    obtain ⟨st', ho, he⟩ := map_eq_ok.1 ho
    cases he
    exact ⟨_, NoteStore.find?_registerUsername ho, rfl, rfl⟩
  | bought hf hname =>
    obtain ⟨-, ho⟩ := Next.write_ok hn
    obtain ⟨rfl, -⟩ := hn.exec
    obtain ⟨f, hf', -, hrow⟩ := NoteStore.find?_settleAddressFee ho
    cases hf.symm.trans hf'
    exact ⟨_, hrow, rfl, rfl⟩
  | exchanged hf hname =>
    obtain ⟨-, ho⟩ := Next.write_ok hn
    obtain ⟨rfl, -⟩ := hn.exec
    obtain ⟨f, hf', -, -, hrow⟩ := NoteStore.find?_payAddressFeeWithNotes ho
    cases hf.symm.trans hf'
    exact ⟨_, hrow, rfl, rfl⟩
  | moved h =>
    obtain ⟨row₀, hrow₀, -, hnpub⟩ := hfile _ _ h
    obtain ⟨-, ho⟩ := Next.write_ok hn
    obtain ⟨st', ho, he⟩ := map_eq_ok.1 ho
    obtain ⟨row, hrow, hrow'⟩ := NoteStore.find?_updateUsername ho
    cases he
    cases hrow₀.symm.trans hrow
    exact ⟨_, hrow', rfl, hnpub⟩
  | kept h hfrees hmoves =>
    obtain ⟨row, hrow, rfl, rfl⟩ := hfile _ _ h
    exact Next.name_kept hn hrow hfrees hmoves

/-! ## Every run -/

/-- **The names on file are those that there is a title to.** In every run from a mint that was just
set up, whatever interleaves and wherever it is restarted, a name is on file for a share exactly if
its holder claimed it with the share's key, the fee was paid if there is one, and every holder of
the key on file since moved it to the next share; and every attempt to register, hold, move or free
a name, also one that fails, is by a request that proves what it should for the share that is then
on file. -/
theorem names_by_title {c : Config (mint cfg)} (h : Reach State.initial c) :
    (∀ username cx1 npub,
      (∃ row, c.w.st.store.usernames.find? username = some row ∧ row.cx1 = cx1 ∧
        row.nostrPubkey = npub) ↔ Title cfg username c.w.hist cx1 npub) ∧
    ∀ a u i r pre, .did a (.write u) i r pre ∈ c.w.hist → MayName cfg a.task pre.store u := by
  have hmay : ∀ a u i r pre, .did a (.write u) i r pre ∈ c.w.hist →
      MayName cfg a.task pre.store u := fun a u i r pre he => Reach.mayName h he
  have hr : Run (law cfg) State.initial c.w := Reach.law h
  refine ⟨?_, hmay⟩
  suffices all : ∀ {w}, Run (law cfg) State.initial w → Follows (law cfg) w c.w →
      (∀ f ∈ w.st.store.addressFees.rows, Held cfg w.hist f) ∧ ∀ username,
        (∀ row, w.st.store.usernames.find? username = some row →
          Title cfg username w.hist row.cx1 row.nostrPubkey) ∧
        ∀ cx1 npub, Title cfg username w.hist cx1 npub →
          ∃ row, w.st.store.usernames.find? username = some row ∧ row.cx1 = cx1 ∧
            row.nostrPubkey = npub by
    intro username cx1 npub
    obtain ⟨htitle, hfile⟩ := (all hr .refl).2 username
    refine ⟨?_, hfile cx1 npub⟩
    rintro ⟨row, hrow, rfl, rfl⟩
    exact htitle row hrow
  intro w hw
  induction hw with
  | start =>
    refine fun _ => ⟨fun f hf => (List.not_mem_nil hf).elim, fun username => ⟨?_, ?_⟩⟩
    · intro row hrow
      cases hrow
    · intro cx1 npub ht
      cases ht
  | @step w w' e hw hn ih =>
    intro hf
    obtain ⟨hheld, hnames⟩ := ih (hn.follows.trans hf)
    have hmay' : ∀ a u i r, e = .did a (.write u) i r w.st → MayName cfg a.task w.st.store u := by
      rintro a u i r rfl
      exact hmay a u i r w.st (hf.mem (hn.hist ▸ List.mem_cons_self))
    refine ⟨Next.held hn hmay' hheld, fun username => ⟨fun row hrow => ?_, fun cx1 npub ht => ?_⟩⟩
    · exact Next.title hn hmay' hheld (hnames username).1 hrow
    · rw [hn.hist] at ht
      exact Next.on_file hn (hnames username).2 ht

/-- The form that moves a name from one share to another. -/
def standInMoveForm (name : Str) (old new : Char) : Form :=
  let share c := (decodeCx1 .standIn (standInCx1 c)).getD []
  let domain := (mintDomain Settings.standIn "mint".toList).toOption.getD []
  let sign action c := hex ((share c).drop 33 ++
    utf8 (registerMessage action domain name (standInCx1 new)))
  ⟨[("cx1".toList, standInCx1 new), ("sig".toList, sign .update old),
    ("newsig".toList, sign .register new)], []⟩

/-- A name is registered for one share and moved to another. -/
def movedRun : List (Choice standInMint) :=
  standInRegisters 0 "alice".toList 'p' 0 ++
    standInAsks 3 (.updateRegisteredUsername "alice".toList
      (standInMoveForm "alice".toList 'p' 'q')) ++ standInGoes 3 0

theorem names_by_title_moved : ∃ c : Config standInMint, Reach State.initial c ∧
    ∃ cx1 npub, decodeCx1 .standIn (standInCx1 'q') = fromhex cx1 ∧
      Title Settings.standIn "alice".toList c.w.hist cx1 npub := by
  have hrun : (standInRun movedRun).any (fun c =>
      (c.w.st.store.usernames.find? "alice".toList).any fun row =>
        decodeCx1 .standIn (standInCx1 'q') = fromhex row.cx1) = true := by
    decide +kernel
  obtain ⟨c, hc, h⟩ := exists_standInRun hrun
  obtain ⟨row, hrow, hshare⟩ := (Option.any_eq_true _ _).1 h
  exact ⟨c, hc, row.cx1, row.nostrPubkey, of_decide_eq_true hshare,
    ((names_by_title hc).1 _ _ _).1 ⟨row, hrow, rfl, rfl⟩⟩

end Histories

end LnurlMint
