import LnurlMint.Reservations

/-!
# No double payout

While a note is reserved for a melt nothing else may take it, and the reservation may only be given
up once it is certain what became of the payment. Two programs give reservations up, and neither
asks whose they are: the task that makes the payment, and a round of reconciliation, which works
through a list it made before its first wait. Both believe the funding source when it denies that a
payment was made, though it may not have seen a payment that is still on its way to it; so a denial
has to be final.

The task is no danger. Its note was reserved for its hash, a hash is paid for once, and nobody else
resolves the melt while it is registered as in flight. A round asks only about hashes that are not
in flight any more, and by then the one attempt to pay has been answered, so a payment that the
source denies never comes. But the note on its list may have been restored by its own task meanwhile
and reserved again, for another hash; then the round clears a reservation that is not the one it
asked about.

As long as that does not happen, a note that was reserved stays so until its own melt is resolved,
and a note whose payment was made is not taken by anything else.

## Main definitions

* `NoteStore.Held`, `Fate` — what becomes of a reserved note
* `Over`, `Dead` — the one attempt to pay was made and answered; and the payment never comes
* `reserves`, `takes`, `resolves` — the events that reserve a note, take it, and resolve its melt
* `denialsFinal`, `restoresHeld` — what has to hold of the source and of rounds

## Main results

* `Run.over_of_asked` — a round asks about hashes whose attempt is over
* `Run.resolves_finalize`, `Run.resolves_restore` — a reservation is resolved by its own melt
* `Run.fate` — what becomes of a reserved note, in every history
* `no_double_payout`, and `double_payout` where its condition fails
-/

namespace LnurlMint

open Relational Interleave NoteStore

variable {d : Deps} {cfg : Settings d} {s : State} {w w' : World (mint cfg)} {a b : Actor mintSig}
  {id id' hash hash' pr : Str} {ids : List Str} {e : Event (mint cfg)}

/-! ## When an attempt is over -/

/-- Nothing is outstanding that was not before, but for a call that was just made. -/
theorem mem_outstanding_cons {x : ℕ × Call} {hist : List (Event (mint cfg))}
    (h : x ∈ outstanding (e :: hist)) :
    x ∈ outstanding hist ∨ ∃ a pre, e = .called a x.2 pre := by
  cases e with
  | called a c pre =>
    rcases List.mem_cons.1 h with rfl | h
    · exact .inr ⟨a, pre, rfl⟩
    · exact .inl h
  | answered b c ans pre => exact .inl (List.mem_filter.1 h).1
  | crashed pre => cases h
  | _ => exact .inl h

/-- The attempt to pay this hash was made and is not under way, and whoever made it has resolved the
melt or left it unresolved; or none is made, since its request gave the melt up. -/
structure Over (w : World (mint cfg)) (hash : Str) : Prop where
  quiet : paying d w.pending hash = false
  tried : (∃ a pr limit pre, .called a (.payInvoice pr limit) pre ∈ w.hist ∧
    invoiceHash d pr = some hash ∧ ¬ Clean w a) ∨ ∃ e ∈ w.hist, abandons hash e = true

/-- Unless a payment reaches the source that it had denied. -/
def denialsFinal : List (Event (mint cfg)) → Bool
  | [] => true
  | .stirred (.land hash) _ :: rest =>
    rest.all (fun e => verdict hash e ≠ some false) && denialsFinal rest
  | _ :: rest => denialsFinal rest

theorem denialsFinal_of_cons {hist : List (Event (mint cfg))}
    (h : denialsFinal (e :: hist) = true) : denialsFinal hist = true := by
  rw [denialsFinal.eq_def] at h
  split at h
  · cases ‹_ :: _ = []›
  · rename_i heq
    cases heq
    exact (Bool.and_eq_true _ _ ▸ h).2
  · rename_i heq
    cases heq
    exact h

theorem denialsFinal_of_append (es : List (Event (mint cfg))) {hist : List (Event (mint cfg))}
    (h : denialsFinal (es ++ hist) = true) : denialsFinal hist = true := by
  induction es with
  | nil => exact h
  | cons e es ih => exact ih (denialsFinal_of_cons h)

/-- The payment with this hash never comes. -/
structure Dead (w : World (mint cfg)) (hash : Str) : Prop extends Over w hash where
  denied : ∃ e ∈ w.hist, verdict hash e = some false
  unpaid : w.st.payments hash ≠ .sent ∧ w.st.payments hash ≠ .paid

theorem Clean.of_next (hn : Next (law cfg) w e w') (h : Clean w' a) : Clean w a := by
  intro x hx
  refine h x ?_
  rw [hn.hist]
  exact List.mem_cons_of_mem _ hx

/-- Nobody pays for a melt that its request gave up. -/
theorem Run.over_of_abandoned (h : Run (law cfg) s w) (he : e ∈ w.hist)
    (hdrop : abandons hash e = true) : Over w hash := by
  refine ⟨Bool.eq_false_iff.2 fun hpay => ?_, .inr ⟨e, he, hdrop⟩⟩
  obtain ⟨a, pr, limit, pre, hc, -, hp⟩ := called_of_paying hpay
  exact Run.hash_ne_of_abandoned h he hdrop hc hp

/-- It was the only one. -/
theorem Over.step (ho : Over w hash) (h : Run (law cfg) s w) (hn : Next (law cfg) w e w') :
    Over w' hash := by
  have hcons : ∀ x ∈ w.hist, x ∈ w'.hist := fun x hx => by
    rw [hn.hist]
    exact List.mem_cons_of_mem _ hx
  obtain ⟨hquiet, ⟨a, pr, limit, pre, hc, hp, hclean⟩ | ⟨x, hx, hdrop⟩⟩ := ho
  swap
  · exact Run.over_of_abandoned (h.step hn) (hcons x hx) hdrop
  refine ⟨Bool.eq_false_iff.2 fun hpay => ?_, .inl ⟨a, pr, limit, pre, hcons _ hc, hp,
    fun hclean' => hclean (hclean'.of_next hn)⟩⟩
  obtain ⟨c, hmem, hcall⟩ := List.any_eq_true.1 hpay
  obtain ⟨x, hout, rfl⟩ := List.mem_map.1 hmem
  rw [hn.hist] at hout
  rcases mem_outstanding_cons hout with hout | ⟨b, pre', rfl⟩
  · exact Bool.eq_false_iff.1 hquiet (List.any_eq_true.2 ⟨_, List.mem_map_of_mem hout, hcall⟩)
  · -- a second attempt
    have hle := (Run.countP_attempts_le (h.step hn) hash).trans
      (Run.recorded_once (h.step hn) hash).1
    have hnew : attempts hash (.called b x.2 pre' : Event (mint cfg)) = true := by
      revert hcall
      cases x.2 with
      | payInvoice => exact fun hcall => hcall
      | _ => exact fun hcall => by cases hcall
    have hold : 0 < w.hist.countP (attempts hash) :=
      List.countP_pos_iff.2 ⟨_, hc, decide_eq_true hp⟩
    rw [hn.hist, List.countP_cons, if_pos hnew] at hle
    omega

theorem Over.follows (ho : Over w hash) (h : Run (law cfg) s w) (hf : Follows (law cfg) w w') :
    Over w' hash :=
  hf.keep (P := fun w => Over w hash) h ho fun h hn ho => Over.step ho h hn

/-- The request for the payment cannot leave the mint any more, and if it has left, it does not
arrive. -/
theorem Dead.step (hd : Dead w hash) (h : Run (law cfg) s w) (hn : Next (law cfg) w e w')
    (hfinal : denialsFinal w'.hist = true) : Dead w' hash := by
  obtain ⟨x, hx, hdenied⟩ := hd.denied
  refine ⟨hd.toOver.step h hn, ⟨x, ?_, hdenied⟩, ?_⟩
  · rw [hn.hist]
    exact List.mem_cons_of_mem _ hx
  have hunpaid := hd.unpaid
  rw [hn.hist] at hfinal
  obtain ⟨hstep, -, -⟩ := hn
  cases hstep with
  | did _ hx =>
    show _ ∧ _
    rw [World.st_record, exec_payments hx]
    exact hunpaid
  | stirred hs =>
    rcases stir_payments hs hash with he | ⟨-, hp⟩ | ⟨-, rfl⟩ | hsent
    · show _ ∧ _
      rw [World.st_record, he]
      exact hunpaid
    · rw [hd.quiet] at hp
      cases hp
    · rw [denialsFinal, Bool.and_eq_true] at hfinal
      exact absurd hdenied (of_decide_eq_true (List.all_eq_true.1 hfinal.1 x hx))
    · exact absurd hsent hunpaid.1
  | _ => exact hunpaid

theorem Dead.follows (hd : Dead w hash) (h : Run (law cfg) s w) (hf : Follows (law cfg) w w')
    (hfinal : denialsFinal w'.hist = true) : Dead w' hash := by
  induction hf with
  | refl => exact hd
  | step hf hn ih =>
    have hbefore := hfinal
    rw [hn.hist] at hbefore
    exact (ih (denialsFinal_of_cons hbefore)).step (hf.run h) hn hfinal

/-! ## When a round asks -/

/-- Operations other than the two that count a hash leave its count alone. -/
theorem exec_inFlight {o : Op} {i : Input} {s s' : State} {out : o.Out}
    (h : exec o i s = some (out, s')) (hs : o ≠ .trackMeltStart hash)
    (he : o ≠ .trackMeltEnd hash) : s'.inFlight hash = s.inFlight hash := by
  cases o with
  | write u =>
    obtain ⟨_, -, he⟩ := Option.map_eq_some_iff.1 h
    cases he
    rfl
  | trackMeltStart h' =>
    cases h
    exact Function.update_of_ne (fun heq => hs (by rw [heq])) _ _
  | trackMeltEnd h' =>
    cases h
    exact Function.update_of_ne (fun heq => he (by rw [heq])) _ _
  | _ => cases h; rfl

theorem inFlight_of_start {i : Input} {s s' : State} {out : Unit}
    (h : exec (.trackMeltStart hash) i s = some (out, s')) : s'.inFlight hash ≠ 0 := by
  cases h
  simp

theorem stir_inFlight {m : Stir} {calls : List Call} {s s' : State}
    (h : stir d m calls s = some s') : s'.inFlight = s.inFlight := by
  cases m <;> simp only [stir] at h <;> split at h <;> cases h <;> rfl

/-- A melt that was registered is in flight until it is dropped. -/
theorem Run.inFlight (h : Run (law cfg) s w) (hlive : ∀ e ∈ w.hist, e.crash? = false) {i : Input}
    {pre : State} (hstart : .did b (.trackMeltStart hash) i () pre ∈ w.hist) :
    w.st.inFlight hash ≠ 0 ∨ ∃ a i pre, .did a (.trackMeltEnd hash) i () pre ∈ w.hist := by
  induction h with
  | start => cases hstart
  | @step w w' e h hn ih =>
    rw [hn.hist, List.forall_mem_cons] at hlive
    rw [hn.hist] at hstart ⊢
    by_cases hend : ∃ a i pre, e = .did a (.trackMeltEnd hash) i () pre
    · obtain ⟨a, i, pre, rfl⟩ := hend
      exact .inr ⟨a, i, pre, List.mem_cons_self⟩
    rcases List.mem_cons.1 hstart with rfl | hstart
    · -- it counts one now
      exact .inl (inFlight_of_start (i := i) hn.exec.2)
    · have hbefore := ih hlive.2 hstart
      refine hbefore.imp (fun hne => ?_) fun ⟨a, i, pre, he⟩ =>
        ⟨a, i, pre, List.mem_cons_of_mem _ he⟩
      obtain ⟨hstep, -, -⟩ := hn
      cases hstep with
      | @did a o i out s' _ hx =>
        by_cases ho : o = .trackMeltStart hash
        · subst ho
          exact inFlight_of_start (i := i) hx
        · rw [World.st_record, exec_inFlight hx ho]
          · exact hne
          · rintro rfl
            exact hend ⟨a, i, w.st, rfl⟩
      | stirred hx => rwa [World.st_record, stir_inFlight hx]
      | crashed => cases hlive.1
      | _ => exact hne

/-- An attempt whose task waits for no answer, and has resolved the melt or given it up, is over. -/
theorem Run.over_of_idle (h : Run (law cfg) s w) {limit : ℤ} {pre : State}
    (hc : .called a (.payInvoice pr limit) pre ∈ w.hist) (hp : invoiceHash d pr = some hash)
    (hidle : Idle w a) (hclean : ¬ Clean w a) : Over w hash := by
  refine ⟨Bool.eq_false_iff.2 fun hpay => ?_, .inl ⟨a, pr, limit, pre, hc, hp, hclean⟩⟩
  obtain ⟨b, pr', limit', pre', hc', hout, hp'⟩ := called_of_paying hpay
  obtain rfl := Run.payer_eq h hc' hp' hc hp
  exact hidle _ hout

theorem Idle.of_next {o : Op} {i : Input} {out : o.Out} {pre : State}
    (hn : Next (law cfg) w (.did b o i out pre) w') (h : Idle w a) : Idle w' a := by
  intro c hc
  rw [hn.hist] at hc
  exact h c hc

/-- Once a melt is dropped, its attempt is over. -/
theorem Run.over_of_dropped (h : Run (law cfg) s w) {i : Input} {pre : State}
    (hend : .did a (.trackMeltEnd hash) i () pre ∈ w.hist) : Over w hash := by
  obtain ⟨w₀, w₁, h₀, hn, hf⟩ := h.past hend
  rcases hn.lawful with ⟨ids, pr, inv, ht, hh, hidle, ⟨limit, pre', hc⟩, -⟩ |
    ⟨_, _, _, _, _, _, _, _, _, _, _, _, _, _, ht, -⟩
  swap
  · obtain ⟨tid, t⟩ := a
    obtain rfl : t = _ := ht
    exact Run.over_of_abandoned h hend (decide_eq_true rfl)
  have hp : invoiceHash d pr = some hash := by
    obtain ⟨hash', id, -, hh', hp, -⟩ := Run.pays h₀ (h₀.joined hc rfl) ht
    rw [hp, ← hh', hh]
  refine Over.follows ?_ (h₀.step hn) hf
  refine Run.over_of_idle (h₀.step hn) (hn.follows.mem hc) hp (hidle.of_next hn) fun hclean => ?_
  exact hclean (.did a (.trackMeltEnd hash) i () pre) (by simp [hn.hist]) rfl

/-- A request that has reserved a note goes on to record the melt before it gives way. -/
theorem Run.recorded (h : Run (law cfg) s w) (hlive : ∀ e ∈ w.hist, e.crash? = false)
    (hb : Wrote w b (.markPending ids hash) (.ok ())) :
    acting w.hist = some b.tid ∨ ∃ pr, Wrote w b (.recordMelt hash pr) (.ok ()) := by
  induction h with
  | start =>
    obtain ⟨_, _, hm⟩ := hb
    cases hm
  | @step w w' e h hn ih =>
    rw [hn.hist, List.forall_mem_cons] at hlive
    have hcons : ∀ x ∈ w.hist, x ∈ w'.hist := fun x hx => by
      rw [hn.hist]
      exact List.mem_cons_of_mem _ hx
    obtain ⟨i, pre, he⟩ := hb
    rw [hn.hist] at he
    rcases List.mem_cons.1 he with rfl | he
    · rw [hn.hist]
      exact .inl rfl
    rcases ih hlive.2 ⟨i, pre, he⟩ with hact | ⟨pr, hrec⟩
    · -- it is `b`'s turn
      have hby := (hn.turn _ hact).resolve_right (by rw [hlive.1]; exact Bool.false_ne_true)
      have hgave {a : Actor mintSig} (ha : e.actor? = some a) (ht : a.tid = b.tid)
          (hrec : Recorded w a) : ∃ pr, Wrote w' b (.recordMelt hash pr) (.ok ()) := by
        obtain rfl := h.actor_eq (mem_alive (hn.step.alive ha)) (h.joined he rfl) ht
        obtain ⟨pr, hrec⟩ := hrec ids hash ⟨i, pre, he⟩
        exact ⟨pr, hrec.mono hcons⟩
      cases e with
      | arrived | stirred | crashed => cases hby
      | did | spawned | answered =>
        rw [hn.hist]
        exact .inl hby
      | called a c pre' => exact .inr (hgave rfl (Option.some.inj hby) hn.lawful.1)
      | finished a r pre' => exact .inr (hgave rfl (Option.some.inj hby) hn.lawful.1)
    · exact .inr ⟨pr, hrec.mono hcons⟩

/-- The notes on a round's list had been reserved for their hashes when it was made. -/
theorem Run.listed (h : Run (law cfg) State.initial w) {grouped : List (Str × List Str)}
    (hsaw : Saw w a .pendingMelts grouped) (hgroup : (hash, ids) ∈ grouped) :
    ∃ w₀ i pre w₁, Run (law cfg) State.initial w₀ ∧
      Next (law cfg) w₀ (.did a (.read .pendingMelts) i grouped pre) w₁ ∧ Follows (law cfg) w₁ w ∧
      ids ≠ [] ∧ ∀ id ∈ ids, ∃ b, Wrote w₀ b (.markPending [id] hash) (.ok ()) := by
  obtain ⟨i, pre, hread⟩ := hsaw
  obtain ⟨w₀, w₁, h₀, hn, hf⟩ := h.past hread
  have hgrouped : grouped = w₀.st.store.pendingMelts := (Next.read hn).1
  rw [hgrouped] at hgroup
  obtain ⟨hne, hres⟩ := mem_pendingMelts hgroup
  refine ⟨w₀, i, pre, w₁, h₀, hn, hf, hne, fun id hid => ?_⟩
  exact Run.reserver h₀ (fun _ _ ⟨_, hn, _⟩ => by cases hn) (hres id hid)

/-- **A round asks about hashes whose attempt is over.** -/
theorem Run.over_of_asked (h : Run (law cfg) State.initial w)
    (hlive : ∀ e ∈ w.hist, e.crash? = false) (ht : a.task = .reconcilePendingMelts) {pre : State}
    (hc : .called a (.isPaymentComplete hash) pre ∈ w.hist) : Over w hash := by
  obtain ⟨w₁, w₁', h₁, hn₁, hf₁⟩ := h.past hc
  have hf₁ := hn₁.follows.trans hf₁
  obtain ⟨-, hasks⟩ := hn₁.lawful
  obtain ⟨hzero, grouped, ids, hsaw, hgroup⟩ := hasks ht
  obtain ⟨w₀, i, pre', w₀', h₀, hn₀, hf₀, hne, hres⟩ := Run.listed h₁ hsaw hgroup
  have hf₀ := hn₀.follows.trans hf₀
  obtain ⟨id, hid⟩ := List.exists_mem_of_ne_nil ids hne
  obtain ⟨b, hb⟩ := hres id hid
  have hlive₁ : ∀ e ∈ w₁.hist, e.crash? = false := fun e he => hlive e (hf₁.mem he)
  obtain ⟨pr, hrec⟩ : ∃ pr, Wrote w₀ b (.recordMelt hash pr) (.ok ()) := by
    refine (Run.recorded h₀ (fun e he => hlive₁ e (hf₀.mem he)) hb).resolve_left fun hact => ?_
    -- the round would be the request that reserved the note
    have hby := (hn₀.turn _ hact).resolve_right Bool.false_ne_true
    obtain ⟨i', pre'', hm⟩ := hb
    obtain rfl := h₀.actor_eq (mem_alive (hn₀.step.alive rfl)) (h₀.joined hm rfl)
      (Option.some.inj hby)
    obtain ⟨_, _, -, hn, -⟩ := h₀.past hm
    obtain ⟨-, _, _, _, _, _, _, _, _, _, htask, -⟩ := (Next.write_ok hn).1
    rw [ht] at htask
    cases htask
  obtain ⟨i', pre'', hm⟩ := hrec
  obtain ⟨_, _, -, hn, hf⟩ := h₀.past hm
  obtain ⟨-, -, _, _, _, _, _, rest, hh⟩ := (Next.write_ok hn).1
  have hstart := hf₀.mem ((hn.follows.trans hf).mem (hh ▸ List.mem_cons_self))
  rcases Run.inFlight h₁ hlive₁ hstart with hcount | ⟨y, i, pre, hend⟩
  · exact absurd hzero hcount
  · exact Run.over_of_dropped h (hf₁.mem hend)

/-! ## What becomes of a reserved note -/

namespace NoteStore

variable {s : NoteStore}

/-- The note is unspent and pending under this hash. -/
def Held (s : NoteStore) (id hash : Str) : Prop :=
  ∃ n, s.notes.find? id = some n ∧ n.spent = false ∧ n.pending = true ∧
    n.pendingPaymentHash = some hash

/-- The note is burned. -/
def Spent (s : NoteStore) (id : Str) : Prop := ∃ n, s.notes.find? id = some n ∧ n.spent = true

/-- A burned note stays burned. -/
theorem Spent.evolves {s' : NoteStore} (h : s.Spent id) (he : s.Evolves s') : s'.Spent id := by
  obtain ⟨n, hn, hs⟩ := h
  obtain ⟨n', hn', -, -, hs'⟩ := he.note hn
  exact ⟨n', hn', hs' hs⟩

theorem spent_finalizeMelt {n : NoteRow} (hn : s.notes.find? id = some n) (hid : id ∈ ids) :
    (s.finalizeMelt ids).Spent id := by
  refine ⟨{ n with spent := true, pending := false, pendingPaymentHash := none }, ?_, rfl⟩
  rw [find?_finalizeMelt, hn, Option.map_some, if_pos hid]

/-- What a swap burns. -/
theorem Swapped.spent {s' : NoteStore} {now : ℤ} {burnIds mintNoteIds : List Str}
    {mintAmounts : List ℤ} {toUsername : Option Str}
    (h : s.Swapped s' now burnIds mintNoteIds mintAmounts toUsername) (hid : id ∈ burnIds) :
    s'.Spent id := by
  obtain ⟨n, hn, -⟩ := h.burnable id hid
  refine ⟨{ n with spent := true }, ?_, rfl⟩
  rw [h.find?, hn, Option.map_some, if_pos hid, Option.some_or]

/-- A method that asks for notes to be burnable burns them, unless it reserves them. -/
theorem spent_of_consumed {s' : NoteStore} {u : Update} {i : Input} {out : u.Out}
    (ho : u.apply i s = .ok (out, s')) (hid : id ∈ u.consumed)
    (hu : ∀ ids hash, u ≠ .markPending ids hash) : s'.Spent id := by
  cases u with
  | swap =>
    obtain ⟨s₁, ho, he⟩ := map_eq_ok.1 ho
    cases he
    exact (swapLocked_ok (reported_eq_ok.1 ho)).spent hid
  | transferToUsername =>
    obtain ⟨_, _, -, -, -, ho⟩ := transferToUsername_ok ho
    exact ho.spent hid
  | payAddressFeeWithNotes burnIds =>
    obtain ⟨-, hburn, _, _, -, -, -, -, -, -, -, rfl⟩ := payAddressFeeWithNotes_ok ho
    obtain ⟨n, hn, -⟩ := hburn id hid
    refine ⟨{ n with spent := true }, ?_, rfl⟩
    rw [find?_burnNotes]
    show Option.map _ (s.notes.find? id) = _
    rw [hn, Option.map_some, if_pos (show id ∈ burnIds from hid)]
  | markPending ids hash => exact absurd rfl (hu ids hash)
  | _ => simp [Update.consumed] at hid

theorem Held.hash_eq (h : s.Held id hash) (h' : s.Held id hash') : hash = hash' := by
  obtain ⟨n, hn, -, -, hp⟩ := h
  obtain ⟨n', hn', -, -, hp'⟩ := h'
  cases hn.symm.trans hn'
  exact Option.some.inj (hp.symm.trans hp')

theorem Held.not_spent (h : s.Held id hash) : ¬ s.Spent id := by
  rintro ⟨n', hn', hs'⟩
  obtain ⟨n, hn, hs, -⟩ := h
  cases hn.symm.trans hn'
  rw [hs] at hs'
  cases hs'

theorem Burnable.not_held (h : s.Burnable id) : ¬ s.Held id hash := by
  rintro ⟨n, hn, -, hp, -⟩
  rw [h.pending_eq_false hn] at hp
  cases hp

theorem Burnable.not_spent (h : s.Burnable id) : ¬ s.Spent id := by
  rintro ⟨n, hn, hs⟩
  rw [h.spent_eq_false hn] at hs
  cases hs

end NoteStore

/-- A melt into this hash reserves the note. -/
def reserves (hash id : Str) : Event (mint cfg) → Bool
  | .did _ (.write (.markPending ids h)) _ (.ok _) _ => h = hash && id ∈ ids
  | _ => false

/-- A swap, a transfer, the payment of a fee or a melt takes the note. -/
def takes (id : Str) : Event (mint cfg) → Bool
  | .did _ (.write u) _ (.ok _) _ => id ∈ u.consumed
  | _ => false

/-- A swap burns the note. -/
def swaps (id : Str) : Event (mint cfg) → Bool
  | .did _ (.write (.swap burnIds _ _)) _ (.ok _) _ => id ∈ burnIds
  | _ => false

theorem reserves_eq_true (h : reserves hash id e = true) : ∃ a ids i pre,
    e = .did a (.write (.markPending ids hash)) i (.ok ()) pre ∧ id ∈ ids := by
  cases e with
  | did a o i out pre =>
    cases o with
    | write u =>
      cases u with
      | markPending ids h' =>
        rcases out with e | out
        · cases h
        · simp only [reserves, Bool.and_eq_true, decide_eq_true_eq] at h
          exact ⟨a, ids, i, pre, by rw [h.1], h.2⟩
      | _ => cases h
    | _ => cases h
  | _ => cases h

theorem takes_eq_true (h : takes id e = true) : ∃ a u i out pre,
    e = .did a (.write u) i (.ok out) pre ∧ id ∈ u.consumed := by
  cases e with
  | did a o i out pre =>
    cases o with
    | write u =>
      rcases out with e | out
      · cases h
      · exact ⟨a, u, i, out, pre, rfl, of_decide_eq_true h⟩
    | _ => cases h
  | _ => cases h

theorem swaps_eq_true (h : swaps id e = true) : ∃ a burnIds mintNoteIds mintAmounts i pre,
    e = .did a (.write (.swap burnIds mintNoteIds mintAmounts)) i (.ok ()) pre ∧ id ∈ burnIds := by
  cases e with
  | did a o i out pre =>
    cases o with
    | write u =>
      cases u with
      | swap burnIds mintNoteIds mintAmounts =>
        rcases out with e | out
        · cases h
        · exact ⟨a, burnIds, mintNoteIds, mintAmounts, i, pre, rfl, of_decide_eq_true h⟩
      | _ => cases h
    | _ => cases h
  | _ => cases h

/-- Right after an answer about the payment with this hash, whoever heard it burns the note because
the payment was made, or restores it because it was not. -/
def resolves (hash id : Str) (paid : Bool) (e before : Event (mint cfg)) : Bool :=
  verdict hash before = some paid && e.by? = before.by? &&
    match e with
    | .did _ (.write (.finalizeMelt ids)) .. => paid && id ∈ ids
    | .did _ (.write (.restore ids)) .. => !paid && id ∈ ids
    | _ => false

/-- Unless a round of reconciliation restores a note that is reserved for another hash than the one
it asked about. -/
def restoresHeld (e before : Event (mint cfg)) : Bool :=
  match e, before with
  | .did ⟨_, .reconcilePendingMelts⟩ (.write (.restore ids)) _ _ pre,
    .answered _ (.isPaymentComplete h) _ _ =>
    ids.all fun id => (pre.store.notes.find? id).all fun n =>
      n.pendingPaymentHash.all fun key => key = h
  | _, _ => true

theorem restoresHeld_iff {tid : ℕ} {i : Input} {r : Except Exn Unit} {pre pre' : State}
    {ans : Except Unit Bool} :
    restoresHeld
        (.did ⟨tid, .reconcilePendingMelts⟩ (.write (.restore ids)) i r pre : Event (mint cfg))
        (.answered a (.isPaymentComplete hash) ans pre') = true ↔
      ∀ id ∈ ids, ∀ hash', pre.store.ReservedFor id hash' → hash' = hash := by
  simp only [restoresHeld, List.all_eq_true, Option.all_eq_true, decide_eq_true_eq, ReservedFor]
  constructor
  · rintro h id hid hash' ⟨n, hn, hp⟩
    exact h id hid n hn hash' hp
  · exact fun h id hid n hn hash' hp => h id hid hash' ⟨n, hn, hp⟩

/-- What has become of a note that was reserved for a hash, by the events since. -/
inductive Fate (w : World (mint cfg)) (es : List (Event (mint cfg))) (id hash : Str) : Prop
  /-- It is still reserved. -/
  | held (h : w.st.store.Held id hash)
  /-- Its payment was made, and it is burned. -/
  | finalized {e before : Event (mint cfg)} (hes : [e, before] <:+: es)
      (h : resolves hash id true e before = true) (hs : w.st.store.Spent id)
  /-- It was restored, and its payment never comes. -/
  | restored {e before : Event (mint cfg)} (hes : [e, before] <:+: es)
      (h : resolves hash id false e before = true) (hd : Dead w hash)

theorem Fate.hash_eq {es : List (Event (mint cfg))} (hf : Fate w es id hash')
    (hh : w.st.store.Held id hash) (hd : ¬ Dead w hash') : hash' = hash := by
  cases hf with
  | held h => exact h.hash_eq hh
  | finalized _ _ hs => exact absurd hs hh.not_spent
  | restored _ _ h => exact absurd h hd

/-- A payment whose task has not resolved its melt yet may still come. -/
theorem Run.not_dead_of_payer (h : Run (law cfg) s w) {limit : ℤ} {pre : State}
    (hc : .called a (.payInvoice pr limit) pre ∈ w.hist) (hp : invoiceHash d pr = some hash)
    (hclean : Clean w a) : ¬ Dead w hash := by
  intro hd
  rcases hd.tried with ⟨b, pr', limit', pre', hc', hp', hnot⟩ | ⟨e, he, hdrop⟩
  · obtain rfl := Run.payer_eq h hc' hp' hc hp
    exact hnot hclean
  · exact Run.hash_ne_of_abandoned h he hdrop hc hp

/-- Nor is a payment dead that was truly made. -/
theorem Run.not_dead_of_complete (h : Run (law cfg) s w)
    (htruth : ∀ e ∈ w.hist, truthful e = true) {pre : State} {rest : List (Event (mint cfg))}
    (hh : w.hist = .answered a (.isPaymentComplete hash) (.ok true) pre :: rest) :
    ¬ Dead w hash := by
  intro hd
  have htrue := htruth _ (hh ▸ List.mem_cons_self)
  have hpaid : pre.payments hash = .paid := of_decide_eq_true htrue
  rw [Run.answered_eq h hh] at hpaid
  exact hd.unpaid.2 hpaid

/-- **A melt is burned by its own payment.** Whoever burns a note that is reserved for a hash has
just heard that the payment with this hash was made. -/
theorem Run.resolves_finalize (h : Run (law cfg) State.initial w)
    (htruth : ∀ e ∈ w.hist, truthful e = true)
    (hfate : ∀ {b id hash}, Wrote w b (.markPending [id] hash) (.ok ()) → ∃ es, Fate w es id hash)
    (hh : w.st.store.Held id hash) {i : Input} {r : Except Exn Unit} {pre : State}
    (hn : Next (law cfg) w (.did a (.write (.finalizeMelt ids)) i r pre) w') (hid : id ∈ ids) :
    ∃ before rest, w.hist = before :: rest ∧ resolves hash id true
      (.did a (.write (.finalizeMelt ids)) i r pre : Event (mint cfg)) before = true := by
  have hown {hash' : Str} {b : Actor mintSig}
      (hres : Wrote w b (.markPending [id] hash') (.ok ())) (hd : ¬ Dead w hash') :
      hash' = hash := by
    obtain ⟨es, hf⟩ := hfate hres
    exact hf.hash_eq hh hd
  obtain ⟨hu, -⟩ := Next.write hn
  rcases hu with ⟨pr, inv, ht, hclean, hanswer⟩ | ⟨-, h', pre', rest, heq, -, grouped, hsaw, hg⟩
  · obtain ⟨hash', id', rfl, hh', hp, hpays⟩ := Run.pays h (mem_alive (hn.step.alive rfl)) ht
    obtain rfl := List.mem_singleton.1 hid
    obtain ⟨b, _, _, _, -, hres, -⟩ := hpays
    rcases hanswer with ⟨limit, fee, pre', rest, heq⟩ | ⟨h', pre', rest, hh'', heq⟩
    · obtain ⟨pre'', hc⟩ := h.called_of_answered (heq ▸ List.mem_cons_self)
      obtain rfl := hown hres (Run.not_dead_of_payer h hc hp hclean)
      exact ⟨_, rest, heq, by simp [resolves, verdict, hp, Event.by?]⟩
    · obtain rfl := Option.some.inj (hh'.symm.trans hh'')
      obtain rfl := hown hres (Run.not_dead_of_complete h htruth heq)
      exact ⟨_, rest, heq, by simp [resolves, verdict, Event.by?]⟩
  · obtain ⟨w₀, _, _, _, -, hn₀, hf₀, -, hres⟩ := Run.listed h hsaw hg
    obtain ⟨b, hb⟩ := hres id hid
    have hb := hb.mono fun e he => (hn₀.follows.trans hf₀).mem he
    obtain rfl := hown hb (Run.not_dead_of_complete h htruth heq)
    exact ⟨_, rest, heq, by simp [resolves, verdict, Event.by?, hid]⟩

/-- No operation moves the source. -/
theorem Next.payments {o : Op} {i : Input} {out : o.Out} {pre : State}
    (hn : Next (law cfg) w (.did a o i out pre) w') : w'.st.payments = w.st.payments :=
  exec_payments hn.exec.2

/-- When the source denies a payment, it has not seen it or has seen it fail. -/
theorem Run.unpaid (h : Run (law cfg) State.initial w) (htruth : ∀ e ∈ w.hist, truthful e = true)
    {pre : State} {rest : List (Event (mint cfg))}
    (hh : w.hist = .answered a (.isPaymentComplete hash) (.ok false) pre :: rest) :
    w.st.payments hash ≠ .sent ∧ w.st.payments hash ≠ .paid := by
  have htrue := htruth _ (hh ▸ List.mem_cons_self)
  simpa only [truthful, Run.answered_eq h hh, Bool.and_eq_true, decide_eq_true_eq] using htrue

/-- A melt that is over is dead once the source denies its payment. -/
theorem Over.dead {o : Op} {i : Input} {out : o.Out} {pre pre' : State}
    {rest : List (Event (mint cfg))} (ho : Over w' hash) (h : Run (law cfg) State.initial w)
    (hn : Next (law cfg) w (.did b o i out pre) w') (htruth : ∀ e ∈ w.hist, truthful e = true)
    (hh : w.hist = .answered a (.isPaymentComplete hash) (.ok false) pre' :: rest) :
    Dead w' hash := by
  refine ⟨ho, ⟨.answered a (.isPaymentComplete hash) (.ok false) pre', ?_, if_pos rfl⟩, ?_⟩
  · rw [hn.hist, hh]
    simp
  · rw [Next.payments hn]
    exact Run.unpaid h htruth hh

/-- **A melt is restored when its own payment never comes.** Whoever restores a note that is
reserved for a hash has just heard that the payment with this hash was not made, and from then on it
never is. -/
theorem Run.resolves_restore (h : Run (law cfg) State.initial w)
    (hlive : ∀ e ∈ w.hist, e.crash? = false) (htruth : ∀ e ∈ w.hist, truthful e = true)
    (hfate : ∀ {b id hash}, Wrote w b (.markPending [id] hash) (.ok ()) → ∃ es, Fate w es id hash)
    (hh : w.st.store.Held id hash) {i : Input} {r : Except Exn Unit} {pre : State}
    (hn : Next (law cfg) w (.did a (.write (.restore ids)) i r pre) w') (hid : id ∈ ids)
    (hheld : ∀ before rest, w.hist = before :: rest →
      restoresHeld (.did a (.write (.restore ids)) i r pre) before = true) :
    (∃ before rest, w.hist = before :: rest ∧ resolves hash id false
      (.did a (.write (.restore ids)) i r pre : Event (mint cfg)) before = true) ∧
      Dead w' hash := by
  obtain ⟨hu, rfl, -⟩ := Next.write hn
  rcases hu with ⟨pr, inv, ht, hclean, ⟨limit, pre', hfail⟩, h', pre, rest, hh', heq⟩ |
    ⟨ht, h', pre', rest, heq, ⟨pre, hasked⟩, -⟩
  · obtain ⟨hash', id', rfl, hh'', hp, hpays⟩ := Run.pays h (mem_alive (hn.step.alive rfl)) ht
    obtain rfl := List.mem_singleton.1 hid
    obtain ⟨b, _, _, _, -, hres, -⟩ := hpays
    obtain ⟨pre', hc⟩ := h.called_of_answered hfail
    obtain rfl := Option.some.inj (hh'.symm.trans hh'')
    obtain ⟨es, hf⟩ := hfate hres
    obtain rfl := hf.hash_eq hh (Run.not_dead_of_payer h hc hp hclean)
    refine ⟨⟨_, rest, heq, by simp [resolves, verdict, Event.by?]⟩, Over.dead ?_ h hn htruth heq⟩
    refine Run.over_of_idle (h.step hn) (hn.follows.mem hc) hp ((Idle.of_answered heq).of_next hn)
      fun hclean => ?_
    exact hclean (.did a (.write (.restore [id])) i r w.st) (by simp [hn.hist]) rfl
  · obtain ⟨tid, task⟩ := a
    obtain rfl : task = .reconcilePendingMelts := ht
    obtain ⟨n, hfind, -, -, hp⟩ := hh
    obtain rfl := restoresHeld_iff.1 (hheld _ _ heq) id hid hash ⟨n, hfind, hp⟩
    exact ⟨⟨_, rest, heq, by simp [resolves, verdict, Event.by?, hid]⟩,
      ((Run.over_of_asked h hlive rfl hasked).step h hn).dead h hn htruth heq⟩

/-- A reservation is resolved by what came after it. -/
theorem infix_of_resolves {es rest rest' : List (Event (mint cfg))} {e before : Event (mint cfg)}
    {paid : Bool} {u : Update} {i : Input} {r : Except Exn u.Out} {pre : State}
    (hh : es ++ .did b (.write u) i r pre :: rest = before :: rest')
    (hr : resolves hash id paid e before = true) : [e, before] <:+: e :: es := by
  cases es with
  | nil =>
    obtain ⟨rfl, -⟩ := List.cons.inj hh
    simp [resolves, verdict] at hr
  | cons e' es =>
    obtain ⟨rfl, -⟩ := List.cons.inj hh
    exact ⟨[], es, rfl⟩

/-- **One event more.** -/
theorem Fate.step {es rest : List (Event (mint cfg))} {i : Input} {pre : State}
    (hf : Fate w es id hash) (h : Run (law cfg) State.initial w) (hn : Next (law cfg) w e w')
    (hh : w.hist = es ++ .did b (.write (.markPending [id] hash)) i (.ok ()) pre :: rest)
    (hlive : ∀ e ∈ w'.hist, e.crash? = false) (hfinal : denialsFinal w'.hist = true)
    (htruth : ∀ e ∈ w.hist, truthful e = true)
    (hheld : ∀ before rest, w.hist = before :: rest → restoresHeld e before = true)
    (hfate : ∀ {b id hash}, Wrote w b (.markPending [id] hash) (.ok ()) →
      ∃ es, Fate w es id hash) : Fate w' (e :: es) id hash := by
  rw [hn.hist, List.forall_mem_cons] at hlive
  have hsub : es <:+: e :: es := (List.suffix_cons e es).isInfix
  cases hf with
  | finalized hes hr hs => exact .finalized (hes.trans hsub) hr (hs.evolves (Next.evolves hn))
  | restored hes hr hd => exact .restored (hes.trans hsub) hr (hd.step h hn hfinal)
  | held hheld' =>
    have keep (he : w'.st.store = w.st.store) : Fate w' (e :: es) id hash := .held (he ▸ hheld')
    rcases Next.store hn with ⟨-, he⟩ | ⟨a, u, i, r, rfl, -, hr⟩ | ⟨rfl, -⟩
    · exact keep he
    · rcases Update.run_eq_some.1 hr with ⟨out, rfl, ho⟩ | ⟨_, -, -, -, he⟩
      · obtain ⟨n, hfind, hs, hp, hkey⟩ := hheld'
        rcases (Update.notesStep u.swapsMeet_true ho).held hfind hp with
          hfind' | ⟨ids, hid, rfl | rfl⟩
        · exact .held ⟨n, hfind', hs, hp, hkey⟩
        · obtain ⟨before, rest, hh', hr⟩ :=
            Run.resolves_finalize h htruth hfate ⟨n, hfind, hs, hp, hkey⟩ hn hid
          refine .finalized (infix_of_resolves (hh.symm.trans hh') hr) hr ?_
          rw [← (Prod.mk.inj (Except.ok.inj ho)).2]
          exact spent_finalizeMelt hfind hid
        · obtain ⟨⟨before, rest, hh', hr⟩, hd⟩ :=
            Run.resolves_restore h hlive.2 htruth hfate ⟨n, hfind, hs, hp, hkey⟩ hn hid hheld
          exact .restored (infix_of_resolves (hh.symm.trans hh') hr) hr hd
      · exact keep he
    · cases hlive.1

/-- What becomes of a reserved note, in every history in which nobody's reservation is restored for
another's. -/
theorem Run.fate (h : Run (law cfg) State.initial w) (hlive : ∀ e ∈ w.hist, e.crash? = false)
    (hfinal : denialsFinal w.hist = true) (htruth : ∀ e ∈ w.hist, truthful e = true)
    (hheld : ∀ e before, [e, before] <:+: w.hist → restoresHeld e before = true)
    {es rest : List (Event (mint cfg))} {i : Input} {pre : State}
    (hh : w.hist = es ++ .did b (.write (.markPending [id] hash)) i (.ok ()) pre :: rest) :
    Fate w es id hash := by
  induction h generalizing es rest b id hash i pre with
  | start => simp at hh
  | @step w w' e h hn ih =>
    have hsub : w.hist <:+: w'.hist := by
      rw [hn.hist]
      exact (List.suffix_cons e w.hist).isInfix
    have hlive₀ : ∀ e ∈ w.hist, e.crash? = false := fun e he => hlive e (hsub.subset he)
    have hfinal₀ : denialsFinal w.hist = true := denialsFinal_of_cons (hn.hist ▸ hfinal)
    have htruth₀ : ∀ e ∈ w.hist, truthful e = true := fun e he => htruth e (hsub.subset he)
    have hheld₀ : ∀ e before, [e, before] <:+: w.hist → restoresHeld e before = true :=
      fun e before he => hheld e before (he.trans hsub)
    rw [hn.hist] at hh
    cases es with
    | nil =>
      -- it is reserved now
      obtain ⟨rfl, -⟩ := List.cons.inj hh
      obtain ⟨s', ho, he⟩ := map_eq_ok.1 (Next.write_ok hn).2
      obtain ⟨hburn, rfl⟩ := markPending_ok ho
      obtain ⟨n, hfind, hs, -⟩ := hburn id List.mem_cons_self
      refine .held ⟨{ n with pending := true, pendingPaymentHash := some hash }, ?_, hs, rfl, rfl⟩
      rw [← (Prod.mk.inj he).2, find?_reserve, hfind, Option.map_some, if_pos List.mem_cons_self]
    | cons e' es =>
      obtain ⟨rfl, hh₀⟩ := List.cons.inj hh
      refine (ih hlive₀ hfinal₀ htruth₀ hheld₀ hh₀).step h hn hh₀ hlive hfinal htruth₀
        (fun before rest hh => ?_) ?_
      · refine hheld e before ?_
        rw [hn.hist, hh]
        exact ⟨[], rest, rfl⟩
      · rintro b id hash ⟨i, pre, hm⟩
        obtain ⟨es, rest, hh⟩ := List.append_of_mem hm
        exact ⟨es, ih hlive₀ hfinal₀ htruth₀ hheld₀ hh⟩

/-- A note that was reserved for a hash and can be taken again has been restored, and the payment
never comes. -/
theorem Run.dead_of_burnable (h : Run (law cfg) State.initial w)
    (hlive : ∀ e ∈ w.hist, e.crash? = false) (hfinal : denialsFinal w.hist = true)
    (htruth : ∀ e ∈ w.hist, truthful e = true)
    (hheld : ∀ e before, [e, before] <:+: w.hist → restoresHeld e before = true)
    (hb : Wrote w b (.markPending [id] hash) (.ok ())) (hburn : w.st.store.Burnable id) :
    Dead w hash := by
  obtain ⟨i, pre, hm⟩ := hb
  obtain ⟨es, rest, hh⟩ := List.append_of_mem hm
  cases Run.fate h hlive hfinal htruth hheld hh with
  | held hh => exact absurd hh hburn.not_held
  | finalized _ _ hs => exact absurd hs hburn.not_spent
  | restored _ _ hd => exact hd

/-- A melt reserves one note. -/
theorem Run.reserves_one (h : Run (law cfg) s w) (hb : Wrote w b (.markPending ids hash) (.ok ())) :
    ∃ id, ids = [id] := by
  obtain ⟨i, pre, he⟩ := hb
  obtain ⟨w₀, w₁, -, hn, -⟩ := h.past he
  obtain ⟨-, _, _, _, _, _, _, id, _, _, -, -, hids, -⟩ := (Next.write_ok hn).1
  exact ⟨id, hids⟩

/-- **No double payout.** If the process does not die, the source answers truthfully and sees no
payment that it has denied, and a round of reconciliation only restores notes that are not reserved
for another hash than the one it asked about, then in every order in which melts, swaps, transfers
and rounds get in each other's way: a note that was reserved for a hash is still reserved for it, or
it was burned right after an answer that the payment was made, or restored right after one that it
was not; and a note that was reserved for a payment that is sent or made is not taken by anything
else, but for melts whose own payment never comes. -/
theorem no_double_payout {c : Config (mint cfg)} (h : Reach State.initial c)
    (hlive : ∀ e ∈ c.w.hist, e.crash? = false) (htruth : ∀ e ∈ c.w.hist, truthful e = true)
    (hfinal : denialsFinal c.w.hist = true)
    (hheld : ∀ e before, [e, before] <:+: c.w.hist → restoresHeld e before = true)
    {es rest : List (Event (mint cfg))} (hh : c.w.hist = es ++ e :: rest)
    (he : reserves hash id e = true) :
    (c.w.st.store.Held id hash ∨
      ∃ e before paid, [e, before] <:+: es ∧ resolves hash id paid e before = true) ∧
    (c.w.st.payments hash = .sent ∨ c.w.st.payments hash = .paid →
      ∀ e' ∈ c.w.hist, takes id e' = true → e' = e ∨ ∃ hash', reserves hash' id e' = true ∧
        c.w.st.payments hash' ≠ .sent ∧ c.w.st.payments hash' ≠ .paid) := by
  have hr : Run (law cfg) State.initial c.w := Reach.law h
  obtain ⟨b, ids, i, pre, rfl, hid⟩ := reserves_eq_true he
  have hm : .did b (.write (.markPending ids hash)) i (.ok ()) pre ∈ c.w.hist := by
    rw [hh]
    simp
  obtain ⟨id', rfl⟩ := Run.reserves_one hr ⟨i, pre, hm⟩
  obtain rfl := List.mem_singleton.1 hid
  have hdead {w : World (mint cfg)} {b : Actor mintSig} {hash : Str}
      (h : Run (law cfg) State.initial w) (hf : Follows (law cfg) w c.w)
      (hb : Wrote w b (.markPending [id] hash) (.ok ())) (hburn : w.st.store.Burnable id) :
      Dead c.w hash := by
    obtain ⟨es, hes⟩ := hf.hist
    have hsub : w.hist <:+: c.w.hist := ⟨es, [], by rw [hes, List.append_nil]⟩
    refine Dead.follows ?_ h hf hfinal
    exact Run.dead_of_burnable h (fun e he => hlive e (hsub.subset he))
      (denialsFinal_of_append es (hes ▸ hfinal)) (fun e he => htruth e (hsub.subset he))
      (fun e before he => hheld e before (he.trans hsub)) hb hburn
  constructor
  · cases Run.fate hr hlive hfinal htruth hheld hh with
    | held hh => exact .inl hh
    | finalized hes hr hs => exact .inr ⟨_, _, _, hes, hr⟩
    | restored hes hr hd => exact .inr ⟨_, _, _, hes, hr⟩
  · intro hpaid e' he' ht
    by_cases heq : e' = .did b (.write (.markPending [id] hash)) i (.ok ()) pre
    · exact .inl heq
    obtain ⟨a, u, i', out, pre', rfl, hid'⟩ := takes_eq_true ht
    rcases hr.before_or hm he' (Ne.symm heq) with
      ⟨w₀, w₁, w₂, w₃, h₀, hn, hf, hn', hf'⟩ | ⟨w₀, w₁, w₂, w₃, h₀, hn, hf, hn', hf'⟩
    · -- it was reserved before it was taken
      have hb : Wrote w₂ b (.markPending [id] hash) (.ok ()) :=
        ⟨i, pre, hf.mem (by simp [hn.hist])⟩
      have hd := hdead (hf.run (h₀.step hn)) (hn'.follows.trans hf') hb
        (Update.burnable (Next.write hn').2.2 hid')
      rcases hpaid with hp | hp
      · exact absurd hp hd.unpaid.1
      · exact absurd hp hd.unpaid.2
    · -- it was taken before it was reserved, so by a melt
      have hburn : w₂.st.store.Burnable id :=
        Update.burnable (Next.write hn').2.2 List.mem_cons_self
      by_cases hu : ∃ ids hash, u = .markPending ids hash
      · obtain ⟨ids, hash', rfl⟩ := hu
        have hb : Wrote w₂ a (.markPending ids hash') (.ok ()) :=
          ⟨i', pre', hf.mem (by simp [hn.hist])⟩
        obtain ⟨id', rfl⟩ := Run.reserves_one (hf.run (h₀.step hn)) hb
        obtain rfl := List.mem_singleton.1 hid'
        exact .inr ⟨hash', by simp [reserves],
          (hdead (hf.run (h₀.step hn)) (hn'.follows.trans hf') hb hburn).unpaid⟩
      · have hspent := spent_of_consumed (Next.write_ok hn).2 hid' fun ids hash he =>
          hu ⟨ids, hash, he⟩
        exact absurd (hspent.evolves (Follows.evolves hf)) hburn.not_spent

/-- The note of `paidMeltRun`, whose payment was made, is not taken by anything but its melt. -/
theorem no_double_payout_paid : ∃ c : Config standInMint, Reach State.initial c ∧
    ∃ e ∈ c.w.hist, reserves "p".toList (standInKey '1') e = true ∧
      ∀ e' ∈ c.w.hist, takes (standInKey '1') e' = true → e' = e ∨
        ∃ hash', reserves hash' (standInKey '1') e' = true ∧
          c.w.st.payments hash' ≠ .sent ∧ c.w.st.payments hash' ≠ .paid := by
  have hrun : (standInRun paidMeltRun).any (fun c => c.w.hist.all (fun e => !e.crash?) &&
      c.w.hist.all truthful && denialsFinal c.w.hist &&
      ((c.w.hist.zip c.w.hist.tail).all fun x => restoresHeld x.1 x.2) &&
      decide (c.w.st.payments "p".toList = .paid) &&
      c.w.hist.any (reserves "p".toList (standInKey '1'))) = true := by
    decide +kernel
  obtain ⟨c, hc, h⟩ := exists_standInRun hrun
  simp only [Bool.and_eq_true, List.all_eq_true, List.any_eq_true, decide_eq_true_eq,
    Bool.not_eq_true'] at h
  obtain ⟨⟨⟨⟨⟨hlive, htruth⟩, hfinal⟩, hheld⟩, hpaid⟩, e, hm, he⟩ := h
  obtain ⟨es, rest, hh⟩ := List.append_of_mem hm
  obtain ⟨-, htakes⟩ := no_double_payout hc hlive htruth hfinal
    (fun e before he => hheld (e, before) (mem_zip_tail.2 he)) hh he
  exact ⟨c, hc, e, hm, he, htakes (.inr hpaid)⟩

/-- The source answers nothing about payments. -/
def standInFails : (c : Call) → c.Ans
  | .payInvoice .. | .isPaymentComplete _ => .error ()
  | c => standInAnswer [] false c

/-- A melt is left pending because the source answers nothing. Then a round of reconciliation asks
about it, and has another melt on its list whose payment is being made. Meanwhile that payment turns
out to have failed, and its note is restored and melted into another invoice. The round goes on to
the hash on its list, hears that it was not paid, and restores the note again. It is swapped, and
the payment lands. -/
def staleRoundRun : List (Choice standInMint) :=
  standInMints 0 "h".toList (standInKey '1') ++ standInMints 5 "g".toList (standInKey '2') ++
    standInMelts 10 (standInKey '1') "p".toList ++ [.wake 25] ++ standInGoes 1 1 ++
    (List.replicate 11 (.answer 25 standInFails :: standInGoes 1 1)).flatten ++
    [.answer 25 standInFails] ++ standInGoes 2 1 ++
    standInMelts 53 (standInKey '2') "q".toList ++ [.wake 68] ++ standInGoes 1 1 ++
    [.arrive .reconcilePendingMelts, .wake 71] ++ standInGoes 3 1 ++
    [.answer 68 (standInAnswer [] false)] ++ standInGoes 1 1 ++
    [.answer 68 (standInAnswer [] false)] ++ standInGoes 3 1 ++
    standInAsks 81 (.getWithdrawCallback [standInKey '2'] (some "lnr".toList) none none none) ++
    standInGoes 11 1 ++ [.wake 91] ++ standInGoes 1 1 ++
    [.answer 71 standInFails] ++ standInGoes 2 1 ++
    [.answer 71 (standInAnswer [] false)] ++ standInGoes 2 1 ++
    standInAsks 100
      (.getWithdrawCallback [standInKey '2'] none none (some (standInKey '3')) none) ++
    standInGoes 6 1 ++
    [.stir (.depart "r".toList), .stir (.land "r".toList), .stir (.pay "r".toList)]

/-- **A note can be paid out and swapped as well.** -/
theorem double_payout : ∃ c : Config standInMint, Reach State.initial c ∧
    (∀ e ∈ c.w.hist, e.crash? = false) ∧ (∀ e ∈ c.w.hist, truthful e = true) ∧
    denialsFinal c.w.hist = true ∧ ∃ hash id, (∃ e ∈ c.w.hist, reserves hash id e = true) ∧
      ¬ c.w.st.store.Held id hash ∧
      (∀ e before paid, [e, before] <:+: c.w.hist → resolves hash id paid e before = false) ∧
      c.w.st.payments hash = .paid ∧
      ∃ a burnIds mintNoteIds mintAmounts i pre, id ∈ burnIds ∧
        .did a (.write (.swap burnIds mintNoteIds mintAmounts)) i (.ok ()) pre ∈ c.w.hist := by
  have hrun : (standInRun staleRoundRun).any (fun c => c.w.hist.all (fun e => !e.crash?) &&
      c.w.hist.all truthful && denialsFinal c.w.hist &&
      c.w.hist.any (reserves "r".toList (standInKey '2')) &&
      ((c.w.st.store.notes.find? (standInKey '2')).any fun n => n.spent) &&
      ((c.w.hist.zip c.w.hist.tail).all fun x =>
        [true, false].all fun paid => !resolves "r".toList (standInKey '2') paid x.1 x.2) &&
      decide (c.w.st.payments "r".toList = .paid) &&
      c.w.hist.any (swaps (standInKey '2'))) = true := by
    decide +kernel
  obtain ⟨c, hc, h⟩ := exists_standInRun hrun
  simp only [Bool.and_eq_true, List.all_eq_true, List.any_eq_true, decide_eq_true_eq,
    Bool.not_eq_true', Option.any_eq_true] at h
  obtain ⟨⟨⟨⟨⟨⟨⟨hlive, htruth⟩, hfinal⟩, e, hm, he⟩, hspent⟩, hres⟩, hpaid⟩, e', hm', he'⟩ := h
  obtain ⟨a, burnIds, mintNoteIds, mintAmounts, i, pre, rfl, hid⟩ := swaps_eq_true he'
  refine ⟨c, hc, hlive, htruth, hfinal, "r".toList, standInKey '2', ⟨e, hm, he⟩,
    fun hh => hh.not_spent hspent, fun e before paid hi => ?_, hpaid, a, burnIds, mintNoteIds,
    mintAmounts, i, pre, hid, hm'⟩
  exact hres (e, before) (mem_zip_tail.2 hi) paid (by cases paid <;> simp)

/-- The request for a payment is on its way when its call is given up. The source denies the
payment, its note is restored and swapped, and then the payment lands. -/
def lateLandingRun : List (Choice standInMint) :=
  standInMints 0 "h".toList (standInKey '1') ++ standInMelts 5 (standInKey '1') "p".toList ++
    [.wake 20] ++ standInGoes 1 1 ++ [.stir (.depart "p".toList), .answer 20 standInFails] ++
    standInGoes 1 1 ++ [.answer 20 (standInAnswer [] false)] ++ standInGoes 3 1 ++
    standInAsks 30
      (.getWithdrawCallback [standInKey '1'] none none (some (standInKey '2')) none) ++
    standInGoes 6 1 ++ [.stir (.land "p".toList), .stir (.pay "p".toList)]

example : (standInRun lateLandingRun).any (fun c => c.w.hist.all (fun e => !e.crash?) &&
    c.w.hist.all truthful && ((c.w.hist.zip c.w.hist.tail).all fun x => restoresHeld x.1 x.2) &&
    decide (c.w.st.payments "p".toList = .paid) && c.w.hist.any (swaps (standInKey '1'))) =
      true := by
  decide +kernel

end LnurlMint
