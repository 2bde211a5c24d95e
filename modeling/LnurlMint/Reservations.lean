import LnurlMint.Attempts

/-!
# Whom a payment burns

A melt is spread over four writes: the note is reserved for a payment hash, the attempt is
registered as in flight, the hash goes on record, and the payment is scheduled. The process may die
between any two of them, and then what is left is a note that is reserved for a hash which no record
mentions. Another note can be melted into the same invoice later; and since notes are found again by
their hash alone, its payment burns both.

That is one way for a payment to burn a note that it was not made for. The other needs two rounds of
reconciliation at once: one of them restores a note, the note is reserved again for another hash,
and the other round still has it on its list under the old one. Nothing else goes wrong: a payment
burns the note that it was made for as long as a note is only reserved for a hash that no other note
is reserved for, and a round only burns notes that are still reserved for the hash it asked about.

## Main definitions

* `verdict` — what an answer says of the payment with a hash
* `truthful` — the answers that agree with what became of the payment
* `Pays` — the payment of a melt, and the note it was scheduled for
* `burns` — a note is burned because a payment was made
* `reservesAlone`, `finalizesHeld` — what has to hold of reservations and of rounds

## Main results

* `NotesStep.held` — what becomes of a reserved note
* `Run.reserved_for` — once a melt is on record, its note alone is reserved for its hash
* `burned_for_own_payment`
-/

namespace LnurlMint

open Relational Interleave

/-! ## Reserved notes -/

namespace NoteStore

variable {s s' : NoteStore} {now : ℤ} {u : Update} {id hash : Str}

theorem mem_appendTo {key : Str} {l : List (Str × List Str)} {ids : List Str}
    (h : (hash, ids) ∈ appendTo key id l) : (hash, ids) ∈ l ∨
      hash = key ∧ (ids = [id] ∨ ∃ before, (hash, before) ∈ l ∧ ids = before ++ [id]) := by
  induction l with
  | nil =>
    obtain ⟨rfl, rfl⟩ := Prod.mk.inj (List.mem_singleton.1 h)
    exact .inr ⟨rfl, .inl rfl⟩
  | cons x l ih =>
    obtain ⟨k, before⟩ := x
    rw [appendTo] at h
    split at h
    · rename_i hk
      rcases List.mem_cons.1 h with heq | h
      · obtain ⟨rfl, rfl⟩ := Prod.mk.inj heq
        exact .inr ⟨hk, .inr ⟨before, List.mem_cons_self, rfl⟩⟩
      · exact .inl (List.mem_cons_of_mem _ h)
    · rcases List.mem_cons.1 h with heq | h
      · exact .inl (heq ▸ List.mem_cons_self)
      · rcases ih h with h | ⟨rfl, rfl | ⟨before, hb, rfl⟩⟩
        · exact .inl (List.mem_cons_of_mem _ h)
        · exact .inr ⟨rfl, .inl rfl⟩
        · exact .inr ⟨rfl, .inr ⟨before, List.mem_cons_of_mem _ hb, rfl⟩⟩

/-- The note is reserved for this hash. -/
def ReservedFor (s : NoteStore) (id hash : Str) : Prop :=
  ∃ n, s.notes.find? id = some n ∧ n.pendingPaymentHash = some hash

/-- Every group of the reserved notes names some notes, and each is reserved for its hash. -/
theorem mem_pendingMelts {ids : List Str} (h : (hash, ids) ∈ s.pendingMelts) :
    ids ≠ [] ∧ ∀ id ∈ ids, s.ReservedFor id hash := by
  revert hash ids
  refine List.foldlRecOn (motive := fun grouped => ∀ {hash ids}, (hash, ids) ∈ grouped →
    ids ≠ [] ∧ ∀ id ∈ ids, s.ReservedFor id hash) s.notes.rows _ (by simp) ?_
  intro grouped hg n hn hash ids hm
  beta_reduce at hm
  split at hm
  · cases hp : n.pendingPaymentHash with
    | none =>
      simp only [hp] at hm
      exact hg hm
    | some key =>
      have hkey : s.ReservedFor n.id key := ⟨n, Table.find?_of_mem hn, hp⟩
      simp only [hp] at hm
      rcases mem_appendTo hm with hm | ⟨rfl, rfl | ⟨before, hb, rfl⟩⟩
      · exact hg hm
      · exact ⟨List.cons_ne_nil _ _, by simpa using hkey⟩
      · refine ⟨by simp, fun id hid => ?_⟩
        rcases List.mem_append.1 hid with hid | hid
        · exact (hg hb).2 id hid
        · rwa [List.mem_singleton.1 hid]
  · exact hg hm

end NoteStore

open NoteStore

/-- A reserved note stays as it is, unless its reservation is resolved. -/
theorem NotesStep.held {ok : List Str → List Str → List ℤ → Prop} {now : ℤ} {u : Update}
    {s s' : NoteStore} {id : Str} {n : NoteRow} (h : NotesStep ok now u s s')
    (hn : s.notes.find? id = some n) (hp : n.pending = true) :
    s'.notes.find? id = some n ∨ ∃ ids, id ∈ ids ∧ (u = .finalizeMelt ids ∨ u = .restore ids) := by
  have hnot : ¬ s.Burnable id := by
    rintro ⟨n', hn', -, hp'⟩
    cases hn.symm.trans hn'
    rw [hp] at hp'
    cases hp'
  cases h with
  | keep hk => exact .inl (hk ▸ hn)
  | credit out _ hi => exact .inl (Table.find?_of_insert? hi hn)
  | swap s₀ hk _ _ burnIds _ _ _ _ hs =>
    have hnid : id ∉ burnIds := fun hid => by
      obtain ⟨n', hn', hb⟩ := hs.burnable id hid
      exact hnot ⟨n', hk ▸ hn', hb⟩
    left
    rw [hs.find?, hk, hn, Option.map_some, if_neg hnid, Option.some_or]
  | burn ids _ _ hb hk =>
    left
    rw [hk, find?_burnNotes, hn, Option.map_some, if_neg fun hid => hnot (hb id hid)]
  | reserve ids hash _ hb hs =>
    left
    rw [hs, find?_reserve, hn, Option.map_some, if_neg fun hid => hnot (hb id hid)]
  | finalize ids hu hs =>
    by_cases hid : id ∈ ids
    · exact .inr ⟨ids, hid, .inl hu⟩
    · left
      rw [hs, find?_finalizeMelt, hn, Option.map_some, if_neg hid]
  | restore ids hu hs =>
    by_cases hid : id ∈ ids
    · exact .inr ⟨ids, hid, .inr hu⟩
    · left
      rw [hs, find?_restore, hn, Option.map_some, if_neg hid]

/-- A reservation is made by reserving. -/
theorem NotesStep.reservedFor {ok : List Str → List Str → List ℤ → Prop} {now : ℤ} {u : Update}
    {s s' : NoteStore} {id hash : Str} (h : NotesStep ok now u s s')
    (hp : s'.ReservedFor id hash) :
    s.ReservedFor id hash ∨ ∃ ids, id ∈ ids ∧ u = .markPending ids hash := by
  obtain ⟨n', hn', hp⟩ := hp
  cases h with
  | keep hk => exact .inl ⟨n', hk ▸ hn', hp⟩
  | credit out _ hi =>
    rw [Table.find?_insert? hi] at hn'
    split at hn'
    · cases hn'
      cases hp
    · exact .inl ⟨n', hn', hp⟩
  | swap s₀ hk _ _ burnIds _ _ _ _ hs =>
    rw [hs.find?, hk] at hn'
    rcases Option.or_eq_some_iff.1 hn' with hn' | ⟨-, hn'⟩
    · obtain ⟨n, hn, rfl⟩ := Option.map_eq_some_iff.1 hn'
      refine .inl ⟨n, hn, ?_⟩
      split at hp <;> exact hp
    · obtain ⟨out, -, rfl⟩ := List.mem_map.1 (List.mem_of_find?_eq_some hn')
      cases hp
  | burn ids _ _ _ hk =>
    rw [hk, find?_burnNotes] at hn'
    obtain ⟨n, hn, rfl⟩ := Option.map_eq_some_iff.1 hn'
    refine .inl ⟨n, hn, ?_⟩
    split at hp <;> exact hp
  | reserve ids hash' hu _ hs =>
    rw [hs, find?_reserve] at hn'
    obtain ⟨n, hn, rfl⟩ := Option.map_eq_some_iff.1 hn'
    split at hp
    · rename_i hid
      obtain rfl := Option.some.inj hp
      exact .inr ⟨ids, hid, hu⟩
    · exact .inl ⟨n, hn, hp⟩
  | finalize ids _ hs =>
    rw [hs, find?_finalizeMelt] at hn'
    obtain ⟨n, hn, rfl⟩ := Option.map_eq_some_iff.1 hn'
    split at hp
    · cases hp
    · exact .inl ⟨n, hn, hp⟩
  | restore ids _ hs =>
    rw [hs, find?_restore] at hn'
    obtain ⟨n, hn, rfl⟩ := Option.map_eq_some_iff.1 hn'
    split at hp
    · cases hp
    · exact .inl ⟨n, hn, hp⟩

/-! ## Payments -/

section Payments

variable {d : Deps} {cfg : Settings d} {w w' : World (mint cfg)} {a b : Actor mintSig}
  {id id' hash pr pr' : Str}

/-- What an answer says of the payment with this hash: whether it was made. -/
def verdict (hash : Str) : Event (mint cfg) → Option Bool
  | .answered _ (.isPaymentComplete h) (.ok paid) _ => if h = hash then some paid else none
  | .answered _ (.payInvoice pr _) (.ok _) _ =>
    if invoiceHash d pr = some hash then some true else none
  | _ => none

/-- Unless the event is an answer about a payment that disagrees with what became of it. -/
def truthful : Event (mint cfg) → Bool
  | .answered _ (.isPaymentComplete h) (.ok true) pre => pre.payments h = .paid
  | .answered _ (.isPaymentComplete h) (.ok false) pre =>
    pre.payments h ≠ .sent && pre.payments h ≠ .paid
  | _ => true

/-- `a` is to pay for a melt of this note into an invoice with this hash, and for the note's amount:
the request that scheduled it reserved the note and recorded the hash. -/
def Pays (w : World (mint cfg)) (a : Actor mintSig) (hash id : Str) : Prop :=
  ∃ b pr inv n, .spawned b a ∈ w.hist ∧ Wrote w b (.markPending [id] hash) (.ok ()) ∧
    Wrote w b (.recordMelt hash pr) (.ok ()) ∧ a.task = .meltPay [id] pr inv ∧
    d.decodeInvoice pr = .ok inv ∧ inv.paymentHash = some hash ∧
    w.st.store.notes.find? id = some n ∧ inv.amountMsat = some n.amountMsat

/-- An unspent note is burned right after an answer that the payment with this hash was made. -/
def burns (hash id : Str) (e before : Event (mint cfg)) : Bool :=
  match e with
  | .did _ (.write (.finalizeMelt ids)) _ _ pre => verdict hash before = some true && id ∈ ids &&
    (pre.store.notes.find? id).any fun n => !n.spent
  | _ => false

theorem burns_eq_true {e before : Event (mint cfg)} (h : burns hash id e before = true) :
    ∃ a ids i r pre n, e = .did a (.write (.finalizeMelt ids)) i r pre ∧
      verdict hash before = some true ∧ id ∈ ids ∧ pre.store.notes.find? id = some n ∧
      n.spent = false := by
  cases e with
  | did a o i out pre =>
    cases o with
    | write u =>
      cases u with
      | finalizeMelt ids =>
        simp only [burns, Bool.and_eq_true, decide_eq_true_eq, Option.any_eq_true] at h
        obtain ⟨⟨hv, hid⟩, n, hn, hs⟩ := h
        exact ⟨a, ids, i, out, pre, n, rfl, hv, hid, hn, by simpa using hs⟩
      | _ => cases h
    | _ => cases h
  | _ => cases h

theorem Wrote.mono {u : Update} {r : Except Exn u.Out} (h : Wrote w a u r)
    (hsub : ∀ e ∈ w.hist, e ∈ w'.hist) : Wrote w' a u r := by
  obtain ⟨i, pre, he⟩ := h
  exact ⟨i, pre, hsub _ he⟩

theorem exec_payments {o : Op} {i : Input} {s s' : State} {out : o.Out}
    (h : exec o i s = some (out, s')) : s'.payments = s.payments := by
  cases o with
  | write u =>
    obtain ⟨_, -, he⟩ := Option.map_eq_some_iff.1 h
    cases he
    rfl
  | _ => cases h; rfl

/-- What a move of the source does to a payment. -/
theorem stir_payments {m : Stir} {calls : List Call} {s s' : State}
    (h : stir d m calls s = some s') (hash : Str) :
    s'.payments hash = s.payments hash ∨
      (s.payments hash = .unseen ∧ paying d calls hash = true) ∨
      (s.payments hash = .transit ∧ m = .land hash) ∨ s.payments hash = .sent := by
  cases m with
  | depart h' | land h' | pay h' | fail h' =>
    simp only [stir] at h
    split at h
    · rename_i hmove
      cases h
      by_cases he : hash = h'
      · subst he
        exact .inr (by tauto)
      · exact .inl (Function.update_of_ne he _ _)
    · cases h

/-- A payment that is under way was asked for by a call that is outstanding. -/
theorem called_of_paying (h : paying d w.pending hash = true) :
    ∃ a pr limit pre, .called a (.payInvoice pr limit) pre ∈ w.hist ∧
      (a.tid, Call.payInvoice pr limit) ∈ outstanding w.hist ∧ invoiceHash d pr = some hash := by
  obtain ⟨c, hc, hpay⟩ := List.any_eq_true.1 h
  obtain ⟨⟨tid, c⟩, hout, rfl⟩ := List.mem_map.1 hc
  obtain ⟨a, pre, hcall, rfl⟩ := mem_outstanding hout
  cases c with
  | payInvoice pr limit => exact ⟨a, pr, limit, pre, hcall, hout, of_decide_eq_true hpay⟩
  | _ => cases hpay

/-- The source has seen nothing of a payment that it was not asked for. -/
theorem Run.asked {s : State} (h : Run (law cfg) s w) (hs : s.payments hash = .unseen)
    (hseen : w.st.payments hash ≠ .unseen) :
    ∃ a pr limit pre, .called a (.payInvoice pr limit) pre ∈ w.hist ∧
      invoiceHash d pr = some hash := by
  induction h with
  | start => exact absurd hs hseen
  | @step w w' e h hn ih =>
    have hcons : ∀ x ∈ w.hist, x ∈ w'.hist := fun x hx => by
      rw [hn.hist]
      exact List.mem_cons_of_mem _ hx
    by_cases hbefore : w.st.payments hash = .unseen
    · obtain ⟨hstep, -, -⟩ := hn
      cases hstep with
      | did _ hx => exact absurd ((congrFun (exec_payments hx) hash).trans hbefore) hseen
      | stirred hx =>
        rcases stir_payments hx hash with he | ⟨-, hp⟩ | ⟨ht, -⟩ | hsent
        · exact absurd (he.trans hbefore) hseen
        · obtain ⟨a, pr, limit, pre, hcall, -, hh⟩ := called_of_paying hp
          exact ⟨a, pr, limit, pre, hcons _ hcall, hh⟩
        · cases hbefore.symm.trans ht
        · cases hbefore.symm.trans hsent
      | _ => exact absurd hbefore hseen
    · obtain ⟨a, pr, limit, pre, hcall, hh⟩ := ih hbefore
      exact ⟨a, pr, limit, pre, hcons _ hcall, hh⟩

/-! ## The request behind a payment -/

section Requests

variable {s : State} {ids ids' : List Str} {hash' : Str}

/-- A payment task was scheduled by a request that reserved its note and recorded its hash. -/
theorem Run.pays (h : Run (law cfg) s w) (ha : Joined w.hist a) {inv : Invoice}
    (ht : a.task = .meltPay ids pr inv) : ∃ hash id, ids = [id] ∧ inv.paymentHash = some hash ∧
      invoiceHash d pr = some hash ∧ Pays w a hash id := by
  obtain ⟨b, hb⟩ := h.spawned_of_joined ha (by rw [ht])
  obtain ⟨w₀, w₁, -, hn, hf⟩ := h.past hb
  have hf : Follows (law cfg) w₀ w := hn.follows.trans hf
  have hmay : MaySpawn cfg w₀ b a.task := hn.lawful
  rw [ht] at hmay
  obtain ⟨id, _, _, hash, n, i₁, _, i₃, pre₁, _, pre₃, rest, ⟨⟩, hdec, hh, hfind, hamount,
    hhist⟩ := hmay
  obtain ⟨n', hfind', hamount', -⟩ := (Follows.evolves hf).note hfind
  have hmem : ∀ e ∈ w₀.hist, e ∈ w.hist := fun e he => hf.mem he
  rw [hhist] at hmem
  refine ⟨hash, id, rfl, hh, by rw [invoiceHash, hdec]; exact hh, b, pr, inv, n', hb, ?_, ?_, ht,
    hdec, hh, hfind', hamount'.symm ▸ hamount⟩
  · exact ⟨i₃, pre₃, hmem _ (by simp)⟩
  · exact ⟨i₁, pre₁, hmem _ (by simp)⟩

/-- Whoever tries to pay is such a task. -/
theorem Run.pays_of_called (h : Run (law cfg) s w) {limit : ℤ} {pre : State}
    (hc : .called a (.payInvoice pr limit) pre ∈ w.hist) (hp : invoiceHash d pr = some hash) :
    ∃ id, Pays w a hash id := by
  obtain ⟨w₀, w₁, -, hn, -⟩ := h.past hc
  obtain ⟨-, ⟨ids, inv, ht⟩, -⟩ := hn.lawful
  obtain ⟨hash', id, -, -, hp', hpays⟩ := Run.pays h (h.joined hc rfl) ht
  obtain rfl := Option.some.inj (hp.symm.trans hp')
  exact ⟨id, hpays⟩

/-- A request reserves once. -/
theorem Run.reserved_once (h : Run (law cfg) s w) (hb : Wrote w b (.markPending ids hash) (.ok ()))
    (hb' : Wrote w b (.markPending ids' hash') (.ok ())) : ids = ids' ∧ hash = hash' := by
  obtain ⟨i, pre, he⟩ := hb
  obtain ⟨i', pre', he'⟩ := hb'
  by_contra hne
  have unreserved : ∀ {ids ids' hash hash' i i' pre pre'},
      ¬ Before (law cfg) s (.did b (.write (.markPending ids hash)) i (.ok ()) pre)
        (.did b (.write (.markPending ids' hash')) i' (.ok ()) pre') w := by
    rintro ids ids' hash hash' i i' pre pre' ⟨w₀, w₁, w₂, w₃, -, hn, hf, hn', -⟩
    obtain ⟨hu, -⟩ := Next.write_ok hn'
    refine hu.1 ids hash ⟨i, pre, hf.mem ?_⟩
    rw [hn.hist]
    exact List.mem_cons_self
  have hevents : (.did b (.write (.markPending ids hash)) i (.ok ()) pre : Event (mint cfg)) ≠
      .did b (.write (.markPending ids' hash')) i' (.ok ()) pre' := by
    intro heq
    injection heq with _ ho
    injection ho with hu
    injection hu with hids hhash
    exact hne ⟨hids, hhash⟩
  exact (h.before_or he he' hevents).elim unreserved unreserved

/-- A hash is recorded by one request. -/
theorem Run.recorder_eq (h : Run (law cfg) s w) {r r' : Except Exn Unit}
    (hb : Wrote w b (.recordMelt hash pr) r) (ha : Wrote w a (.recordMelt hash pr') r') :
    b = a := by
  obtain ⟨i, pre, he⟩ := hb
  obtain ⟨i', pre', he'⟩ := ha
  have heq := eq_of_countP_le_one (Run.recorded_once h hash).1 he he' (decide_eq_true rfl)
    (decide_eq_true rfl)
  injection heq

/-- And once it is, it stays on record. -/
theorem Run.find?_melts_ne_none (h : Run (law cfg) s w) {r : Except Exn Unit}
    (hb : Wrote w b (.recordMelt hash pr) r) : w.st.store.melts.find? hash ≠ none := by
  obtain ⟨i, pre, he⟩ := hb
  intro hnone
  exact List.countP_eq_zero.1 ((Run.recorded_once h hash).2 hnone) _ he (decide_eq_true rfl)

/-- Two payments with one hash are for one note. -/
theorem Pays.note_eq (h : Run (law cfg) s w) (ha : Pays w a hash id) (hb : Pays w b hash id') :
    id = id' := by
  obtain ⟨x, _, _, _, -, hres, hrec, -⟩ := ha
  obtain ⟨y, _, _, _, -, hres', hrec', -⟩ := hb
  obtain rfl := Run.recorder_eq h hrec hrec'
  exact List.singleton_inj.1 (Run.reserved_once h hres hres').1

/-- A hash is paid by one task. -/
theorem Run.payer_eq (h : Run (law cfg) s w) {limit limit' : ℤ} {pre pre' : State}
    (hc : .called a (.payInvoice pr limit) pre ∈ w.hist) (hp : invoiceHash d pr = some hash)
    (hc' : .called b (.payInvoice pr' limit') pre' ∈ w.hist)
    (hp' : invoiceHash d pr' = some hash) : a = b := by
  have hle := (Run.countP_attempts_le h hash).trans (Run.recorded_once h hash).1
  have heq := eq_of_countP_le_one hle hc hc' (decide_eq_true hp) (decide_eq_true hp')
  injection heq

/-! ## Whose reservation it is -/

/-- A reserved note was reserved by a request. -/
theorem Run.reserver (h : Run (law cfg) s w) (hs : ∀ id hash, ¬ s.store.ReservedFor id hash)
    (hres : w.st.store.ReservedFor id hash) : ∃ b, Wrote w b (.markPending [id] hash) (.ok ()) := by
  induction h with
  | start => exact absurd hres (hs id hash)
  | @step w w' e h hn ih =>
    have hmono : w.st.store.ReservedFor id hash →
        ∃ b, Wrote w' b (.markPending [id] hash) (.ok ()) := by
      intro hres
      obtain ⟨b, hb⟩ := ih hres
      refine ⟨b, hb.mono fun e he => ?_⟩
      rw [hn.hist]
      exact List.mem_cons_of_mem _ he
    rcases Next.store hn with ⟨-, he⟩ | ⟨b, u, i, r, rfl, hu, hr⟩ | ⟨-, he⟩
    · exact hmono (he ▸ hres)
    · rcases Update.run_eq_some.1 hr with ⟨out, rfl, ho⟩ | ⟨_, rfl, -, -, he⟩
      · rcases (Update.notesStep u.swapsMeet_true ho).reservedFor hres with hres |
          ⟨ids, hid, rfl⟩
        · exact hmono hres
        · obtain ⟨-, _, _, _, _, _, _, id', _, _, -, -, rfl, -⟩ := hu
          obtain rfl := List.mem_singleton.1 hid
          refine ⟨b, i, w.st, ?_⟩
          rw [hn.hist]
          exact List.mem_cons_self
      · exact hmono (he ▸ hres)
    · rw [he] at hres
      exact hmono hres

/-- A note is reserved for a hash that is not on record. -/
theorem MayWrite.unrecorded (hu : MayWrite cfg w b (.markPending ids hash)) :
    w.st.store.melts.find? hash = none := by
  obtain ⟨-, _, _, _, _, _, _, _, _, _, -, -, -, -, -, -, -, hmelt, -⟩ := hu
  exact Option.map_eq_none_iff.1 hmelt

/-- Unless the event reserves a note for a hash that another note is reserved for. -/
def reservesAlone : Event (mint cfg) → Bool
  | .did _ (.write (.markPending _ h)) _ (.ok _) pre =>
    pre.store.notes.rows.all fun n => n.pendingPaymentHash ≠ some h
  | _ => true

/-- **Once a melt is on record, its note alone is reserved for its hash**, if notes are only
reserved for hashes that no other note is reserved for. -/
theorem Run.reserved_for (h : Run (law cfg) s w) (halone : ∀ e ∈ w.hist, reservesAlone e = true)
    (hrec : Wrote w b (.recordMelt hash pr) (.ok ()))
    (hb : Wrote w b (.markPending [id] hash) (.ok ())) (hres : w.st.store.ReservedFor id' hash) :
    id' = id := by
  induction h with
  | start =>
    obtain ⟨_, _, hm⟩ := hrec
    cases hm
  | @step w w' e h hn ih =>
    rw [hn.hist] at halone
    have halone := fun e he => halone e (List.mem_cons_of_mem _ he)
    have hnow := h.step hn
    obtain ⟨i, pre, he⟩ := hrec
    rw [hn.hist] at he
    rcases List.mem_cons.1 he with rfl | he
    · -- the record follows its reservation, and before that no note was reserved for the hash
      obtain ⟨⟨-, -, ids, _, i', _, pre', rest, hh⟩, ho⟩ := Next.write_ok hn
      rw [← (Prod.mk.inj (Except.ok.inj ho)).2] at hres
      obtain ⟨w₁, h₁, hh₁, hn₁⟩ := h.last hh
      obtain ⟨w₀, -, -, hn₀⟩ := h₁.last hh₁
      have hids : Wrote w' b (.markPending ids hash) (.ok ()) := by
        refine ⟨i', pre', ?_⟩
        rw [hn.hist, hh]
        simp
      obtain rfl : ids = [id] := (Run.reserved_once hnow hids hb).1
      have hstore : w.st.store = w₁.st.store := by
        rcases Next.store hn₁ with ⟨-, he⟩ | ⟨_, _, _, _, ⟨⟩, -⟩ | ⟨⟨⟩, -⟩
        exact he
      have hall := halone (.did b (.write (.markPending [id] hash)) i' (.ok ()) pre') (by
        rw [hh]
        simp)
      obtain ⟨-, rfl, -⟩ := Next.write hn₀
      rw [reservesAlone, List.all_eq_true] at hall
      have hres : w₁.st.store.ReservedFor id' hash := hstore ▸ hres
      rcases (Update.notesStep (Update.swapsMeet_true _) (Next.write_ok hn₀).2).reservedFor hres
        with ⟨n, hn, hp⟩ | ⟨ids, hid, hu⟩
      · exact absurd hp (of_decide_eq_true (hall n (Table.mem_of_find? hn)))
      · injection hu with hu
        exact List.mem_singleton.1 (hu ▸ hid)
    · have hrec : Wrote w b (.recordMelt hash pr) (.ok ()) := ⟨i, pre, he⟩
      have hknown := Run.find?_melts_ne_none h hrec
      have hb : Wrote w b (.markPending [id] hash) (.ok ()) := by
        obtain ⟨i', pre', he'⟩ := hb
        rw [hn.hist] at he'
        rcases List.mem_cons.1 he' with rfl | he'
        · exact absurd (Next.write_ok hn).1.unrecorded hknown
        · exact ⟨i', pre', he'⟩
      refine ih halone hrec hb ?_
      rcases Next.store hn with ⟨-, he⟩ | ⟨_, u, _, r, rfl, hu, hr⟩ | ⟨-, he⟩
      · exact he ▸ hres
      · rcases Update.run_eq_some.1 hr with ⟨out, rfl, ho⟩ | ⟨_, rfl, -, -, he⟩
        · rcases (Update.notesStep u.swapsMeet_true ho).reservedFor hres with hres | ⟨_, -, rfl⟩
          · exact hres
          · exact absurd hu.unrecorded hknown
        · exact he ▸ hres
      · rw [he] at hres
        exact hres

end Requests

/-! ## Whom a payment burns -/

/-- Unless a round of reconciliation burns a note that is not reserved for the hash it asked about
any more. -/
def finalizesHeld (e before : Event (mint cfg)) : Bool :=
  match e, before with
  | .did ⟨_, .reconcilePendingMelts⟩ (.write (.finalizeMelt ids)) _ _ pre,
    .answered _ (.isPaymentComplete h) _ _ =>
    ids.all fun id => (pre.store.notes.find? id).all fun n =>
      n.spent || n.pendingPaymentHash = some h
  | _, _ => true

theorem finalizesHeld_iff {tid : ℕ} {ids : List Str} {i : Input} {r : Except Exn Unit}
    {pre pre' : State} {ans : Except Unit Bool} :
    finalizesHeld
        (.did ⟨tid, .reconcilePendingMelts⟩ (.write (.finalizeMelt ids)) i r pre : Event (mint cfg))
        (.answered a (.isPaymentComplete hash) ans pre') = true ↔
      ∀ id ∈ ids, ∀ n, pre.store.notes.find? id = some n → n.spent = false →
        n.pendingPaymentHash = some hash := by
  simp only [finalizesHeld, List.all_eq_true, Option.all_eq_true, Bool.or_eq_true,
    decide_eq_true_eq]
  refine forall₄_congr fun id _ n _ => ?_
  cases n.spent <;> simp

theorem Pays.follows (h : Pays w a hash id) (hf : Follows (law cfg) w w') : Pays w' a hash id := by
  obtain ⟨b, pr, inv, n, hs, hres, hrec, ht, hdec, hh, hn, hamount⟩ := h
  obtain ⟨n', hn', hamount', -⟩ := (Follows.evolves hf).note hn
  have hmem : ∀ e ∈ w.hist, e ∈ w'.hist := fun e he => hf.mem he
  exact ⟨b, pr, inv, n', hmem _ hs, hres.mono hmem, hrec.mono hmem, ht, hdec, hh, hn',
    hamount'.symm ▸ hamount⟩

/-- An answer leaves the state as it was. -/
theorem Run.answered_eq {s : State} (h : Run (law cfg) s w) {c : Call} {ans : c.Ans} {pre : State}
    {rest : List (Event (mint cfg))} (hh : w.hist = .answered a c ans pre :: rest) :
    pre = w.st := by
  obtain ⟨w₀, -, -, hstep, -, -⟩ := h.last hh
  cases hstep
  rfl

/-- A true answer that a payment was made names a payment that somebody tried to make. -/
theorem Run.asked_of_complete (h : Run (law cfg) State.initial w)
    (htruth : ∀ e ∈ w.hist, truthful e = true) {pre : State} {rest : List (Event (mint cfg))}
    (hh : w.hist = .answered a (.isPaymentComplete hash) (.ok true) pre :: rest) :
    ∃ a pr limit pre, .called a (.payInvoice pr limit) pre ∈ w.hist ∧
      invoiceHash d pr = some hash := by
  have htrue := htruth _ (hh ▸ List.mem_cons_self)
  have hpaid : pre.payments hash = .paid := of_decide_eq_true htrue
  obtain rfl := Run.answered_eq h hh
  exact Run.asked h rfl (by rw [hpaid]; exact PayStatus.noConfusion)

/-- A note that is burned for a payment is the one that was melted into its invoice. -/
theorem Run.burned (h : Run (law cfg) State.initial w)
    (htruth : ∀ e ∈ w.hist, truthful e = true) (halone : ∀ e ∈ w.hist, reservesAlone e = true)
    {e before : Event (mint cfg)} {es rest : List (Event (mint cfg))}
    (hh : w.hist = es ++ e :: before :: rest) (hheld : finalizesHeld e before = true)
    (hb : burns hash id e before = true) :
    ∃ a pr limit pre, Pays w a hash id ∧ .called a (.payInvoice pr limit) pre ∈ w.hist ∧
      invoiceHash d pr = some hash := by
  obtain ⟨a, ids, i, r, pre, n, rfl, hv, hid, hn, hs⟩ := burns_eq_true hb
  obtain ⟨w₀, w₁, h₀, hh₀, hnext, hf⟩ := h.cut hh
  have hf : Follows (law cfg) w₀ w := hnext.follows.trans hf
  have hmem : ∀ e ∈ w₀.hist, e ∈ w.hist := fun e he => hf.mem he
  obtain ⟨hu, rfl, -⟩ := Next.write hnext
  suffices hpays : ∃ a pr limit pre, Pays w₀ a hash id ∧
      .called a (.payInvoice pr limit) pre ∈ w₀.hist ∧ invoiceHash d pr = some hash by
    obtain ⟨a, pr, limit, pre, hpays, hc, hp⟩ := hpays
    exact ⟨a, pr, limit, pre, hpays.follows hf, hmem _ hc, hp⟩
  have hasked : ∀ {x h' pre' rest'},
      w₀.hist = .answered x (.isPaymentComplete h') (.ok true) pre' :: rest' → h' = hash ∧
      ∃ b id' pr limit pre, Pays w₀ b hash id' ∧
        .called b (.payInvoice pr limit) pre ∈ w₀.hist ∧ invoiceHash d pr = some hash := by
    intro x h' pre' rest' heq
    obtain ⟨rfl, -⟩ := List.cons.inj (hh₀.symm.trans heq)
    obtain rfl : h' = hash := by
      rw [verdict] at hv
      by_contra hne
      rw [if_neg hne] at hv
      cases hv
    obtain ⟨b, pr, limit, pre, hc, hp⟩ :=
      Run.asked_of_complete h₀ (fun e he => htruth e (hmem e he)) heq
    obtain ⟨id', hpays⟩ := Run.pays_of_called h₀ hc hp
    exact ⟨rfl, b, id', pr, limit, pre, hpays, hc, hp⟩
  rcases hu with ⟨pr, inv, ht, -, hanswer⟩ | ⟨ht, h', pre', rest', heq, -⟩
  · -- the payment task itself: its note is the one it was scheduled for
    obtain ⟨hash', id₁, rfl, hh', hp, hpays⟩ :=
      Run.pays h₀ (mem_alive (hnext.step.alive rfl)) ht
    obtain rfl := List.mem_singleton.1 hid
    rcases hanswer with ⟨limit, fee, pre', rest', heq⟩ | ⟨h', pre', rest', hh'', heq⟩
    · obtain ⟨rfl, -⟩ := List.cons.inj (hh₀.symm.trans heq)
      have hp' : invoiceHash d pr = some hash := by
        rw [verdict] at hv
        by_contra hne
        rw [if_neg hne] at hv
        cases hv
      obtain rfl := Option.some.inj (hp.symm.trans hp')
      obtain ⟨pre'', hc⟩ := h₀.called_of_answered (hh₀ ▸ List.mem_cons_self)
      exact ⟨a, pr, limit, pre'', hpays, hc, hp⟩
    · obtain ⟨rfl, b, id', pr', limit, pre, hpays', hc, hp'⟩ := hasked heq
      obtain rfl := Option.some.inj (hh'.symm.trans hh'')
      obtain rfl := Pays.note_eq h₀ hpays hpays'
      exact ⟨b, pr', limit, pre, hpays', hc, hp'⟩
  · -- a round of reconciliation: the note is still reserved for the hash
    obtain ⟨rfl, b, id', pr', limit, pre, hpays, hc, hp⟩ := hasked heq
    obtain ⟨tid, task⟩ := a
    obtain rfl : task = .reconcilePendingMelts := ht
    obtain ⟨rfl, -⟩ := List.cons.inj (hh₀.symm.trans heq)
    have hres := finalizesHeld_iff.1 hheld id hid n hn hs
    have hpays' := hpays
    obtain ⟨_, _, _, _, -, hmark, hrec, -⟩ := hpays'
    obtain rfl := Run.reserved_for h₀ (fun e he => halone e (hmem e he)) hrec hmark ⟨n, hn, hres⟩
    exact ⟨b, pr', limit, pre, hpays, hc, hp⟩

/-- **A payment burns the note that it was made for.** If the source answers truthfully, a note is
only reserved for a hash that no other note is reserved for, and a round of reconciliation only
burns notes that are still reserved for the hash it asked about, then all notes that are ever burned
for a payment, in whichever order and however often the process dies, are the one note of the one
task that made the payment, and the invoice was for the amount of this note. -/
theorem burned_for_own_payment {c : Config (mint cfg)} (h : Reach State.initial c)
    (htruth : ∀ e ∈ c.w.hist, truthful e = true)
    (halone : ∀ e ∈ c.w.hist, reservesAlone e = true)
    (hheld : ∀ e before, [e, before] <:+: c.w.hist → finalizesHeld e before = true)
    {e before : Event (mint cfg)} (he : [e, before] <:+: c.w.hist)
    (hb : burns hash id e before = true) :
    (∃ a pr limit pre, Pays c.w a hash id ∧ .called a (.payInvoice pr limit) pre ∈ c.w.hist ∧
      invoiceHash d pr = some hash ∧
      ∀ b pr' limit' pre', .called b (.payInvoice pr' limit') pre' ∈ c.w.hist →
        invoiceHash d pr' = some hash → b = a) ∧
    ∀ id' e' before', [e', before'] <:+: c.w.hist → burns hash id' e' before' = true →
      id' = id := by
  have hr : Run (law cfg) State.initial c.w := Reach.law h
  have hburned : ∀ {id e before}, [e, before] <:+: c.w.hist → burns hash id e before = true →
      ∃ a pr limit pre, Pays c.w a hash id ∧ .called a (.payInvoice pr limit) pre ∈ c.w.hist ∧
        invoiceHash d pr = some hash := by
    intro id e before he hb
    have hheld := hheld e before he
    obtain ⟨es, rest, hh⟩ := he
    have hh : c.w.hist = es ++ e :: before :: rest := by
      rw [← hh]
      simp
    exact Run.burned hr htruth halone hh hheld hb
  obtain ⟨a, pr, limit, pre, hpays, hc, hp⟩ := hburned he hb
  refine ⟨⟨a, pr, limit, pre, hpays, hc, hp, fun b pr' limit' pre' hc' hp' =>
    Run.payer_eq hr hc' hp' hc hp⟩, fun id' e' before' he' hb' => ?_⟩
  obtain ⟨b, _, _, _, hpays', -⟩ := hburned he' hb'
  exact Pays.note_eq hr hpays' hpays

/-- A note is minted and melted, its payment is made, and the task that made it burns the note. -/
def paidMeltRun : List (Choice standInMint) :=
  standInMints 0 "h".toList (standInKey '1') ++ standInMelts 5 (standInKey '1') "p".toList ++
    [.wake 20] ++ standInGoes 1 1 ++ [.stir (.depart "p".toList), .stir (.land "p".toList),
      .stir (.pay "p".toList), .answer 20 (standInAnswer [] true)] ++ standInGoes 1 1

theorem burned_for_own_payment_paid : ∃ c : Config standInMint, Reach State.initial c ∧
    ∃ a, Pays c.w a "p".toList (standInKey '1') := by
  have hrun : (standInRun paidMeltRun).any (fun c => c.w.hist.all truthful &&
      c.w.hist.all reservesAlone &&
      ((c.w.hist.zip c.w.hist.tail).all fun x => finalizesHeld x.1 x.2) &&
      (c.w.hist.zip c.w.hist.tail).any fun x => burns "p".toList (standInKey '1') x.1 x.2) =
        true := by
    decide +kernel
  obtain ⟨c, hc, h⟩ := exists_standInRun hrun
  simp only [Bool.and_eq_true, List.all_eq_true, List.any_eq_true] at h
  obtain ⟨⟨⟨htruth, halone⟩, hheld⟩, ⟨e, before⟩, he, hb⟩ := h
  obtain ⟨⟨a, _, _, _, hpays, -⟩, -⟩ := burned_for_own_payment hc htruth halone
    (fun e before he => hheld (e, before) (mem_zip_tail.2 he)) (mem_zip_tail.1 he) hb
  exact ⟨c, hc, a, hpays⟩

/-- A melt dies after it has reserved its note. Another note is melted into the same invoice and
paid for, and a round of reconciliation follows. -/
def abandonedRun : List (Choice standInMint) :=
  standInMints 0 "h".toList (standInKey '1') ++
    standInAsks 5 (.getWithdrawCallback [standInKey '1'] (some "lnp".toList) none none none) ++
    standInGoes 3 1 ++ [.answer 5 (standInAnswer [] true)] ++ standInGoes 8 1 ++ [.crash] ++
    standInMints 19 "g".toList (standInKey '2') ++ standInMelts 24 (standInKey '2') "p".toList ++
    [.wake 39] ++ standInGoes 1 1 ++ [.stir (.depart "p".toList), .stir (.land "p".toList),
      .stir (.pay "p".toList), .answer 39 (standInAnswer [] true)] ++ standInGoes 4 1 ++
    [.arrive .reconcilePendingMelts, .wake 50] ++ standInGoes 3 1 ++
    [.answer 50 (standInAnswer [] true)] ++ standInGoes 1 1

/-- **One payment can burn two notes.** -/
theorem burned_for_other_payment : ∃ c : Config standInMint, Reach State.initial c ∧
    (∀ e ∈ c.w.hist, truthful e = true) ∧ c.w.hist.countP (attempts "p".toList) = 1 ∧
    ∃ id id' e e' before before', id ≠ id' ∧
      [e, before] <:+: c.w.hist ∧ burns "p".toList id e before = true ∧
      [e', before'] <:+: c.w.hist ∧ burns "p".toList id' e' before' = true := by
  have hrun : (standInRun abandonedRun).any (fun c => c.w.hist.all truthful &&
      decide (c.w.hist.countP (attempts "p".toList) = 1) &&
      ((c.w.hist.zip c.w.hist.tail).any fun x => burns "p".toList (standInKey '1') x.1 x.2) &&
      (c.w.hist.zip c.w.hist.tail).any fun x => burns "p".toList (standInKey '2') x.1 x.2) =
        true := by
    decide +kernel
  obtain ⟨c, hc, h⟩ := exists_standInRun hrun
  simp only [Bool.and_eq_true, List.all_eq_true, List.any_eq_true, decide_eq_true_eq] at h
  obtain ⟨⟨⟨htruth, hone⟩, ⟨e, before⟩, he, hb⟩, ⟨e', before'⟩, he', hb'⟩ := h
  exact ⟨c, hc, htruth, hone, standInKey '1', standInKey '2', e, e', before, before', by decide,
    mem_zip_tail.1 he, hb, mem_zip_tail.1 he', hb'⟩

end Payments

end LnurlMint
