import LnurlMint.Polling
import LnurlMint.Reservations

/-!
# What a restart leaves pending is resolved

A note is left pending when the outcome of its melt could not be established, and when the process
dies while it is being paid. Nobody else resolves it: a round of reconciliation does, from the
notes' own payment hashes, because the registry of live attempts dies with the process.

A round works through a list that it reads once. Run alone, it comes to one pure function of each
note: a note that no live attempt holds is burned if the funding source says that its payment
completed, given back if it says that it did not, and left as it was if it says nothing. So one
definitive round, run alone after a restart, leaves nothing pending, from whatever state the process
died in.

## Main definitions

* `confirmed` — what the funding source says of a payment
* `NoteRow.reconciled`, `MeltRow.reconciled` — what a round makes of a row

## Main results

* `reconcile_resolves` — a round does that to every row, and nothing else
* `recovered` — from every reachable state
-/

namespace LnurlMint

open Interleave Relational

/-! ## Groups of notes -/

/-- A fold has a property if it started with it, or if an element gave it the property. -/
theorem foldl_iff {α β : Type*} {P : β → Prop} {Q : α → Prop} {step : β → α → β}
    (h : ∀ b a, P (step b a) ↔ P b ∨ Q a) (l : List α) {b : β} :
    P (l.foldl step b) ↔ P b ∨ ∃ a ∈ l, Q a := by
  induction l generalizing b with
  | nil => simp
  | cons a l ih => rw [List.foldl_cons, ih, h, List.exists_mem_cons_iff, or_assoc]

namespace NoteStore

variable {s : NoteStore} {h id : Str} {n : NoteRow}

/-- The note is in the group of this hash. -/
def Grouped (grouped : List (Str × List Str)) (h id : Str) : Prop :=
  ∃ ids, (h, ids) ∈ grouped ∧ id ∈ ids

theorem grouped_appendTo {key i : Str} {grouped : List (Str × List Str)} :
    Grouped (appendTo key i grouped) h id ↔ Grouped grouped h id ∨ (h = key ∧ id = i) := by
  induction grouped with
  | nil =>
    simp only [Grouped, appendTo, List.mem_singleton, Prod.mk.injEq, List.not_mem_nil, false_and,
      exists_false, false_or]
    constructor
    · rintro ⟨ids, ⟨rfl, rfl⟩, hid⟩
      exact ⟨rfl, List.mem_singleton.1 hid⟩
    · rintro ⟨rfl, rfl⟩
      exact ⟨_, ⟨rfl, rfl⟩, List.mem_singleton_self _⟩
  | cons g grouped ih =>
    obtain ⟨k, ids⟩ := g
    have hcons : ∀ (l : List (Str × List Str)) (k' : Str) (ids' : List Str),
        Grouped ((k', ids') :: l) h id ↔ (h = k' ∧ id ∈ ids') ∨ Grouped l h id := by
      intro l k' ids'
      simp only [Grouped, List.mem_cons, Prod.mk.injEq]
      constructor
      · rintro ⟨ids, ⟨rfl, rfl⟩ | hm, hid⟩
        exacts [.inl ⟨rfl, hid⟩, .inr ⟨ids, hm, hid⟩]
      · rintro (⟨rfl, hid⟩ | ⟨ids, hm, hid⟩)
        exacts [⟨_, .inl ⟨rfl, rfl⟩, hid⟩, ⟨ids, .inr hm, hid⟩]
    rw [appendTo]
    split
    · next hk =>
      subst hk
      rw [hcons, hcons, List.mem_append, List.mem_singleton]
      tauto
    · rw [hcons, hcons, ih]
      tauto

/-- What `pending_melts` selects a note for. -/
def Awaits (n : NoteRow) (h : Str) : Prop :=
  n.pending = true ∧ n.spent = false ∧ n.pendingPaymentHash = some h

/-- **A note is grouped under the hash that it awaits.** -/
theorem grouped_pendingMelts :
    Grouped s.pendingMelts h id ↔ ∃ n, s.notes.find? id = some n ∧ Awaits n h := by
  have fold : Grouped s.pendingMelts h id ↔
      Grouped [] h id ∨ ∃ n ∈ s.notes.rows, Awaits n h ∧ n.id = id := by
    refine foldl_iff (P := fun grouped => Grouped grouped h id) (fun grouped n => ?_) s.notes.rows
    rw [Awaits]
    split
    · next hp =>
      obtain ⟨hpend, hspent⟩ := (Bool.and_eq_true _ _).mp hp
      split
      · next hash hhash =>
        rw [grouped_appendTo]
        simp only [hhash, hpend, Bool.not_eq_true' _ ▸ hspent, true_and, Option.some.injEq]
        exact or_congr_right (and_congr eq_comm eq_comm)
      · next hhash => simp [hhash]
    · next hp =>
      have : ¬ (n.pending = true ∧ n.spent = false) := by simpa using hp
      tauto
  refine fold.trans ?_
  simp only [Grouped, List.not_mem_nil, false_and, exists_false, false_or]
  constructor
  · rintro ⟨n, hn, ha, rfl⟩
    exact ⟨n, Table.find?_of_mem hn, ha⟩
  · rintro ⟨n, hn, ha⟩
    exact ⟨n, Table.mem_of_find? hn, ha, Table.key_of_find? hn⟩

end NoteStore

/-! ## What a round makes of a row -/

/-- What the outcome of its payment makes of a note. -/
def NoteRow.resolve (n : NoteRow) : Option Bool → NoteRow
  | some true => { n with spent := true, pending := false, pendingPaymentHash := none }
  | some false => { n with pending := false, pendingPaymentHash := none }
  | none => n

theorem NoteRow.resolve_resolve (n : NoteRow) (completed : Option Bool) :
    (n.resolve completed).resolve completed = n.resolve completed := by
  rcases completed with _ | _ | _ <;> rfl

/-- What the outcomes of the payments make of a note. -/
def NoteRow.reconciled (outcome : Str → Option Bool) (n : NoteRow) : NoteRow :=
  if n.pending = true ∧ n.spent = false then n.resolve (n.pendingPaymentHash.bind outcome) else n

/-- A note whose payment has an outcome is not pending any more. -/
theorem NoteRow.Coherent.reconciled {outcome : Str → Option Bool} {n : NoteRow} (h : n.Coherent)
    (hall : ∀ hash, outcome hash ≠ none) : (n.reconciled outcome).pending = false := by
  rw [NoteRow.reconciled]
  cases hp : n.pending with
  | false => simp [hp]
  | true =>
    have hspent : n.spent = false := by
      cases hs : n.spent with
      | false => rfl
      | true => cases (h.exclusive hs).symm.trans hp
    obtain ⟨hash, hhash⟩ := Option.isSome_iff_exists.1 (h.reserved.symm.trans hp)
    rw [if_pos ⟨rfl, hspent⟩, hhash, Option.bind_some]
    rcases ho : outcome hash with _ | _ | _
    exacts [absurd ho (hall hash), rfl, rfl]

namespace NoteStore

variable {s : NoteStore} {h id : Str} {n : NoteRow} {outcome : Str → Option Bool}
  {group : Str × List Str} {groups : List (Str × List Str)}

/-- What a round does for one group. -/
def reconcileGroup (outcome : Str → Option Bool) (s : NoteStore) (group : Str × List Str) :
    NoteStore :=
  match outcome group.1 with
  | some true => (s.finalizeMelt group.2).markMeltSettled group.1
  | some false => s.restore group.2
  | none => s

theorem find?_reconcileGroup : (reconcileGroup outcome s group).notes.find? id =
    (s.notes.find? id).map fun n => if id ∈ group.2 then n.resolve (outcome group.1) else n := by
  unfold reconcileGroup
  split
  · next hout => rw [hout]; exact find?_finalizeMelt ..
  · next hout => rw [hout]; exact find?_restore ..
  · next hout => simp [hout, NoteRow.resolve]

theorem meltSettled_reconcileGroup : (reconcileGroup outcome s group).meltSettled h = true ↔
    s.meltSettled h = true ∨
      ((s.melts.find? h).isSome = true ∧ group.1 = h ∧ outcome h = some true) := by
  unfold reconcileGroup
  split
  · next hout =>
    rw [meltSettled, markMeltSettled, Table.find?_modify]
    show ((s.melts.find? h).map _).any _ = true ↔ (s.melts.find? h).any _ = true ∨ _
    cases s.melts.find? h with
    | none => simp
    | some m =>
      by_cases he : h = group.1
      · subst he
        simp [hout]
      · simp [he, Ne.symm he]
  · next hout =>
    have hne : ¬ (group.1 = h ∧ outcome h = some true) := by
      rintro ⟨rfl, ht⟩
      rw [hout] at ht
      cases ht
    simp only [hne, and_false, or_false]
    rfl
  · next hout =>
    have hne : ¬ (group.1 = h ∧ outcome h = some true) := by
      rintro ⟨rfl, ht⟩
      rw [hout] at ht
      cases ht
    simp only [hne, and_false, or_false]

theorem meltPr_reconcileGroup : (reconcileGroup outcome s group).meltPr h = s.meltPr h := by
  unfold reconcileGroup
  split
  · rw [meltPr, markMeltSettled, Table.find?_modify]
    show ((s.melts.find? h).map _).map _ = (s.melts.find? h).map _
    cases s.melts.find? h with
    | none => rfl
    | some m => exact congrArg some (apply_ite MeltRow.pr ..|>.trans (ite_self _))
  · rfl
  · rfl

theorem isSome_melts : (s.melts.find? h).isSome = (s.meltPr h).isSome :=
  Option.isSome_map.symm

variable (s outcome group) in
/-- It touches only notes and the records of melts. -/
theorem reconcileGroup_frame : ∃ notes melts,
    reconcileGroup outcome s group = { s with notes, melts } := by
  unfold reconcileGroup
  split
  exacts [⟨_, _, rfl⟩, ⟨_, _, rfl⟩, ⟨_, _, rfl⟩]

/-- What a round does for all of them. -/
def reconcileGroups (outcome : Str → Option Bool) (s : NoteStore)
    (groups : List (Str × List Str)) : NoteStore :=
  groups.foldl (reconcileGroup outcome) s

/-- If a note is in groups of one hash only, it is resolved by the outcome of that payment. -/
theorem find?_reconcileGroups (hone : ∀ g ∈ groups, id ∈ g.2 → g.1 = h) :
    (s.reconcileGroups outcome groups).notes.find? id = (s.notes.find? id).map fun n =>
      if ∃ g ∈ groups, id ∈ g.2 then n.resolve (outcome h) else n := by
  induction groups generalizing s with
  | nil => simp [reconcileGroups]
  | cons g groups ih =>
    rw [List.forall_mem_cons] at hone
    show ((reconcileGroup outcome s g).reconcileGroups outcome groups).notes.find? id = _
    rw [ih hone.2, find?_reconcileGroup, Option.map_map]
    refine congrFun (congrArg Option.map (funext fun n => ?_)) _
    simp only [Function.comp, List.exists_mem_cons_iff]
    by_cases hg : id ∈ g.2
    · obtain rfl := hone.1 hg
      simp [hg, NoteRow.resolve_resolve]
    · rw [if_neg hg]
      exact if_congr (by simp [hg]) rfl rfl

theorem meltPr_reconcileGroups : (s.reconcileGroups outcome groups).meltPr h = s.meltPr h := by
  induction groups generalizing s with
  | nil => rfl
  | cons g groups ih => exact ih.trans meltPr_reconcileGroup

theorem meltSettled_reconcileGroups : (s.reconcileGroups outcome groups).meltSettled h = true ↔
    s.meltSettled h = true ∨ ((s.meltPr h).isSome = true ∧ (∃ g ∈ groups, g.1 = h) ∧
      outcome h = some true) := by
  induction groups generalizing s with
  | nil => simp [reconcileGroups]
  | cons g groups ih =>
    refine ih.trans ?_
    rw [meltSettled_reconcileGroup, meltPr_reconcileGroup, isSome_melts, List.exists_mem_cons_iff]
    tauto

variable (s outcome groups) in
theorem reconcileGroups_frame : ∃ notes melts,
    s.reconcileGroups outcome groups = { s with notes, melts } := by
  induction groups generalizing s with
  | nil => exact ⟨s.notes, s.melts, rfl⟩
  | cons g groups ih =>
    obtain ⟨notes, melts, he⟩ := reconcileGroup_frame s outcome g
    obtain ⟨notes', melts', he'⟩ := ih (reconcileGroup outcome s g)
    exact ⟨notes', melts', he'.trans (by rw [he])⟩

/-- **A round does to every note what the outcome of its payment says.** -/
theorem find?_reconcilePending (outcome : Str → Option Bool) (s : NoteStore) (id : Str) :
    (s.reconcileGroups outcome s.pendingMelts).notes.find? id =
      (s.notes.find? id).map (NoteRow.reconciled outcome) := by
  cases hn : s.notes.find? id with
  | none =>
    rw [find?_reconcileGroups (h := id), hn, Option.map_none, Option.map_none]
    intro g hg hid
    obtain ⟨n, hn', -⟩ := grouped_pendingMelts.1 ⟨g.2, hg, hid⟩
    rw [hn] at hn'
    cases hn'
  | some n =>
    have hawaits : ∀ g ∈ s.pendingMelts, id ∈ g.2 → Awaits n g.1 := by
      intro g hg hid
      obtain ⟨n', hn', ha⟩ := grouped_pendingMelts.1 ⟨g.2, hg, hid⟩
      rw [hn] at hn'
      cases hn'
      exact ha
    have hone : ∀ g ∈ s.pendingMelts, id ∈ g.2 → g.1 = n.pendingPaymentHash.getD [] :=
      fun g hg hid => by rw [(hawaits g hg hid).2.2]; rfl
    rw [find?_reconcileGroups hone, hn, Option.map_some, Option.map_some, NoteRow.reconciled]
    by_cases hp : n.pending = true ∧ n.spent = false
    · rw [if_pos hp]
      cases hhash : n.pendingPaymentHash with
      | none =>
        rw [if_neg]
        · rfl
        · rintro ⟨g, hg, hid⟩
          have := (hawaits g hg hid).2.2
          rw [hhash] at this
          cases this
      | some hash =>
        obtain ⟨ids, hg, hid⟩ := grouped_pendingMelts.2 ⟨n, hn, hp.1, hp.2, hhash⟩
        rw [if_pos ⟨_, hg, hid⟩]
        rfl
    · rw [if_neg hp, if_neg]
      rintro ⟨g, hg, hid⟩
      have ha := hawaits g hg hid
      exact hp ⟨ha.1, ha.2.1⟩

/-- The melts that a round marks settled. -/
theorem meltSettled_reconcilePending (outcome : Str → Option Bool) (s : NoteStore) (h : Str) :
    (s.reconcileGroups outcome s.pendingMelts).meltSettled h = true ↔ s.meltSettled h = true ∨
      ((s.meltPr h).isSome = true ∧ (∃ id n, s.notes.find? id = some n ∧ Awaits n h) ∧
        outcome h = some true) := by
  rw [meltSettled_reconcileGroups]
  refine or_congr_right (and_congr_right fun _ => and_congr_left fun _ => ?_)
  constructor
  · rintro ⟨⟨h', ids⟩, hg, rfl⟩
    obtain ⟨id, hid⟩ := List.exists_mem_of_ne_nil ids (mem_pendingMelts hg).1
    exact ⟨id, grouped_pendingMelts.1 ⟨ids, hg, hid⟩⟩
  · rintro ⟨id, hn⟩
    obtain ⟨ids, hg, -⟩ := grouped_pendingMelts.2 hn
    exact ⟨_, hg, rfl⟩

end NoteStore

/-! ## A round alone -/

section Round

variable {d : Deps} {cfg : Settings d} (env : Surroundings (mint cfg))

/-- What the funding source says of a payment. -/
def confirmed (h : Str) : Option Bool :=
  match env.answers (.isPaymentComplete h) with
  | .ok completed => some completed
  | .error () => none

/-- What a round hears of a payment: nothing, if a live attempt holds it. -/
def outcomeAt (s : State) (h : Str) : Option Bool :=
  if s.inFlight h = 0 then confirmed env h else none

variable {env} {m : Moment (mint cfg)}

theorem alone_safely {p : Mint Unit} {m' : Moment (mint cfg)} {r : Except Exn Unit}
    (h : p.alone env m = (m', some r)) :
    (safely p).alone env m = (m', some (.ok .nothing)) := by
  rw [safely, Prog.alone_thenE, h]
  rfl

theorem alone_confirmOnce (h : Str) :
    (confirmPayment h []).alone env m = (m, some (.ok (confirmed env h))) := by
  show Prog.alone env ((answer (env.answers (.isPaymentComplete h))).attempt >>= _) m = _
  rw [confirmed]
  cases env.answers (.isPaymentComplete h) <;> rfl

theorem alone_reconcileAll (groups : List (Str × List Str)) : ∀ m : Moment (mint cfg), ∃ ops,
    (reconcileAll groups).alone env m = (⟨ops, { m.st with
      store := m.st.store.reconcileGroups (outcomeAt env m.st) groups }⟩, some (.ok ())) := by
  induction groups with
  | nil => exact fun m => ⟨m.ops, rfl⟩
  | cons g groups ih =>
    intro m
    have hstore : m.st.store.reconcileGroups (outcomeAt env m.st) (g :: groups) =
        (NoteStore.reconcileGroup (outcomeAt env m.st) m.st.store g).reconcileGroups
          (outcomeAt env m.st) groups := rfl
    rw [hstore, NoteStore.reconcileGroup, reconcileAll, Prog.alone_bind]
    show ∃ ops, Prog.alone env (if decide (m.st.inFlight g.1 ≠ 0) = true then _ else _) _ = _
    by_cases hf : m.st.inFlight g.1 = 0
    · have hout : outcomeAt env m.st g.1 = confirmed env g.1 := if_pos hf
      rw [if_neg (by simpa using hf), Prog.alone_bind, alone_confirmOnce, hout]
      rcases confirmed env g.1 with _ | _ | _
      · exact ih ⟨m.ops + 1, m.st⟩
      · exact ih ⟨m.ops + 2, { m.st with store := m.st.store.restore g.2 }⟩
      · exact ih ⟨m.ops + 3, { m.st with
          store := (m.st.store.finalizeMelt g.2).markMeltSettled g.1 }⟩
    · have hout : outcomeAt env m.st g.1 = none := if_neg hf
      rw [if_pos (by simpa using hf), hout]
      exact ih ⟨m.ops + 1, m.st⟩

theorem alone_reconcilePendingMelts (env : Surroundings (mint cfg)) (m : Moment (mint cfg)) :
    ∃ ops, reconcilePendingMelts.alone env m = (⟨ops, { m.st with
      store := m.st.store.reconcileGroups (outcomeAt env m.st) m.st.store.pendingMelts }⟩,
      some (.ok ())) :=
  alone_reconcileAll m.st.store.pendingMelts ⟨m.ops + 1, m.st⟩

/-- **A round resolves what is pending.** Whatever the store holds, whatever the funding source
answers and whatever is in flight, a round run alone ends well. It burns the notes whose payment
completed, gives back those whose payment did not, and leaves the others, and those that a live
attempt holds, as they are. It marks the melts that completed as settled, and touches nothing
else. -/
theorem reconcile_resolves (env : Surroundings (mint cfg)) (m : Moment (mint cfg)) :
    ∃ m' : Moment (mint cfg), reconcilePendingMelts.alone env m = (m', some (.ok ())) ∧
      (∀ id, m'.st.store.notes.find? id =
        (m.st.store.notes.find? id).map (NoteRow.reconciled (outcomeAt env m.st))) ∧
      (∀ h, m'.st.store.meltSettled h = true ↔ m.st.store.meltSettled h = true ∨
        ((m.st.store.meltPr h).isSome = true ∧
          (∃ id n, m.st.store.notes.find? id = some n ∧ NoteStore.Awaits n h) ∧
          outcomeAt env m.st h = some true)) ∧
      (∀ h, m'.st.store.meltPr h = m.st.store.meltPr h) ∧
      ∃ notes melts, m'.st = { m.st with store := { m.st.store with notes, melts } } := by
  obtain ⟨ops, hrun⟩ := alone_reconcilePendingMelts env m
  refine ⟨_, hrun, NoteStore.find?_reconcilePending _ _,
    NoteStore.meltSettled_reconcilePending _ _, fun h => NoteStore.meltPr_reconcileGroups, ?_⟩
  obtain ⟨notes, melts, he⟩ := NoteStore.reconcileGroups_frame m.st.store (outcomeAt env m.st)
    m.st.store.pendingMelts
  exact ⟨notes, melts, congrArg (fun store => { m.st with store }) he⟩

/-- **Every reachable state can be recovered.** From whatever state a run comes to, let the process
die and one round of reconciliation be run alone. The round ends, and every note is then what the
funding source's answers make of it; and if it answers about every payment, no note is pending any
more. -/
theorem recovered {c : Config (mint cfg)} (h : Reach State.initial c)
    (env : Surroundings (mint cfg)) :
    ∃ c', c.play (Prog.restarted (mint cfg) env .reconcilePendingMelts c.w) = some c' ∧
      (∃ before, c'.w.hist = .finished ⟨c.w.hist.length + 1, .reconcilePendingMelts⟩
        (.ok .nothing) c'.w.st :: before) ∧
      (∀ id, c'.w.st.store.notes.find? id =
        (c.w.st.store.notes.find? id).map (NoteRow.reconciled (confirmed env))) ∧
      ((∀ h, confirmed env h ≠ none) →
        ∀ id n, c'.w.st.store.notes.find? id = some n → n.pending = false) := by
  obtain ⟨c', hplay, hst, hfinished⟩ := Prog.solo_restarted (M := mint cfg) env
    (t := Task.reconcilePendingMelts) rfl c
  obtain ⟨ops, hrun⟩ := alone_reconcilePendingMelts env ⟨0, restart c.w.st⟩
  have hround := alone_safely hrun
  have hout : outcomeAt env (restart c.w.st) = confirmed env := funext fun _ => if_pos rfl
  have hend : c'.w.st.store = (c.w.st.store.reopen).reconcileGroups (confirmed env)
      (c.w.st.store.reopen).pendingMelts := by
    rw [hst]
    show ((safely reconcilePendingMelts).alone env
      ⟨0, restart c.w.st⟩ : Moment (mint cfg) × _).1.st.store = _
    rw [hround, ← hout]
    rfl
  have hnotes : ∀ id, c'.w.st.store.notes.find? id =
      (c.w.st.store.notes.find? id).map (NoteRow.reconciled (confirmed env)) := fun id => by
    rw [hend]
    exact NoteStore.find?_reconcilePending _ _ id
  refine ⟨c', hplay, hfinished _ (congrArg Prod.snd hround), hnotes, fun hall id n hn => ?_⟩
  obtain ⟨n₀, hn₀, rfl⟩ := Option.map_eq_some_iff.1 ((hnotes id).symm.trans hn)
  have hcoherent := (Run.lifecycle (Reach.law h) .empty).coherent hn₀
  exact hcoherent.reconciled hall

/-- A note is minted and melted; its payment is begun. -/
def abandonedMeltRun : List (Choice standInMint) :=
  standInMints 0 "h".toList (standInKey '1') ++ standInMelts 5 (standInKey '1') "p".toList ++
    [.wake 20] ++ standInGoes 1 1

/-- The mint dies while it waits for that payment. The payment completed, so one round burns the
note. -/
theorem recovered_paid : ∃ c : Config standInMint, Reach State.initial c ∧
    ∃ c', c.play (Prog.restarted standInMint standInPaid .reconcilePendingMelts c.w) = some c' ∧
      ∃ n n', c.w.st.store.notes.find? (standInKey '1') = some n ∧ n.pending = true ∧
      c'.w.st.store.notes.find? (standInKey '1') = some n' ∧ n'.pending = false ∧
        n'.spent = true := by
  have hrun : (standInRun abandonedMeltRun).any (fun c =>
      (c.w.st.store.notes.find? (standInKey '1')).any fun n => n.pending &&
        (n.reconciled (confirmed standInPaid)).spent) = true := by
    decide +kernel
  obtain ⟨c, hc, hp⟩ := exists_standInRun hrun
  obtain ⟨n, hn, hp⟩ := (Option.any_eq_true _ _).1 hp
  obtain ⟨hpend, hspent⟩ := (Bool.and_eq_true _ _).mp hp
  obtain ⟨c', hplay, -, hnotes, hall⟩ := recovered hc standInPaid
  have hn' := hnotes (standInKey '1')
  rw [hn, Option.map_some] at hn'
  exact ⟨c, hc, c', hplay, n, _, hn, hpend, hn', hall (by simp [confirmed, standInPaid,
    standInAnswer]) _ _ hn', hspent⟩

end Round

end LnurlMint
