import LnurlMint.Lib.Machine
import Mathlib.Data.List.Nodup

/-!
# Obligations of one program, and what they say of all runs

A `Law` says when an actor may do what it does: an operation, a call, a spawn, ending as it does.
It may speak of the world at that moment, history included, but of no program. `wp` is what has to
be shown of one program, by itself, so that it keeps the law whatever the others do while it waits;
`Reach.run` puts the programs together. After that a property of every run is proved from the law
alone, one event at a time, and no program is unfolded again.

What the others do while `a` waits is `Others a`: any events at all that are neither `a`'s own nor
the death of the process, which would end `a` as well. A fact survives a wait if it survives these.
Two kinds do so for free: what `a` itself did, and what the state never takes back.

## Main definitions

* `Law`, `Law.holds` — what actors must keep
* `Next`, `Run` — histories in which every actor keeps it
* `Others` — what happens during a wait
* `wp` — the obligations of a program

## Main results

* `wp_thenE`, `wp_attempt`, … — the rules, one for each idiom of `Prog`
* `Others.rel` — what the state never takes back survives a wait
* `Reach.run` — a machine whose bodies meet their obligations keeps the law in every configuration
-/

namespace Interleave

variable {S : Sig} {M : Machine S}

/-- What actors must keep, act by act. -/
structure Law (M : Machine S) where
  /-- Doing an operation, with this result. -/
  did : World M → Actor S → (o : S.Op) → M.Input → S.Out o → Prop
  /-- Making a call. -/
  called : World M → Actor S → S.Call → Prop
  /-- Spawning a task. -/
  spawned : World M → Actor S → S.Task → Prop
  /-- Being done, with this outcome. -/
  finished : World M → Actor S → Except M.Err M.Res → Prop

/-- An event keeps the law. What no actor does is free. -/
def Law.holds (L : Law M) (w : World M) : Event M → Prop
  | .did a o i out _ => L.did w a o i out
  | .called a c _ => L.called w a c
  | .spawned a b => L.spawned w a b.task
  | .finished a r _ => L.finished w a r
  | _ => True

/-- A lawful event, in turn: a program that has begun to act is only interrupted by the death of the
process. -/
structure Next (L : Law M) (w : World M) (e : Event M) (w' : World M) : Prop where
  step : w.Step e w'
  lawful : L.holds w e
  turn : ∀ tid, acting w.hist = some tid → e.by? = some tid ∨ e.crash? = true

/-- The worlds that lawful events lead to from state `s`. -/
inductive Run (L : Law M) (s : M.State) : World M → Prop
  | start : Run L s ⟨s, []⟩
  | step {w w' : World M} {e : Event M} (h : Run L s w) (hn : Next L w e w') : Run L s w'

/-- What may happen while program `tid` waits. -/
inductive Others (tid : ℕ) : World M → World M → Prop
  | refl (w : World M) : Others tid w w
  | step {w w' w'' : World M} {e : Event M} (h : Others tid w w') (hs : w'.Step e w'')
      (hb : e.by? ≠ some tid) (hc : e.crash? = false) : Others tid w w''

namespace Others

variable {tid : ℕ} {w w' w'' : World M}

theorem single {e : Event M} (hs : w.Step e w') (hb : e.by? ≠ some tid)
    (hc : e.crash? = false) : Others tid w w' :=
  .step (.refl w) hs hb hc

theorem trans (h : Others tid w w') (h' : Others tid w' w'') : Others tid w w'' := by
  induction h' with
  | refl => exact h
  | step _ hs hb hc ih => exact ih.step hs hb hc

/-- A wait only adds to the history, and adds nothing of the waiting program's own. -/
theorem hist (h : Others tid w w') :
    ∃ es, w'.hist = es ++ w.hist ∧ ∀ e ∈ es, e.by? ≠ some tid := by
  induction h with
  | refl => exact ⟨[], rfl, by simp⟩
  | @step _ _ e _ hs hb _ ih =>
    obtain ⟨es, he, hes⟩ := ih
    refine ⟨e :: es, by rw [hs.hist, he]; rfl, ?_⟩
    rintro e' (_ | ⟨_, he'⟩)
    exacts [hb, hes e' he']

theorem mem {e : Event M} (h : Others tid w w') (he : e ∈ w.hist) : e ∈ w'.hist := by
  obtain ⟨es, heq, -⟩ := h.hist
  rw [heq]
  exact List.mem_append_right es he

/-- The waiting program's own events are those it had before. -/
theorem own {e : Event M} (h : Others tid w w') (he : e ∈ w'.hist) (hb : e.by? = some tid) :
    e ∈ w.hist := by
  obtain ⟨es, heq, hes⟩ := h.hist
  rw [heq] at he
  exact (List.mem_append.1 he).resolve_left fun he' => hes e he' hb

/-- A relation that no operation and no move of the outside world takes back holds across every
wait. -/
theorem rel {R : M.State → M.State → Prop} (hrefl : ∀ s, R s s)
    (htrans : ∀ {s₁ s₂ s₃}, R s₁ s₂ → R s₂ s₃ → R s₁ s₃)
    (hexec : ∀ {o i s out s'}, M.exec o i s = some (out, s') → R s s')
    (hstir : ∀ {m cs s s'}, M.stir m cs s = some s' → R s s') (h : Others tid w w') :
    R w.st w'.st := by
  induction h with
  | refl => exact hrefl _
  | step _ hs _ hc ih =>
    cases hs with
    | did _ hs => exact htrans ih (hexec hs)
    | stirred hs => exact htrans ih (hstir hs)
    | crashed => cases hc
    | _ => exact ih

end Others

/-! ## Obligations -/

section Wp

variable (L : Law M) (a : Actor S)

/-- What is to be shown of `p`, run by `a` from world `w`, for it to keep the law and to end only
in outcomes and worlds that satisfy `Q`. -/
def wp {ε α : Type} : Prog S ε α → (Except ε α → World M → Prop) → World M → Prop
  | .done r, Q, w => Q r w
  | .op o k, Q, w => ∀ i out s, M.exec o i w.st = some (out, s) →
      L.did w a o i out ∧ wp (k out) Q (w.record (.did a o i out w.st) s)
  | .call c k, Q, w => L.called w a c ∧
      ∀ w', Others a.tid (w.record (.called a c w.st) w.st) w' → ∀ ans,
        wp (k ans) Q (w'.record (.answered a c ans w'.st) w'.st)
  | .spawn t k, Q, w => L.spawned w a t ∧
      wp k Q (w.record (.spawned a ⟨w.hist.length, t⟩) w.st)

variable {L a} {ε ε' α β : Type} {Q Q' : Except ε α → World M → Prop} {w : World M}

@[simp] theorem wp_done {r : Except ε α} : wp L a (.done r) Q w ↔ Q r w := Iff.rfl

theorem wp_mono {p : Prog S ε α} (h : wp L a p Q w) (hQ : ∀ r w, Q r w → Q' r w) :
    wp L a p Q' w := by
  induction p generalizing w with
  | done r => exact hQ r w h
  | op o k ih => exact fun i out s hs => ⟨(h i out s hs).1, ih _ (h i out s hs).2⟩
  | call c k ih => exact ⟨h.1, fun w' ho ans => ih _ (h.2 w' ho ans)⟩
  | spawn t k ih => exact ⟨h.1, ih h.2⟩

@[simp] theorem wp_thenE {p : Prog S ε α} {f : Except ε α → Prog S ε' β}
    {Q : Except ε' β → World M → Prop} :
    wp L a (p.thenE f) Q w ↔ wp L a p (fun r w => wp L a (f r) Q w) w := by
  induction p generalizing w with
  | done r => rfl
  | op o k ih => simp only [Prog.thenE, wp, ih]
  | call c k ih => simp only [Prog.thenE, wp, ih]
  | spawn t k ih => simp only [Prog.thenE, wp, ih]

theorem wp_bind {p : Prog S ε α} {f : α → Prog S ε β} {Q : Except ε β → World M → Prop} :
    wp L a (p >>= f) Q w ↔ wp L a p (fun r w => wp L a (Prog.onOk f r) Q w) w := by simp

@[simp] theorem wp_perform {o : S.Op} {Q : Except ε (S.Out o) → World M → Prop} :
    wp L a (Prog.perform o) Q w ↔ ∀ i out s, M.exec o i w.st = some (out, s) →
      L.did w a o i out ∧ Q (.ok out) (w.record (.did a o i out w.st) s) := Iff.rfl

@[simp] theorem wp_ask {c : S.Call} {Q : Except ε (S.Ans c) → World M → Prop} :
    wp L a (Prog.ask c) Q w ↔ L.called w a c ∧
      ∀ w', Others a.tid (w.record (.called a c w.st) w.st) w' → ∀ ans,
        Q (.ok ans) (w'.record (.answered a c ans w'.st) w'.st) := Iff.rfl

@[simp] theorem wp_start {t : S.Task} {Q : Except ε Unit → World M → Prop} :
    wp L a (Prog.start t) Q w ↔ L.spawned w a t ∧
      Q (.ok ()) (w.record (.spawned a ⟨w.hist.length, t⟩) w.st) := Iff.rfl

@[simp] theorem wp_ofExcept {r : Except ε α} : wp L a (Prog.ofExcept r) Q w ↔ Q r w := Iff.rfl

theorem wp_ofExcept_cases {r : Except ε α} : wp L a (Prog.ofExcept r) Q w ↔
    (∀ e, r = .error e → Q (.error e) w) ∧ ∀ x, r = .ok x → Q (.ok x) w := by
  cases r <;> simp

@[simp] theorem wp_raiseIf {c : Prop} [Decidable c] {e : ε} {Q : Except ε Unit → World M → Prop} :
    wp L a (Prog.raiseIf c e) Q w ↔ (c → Q (.error e) w) ∧ (¬ c → Q (.ok ()) w) := by
  by_cases h : c <;> simp [Prog.raiseIf, h]

@[simp] theorem wp_orRaise {x : Option α} {e : ε} :
    wp L a (Prog.orRaise x e) Q w ↔
      (x = none → Q (.error e) w) ∧ ∀ y, x = some y → Q (.ok y) w := by
  cases x <;> simp [Prog.orRaise]

@[simp] theorem wp_attempt {p : Prog S ε α} {Q : Except ε' (Except ε α) → World M → Prop} :
    wp L a p.attempt Q w ↔ wp L a p (fun r w => Q (.ok r) w) w := by
  simp [Prog.attempt]

end Wp

/-! ## From programs to runs -/

/-- No event of the history is program `tid`'s own. -/
def Fresh (w : World M) (tid : ℕ) : Prop := ∀ e ∈ w.hist, e.by? ≠ some tid

/-- What a parked program needs of the world, so that it will keep the law when its turn comes. -/
def Parked (L : Law M) (w : World M) (a : Actor S) : Phase M → Prop
  | .ready => Fresh w a.tid
  | .waiting c k => (a.tid, c) ∈ outstanding w.hist ∧
      ∀ w', Others a.tid w w' → ∀ ans,
        wp L a (k ans) (fun r w => L.finished w a r) (w'.record (.answered a c ans w'.st) w'.st)

/-- The invariant of the loop: the history is lawful, numbers are distinct and used up, and every
program, running or parked, meets what is left of its obligations. -/
structure Config.Sound (L : Law M) (s : M.State) (c : Config M) : Prop where
  run : Run L s c.w
  used : ∀ e ∈ c.w.hist, ∀ tid, e.by? = some tid → tid < c.w.hist.length
  distinct : (c.pool.map fun x => x.1.tid).Nodup
  pool : ∀ x ∈ c.pool, x.1 ∈ alive c.w.hist ∧ x.1.tid < c.w.hist.length ∧ Parked L c.w x.1 x.2
  midTurn : ∀ tid, acting c.w.hist = some tid → ∃ x, c.running = some x ∧ x.1.tid = tid
  running : ∀ a p, c.running = some (a, p) →
    (a ∈ alive c.w.hist ∧ a.tid < c.w.hist.length ∧ ∀ x ∈ c.pool, x.1.tid ≠ a.tid) ∧
      wp L a p (fun r w => L.finished w a r) c.w

theorem World.Step.alive_of_ne {w w' : World M} {e : Event M} {a : Actor S} (h : w.Step e w')
    (hb : e.by? ≠ some a.tid) (hc : e.crash? = false) (ha : a ∈ alive w.hist) :
    a ∈ alive w'.hist := by
  rw [h.hist]
  cases e with
  | finished b r s =>
    have : a.tid ≠ b.tid := fun e => hb (by simp [Event.by?, e])
    simp [alive, ha, this]
  | crashed s => cases hc
  | _ => simp [alive, ha]

theorem World.Step.outstanding_of_ne {w w' : World M} {e : Event M} {tid : ℕ} {c : S.Call}
    (h : w.Step e w') (hb : e.by? ≠ some tid) (hc : e.crash? = false)
    (ho : (tid, c) ∈ outstanding w.hist) : (tid, c) ∈ outstanding w'.hist := by
  rw [h.hist]
  cases e with
  | answered b c' ans s =>
    have : tid ≠ b.tid := fun e => hb (by simp [Event.by?, e])
    simp [outstanding, ho, this]
  | crashed s => cases hc
  | _ => simp [outstanding, ho]

theorem Parked.step {L : Law M} {w w' : World M} {e : Event M} {a : Actor S} {ph : Phase M}
    (h : Parked L w a ph) (hs : w.Step e w') (hb : e.by? ≠ some a.tid) (hc : e.crash? = false) :
    Parked L w' a ph := by
  cases ph with
  | ready =>
    intro e' he'
    rw [hs.hist] at he'
    rcases List.mem_cons.1 he' with rfl | he'
    exacts [hb, h e' he']
  | waiting c k =>
    exact ⟨hs.outstanding_of_ne hb hc h.1, fun w'' ho ans =>
      h.2 w'' ((Others.single hs hb hc).trans ho) ans⟩

namespace Config

variable {L : Law M} {s : M.State} {c : Config M} {w' : World M} {e : Event M}

/-- The part of the invariant that is about the world and the parked programs, after an event that
is none of theirs. -/
theorem Sound.advance (h : c.Sound L s) (hs : c.w.Step e w') (hl : L.holds c.w e)
    (hmid : ∀ tid, acting c.w.hist = some tid → e.by? = some tid ∨ e.crash? = true)
    (hu : ∀ tid, e.by? = some tid → tid < c.w.hist.length)
    (hb : ∀ x ∈ c.pool, e.by? ≠ some x.1.tid) (hc : e.crash? = false) :
    Run L s w' ∧ (∀ e' ∈ w'.hist, ∀ tid, e'.by? = some tid → tid < w'.hist.length) ∧
      ∀ x ∈ c.pool, x.1 ∈ alive w'.hist ∧ x.1.tid < w'.hist.length ∧ Parked L w' x.1 x.2 := by
  refine ⟨h.run.step ⟨hs, hl, hmid⟩, fun e' he' tid ht => ?_, fun x hx => ?_⟩
  · rw [hs.hist] at he' ⊢
    rw [List.length_cons]
    rcases List.mem_cons.1 he' with rfl | he'
    · exact Nat.lt_succ_of_lt (hu tid ht)
    · exact Nat.lt_succ_of_lt (h.used e' he' tid ht)
  · obtain ⟨ha, ht, hp⟩ := h.pool x hx
    refine ⟨hs.alive_of_ne (hb x hx) hc ha, ?_, hp.step hs (hb x hx) hc⟩
    rw [hs.hist, List.length_cons]
    exact Nat.lt_succ_of_lt ht

theorem mem_of_parked {tid : ℕ} {x : Actor S × Phase M} (h : c.parked tid = some x) :
    x ∈ c.pool ∧ x.1.tid = tid :=
  ⟨List.mem_of_find?_eq_some h, by simpa using List.find?_some h⟩

theorem mem_others {tid : ℕ} {x : Actor S × Phase M} :
    x ∈ c.others tid ↔ x ∈ c.pool ∧ x.1.tid ≠ tid := by
  simp [others]

theorem distinct_others (h : (c.pool.map fun x => x.1.tid).Nodup) (tid : ℕ) :
    ((c.others tid).map fun x => x.1.tid).Nodup :=
  h.sublist (List.Sublist.map _ List.filter_sublist)

theorem distinct_concat {l : List (Actor S × Phase M)} {x : Actor S × Phase M}
    (h : (l.map fun x => x.1.tid).Nodup) (hx : ∀ y ∈ l, y.1.tid ≠ x.1.tid) :
    ((l ++ [x]).map fun x => x.1.tid).Nodup := by
  rw [List.map_append, List.map_singleton, ← List.concat_eq_append]
  refine h.concat fun hm => ?_
  obtain ⟨y, hy, he⟩ := List.mem_map.1 hm
  exact hx y hy he

/-- While nothing runs it is nobody's turn. -/
theorem Sound.acting_eq_none (h : c.Sound L s) (hr : c.running = none) (tid : ℕ) :
    acting c.w.hist ≠ some tid := fun ht => by
  obtain ⟨x, hx, -⟩ := h.midTurn tid ht
  rw [hr] at hx
  cases hx

/-- The number the next actor gets has not acted yet. -/
theorem fresh_cons (hu : ∀ e ∈ c.w.hist, ∀ tid, e.by? = some tid → tid < c.w.hist.length)
    (he : e.by? ≠ some c.w.hist.length) : Fresh (c.w.record e c.w.st) c.w.hist.length := by
  intro e' he' hb
  rcases List.mem_cons.1 he' with rfl | he'
  exacts [he hb, Nat.ne_of_lt (hu e' he' _ hb) rfl]

theorem Sound.start (s : M.State) : (start s : Config M).Sound L s where
  run := .start
  used := by simp [Config.start]
  distinct := by simp [Config.start]
  pool := by simp [Config.start]
  midTurn := by simp [Config.start, acting]
  running := by simp [Config.start]

/-- A turn of the running program keeps the invariant: what it does is what it owed. -/
theorem Sound.turn {a : Actor S} {p : Prog S M.Err M.Res} {i : M.Input} {c' : Config M}
    (h : c.Sound L s) (hr : c.running = some (a, p)) (ht : c.turn a i p = some c') :
    c'.Sound L s := by
  obtain ⟨⟨ha, htid, hne⟩, hwp⟩ := h.running a p hr
  have hu : ∀ t, (some a.tid : Option ℕ) = some t → t < c.w.hist.length := by
    rintro t ⟨⟩; exact htid
  have hb : ∀ x ∈ c.pool, (some a.tid : Option ℕ) ≠ some x.1.tid := fun x hx he =>
    hne x hx (Option.some.inj he).symm
  have hmine : ∀ t, acting c.w.hist = some t → (some a.tid : Option ℕ) = some t := by
    intro t ht
    obtain ⟨x, hx, rfl⟩ := h.midTurn t ht
    rw [hr] at hx
    cases hx
    rfl
  cases p with
  | done r =>
    obtain rfl := Option.some.inj ht
    obtain ⟨h₁, h₂, h₃⟩ := h.advance (.finished ha) hwp (fun t ht => .inl (hmine t ht)) hu hb rfl
    exact ⟨h₁, h₂, h.distinct, h₃, by simp [acting], by simp⟩
  | op o k =>
    obtain ⟨⟨out, s'⟩, hx, rfl⟩ := Option.map_eq_some_iff.1 ht
    have hs : c.w.Step (.did a o i out c.w.st) _ := .did ha hx
    obtain ⟨hl, hk⟩ := hwp i out s' hx
    obtain ⟨h₁, h₂, h₃⟩ := h.advance hs hl (fun t ht => .inl (hmine t ht)) hu hb rfl
    refine ⟨h₁, h₂, h.distinct, h₃, fun t ht => ⟨_, rfl, Option.some.inj ht⟩, ?_⟩
    rintro _ _ ⟨⟩
    exact ⟨⟨by simpa [alive] using ha, Nat.lt_succ_of_lt htid, hne⟩, hk⟩
  | call q k =>
    obtain rfl := Option.some.inj ht
    obtain ⟨hl, hk⟩ := hwp
    have hs : c.w.Step (.called a q c.w.st) _ := .called ha
    obtain ⟨h₁, h₂, h₃⟩ := h.advance hs hl (fun t ht => .inl (hmine t ht)) hu hb rfl
    refine ⟨h₁, h₂, ?_, ?_, by simp [acting], by simp⟩
    · exact distinct_concat h.distinct hne
    · intro x hx
      rcases List.mem_append.1 hx with hx | hx
      · exact h₃ x hx
      · obtain rfl := List.mem_singleton.1 hx
        exact ⟨by simpa [alive] using ha, Nat.lt_succ_of_lt htid, by simp [outstanding], hk⟩
  | spawn t k =>
    obtain rfl := Option.some.inj ht
    obtain ⟨hl, hk⟩ := hwp
    have hs : c.w.Step (.spawned a ⟨c.w.hist.length, t⟩) _ := .spawned ha
    obtain ⟨h₁, h₂, h₃⟩ := h.advance hs hl (fun t ht => .inl (hmine t ht)) hu hb rfl
    refine ⟨h₁, h₂, ?_, ?_, fun t ht => ⟨_, rfl, Option.some.inj ht⟩, ?_⟩
    · exact distinct_concat h.distinct fun x hx => Nat.ne_of_lt (h.pool x hx).2.1
    · intro x hx
      rcases List.mem_append.1 hx with hx | hx
      · exact h₃ x hx
      · obtain rfl := List.mem_singleton.1 hx
        exact ⟨by simp [alive], Nat.lt_succ_self _,
          fresh_cons h.used fun he => Nat.ne_of_lt htid (Option.some.inj he)⟩
    · rintro _ _ ⟨⟩
      refine ⟨⟨by simpa [alive] using Or.inr ha, Nat.lt_succ_of_lt htid, ?_⟩, hk⟩
      intro x hx
      rcases List.mem_append.1 hx with hx | hx
      · exact hne x hx
      · obtain rfl := List.mem_singleton.1 hx
        exact Nat.ne_of_gt htid

/-- Every move of the loop keeps the invariant. -/
theorem Sound.move (hbody : ∀ a w, Fresh w a.tid →
      wp L a (M.body a.task) (fun r w => L.finished w a r) w)
    {ch : Choice M} {c' : Config M} (h : c.Sound L s) (hm : c.move ch = some c') :
    c'.Sound L s := by
  cases ch with
  | step i =>
    cases hr : c.running with
    | none => simp [Config.move, hr] at hm
    | some x => exact h.turn hr (by simpa [Config.move, hr] using hm)
  | crash =>
    simp only [Config.move, Option.some.injEq] at hm
    subst hm
    refine ⟨h.run.step ⟨.crashed, trivial, fun _ _ => .inr rfl⟩, fun e he tid ht => ?_, by simp,
      by simp, by simp [acting], by simp⟩
    rcases List.mem_cons.1 he with rfl | he
    · cases ht
    · exact Nat.lt_succ_of_lt (h.used e he tid ht)
  | arrive t =>
    cases hr : c.running with
    | some x => simp [Config.move, hr] at hm
    | none =>
      obtain ⟨hx, rfl⟩ : M.external t = true ∧ _ = c' := by simpa [Config.move, hr] using hm
      have hs : c.w.Step (.arrived ⟨c.w.hist.length, t⟩) _ := .arrived hx
      obtain ⟨h₁, h₂, h₃⟩ := h.advance hs trivial (fun t ht => absurd ht (h.acting_eq_none hr t))
        (by simp [Event.by?]) (by simp [Event.by?]) rfl
      refine ⟨h₁, h₂, ?_, ?_, by simp [acting], by simp⟩
      · exact distinct_concat h.distinct fun x hx => Nat.ne_of_lt (h.pool x hx).2.1
      · intro x hx
        rcases List.mem_append.1 hx with hx | hx
        · exact h₃ x hx
        · obtain rfl := List.mem_singleton.1 hx
          exact ⟨by simp [alive], Nat.lt_succ_self _, fresh_cons h.used (by simp [Event.by?])⟩
  | stir m =>
    cases hr : c.running with
    | some x => simp [Config.move, hr] at hm
    | none =>
      obtain ⟨s', hx, rfl⟩ : ∃ s', M.stir m c.w.pending c.w.st = some s' ∧ _ = c' := by
        simpa [Config.move, hr] using hm
      have hs : c.w.Step (.stirred m c.w.st) _ := .stirred hx
      obtain ⟨h₁, h₂, h₃⟩ := h.advance hs trivial (fun t ht => absurd ht (h.acting_eq_none hr t))
        (by simp [Event.by?]) (by simp [Event.by?]) rfl
      exact ⟨h₁, h₂, h.distinct, h₃, by simp [acting], by simp⟩
  | wake tid =>
    cases hr : c.running with
    | some x => simp [Config.move, hr] at hm
    | none =>
      cases hp : c.parked tid with
      | none => simp [Config.move, hr, hp] at hm
      | some x =>
        obtain ⟨a, _ | ⟨q, k⟩⟩ := x
        · obtain rfl : _ = c' := by simpa [Config.move, hr, hp] using hm
          obtain ⟨hx, rfl⟩ := mem_of_parked hp
          obtain ⟨ha, ht, hf⟩ := h.pool _ hx
          refine ⟨h.run, h.used, distinct_others h.distinct _,
            fun x hx => h.pool x (mem_others.1 hx).1,
            fun t ht => absurd ht (h.acting_eq_none hr t), ?_⟩
          rintro _ _ ⟨⟩
          exact ⟨⟨ha, ht, fun x hx => (mem_others.1 hx).2⟩, hbody a _ hf⟩
        · simp [Config.move, hr, hp] at hm
  | answer tid rule =>
    cases hr : c.running with
    | some x => simp [Config.move, hr] at hm
    | none =>
      cases hp : c.parked tid with
      | none => simp [Config.move, hr, hp] at hm
      | some x =>
        obtain ⟨a, _ | ⟨q, k⟩⟩ := x
        · simp [Config.move, hr, hp] at hm
        · obtain rfl : _ = c' := by simpa [Config.move, hr, hp] using hm
          obtain ⟨hx, rfl⟩ := mem_of_parked hp
          obtain ⟨ha, ht, ho, hk⟩ := h.pool _ hx
          have hs : c.w.Step (.answered a q (rule q) c.w.st) _ := .answered ha ho
          have hu : ∀ t, (some a.tid : Option ℕ) = some t → t < c.w.hist.length := by
            rintro t ⟨⟩; exact ht
          have h' : Config.Sound L s { c with pool := c.others a.tid } :=
            ⟨h.run, h.used, distinct_others h.distinct _,
              fun x hx => h.pool x (mem_others.1 hx).1,
              fun t ht => absurd ht (h.acting_eq_none hr t), by simp [hr]⟩
          obtain ⟨h₁, h₂, h₃⟩ := h'.advance hs trivial
            (fun t ht => absurd ht (h.acting_eq_none hr t)) hu
            (fun x hx he => (mem_others.1 hx).2 (Option.some.inj he).symm) rfl
          refine ⟨h₁, h₂, h'.distinct, h₃, fun t ht => ⟨_, rfl, Option.some.inj ht⟩, ?_⟩
          rintro _ _ ⟨⟩
          exact ⟨⟨by simpa [alive] using ha, Nat.lt_succ_of_lt ht,
            fun x hx => (mem_others.1 hx).2⟩, hk _ (.refl _) _⟩

end Config

/-- **Programs that meet their obligations one by one keep the law together**, whatever the
schedule, the answers and the crashes. -/
theorem Reach.run {L : Law M} {s : M.State} {c : Config M} (h : Reach s c)
    (hbody : ∀ a w, Fresh w a.tid → wp L a (M.body a.task) (fun r w => L.finished w a r) w) :
    Run L s c.w := by
  suffices c.Sound L s from this.run
  induction h with
  | start => exact .start s
  | move ch _ hm ih => exact ih.move hbody hm

end Interleave
