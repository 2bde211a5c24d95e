import LnurlMint.Lib.History

/-!
# Who waits does nothing

A program that has made a call does nothing until it is answered. The loop sees to that, and the
steps of a world do not say it: they ask of who acts only that he is alive. So it is a law, which
every program keeps, whatever it is.

What follows is that of one actor's events the calls and the answers alternate. Who has called and
then acts was answered in between, or the process has died and it was not he who acted.

## Main definitions

* `Law.and` — two laws at once
* `Idle` — an actor has no call outstanding
* `seqLaw` — only who is idle acts

## Main results

* `wp_seqLaw` — every program keeps it
* `Run.answered_of_acted` — who has called, and acts, was answered
-/

namespace Interleave

variable {S : Sig} {M : Machine S} {s : M.State} {w w' w₁ w₂ : World M} {a : Actor S} {e : Event M}

/-! ## Two laws at once -/

/-- Both laws are kept. -/
def Law.and (L L' : Law M) : Law M where
  did w a o i out := L.did w a o i out ∧ L'.did w a o i out
  called w a c := L.called w a c ∧ L'.called w a c
  spawned w a t := L.spawned w a t ∧ L'.spawned w a t
  finished w a r := L.finished w a r ∧ L'.finished w a r

theorem wp_and {L L' : Law M} {ε α : Type} {p : Prog S ε α} {Q Q' : Except ε α → World M → Prop}
    (h : wp L a p Q w) (h' : wp L' a p Q' w) :
    wp (L.and L') a p (fun r w => Q r w ∧ Q' r w) w := by
  induction p generalizing w with
  | done r => exact ⟨h, h'⟩
  | op o k ih =>
    intro i out s' hs
    obtain ⟨hl, hk⟩ := h i out s' hs
    obtain ⟨hl', hk'⟩ := h' i out s' hs
    exact ⟨⟨hl, hl'⟩, ih out hk hk'⟩
  | call c k ih => exact ⟨⟨h.1, h'.1⟩, fun w' ho ans => ih ans (h.2 w' ho ans) (h'.2 w' ho ans)⟩
  | spawn t k ih => exact ⟨⟨h.1, h'.1⟩, ih h.2 h'.2⟩

variable {L L' : Law M}

theorem Law.holds_and : (L.and L').holds w e ↔ L.holds w e ∧ L'.holds w e := by
  cases e <;> simp [Law.holds, Law.and]

theorem Next.of_and (h : Next (L.and L') w e w') : Next L w e w' ∧ Next L' w e w' :=
  ⟨⟨h.step, (Law.holds_and.1 h.lawful).1, h.turn⟩, ⟨h.step, (Law.holds_and.1 h.lawful).2, h.turn⟩⟩

theorem Run.of_and (h : Run (L.and L') s w) : Run L s w ∧ Run L' s w := by
  induction h with
  | start => exact ⟨.start, .start⟩
  | step _ hn ih => exact ⟨ih.1.step hn.of_and.1, ih.2.step hn.of_and.2⟩

theorem Follows.of_and (h : Follows (L.and L') w w') : Follows L w w' ∧ Follows L' w w' := by
  induction h with
  | refl => exact ⟨.refl, .refl⟩
  | step _ hn ih => exact ⟨ih.1.step hn.of_and.1, ih.2.step hn.of_and.2⟩

/-- Events of which none follows another happen at most once. -/
theorem Run.countP_le_one {p : Event M → Bool} (h : Run L s w)
    (hp : ∀ {w e w'}, Run L s w → Next L w e w' → p e = true → ∀ e' ∈ w.hist, ¬ p e' = true) :
    w.hist.countP p ≤ 1 := by
  induction h with
  | start => exact Nat.zero_le _
  | @step w w' e h hn ih =>
    rw [hn.hist, List.countP_cons]
    by_cases he : p e = true
    · rw [if_pos he, List.countP_eq_zero.2 (hp h hn he)]
    · rw [if_neg he]
      exact ih

/-! ## Who waits does nothing -/

/-- No call of the actor with this number is outstanding. -/
def Idle (w : World M) (tid : ℕ) : Prop := ∀ x ∈ outstanding w.hist, x.1 ≠ tid

/-- The law that only who is idle acts. -/
def seqLaw (M : Machine S) : Law M where
  did w a _ _ _ := Idle w a.tid
  called w a _ := Idle w a.tid
  spawned w a _ := Idle w a.tid
  finished w a _ := Idle w a.tid

theorem Idle.of_fresh {tid : ℕ} (h : Fresh w tid) : Idle w tid := fun x hx ht => by
  obtain ⟨b, pre, he, hb⟩ := mem_outstanding hx
  exact h _ he (congrArg some (hb.trans ht))

/-- Who is answered is idle. -/
theorem Idle.answered {q : S.Call} {ans : S.Ans q} :
    Idle (w.record (.answered a q ans w.st) w.st) a.tid := fun _ hx =>
  of_decide_eq_true (List.mem_filter.1 hx).2

/-- **Every program keeps it.** -/
theorem wp_seqLaw {ε α : Type} {p : Prog S ε α} (h : Idle w a.tid) :
    wp (seqLaw M) a p (fun _ w' => Idle w' a.tid) w := by
  induction p generalizing w with
  | done r => exact h
  | op o k ih => exact fun i out s' _ => ⟨h, ih out h⟩
  | call c k ih => exact ⟨h, fun w' _ ans => ih ans .answered⟩
  | spawn t k ih => exact ⟨h, ih h⟩

/-- Whose event needs him to be idle. -/
def Event.idle? : Event M → Option ℕ
  | .did a .. | .called a .. | .spawned a _ | .finished a .. => some a.tid
  | .arrived _ | .answered .. | .stirred .. | .crashed _ => none

theorem Next.idle {tid : ℕ} (hn : Next (seqLaw M) w e w') (he : e.idle? = some tid) :
    Idle w tid := by
  have hl := hn.lawful
  cases e with
  | did | called | spawned | finished =>
    cases he
    exact hl
  | _ => cases he

/-- Nobody has two calls outstanding. -/
theorem Run.outstanding_unique (h : Run (seqLaw M) s w) {tid : ℕ} {q q' : S.Call}
    (hq : (tid, q) ∈ outstanding w.hist) (hq' : (tid, q') ∈ outstanding w.hist) : q = q' := by
  induction h with
  | start => cases hq
  | @step w w' e h hn ih =>
    rw [hn.hist] at hq hq'
    cases e with
    | called b c pre =>
      have hidle := hn.idle rfl
      rcases List.mem_cons.1 hq with heq | hq <;> rcases List.mem_cons.1 hq' with heq' | hq'
      · exact (Prod.mk.inj heq).2.trans (Prod.mk.inj heq').2.symm
      · exact absurd (Prod.mk.inj heq).1 (hidle _ hq')
      · exact absurd (Prod.mk.inj heq').1 (hidle _ hq)
      · exact ih hq hq'
    | answered b c ans pre => exact ih (List.mem_filter.1 hq).1 (List.mem_filter.1 hq').1
    | crashed pre => cases hq
    | _ => exact ih hq hq'

/-- The actor is not alive, and no other will have its number. -/
def Gone (w : World M) (tid : ℕ) : Prop :=
  tid < w.hist.length ∧ ∀ b ∈ alive w.hist, b.tid ≠ tid

theorem Gone.next {tid : ℕ} (h : Gone w tid) (hn : Next L w e w') : Gone w' tid := by
  obtain ⟨hlt, hdead⟩ := h
  rw [Gone, hn.hist]
  refine ⟨Nat.lt_succ_of_lt hlt, fun b hb => ?_⟩
  have hstep := hn.step
  cases hstep with
  | arrived | spawned =>
    rcases List.mem_cons.1 hb with rfl | hb
    exacts [hlt.ne', hdead b hb]
  | finished => exact hdead b (List.mem_filter.1 hb).1
  | crashed => cases hb
  | _ => exact hdead b hb

/-- An actor's number is one of the moments so far. -/
theorem Run.tid_lt (h : Run L s w) (ha : Joined w.hist a) : a.tid < w.hist.length := by
  have hlt : ∀ {e : Event M}, e ∈ w.hist → (e = .arrived a ∨ ∃ b, e = .spawned b a) →
      a.tid < w.hist.length := by
    intro e he hjoined
    obtain ⟨es, rest, hh⟩ := List.append_of_mem he
    rw [h.tid_eq hh hjoined, hh, List.length_append, List.length_cons]
    omega
  rcases ha with he | ⟨b, he⟩
  exacts [hlt he (.inl rfl), hlt he (.inr ⟨b, rfl⟩)]

/-- What becomes of a call: it is outstanding, or answered, or the process died. -/
theorem Run.call_fate (h : Run (seqLaw M) s w) {q : S.Call} {pre : M.State}
    (hn : Next (seqLaw M) w (.called a q pre) w₁) (hf : Follows (seqLaw M) w₁ w₂) :
    (a.tid, q) ∈ outstanding w₂.hist ∨ (∃ ans pre', .answered a q ans pre' ∈ w₂.hist) ∨
      Gone w₂ a.tid := by
  have hcalled : ∀ {w}, Follows (seqLaw M) w₁ w → Event.called a q pre ∈ w.hist := fun hf =>
    hf.mem (by rw [hn.hist]; exact List.mem_cons_self)
  induction hf with
  | refl => exact .inl (by rw [hn.hist]; exact List.mem_cons_self)
  | @step w₂ w₃ e hf hn' ih =>
    have hr := hf.run (h.step hn)
    rcases ih with hout | ⟨ans, pre', he⟩ | hgone
    · by_cases hby : e.by? = some a.tid
      · -- he acts, so it is the answer
        cases e with
        | did b | called b | spawned b | finished b =>
          exact absurd (Option.some.inj hby).symm (hn'.idle rfl _ hout)
        | answered b c ans pre' =>
          have htid : b.tid = a.tid := Option.some.inj hby
          have hstep := hn'.step
          cases hstep with
          | answered halive hc =>
            obtain rfl := hr.actor_eq (mem_alive halive) (hr.joined (hcalled hf) rfl) htid
            obtain rfl := hr.outstanding_unique hc hout
            exact .inr (.inl ⟨ans, _, by rw [hn'.hist]; exact List.mem_cons_self⟩)
        | _ => cases hby
      · by_cases hcrash : e.crash? = true
        · have hlt := hr.tid_lt (hr.joined (hcalled hf) rfl)
          refine .inr (.inr ⟨?_, fun b hb => ?_⟩)
          · rw [hn'.hist]
            exact Nat.lt_succ_of_lt hlt
          · cases e with
            | crashed =>
              rw [hn'.hist] at hb
              cases hb
            | _ => cases hcrash
        · exact .inl (hn'.step.outstanding_of_ne hby (Bool.eq_false_iff.2 hcrash) hout)
    · exact .inr (.inl ⟨ans, pre', by rw [hn'.hist]; exact List.mem_cons_of_mem _ he⟩)
    · exact .inr (.inr (hgone.next hn'))

/-- **Who has called, and acts, was answered.** -/
theorem Run.answered_of_acted (h : Run (seqLaw M) s w) {q : S.Call} {pre : M.State}
    (hn : Next (seqLaw M) w (.called a q pre) w₁) (hf : Follows (seqLaw M) w₁ w₂)
    (hn' : Next (seqLaw M) w₂ e w') (he : e.idle? = some a.tid) (ha : e.actor? = some a) :
    ∃ ans pre', .answered a q ans pre' ∈ w₂.hist := by
  rcases h.call_fate hn hf with hout | hanswered | ⟨-, hdead⟩
  · exact absurd rfl (hn'.idle he _ hout)
  · exact hanswered
  · exact absurd rfl (hdead a (hn'.step.alive ha))

end Interleave
