import LnurlMint.Lib.Wp
import Mathlib.Algebra.BigOperators.Group.List.Basic
import Mathlib.Algebra.Ring.Int.Defs

/-!
# Looking back along a run

A property of every run is an invariant of single events, or it speaks of two moments: what held
when an event happened, and what has become of it since. For the second kind a run can be cut at
any event of its history, into a run that led there and the events that followed.

## Main definitions

* `Follows` — lawful events lead from one world to another
* `Before` — one event happened, and another after it
* `Joined` — an actor arrived or was spawned

## Main results

* `Run.cut` — cutting a run at an event
* `Run.before_or` — of two events of a run one happened before the other
* `Run.tally` — what every event changes by so much
* `Run.actor_eq` — actors with the same number are the same
* `Follows.keep` — what every event keeps, once true, stays true
-/

namespace Interleave

variable {S : Sig} {M : Machine S} {L : Law M} {s : M.State} {w w' w'' : World M} {e : Event M}

/-- Lawful events lead from `w` to the other world. -/
inductive Follows (L : Law M) (w : World M) : World M → Prop
  | refl : Follows L w w
  | step {w' w'' : World M} {e : Event M} (h : Follows L w w') (hn : Next L w' e w'') :
      Follows L w w''

theorem Next.hist (h : Next L w e w') : w'.hist = e :: w.hist := h.step.hist

theorem Next.follows (h : Next L w e w') : Follows L w w' := .step .refl h

/-- An operation in a history ran on the state of its moment, and had the outcome that it has. -/
theorem Next.exec {a : Actor S} {o : S.Op} {i : M.Input} {out : S.Out o} {pre : M.State}
    (h : Next L w (.did a o i out pre) w') :
    pre = w.st ∧ M.exec o i w.st = some (out, w'.st) := by
  obtain ⟨hstep, -, -⟩ := h
  cases hstep with
  | did _ hx => exact ⟨rfl, hx⟩

namespace Follows

theorem trans (h : Follows L w w') (h' : Follows L w' w'') : Follows L w w'' := by
  induction h' with
  | refl => exact h
  | step _ hn ih => exact ih.step hn

theorem hist (h : Follows L w w') : ∃ es, w'.hist = es ++ w.hist := by
  induction h with
  | refl => exact ⟨[], rfl⟩
  | @step _ _ e _ hn ih =>
    obtain ⟨es, he⟩ := ih
    exact ⟨e :: es, by rw [hn.hist, he]; rfl⟩

theorem mem (h : Follows L w w') (he : e ∈ w.hist) : e ∈ w'.hist := by
  obtain ⟨es, heq⟩ := h.hist
  rw [heq]
  exact List.mem_append_right es he

/-- What has happened since, without the newest event. -/
theorem since_cons (h : Follows L w w') (hn : Next L w' e w'') {since : List (Event M)}
    (hh : w''.hist = since ++ w.hist) :
    ∃ since', since = e :: since' ∧ w'.hist = since' ++ w.hist := by
  obtain ⟨since', hs⟩ := h.hist
  refine ⟨since', List.append_cancel_right (hh.symm.trans ?_), hs⟩
  rw [hn.hist, hs]
  rfl

theorem run (h : Follows L w w') (hr : Run L s w) : Run L s w' := by
  induction h with
  | refl => exact hr
  | step _ hn ih => exact ih.step hn

/-- What every event of a run keeps stays true once it is. -/
theorem keep {P : World M → Prop} (h : Follows L w w') (hr : Run L s w) (hp : P w)
    (hstep : ∀ {w e w'}, Run L s w → Next L w e w' → P w → P w') : P w' := by
  induction h with
  | refl => exact hp
  | step hf hn ih => exact hstep (hf.run hr) hn ih

end Follows

/-- **A run can be cut at any event of its history.** -/
theorem Run.cut (h : Run L s w) {es rest : List (Event M)} (hh : w.hist = es ++ e :: rest) :
    ∃ w₀ w₁, Run L s w₀ ∧ w₀.hist = rest ∧ Next L w₀ e w₁ ∧ Follows L w₁ w := by
  induction h generalizing es with
  | start => simp at hh
  | @step w₀ w₁ e' h hn ih =>
    rw [hn.hist] at hh
    cases es with
    | nil =>
      obtain ⟨rfl, rfl⟩ := List.cons.inj hh
      exact ⟨w₀, w₁, h, rfl, hn, .refl⟩
    | cons e'' es =>
      obtain ⟨-, hh⟩ := List.cons.inj hh
      obtain ⟨u, u', hu, hr, hn', hf⟩ := ih hh
      exact ⟨u, u', hu, hr, hn', hf.step hn⟩

/-- The moment at which an event of the history happened. -/
theorem Run.past (h : Run L s w) (he : e ∈ w.hist) :
    ∃ w₀ w₁, Run L s w₀ ∧ Next L w₀ e w₁ ∧ Follows L w₁ w := by
  obtain ⟨es, rest, hh⟩ := List.append_of_mem he
  obtain ⟨w₀, w₁, h₀, -, hn, hf⟩ := h.cut hh
  exact ⟨w₀, w₁, h₀, hn, hf⟩

/-- In a run from `s` that led to `w`, `e` happened and after it `e'`. -/
def Before (L : Law M) (s : M.State) (e e' : Event M) (w : World M) : Prop :=
  ∃ w₀ w₁ w₂ w₃, Run L s w₀ ∧ Next L w₀ e w₁ ∧ Follows L w₁ w₂ ∧ Next L w₂ e' w₃ ∧ Follows L w₃ w

theorem Run.before (h : Run L s w) {e' : Event M} {es rest : List (Event M)}
    (hh : w.hist = es ++ e' :: rest) (he : e ∈ rest) : Before L s e e' w := by
  obtain ⟨w₂, w₃, h₂, rfl, hn', hf'⟩ := h.cut hh
  obtain ⟨w₀, w₁, h₀, hn, hf⟩ := h₂.past he
  exact ⟨w₀, w₁, w₂, w₃, h₀, hn, hf, hn', hf'⟩

/-- **Of two events of a run one happened before the other.** -/
theorem Run.before_or (h : Run L s w) {e' : Event M} (he : e ∈ w.hist) (he' : e' ∈ w.hist)
    (hne : e ≠ e') : Before L s e e' w ∨ Before L s e' e w := by
  obtain ⟨es, rest, hh⟩ := List.append_of_mem he
  rw [hh] at he'
  rcases List.mem_append.1 he' with hm | hm
  · obtain ⟨es₁, es₂, rfl⟩ := List.append_of_mem hm
    rw [List.append_assoc, List.cons_append] at hh
    exact .inl (h.before hh (List.mem_append_right _ List.mem_cons_self))
  · rcases List.mem_cons.1 hm with rfl | hm
    · exact absurd rfl hne
    · exact .inr (h.before hh hm)

/-- **What happens once.** Events that only happen before something is done, and do it, when nothing
undoes it, happen at most once, and not before it is done. -/
theorem Run.once {p : Event M → Bool} {Q : M.State → Prop} (h : Run L s w)
    (hkeep : ∀ {w e w'}, Next L w e w' → Q w.st → Q w'.st)
    (hp : ∀ {w e w'}, Run L s w → Next L w e w' → p e = true → ¬ Q w.st ∧ Q w'.st) :
    w.hist.countP p ≤ 1 ∧ (¬ Q w.st → w.hist.countP p = 0) := by
  induction h with
  | start => exact ⟨Nat.zero_le _, fun _ => rfl⟩
  | @step w w' e h hn ih =>
    rw [hn.hist, List.countP_cons]
    by_cases he : p e = true
    · obtain ⟨hbefore, hafter⟩ := hp h hn he
      rw [if_pos he, ih.2 hbefore]
      exact ⟨Nat.le_refl 1, fun hnot => absurd hafter hnot⟩
    · rw [if_neg he]
      exact ⟨ih.1, fun hnot => ih.2 fun hd => hnot (hkeep hn hd)⟩

/-- **What is counted.** A quantity that every event changes by so much has, in the end, changed by
the sum. -/
theorem Run.tally {f : M.State → ℤ} {g : Event M → ℤ} (h : Run L s w)
    (hstep : ∀ {w e w'}, Run L s w → Next L w e w' → f w'.st = f w.st + g e) :
    f w.st = f s + (w.hist.map g).sum := by
  induction h with
  | start => simp
  | step h hn ih =>
    rw [hstep h hn, ih, hn.hist, List.map_cons, List.sum_cons]
    omega

/-- Two events that count are one, if at most one counts. -/
theorem eq_of_countP_le_one {p : Event M → Bool} {hist : List (Event M)} {e e' : Event M}
    (h : hist.countP p ≤ 1) (he : e ∈ hist) (he' : e' ∈ hist) (hp : p e = true)
    (hp' : p e' = true) : e = e' := by
  rw [List.countP_eq_length_filter] at h
  have hm : e ∈ hist.filter p := List.mem_filter.2 ⟨he, hp⟩
  have hm' : e' ∈ hist.filter p := List.mem_filter.2 ⟨he', hp'⟩
  generalize hist.filter p = l at h hm hm'
  rcases l with _ | ⟨x, _ | ⟨y, l⟩⟩
  · cases hm
  · rw [List.mem_singleton.1 hm, List.mem_singleton.1 hm']
  · simp at h

/-- The newest event of a run. -/
theorem Run.last (h : Run L s w) {rest : List (Event M)} (hh : w.hist = e :: rest) :
    ∃ w₀, Run L s w₀ ∧ w₀.hist = rest ∧ Next L w₀ e w := by
  cases h with
  | start => simp at hh
  | step h hn =>
    rw [hn.hist] at hh
    obtain ⟨rfl, rfl⟩ := List.cons.inj hh
    exact ⟨_, h, rfl, hn⟩

/-- The pairs of neighbours. -/
theorem mem_zip_tail {α : Type} {l : List α} {x y : α} :
    (x, y) ∈ l.zip l.tail ↔ [x, y] <:+: l := by
  induction l with
  | nil => simp
  | cons a l ih =>
    cases l with
    | nil => simp [List.infix_cons_iff]
    | cons b l =>
      rw [List.infix_cons_iff, ← ih, List.tail_cons, List.zip_cons_cons, List.mem_cons,
        List.tail_cons, Prod.mk.injEq]
      simp

/-! ## Who is who -/

/-- The actor arrived, or was spawned. -/
def Joined (hist : List (Event M)) (a : Actor S) : Prop :=
  .arrived a ∈ hist ∨ ∃ b, .spawned b a ∈ hist

theorem Joined.mono {hist hist' : List (Event M)} {a : Actor S} (h : Joined hist a)
    (hsub : ∀ e ∈ hist, e ∈ hist') : Joined hist' a :=
  h.imp (hsub _) fun ⟨b, hb⟩ => ⟨b, hsub _ hb⟩

/-- Whoever is alive arrived or was spawned. -/
theorem mem_alive {a : Actor S} {hist : List (Event M)} (h : a ∈ alive hist) : Joined hist a := by
  induction hist with
  | nil => cases h
  | cons e hist ih =>
    have hrest : a ∈ alive hist → Joined (e :: hist) a :=
      fun h => (ih h).mono fun _ => List.mem_cons_of_mem _
    cases e with
    | arrived b =>
      rcases List.mem_cons.1 h with rfl | h
      · exact .inl List.mem_cons_self
      · exact hrest h
    | spawned c b =>
      rcases List.mem_cons.1 h with rfl | h
      · exact .inr ⟨c, List.mem_cons_self⟩
      · exact hrest h
    | finished b r pre => exact hrest (List.mem_filter.1 h).1
    | crashed pre => cases h
    | _ => exact hrest h

/-- Whoever does a task that does not come from outside was spawned. -/
theorem Run.spawned_of_joined (h : Run L s w) {a : Actor S} (ha : Joined w.hist a)
    (hx : M.external a.task = false) : ∃ b, .spawned b a ∈ w.hist := by
  refine Or.resolve_left ha fun harrived => ?_
  obtain ⟨_, _, -, hn, -⟩ := h.past harrived
  obtain ⟨hstep, -, -⟩ := hn
  cases hstep with
  | arrived hext =>
    rw [hext] at hx
    cases hx

/-- Who acted. -/
def Event.actor? : Event M → Option (Actor S)
  | .spawned a _ | .did a .. | .called a .. | .answered a .. | .finished a .. => some a
  | .arrived _ | .stirred .. | .crashed _ => none

theorem World.Step.alive {a : Actor S} (h : w.Step e w') (ha : e.actor? = some a) :
    a ∈ alive w.hist := by
  cases h with
  | arrived | stirred | crashed => cases ha
  | spawned h | did h | called h | answered h | finished h =>
    cases ha
    exact h

theorem Run.joined (h : Run L s w) (he : e ∈ w.hist) {a : Actor S} (ha : e.actor? = some a) :
    Joined w.hist a := by
  obtain ⟨w₀, w₁, -, hn, hf⟩ := h.past he
  exact Joined.mono (mem_alive (hn.step.alive ha)) fun e he => (hn.follows.trans hf).mem he

/-- An actor's number is the length of the history it joined. -/
theorem Run.tid_eq (h : Run L s w) {es rest : List (Event M)} (hh : w.hist = es ++ e :: rest)
    {a : Actor S} (ha : e = .arrived a ∨ ∃ b, e = .spawned b a) : a.tid = rest.length := by
  obtain ⟨w₀, w₁, -, rfl, ⟨hstep, -, -⟩, -⟩ := h.cut hh
  rcases ha with rfl | ⟨b, rfl⟩ <;> cases hstep <;> rfl

/-- **Actors with the same number are the same.** -/
theorem Run.actor_eq (h : Run L s w) {a b : Actor S} (ha : Joined w.hist a)
    (hb : Joined w.hist b) (ht : a.tid = b.tid) : a = b := by
  have hcut : ∀ {x : Actor S}, Joined w.hist x → ∃ es e rest, w.hist = es ++ e :: rest ∧
      (e = .arrived x ∨ ∃ y, e = .spawned y x) := by
    rintro x (hx | ⟨y, hx⟩) <;> obtain ⟨es, rest, hh⟩ := List.append_of_mem hx
    exacts [⟨es, _, rest, hh, .inl rfl⟩, ⟨es, _, rest, hh, .inr ⟨y, rfl⟩⟩]
  obtain ⟨es, e, rest, hh, he⟩ := hcut ha
  obtain ⟨es', e', rest', hh', he'⟩ := hcut hb
  have hlen : (e :: rest).length = (e' :: rest').length := by
    rw [List.length_cons, List.length_cons, ← h.tid_eq hh he, ← h.tid_eq hh' he', ht]
  obtain ⟨-, hcons⟩ := List.append_inj' (hh.symm.trans hh') hlen
  obtain ⟨rfl, -⟩ := List.cons.inj hcons
  rcases he with rfl | ⟨y, rfl⟩ <;> rcases he' with he' | ⟨y', he'⟩ <;> cases he' <;> rfl

/-- An outstanding call was made. -/
theorem mem_outstanding {x : ℕ × S.Call} {hist : List (Event M)} (h : x ∈ outstanding hist) :
    ∃ a pre, .called a x.2 pre ∈ hist ∧ a.tid = x.1 := by
  induction hist with
  | nil => cases h
  | cons e hist ih =>
    have hrest : x ∈ outstanding hist → ∃ a pre, .called a x.2 pre ∈ e :: hist ∧ a.tid = x.1 :=
      fun h => by
        obtain ⟨a, pre, he, ht⟩ := ih h
        exact ⟨a, pre, List.mem_cons_of_mem _ he, ht⟩
    cases e with
    | called a c pre =>
      rcases List.mem_cons.1 h with rfl | h
      · exact ⟨a, pre, List.mem_cons_self, rfl⟩
      · exact hrest h
    | answered b c ans pre => exact hrest (List.mem_filter.1 h).1
    | crashed pre => cases h
    | _ => exact hrest h

/-- Whoever was answered had made the call. -/
theorem Run.called_of_answered (h : Run L s w) {a : Actor S} {c : S.Call} {ans : S.Ans c}
    {pre : M.State} (he : .answered a c ans pre ∈ w.hist) : ∃ pre', .called a c pre' ∈ w.hist := by
  obtain ⟨w₀, w₁, -, hn, hf⟩ := h.past he
  have hmem : ∀ e ∈ w₀.hist, e ∈ w.hist := fun e he => (hn.follows.trans hf).mem he
  have hout : (a.tid, c) ∈ outstanding w₀.hist := by
    obtain ⟨hstep, -, -⟩ := hn
    cases hstep with
    | answered _ hc => exact hc
  obtain ⟨b, pre', hcall, ht⟩ := mem_outstanding hout
  have hcall := hmem _ hcall
  obtain rfl := h.actor_eq (h.joined hcall rfl) (h.joined he rfl) ht
  exact ⟨pre', hcall⟩

end Interleave
