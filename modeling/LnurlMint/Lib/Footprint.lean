import LnurlMint.Lib.History
import Mathlib.Algebra.BigOperators.Group.List.Lemmas
import Mathlib.Algebra.GroupWithZero.Nat
import Mathlib.Algebra.Order.Group.Nat

/-!
# What a program can do at all

Some properties of a program need no reasoning about states: it never makes a certain call, or never
makes it more than twice. They are read off the tree, whatever the operations return and whatever
the calls are answered.

`Prog.Within` bounds what a program does, `Prog.Costs` how much its calls cost together. Both are
closed under the idioms of `Prog`, so a handler's bound follows its text. A bound for every task of
a machine is then a bound for every event of every run.

A law that asks nothing of what lies within a scope is kept for free by a program that stays within
it; `wp_of_within` is how the harmless parts of a handler are passed over.

## Main definitions

* `Scope`, `Prog.Within` — what a program does
* `Prog.Costs`, `spentBy` — what its calls cost
* `Law.Frees` — what a law does not restrict

## Main results

* `Reach.within` — in every run, every task stays within its scope
* `Reach.spentBy_le` — in every run, every task stays within its budget
* `wp_of_within`
-/

namespace Interleave

variable {S : Sig}

/-! ## Scopes -/

/-- Operations, calls and tasks to spawn. -/
structure Scope (S : Sig) where
  /-- The operations. -/
  op : S.Op → Prop
  /-- The calls. -/
  call : S.Call → Prop
  /-- The tasks. -/
  task : S.Task → Prop

namespace Scope

instance : LE (Scope S) where
  le F G := (∀ o, F.op o → G.op o) ∧ (∀ c, F.call c → G.call c) ∧ ∀ t, F.task t → G.task t

theorem le_refl (F : Scope S) : F ≤ F := ⟨fun _ => id, fun _ => id, fun _ => id⟩

end Scope

namespace Prog

variable {ε ε' α β : Type} {F G : Scope S} {P P' : α → Prop} {Q : β → Prop}

/-- Whatever it is told, the program stays within `F`, and what it returns meets `P`. -/
def Within (F : Scope S) (P : α → Prop) : Prog S ε α → Prop
  | .done (.ok x) => P x
  | .done (.error _) => True
  | .op o k => F.op o ∧ ∀ x, (k x).Within F P
  | .call c k => F.call c ∧ ∀ x, (k x).Within F P
  | .spawn t k => F.task t ∧ k.Within F P

namespace Within

theorem mono {p : Prog S ε α} (h : p.Within F P) (hle : F ≤ G) (hP : ∀ x, P x → P' x) :
    p.Within G P' := by
  induction p with
  | done r =>
    cases r with
    | ok x => exact hP x h
    | error e => trivial
  | op o k ih => exact ⟨hle.1 o h.1, fun x => ih x (h.2 x)⟩
  | call c k ih => exact ⟨hle.2.1 c h.1, fun x => ih x (h.2 x)⟩
  | spawn t k ih => exact ⟨hle.2.2 t h.1, ih h.2⟩

theorem weaken {p : Prog S ε α} (h : p.Within F P) (hP : ∀ x, P x → P' x) : p.Within F P' :=
  h.mono (Scope.le_refl F) hP

theorem thenE {p : Prog S ε α} {f : Except ε α → Prog S ε' β} (h : p.Within F P)
    (hok : ∀ x, P x → (f (.ok x)).Within F Q) (herr : ∀ e, (f (.error e)).Within F Q) :
    (p.thenE f).Within F Q := by
  induction p with
  | done r =>
    cases r with
    | ok x => exact hok x h
    | error e => exact herr e
  | op o k ih => exact ⟨h.1, fun x => ih x (h.2 x)⟩
  | call c k ih => exact ⟨h.1, fun x => ih x (h.2 x)⟩
  | spawn t k ih => exact ⟨h.1, ih h.2⟩

theorem bind {p : Prog S ε α} {f : α → Prog S ε β} (h : p.Within F P)
    (hf : ∀ x, P x → (f x).Within F Q) : (p >>= f).Within F Q :=
  h.thenE hf fun _ => trivial

theorem tryCatch {p : Prog S ε α} {f : ε → Prog S ε α} (h : p.Within F P)
    (hf : ∀ e, (f e).Within F P) : (MonadExcept.tryCatch p f).Within F P :=
  h.thenE (fun _ hx => hx) hf

theorem attempt {p : Prog S ε α} (h : p.Within F P) :
    (p.attempt : Prog S ε' (Except ε α)).Within F fun r => ∀ x, r = .ok x → P x :=
  h.thenE (fun x hx y hy => by cases hy; exact hx) fun _ _ hy => by cases hy

theorem andFinally {p : Prog S ε α} {q : Prog S ε Unit} (h : p.Within F P)
    (hq : q.Within F fun _ => True) : (p.andFinally q).Within F P :=
  h.thenE (fun _ hx => hq.thenE (fun _ _ => hx) fun _ => trivial)
    fun _ => hq.thenE (fun _ _ => trivial) fun _ => trivial

theorem pure {x : α} (h : P x) : (Pure.pure x : Prog S ε α).Within F P := h

theorem perform {o : S.Op} (h : F.op o) :
    (Prog.perform o : Prog S ε (S.Out o)).Within F fun _ => True :=
  ⟨h, fun _ => trivial⟩

theorem ask {c : S.Call} (h : F.call c) :
    (Prog.ask c : Prog S ε (S.Ans c)).Within F fun _ => True :=
  ⟨h, fun _ => trivial⟩

theorem start {t : S.Task} (h : F.task t) : (Prog.start t : Prog S ε Unit).Within F fun _ => True :=
  ⟨h, trivial⟩

theorem raiseIf (c : Prop) [Decidable c] (e : ε) :
    (Prog.raiseIf c e : Prog S ε Unit).Within F fun _ => ¬ c := by
  by_cases h : c
  · rw [Prog.raiseIf, if_pos h]
    trivial
  · rw [Prog.raiseIf, if_neg h]
    exact h

theorem orRaise (x : Option α) (e : ε) :
    (Prog.orRaise x e : Prog S ε α).Within F fun y => x = some y := by
  cases x with
  | none => trivial
  | some y => exact rfl

theorem ofExcept (r : Except ε α) : (Prog.ofExcept r : Prog S ε α).Within F fun y => r = .ok y := by
  cases r with
  | ok y => exact rfl
  | error e => trivial

end Within

/-! ## Budgets -/

/-- The program's calls cost at most `n` together, whatever they are answered, as long as its
operations return what they may. -/
def Costs (may : (o : S.Op) → S.Out o → Prop) (price : S.Call → ℕ) : ℕ → Prog S ε α → Prop
  | _, .done _ => True
  | n, .op o k => ∀ x, may o x → Costs may price n (k x)
  | n, .call c k => price c ≤ n ∧ ∀ x, Costs may price (n - price c) (k x)
  | n, .spawn _ k => Costs may price n k

namespace Costs

variable {may : (o : S.Op) → S.Out o → Prop} {price : S.Call → ℕ} {m n : ℕ}

theorem mono {p : Prog S ε α} (h : Costs may price m p) (hle : m ≤ n) : Costs may price n p := by
  induction p generalizing m n with
  | done r => trivial
  | op o k ih => exact fun x hx => ih x (h x hx) hle
  | call c k ih =>
    exact ⟨h.1.trans hle, fun x => ih x (h.2 x) (Nat.sub_le_sub_right hle _)⟩
  | spawn t k ih => exact ih h hle

/-- What follows may cost as much as is left. -/
theorem thenE {p : Prog S ε α} {f : Except ε α → Prog S ε' β} (h : Costs may price m p)
    (hf : ∀ r, Costs may price n (f r)) : Costs may price (m + n) (p.thenE f) := by
  induction p generalizing m with
  | done r => exact (hf r).mono (Nat.le_add_left n m)
  | op o k ih => exact fun x hx => ih x (h x hx)
  | call c k ih =>
    refine ⟨h.1.trans (Nat.le_add_right m n), fun x => ?_⟩
    rw [Nat.sub_add_comm h.1]
    exact ih x (h.2 x)
  | spawn t k ih => exact ih h

theorem bind {p : Prog S ε α} {f : α → Prog S ε β} (h : Costs may price m p)
    (hf : ∀ x, Costs may price n (f x)) : Costs may price (m + n) (p >>= f) :=
  h.thenE fun r => match r with
    | .ok x => hf x
    | .error _ => trivial

/-- After an operation only what it may return matters. -/
theorem perform_bind {o : S.Op} {f : S.Out o → Prog S ε β}
    (hf : ∀ x, may o x → Costs may price n (f x)) :
    Costs may price n ((Prog.perform o : Prog S ε (S.Out o)) >>= f) := hf

theorem tryCatch {p : Prog S ε α} {f : ε → Prog S ε α} (h : Costs may price m p)
    (hf : ∀ e, Costs may price n (f e)) : Costs may price (m + n) (MonadExcept.tryCatch p f) :=
  h.thenE fun r => match r with
    | .ok _ => trivial
    | .error e => hf e

theorem andFinally {p : Prog S ε α} {q : Prog S ε Unit} (h : Costs may price m p)
    (hq : Costs may price n q) : Costs may price (m + n) (p.andFinally q) :=
  h.thenE fun _ => hq.thenE (n := 0) fun r => match r with
    | .ok _ => trivial
    | .error _ => trivial

/-- What makes only calls without a price leaves the whole budget to what follows. -/
theorem after {p : Prog S ε α} {f : α → Prog S ε β} (h : p.Within F P)
    (hfree : ∀ c, F.call c → price c = 0) (hf : ∀ x, P x → Costs may price n (f x)) :
    Costs may price n (p >>= f) := by
  rw [bind_eq]
  induction p with
  | done r =>
    cases r with
    | ok x => exact hf x h
    | error e => trivial
  | op o k ih => exact fun x _ => ih x (h.2 x)
  | call c k ih =>
    refine ⟨(hfree c h.1).trans_le (Nat.zero_le n), fun x => ?_⟩
    rw [hfree c h.1]
    exact ih x (h.2 x)
  | spawn t k ih => exact ih h.2

/-- A program that makes only calls without a price costs nothing. -/
theorem of_within {p : Prog S ε α} (h : p.Within F P) (hfree : ∀ c, F.call c → price c = 0) :
    Costs may price 0 p := by
  induction p with
  | done r => trivial
  | op o k ih => exact fun x _ => ih x (h.2 x)
  | call c k ih =>
    refine ⟨(hfree c h.1).le, fun x => ?_⟩
    rw [hfree c h.1]
    exact ih x (h.2 x)
  | spawn t k ih => exact ih h.2

theorem ask (c : S.Call) : Costs may price (price c) (Prog.ask c : Prog S ε (S.Ans c)) :=
  ⟨le_rfl, fun _ => trivial⟩

end Costs

end Prog

/-! ## What a law leaves free -/

variable {M : Machine S} {L : Law M} {a : Actor S} {w w' : World M} {e : Event M} {s : M.State}
  {ε α : Type} {F : Scope S} {P : α → Prop}

/-- The law asks nothing of what `a` does within `F`. -/
structure Law.Frees (L : Law M) (a : Actor S) (F : Scope S) : Prop where
  did : ∀ w o i out, F.op o → L.did w a o i out
  called : ∀ w c, F.call c → L.called w a c
  spawned : ∀ w t, F.task t → L.spawned w a t

/-- What stays within a scope keeps a law that leaves the scope free. -/
theorem wp_of_within (hL : L.Frees a F) {p : Prog S ε α} (h : p.Within F P) :
    wp L a p (fun r w' => w.hist <:+ w'.hist ∧ ∀ x, r = .ok x → P x) w := by
  induction p generalizing w with
  | done r =>
    refine ⟨List.suffix_rfl, ?_⟩
    rintro x rfl
    exact h
  | op o k ih =>
    refine fun i out s' _ => ⟨hL.did w o i out h.1, ?_⟩
    exact wp_mono (ih out (h.2 out)) fun _ _ hs => hs.imp_left (List.suffix_cons _ _).trans
  | call c k ih =>
    refine ⟨hL.called w c h.1, fun w' ho ans => ?_⟩
    obtain ⟨es, hes, -⟩ := ho.hist
    refine wp_mono (ih ans (h.2 ans)) fun _ _ hs => hs.imp_left (.trans ?_)
    refine .trans ?_ (List.suffix_cons _ _)
    rw [hes]
    exact (List.suffix_cons _ _).trans (List.suffix_append _ _)
  | spawn t k ih =>
    refine ⟨hL.spawned w t h.1, ?_⟩
    exact wp_mono (ih h.2) fun _ _ hs => hs.imp_left (List.suffix_cons _ _).trans

/-! ## Every run -/

/-- The event is one that its actor's task may come to. -/
def Event.Within (F : S.Task → Scope S) : Event M → Prop
  | .did a o .. => (F a.task).op o
  | .called a c _ => (F a.task).call c
  | .spawned a b => (F a.task).task b.task
  | _ => True

/-- The law that every task stays within its scope. -/
def scopeLaw (M : Machine S) (F : S.Task → Scope S) : Law M where
  did _ a o _ _ := (F a.task).op o
  called _ a c := (F a.task).call c
  spawned _ a t := (F a.task).task t
  finished _ _ _ := True

/-- **Every task stays within its scope**, in every run, if its program does. -/
theorem Reach.within {F : S.Task → Scope S} {c : Config M} (h : Reach s c)
    (hbody : ∀ t, (M.body t).Within (F t) fun _ => True) {e : Event M} (he : e ∈ c.w.hist) :
    e.Within F := by
  have hrun : Run (scopeLaw M F) s c.w := h.run fun a w _ =>
    wp_mono (wp_of_within ⟨fun _ _ _ _ => id, fun _ _ => id, fun _ _ => id⟩ (hbody a.task))
      fun _ _ _ => trivial
  obtain ⟨w₀, w₁, -, hn, -⟩ := hrun.past he
  cases e with
  | did | called | spawned => exact hn.lawful
  | _ => trivial

variable (price : S.Call → ℕ)

/-- What an event's call cost the actor with this number. -/
def Event.cost (tid : ℕ) : Event M → ℕ
  | .called a c _ => if a.tid = tid then price c else 0
  | .arrived _ | .spawned .. | .did .. | .answered .. | .finished .. | .stirred .. | .crashed _ => 0

/-- What the calls of the actor with this number have cost. -/
def spentBy (tid : ℕ) (hist : List (Event M)) : ℕ := (hist.map (Event.cost price tid)).sum

variable {price}

theorem spentBy_cons (tid : ℕ) (e : Event M) (hist : List (Event M)) :
    spentBy price tid (e :: hist) = e.cost price tid + spentBy price tid hist := by
  rw [spentBy, List.map_cons, List.sum_cons, spentBy]

theorem cost_of_by {tid : ℕ} (h : e.by? ≠ some tid) : e.cost price tid = 0 := by
  cases e with
  | called a c pre => exact if_neg fun ht => h (congrArg some ht)
  | _ => rfl

/-- Nobody spends while he waits. -/
theorem Others.spentBy_eq {tid : ℕ} (h : Others tid w w') :
    spentBy price tid w'.hist = spentBy price tid w.hist := by
  obtain ⟨es, hes, hby⟩ := h.hist
  have hnone : (es.map (Event.cost price tid)).sum = 0 := by
    refine List.sum_eq_zero fun x hx => ?_
    obtain ⟨e, he, rfl⟩ := List.mem_map.1 hx
    exact cost_of_by (hby e he)
  rw [hes, spentBy, List.map_append, List.sum_append, hnone, Nat.zero_add, spentBy]

/-- The law that a task stays within its budget. -/
def costLaw (M : Machine S) (price : S.Call → ℕ) (task : S.Task) (budget : ℕ) : Law M where
  did _ _ _ _ _ := True
  called w a c := a.task = task → spentBy price a.tid w.hist + price c ≤ budget
  spawned _ _ _ := True
  finished _ _ _ := True

theorem wp_costLaw {may : (o : S.Op) → S.Out o → Prop} {budget n : ℕ} {p : Prog S ε α}
    (hmay : ∀ {o i s out s'}, M.exec o i s = some (out, s') → may o out)
    (h : Prog.Costs may price n p) (hn : spentBy price a.tid w.hist + n ≤ budget) (t : S.Task) :
    wp (costLaw M price t budget) a p (fun _ _ => True) w := by
  induction p generalizing n w with
  | done r => trivial
  | op o k ih =>
    refine fun i out s' hs => ⟨trivial, ih out (h out (hmay hs)) ?_⟩
    rw [World.hist_record, spentBy_cons]
    simpa only [Event.cost, Nat.zero_add] using hn
  | call c k ih =>
    refine ⟨fun _ => le_trans (Nat.add_le_add_left h.1 _) hn, fun w' ho ans => ih ans (h.2 ans) ?_⟩
    have hown : spentBy price a.tid w'.hist = price c + spentBy price a.tid w.hist := by
      rw [ho.spentBy_eq, World.hist_record, spentBy_cons, Event.cost, if_pos rfl]
    have hprice := h.1
    rw [World.hist_record, spentBy_cons, hown]
    simp only [Event.cost]
    omega
  | spawn t k ih =>
    refine ⟨trivial, ih h ?_⟩
    rw [World.hist_record, spentBy_cons]
    simpa only [Event.cost, Nat.zero_add] using hn

/-- A program of another task has no budget to keep. -/
theorem wp_costLaw_of_ne {budget : ℕ} {t : S.Task} (ht : a.task ≠ t) (p : Prog S ε α) :
    wp (costLaw M price t budget) a p (fun _ _ => True) w := by
  induction p generalizing w with
  | done r => trivial
  | op o k ih => exact fun _ out _ _ => ⟨trivial, ih out⟩
  | call c k ih => exact ⟨fun h => absurd h ht, fun _ _ ans => ih ans⟩
  | spawn t k ih => exact ⟨trivial, ih⟩

/-- **A task stays within its budget**, in every run, if its program does. -/
theorem Reach.spentBy_le {may : (o : S.Op) → S.Out o → Prop} {budget : ℕ} {c : Config M}
    (h : Reach s c) (hmay : ∀ {o i s out s'}, M.exec o i s = some (out, s') → may o out)
    (hbody : Prog.Costs may price budget (M.body a.task)) (ha : Joined c.w.hist a) :
    spentBy price a.tid c.w.hist ≤ budget := by
  have hrun : Run (costLaw M price a.task budget) s c.w := h.run fun b w hf => by
    by_cases hb : b.task = a.task
    · refine wp_costLaw hmay (n := budget) (hb ▸ hbody) ?_ _
      rw [spentBy, List.sum_eq_zero fun x hx => ?_, Nat.zero_add]
      obtain ⟨e, he, rfl⟩ := List.mem_map.1 hx
      exact cost_of_by (hf e he)
    · exact wp_costLaw_of_ne hb _
  -- the last call of `a` was within the budget, and nothing since has cost it anything
  have hle : ∀ {w : World M}, Run (costLaw M price a.task budget) s w →
      Follows (costLaw M price a.task budget) w c.w → spentBy price a.tid w.hist ≤ budget := by
    intro w hw
    induction hw with
    | start => exact fun _ => Nat.zero_le _
    | @step w w' e hw hn ih =>
      intro hf
      have hbefore := ih (hn.follows.trans hf)
      rw [hn.hist, spentBy_cons]
      cases e with
      | called b q pre =>
        by_cases hb : b.tid = a.tid
        · have hmem : Event.called b q pre ∈ c.w.hist :=
            hf.mem (by rw [hn.hist]; exact List.mem_cons_self)
          obtain rfl := hrun.actor_eq (hrun.joined hmem rfl) ha hb
          have hl : b.task = b.task → spentBy price b.tid w.hist + price q ≤ budget := hn.lawful
          rw [Event.cost, if_pos rfl, Nat.add_comm]
          exact hl rfl
        · rw [Event.cost, if_neg hb, Nat.zero_add]
          exact hbefore
      | _ => simpa only [Event.cost, Nat.zero_add] using hbefore
  exact hle hrun .refl

end Interleave
