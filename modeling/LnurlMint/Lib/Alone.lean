import LnurlMint.Lib.Machine

/-!
# A program left alone

What a program does when nothing happens beside it: its calls are answered at once, by a fixed
rule, and no other program gets a turn. The result is a function of the state, so a claim about one
round of a periodic task, whatever the outside answers, can be stated and computed without a
schedule. `Prog.solo` is the schedule that does it.

A loop that runs the same program for each element of a list ends at the first that raises, and the
elements after it get no turn. What each element's own turn would have done, had it been given one,
is a second loop that never ends early. `swept_iff` compares the two: they achieve the same exactly
when no turn that fails comes before one that succeeds.

## Main definitions

* `Surroundings` — how calls are answered and what operations read
* `Prog.alone`, `Prog.ended` — running alone, and to no good end
* `Prog.solo` — the choices that give nobody else a turn
* `sweep`, `turns` — the two loops

## Main results

* `Prog.alone_thenE` — running alone is compositional
* `Prog.solo_reaches`, `Prog.solo_restarted` — the loop comes to the same under that schedule
* `swept_iff` — when the loop that ends early achieves all it could
-/

namespace Interleave

variable {S : Sig}

/-- What a program running alone meets: answers to its calls, and the input of each operation, by
how many were done before. -/
structure Surroundings (M : Machine S) where
  answers : (c : S.Call) → S.Ans c
  inputs : ℕ → M.Input

/-- How far a program running alone has come: the operations done, and the state. -/
structure Moment (M : Machine S) where
  ops : ℕ
  st : M.State

variable {M : Machine S} {ε ε' α β : Type}

namespace Prog

/-- Run alone: the moment it ends at, and its outcome, unless an operation never returned. -/
def alone (env : Surroundings M) : Prog S ε α → Moment M → Moment M × Option (Except ε α)
  | .done r, m => (m, some r)
  | .op o k, m =>
    match M.exec o (env.inputs m.ops) m.st with
    | none => (m, none)
    | some (out, s) => (k out).alone env ⟨m.ops + 1, s⟩
  | .call c k, m => (k (env.answers c)).alone env m
  | .spawn _ k, m => k.alone env m

/-- Whether what comes after it gets no turn: it raised, or never returned. -/
def ended : Option (Except ε α) → Bool
  | some (.ok _) => false
  | _ => true

variable {env : Surroundings M}

@[simp] theorem alone_done (r : Except ε α) (m : Moment M) :
    (Prog.done r : Prog S ε α).alone env m = (m, some r) := rfl

@[simp] theorem alone_pure (x : α) (m : Moment M) :
    (pure x : Prog S ε α).alone env m = (m, some (.ok x)) := rfl

@[simp] theorem alone_ask (c : S.Call) (m : Moment M) :
    (ask c : Prog S ε (S.Ans c)).alone env m = (m, some (.ok (env.answers c))) := rfl

@[simp] theorem alone_ofExcept (r : Except ε α) (m : Moment M) :
    (ofExcept r : Prog S ε α).alone env m = (m, some r) := rfl

@[simp] theorem alone_orRaise (x : Option α) (e : ε) (m : Moment M) :
    (orRaise x e : Prog S ε α).alone env m =
      (m, some (match x with | some y => .ok y | none => .error e)) := by
  cases x <;> rfl

@[simp] theorem alone_raiseIf (c : Prop) [Decidable c] (e : ε) (m : Moment M) :
    (raiseIf c e : Prog S ε Unit).alone env m = (m, some (if c then .error e else .ok ())) := by
  unfold raiseIf
  split <;> rfl

/-- **Running alone is compositional.** -/
theorem alone_thenE (p : Prog S ε α) (f : Except ε α → Prog S ε' β) (m : Moment M) :
    (p.thenE f).alone env m =
      match p.alone env m with
      | (m', some r) => (f r).alone env m'
      | (m', none) => (m', none) := by
  induction p generalizing m with
  | done r => rfl
  | op o k ih =>
    simp only [thenE, alone]
    cases M.exec o (env.inputs m.ops) m.st with
    | none => rfl
    | some x => exact ih x.1 ⟨m.ops + 1, x.2⟩
  | call c k ih => exact ih (env.answers c) m
  | spawn t k ih => exact ih m

theorem alone_bind (p : Prog S ε α) (f : α → Prog S ε β) (m : Moment M) :
    (p >>= f).alone env m =
      match p.alone env m with
      | (m', some (.ok a)) => (f a).alone env m'
      | (m', some (.error e)) => (m', some (.error e))
      | (m', none) => (m', none) := by
  rw [bind_eq, alone_thenE]
  rcases p.alone env m with ⟨m', _ | _ | _⟩ <;> rfl

variable (env) in
/-- The choices that run the program of this number alone, to its end. -/
def solo (tid : ℕ) : Prog S ε α → Moment M → List (Choice M)
  | .done _, m => [.step (env.inputs m.ops)]
  | .op o k, m =>
    match M.exec o (env.inputs m.ops) m.st with
    | none => []
    | some (out, s) => .step (env.inputs m.ops) :: (k out).solo tid ⟨m.ops + 1, s⟩
  | .call c k, m =>
    .step (env.inputs m.ops) :: .answer tid env.answers :: (k (env.answers c)).solo tid m
  | .spawn _ k, m => .step (env.inputs m.ops) :: k.solo tid m

variable (env) in
/-- **One schedule runs the program alone.** The program whose turn it is, if no other has its
number, comes to where it comes alone, and ends as it does alone. -/
theorem solo_reaches (p : Prog S M.Err M.Res) {a : Actor S} (n : ℕ) : ∀ {c : Config M},
    c.running = some (a, p) → a.tid < c.w.hist.length → (∀ x ∈ c.pool, x.1.tid ≠ a.tid) →
      ∃ c', c.play (p.solo env a.tid ⟨n, c.w.st⟩) = some c' ∧
        c'.w.st = (p.alone env ⟨n, c.w.st⟩).1.st ∧
        ∀ r, (p.alone env ⟨n, c.w.st⟩).2 = some r →
          ∃ before, c'.w.hist = .finished a r c'.w.st :: before := by
  induction p generalizing n with
  | done r =>
    intro c hrun _ _
    let c₁ : Config M := { c with
      w := c.w.record (.finished a r c.w.st) c.w.st, running := none }
    have hmove : c.move (.step (env.inputs n)) = some c₁ := by
      simp [Config.move, hrun, Config.turn, c₁]
    refine ⟨c₁, ?_, rfl, fun r' hr => ?_⟩
    · rw [solo, Config.play, hmove]
      rfl
    · obtain rfl := Option.some.inj hr
      exact ⟨c.w.hist, rfl⟩
  | op o k ih =>
    intro c hrun htid hpool
    cases hx : M.exec o (env.inputs n) c.w.st with
    | none => exact ⟨c, by simp [solo, hx, Config.play], by simp [alone, hx], by simp [alone, hx]⟩
    | some x =>
      let c₁ : Config M := { c with
        w := c.w.record (.did a o (env.inputs n) x.1 c.w.st) x.2, running := some (a, k x.1) }
      have hmove : c.move (.step (env.inputs n)) = some c₁ := by
        simp [Config.move, hrun, Config.turn, hx, c₁]
      obtain ⟨c', hplay, hend⟩ := ih x.1 (n + 1) (c := c₁) rfl (Nat.lt_succ_of_lt htid) hpool
      refine ⟨c', ?_, ?_⟩
      · simp only [solo, hx, Config.play, hmove]
        exact hplay
      · simp only [alone, hx]
        exact hend
  | call q k ih =>
    intro c hrun htid hpool
    let c₁ : Config M := {
      w := c.w.record (.called a q c.w.st) c.w.st
      running := none
      pool := c.pool ++ [(a, .waiting q k)] }
    let c₂ : Config M := {
      w := c₁.w.record (.answered a q (env.answers q) c₁.w.st) c₁.w.st
      running := some (a, k (env.answers q))
      pool := c₁.others a.tid }
    have hcall : c.move (.step (env.inputs n)) = some c₁ := by
      simp [Config.move, hrun, Config.turn, c₁]
    -- nobody else in the pool has its number, so it is the one that is found there
    have hparked : c₁.parked a.tid = some (a, .waiting q k) := by
      have hnone : c.pool.find? (fun x => decide (x.1.tid = a.tid)) = none := by
        simpa using hpool
      simp [Config.parked, c₁, List.find?_append, hnone]
    have hanswer : c₁.move (.answer a.tid env.answers) = some c₂ := by
      have hnone : c₁.running = none := rfl
      simp [Config.move, hnone, hparked, c₂]
    obtain ⟨c', hplay, hend⟩ := ih (env.answers q) n (c := c₂) rfl
      (Nat.lt_succ_of_lt (Nat.lt_succ_of_lt htid)) (by simp [c₂, Config.others])
    refine ⟨c', ?_, hend⟩
    rw [solo, Config.play, hcall]
    show Config.play c₁ _ = _
    rw [Config.play, hanswer]
    exact hplay
  | spawn t k ih =>
    intro c hrun htid hpool
    let b : Actor S := ⟨c.w.hist.length, t⟩
    let c₁ : Config M := {
      w := c.w.record (.spawned a b) c.w.st
      running := some (a, k)
      pool := c.pool ++ [(b, .ready)] }
    have hmove : c.move (.step (env.inputs n)) = some c₁ := by
      simp [Config.move, hrun, Config.turn, c₁, b]
    have hpool₁ : ∀ x ∈ c₁.pool, x.1.tid ≠ a.tid := by
      intro x hx
      rcases List.mem_append.1 hx with hx | hx
      · exact hpool x hx
      · rw [List.mem_singleton.1 hx]
        exact Nat.ne_of_gt htid
    obtain ⟨c', hplay, hend⟩ := ih n (c := c₁) rfl (Nat.lt_succ_of_lt htid) hpool₁
    refine ⟨c', ?_, hend⟩
    rw [solo, Config.play, hmove]
    exact hplay

variable (M env) in
/-- The process dies in this world, a task arrives, and it is run alone to its end. -/
def restarted (t : S.Task) (w : World M) : List (Choice M) :=
  .crash :: .arrive t :: .wake (w.hist.length + 1) ::
    (M.body t).solo env (w.hist.length + 1) ⟨0, M.restart w.pending w.st⟩

variable (env) in
/-- After the process has died, a task that may arrive is run alone by that schedule, whatever was
going on before. -/
theorem solo_restarted {t : S.Task} (ht : M.external t = true) (c : Config M) :
    ∃ c', c.play (restarted M env t c.w) = some c' ∧
      c'.w.st = ((M.body t).alone env ⟨0, M.restart c.w.pending c.w.st⟩).1.st ∧
      ∀ r, ((M.body t).alone env ⟨0, M.restart c.w.pending c.w.st⟩).2 = some r →
        ∃ before, c'.w.hist = .finished ⟨c.w.hist.length + 1, t⟩ r c'.w.st :: before := by
  let a : Actor S := ⟨c.w.hist.length + 1, t⟩
  let c₁ : Config M :=
    ⟨c.w.record (.crashed c.w.st) (M.restart c.w.pending c.w.st), none, []⟩
  let c₂ : Config M := { c₁ with w := c₁.w.record (.arrived a) c₁.w.st, pool := [(a, .ready)] }
  let c₃ : Config M := { c₂ with running := some (a, M.body t), pool := [] }
  have harrive : c₁.move (.arrive t) = some c₂ := by
    simp only [Config.move, c₁, c₂, ht, if_true]
    rfl
  have hwake : c₂.move (.wake a.tid) = some c₃ := by
    simp [Config.move, Config.parked, Config.others, c₂, c₃, c₁, a]
  obtain ⟨c', hplay, hend⟩ := solo_reaches env (M.body t) (a := a) 0 (c := c₃) rfl
    (Nat.lt_succ_self _) (by simp [c₃])
  refine ⟨c', ?_, hend⟩
  show (c₁.move (.arrive t)).bind _ = _
  rw [harrive]
  show (c₂.move (.wake a.tid)).bind _ = _
  rw [hwake]
  exact hplay

end Prog

/-! ## Loops that end early -/

section Sweep

variable {σ κ : Type} (turn : σ → κ → σ) (ends : σ → κ → Prop) [∀ s x, Decidable (ends s x)]

/-- Each element has its turn, until one ends the loop. -/
def sweep (s : σ) : List κ → σ
  | [] => s
  | x :: xs => if ends s x then turn s x else sweep (turn s x) xs

/-- Each element has its turn. -/
def turns (s : σ) (xs : List κ) : σ := xs.foldl turn s

variable {turn ends} {s : σ}

@[simp] theorem turns_cons (x : κ) (xs : List κ) :
    turns turn s (x :: xs) = turns turn (turn s x) xs := rfl

@[simp] theorem turns_nil : turns turn s [] = s := rfl

/-- What every turn keeps, the loop keeps. -/
theorem sweep_keep {P : σ → Prop} (hkeep : ∀ s x, P s → P (turn s x)) (xs : List κ) :
    ∀ {s}, P s → P (sweep turn ends s xs) := by
  induction xs with
  | nil => exact id
  | cons x xs ih =>
    intro s hs
    by_cases hx : ends s x
    · rw [sweep, if_pos hx]
      exact hkeep s x hs
    · rw [sweep, if_neg hx]
      exact ih (hkeep s x hs)

variable (turn) in
/-- Turns of others keep what they keep. -/
theorem turns_keep (r : κ → κ → Prop) {P : κ → σ → Prop}
    (hkeep : ∀ s x y, r y x → P x s → P x (turn s y)) {x : κ} (xs : List κ) :
    ∀ {s}, (∀ y ∈ xs, r y x) → P x s → P x (turns turn s xs) := by
  induction xs with
  | nil => exact fun _ hs => hs
  | cons y xs ih =>
    intro s hx hs
    rw [List.forall_mem_cons] at hx
    exact ih hx.2 (hkeep s x y hx.1 hs)

variable (turn ends) in
/-- **When the loop achieves all it could.** Let a turn achieve something for its own element alone,
which later turns keep; `r y x` says that `y` is another element than `x`. Then whatever an
element's own turn achieves, the loop achieves, exactly when no turn that ends the loop comes before
one that achieves something. -/
theorem swept_iff (r : κ → κ → Prop) (fresh done : κ → σ → Prop)
    (hnot : ∀ s x, fresh x s → ¬ done x s)
    (hfresh : ∀ s x y, r y x → fresh x s → fresh x (turn s y))
    (hkeep : ∀ s x y, done x s → done x (turn s y)) : ∀ {xs : List κ} {s : σ}, xs.Pairwise r →
      (∀ x ∈ xs, fresh x s) →
    ((∀ l x r, xs = l ++ x :: r → done x (turn (turns turn s l) x) →
        done x (sweep turn ends s xs)) ↔
      ∀ l x m y r, xs = l ++ x :: (m ++ y :: r) → ends (turns turn s l) x →
        ¬ done y (turn (turns turn s (l ++ x :: m)) y)) := by
  intro xs
  induction xs with
  | nil => intro s _ _; simp
  | cons z xs ih =>
    intro s hpair hall
    obtain ⟨hz, hpair⟩ := List.pairwise_cons.1 hpair
    have hall' : ∀ x ∈ xs, fresh x (turn s z) := by
      intro x hx
      exact hfresh s x z (hz x hx) (hall x (List.mem_cons_of_mem _ hx))
    by_cases hends : ends s z
    · -- the loop ends here, and nothing is achieved for the others
      rw [sweep, if_pos hends]
      constructor
      · intro hdone l x m y r heq _ hy
        have hmem : y ∈ xs := by
          cases l with
          | nil => obtain ⟨-, rfl⟩ := List.cons.inj heq; simp
          | cons z' l => obtain ⟨-, rfl⟩ := List.cons.inj heq; simp
        exact hnot _ y (hall' y hmem) (hdone (l ++ x :: m) y r (by simpa using heq) hy)
      · intro hnone l x r heq hx
        cases l with
        | nil =>
          obtain ⟨rfl, -⟩ := List.cons.inj heq
          exact hx
        | cons z' l =>
          obtain ⟨rfl, hxs⟩ := List.cons.inj heq
          exact absurd hx (hnone [] z l x r (by rw [hxs]; rfl) hends)
    · rw [sweep, if_neg hends]
      have hrest := ih hpair hall'
      constructor
      · intro hdone l x m y r heq hx
        cases l with
        | nil =>
          obtain ⟨rfl, -⟩ := List.cons.inj heq
          exact absurd hx hends
        | cons z' l =>
          obtain ⟨rfl, hxs⟩ := List.cons.inj heq
          refine hrest.1 ?_ l x m y r hxs hx
          intro l' x' r' hxs' hx'
          exact hdone (z :: l') x' r' (by rw [hxs']; rfl) hx'
      · intro hnone l x r heq hx
        cases l with
        | nil =>
          obtain ⟨rfl, -⟩ := List.cons.inj heq
          exact sweep_keep (hkeep · z ·) xs hx
        | cons z' l =>
          obtain ⟨rfl, hxs⟩ := List.cons.inj heq
          refine hrest.2 ?_ l x r hxs hx
          intro l' x' m y r' hxs' hx'
          exact hnone (z :: l') x' m y r' (by rw [hxs']; rfl) hx'

end Sweep

end Interleave
