import LnurlMint.Lib.Footprint

/-!
# Counting what is under way

A shared counter often says how many programs of a kind there are: one is added when such a program
is scheduled, and taken off when it is done. Both happen inside programs, so between the two acts of
one turn the counter is wrong, and it stays wrong if the turn ends there.

`Prog.Owes` checks on the program alone what it accounts for: what it has added, and neither taken
off nor handed to a task that it spawned. A program may give way only while it accounts for what its
task does from the start, and nothing is left to account for when it is done. Then at every moment
at which nobody runs, the counter is the sum over the tasks there are; and while a program runs, it
is off by no more than what such a program ever accounts for.

## Main definitions

* `Counter` — a counter, and what operations and tasks have to do with it
* `Prog.Owes` — a program keeps track

## Main results

* `Reach.counted` — the counter is the sum over the tasks there are
-/

namespace Interleave

variable {S : Sig} {M : Machine S}

/-- A counter that the machine's programs keep. -/
structure Counter (M : Machine S) where
  /-- Its value. -/
  value : M.State → ℕ
  /-- What an operation adds to it. -/
  gain : S.Op → ℤ
  /-- What a task accounts for from the start. -/
  owed : S.Task → ℕ
  /-- What it accounts for at most. -/
  most : S.Task → ℕ
  /-- The tasks that may be spawned. -/
  sound : S.Task → Prop
  value_exec : ∀ {o i s out s'}, M.exec o i s = some (out, s') → 0 ≤ value s + gain o →
    (value s' : ℤ) = value s + gain o
  value_stir : ∀ {m cs s s'}, M.stir m cs s = some s' → value s' = value s
  value_restart : ∀ cs s, value (M.restart cs s) = 0
  external : ∀ {t}, M.external t = true → sound t ∧ owed t = 0
  owed_le_most : ∀ t, owed t ≤ most t

namespace Prog

variable {C : Counter M} {ε ε' α β : Type} {most rest n m : ℕ}
  {P P' : Except ε α → ℕ → Prop} {Q : Except ε β → ℕ → Prop}

/-- A program that accounts for `n`, and never for more than `most`: it gives way only while it
accounts for `rest`, and `P` holds of its outcome and of what it accounts for in the end. -/
def Owes (C : Counter M) (most rest : ℕ) (P : Except ε α → ℕ → Prop) : ℕ → Prog S ε α → Prop
  | n, .done r => P r n
  | n, .op o k => ∃ m : ℕ, (m : ℤ) = n + C.gain o ∧ m ≤ most ∧
    ∀ x, (k x).Owes C most rest P m
  | n, .call _ k => n = rest ∧ ∀ x, (k x).Owes C most rest P n
  | n, .spawn t k => C.sound t ∧ ∃ m, m + C.owed t = n ∧ k.Owes C most rest P m

namespace Owes

theorem mono {p : Prog S ε α} (h : p.Owes C most rest P n) (hP : ∀ r m, P r m → P' r m) :
    p.Owes C most rest P' n := by
  induction p generalizing n with
  | done r => exact hP r n h
  | op o k ih =>
    obtain ⟨m, hm, hle, hk⟩ := h
    exact ⟨m, hm, hle, fun x => ih x (hk x)⟩
  | call c k ih => exact ⟨h.1, fun x => ih x (h.2 x)⟩
  | spawn t k ih =>
    obtain ⟨ht, m, hm, hk⟩ := h
    exact ⟨ht, m, hm, ih hk⟩

theorem thenE {p : Prog S ε α} {f : Except ε α → Prog S ε' β} {Q : Except ε' β → ℕ → Prop}
    (h : p.Owes C most rest P n) (hf : ∀ r m, P r m → (f r).Owes C most rest Q m) :
    (p.thenE f).Owes C most rest Q n := by
  induction p generalizing n with
  | done r => exact hf r n h
  | op o k ih =>
    obtain ⟨m, hm, hle, hk⟩ := h
    exact ⟨m, hm, hle, fun x => ih x (hk x)⟩
  | call c k ih => exact ⟨h.1, fun x => ih x (h.2 x)⟩
  | spawn t k ih =>
    obtain ⟨ht, m, hm, hk⟩ := h
    exact ⟨ht, m, hm, ih hk⟩

theorem bind {p : Prog S ε α} {f : α → Prog S ε β} (h : p.Owes C most rest P n)
    (hok : ∀ x m, P (.ok x) m → (f x).Owes C most rest Q m)
    (herr : ∀ e m, P (.error e) m → Q (.error e) m) : (p >>= f).Owes C most rest Q n :=
  h.thenE fun r m hr => match r with
    | .ok x => hok x m hr
    | .error e => herr e m hr

/-- What has nothing to do with the counter leaves alone what is accounted for. -/
theorem of_within {F : Scope S} {A : α → Prop} {p : Prog S ε α} (h : p.Within F A)
    (hn : n ≤ most) (hop : ∀ o, F.op o → C.gain o = 0) (hcall : ∀ c, F.call c → n = rest)
    (htask : ∀ t, F.task t → C.sound t ∧ C.owed t = 0) :
    p.Owes C most rest (fun r m => m = n ∧ ∀ x, r = .ok x → A x) n := by
  induction p with
  | done r =>
    refine ⟨rfl, ?_⟩
    rintro x rfl
    exact h
  | op o k ih => exact ⟨n, by rw [hop o h.1, add_zero], hn, fun x => ih x (h.2 x)⟩
  | call c k ih => exact ⟨hcall c h.1, fun x => ih x (h.2 x)⟩
  | spawn t k ih =>
    obtain ⟨ht, hz⟩ := htask t h.1
    exact ⟨ht, n, by rw [hz, add_zero], ih h.2⟩

end Owes

end Prog

/-! ## Every run -/

variable (C : Counter M)

/-- The program that a task runs accounts for nothing in the end. -/
abbrev Prog.Clears (t : S.Task) (n : ℕ) (p : Prog S M.Err M.Res) : Prop :=
  p.Owes C (C.most t) (C.owed t) (fun _ m => m = 0) n

/-- What the tasks there are account for. -/
def Counter.total (pool : List (Actor S × Phase M)) : ℕ := (pool.map fun x => C.owed x.1.task).sum

/-- A program that is not running accounts for what its task does. -/
def Phase.Clears (t : S.Task) : Phase M → Prop
  | .ready => C.sound t
  | .waiting _ k => ∀ ans, (k ans).Clears C t (C.owed t)

/-- The counter is what the tasks account for, and what the running program does. -/
structure Config.Counted (c : Config M) : Prop where
  pool : ∀ x ∈ c.pool, x.2.Clears C x.1.task
  running : ∃ n, C.value c.w.st = C.total c.pool + n ∧ (c.running = none → n = 0) ∧
    ∀ a p, c.running = some (a, p) → n ≤ C.most a.task ∧ p.Clears C a.task n

variable {C} {L : Law M} {s : M.State} {c c' : Config M}

theorem Counter.total_append (pool : List (Actor S × Phase M)) (x : Actor S × Phase M) :
    C.total (pool ++ [x]) = C.total pool + C.owed x.1.task := by
  simp [Counter.total]

theorem Counter.total_eq_add {pool : List (Actor S × Phase M)} {x : Actor S × Phase M}
    (hd : (pool.map fun x => x.1.tid).Nodup) (hx : x ∈ pool) :
    C.total pool = C.total (pool.filter fun y => y.1.tid ≠ x.1.tid) + C.owed x.1.task := by
  induction pool with
  | nil => cases hx
  | cons y pool ih =>
    obtain ⟨hy, hd⟩ := List.nodup_cons.1 hd
    rcases List.mem_cons.1 hx with rfl | hx
    · have hall : ∀ z ∈ pool, z.1.tid ≠ x.1.tid := fun z hz he =>
        hy (List.mem_map.2 ⟨z, hz, he⟩)
      rw [List.filter_cons_of_neg (by simp), List.filter_eq_self.2 fun z hz => by
        simpa using hall z hz]
      simp only [Counter.total, List.map_cons, List.sum_cons]
      omega
    · have hne : y.1.tid ≠ x.1.tid := fun he => hy (List.mem_map.2 ⟨x, hx, he.symm⟩)
      rw [List.filter_cons_of_pos (by simpa using hne)]
      have := ih hd hx
      simp only [Counter.total, List.map_cons, List.sum_cons] at this ⊢
      omega

theorem Reach.sound (h : Reach s c)
    (hbody : ∀ a w, Fresh w a.tid → wp L a (M.body a.task) (fun r w => L.finished w a r) w) :
    c.Sound L s := by
  induction h with
  | start => exact .start s
  | move ch _ hm ih => exact ih.move hbody hm

/-- A turn of the running program keeps the count. -/
theorem Config.Counted.turn {a : Actor S} {p : Prog S M.Err M.Res} {i : M.Input}
    (h : c.Counted C) (hr : c.running = some (a, p)) (ht : c.turn a i p = some c') :
    c'.Counted C := by
  obtain ⟨hpool, n, hn, -, hrun⟩ := h
  obtain ⟨hn₁, hp⟩ := hrun a p hr
  cases p with
  | done r =>
    obtain rfl := Option.some.inj ht
    refine ⟨hpool, 0, ?_, fun _ => rfl, by simp⟩
    rw [Nat.add_zero]
    exact hn.trans (by rw [show n = 0 from hp, Nat.add_zero])
  | op o k =>
    obtain ⟨⟨out, s'⟩, hx, rfl⟩ := Option.map_eq_some_iff.1 ht
    obtain ⟨m, hm, hle, hk⟩ := hp
    have hvalue := C.value_exec hx (by omega)
    refine ⟨hpool, m, ?_, by simp, ?_⟩
    · show C.value s' = C.total c.pool + m
      omega
    · rintro _ _ ⟨⟩
      exact ⟨hle, hk out⟩
  | call q k =>
    obtain rfl := Option.some.inj ht
    obtain ⟨rfl, hk⟩ := hp
    refine ⟨fun x hx => ?_, 0, ?_, fun _ => rfl, by simp⟩
    · rcases List.mem_append.1 hx with hx | hx
      · exact hpool x hx
      · rw [List.mem_singleton.1 hx]
        exact hk
    · rw [Counter.total_append, Nat.add_zero]
      exact hn
  | spawn t k =>
    obtain rfl := Option.some.inj ht
    obtain ⟨hsound, m, hm, hk⟩ := hp
    refine ⟨fun x hx => ?_, m, ?_, by simp, ?_⟩
    · rcases List.mem_append.1 hx with hx | hx
      · exact hpool x hx
      · rw [List.mem_singleton.1 hx]
        exact hsound
    · rw [Counter.total_append]
      show C.value c.w.st = C.total c.pool + C.owed t + m
      omega
    · rintro _ _ ⟨⟩
      exact ⟨by omega, hk⟩

/-- Every move of the loop keeps the count. -/
theorem Config.Counted.move {ch : Choice M} (h : c.Counted C) (hs : c.Sound L s)
    (hm : c.move ch = some c')
    (hbody : ∀ t, C.sound t → (M.body t).Clears C t (C.owed t)) :
    c'.Counted C := by
  cases ch with
  | step i =>
    cases hr : c.running with
    | none => simp [Config.move, hr] at hm
    | some x =>
      exact h.turn hr (by simpa [Config.move, hr] using hm)
  | crash =>
    simp only [Config.move, Option.some.injEq] at hm
    subst hm
    refine ⟨by simp, 0, ?_, fun _ => rfl, by simp⟩
    exact C.value_restart _ _
  | arrive t =>
    cases hr : c.running with
    | some x => simp [Config.move, hr] at hm
    | none =>
      obtain ⟨hx, rfl⟩ : M.external t = true ∧ _ = c' := by simpa [Config.move, hr] using hm
      obtain ⟨hsound, hzero⟩ := C.external hx
      obtain ⟨hpool, n, hn, hnone, -⟩ := h
      refine ⟨fun x hx => ?_, 0, ?_, fun _ => rfl, by simp⟩
      · rcases List.mem_append.1 hx with hx | hx
        · exact hpool x hx
        · rw [List.mem_singleton.1 hx]
          exact hsound
      · rw [Counter.total_append, hzero]
        exact hn.trans (by rw [hnone hr])
  | stir m =>
    cases hr : c.running with
    | some x => simp [Config.move, hr] at hm
    | none =>
      obtain ⟨s', hx, rfl⟩ : ∃ s', M.stir m c.w.pending c.w.st = some s' ∧ _ = c' := by
        simpa [Config.move, hr] using hm
      obtain ⟨hpool, n, hn, hnone, -⟩ := h
      exact ⟨hpool, n, (C.value_stir hx).trans hn, fun _ => hnone hr, by simp⟩
  | wake tid =>
    cases hr : c.running with
    | some x => simp [Config.move, hr] at hm
    | none =>
      cases hp : c.parked tid with
      | none => simp [Config.move, hr, hp] at hm
      | some x =>
        obtain ⟨a, _ | ⟨q, k⟩⟩ := x
        · obtain rfl : _ = c' := by simpa [Config.move, hr, hp] using hm
          obtain ⟨hx, rfl⟩ := Config.mem_of_parked hp
          obtain ⟨hpool, n, hn, hnone, -⟩ := h
          refine ⟨fun x hx => hpool x (Config.mem_others.1 hx).1, C.owed a.task, ?_, by simp, ?_⟩
          · have hsum := Counter.total_eq_add (C := C) hs.distinct hx
            rw [hnone hr, Nat.add_zero] at hn
            exact hn.trans hsum
          · rintro _ _ ⟨⟩
            exact ⟨C.owed_le_most _, hbody a.task (hpool _ hx)⟩
        · simp [Config.move, hr, hp] at hm
  | answer tid rule =>
    cases hr : c.running with
    | some x => simp [Config.move, hr] at hm
    | none =>
      cases hp : c.parked tid with
      | none => simp [Config.move, hr, hp] at hm
      | some x =>
        obtain ⟨a, _ | ⟨q, k⟩⟩ := x
        · simp [Config.move, hr, hp] at hm
        · obtain rfl : _ = c' := by simpa [Config.move, hr, hp] using hm
          obtain ⟨hx, rfl⟩ := Config.mem_of_parked hp
          obtain ⟨hpool, n, hn, hnone, -⟩ := h
          refine ⟨fun x hx => hpool x (Config.mem_others.1 hx).1, C.owed a.task, ?_, by simp, ?_⟩
          · have hsum := Counter.total_eq_add (C := C) hs.distinct hx
            rw [hnone hr, Nat.add_zero] at hn
            exact hn.trans hsum
          · rintro _ _ ⟨⟩
            exact ⟨C.owed_le_most _, hpool _ hx (rule q)⟩

variable (C) in
/-- **The counter is the sum over the tasks there are**, at every moment at which nobody runs, if
every program keeps track. -/
theorem Reach.counted (h : Reach s c) (hs : C.value s = 0)
    (hlaw : ∀ a w, Fresh w a.tid → wp L a (M.body a.task) (fun r w => L.finished w a r) w)
    (hbody : ∀ t, C.sound t → (M.body t).Clears C t (C.owed t)) : c.Counted C := by
  induction h with
  | start => exact ⟨by simp [Config.start], 0, hs, fun _ => rfl, by simp [Config.start]⟩
  | move ch h hm ih => exact ih.move (h.sound hlaw) hm hbody

end Interleave
