import LnurlMint.Lib.Footprint

/-!
# Rules about a program's own past

Many a rule of conduct looks back: pay only what was approved before, answer only what was read.
Such a rule speaks of one program's own acts, so it can be checked on the program alone, whatever
others do in between, and it needs no invariant of the shared state.

A program's acts are what it did and was told, newest first. `Prog.Keeps` checks a rule along every
path of the tree, and ends with what the acts and the outcome show together. In a run the acts of an
actor can be read off the history, so a rule that every task's program keeps is kept by every event
of every run.

## Main definitions

* `Act`, `acts` — a program's acts, and an actor's in a history
* `Rule`, `Prog.Keeps`

## Main results

* `Prog.Keeps.of_within`, `Prog.Keeps.of_within_acts` — what stays in a scope that the rule allows
* `Reach.conduct` — a rule that every program keeps is kept in every run
-/

namespace Interleave

variable {S : Sig}

/-- What a program did, and what it was told. -/
inductive Act (S : Sig)
  /-- It did an operation. -/
  | did (o : S.Op) (out : S.Out o)
  /-- It made a call and was answered. -/
  | heard (c : S.Call) (ans : S.Ans c)
  /-- It spawned a task. -/
  | spawned (t : S.Task)

/-- What a program may do, and what it may return, after these acts. -/
structure Rule (S : Sig) (α : Type) where
  /-- The operations. -/
  op : List (Act S) → S.Op → Prop
  /-- The calls. -/
  call : List (Act S) → S.Call → Prop
  /-- The tasks to spawn. -/
  task : List (Act S) → S.Task → Prop
  /-- The values to return. -/
  value : List (Act S) → α → Prop

/-- The rule allows all that is within `F`, at any time. -/
structure Rule.Allows {α : Type} (R : Rule S α) (F : Scope S) : Prop where
  op : ∀ t o, F.op o → R.op t o
  call : ∀ t c, F.call c → R.call t c
  task : ∀ t s, F.task s → R.task t s

/-- The act is within the scope. -/
def Scope.covers (F : Scope S) : Act S → Prop
  | .did o _ => F.op o
  | .heard c _ => F.call c
  | .spawned t => F.task t

namespace Prog

variable {ε ε' α β γ : Type} {R : Rule S γ} {t : List (Act S)} {P P' : α → List (Act S) → Prop}
  {Q : β → List (Act S) → Prop}

/-- From these acts on the program keeps the rule, and `P` holds of what it returns and its acts by
then. -/
def Keeps (R : Rule S γ) (P : α → List (Act S) → Prop) : List (Act S) → Prog S ε α → Prop
  | t, .done (.ok x) => P x t
  | _, .done (.error _) => True
  | t, .op o k => R.op t o ∧ ∀ x, (k x).Keeps R P (.did o x :: t)
  | t, .call c k => R.call t c ∧ ∀ x, (k x).Keeps R P (.heard c x :: t)
  | t, .spawn s k => R.task t s ∧ k.Keeps R P (.spawned s :: t)

namespace Keeps

theorem mono {p : Prog S ε α} (h : p.Keeps R P t) (hP : ∀ x t', t <:+ t' → P x t' → P' x t') :
    p.Keeps R P' t := by
  induction p generalizing t with
  | done r =>
    cases r with
    | ok x => exact hP x t List.suffix_rfl h
    | error e => trivial
  | op o k ih =>
    exact ⟨h.1, fun x => ih x (h.2 x) fun y t' ht => hP y t' ((List.suffix_cons _ _).trans ht)⟩
  | call c k ih =>
    exact ⟨h.1, fun x => ih x (h.2 x) fun y t' ht => hP y t' ((List.suffix_cons _ _).trans ht)⟩
  | spawn s k ih =>
    exact ⟨h.1, ih h.2 fun y t' ht => hP y t' ((List.suffix_cons _ _).trans ht)⟩

theorem thenE {p : Prog S ε α} {f : Except ε α → Prog S ε' β} (h : p.Keeps R P t)
    (hok : ∀ x t', t <:+ t' → P x t' → (f (.ok x)).Keeps R Q t')
    (herr : ∀ e t', t <:+ t' → (f (.error e)).Keeps R Q t') : (p.thenE f).Keeps R Q t := by
  induction p generalizing t with
  | done r =>
    cases r with
    | ok x => exact hok x t List.suffix_rfl h
    | error e => exact herr e t List.suffix_rfl
  | op o k ih =>
    exact ⟨h.1, fun x => ih x (h.2 x)
      (fun y t' ht => hok y t' ((List.suffix_cons _ _).trans ht))
      fun e t' ht => herr e t' ((List.suffix_cons _ _).trans ht)⟩
  | call c k ih =>
    exact ⟨h.1, fun x => ih x (h.2 x)
      (fun y t' ht => hok y t' ((List.suffix_cons _ _).trans ht))
      fun e t' ht => herr e t' ((List.suffix_cons _ _).trans ht)⟩
  | spawn s k ih =>
    exact ⟨h.1, ih h.2 (fun y t' ht => hok y t' ((List.suffix_cons _ _).trans ht))
      fun e t' ht => herr e t' ((List.suffix_cons _ _).trans ht)⟩

theorem bind {p : Prog S ε α} {f : α → Prog S ε β} (h : p.Keeps R P t)
    (hf : ∀ x t', t <:+ t' → P x t' → (f x).Keeps R Q t') : (p >>= f).Keeps R Q t :=
  h.thenE hf fun _ _ _ => trivial

theorem tryCatch {p : Prog S ε α} {f : ε → Prog S ε α} (h : p.Keeps R P t)
    (hf : ∀ e t', t <:+ t' → (f e).Keeps R P t') : (MonadExcept.tryCatch p f).Keeps R P t :=
  h.thenE (fun _ _ _ hx => hx) hf

theorem attempt {p : Prog S ε α} (h : p.Keeps R P t) :
    (p.attempt : Prog S ε' (Except ε α)).Keeps R (fun r t' => ∀ x, r = .ok x → P x t') t :=
  h.thenE (fun x _ _ hx y hy => by cases hy; exact hx) fun _ _ _ _ hy => by cases hy

theorem andFinally {p : Prog S ε α} {q : Prog S ε Unit} (h : p.Keeps R P t)
    (hP : ∀ x t' t'', t' <:+ t'' → P x t' → P x t'')
    (hq : ∀ t', t <:+ t' → q.Keeps R (fun _ _ => True) t') : (p.andFinally q).Keeps R P t :=
  h.thenE
    (fun x t' ht hx => (hq t' ht).thenE (fun _ t'' ht' _ => hP x t' t'' ht' hx)
      fun _ _ _ => trivial)
    fun _ t' ht => (hq t' ht).thenE (fun _ _ _ _ => trivial) fun _ _ _ => trivial

theorem pure {x : α} (h : P x t) : (Pure.pure x : Prog S ε α).Keeps R P t := h

theorem perform {o : S.Op} (h : R.op t o) :
    (Prog.perform o : Prog S ε (S.Out o)).Keeps R (fun x t' => t' = .did o x :: t) t :=
  ⟨h, fun _ => rfl⟩

theorem ask {c : S.Call} (h : R.call t c) :
    (Prog.ask c : Prog S ε (S.Ans c)).Keeps R (fun x t' => t' = .heard c x :: t) t :=
  ⟨h, fun _ => rfl⟩

/-- What stays in a scope that the rule allows keeps the rule. -/
theorem of_within {F : Scope S} {P : α → Prop} {p : Prog S ε α} (hR : R.Allows F)
    (h : p.Within F P) : p.Keeps R (fun x _ => P x) t := by
  induction p generalizing t with
  | done r =>
    cases r with
    | ok x => exact h
    | error e => trivial
  | op o k ih => exact ⟨hR.op t o h.1, fun x => ih x (h.2 x)⟩
  | call c k ih => exact ⟨hR.call t c h.1, fun x => ih x (h.2 x)⟩
  | spawn s k ih => exact ⟨hR.task t s h.1, ih h.2⟩

/-- And all that it does meanwhile is in the scope. -/
theorem of_within_acts {F : Scope S} {P : α → Prop} {p : Prog S ε α} (hR : R.Allows F)
    (h : p.Within F P) :
    p.Keeps R (fun x t' => P x ∧ ∃ since, t' = since ++ t ∧ ∀ y ∈ since, F.covers y) t := by
  have later : ∀ {t : List (Act S)} {y : Act S} {x : α} {t' : List (Act S)}, F.covers y →
      (P x ∧ ∃ since, t' = since ++ y :: t ∧ ∀ z ∈ since, F.covers z) →
      P x ∧ ∃ since, t' = since ++ t ∧ ∀ z ∈ since, F.covers z := by
    rintro t y x t' hy ⟨hx, since, rfl, hsince⟩
    refine ⟨hx, since ++ [y], by rw [List.append_assoc, List.singleton_append], fun z hz => ?_⟩
    rcases List.mem_append.1 hz with hz | hz
    · exact hsince z hz
    · rwa [List.mem_singleton.1 hz]
  induction p generalizing t with
  | done r =>
    cases r with
    | ok x => exact ⟨h, [], rfl, by simp⟩
    | error e => trivial
  | op o k ih =>
    exact ⟨hR.op t o h.1, fun x => (ih x (h.2 x)).mono fun _ _ _ =>
      later (y := .did o x) h.1⟩
  | call c k ih =>
    exact ⟨hR.call t c h.1, fun x => (ih x (h.2 x)).mono fun _ _ _ =>
      later (y := .heard c x) h.1⟩
  | spawn s k ih =>
    exact ⟨hR.task t s h.1, (ih h.2).mono fun _ _ _ => later (y := .spawned s) h.1⟩

end Keeps

end Prog

/-! ## Runs -/

variable {M : Machine S} {L L' : Law M} {s : M.State} {w w' : World M} {a : Actor S}

/-- What an event tells of the actor with this number. -/
def Event.act? (tid : ℕ) : Event M → Option (Act S)
  | .did a o _ out _ => if a.tid = tid then some (.did o out) else none
  | .answered a c ans _ => if a.tid = tid then some (.heard c ans) else none
  | .spawned a b => if a.tid = tid then some (.spawned b.task) else none
  | _ => none

/-- The acts of the actor with this number. -/
def acts (tid : ℕ) (hist : List (Event M)) : List (Act S) := hist.filterMap (Event.act? tid)

theorem acts_cons (tid : ℕ) (e : Event M) (hist : List (Event M)) :
    acts tid (e :: hist) = (e.act? tid).toList ++ acts tid hist := by
  rw [acts, List.filterMap_cons]
  cases e.act? tid <;> rfl

theorem act?_of_by {tid : ℕ} {e : Event M} (h : e.by? ≠ some tid) : e.act? tid = none := by
  cases e with
  | did a o i out pre => exact if_neg fun ht => h (congrArg some ht)
  | answered a c ans pre => exact if_neg fun ht => h (congrArg some ht)
  | spawned a b => exact if_neg fun ht => h (congrArg some ht)
  | _ => rfl

theorem acts_append (tid : ℕ) (es hist : List (Event M)) :
    acts tid (es ++ hist) = acts tid es ++ acts tid hist := List.filterMap_append

theorem acts_eq_nil {tid : ℕ} {es : List (Event M)} (h : ∀ e ∈ es, e.by? ≠ some tid) :
    acts tid es = [] :=
  List.filterMap_eq_nil_iff.2 fun e he => act?_of_by (h e he)

theorem Others.acts_eq {tid : ℕ} (h : Others tid w w') : acts tid w'.hist = acts tid w.hist := by
  obtain ⟨es, hes, hby⟩ := h.hist
  rw [hes, acts_append, acts_eq_nil hby, List.nil_append]

/-- The law that every task keeps its rule. -/
def conductLaw (M : Machine S) (R : S.Task → Rule S M.Res) : Law M where
  did w a o _ _ := (R a.task).op (acts a.tid w.hist) o
  called w a c := (R a.task).call (acts a.tid w.hist) c
  spawned w a t := (R a.task).task (acts a.tid w.hist) t
  finished w a r := ∀ x, r = .ok x → (R a.task).value (acts a.tid w.hist) x

theorem wp_conductLaw {R : S.Task → Rule S M.Res} {ε α : Type} {p : Prog S ε α}
    {P : α → List (Act S) → Prop} (h : p.Keeps (R a.task) P (acts a.tid w.hist)) :
    wp (conductLaw M R) a p (fun r w => ∀ x, r = .ok x → P x (acts a.tid w.hist)) w := by
  induction p generalizing w with
  | done r =>
    rintro x rfl
    exact h
  | op o k ih =>
    refine fun i out s' _ => ⟨h.1, ih out ?_⟩
    rw [World.hist_record, acts_cons, Event.act?, if_pos rfl]
    exact h.2 out
  | call c k ih =>
    refine ⟨h.1, fun w' ho ans => ih ans ?_⟩
    rw [World.hist_record, acts_cons, Event.act?, if_pos rfl, ho.acts_eq, World.hist_record,
      acts_cons]
    exact h.2 ans
  | spawn t k ih =>
    refine ⟨h.1, ih ?_⟩
    rw [World.hist_record, acts_cons, Event.act?, if_pos rfl]
    exact h.2

/-- **A rule that every program keeps is kept in every run.** -/
theorem Reach.conduct {R : S.Task → Rule S M.Res} {c : Config M} (h : Reach s c)
    (hbody : ∀ t, (M.body t).Keeps (R t) (fun x t' => (R t).value t' x) []) :
    Run (conductLaw M R) s c.w := by
  refine h.run fun b w hf => ?_
  refine wp_conductLaw (R := R) (P := fun x t' => (R b.task).value t' x) ?_
  rw [acts_eq_nil hf]
  exact hbody b.task

/-- An event that stands for an act is one of the actor's. -/
theorem Run.event_eq (h : Run L s w) (ha : Joined w.hist a) {e : Event M} (he : e ∈ w.hist)
    {x : Act S} (hact : e.act? a.tid = some x) : match x with
      | .did o out => ∃ i pre, e = .did a o i out pre
      | .heard c ans => ∃ pre, e = .answered a c ans pre
      | .spawned t => ∃ tid, e = .spawned a ⟨tid, t⟩ := by
  cases e with
  | did b o i out pre =>
    obtain ⟨ht, heq⟩ := Option.ite_none_right_eq_some.1 hact
    obtain rfl := h.actor_eq (h.joined he rfl) ha ht
    cases heq
    exact ⟨i, pre, rfl⟩
  | answered b c ans pre =>
    obtain ⟨ht, heq⟩ := Option.ite_none_right_eq_some.1 hact
    obtain rfl := h.actor_eq (h.joined he rfl) ha ht
    cases heq
    exact ⟨pre, rfl⟩
  | spawned b b' =>
    obtain ⟨ht, heq⟩ := Option.ite_none_right_eq_some.1 hact
    obtain rfl := h.actor_eq (h.joined he rfl) ha ht
    cases heq
    exact ⟨b'.tid, rfl⟩
  | _ => cases hact

theorem Run.did_of_acts (h : Run L s w) (ha : Joined w.hist a) {o : S.Op} {out : S.Out o}
    (hx : Act.did o out ∈ acts a.tid w.hist) : ∃ i pre, Event.did a o i out pre ∈ w.hist := by
  obtain ⟨e, he, hact⟩ := List.mem_filterMap.1 hx
  obtain ⟨i, pre, rfl⟩ := h.event_eq ha he hact
  exact ⟨i, pre, he⟩

theorem Run.heard_of_acts (h : Run L s w) (ha : Joined w.hist a) {c : S.Call} {ans : S.Ans c}
    (hx : Act.heard c ans ∈ acts a.tid w.hist) : ∃ pre, Event.answered a c ans pre ∈ w.hist := by
  obtain ⟨e, he, hact⟩ := List.mem_filterMap.1 hx
  obtain ⟨pre, rfl⟩ := h.event_eq ha he hact
  exact ⟨pre, he⟩

/-- The acts up to one are those before the event that it stands for. -/
theorem exists_of_acts {tid : ℕ} {x : Act S} {t : List (Act S)} {hist : List (Event M)}
    (h : x :: t <:+ acts tid hist) :
    ∃ es e rest, hist = es ++ e :: rest ∧ e.act? tid = some x ∧ acts tid rest = t := by
  induction hist with
  | nil => cases List.suffix_nil.1 h
  | cons e hist ih =>
    have older : x :: t <:+ acts tid hist → ∃ es e' rest, e :: hist = es ++ e' :: rest ∧
        e'.act? tid = some x ∧ acts tid rest = t := by
      intro h
      obtain ⟨es, e', rest, rfl, hrest⟩ := ih h
      exact ⟨e :: es, e', rest, rfl, hrest⟩
    rw [acts_cons] at h
    cases he : e.act? tid with
    | none =>
      rw [he] at h
      exact older h
    | some y =>
      rw [he] at h
      rcases List.suffix_cons_iff.1 h with heq | h
      · obtain ⟨rfl, rfl⟩ := List.cons.inj heq
        exact ⟨[], e, hist, rfl, he, rfl⟩
      · exact older h

/-- What a rule says of an event, where it happened in a run that keeps another law as well. -/
theorem Run.conduct_past {R : S.Task → Rule S M.Res} (h : Run L s w)
    (hc : Run (conductLaw M R) s w) {e : Event M} (he : e ∈ w.hist) :
    ∃ w₀ w₁, Run L s w₀ ∧ Next L w₀ e w₁ ∧ Follows L w₁ w ∧ (conductLaw M R).holds w₀ e := by
  obtain ⟨es, rest, hh⟩ := List.append_of_mem he
  obtain ⟨w₀, w₁, h₀, hrest, hn, hf⟩ := h.cut hh
  obtain ⟨w₀', _, -, hrest', hn', -⟩ := hc.cut hh
  refine ⟨w₀, w₁, h₀, hn, hf, ?_⟩
  have hsame : w₀'.hist = w₀.hist := hrest'.trans hrest.symm
  have hlawful := hn'.lawful
  cases e with
  | did | called | spawned | finished =>
    simpa only [Law.holds, conductLaw, hsame] using hlawful
  | _ => trivial

end Interleave
