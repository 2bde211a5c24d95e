import Mathlib.Logic.Basic

/-!
# Programs over a signature of effects

A program that other programs run beside is a tree: it asks for an atomic operation on the state
it shares, it calls something outside and waits for the answer, it spawns a task, or it is done.
The tree says nothing of what the operations do or of who answers the calls. That is the business
of a machine, and keeping the two apart is what lets one program be run, scheduled and reasoned
about by the same definition.

A call is where a program gives way: everything between two calls runs as one piece. An operation
never gives way.

A program ends with a value or raises, so `Prog` is a monad with exceptions. Its sequencing and its
handlers are both cases of `thenE`, which hands the outcome of one program, either way, to the
next; a rule about `thenE` is a rule about both.

## Main definitions

* `Sig` — operations with their results, calls with their answers, and tasks
* `Prog` — programs over a signature
* `Prog.thenE` — run one program and hand its outcome to another
* `Prog.attempt`, `Prog.andFinally`, `Prog.raiseIf`, `Prog.ofExcept` — the usual idioms
-/

namespace Interleave

/-- What programs may do: atomic operations, calls answered from outside, and tasks to spawn. -/
structure Sig where
  /-- Atomic operations on the shared state. -/
  Op : Type
  /-- What an operation returns. -/
  Out : Op → Type
  /-- Calls that wait for an answer. -/
  Call : Type
  /-- What a call is answered with. -/
  Ans : Call → Type
  /-- Tasks that can be spawned. -/
  Task : Type

/-- A program over `S` that returns an `α` or raises an `ε`. -/
inductive Prog (S : Sig) (ε α : Type) : Type
  /-- Finished, with a value or an exception. -/
  | done (r : Except ε α)
  /-- Do an atomic operation and go on with its result. -/
  | op (o : S.Op) (k : S.Out o → Prog S ε α)
  /-- Make a call, wait for its answer and go on with it. -/
  | call (c : S.Call) (k : S.Ans c → Prog S ε α)
  /-- Spawn a task and go on. -/
  | spawn (t : S.Task) (k : Prog S ε α)

namespace Prog

variable {S : Sig} {ε ε' α β : Type}

/-- Run `p` and hand its outcome, value or exception, to `f`. -/
def thenE (p : Prog S ε α) (f : Except ε α → Prog S ε' β) : Prog S ε' β :=
  match p with
  | .done r => f r
  | .op o k => .op o fun x => (k x).thenE f
  | .call c k => .call c fun x => (k x).thenE f
  | .spawn t k => .spawn t (k.thenE f)

/-- What follows a value; an exception passes. -/
def onOk (f : α → Prog S ε β) : Except ε α → Prog S ε β
  | .ok a => f a
  | .error e => .done (.error e)

/-- What handles an exception; a value passes. -/
def onError (h : ε → Prog S ε α) : Except ε α → Prog S ε α
  | .ok a => .done (.ok a)
  | .error e => h e

instance : Monad (Prog S ε) where
  pure a := .done (.ok a)
  bind p f := p.thenE (onOk f)

instance : MonadExceptOf ε (Prog S ε) where
  throw e := .done (.error e)
  tryCatch p h := p.thenE (onError h)

/-- Do one operation. -/
def perform (o : S.Op) : Prog S ε (S.Out o) := .op o fun x => .done (.ok x)

/-- Make one call. -/
def ask (c : S.Call) : Prog S ε (S.Ans c) := .call c fun x => .done (.ok x)

/-- Spawn a task. -/
def start (t : S.Task) : Prog S ε Unit := .spawn t (.done (.ok ()))

/-- Return or raise, as the outcome says. -/
def ofExcept (r : Except ε α) : Prog S ε α := .done r

/-- Raise `e` if `c`. -/
def raiseIf (c : Prop) [Decidable c] (e : ε) : Prog S ε Unit :=
  .done (if c then .error e else .ok ())

/-- The value, or `e` raised in its absence. -/
def orRaise (a : Option α) (e : ε) : Prog S ε α := .done (a.elim (.error e) .ok)

/-- `p` with its outcome returned as a value: `try … except` around all of it. -/
def attempt (p : Prog S ε α) : Prog S ε' (Except ε α) := p.thenE fun r => .done (.ok r)

/-- `try: p finally: q`. The outcome is `p`'s unless `q` itself raises. -/
def andFinally (p : Prog S ε α) (q : Prog S ε Unit) : Prog S ε α :=
  p.thenE fun r => q.thenE (onOk fun _ => .done r)

@[simp] theorem pure_eq (a : α) : (pure a : Prog S ε α) = .done (.ok a) := rfl

@[simp] theorem bind_eq (p : Prog S ε α) (f : α → Prog S ε β) : p >>= f = p.thenE (onOk f) := rfl

@[simp] theorem throw_eq (e : ε) : (throw e : Prog S ε α) = .done (.error e) := rfl

@[simp] theorem tryCatch_eq (p : Prog S ε α) (h : ε → Prog S ε α) :
    tryCatch p h = p.thenE (onError h) := rfl

@[simp] theorem onOk_ok (f : α → Prog S ε β) (a : α) : onOk f (.ok a) = f a := rfl

@[simp] theorem onOk_error (f : α → Prog S ε β) (e : ε) : onOk f (.error e) = .done (.error e) :=
  rfl

@[simp] theorem onError_ok (h : ε → Prog S ε α) (a : α) : onError h (.ok a) = .done (.ok a) := rfl

@[simp] theorem onError_error (h : ε → Prog S ε α) (e : ε) : onError h (.error e) = h e := rfl

/-- Where a sequence raises at once: its first program does, or is done and the second does. -/
theorem bind_eq_raise {p : Prog S ε α} {f : α → Prog S ε β} {e : ε}
    (h : p >>= f = .done (.error e)) :
    p = .done (.error e) ∨ ∃ x, p = .done (.ok x) ∧ f x = .done (.error e) := by
  cases p with
  | done r =>
    cases r with
    | ok x => exact .inr ⟨x, rfl, h⟩
    | error e' =>
      injection h with h
      injection h with h
      exact .inl (by rw [h])
  | op | call | spawn => cases h

theorem raiseIf_congr {c c' : Prop} [Decidable c] [Decidable c'] (h : c ↔ c') (e : ε) :
    raiseIf (S := S) c e = raiseIf c' e := by
  simp only [raiseIf, h]

theorem orRaise_eq_raise {x : Option α} {e e' : ε} (h : orRaise (S := S) x e = .done (.error e')) :
    e = e' := by
  cases x with
  | none =>
    injection h with h
    injection h
  | some x =>
    injection h with h
    cases h

theorem raiseIf_eq_raise {c : Prop} [Decidable c] {e e' : ε}
    (h : raiseIf (S := S) c e = .done (.error e')) : e = e' := by
  injection h with h
  split at h
  · injection h
  · cases h

end Prog

end Interleave
