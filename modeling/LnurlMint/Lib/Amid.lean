import LnurlMint.Lib.Machine

/-!
# A program among others

What a program does on its own account while other things happen. Each of its calls may be answered
in any way, another way when it is made again, and the state in which it goes on may be another than
the one in which it gave way. With a script for both, what it comes to is a function of the state,
and a claim about it for every script is one about it for whatever happens meanwhile.

## Main definitions

* `Script` — how calls are answered, what others make of the state, and what operations read
* `Prog.amid` — what a program comes to

## Main results

* `Prog.amid_bind` — this is compositional
-/

namespace Interleave

variable {S : Sig}

/-- What a program meets: the answers to its calls, and the states in which it goes on, by how many
it made before; and the input of each operation, by how many it did before. -/
structure Script (M : Machine S) where
  answers : ℕ → (c : S.Call) → S.Ans c
  states : ℕ → M.State → M.State
  inputs : ℕ → M.Input

/-- How far a program has come: the calls made, the operations done, and the state. -/
structure Beat (M : Machine S) where
  calls : ℕ
  ops : ℕ
  st : M.State

variable {M : Machine S} {ε α β : Type}

/-- A call was answered. -/
def Beat.resumed (b : Beat M) (sc : Script M) : Beat M :=
  { b with calls := b.calls + 1, st := sc.states b.calls b.st }

namespace Prog

/-- Run to the end: how far it comes, and its outcome, unless an operation never returned. -/
def amid (sc : Script M) : Prog S ε α → Beat M → Beat M × Option (Except ε α)
  | .done r, b => (b, some r)
  | .op o k, b =>
    match M.exec o (sc.inputs b.ops) b.st with
    | none => (b, none)
    | some (out, s) => (k out).amid sc { b with ops := b.ops + 1, st := s }
  | .call c k, b => (k (sc.answers b.calls c)).amid sc (b.resumed sc)
  | .spawn _ k, b => k.amid sc b

variable {sc : Script M}

@[simp] theorem amid_ask (c : S.Call) (b : Beat M) :
    (ask c : Prog S ε (S.Ans c)).amid sc b = (b.resumed sc, some (.ok (sc.answers b.calls c))) :=
  rfl

@[simp] theorem amid_ofExcept (r : Except ε α) (b : Beat M) :
    (ofExcept r : Prog S ε α).amid sc b = (b, some r) := rfl

/-- **What a program comes to is compositional.** -/
theorem amid_bind (p : Prog S ε α) (f : α → Prog S ε β) (b : Beat M) :
    (p >>= f).amid sc b =
      match p.amid sc b with
      | (b', some (.ok a)) => (f a).amid sc b'
      | (b', some (.error e)) => (b', some (.error e))
      | (b', none) => (b', none) := by
  show Prog.amid sc (p.thenE (onOk f)) b = _
  induction p generalizing b with
  | done r => cases r <;> rfl
  | op o k ih =>
    simp only [thenE, amid]
    cases M.exec o (sc.inputs b.ops) b.st with
    | none => rfl
    | some x => exact ih x.1 _
  | call c k ih => exact ih (sc.answers b.calls c) _
  | spawn t k ih => exact ih b

end Prog

end Interleave
