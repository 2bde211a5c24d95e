import LnurlMint.Lib.Prog
import Mathlib.Data.List.Basic

/-!
# A single-threaded event loop

A `Machine` gives a signature its meaning: how an operation acts on the shared state, how the
outside world moves, what a restart leaves, and which program a task runs. Its configurations are
those of an event loop with one thread. At most one program runs; it runs until it makes a call or
is done; every other program waits in the pool, either not begun yet or for its answer.

Everything the loop cannot choose is a `Choice`: which task arrives, which program goes on, what a
call is answered, what an operation reads from the clock, how the outside world moves, and whether
the process dies. A configuration is reachable if some list of choices leads to it, so a property
of all reachable configurations holds of every interleaving. The process may die between any two
operations, which is stronger than between two turns of the loop.

The outside world moves only between turns. Operations do not read it, so a move made during a
turn could as well be made before it.

The history is the list of all events, newest first, each with the state it met. Who is alive and
which calls are outstanding are read off it rather than kept beside it.

## Main definitions

* `Machine`, `Actor`, `Event`, `World`
* `alive`, `outstanding`, `acting` — read off a history
* `Config`, `Choice`, `Config.move`, `Reach` — the loop
* `World.Step` — one event, seen from the world alone
-/

namespace Interleave

/-- A meaning for the effects of `S`. An operation that never returns has no outcome. -/
structure Machine (S : Sig) where
  /-- The state that programs share. -/
  State : Type
  /-- What an operation is given from outside: a clock reading, say. -/
  Input : Type
  /-- The moves of the outside world. -/
  Move : Type
  /-- What programs raise. -/
  Err : Type
  /-- What tasks return. -/
  Res : Type
  /-- Do an operation. -/
  exec : (o : S.Op) → Input → State → Option (S.Out o × State)
  /-- A move of the outside world, which sees the calls that are outstanding. -/
  stir : Move → List S.Call → State → Option State
  /-- What is left of the state when the process dies with these calls outstanding. -/
  restart : List S.Call → State → State
  /-- Whether a task may arrive on its own, rather than be spawned. -/
  external : S.Task → Bool
  /-- The program of a task. -/
  body : S.Task → Prog S Err Res

/-- A program in progress: its number, never used twice, and its task. -/
structure Actor (S : Sig) where
  /-- Its number. -/
  tid : ℕ
  /-- Its task. -/
  task : S.Task

variable {S : Sig}

/-- What happened, to whom, and in which state. -/
inductive Event (M : Machine S)
  /-- A task came in and was given a number. -/
  | arrived (a : Actor S)
  /-- `a` spawned `b`. -/
  | spawned (a b : Actor S)
  /-- `a` did an operation. -/
  | did (a : Actor S) (o : S.Op) (i : M.Input) (out : S.Out o) (pre : M.State)
  /-- `a` made a call and gave way. -/
  | called (a : Actor S) (c : S.Call) (pre : M.State)
  /-- `a`'s call was answered and `a` went on. -/
  | answered (a : Actor S) (c : S.Call) (ans : S.Ans c) (pre : M.State)
  /-- `a` was done. -/
  | finished (a : Actor S) (r : Except M.Err M.Res) (pre : M.State)
  /-- The outside world moved. -/
  | stirred (m : M.Move) (pre : M.State)
  /-- The process died and was started again. -/
  | crashed (pre : M.State)

/-- The shared state and all that happened so far, newest first. -/
structure World (M : Machine S) where
  /-- The state. -/
  st : M.State
  /-- The history. -/
  hist : List (Event M)

variable {M : Machine S}

/-- Whose act an event was, if an actor's. -/
def Event.by? : Event M → Option ℕ
  | .spawned a _ | .did a .. | .called a .. | .answered a .. | .finished a .. => some a.tid
  | .arrived _ | .stirred .. | .crashed _ => none

/-- Whether the process died. -/
def Event.crash? : Event M → Bool
  | .crashed _ => true
  | _ => false

/-- The actors that arrived or were spawned, and neither finished nor died with the process. -/
def alive : List (Event M) → List (Actor S)
  | [] => []
  | .arrived a :: h => a :: alive h
  | .spawned _ b :: h => b :: alive h
  | .finished a .. :: h => (alive h).filter fun b => b.tid ≠ a.tid
  | .crashed _ :: _ => []
  | _ :: h => alive h

/-- The calls made and not yet answered, with who made them. -/
def outstanding : List (Event M) → List (ℕ × S.Call)
  | [] => []
  | .called a c _ :: h => (a.tid, c) :: outstanding h
  | .answered a .. :: h => (outstanding h).filter fun x => x.1 ≠ a.tid
  | .crashed _ :: _ => []
  | _ :: h => outstanding h

/-- The program in the middle of its turn: the one that acted last, unless it gave way or was
done. -/
def acting : List (Event M) → Option ℕ
  | .did a .. :: _ | .spawned a _ :: _ | .answered a .. :: _ => some a.tid
  | _ => none

/-- The world after event `e` led to state `s`. -/
def World.record (w : World M) (e : Event M) (s : M.State) : World M := ⟨s, e :: w.hist⟩

@[simp] theorem World.st_record (w : World M) (e : Event M) (s : M.State) :
    (w.record e s).st = s := rfl

@[simp] theorem World.hist_record (w : World M) (e : Event M) (s : M.State) :
    (w.record e s).hist = e :: w.hist := rfl

/-- The calls outstanding in a world. -/
def World.pending (w : World M) : List S.Call := (outstanding w.hist).map Prod.snd

/-- One event, as far as the world can tell: who acts is alive, an answer answers a call that is
outstanding, and the state moves as the machine says. -/
inductive World.Step (w : World M) : Event M → World M → Prop
  | arrived {t : S.Task} (h : M.external t = true) :
      w.Step (.arrived ⟨w.hist.length, t⟩) (w.record (.arrived ⟨w.hist.length, t⟩) w.st)
  | spawned {a : Actor S} {t : S.Task} (h : a ∈ alive w.hist) :
      w.Step (.spawned a ⟨w.hist.length, t⟩) (w.record (.spawned a ⟨w.hist.length, t⟩) w.st)
  | did {a : Actor S} {o : S.Op} {i : M.Input} {out : S.Out o} {s : M.State}
      (h : a ∈ alive w.hist) (hs : M.exec o i w.st = some (out, s)) :
      w.Step (.did a o i out w.st) (w.record (.did a o i out w.st) s)
  | called {a : Actor S} {c : S.Call} (h : a ∈ alive w.hist) :
      w.Step (.called a c w.st) (w.record (.called a c w.st) w.st)
  | answered {a : Actor S} {c : S.Call} {ans : S.Ans c} (h : a ∈ alive w.hist)
      (hc : (a.tid, c) ∈ outstanding w.hist) :
      w.Step (.answered a c ans w.st) (w.record (.answered a c ans w.st) w.st)
  | finished {a : Actor S} {r : Except M.Err M.Res} (h : a ∈ alive w.hist) :
      w.Step (.finished a r w.st) (w.record (.finished a r w.st) w.st)
  | stirred {m : M.Move} {s : M.State} (hs : M.stir m w.pending w.st = some s) :
      w.Step (.stirred m w.st) (w.record (.stirred m w.st) s)
  | crashed : w.Step (.crashed w.st) (w.record (.crashed w.st) (M.restart w.pending w.st))

theorem World.Step.hist {w w' : World M} {e : Event M} (h : w.Step e w') :
    w'.hist = e :: w.hist := by
  cases h <;> rfl

/-! ## The loop -/

/-- Where a program that is not running stands. -/
inductive Phase (M : Machine S)
  /-- Not begun. -/
  | ready
  /-- Waiting for the answer to a call. -/
  | waiting (c : S.Call) (k : S.Ans c → Prog S M.Err M.Res)

/-- A configuration of the event loop. -/
structure Config (M : Machine S) where
  /-- The state and the history. -/
  w : World M
  /-- The program whose turn it is. -/
  running : Option (Actor S × Prog S M.Err M.Res)
  /-- The others. -/
  pool : List (Actor S × Phase M)

/-- What the loop cannot choose. -/
inductive Choice (M : Machine S)
  /-- A task arrives. -/
  | arrive (t : S.Task)
  /-- The program with this number begins. -/
  | wake (tid : ℕ)
  /-- The call of this program is answered. Only the rule's value at that call is read. -/
  | answer (tid : ℕ) (rule : (c : S.Call) → S.Ans c)
  /-- The running program goes on by one effect. -/
  | step (i : M.Input)
  /-- The outside world moves. -/
  | stir (m : M.Move)
  /-- The process dies and is started again. -/
  | crash

namespace Config

/-- The configuration a process starts in. -/
def start (s : M.State) : Config M := ⟨⟨s, []⟩, none, []⟩

/-- The program with this number, if it is not running. -/
def parked (c : Config M) (tid : ℕ) : Option (Actor S × Phase M) :=
  c.pool.find? fun x => x.1.tid = tid

/-- The pool without the program with this number. -/
def others (c : Config M) (tid : ℕ) : List (Actor S × Phase M) :=
  c.pool.filter fun x => x.1.tid ≠ tid

/-- One turn of the running program `a`, of which `p` is left. -/
def turn (c : Config M) (a : Actor S) (i : M.Input) :
    Prog S M.Err M.Res → Option (Config M)
  | .done r => some { c with
      w := c.w.record (.finished a r c.w.st) c.w.st, running := none }
  | .op o k => (M.exec o i c.w.st).map fun x => { c with
      w := c.w.record (.did a o i x.1 c.w.st) x.2, running := some (a, k x.1) }
  | .call q k => some {
      w := c.w.record (.called a q c.w.st) c.w.st
      running := none
      pool := c.pool ++ [(a, .waiting q k)] }
  | .spawn t k =>
      let b : Actor S := ⟨c.w.hist.length, t⟩
      some {
        w := c.w.record (.spawned a b) c.w.st
        running := some (a, k)
        pool := c.pool ++ [(b, .ready)] }

/-- What a choice leads to, if the loop allows it now. -/
def move (c : Config M) (ch : Choice M) : Option (Config M) :=
  match ch, c.running with
  | .arrive t, none =>
      let a : Actor S := ⟨c.w.hist.length, t⟩
      if M.external t then
        some { c with w := c.w.record (.arrived a) c.w.st, pool := c.pool ++ [(a, .ready)] }
      else none
  | .wake tid, none =>
      match c.parked tid with
      | some (a, .ready) =>
          some { c with running := some (a, M.body a.task), pool := c.others tid }
      | _ => none
  | .answer tid rule, none =>
      match c.parked tid with
      | some (a, .waiting q k) => some {
          w := c.w.record (.answered a q (rule q) c.w.st) c.w.st
          running := some (a, k (rule q))
          pool := c.others tid }
      | _ => none
  | .stir m, none =>
      (M.stir m c.w.pending c.w.st).map fun s => { c with w := c.w.record (.stirred m c.w.st) s }
  | .step i, some (a, p) => c.turn a i p
  | .crash, _ =>
      some ⟨c.w.record (.crashed c.w.st) (M.restart c.w.pending c.w.st), none, []⟩
  | _, _ => none

/-- A whole schedule. -/
def play (c : Config M) : List (Choice M) → Option (Config M)
  | [] => some c
  | ch :: chs => (c.move ch).bind fun c' => c'.play chs

end Config

/-- The configurations that some schedule reaches from state `s`. -/
inductive Reach (s : M.State) : Config M → Prop
  | start : Reach s (.start s)
  | move {c c' : Config M} (ch : Choice M) (h : Reach s c) (hm : c.move ch = some c') : Reach s c'

theorem Reach.play {s : M.State} {c c' : Config M} (h : Reach s c) {chs : List (Choice M)}
    (hp : c.play chs = some c') : Reach s c' := by
  induction chs generalizing c with
  | nil => cases hp; exact h
  | cons ch chs ih =>
    obtain ⟨d, hd, hp⟩ := Option.bind_eq_some_iff.1 hp
    exact ih (h.move ch hd) hp

end Interleave
