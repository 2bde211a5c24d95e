import LnurlMint.Lib.History

/-!
# Refinement

What a machine is for is said by another system, with fewer states and larger steps. Most events of
the machine are no step of that system at all: a call, an answer, an operation that only prepares
something, a crash. The others are one step each. If that is so of every lawful event, every run of
the machine, seen through the events that show something, is a run of the other system, whatever was
interleaved with what; and what is known of the other system is known of the machine.

## Main definitions

* `Trace` — what steps lead to
* `Seen` — what a history shows
* `Simulates` — every lawful event is a step, or shows nothing

## Main results

* `Simulates.run`
-/

namespace Interleave

variable {S : Sig} {M : Machine S} {A ℓ : Type*}

/-- The labelled steps that lead from one state to another, the last one first. -/
inductive Trace (step : A → ℓ → A → Prop) (a : A) : List ℓ → A → Prop
  | nil : Trace step a [] a
  | cons {ls : List ℓ} {b c : A} {l : ℓ} (h : Trace step a ls b) (hs : step b l c) :
      Trace step a (l :: ls) c

/-- What a history shows, the last first, if events show labels or nothing. -/
inductive Seen (shows : Event M → Option ℓ → Prop) : List (Event M) → List ℓ → Prop
  | nil : Seen shows [] []
  | silent {hist : List (Event M)} {ls : List ℓ} {e : Event M} (h : Seen shows hist ls)
      (he : shows e none) : Seen shows (e :: hist) ls
  | cons {hist : List (Event M)} {ls : List ℓ} {e : Event M} {l : ℓ} (h : Seen shows hist ls)
      (he : shows e (some l)) : Seen shows (e :: hist) (l :: ls)

/-- Every lawful event is a step of the other system between the states that `abs` reads, or shows
nothing and changes nothing there. -/
def Simulates (L : Law M) (s : M.State) (abs : M.State → A) (step : A → ℓ → A → Prop)
    (shows : Event M → Option ℓ → Prop) : Prop :=
  ∀ {w w' : World M} {e : Event M}, Run L s w → Next L w e w' →
    (shows e none ∧ abs w'.st = abs w.st) ∨ ∃ l, shows e (some l) ∧ step (abs w.st) l (abs w'.st)

variable {L : Law M} {s : M.State} {abs : M.State → A} {step : A → ℓ → A → Prop}
  {shows : Event M → Option ℓ → Prop}

/-- **Every run of the machine is a run of the other system**, as far as it shows. -/
theorem Simulates.run (hsim : Simulates L s abs step shows) {w : World M} (h : Run L s w) :
    ∃ ls, Seen shows w.hist ls ∧ Trace step (abs s) ls (abs w.st) := by
  induction h with
  | start => exact ⟨[], .nil, .nil⟩
  | @step w w' e h hn ih =>
    obtain ⟨ls, hseen, htrace⟩ := ih
    rw [hn.hist]
    rcases hsim h hn with ⟨hnone, habs⟩ | ⟨l, hl, hstep⟩
    · exact ⟨ls, .silent hseen hnone, habs ▸ htrace⟩
    · exact ⟨l :: ls, .cons hseen hl, .cons htrace hstep⟩

end Interleave
