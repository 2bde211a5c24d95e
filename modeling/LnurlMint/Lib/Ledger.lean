import LnurlMint.Lib.Refinement
import Mathlib.Algebra.BigOperators.Group.Finset.Basic
import Mathlib.Algebra.BigOperators.Group.List.Basic

/-!
# A ledger of bearer notes

A bearer note is a key that is worth something to whoever holds it. The ledger says which keys were
ever issued, what each is worth, and which of them were burned. It is posted to: a posting burns
some notes that are live, issues others under fresh keys, and says what it took in from outside for
what it issued beyond what it burned, or gave out, if this is negative.

A posting is atomic. That is the whole point: who wants to know whether value can be spent twice or
get lost, needs to look at single postings only.

## Main definitions

* `Ledger`, `Posting`
* `Ledger.Posts` — a posting is made

## Main results

* `Ledger.Posts.outstanding` — what a posting does to what is outstanding
* `Ledger.issued_once`, `Ledger.burned_once` — no key is issued or burned twice
* `Ledger.burned_issued` — a key is issued before it is burned
* `Ledger.outstanding_eq` — what is outstanding is what was taken in
-/

namespace Bearer

open Finset Interleave

variable {K V : Type*} [DecidableEq K]

/-- A ledger: the keys that were issued, those of them that were burned, and what each is worth. -/
@[ext]
structure Ledger (K V : Type*) where
  issued : Finset K
  burned : Finset K
  worth : K → V
  burned_subset : burned ⊆ issued

/-- What is posted: the notes that are burned, those that are issued, and what is received for
them from outside. -/
structure Posting (K V : Type*) where
  burns : Finset K
  issues : List (K × V)
  received : V

/-- The keys that a posting issues. -/
def Posting.keys (p : Posting K V) : List K := p.issues.map Prod.fst

namespace Ledger

/-- The keys that are worth something: those that were issued and not burned. -/
def live (L : Ledger K V) : Finset K := L.issued \ L.burned

theorem mem_live {L : Ledger K V} {k : K} : k ∈ L.live ↔ k ∈ L.issued ∧ k ∉ L.burned := mem_sdiff

variable [AddCommGroup V]

/-- A ledger to which nothing was posted. -/
def empty : Ledger K V := ⟨∅, ∅, fun _ => 0, Subset.rfl⟩

/-- What is worth something is worth this much together. -/
def outstanding (L : Ledger K V) : V := ∑ k ∈ L.live, L.worth k

/-- A posting is made: it burns live notes, issues fresh ones, and balances. -/
structure Posts (L : Ledger K V) (p : Posting K V) (L' : Ledger K V) : Prop where
  live : p.burns ⊆ L.live
  nodup : p.keys.Nodup
  fresh : ∀ k ∈ p.keys, k ∉ L.issued
  balanced : ∑ k ∈ p.burns, L.worth k + p.received = (p.issues.map Prod.snd).sum
  issued : L'.issued = L.issued ∪ p.keys.toFinset
  burned : L'.burned = L.burned ∪ p.burns
  worth_old : ∀ k ∈ L.issued, L'.worth k = L.worth k
  worth_new : ∀ x ∈ p.issues, L'.worth x.1 = x.2

variable {L L' : Ledger K V} {p : Posting K V} {ps : List (Posting K V)} {k : K}

namespace Posts

/-- The notes that are live afterwards. -/
theorem live_eq (h : L.Posts p L') : L'.live = (L.live \ p.burns) ∪ p.keys.toFinset := by
  ext k
  have hburned : k ∈ p.burns → k ∈ L.issued := fun hk => (mem_live.1 (h.live hk)).1
  have hfresh : k ∈ p.keys → k ∉ L.issued := h.fresh k
  have hsub : k ∈ L.burned → k ∈ L.issued := fun hk => L.burned_subset hk
  rw [mem_live, h.issued, h.burned]
  simp only [mem_union, mem_sdiff, mem_live, List.mem_toFinset]
  tauto

/-- What a posting issues is worth what it says. -/
theorem sum_keys (h : L.Posts p L') :
    ∑ k ∈ p.keys.toFinset, L'.worth k = (p.issues.map Prod.snd).sum := by
  rw [List.sum_toFinset _ h.nodup, Posting.keys, List.map_map]
  exact congrArg List.sum (List.map_congr_left h.worth_new)

/-- **A posting adds what it took in to what is outstanding.** -/
theorem outstanding (h : L.Posts p L') : L'.outstanding = L.outstanding + p.received := by
  have hdisjoint : Disjoint (L.live \ p.burns) p.keys.toFinset := by
    refine disjoint_left.2 fun k hk hkey => ?_
    exact h.fresh k (List.mem_toFinset.1 hkey) (mem_live.1 (mem_sdiff.1 hk).1).1
  have hkept : ∑ k ∈ L.live \ p.burns, L'.worth k = ∑ k ∈ L.live \ p.burns, L.worth k :=
    sum_congr rfl fun k hk => h.worth_old k (mem_live.1 (mem_sdiff.1 hk).1).1
  rw [Ledger.outstanding, h.live_eq, sum_union hdisjoint, hkept, h.sum_keys, ← h.balanced,
    ← add_assoc, sum_sdiff h.live]
  rfl

end Posts

/-! ## What was posted from the start -/

/-- What was ever posted accounts for what was ever issued and burned. -/
theorem posted (h : Trace Posts empty ps L) :
    (∀ k, k ∈ L.issued ↔ ∃ p ∈ ps, k ∈ p.keys) ∧ ∀ k, k ∈ L.burned ↔ ∃ p ∈ ps, k ∈ p.burns := by
  induction h with
  | nil => simp [empty]
  | cons _ hs ih =>
    refine ⟨fun k => ?_, fun k => ?_⟩
    · rw [hs.issued, mem_union, ih.1, List.mem_toFinset, List.exists_mem_cons_iff, or_comm]
    · rw [hs.burned, mem_union, ih.2, List.exists_mem_cons_iff, or_comm]

/-- **No key is issued twice.** -/
theorem issued_once (h : Trace Posts empty ps L) :
    (ps.flatMap Posting.keys).Nodup := by
  induction h with
  | nil => exact List.nodup_nil
  | cons ht hs ih =>
    rw [List.flatMap_cons, List.nodup_append]
    refine ⟨hs.nodup, ih, fun k hk k' hk' he => ?_⟩
    obtain ⟨q, hq, hkq⟩ := List.mem_flatMap.1 hk'
    exact hs.fresh k hk ((posted ht).1 k |>.2 ⟨q, hq, he ▸ hkq⟩)

/-- **No key is burned twice.** -/
theorem burned_once (h : Trace Posts empty ps L) :
    ps.Pairwise fun p q => Disjoint p.burns q.burns := by
  induction h with
  | nil => exact List.Pairwise.nil
  | cons ht hs ih =>
    refine List.pairwise_cons.2 ⟨fun q hq => disjoint_left.2 fun k hk hkq => ?_, ih⟩
    exact (mem_live.1 (hs.live hk)).2 ((posted ht).2 k |>.2 ⟨q, hq, hkq⟩)

/-- **A key is issued before it is burned.** -/
theorem burned_issued (h : Trace Posts empty ps L) {rest : List (Posting K V)}
    (hp : p :: rest <:+ ps) (hk : k ∈ p.burns) : ∃ q ∈ rest, k ∈ q.keys := by
  induction h with
  | nil => cases List.suffix_nil.1 hp
  | cons ht hs ih =>
    rcases List.suffix_cons_iff.1 hp with he | hp
    · cases he
      exact (posted ht).1 k |>.1 (mem_live.1 (hs.live hk)).1
    · exact ih hp

/-- **What is outstanding is what was taken in.** -/
theorem outstanding_eq (h : Trace Posts empty ps L) :
    L.outstanding = (ps.map Posting.received).sum := by
  induction h with
  | nil => rfl
  | cons _ hs ih => rw [hs.outstanding, ih, List.map_cons, List.sum_cons, add_comm]

end Ledger

end Bearer
