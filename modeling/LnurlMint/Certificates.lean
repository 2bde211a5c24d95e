import LnurlMint.Histories

/-!
# Every certificate is true

A certificate is the mint's signature over a note's id and amount. The amounts that are signed come
from three places: a row of `notes`, the outputs of a swap that has just been made, and a row of
`burns` when a burn is answered again. The law reduces the three to two, a note on file or an output
on record, and the outputs on record are notes on file in every history.

## Main results

* `certificates_true`
-/

namespace LnurlMint

open Interleave

variable {d : Deps} {cfg : Settings d} {s : State} {w : World (mint cfg)} {a : Actor mintSig}
  {noteId dom : Str} {amountMsat : ℤ} {pre : State}

/-- What is signed is the id and amount of a note on file at that moment, and has been ever
since. -/
theorem Run.signed (h : Run (law cfg) s w) (hs : s.store.Lifecycle)
    (hc : .called a (.signMessage noteId dom amountMsat) pre ∈ w.hist) :
    (∃ n, pre.store.notes.find? noteId = some n ∧ n.amountMsat = amountMsat) ∧
      ∃ n, w.st.store.notes.find? noteId = some n ∧ n.amountMsat = amountMsat := by
  obtain ⟨w₀, w₁, h₀, hn, hf⟩ := h.past hc
  have hev : w₀.st.store.Evolves w.st.store := (Next.evolves hn).trans (Follows.evolves hf)
  have hlife : w₀.st.store.Lifecycle := Run.lifecycle h₀ hs
  obtain ⟨hstep, ⟨-, hmay⟩, -⟩ := hn
  cases hstep
  have onFile : ∃ n, w₀.st.store.notes.find? noteId = some n ∧ n.amountMsat = amountMsat := by
    rcases hmay with h | ⟨b, hb, hout⟩
    · exact h
    · exact hlife.recorded b hb _ hout
  obtain ⟨n, hn, ha⟩ := onFile
  obtain ⟨n', hn', ha', -⟩ := hev.note hn
  exact ⟨⟨n, hn, ha⟩, n', hn', ha'.trans ha⟩

/-- **Every certificate is true.** Whatever the mint is asked and in whichever order, what it signs
is the id and amount of a note it has issued, and it never signs two amounts for one note. -/
theorem certificates_true {c : Config (mint cfg)} (h : Reach State.initial c) :
    (∀ a noteId dom amountMsat pre,
      .called a (.signMessage noteId dom amountMsat) pre ∈ c.w.hist →
      ∃ n ∈ pre.store.notes.rows, n.id = noteId ∧ n.amountMsat = amountMsat) ∧
    ∀ a a' noteId dom dom' amountMsat amountMsat' pre pre',
      .called a (.signMessage noteId dom amountMsat) pre ∈ c.w.hist →
      .called a' (.signMessage noteId dom' amountMsat') pre' ∈ c.w.hist →
      amountMsat = amountMsat' := by
  have hr : Run (law cfg) State.initial c.w := Reach.law h
  refine ⟨fun a noteId dom amountMsat pre hc => ?_,
    fun a a' noteId dom dom' amountMsat amountMsat' pre pre' hc hc' => ?_⟩
  · obtain ⟨⟨n, hn, ha⟩, -⟩ := Run.signed hr .empty hc
    exact ⟨n, Relational.Table.mem_of_find? hn, Relational.Table.key_of_find? hn, ha⟩
  · obtain ⟨-, n, hn, ha⟩ := Run.signed hr .empty hc
    obtain ⟨-, n', hn', ha'⟩ := Run.signed hr .empty hc'
    rw [hn] at hn'
    rw [← ha, ← ha', Option.some.inj hn']

/-- A note is minted and rotated, up to the signature on the new note. -/
def rotationRun : List (Choice standInMint) :=
  standInMints 0 "h".toList (standInKey '1') ++
    standInAsks 5 (.getWithdrawCallback [standInKey '1'] none none (some (standInKey '2')) none) ++
    standInGoes 3 1 ++ [.answer 5 (standInAnswer [] true)] ++ standInGoes 7 1

theorem certificates_true_rotation : ∃ c : Config standInMint, Reach State.initial c ∧
    (c.w.hist.any fun e => match e with
      | .called _ (.signMessage ..) _ => true
      | _ => false) = true ∧
    ∀ a noteId dom amountMsat pre,
      .called a (.signMessage noteId dom amountMsat) pre ∈ c.w.hist →
      ∃ n ∈ pre.store.notes.rows, n.id = noteId ∧ n.amountMsat = amountMsat := by
  have hrun : (standInRun rotationRun).any (fun c => c.w.hist.any fun e => match e with
      | .called _ (.signMessage ..) _ => true
      | _ => false) = true := by decide +kernel
  obtain ⟨c, hc, hs⟩ := exists_standInRun hrun
  exact ⟨c, hc, hs, (certificates_true hc).1⟩

end LnurlMint
