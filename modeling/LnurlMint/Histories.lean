import LnurlMint.Lawful.Background
import LnurlMint.Lib.History

/-!
# What holds of every history

The facts about the store that every later result starts from, over lawful histories rather than
sequences of methods. An invariant of the store is shown once for each transaction that the law
allows, and then holds whatever the mint does.

## Main results

* `Run.store_induct` — what every lawful transaction and a restart keep, every history keeps
* `Follows.evolves` — no note is lost, changes its value or becomes unspent again
* `Run.lifecycle` — the invariant of notes and burns
-/

namespace LnurlMint

open Interleave

variable {d : Deps} {cfg : Settings d} {s : State} {w w' : World (mint cfg)} {a : Actor mintSig}

/-! ## One event -/

/-- What one event does to the store: nothing, one transaction, or a restart. -/
theorem Next.store {e : Event (mint cfg)} (h : Next (law cfg) w e w') :
    ((∀ a u i r pre, e ≠ .did a (.write u) i r pre) ∧ w'.st.store = w.st.store) ∨
      (∃ a u i r, e = .did a (.write u) i r w.st ∧ MayWrite cfg w a u ∧
        u.run i w.st.store = some (r, w'.st.store)) ∨
      e = .crashed w.st ∧ w'.st.store = w.st.store.reopen := by
  obtain ⟨hs, hl, -⟩ := h
  cases hs with
  | @did a o i out s' ha hx =>
    cases o with
    | write u =>
      obtain ⟨⟨r, store⟩, hr, he⟩ := Option.map_eq_some_iff.1 hx
      cases he
      exact .inr (.inl ⟨a, u, i, _, rfl, hl, hr⟩)
    | _ =>
      cases hx
      exact .inl ⟨by simp, rfl⟩
  | stirred hx => exact .inl ⟨by simp, stir_store hx⟩
  | crashed => exact .inr (.inr ⟨rfl, rfl⟩)
  | _ => exact .inl ⟨by simp, rfl⟩

/-- A read returns what the store holds, and changes nothing. -/
theorem Next.read {q : Query} {i : Input} {out : q.Out} {pre : State}
    (h : Next (law cfg) w (.did a (.read q) i out pre) w') :
    out = q.answer i w.st.store ∧ w'.st = w.st := by
  obtain ⟨-, hx⟩ := h.exec
  obtain ⟨rfl, hst⟩ := Prod.mk.inj (Option.some.inj hx)
  exact ⟨rfl, hst.symm⟩

/-- A transaction in a history was allowed, and had the outcome that it has. -/
theorem Next.write {u : Update} {i : Input} {r : Except Exn u.Out} {pre : State}
    (h : Next (law cfg) w (.did a (.write u) i r pre) w') :
    MayWrite cfg w a u ∧ pre = w.st ∧ u.run i w.st.store = some (r, w'.st.store) := by
  rcases Next.store h with ⟨hne, -⟩ | ⟨_, _, _, _, he, hu, hr⟩ | ⟨he, -⟩
  · exact absurd rfl (hne _ _ _ _ _)
  · cases he
    exact ⟨hu, rfl, hr⟩
  · cases he

theorem Next.write_ok {u : Update} {i : Input} {out : u.Out} {pre : State}
    (h : Next (law cfg) w (.did a (.write u) i (.ok out) pre) w') :
    MayWrite cfg w a u ∧ u.apply i w.st.store = .ok (out, w'.st.store) := by
  obtain ⟨hu, -, hr⟩ := Next.write h
  refine ⟨hu, ?_⟩
  rcases Update.run_eq_some.1 hr with ⟨_, ⟨⟩, ho⟩ | ⟨_, ⟨⟩, -⟩
  exact ho

theorem reopen_evolves (s : NoteStore) : s.Evolves s.reopen :=
  ⟨fun h => ⟨_, h, rfl, rfl, id⟩, id⟩

theorem Next.evolves {e : Event (mint cfg)} (h : Next (law cfg) w e w') :
    w.st.store.Evolves w'.st.store := by
  rcases Next.store h with ⟨-, he⟩ | ⟨a, u, i, r, -, -, hr⟩ | ⟨-, he⟩
  · rw [he]
    exact .refl _
  · exact Update.evolves hr
  · rw [he]
    exact reopen_evolves _

theorem Follows.evolves (h : Follows (law cfg) w w') : w.st.store.Evolves w'.st.store := by
  induction h with
  | refl => exact .refl _
  | step _ hn ih => exact ih.trans (Next.evolves hn)

/-! ## Invariants of the store -/

/-- **What every lawful transaction and a restart keep, every history keeps.** -/
theorem Run.store_induct {P : NoteStore → Prop} (h : Run (law cfg) s w) (hs : P s.store)
    (hwrite : ∀ {w₀ a u i out s'}, Run (law cfg) s w₀ → Follows (law cfg) w₀ w →
      MayWrite cfg w₀ a u → P w₀.st.store → u.apply i w₀.st.store = .ok (out, s') → P s')
    (hreopen : ∀ {s}, P s → P s.reopen) : P w.st.store := by
  have all : ∀ {w₀}, Run (law cfg) s w₀ → Follows (law cfg) w₀ w → P w₀.st.store := by
    intro w₀ h₀
    induction h₀ with
    | start => exact fun _ => hs
    | step h hn ih =>
      intro hf
      have hf : Follows (law cfg) _ w := hn.follows.trans hf
      rcases Next.store hn with ⟨-, he⟩ | ⟨a, u, i, r, -, hu, hr⟩ | ⟨-, he⟩
      · rw [he]
        exact ih hf
      · exact Update.run_induct hr (ih hf) fun _ ho => hwrite h hf hu (ih hf) ho
      · rw [he]
        exact hreopen (ih hf)
  exact all h .refl

/-- The mint calls its swaps and transfers as they should be called. -/
theorem MayWrite.wellFormed {u : Update} (h : MayWrite cfg w a u) : u.WellFormed := by
  cases u with
  | swap burnIds mintNoteIds mintAmounts =>
    obtain ⟨baseUrl, k1, amount, p1, p2, o1, o2, -, hs, hn, ho, rfl, hamts, -⟩ := h
    refine ⟨hn.ne_nil hs.1, fun id hid => ?_, hamts.length_eq ho, by cases o2 <;> simp⟩
    obtain ⟨k, -, hk⟩ := hn.exists hid
    exact (isHex_of_noteIdOf d hk).bar_notMem
  | transferToUsername =>
    obtain ⟨_, _, _, _, k1, id, -, hk, rfl, -⟩ := h
    exact ⟨by simp, by simpa using (isHex_of_noteIdOf d hk).bar_notMem⟩
  | _ => trivial

/-- Notes and burns fit together in every history. -/
theorem Run.lifecycle (h : Run (law cfg) s w) (hs : s.store.Lifecycle) : w.st.store.Lifecycle :=
  Run.store_induct h hs
    (fun _ _ hu hl ho => hl.step (Update.notesStep hu.wellFormed.swapsMeet ho))
    fun hl => ⟨hl.coherent, hl.burned_spent, hl.burned_disjoint, hl.recorded, hl.second⟩

end LnurlMint
