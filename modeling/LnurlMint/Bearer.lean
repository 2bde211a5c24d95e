import LnurlMint.Books
import LnurlMint.Lib.Ledger

/-!
# The mint is a ledger of bearer notes

A melt takes three steps and a payment in between, any of which may be its last; swaps, transfers
and settlements run in between those; and what was left undone is taken up by another round after a
restart. To those who hold notes none of this is visible. The mint is a ledger that is posted to
atomically: a settled mint issues a note, a swap burns notes for others, a melt burns what it paid
for at the moment it is finalized and not before, and nothing else is a posting.

## Main definitions

* `NoteStore.ledger` — the ledger that a store keeps
* `Shows` — the posting that an event is

## Main results

* `simulates_ledger` — every event is a posting, or none
* `mint_refines_ledger` — every run of the mint is a run of the ledger
-/

namespace LnurlMint

open Interleave Relational Bearer

/-! ## The ledger of a store -/

namespace NoteStore

variable {s s' : NoteStore} {id : Str} {now v : ℤ} {b : Bool} {p : Posting Str ℤ}

/-- What the ledger says of a note: its worth, and whether it is burned. A reservation is no entry
in it. -/
def entry (s : NoteStore) (id : Str) : Option (ℤ × Bool) :=
  (s.notes.find? id).map fun n => (n.amountMsat, n.spent)

/-- The ledger that a store keeps. -/
def ledger (s : NoteStore) : Ledger Str ℤ where
  issued := (s.notes.rows.map NoteRow.id).toFinset
  burned := ((s.notes.rows.filter NoteRow.spent).map NoteRow.id).toFinset
  worth id := (s.entry id).elim 0 Prod.fst
  burned_subset _ hid := List.mem_toFinset.2 ((List.filter_sublist.map _).subset
    (List.mem_toFinset.1 hid))

theorem entry_eq_some : s.entry id = some (v, b) ↔
    ∃ n, s.notes.find? id = some n ∧ n.amountMsat = v ∧ n.spent = b := by
  simp only [entry, Option.map_eq_some_iff, Prod.mk.injEq]

theorem entry_eq_none : s.entry id = none ↔ s.notes.find? id = none := Option.map_eq_none_iff

theorem mem_issued : id ∈ s.ledger.issued ↔ s.entry id ≠ none := by
  rw [ne_eq, entry_eq_none, ← ne_eq, Option.ne_none_iff_exists']
  refine List.mem_toFinset.trans ⟨fun h => ?_, ?_⟩
  · obtain ⟨n, hn, rfl⟩ := List.mem_map.1 h
    exact ⟨n, Table.find?_of_mem hn⟩
  · rintro ⟨n, hn⟩
    exact List.mem_map.2 ⟨n, Table.mem_of_find? hn, Table.key_of_find? hn⟩

theorem mem_ledger_burned : id ∈ s.ledger.burned ↔ ∃ v, s.entry id = some (v, true) := by
  refine List.mem_toFinset.trans ⟨fun h => ?_, ?_⟩
  · obtain ⟨n, hn, rfl⟩ := List.mem_map.1 h
    obtain ⟨hn, hs⟩ := List.mem_filter.1 hn
    exact ⟨_, entry_eq_some.2 ⟨n, Table.find?_of_mem hn, rfl, hs⟩⟩
  · rintro ⟨v, h⟩
    obtain ⟨n, hn, -, hs⟩ := entry_eq_some.1 h
    exact List.mem_map.2 ⟨n, List.mem_filter.2 ⟨Table.mem_of_find? hn, hs⟩, Table.key_of_find? hn⟩

theorem mem_ledger_live : id ∈ s.ledger.live ↔ ∃ v, s.entry id = some (v, false) := by
  rw [Ledger.mem_live, mem_issued, mem_ledger_burned]
  rcases s.entry id with _ | ⟨v, _ | _⟩ <;> simp

/-- Stores with the same entries keep the same ledger. -/
theorem ledger_congr (h : ∀ id, s'.entry id = s.entry id) : s'.ledger = s.ledger := by
  refine Ledger.ext (Finset.ext fun id => ?_) (Finset.ext fun id => ?_) (funext fun id => ?_)
  · rw [mem_issued, mem_issued, h]
  · rw [mem_ledger_burned, mem_ledger_burned, h]
  · exact congrArg (fun e : Option (ℤ × Bool) => e.elim 0 Prod.fst) (h id)

/-- So do stores of which one is a rewrite of the other that leaves what notes are worth and
whether they are spent. -/
theorem ledger_of_rewrite {ids : List Str} {f : NoteRow → NoteRow}
    (hfind : ∀ id, s'.notes.find? id =
      (s.notes.find? id).map fun n => if id ∈ ids then f n else n)
    (hf : ∀ n, ((f n).amountMsat, (f n).spent) = (n.amountMsat, n.spent)) :
    s'.ledger = s.ledger := by
  refine ledger_congr fun id => ?_
  rw [entry, entry, hfind, Option.map_map]
  refine congrFun (congrArg Option.map (funext fun n => ?_)) _
  show ((if id ∈ ids then f n else n).amountMsat, (if id ∈ ids then f n else n).spent) = _
  split
  exacts [hf n, rfl]

/-- What notes of some kind are worth together. -/
theorem sum_worth {K : Finset Str} {P : NoteRow → Prop} [DecidablePred P]
    (hK : ∀ id, id ∈ K ↔ ∃ n, s.notes.find? id = some n ∧ P n) :
    ∑ id ∈ K, s.ledger.worth id = s.notes.sum fun n => if P n then n.amountMsat else 0 := by
  have heq : K = ((s.notes.rows.filter fun n => P n).map NoteRow.id).toFinset := by
    ext id
    rw [hK, List.mem_toFinset, List.mem_map]
    constructor
    · rintro ⟨n, hn, hP⟩
      exact ⟨n, List.mem_filter.2 ⟨Table.mem_of_find? hn, decide_eq_true hP⟩,
        Table.key_of_find? hn⟩
    · rintro ⟨n, hn, rfl⟩
      obtain ⟨hn, hP⟩ := List.mem_filter.1 hn
      exact ⟨n, Table.find?_of_mem hn, of_decide_eq_true hP⟩
  have hnodup : ((s.notes.rows.filter fun n => P n).map NoteRow.id).Nodup :=
    s.notes.nodup.sublist (List.filter_sublist.map _)
  rw [heq, List.sum_toFinset _ hnodup, List.map_map, Table.sum, List.sum_map_ite]
  rw [List.sum_eq_zero (l := List.map (fun _ => 0) _) (by simp), add_zero]
  refine congrArg List.sum (List.map_congr_left fun n hn => ?_)
  show (s.entry n.id).elim 0 Prod.fst = n.amountMsat
  rw [entry, Table.find?_of_mem (List.mem_of_mem_filter hn)]
  rfl

/-- What is outstanding in the ledger is what is outstanding in the store. -/
theorem outstanding_ledger (s : NoteStore) : s.ledger.outstanding = s.outstandingMsat := by
  have hlive : ∀ id, id ∈ s.ledger.live ↔ ∃ n, s.notes.find? id = some n ∧ n.spent = false := by
    intro id
    rw [mem_ledger_live]
    simp only [entry_eq_some]
    constructor
    · rintro ⟨v, n, hn, -, hs⟩
      exact ⟨n, hn, hs⟩
    · rintro ⟨n, hn, hs⟩
      exact ⟨_, n, hn, rfl, hs⟩
  refine (sum_worth hlive).trans (Table.sum_congr fun n _ => ?_)
  cases n.spent <;> rfl

/-- A store whose entries are those of another after a posting keeps the ledger of that posting. -/
theorem posts_of_entry (hlive : ∀ id ∈ p.burns, ∃ v, s.entry id = some (v, false))
    (hnodup : p.keys.Nodup) (hfresh : ∀ id ∈ p.keys, s.entry id = none)
    (hbalanced : ∑ id ∈ p.burns, s.ledger.worth id + p.received = (p.issues.map Prod.snd).sum)
    (hold : ∀ {id v b}, s.entry id = some (v, b) →
      s'.entry id = some (v, b || decide (id ∈ p.burns)))
    (hnew : ∀ x ∈ p.issues, s'.entry x.1 = some (x.2, false))
    (hnone : ∀ {id}, s.entry id = none → id ∉ p.keys → s'.entry id = none) :
    s.ledger.Posts p s'.ledger where
  live id hid := mem_ledger_live.2 (hlive id hid)
  nodup := hnodup
  fresh id hid hissued := mem_issued.1 hissued (hfresh id hid)
  balanced := hbalanced
  issued := by
    ext id
    rw [Finset.mem_union, mem_issued, mem_issued, List.mem_toFinset]
    by_cases hkey : id ∈ p.keys
    · obtain ⟨x, hx, rfl⟩ := List.mem_map.1 hkey
      simp [hnew x hx, hkey]
    · cases hentry : s.entry id with
      | none => simp [hnone hentry hkey, hkey]
      | some e => simp [hold hentry]
  burned := by
    ext id
    have hburn : s.entry id = none → id ∉ p.burns := fun hentry hb => by
      obtain ⟨v, hv⟩ := hlive id hb
      rw [hentry] at hv
      cases hv
    rw [Finset.mem_union, mem_ledger_burned, mem_ledger_burned]
    by_cases hkey : id ∈ p.keys
    · obtain ⟨x, hx, rfl⟩ := List.mem_map.1 hkey
      simp [hnew x hx, hfresh x.1 hkey, hburn (hfresh x.1 hkey)]
    · cases hentry : s.entry id with
      | none => simp [hnone hentry hkey, hburn hentry]
      | some e =>
        obtain ⟨v, b⟩ := e
        simp [hold hentry]
  worth_old id hid := by
    obtain ⟨e, he⟩ := Option.ne_none_iff_exists'.1 (mem_issued.1 hid)
    show (s'.entry id).elim 0 Prod.fst = (s.entry id).elim 0 Prod.fst
    rw [hold he, he]
    rfl
  worth_new x hx := by
    show (s'.entry x.1).elim 0 Prod.fst = x.2
    rw [hnew x hx]
    rfl

/-! ## Postings -/

/-- A note is issued. -/
theorem posts_credit (h : s.notes.insert? (newNote now (id, v)) = some s'.notes) :
    s.ledger.Posts ⟨∅, [(id, v)], v⟩ s'.ledger := by
  have hfree : s.notes.find? id = none := (Table.insert?_eq_some.1 h).1
  refine posts_of_entry (by simp) (List.nodup_singleton _) ?_ (by simp) ?_ ?_ ?_
  · intro k hk
    obtain rfl := List.mem_singleton.1 hk
    exact entry_eq_none.2 hfree
  · intro k v' b hk
    obtain ⟨n, hn, rfl, rfl⟩ := entry_eq_some.1 hk
    refine entry_eq_some.2 ⟨n, Table.find?_of_insert? h hn, rfl, ?_⟩
    simp
  · intro x hx
    obtain rfl := List.mem_singleton.1 hx
    exact entry_eq_some.2 ⟨_, (Table.find?_insert? h _).trans (if_pos rfl), rfl, rfl⟩
  · intro k hk hne
    refine entry_eq_none.2 ((Table.find?_insert? h k).trans (if_neg ?_) |>.trans ?_)
    · rintro rfl
      exact hne List.mem_cons_self
    · exact entry_eq_none.1 hk

/-- Notes are exchanged. -/
theorem Swapped.posts {burnIds ids : List Str} {amounts : List ℤ} {toUsername : Option Str}
    {received : ℤ} (h : s.Swapped s' now burnIds ids amounts toUsername)
    (hlen : ids.length = amounts.length) (hsum : s.worth burnIds + received = amounts.sum) :
    s.ledger.Posts ⟨burnIds.toFinset, ids.zip amounts, received⟩ s'.ledger := by
  have hkeys : (ids.zip amounts).map Prod.fst = ids := List.map_fst_zip hlen.le
  have hworth : ∑ id ∈ burnIds.toFinset, s.ledger.worth id = s.worth burnIds := by
    rw [List.sum_toFinset _ h.burn_nodup, worth]
    refine congrArg List.sum (List.map_congr_left fun id _ => ?_)
    show (s.entry id).elim 0 Prod.fst = _
    rw [entry]
    cases s.notes.find? id <;> rfl
  have hnodup : ((ids.zip amounts).map Prod.fst).Nodup := by
    rw [hkeys]
    exact h.mint_nodup
  refine posts_of_entry ?_ hnodup ?_ ?_ ?_ ?_ ?_
  · intro id hid
    obtain ⟨n, hn, hs, -⟩ := h.burnable id (List.mem_toFinset.1 hid)
    exact ⟨_, entry_eq_some.2 ⟨n, hn, rfl, hs⟩⟩
  · intro id hid
    have hid : id ∈ ids := hkeys ▸ hid
    exact entry_eq_none.2 (idInUse_eq_false.1 (h.unused id hid)).1
  · rw [hworth, List.map_snd_zip hlen.ge]
    exact hsum
  · intro id v b hid
    obtain ⟨n, hn, rfl, rfl⟩ := entry_eq_some.1 hid
    refine entry_eq_some.2 ⟨if id ∈ burnIds then { n with spent := true } else n, ?_, ?_, ?_⟩
    · rw [h.find?, hn]
      rfl
    · split <;> rfl
    · by_cases hb : id ∈ burnIds <;> simp [hb]
  · intro x hx
    exact entry_eq_some.2 ⟨_, h.minted hx, rfl, rfl⟩
  · intro id hid hne
    cases hn : s'.notes.find? id with
    | none => exact entry_eq_none.2 hn
    | some n =>
      have hkey : n.id = id := Table.key_of_find? hn
      rcases h.cases hn with ⟨n₀, hn₀, -⟩ | ⟨-, out, hout, he⟩
      · rw [entry_eq_none.1 hid] at hn₀
        cases hn₀
      · refine absurd (List.mem_map.2 ⟨out, hout, ?_⟩) hne
        rw [← hkey, he]
        rfl

/-- Notes are redeemed, as far as they are live. -/
theorem posts_redeem {ids : List Str} {f : NoteRow → NoteRow} {hf}
    (hn : s'.notes = s.notes.modifyEach ids f hf) (idem : ∀ n, f (f n) = f n)
    (hspent : ∀ n, (f n).spent = true) (hsame : ∀ n, (f n).amountMsat = n.amountMsat) :
    s.ledger.Posts ⟨ids.toFinset ∩ s.ledger.live, [], -s.unspentWorth ids⟩ s'.ledger := by
  have hfind : ∀ id, s'.notes.find? id =
      (s.notes.find? id).map fun n => if id ∈ ids then f n else n := fun id => by
    rw [hn, Table.find?_modifyEach]
    exact fun n => idem n
  have hburns : ∀ id, id ∈ ids.toFinset ∩ s.ledger.live ↔
      ∃ n, s.notes.find? id = some n ∧ n.id ∈ ids ∧ n.spent = false := by
    intro id
    rw [Finset.mem_inter, List.mem_toFinset, mem_ledger_live]
    simp only [entry_eq_some]
    constructor
    · rintro ⟨hid, v, n, hn, -, hs⟩
      exact ⟨n, hn, Table.key_of_find? hn ▸ hid, hs⟩
    · rintro ⟨n, hn, hid, hs⟩
      exact ⟨Table.key_of_find? hn ▸ hid, _, n, hn, rfl, hs⟩
  refine posts_of_entry ?_ List.nodup_nil (by simp [Posting.keys]) ?_ ?_ (by simp) ?_
  · intro id hid
    obtain ⟨n, hn, -, hs⟩ := (hburns id).1 hid
    exact ⟨_, entry_eq_some.2 ⟨n, hn, rfl, hs⟩⟩
  · rw [sum_worth hburns]
    exact add_neg_cancel _
  · intro id v b hid
    obtain ⟨n, hn, rfl, rfl⟩ := entry_eq_some.1 hid
    refine entry_eq_some.2 ⟨if id ∈ ids then f n else n, by rw [hfind, hn]; rfl, ?_, ?_⟩
    · split
      exacts [hsame n, rfl]
    · have hid : n.id = id := Table.key_of_find? hn
      have hburn := hburns id
      rw [hn] at hburn
      by_cases hmem : id ∈ ids <;> cases hs : n.spent <;> simp_all
  · intro id hid _
    rw [entry_eq_none, hfind, entry_eq_none.1 hid]
    rfl

end NoteStore

/-! ## Events -/

section Histories

variable {d : Deps} {cfg : Settings d} {s : State} {w w' : World (mint cfg)}

/-- Whether an event is a posting. -/
def transacts : Event (mint cfg) → Bool
  | .did _ (.write (.settleMint ..)) _ (.ok (some _)) _
  | .did _ (.write (.swap ..)) _ (.ok _) _
  | .did _ (.write (.transferToUsername ..)) _ (.ok _) _
  | .did _ (.write (.finalizeMelt _)) _ (.ok _) _
  | .did _ (.write (.payAddressFeeWithNotes ..)) _ (.ok _) _ => true
  | _ => false

variable (cfg) in
/-- The posting that an event is. What it takes in is what the books say. -/
inductive Shows : Event (mint cfg) → Option (Posting Str ℤ) → Prop
  /-- A settled mint issues its note. -/
  | settled {a h derive i amountMsat pre} (id : Str) :
      Shows (.did a (.write (.settleMint h derive)) i (.ok (some amountMsat)) pre)
        (some ⟨∅, [(id, amountMsat)], amountMsat⟩)
  /-- A rotation, a split or a merge burns notes and issues others. -/
  | swapped {a burnIds ids amounts i pre} :
      Shows (.did a (.write (.swap burnIds ids amounts)) i (.ok ()) pre)
        (some ⟨burnIds.toFinset, ids.zip amounts,
          posted cfg (.did a (.write (.swap burnIds ids amounts)) i (.ok ()) pre)⟩)
  /-- A transfer issues the next note of a share for the one it burns. -/
  | transferred {a burnIds username amountMsat derive i id pre} :
      Shows
        (.did a (.write (.transferToUsername burnIds username amountMsat derive)) i (.ok id) pre)
        (some ⟨burnIds.toFinset, [(id, amountMsat)], 0⟩)
  /-- A melt that is finalized burns its notes, and gives out what they are worth. -/
  | melted {a ids i pre} :
      Shows (.did a (.write (.finalizeMelt ids)) i (.ok ()) pre)
        (some ⟨ids.toFinset ∩ pre.store.ledger.live, [], -pre.store.unspentWorth ids⟩)
  /-- So does a melt into an address fee. -/
  | sold {a ids h totalMsat i username pre} :
      Shows (.did a (.write (.payAddressFeeWithNotes ids h totalMsat)) i (.ok username) pre)
        (some ⟨ids.toFinset ∩ pre.store.ledger.live, [], -pre.store.unspentWorth ids⟩)
  /-- Everything else is no posting. -/
  | silent {e} (h : transacts e = false) : Shows e none

/-- A transaction that is no posting leaves the ledger alone. -/
theorem ledger_eq_of_silent {u : Update} {i : Input} {s s' : NoteStore} {out : u.Out}
    (hset : ∀ h derive, u ≠ .settleMint h derive) (hswap : ¬ u.Swaps) (hredeem : u.redeems = [])
    (hmelt : ∀ ids, u ≠ .finalizeMelt ids) (ho : u.apply i s = .ok (out, s')) :
    s'.ledger = s.ledger := by
  have hok : u.SwapsMeet fun _ _ _ => False := by
    cases u with
    | swap | transferToUsername => exact absurd trivial hswap
    | _ => trivial
  cases Update.notesStep hok ho with
  | keep hn =>
    refine NoteStore.ledger_congr fun id => ?_
    rw [NoteStore.entry, NoteStore.entry, hn]
  | credit _ hu =>
    obtain ⟨h, derive, rfl⟩ := hu
    exact absurd rfl (hset h derive)
  | swap _ _ _ _ _ _ _ _ hfalse => exact hfalse.elim
  | burn ids hu _ _ hn =>
    obtain ⟨h, total, rfl⟩ := hu
    obtain rfl : ids = [] := hredeem
    refine NoteStore.ledger_congr fun id => ?_
    rw [NoteStore.entry, NoteStore.entry, hn]
    rfl
  | reserve ids hash _ _ hs =>
    subst hs
    exact NoteStore.ledger_of_rewrite (NoteStore.find?_reserve ids hash) fun _ => rfl
  | finalize ids hu => exact absurd hu (hmelt ids)
  | restore ids _ hs =>
    subst hs
    exact NoteStore.ledger_of_rewrite (NoteStore.find?_restore ids) fun _ => rfl

/-- **Every event is a posting, or leaves the ledger alone.** -/
theorem simulates_ledger :
    Simulates (law cfg) s (fun st : State => st.store.ledger) Ledger.Posts (Shows cfg) := by
  intro w w' e _ hn
  have silent : transacts e = false → w'.st.store.ledger = w.st.store.ledger →
      (Shows cfg e none ∧ w'.st.store.ledger = w.st.store.ledger) ∨ ∃ p, Shows cfg e (some p) ∧
        w.st.store.ledger.Posts p w'.st.store.ledger := fun he hl => .inl ⟨.silent he, hl⟩
  rcases Next.store hn with ⟨hne, he⟩ | ⟨a, u, i, r, rfl, hu, hr⟩ | ⟨rfl, he⟩
  · refine silent ?_ (congrArg NoteStore.ledger he)
    cases e with
    | did a o i out pre =>
      cases o with
      | write u => exact absurd rfl (hne a u i out pre)
      | _ => rfl
    | _ => rfl
  · rcases Update.run_eq_some.1 hr with ⟨out, rfl, ho⟩ | ⟨e, rfl, -, -, he⟩
    · cases u with
      | settleMint hash derive =>
        rcases NoteStore.settleMint_ok ho with ⟨rfl, he, -⟩ | ⟨m, notes, -, -, rfl, hs⟩
        · exact silent rfl (congrArg NoteStore.ledger he)
        · rcases hs with ⟨id, -, hi, he⟩ | ⟨_, _, id, _, _, -, -, -, -, -, -, -, hi, he⟩
          all_goals
            have hnotes : w.st.store.notes.insert? (NoteStore.newNote i.now (id, m.amountMsat)) =
                some w'.st.store.notes := by
              rw [he]
              exact hi
            exact .inr ⟨_, .settled id, NoteStore.posts_credit hnotes⟩
      | swap burnIds ids amounts =>
        obtain ⟨s₁, hs₁, he⟩ := map_eq_ok.1 ho
        cases he
        obtain ⟨hlen, hposted⟩ := posted_swap i w.st hu
        exact .inr ⟨_, .swapped, (NoteStore.swapLocked_ok (NoteStore.reported_eq_ok.1 hs₁)).posts
          hlen hposted⟩
      | transferToUsername burnIds username amountMsat derive =>
        have hworth : amountMsat = w.st.store.worth burnIds := by
          obtain ⟨_, _, _, _, _, _, -, -, -, -, -, hworth⟩ := hu
          exact hworth
        obtain ⟨row, index, -, -, -, hswapped⟩ := NoteStore.transferToUsername_ok ho
        refine .inr ⟨_, .transferred, hswapped.posts rfl ?_⟩
        rw [List.sum_singleton, hworth]
        exact add_zero _
      | finalizeMelt ids =>
        have he : w.st.store.finalizeMelt ids = w'.st.store := (Prod.mk.inj (Except.ok.inj ho)).2
        exact .inr ⟨_, .melted, NoteStore.posts_redeem (congrArg NoteStore.notes he.symm)
          (fun _ => rfl) (fun _ => rfl) fun _ => rfl⟩
      | payAddressFeeWithNotes ids hash totalMsat =>
        obtain ⟨-, -, f, us, -, -, -, -, -, -, -, he⟩ := NoteStore.payAddressFeeWithNotes_ok ho
        exact .inr ⟨_, .sold, NoteStore.posts_redeem (congrArg NoteStore.notes he) (fun _ => rfl)
          (fun _ => rfl) fun _ => rfl⟩
      | _ => exact silent rfl (ledger_eq_of_silent (by simp) id rfl (by simp) ho)
    · refine silent ?_ (congrArg NoteStore.ledger he)
      cases u <;> rfl
  · exact silent rfl ((congrArg NoteStore.ledger he).trans rfl)

/-- **The mint is a ledger of bearer notes.** Whatever was interleaved with what, and wherever it
crashed, a run of the mint is a run of the ledger: its events are postings, or show nothing. So no
note is issued or burned twice, none is burned before it is issued, and what is outstanding is what
was taken in. -/
theorem mint_refines_ledger {c : Config (mint cfg)} (h : Reach State.initial c) :
    ∃ ps, Seen (Shows cfg) c.w.hist ps ∧ Trace Ledger.Posts .empty ps c.w.st.store.ledger ∧
      (ps.flatMap Posting.keys).Nodup ∧ (ps.Pairwise fun p q => Disjoint p.burns q.burns) ∧
      (∀ p rest, p :: rest <:+ ps → ∀ id ∈ p.burns, ∃ q ∈ rest, id ∈ q.keys) ∧
      c.w.st.store.outstandingMsat = (ps.map Posting.received).sum := by
  obtain ⟨ps, hseen, htrace⟩ := simulates_ledger.run (Reach.law h)
  have hempty : (State.initial.store).ledger = Ledger.empty :=
    Ledger.ext rfl rfl (funext fun _ => rfl)
  have htrace : Trace Ledger.Posts Ledger.empty ps c.w.st.store.ledger := hempty ▸ htrace
  refine ⟨ps, hseen, htrace, Ledger.issued_once htrace, Ledger.burned_once htrace,
    fun p rest hp id hid => Ledger.burned_issued htrace hp hid, ?_⟩
  rw [← NoteStore.outstanding_ledger, Ledger.outstanding_eq htrace]

/-- A note is minted and melted: the ledger took in 10000 msat and gave them out. -/
theorem mint_refines_ledger_melted : ∃ (c : Config standInMint) (ps : List (Posting Str ℤ)),
    Reach State.initial c ∧ Trace Ledger.Posts .empty ps c.w.st.store.ledger ∧
      redeemed c.w.hist = 10000 ∧ (ps.map Posting.received).sum = 0 := by
  have hrun : (standInRun meltedRun).any (fun c => decide (redeemed c.w.hist = 10000) &&
      decide (c.w.st.store.outstandingMsat = 0)) = true := by
    decide +kernel
  obtain ⟨c, hc, h⟩ := exists_standInRun hrun
  simp only [Bool.and_eq_true, decide_eq_true_eq] at h
  obtain ⟨ps, -, htrace, -, -, -, hsum⟩ := mint_refines_ledger hc
  exact ⟨c, ps, hc, htrace, h.1, hsum.symm.trans h.2⟩

end Histories

end LnurlMint
