import LnurlMint.Ownership
import Mathlib.Data.List.TakeWhile
import Mathlib.Tactic.IntervalCases

/-!
# Names and the addresses they make

Which names can be registered, which rows they are looked up by, and where the address of one
leads. Three pieces of text that were written apart have to fit: the pattern that registration
matches, the callback that a payRequest advertises, and the paths of the routes.

Both the pattern and the paths are anchored with `$`, which matches at the end of the text and
before a newline there. So a name may end in a newline, and `/p/cb` answers for two paths.

## Main definitions

* `InGrammar`, `Registrable` — the names that are meant to be registrable
* `NoteStore.NamesFit` — every name on file can be registered
* `ReadsAs` — two spellings are looked up by the same row
* `dispatch` — the GET route that answers for a path

## Main results

* `registration_grammar`
* `payable_at_callback`
-/

namespace LnurlMint

open Relational Interleave

variable {d : Deps} {cfg : Settings d}

/-! ## Which names can be registered -/

/-- 1 to 32 letters in lower case, digits, underscores, dots and dashes. -/
def InGrammar (s : Str) : Prop :=
  1 ≤ s.length ∧ s.length ≤ 32 ∧ ∀ c ∈ s, c ∈ "abcdefghijklmnopqrstuvwxyz0123456789_.-".toList

/-- Such a text that is no name of the mint's own. -/
def Registrable (cfg : Settings d) (s : Str) : Prop :=
  InGrammar s ∧ s ≠ d.lower cfg.username ∧ s ≠ "_".toList ∧ s ≠ "mint".toList

/-- Such a text with a newline after it, unless the mint itself is called that. -/
def TrailsNewline (cfg : Settings d) (s : Str) : Prop :=
  (∃ name, s = name ++ ['\n'] ∧ InGrammar name) ∧ s ≠ d.lower cfg.username

/-- What a check of each character of a text shows. -/
theorem forall_mem_of_all {P : Char → Prop} [DecidablePred P] {s : Str}
    (h : (s.all fun c => decide (P c)) = true) : ∀ c ∈ s, P c :=
  fun c hc => of_decide_eq_true (List.all_eq_true.1 h c hc)

theorem usernameChar_iff {c : Char} :
    usernameChar c = true ↔ c ∈ "abcdefghijklmnopqrstuvwxyz0123456789_.-".toList := by
  constructor
  · intro h
    have hc : c = Char.ofNat c.toNat := (Char.ofNat_toNat c).symm
    have range : ∀ lo hi : Char, lo ≤ c → c ≤ hi → lo.toNat ≤ c.toNat ∧ c.toNat ≤ hi.toNat :=
      fun _ _ hlo hhi => ⟨hlo, hhi⟩
    simp only [usernameChar, Bool.or_eq_true, Bool.and_eq_true, decide_eq_true_eq] at h
    rcases h with (((⟨hlo, hhi⟩ | ⟨hlo, hhi⟩) | rfl) | rfl) | rfl
    · obtain ⟨hlo, hhi⟩ := range _ _ hlo hhi
      rw [hc]
      generalize c.toNat = n at hlo hhi
      change 97 ≤ n at hlo
      change n ≤ 122 at hhi
      interval_cases n <;> decide
    · obtain ⟨hlo, hhi⟩ := range _ _ hlo hhi
      rw [hc]
      generalize c.toNat = n at hlo hhi
      change 48 ≤ n at hlo
      change n ≤ 57 at hhi
      interval_cases n <;> decide
    all_goals decide
  · exact forall_mem_of_all (P := fun c => usernameChar c = true) (by decide) c

/-- What the pattern matches: a name, or a name and a newline. -/
theorem usernamePattern_iff {s : Str} : usernamePattern s = true ↔
    InGrammar s ∨ ∃ name, s = name ++ ['\n'] ∧ InGrammar name := by
  have body : ∀ t : Str, (0 < t.length && t.length ≤ 32 && t.all usernameChar) = true ↔
      InGrammar t := by
    intro t
    simp only [InGrammar, Bool.and_eq_true, decide_eq_true_eq, List.all_eq_true, usernameChar_iff,
      and_assoc]
    exact Iff.rfl
  have newline : '\n' ∉ "abcdefghijklmnopqrstuvwxyz0123456789_.-".toList := by decide
  rw [usernamePattern, body]
  by_cases hlast : s.getLast? = some '\n'
  · obtain ⟨name, rfl⟩ := List.getLast?_eq_some_iff.1 hlast
    rw [if_pos hlast, List.dropLast_concat]
    constructor
    · exact fun h => .inr ⟨name, rfl, h⟩
    · rintro (⟨-, -, h⟩ | ⟨name', he, h⟩)
      · exact absurd (h '\n' (by simp)) newline
      · rwa [(List.append_inj_left' he rfl : name = name')]
  · rw [if_neg hlast]
    constructor
    · exact .inl
    · rintro (h | ⟨name, rfl, -⟩)
      · exact h
      · exact absurd (by simp) hlast

/-- A text of characters that are their own lower case. -/
theorem Deps.lower_of_forall {s : Str} (h : ∀ c ∈ s, c.toNat < 128 ∧ c.toLower = c) :
    d.lower s = s := by
  induction s with
  | nil => rfl
  | cons c s ih =>
    obtain ⟨hascii, hlow⟩ := h c List.mem_cons_self
    rw [Deps.lower, List.flatMap_cons, if_pos hascii, hlow]
    exact congrArg (c :: ·) (ih fun c hc => h c (List.mem_cons_of_mem _ hc))

section Pattern

variable {s : Str} (h : usernamePattern s = true)
include h

theorem usernamePattern.mem {c : Char} (hc : c ∈ s) :
    c ∈ "abcdefghijklmnopqrstuvwxyz0123456789_.-\n".toList := by
  have hsub : ∀ c ∈ "abcdefghijklmnopqrstuvwxyz0123456789_.-".toList,
      c ∈ "abcdefghijklmnopqrstuvwxyz0123456789_.-\n".toList := forall_mem_of_all (by decide)
  rcases usernamePattern_iff.1 h with ⟨-, -, hall⟩ | ⟨name, rfl, -, -, hall⟩
  · exact hsub c (hall c hc)
  · rcases List.mem_append.1 hc with hc | hc
    · exact hsub c (hall c hc)
    · rw [List.mem_singleton.1 hc]
      decide

/-- A name is its own lower case. -/
theorem usernamePattern.lower : d.lower s = s := by
  have hlow : ∀ c ∈ "abcdefghijklmnopqrstuvwxyz0123456789_.-\n".toList,
      c.toNat < 128 ∧ c.toLower = c := forall_mem_of_all (by decide)
  exact Deps.lower_of_forall fun c hc => hlow c (usernamePattern.mem h hc)

/-- A name has no tag. -/
theorem usernamePattern.addressName : addressName d s = s := by
  rw [LnurlMint.addressName, usernamePattern.lower h, List.takeWhile_eq_self_iff]
  intro c hc
  have hplus : ∀ c ∈ "abcdefghijklmnopqrstuvwxyz0123456789_.-\n".toList,
      decide (c ≠ '+') = true := forall_mem_of_all (by decide)
  exact hplus c (usernamePattern.mem h hc)

theorem usernamePattern.ne_nil : s ≠ [] := by
  rintro rfl
  cases h

theorem usernamePattern.slash_notMem : '/' ∉ s := by
  intro hc
  have := usernamePattern.mem h hc
  revert this
  decide

end Pattern

theorem registrableUsername_iff {s : Str} : registrableUsername cfg s = true ↔
    usernamePattern s = true ∧ s ≠ d.lower cfg.username ∧ s ≠ "_".toList ∧ s ≠ "mint".toList := by
  rw [registrableUsername, Bool.and_eq_true]
  refine and_congr_right fun h => ?_
  simp [knownUsername, usernamePattern.lower h]

/-- The pattern goes wrong on a newline at the end, and on nothing else. -/
theorem registrableUsername_iff_registrable {s : Str} :
    (registrableUsername cfg s = true ↔ Registrable cfg s) ↔ ¬ TrailsNewline cfg s := by
  rw [registrableUsername_iff, Registrable, usernamePattern_iff, TrailsNewline]
  have ends : ∀ name : Str, name ++ ['\n'] ≠ "_".toList ∧ name ++ ['\n'] ≠ "mint".toList ∧
      ¬ InGrammar (name ++ ['\n']) := by
    intro name
    refine ⟨fun h => ?_, fun h => ?_, fun ⟨_, _, h⟩ => ?_⟩
    · have hlast := congrArg List.getLast? h
      rw [List.getLast?_concat] at hlast
      revert hlast
      decide
    · have hlast := congrArg List.getLast? h
      rw [List.getLast?_concat] at hlast
      revert hlast
      decide
    · have hmem := h '\n' (by simp)
      revert hmem
      decide
  constructor
  · rintro hiff ⟨⟨name, rfl, hname⟩, hne⟩
    obtain ⟨hbar, hmint, hnot⟩ := ends name
    exact hnot (hiff.1 ⟨.inr ⟨name, rfl, hname⟩, hne, hbar, hmint⟩).1
  · intro hnot
    constructor
    · rintro ⟨h | h, hne, hrest⟩
      · exact ⟨h, hne, hrest⟩
      · exact absurd ⟨h, hne⟩ hnot
    · rintro ⟨h, hrest⟩
      exact ⟨.inl h, hrest⟩

theorem required_of_get {form : Form} {name : String} {x : Str}
    (h : form.get name.toList = some x) : required form name = .done (.ok x) := by
  rw [required, h]
  rfl

/-- Registration refuses a name, of what it was sent in full, exactly when it is not registrable. -/
theorem registerUsername_refused_iff {baseUrl v : Str} {form : Form}
    (hon : cfg.usernameRegistrationEnabled = true) (hcx1 : form.get "cx1".toList ≠ none)
    (hsig : form.get "sig".toList ≠ none) :
    registerUsername cfg baseUrl v form =
        .done (.error (.http "Invalid or reserved username.")) ↔
      ¬ registrableUsername cfg (d.lower v) = true := by
  constructor
  · -- whatever else is refused is refused in other words
    intro h hreg
    rcases Prog.bind_eq_raise h with h | ⟨-, -, h⟩
    · exact absurd (Prog.raiseIf_eq_raise h) (by decide)
    rcases Prog.bind_eq_raise h with h | ⟨cx1, -, h⟩
    · exact absurd (Prog.orRaise_eq_raise h) (by decide)
    rcases Prog.bind_eq_raise h with h | ⟨sig, -, h⟩
    · exact absurd (Prog.orRaise_eq_raise h) (by decide)
    rcases Prog.bind_eq_raise h with h | ⟨-, -, h⟩
    · rw [Prog.raiseIf, if_neg (by rw [hreg]; decide)] at h
      cases h
    rcases Prog.bind_eq_raise h with h | ⟨share, -, h⟩
    · exact absurd (Prog.orRaise_eq_raise h) (by decide)
    rcases Prog.bind_eq_raise h with h | ⟨npub, -, h⟩
    · unfold registeredNpub at h
      split at h
      · cases h
      rcases Prog.bind_eq_raise h with h | ⟨-, -, h⟩
      · exact absurd (Prog.raiseIf_eq_raise h) (by decide)
      rcases Prog.bind_eq_raise h with h | ⟨decoded, -, h⟩
      · exact absurd (Prog.orRaise_eq_raise h) (by decide)
      · cases h
    rcases Prog.bind_eq_raise h with h | ⟨dom, -, h⟩
    · injection h with h
      exact absurd rfl (not_http_of_mintDomain h _)
    rcases Prog.bind_eq_raise h with h | ⟨-, -, h⟩
    · exact absurd (Prog.raiseIf_eq_raise h) (by decide)
    split at h <;> cases h
  · intro hreg
    obtain ⟨cx1, hcx1⟩ := Option.ne_none_iff_exists'.1 hcx1
    obtain ⟨sig, hsig⟩ := Option.ne_none_iff_exists'.1 hsig
    have hreg : registrableUsername cfg (d.lower v) = false := Bool.eq_false_of_not_eq_true hreg
    rw [registerUsername, required_of_get hcx1, required_of_get hsig, hon]
    simp only [Prog.raiseIf, Prog.bind_eq, Prog.thenE, Prog.onOk_ok, hreg]
    rfl

/-! ## Which names are on file -/

/-- Every name on file or held can be registered. -/
structure NoteStore.NamesFit (cfg : Settings d) (s : NoteStore) : Prop where
  names : ∀ row ∈ s.usernames.rows, registrableUsername cfg row.username = true
  fees : ∀ f ∈ s.addressFees.rows, registrableUsername cfg f.username = true

/-- The name that a transaction brings in. -/
def Update.names : Update → Option Str
  | registerUsername username .. => some username
  | holdUsername _ _ username .. => some username
  | _ => none

theorem mem_modify {us : Table UsernameRow.username} {username : Str}
    {g : UsernameRow → UsernameRow} {hg} {row : UsernameRow}
    (h : row ∈ (us.modify username g hg).rows) :
    ∃ row' ∈ us.rows, row'.username = row.username := by
  obtain ⟨row', hrow', rfl⟩ := List.mem_map.1 h
  refine ⟨row', hrow', ?_⟩
  split
  · exact (hg row').symm
  · rfl

theorem mem_markPaid {s : NoteStore} {h : Str} {f : FeeRow}
    (hf : f ∈ (s.markPaid h).addressFees.rows) : ∃ f' ∈ s.addressFees.rows,
      f'.username = f.username := by
  obtain ⟨f', hf', rfl⟩ := List.mem_map.1 hf
  refine ⟨f', hf', ?_⟩
  split <;> rfl

theorem NoteStore.NamesFit.step {s s' : NoteStore} {t : ℤ} {u : Update} {filed : Option Str}
    (h : s.NamesFit cfg) (hs : NamesStep t u filed s s')
    (hu : ∀ name, u.names = some name → registrableUsername cfg name = true) :
    s'.NamesFit cfg := by
  cases hs with
  | keep hn hf => exact ⟨hn ▸ h.names, hf ▸ h.fees⟩
  | advance username index hn hf =>
    refine ⟨?_, hf ▸ h.fees⟩
    rw [hn]
    intro row hrow
    obtain ⟨row', hrow', he⟩ := mem_modify hrow
    exact he ▸ h.names row' hrow'
  | register username cx1 xp npub hu' _ hn hf =>
    refine ⟨fun row hrow => ?_, hf ▸ h.fees⟩
    rcases (Table.mem_insert? hn).1 hrow with hrow | rfl
    · exact h.names row hrow
    · exact hu username (by rw [hu']; rfl)
  | hold f xp _ hu' _ hn hf =>
    refine ⟨hn ▸ h.names, fun f' hf' => ?_⟩
    rcases (Table.mem_insert? hf).1 hf' with hf' | rfl
    · exact h.fees f' hf'
    · exact hu _ (by rw [hu']; rfl)
  | lapse f _ _ _ _ hn hf =>
    refine ⟨hn ▸ h.names, fun f' hf' => ?_⟩
    obtain ⟨f₀, hf₀, he⟩ := mem_markPaid (hf ▸ hf')
    exact he ▸ h.fees f₀ hf₀
  | settle f _ _ hg _ hn hf =>
    constructor
    · intro row hrow
      rcases (Table.mem_insert? hn).1 hrow with hrow | rfl
      · exact h.names row hrow
      · exact h.fees f (Table.mem_of_find? hg)
    · intro f' hf'
      obtain ⟨f₀, hf₀, he⟩ := mem_markPaid (hf ▸ hf')
      exact he ▸ h.fees f₀ hf₀
  | update username cx1 xp row _ _ hn hf =>
    refine ⟨?_, hf ▸ h.fees⟩
    rw [hn]
    intro row hrow
    obtain ⟨row', hrow', he⟩ := mem_modify hrow
    exact he ▸ h.names row' hrow'
  | delete username _ hn hf =>
    refine ⟨fun row hrow => ?_, hf ▸ h.fees⟩
    rw [hn] at hrow
    exact h.names row (List.mem_of_mem_filter hrow)

theorem MayWrite.registrable {w : World (mint cfg)} {a : Actor mintSig} {u : Update}
    (h : MayWrite cfg w a u) {name : Str} (hn : u.names = some name) :
    registrableUsername cfg name = true := by
  cases u with
  | registerUsername =>
    cases hn
    exact h.2.2
  | holdUsername =>
    cases hn
    exact h.2.2.1
  | _ => cases hn

/-- **Every name on file can be registered, in every history.** -/
theorem Run.namesFit {w : World (mint cfg)} (h : Run (law cfg) State.initial w) :
    w.st.store.NamesFit cfg := by
  induction h with
  | start =>
    exact ⟨by simp [State.initial, NoteStore.empty], by simp [State.initial, NoteStore.empty]⟩
  | step _ hn ih =>
    rcases Next.names hn with ⟨-, hu, hf, -⟩ | ⟨a, u, i, out, rfl, hu, hap⟩
    · exact ⟨hu ▸ ih.names, hf ▸ ih.fees⟩
    · exact ih.step (Update.namesStep hap) fun name hname => hu.registrable hname

/-! ## Looking names up -/

/-- A spelling is looked up by the row of a name, wherever it is given. -/
structure ReadsAs (cfg : Settings d) (v name : Str) : Prop where
  branch : registeredUsernameBranch cfg (addressName d v) =
    if cfg.usernameRegistrationEnabled then read (.usernameBranch name) else pure none
  payRequest : ∀ baseUrl, getLnaddress cfg baseUrl v = getLnaddress cfg baseUrl name
  callback : ∀ baseUrl amount comment nostr k1,
    getPayCallbackForUsername cfg baseUrl v amount comment nostr k1 =
      getPayCallbackForUsername cfg baseUrl name amount comment nostr k1
  mintAddress : ∀ response, getMintAddress cfg response v = getMintAddress cfg response name
  nip05 : cfg.nip05Enabled = true → cfg.usernameRegistrationEnabled = true →
    getNip05 cfg (some v) = (read (.nostrPubkey name) >>= fun pubkey : Option Str =>
      pure (.nip05 (pubkey.toList.map fun pubkey => (v, pubkey))))
  update : ∀ baseUrl form,
    updateRegisteredUsername cfg baseUrl v form = updateRegisteredUsername cfg baseUrl name form
  delete : ∀ baseUrl form,
    deleteRegisteredUsername cfg baseUrl v form = deleteRegisteredUsername cfg baseUrl name form

/-- Every spelling of a name in other letter case reads the name's row. -/
theorem readsAs {v name : Str} (hname : usernamePattern name = true) (hv : d.lower v = name) :
    ReadsAs cfg v name := by
  have hlow : d.lower name = name := usernamePattern.lower hname
  have haddr : addressName d name = name := usernamePattern.addressName hname
  have haddr' : addressName d v = name := by
    rw [← haddr, LnurlMint.addressName, LnurlMint.addressName, hv, hlow]
  constructor
  · rw [registeredUsernameBranch, haddr', hlow]
  · intro baseUrl
    rw [getLnaddress, getLnaddress, haddr, haddr']
  · intro baseUrl amount comment nostr k1
    rw [getPayCallbackForUsername, getPayCallbackForUsername, haddr, haddr']
  · intro response
    rw [getMintAddress, getMintAddress, haddr, haddr']
  · intro hnip hon
    subst hv
    simp only [getNip05, hnip, hon, if_true]
    rfl
  · intro baseUrl form
    rw [updateRegisteredUsername, updateRegisteredUsername, hv, hlow]
  · intro baseUrl form
    rw [deleteRegisteredUsername, deleteRegisteredUsername, hv, hlow]

/-- **What registration accepts, and what is on file.** A name gets past the check if and only if it
is meant to, for every name but those that end in a newline after a good name. Every name that is
ever stored is its own lower case and its own address, and every spelling of it reads its row. -/
theorem registration_grammar (cfg : Settings d) :
    (∀ baseUrl v form, cfg.usernameRegistrationEnabled = true → form.get "cx1".toList ≠ none →
      form.get "sig".toList ≠ none →
      ((registerUsername cfg baseUrl v form ≠
            .done (.error (.http "Invalid or reserved username.")) ↔ Registrable cfg (d.lower v)) ↔
        ¬ TrailsNewline cfg (d.lower v))) ∧
    ∀ c : Config (mint cfg), Reach State.initial c → ∀ name,
      ((∃ row ∈ c.w.st.store.usernames.rows, row.username = name) ∨
        ∃ f ∈ c.w.st.store.addressFees.rows, f.username = name) →
      d.lower name = name ∧ addressName d name = name ∧
        ∀ v, d.lower v = name → ReadsAs cfg v name := by
  constructor
  · intro baseUrl v form hon hcx1 hsig
    rw [Ne, registerUsername_refused_iff hon hcx1 hsig, not_not]
    exact registrableUsername_iff_registrable
  · intro c h name hname
    have hfit : c.w.st.store.NamesFit cfg := Run.namesFit (Reach.law h)
    have hreg : registrableUsername cfg name = true := by
      rcases hname with ⟨row, hrow, rfl⟩ | ⟨f, hf, rfl⟩
      · exact hfit.names row hrow
      · exact hfit.fees f hf
    obtain ⟨hpattern, -⟩ := registrableUsername_iff.1 hreg
    exact ⟨usernamePattern.lower hpattern, usernamePattern.addressName hpattern,
      fun v hv => readsAs hpattern hv⟩

/-- A name is on file. -/
def nameOnFile (name : Str) (c : Config standInMint) : Bool :=
  c.w.st.store.usernames.rows.any fun row => row.username = name

theorem nameOnFile_eq_true {name : Str} {c : Config standInMint} (h : nameOnFile name c = true) :
    ∃ row ∈ c.w.st.store.usernames.rows, row.username = name := by
  obtain ⟨row, hrow, hname⟩ := List.any_eq_true.1 h
  exact ⟨row, hrow, of_decide_eq_true hname⟩

theorem registration_grammar_alice :
    (registerUsername Settings.standIn "mint".toList "Alice".toList
        (standInForm .register "alice".toList 'p') ≠
      .done (.error (.http "Invalid or reserved username.")) ↔
        Registrable Settings.standIn "alice".toList) ∧
    ∃ c : Config standInMint, Reach State.initial c ∧
      (∃ row ∈ c.w.st.store.usernames.rows, row.username = "alice".toList) ∧
      ReadsAs Settings.standIn "ALICE".toList "alice".toList := by
  have hnot : ¬ TrailsNewline Settings.standIn "alice".toList := by
    rintro ⟨⟨name, he, -⟩, -⟩
    have hlast := congrArg List.getLast? he
    rw [List.getLast?_concat] at hlast
    revert hlast
    decide
  refine ⟨((registration_grammar Settings.standIn).1 _ _ _ rfl (by decide) (by decide)).2 hnot, ?_⟩
  have hrun : (standInRun (standInRegisters 0 "alice".toList 'p' 0)).any
    (nameOnFile "alice".toList) =
      true := by decide +kernel
  obtain ⟨c, hc, hfile⟩ := exists_standInRun hrun
  have hrow := nameOnFile_eq_true hfile
  obtain ⟨-, -, hreads⟩ := (registration_grammar Settings.standIn).2 c hc _ (.inl hrow)
  exact ⟨c, hc, hrow, hreads _ (by decide)⟩

/-- **A name with a newline at its end can be registered.** -/
theorem registration_newline :
    ¬ Registrable Settings.standIn (Deps.standIn.lower "alice\n".toList) ∧
    ∃ c : Config standInMint, Reach State.initial c ∧
      ∃ row ∈ c.w.st.store.usernames.rows, row.username = "alice\n".toList := by
  constructor
  · rintro ⟨⟨-, -, hall⟩, -⟩
    have hmem := hall '\n' (by decide)
    revert hmem
    decide
  · have hrun : (standInRun (standInRegisters 0 "alice\n".toList 'p' 0)).any
        (nameOnFile "alice\n".toList) = true := by decide +kernel
    obtain ⟨c, hc, hfile⟩ := exists_standInRun hrun
    exact ⟨c, hc, nameOnFile_eq_true hfile⟩

/-! ## Routes -/

/-- A piece of a declared path. -/
inductive Segment
  | literal (s : Str)
  | param
deriving DecidableEq

/-- The pieces of a declared path, where `{name}` declares a parameter. -/
def segments (path : String) : List Segment :=
  (path.toList.splitOn '/').map fun s =>
    if s.head? = some (Char.ofNat 0x7b) then .param else .literal s

/-- What the pattern of a route binds on a path, given by their pieces. A parameter is any text
without a slash that is not empty; the `$` at the end lets a newline pass after a literal. -/
def bindPath : List Segment → List Str → Option (List Str)
  | [], [] => some []
  | [.literal s], [x] => if x = s ∨ x = s ++ ['\n'] then some [] else none
  | .literal s :: pattern, x :: path => if x = s then bindPath pattern path else none
  | .param :: pattern, x :: path => if x = [] then none else (bindPath pattern path).map (x :: ·)
  | _, _ => none

/-- The handler of a GET route, with what the path binds. -/
inductive Handler
  | getNip05
  | getLnaddress (username : Str)
  | getMintAddress (username : Str)
  | getPayCallback
  | getPayCallbackForUsername (username : Str)
  | verifyInvoice (paymentHash : Str)
  | getWithdraw
  | getWithdrawCallback
  /-- A page of the front end, a file, or the schema. -/
  | page
deriving DecidableEq

/-- The GET routes, in the order in which they are declared. -/
def getRoutes : List (String × (Str → Handler)) :=
  [("/openapi.json", fun _ => .page),
    ("/.well-known/nostr.json", fun _ => .getNip05),
    ("/.well-known/lnurlp/{username}", .getLnaddress),
    ("/.well-known/lnurlw/{username}", .getMintAddress),
    ("/p/cb", fun _ => .getPayCallback),
    ("/p/{username}", .getPayCallbackForUsername),
    ("/verify/{payment_hash}", .verifyInvoice),
    ("/w", fun _ => .getWithdraw),
    ("/w/cb", fun _ => .getWithdrawCallback),
    ("/favicon.svg", fun _ => .page),
    ("/static/swagger-ui-bundle.js", fun _ => .page),
    ("/static/swagger-ui.css", fun _ => .page),
    ("/docs", fun _ => .page),
    ("/", fun _ => .page)]

/-- The first declared route that matches a path. -/
def dispatch (path : Str) : Option Handler :=
  getRoutes.findSome? fun (declared, handler) =>
    (bindPath (segments declared) (path.splitOn '/')).map fun params => handler (params.headD [])

example : dispatch "/p/cb".toList = some .getPayCallback := by decide +kernel

example : dispatch "/.well-known/lnurlp/alice+tip".toList =
    some (.getLnaddress "alice+tip".toList) := by decide +kernel

/-- What a request at a registered name's own callback does: it asks for a payment to the share, or
transfers a note to it. -/
def payOrTransfer (cfg : Settings d) (baseUrl username : Str) (amount : ℤ)
    (comment nostr k1 : Option Str) : Mint Response := do
  let branch ← registeredUsernameBranch cfg username
  Prog.raiseIf (branch = none) (.http "unknown user")
  match k1 with
  | some k1 => internalTransfer cfg username amount k1
  | none => do
    let _ ← Prog.orRaise (branch.bind fromhex)
      (.value "non-hexadecimal number found in fromhex() arg")
    payCallback cfg baseUrl amount comment nostr (some username)

theorem getPayCallbackForUsername_eq {baseUrl v name : Str} (hv : addressName d v = name)
    (hknown : knownUsername cfg name = false) (amount : ℤ) (comment nostr k1 : Option Str) :
    getPayCallbackForUsername cfg baseUrl v amount comment nostr k1 =
      payOrTransfer cfg baseUrl name amount comment nostr k1 := by
  rw [getPayCallbackForUsername, payOrTransfer, hv]
  refine congrArg (Bind.bind _) (funext fun branch => ?_)
  have hunknown : (branch = none ∨ knownUsername cfg name = true) ↔ branch = none := by
    simp [hknown]
  exact congrArg (Prog.thenE · _) (Prog.raiseIf_congr hunknown _)

/-- **Where the callback of a name leads.** -/
theorem dispatch_callback {name : Str} (hslash : '/' ∉ name) (hne : name ≠ []) :
    dispatch ("/p/".toList ++ name) =
      some (if name = "cb".toList ∨ name = "cb\n".toList then .getPayCallback
        else .getPayCallbackForUsername name) := by
  have hsplit : ("/p/".toList ++ name).splitOn '/' = [[], "p".toList, name] := by
    have hpath : "/p/".toList ++ name = ['/'].intercalate [[], "p".toList, name] := by
      simp [List.intercalate]
    rw [hpath]
    refine List.splitOn_intercalate '/' (fun s hs => ?_) (by simp)
    rcases List.mem_cons.1 hs with rfl | hs
    · exact List.not_mem_nil
    rcases List.mem_pair.1 hs with rfl | rfl
    · decide
    · exact hslash
  have hmiss : ∀ declared ∈ ["/openapi.json", "/.well-known/nostr.json",
      "/.well-known/lnurlp/{username}", "/.well-known/lnurlw/{username}"],
      bindPath (segments declared) [[], "p".toList, name] = none := by
    intro declared hd
    simp only [List.mem_cons, List.not_mem_nil, or_false] at hd
    rcases hd with rfl | rfl | rfl | rfl <;> rfl
  have hcb : bindPath (segments "/p/cb") [[], "p".toList, name] =
      if name = "cb".toList ∨ name = "cb\n".toList then some [] else none := rfl
  have hname : bindPath (segments "/p/{username}") [[], "p".toList, name] = some [name] := by
    have hparam : bindPath (segments "/p/{username}") [[], "p".toList, name] =
      if name = [] then none else some [name] := rfl
    rw [hparam, if_neg hne]
  rw [dispatch, hsplit]
  simp only [getRoutes, List.findSome?_cons, hmiss "/openapi.json" (by simp),
    hmiss "/.well-known/nostr.json" (by simp), hmiss "/.well-known/lnurlp/{username}" (by simp),
    hmiss "/.well-known/lnurlw/{username}" (by simp), Option.map_none, hcb, hname]
  by_cases h : name = "cb".toList ∨ name = "cb\n".toList
  · rw [if_pos h, if_pos h]
    rfl
  · rw [if_neg h, if_neg h]
    rfl

/-- **The address of a name is payable at the callback it advertises, unless the name is `cb`.**
Wherever a payRequest was given for a spelling of a registered name, its callback is a path under
the mint's base URL. The path is dispatched to the handler of that name if and only if the name is
not `cb`, nor that with a newline, and to the mint's own handler otherwise; and what the name's
handler does there is a payment to the name's share, or a transfer to it. -/
theorem payable_at_callback {c : Config (mint cfg)} (h : Reach State.initial c) {row : UsernameRow}
    (hrow : row ∈ c.w.st.store.usernames.rows) {a : Actor mintSig} {baseUrl v : Str}
    (ha : a.task = .request ⟨baseUrl, .getLnaddress v⟩) (hv : addressName d v = row.username)
    {callback withdrawLink : Str} {minSendable maxSendable : ℤ} {metadata : List (String × Str)}
    {commentAllowed : Option ℕ} {nostrPubkey : Option Str} {pre : State}
    (hf : .finished a (.ok (.payRequest callback minSendable maxSendable metadata withdrawLink
      commentAllowed nostrPubkey)) pre ∈ c.w.hist) :
    ∃ base path, cfg.publicBaseUrl baseUrl = .ok base ∧ callback = base ++ path ∧
      ((∃ name, dispatch path = some (.getPayCallbackForUsername name) ∧
          addressName d name = row.username ∧ ∀ baseUrl amount comment nostr k1,
            getPayCallbackForUsername cfg baseUrl name amount comment nostr k1 =
              payOrTransfer cfg baseUrl row.username amount comment nostr k1) ↔
        row.username ≠ "cb".toList ∧ row.username ≠ "cb\n".toList) ∧
      (dispatch path = some .getPayCallback ↔
        row.username = "cb".toList ∨ row.username = "cb\n".toList) := by
  have hr : Run (law cfg) State.initial c.w := Reach.law h
  have hreg := (Run.namesFit hr).names row hrow
  obtain ⟨hpattern, -⟩ := registrableUsername_iff.1 hreg
  have hknown : knownUsername cfg row.username = false := by
    rw [registrableUsername, Bool.and_eq_true, Bool.not_eq_true'] at hreg
    exact hreg.2
  obtain ⟨w₀, w₁, -, hn, -⟩ := hr.past hf
  have hrested := hn.lawful.2.2 _ rfl
  rw [Rested, ha] at hrested
  obtain ⟨base, hbase, hcallback⟩ : LeadsTo cfg baseUrl v callback := hrested _ _ _ _ _ _ _ rfl
  rw [hv, if_neg (by rw [hknown]; decide)] at hcallback
  have hdispatch := dispatch_callback (usernamePattern.slash_notMem hpattern)
    (usernamePattern.ne_nil hpattern)
  refine ⟨base, _, hbase, hcallback, ?_⟩
  rw [hdispatch]
  by_cases hcb : row.username = "cb".toList ∨ row.username = "cb\n".toList
  · rw [if_pos hcb]
    refine ⟨⟨?_, fun hne => ?_⟩, fun _ => hcb, fun _ => rfl⟩
    · rintro ⟨name, ⟨⟩, -⟩
    · exact (hcb.elim hne.1 hne.2).elim
  · rw [if_neg hcb]
    have haddr := usernamePattern.addressName (d := d) hpattern
    refine ⟨⟨fun _ => not_or.1 hcb, fun _ => ?_⟩, ?_, fun h => absurd h hcb⟩
    · exact ⟨_, rfl, haddr, fun _ => getPayCallbackForUsername_eq haddr hknown⟩
    · rintro ⟨⟩

/-- A name is registered and looked up by a spelling of it. -/
def lookupRun (name v : Str) : List (Choice standInMint) :=
  standInRegisters 0 name 'p' 0 ++ standInAsks 3 (.getLnaddress v) ++ standInGoes 2 0

/-- The last event answers a lookup of this spelling with a payRequest that has this callback. -/
def lookupAnswered (v callback : Str) : List (Event standInMint) → Bool
  | .finished a (.ok (.payRequest callback' ..)) _ :: _ => callback' = callback &&
    match a.task with
    | .request ⟨_, .getLnaddress v'⟩ => v' = v
    | _ => false
  | _ => false

theorem lookupAnswered_eq_true {v callback : Str} {hist : List (Event standInMint)}
    (h : lookupAnswered v callback hist = true) :
    ∃ a baseUrl minSendable maxSendable metadata withdrawLink commentAllowed nostrPubkey pre,
      a.task = .request ⟨baseUrl, .getLnaddress v⟩ ∧
      .finished a (.ok (.payRequest callback minSendable maxSendable metadata withdrawLink
        commentAllowed nostrPubkey)) pre ∈ hist := by
  unfold lookupAnswered at h
  split at h
  · obtain ⟨hcallback, hv⟩ := (Bool.and_eq_true _ _).mp h
    obtain rfl := of_decide_eq_true hcallback
    split at hv
    · rename_i ha
      obtain rfl := of_decide_eq_true hv
      exact ⟨_, _, _, _, _, _, _, _, _, ha, List.mem_cons_self⟩
    · cases hv
  · cases h

theorem exists_lookupAnswered {name v callback : Str}
    (hrun : (standInRun (lookupRun name v)).any
      (fun c => nameOnFile name c && lookupAnswered v callback c.w.hist) = true) :
    ∃ c : Config standInMint, Reach State.initial c ∧
      (∃ row ∈ c.w.st.store.usernames.rows, row.username = name) ∧
      ∃ a baseUrl minSendable maxSendable metadata withdrawLink commentAllowed nostrPubkey pre,
        a.task = .request ⟨baseUrl, .getLnaddress v⟩ ∧
        .finished a (.ok (.payRequest callback minSendable maxSendable metadata withdrawLink
          commentAllowed nostrPubkey)) pre ∈ c.w.hist := by
  obtain ⟨c, hc, hb⟩ := exists_standInRun hrun
  obtain ⟨hname, hlooked⟩ := (Bool.and_eq_true _ _).mp hb
  exact ⟨c, hc, nameOnFile_eq_true hname, lookupAnswered_eq_true hlooked⟩

/-- `Alice+tip` leads to `alice`. -/
theorem payable_at_callback_alice : ∃ path name,
    dispatch path = some (.getPayCallbackForUsername name) ∧
    addressName .standIn name = "alice".toList := by
  have hrun : (standInRun (lookupRun "alice".toList "Alice+tip".toList)).any (fun c =>
      nameOnFile "alice".toList c && lookupAnswered "Alice+tip".toList "mint/p/alice".toList
        c.w.hist) =
      true := by decide +kernel
  obtain ⟨c, hc, ⟨row, hrow, hname⟩, a, baseUrl, _, _, _, _, _, _, pre, ha, hf⟩ :=
    exists_lookupAnswered hrun
  have hv : addressName .standIn "Alice+tip".toList = row.username := by
    rw [hname]
    decide
  obtain ⟨-, path, -, -, hleads, -⟩ := payable_at_callback hc hrow ha hv hf
  obtain ⟨name, hdispatch, haddr, -⟩ := hleads.2 (by rw [hname]; decide)
  exact ⟨path, name, hdispatch, haddr.trans hname⟩

/-- **The name `cb` can be registered, and its payRequest leads to the mint's own callback.** -/
theorem unpayable_cb : dispatch "/p/cb".toList = some .getPayCallback ∧
    ∃ c : Config standInMint, Reach State.initial c ∧
      (∃ row ∈ c.w.st.store.usernames.rows, row.username = "cb".toList) ∧
      ∃ a baseUrl minSendable maxSendable metadata withdrawLink commentAllowed nostrPubkey pre,
        a.task = .request ⟨baseUrl, .getLnaddress "cb".toList⟩ ∧
        .finished a (.ok (.payRequest "mint/p/cb".toList minSendable maxSendable metadata
          withdrawLink commentAllowed nostrPubkey)) pre ∈ c.w.hist := by
  have hrun : (standInRun (lookupRun "cb".toList "cb".toList)).any (fun c =>
      nameOnFile "cb".toList c && lookupAnswered "cb".toList "mint/p/cb".toList c.w.hist) =
        true := by
    decide +kernel
  exact ⟨by decide +kernel, exists_lookupAnswered hrun⟩

end LnurlMint
