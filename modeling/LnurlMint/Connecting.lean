import LnurlMint.Opening

/-!
# A store that failed to open

`NoteStore.conn` connects on its first access, runs the set-up on the connection and returns it from
then on. It keeps the connection in `_conn` before it runs the set-up, and whether there is one in
`_conn` is all that a later access asks. So an access during which a statement raises, because the
database is locked or the disk is full, leaves a connection behind on which the rest of the set-up
has not been run, and every later access returns it.

An access is given what it meets: what has become of the database in the meantime, whether it can be
connected to, and which statements of the set-up raise for a reason that is not their own. Accesses
are taken one after another. `conn` takes no lock, so one from another thread, such as
`get_nip05`'s, may begin while the first is still at the set-up; of that nothing is said here.

## Main definitions

* `Connection`, `Handle` — a connection with the statements run on it, and the store
* `Access`, `Handle.access`, `Handle.run` — `NoteStore.conn`, once and again
* `NeverHalfMigrated` — what accesses promise
* `OpensWhole` — the first one that connects runs the whole set-up

## Main results

* `raised_runSetUp_iff` — when a statement raises
* `never_half_migrated_iff`
-/

namespace LnurlMint

namespace Opening

open Sql

/-! ## One access -/

/-- A connection, with the statements of the set-up that have been run on it. -/
structure Connection where
  completed : List SetUp

/-- `NoteStore`: `_conn`, and the database at its path. -/
structure Handle where
  conn : Option Connection
  db : Database

/-- What an access meets. -/
structure Access where
  /-- What has been done to the database since the last one. -/
  meanwhile : Database → Database
  /-- `sqlite3.connect` does not raise. -/
  connects : Bool
  /-- The statement at a position of the set-up raises, whatever it would have done. -/
  raises : ℕ → Bool

/-- What an access comes to: the connection, unless it raises, the statements that it has begun,
and whether one of them raised. -/
structure Outcome where
  returned : Option Connection
  begun : List SetUp
  raised : Bool

/-- How far the set-up got. -/
structure Ran where
  conn : Connection
  db : Database
  begun : List SetUp
  raised : Bool

/-- The statement at a position, or `none` where it raises. -/
def attempt (raises : ℕ → Bool) (position : ℕ) (st : SetUp) (db : Database) : Option Database :=
  if raises position then none else (st.exec db).toOption

/-- Statements are run on a connection one after another, until one raises. -/
def runSetUp (raises : ℕ → Bool) (position : ℕ) (conn : Connection) (db : Database) :
    List SetUp → Ran
  | [] => ⟨conn, db, [], false⟩
  | st :: sts =>
    match attempt raises position st db with
    | none => ⟨conn, db, [st], true⟩
    | some db =>
      let ran := runSetUp raises (position + 1) ⟨conn.completed ++ [st]⟩ db sts
      { ran with begun := st :: ran.begun }

/-- `NoteStore.conn`. -/
def Handle.access (h : Handle) (a : Access) : Handle × Outcome :=
  let db := a.meanwhile h.db
  match h.conn with
  | some conn => (⟨some conn, db⟩, ⟨some conn, [], false⟩)
  | none =>
    if a.connects then
      -- `_conn` is set first, so it stays where a statement raises
      let ran := runSetUp a.raises 0 ⟨[]⟩ db setUp
      (⟨some ran.conn, ran.db⟩, ⟨if ran.raised then none else some ran.conn, ran.begun, ran.raised⟩)
    else (⟨none, db⟩, ⟨none, [], false⟩)

/-- One access after another, each with the store that it leaves. -/
def Handle.run (h : Handle) : List Access → List (Outcome × Handle)
  | [] => []
  | a :: as => ((h.access a).2, (h.access a).1) :: (h.access a).1.run as

/-! ## What is promised -/

/-- The next access that connects begins the set-up again, and returns only if it is done. -/
def Handle.RunsAgain (h : Handle) : Prop :=
  ∀ a : Access, a.connects = true → (h.access a).2.begun ≠ [] ∧ (h.access a).2.begun <+: setUp ∧
    ((h.access a).2.raised = false → (h.access a).2.begun = setUp)

/-- Whatever connection is returned, the whole set-up has been run on it; and where a statement
raised, the next access runs the set-up again. -/
def NeverHalfMigrated (h : Handle) (as : List Access) : Prop :=
  ∀ p ∈ h.run as, (∀ conn, p.1.returned = some conn → conn.completed = setUp) ∧
    (p.1.raised = true → p.2.RunsAgain)

/-- Of the first access that connects, no statement raises: nothing makes one raise, and the set-up
does not fail on the database that is found. -/
def OpensWhole : Database → List Access → Prop
  | _, [] => True
  | db, a :: as =>
    if a.connects then
      (∀ i < setUp.length, a.raises i = false) ∧ ∃ db', openStore (a.meanwhile db) = .ok db'
    else OpensWhole (a.meanwhile db) as

/-! ## The set-up -/

section SetUp

variable {raises : ℕ → Bool} {position : ℕ} {conn : Connection} {db : Database} {sts : List SetUp}

theorem begun_runSetUp :
    (runSetUp raises position conn db sts).begun <+: sts ∧
      (sts ≠ [] → (runSetUp raises position conn db sts).begun ≠ []) := by
  induction sts generalizing position conn db with
  | nil => exact ⟨List.nil_prefix, fun h => absurd rfl h⟩
  | cons st sts ih =>
    rw [runSetUp]
    cases attempt raises position st db with
    | none => exact ⟨List.prefix_append [st] sts, fun _ => List.cons_ne_nil _ _⟩
    | some db' => exact ⟨List.cons_prefix_cons.2 ⟨rfl, ih.1⟩, fun _ => List.cons_ne_nil _ _⟩

/-- **A set-up raises** where something makes a statement raise, or where it fails on the
database. -/
theorem raised_runSetUp_iff :
    (runSetUp raises position conn db sts).raised = false ↔
      (∀ i < sts.length, raises (position + i) = false) ∧
        ∃ db', sts.foldlM SetUp.exec db = .ok db' := by
  induction sts generalizing position conn db with
  | nil => exact ⟨fun _ => ⟨fun i hi => absurd hi (Nat.not_lt_zero i), db, rfl⟩, fun _ => rfl⟩
  | cons st sts ih =>
    rw [runSetUp, attempt, List.foldlM_cons]
    by_cases hraises : raises position = true
    · rw [if_pos hraises]
      refine ⟨fun h => absurd h (by simp), fun ⟨hnone, _⟩ => ?_⟩
      have hfree := hnone 0 (by simp)
      rw [Nat.add_zero, hraises] at hfree
      cases hfree
    · rw [if_neg hraises]
      cases hexec : st.exec db with
      | error e =>
        refine ⟨fun h => absurd h (by simp [Except.toOption]), fun ⟨_, db', h⟩ => ?_⟩
        cases h
      | ok db' =>
        show (runSetUp raises (position + 1) ⟨conn.completed ++ [st]⟩ db' sts).raised = false ↔ _
        rw [ih]
        refine and_congr_left fun _ => ⟨fun h i hi => ?_, fun h i hi => ?_⟩
        · cases i with
          | zero => exact Bool.eq_false_iff.2 hraises
          | succ i =>
            rw [show position + (i + 1) = position + 1 + i by omega]
            exact h i (by simpa using hi)
        · rw [show position + 1 + i = position + (i + 1) by omega]
          exact h (i + 1) (by simpa using hi)

/-- A set-up of which no statement raises is done, and did to the database what opening it does. -/
theorem runSetUp_ok (h : (runSetUp raises position conn db sts).raised = false) :
    (runSetUp raises position conn db sts).conn.completed = conn.completed ++ sts ∧
      (runSetUp raises position conn db sts).begun = sts ∧
      sts.foldlM SetUp.exec db = .ok (runSetUp raises position conn db sts).db := by
  induction sts generalizing position conn db with
  | nil => exact ⟨(List.append_nil _).symm, rfl, rfl⟩
  | cons st sts ih =>
    rw [runSetUp, attempt] at h ⊢
    by_cases hraises : raises position = true
    · rw [if_pos hraises] at h
      cases h
    · rw [if_neg hraises] at h ⊢
      rw [List.foldlM_cons]
      cases hexec : st.exec db with
      | error e =>
        rw [hexec] at h
        cases h
      | ok db' =>
        rw [hexec] at h
        obtain ⟨hconn, hbegun, hdb⟩ := ih h
        refine ⟨?_, congrArg (st :: ·) hbegun, hdb⟩
        exact hconn.trans (by rw [List.append_assoc, List.singleton_append])

end SetUp

/-! ## The accesses -/

variable {h : Handle} {a : Access} {as : List Access} {conn : Connection} {db : Database}

theorem access_of_conn (hc : h.conn = some conn) (a : Access) :
    h.access a = (⟨some conn, a.meanwhile h.db⟩, ⟨some conn, [], false⟩) := by
  rw [Handle.access, hc]

theorem access_of_not_connects (hc : h.conn = none) (ha : ¬a.connects = true) :
    h.access a = (⟨none, a.meanwhile h.db⟩, ⟨none, [], false⟩) := by
  rw [Handle.access, hc]
  exact if_neg ha

theorem access_of_connects (hc : h.conn = none) (ha : a.connects = true) :
    h.access a =
      let ran := runSetUp a.raises 0 ⟨[]⟩ (a.meanwhile h.db) setUp
      (⟨some ran.conn, ran.db⟩,
        ⟨if ran.raised then none else some ran.conn, ran.begun, ran.raised⟩) := by
  rw [Handle.access, hc]
  exact if_pos ha

/-- The set-up is run again exactly if there is no connection in `_conn`. -/
theorem runsAgain_iff : h.RunsAgain ↔ h.conn = none := by
  constructor
  · intro hagain
    cases hc : h.conn with
    | none => rfl
    | some conn =>
      have hbegun := (hagain ⟨id, true, fun _ => false⟩ rfl).1
      rw [access_of_conn hc] at hbegun
      exact absurd rfl hbegun
  · intro hc a ha
    rw [access_of_connects hc ha]
    exact ⟨begun_runSetUp.2 (List.cons_ne_nil _ _), begun_runSetUp.1, fun h => (runSetUp_ok h).2.1⟩

/-- A connection on which the set-up has been run is all that is ever returned. -/
theorem neverHalfMigrated_of_conn (hc : h.conn = some conn) (hdone : conn.completed = setUp)
    (as : List Access) : NeverHalfMigrated h as := by
  induction as generalizing h with
  | nil => exact fun p hp => absurd hp List.not_mem_nil
  | cons a as ih =>
    intro p hp
    rw [Handle.run, access_of_conn hc] at hp
    rcases List.mem_cons.1 hp with rfl | hp
    · exact ⟨fun _ he => Option.some.inj he ▸ hdone, fun hraised => absurd hraised (by simp)⟩
    · exact ih rfl p hp

theorem neverHalfMigrated_cons : NeverHalfMigrated h (a :: as) ↔
    ((∀ conn, (h.access a).2.returned = some conn → conn.completed = setUp) ∧
      ((h.access a).2.raised = true → (h.access a).1.RunsAgain)) ∧
      NeverHalfMigrated (h.access a).1 as := by
  rw [NeverHalfMigrated, Handle.run, List.forall_mem_cons]
  rfl

/-- An access of which no statement raises opens the database. -/
theorem access_openStore (hc : h.conn = none) (ha : a.connects = true)
    (hfree : ∀ i < setUp.length, a.raises i = false) {db' : Database}
    (hopen : openStore (a.meanwhile h.db) = .ok db') :
    ∃ conn, conn.completed = setUp ∧
      h.access a = (⟨some conn, db'⟩, ⟨some conn, setUp, false⟩) := by
  have hraised : (runSetUp a.raises 0 ⟨[]⟩ (a.meanwhile h.db) setUp).raised = false :=
    raised_runSetUp_iff.2 ⟨fun i hi => (Nat.zero_add i).symm ▸ hfree i hi, db', hopen⟩
  obtain ⟨hconn, hbegun, hdb⟩ := runSetUp_ok hraised
  obtain rfl : _ = db' := Except.ok.inj (hdb.symm.trans hopen)
  refine ⟨_, hconn, ?_⟩
  rw [access_of_connects hc ha]
  simp only [hraised, hbegun, Bool.false_eq_true, if_false]

/-- **A store that failed to open is used half-migrated**, and only such a store. From a store that
has not been opened, on whatever database, every access of a run returns a connection on which the
whole set-up has been run, and leaves the set-up to be run again where a statement raised, if and
only if no statement raises during the first access that connects. An access begins when the one
before it has ended. -/
theorem never_half_migrated_iff (db : Database) (as : List Access) :
    NeverHalfMigrated ⟨none, db⟩ as ↔ OpensWhole db as := by
  induction as generalizing db with
  | nil => exact ⟨fun _ => trivial, fun _ p hp => absurd hp List.not_mem_nil⟩
  | cons a as ih =>
    rw [neverHalfMigrated_cons, OpensWhole]
    by_cases ha : a.connects = true
    · rw [if_pos ha]
      constructor
      · rintro ⟨⟨-, hagain⟩, -⟩
        have hraised : (runSetUp a.raises 0 ⟨[]⟩ (a.meanwhile db) setUp).raised = false := by
          rw [access_of_connects rfl ha] at hagain
          by_contra hraised
          have hnone := runsAgain_iff.1 (hagain (Bool.not_eq_false _ ▸ hraised))
          cases hnone
        obtain ⟨hfree, hopen⟩ := raised_runSetUp_iff.1 hraised
        exact ⟨fun i hi => Nat.zero_add i ▸ hfree i hi, hopen⟩
      · rintro ⟨hfree, db', hopen⟩
        obtain ⟨conn, hdone, haccess⟩ := access_openStore (h := ⟨none, db⟩) rfl ha hfree hopen
        rw [haccess]
        refine ⟨⟨fun _ he => Option.some.inj he ▸ hdone, fun h => absurd h (by simp)⟩, ?_⟩
        exact neverHalfMigrated_of_conn rfl hdone as
    · rw [if_neg ha, access_of_not_connects rfl ha]
      refine ⟨fun h => (ih _).1 h.2, fun h => ⟨⟨fun _ he => ?_, fun h => ?_⟩, (ih _).2 h⟩⟩
      · cases he
      · cases h

/-- The first access finds the database locked when the column `locked_at` is to be added; the
second meets nothing. -/
def lockedAccesses : List Access :=
  [⟨id, true, fun position => position = 13⟩, ⟨id, true, fun _ => false⟩]

/-- The second access returns the connection of the first, on which 13 of the 26 statements were
run, and what the code asks of a note cannot be read. -/
theorem half_migrated_oldDatabase :
    ¬NeverHalfMigrated ⟨none, oldDatabase⟩ lockedAccesses ∧
      ∃ first second, (Handle.run ⟨none, oldDatabase⟩ lockedAccesses) = [first, second] ∧
        first.1.raised = true ∧ first.1.begun.length = 14 ∧
        (∃ conn, second.1.returned = some conn ∧ conn.completed.length = 13 ∧
          setUp.length = 26) ∧
        second.2.db.select "notes" ["locked_at"] [] = .error .noSuchColumn := by
  constructor
  · intro h
    have hagain := (neverHalfMigrated_cons.1 h).1.2 (by decide)
    cases runsAgain_iff.1 hagain
  · refine ⟨_, _, rfl, ?_, ?_, ⟨_, rfl, ?_, ?_⟩, ?_⟩
    all_goals decide

end Opening

end LnurlMint
