import LnurlMint.Backends
import LnurlMint.Lib.Paging

/-!
# A scan of the payments misses nothing

The spark backend's SDK has no way to ask for the payments of a hash. `_payments_by_hash` reads all
payments of one type, page after page by offset, and keeps those that name the hash, until a page is
not full. Payments arrive while it reads, and the rows it has still to read shift to later offsets;
they never shift to an offset it has passed.

What is relied on of the SDK is what `list_payments` is documented to do: a page holds the rows of
the type that are stored when it is asked for, from the offset on and up to the limit.

## Main definitions

* `StoredPayment`, `listPayments` — the rows of the SDK, and a page of them
* `ListsPages` — a scan's pages come from the rows stored at the time
* `FullPage`, `ShortPage` — what a page says about the scan

## Main results

* `paymentsByHash_eq_ok_iff` — a scan returns at the first page that is not full
* `paymentsByHash_complete` — and it has found every row that was stored when it began
-/

namespace LnurlMint

open Loop List

/-! ## The rows -/

/-- The SDK's `PaymentType`. -/
inductive PaymentType
  | send
  | receive
deriving DecidableEq

/-- A row of the SDK's storage. -/
structure StoredPayment where
  paymentType : PaymentType
  payment : SparkPayment

/-- The rows of a type. -/
def ofType (paymentType : PaymentType) (stored : List StoredPayment) : List SparkPayment :=
  (stored.filter fun row => row.paymentType = paymentType).map StoredPayment.payment

/-- `list_payments`, with a type filter, a limit and an offset. -/
def listPayments (stored : List StoredPayment) (paymentType : PaymentType) (limit offset : ℕ) :
    List SparkPayment :=
  ((ofType paymentType stored).drop offset).take limit

/-- The pages that a scan for payments of a type is answered with, where it is, come from the rows
that are stored at the time. -/
def ListsPages (fetch : ℕ → Except Unit (List SparkPayment)) (paymentType : PaymentType)
    (stored : ℕ → List StoredPayment) : Prop :=
  ∀ k page, fetch k = .ok page →
    page = listPayments (stored k) paymentType paymentScanPage (paymentScanPage * k)

theorem ofType_sublist {paymentType : PaymentType} {stored stored' : List StoredPayment}
    (h : stored <+ stored') : ofType paymentType stored <+ ofType paymentType stored' :=
  (h.filter _).map _

/-! ## The loop -/

section Scan

variable {fetch : ℕ → Except Unit (List SparkPayment)} {paymentHash : Str} {k : ℕ}

/-- The scan goes on after this page. -/
def FullPage (fetch : ℕ → Except Unit (List SparkPayment)) (k : ℕ) : Prop :=
  ∃ page, fetch k = .ok page ∧ paymentScanPage ≤ page.length

/-- The scan returns after this page. -/
def ShortPage (fetch : ℕ → Except Unit (List SparkPayment)) (k : ℕ) : Prop :=
  ∃ page, fetch k = .ok page ∧ page.length < paymentScanPage

/-- What matches on a page. -/
def matchingAt (fetch : ℕ → Except Unit (List SparkPayment)) (paymentHash : Str) (k : ℕ) :
    List SparkPayment :=
  match fetch k with
  | .ok page => matching paymentHash page
  | .error _ => []

/-- What has matched before page `k`. -/
def matched (fetch : ℕ → Except Unit (List SparkPayment)) (paymentHash : Str) (k : ℕ) :
    List SparkPayment :=
  (List.range k).flatMap (matchingAt fetch paymentHash)

theorem matched_succ : matched fetch paymentHash (k + 1) =
    matched fetch paymentHash k ++ matchingAt fetch paymentHash k := by
  rw [matched, List.range_succ, List.flatMap_append, List.flatMap_singleton]
  rfl

theorem FullPage.scanTurn (h : FullPage fetch k) (rows : List SparkPayment) :
    scanTurn fetch paymentHash (k, rows) =
      .inl (k + 1, rows ++ matchingAt fetch paymentHash k) := by
  obtain ⟨page, hpage, hlen⟩ := h
  rw [LnurlMint.scanTurn, matchingAt, hpage]
  exact if_neg (Nat.not_lt.2 hlen)

theorem ShortPage.scanTurn (h : ShortPage fetch k) (rows : List SparkPayment) :
    scanTurn fetch paymentHash (k, rows) =
      .inr (.ok (rows ++ matchingAt fetch paymentHash k)) := by
  obtain ⟨page, hpage, hlen⟩ := h
  rw [LnurlMint.scanTurn, matchingAt, hpage]
  exact if_pos hlen

/-- A scan that met only full pages stands before the next one. -/
theorem turns_of_full (paymentHash : Str) (h : ∀ j < k, FullPage fetch j) (turns : ℕ) :
    turnsOf (scanTurn fetch paymentHash) (k + turns) (0, []) =
      turnsOf (scanTurn fetch paymentHash) turns (k, matched fetch paymentHash k) := by
  induction k generalizing turns with
  | zero =>
    rw [Nat.zero_add]
    rfl
  | succ k ih =>
    rw [show k + 1 + turns = k + (turns + 1) by omega, ih (fun j hj => h j (by omega)),
      turnsOf_again ((h k (by omega)).scanTurn _), matched_succ]

/-- Before a page that is not full there is a first one. -/
theorem exists_first_not_full {n : ℕ} (h : ¬FullPage fetch n) :
    ∃ k ≤ n, (∀ j < k, FullPage fetch j) ∧ ¬FullPage fetch k := by
  classical
  have hex : ∃ k, ¬FullPage fetch k := ⟨n, h⟩
  exact ⟨Nat.find hex, Nat.find_min' hex h, fun j hj => not_not.1 (Nat.find_min hex hj),
    Nat.find_spec hex⟩

theorem shortPage_of_not_full {page : List SparkPayment} (hpage : fetch k = .ok page)
    (h : ¬FullPage fetch k) : ShortPage fetch k :=
  ⟨page, hpage, Nat.not_le.1 fun hlen => h ⟨page, hpage, hlen⟩⟩

/-- **A scan returns at the first page that is not full**, with what has matched. -/
theorem paymentsByHash_eq_ok_iff {turns : ℕ} {rows : List SparkPayment} :
    (paymentsByHash fetch paymentHash turns).run = some (.ok rows) ↔
      ∃ k < turns, (∀ j < k, FullPage fetch j) ∧ ShortPage fetch k ∧
        rows = matched fetch paymentHash (k + 1) := by
  show turnsOf (scanTurn fetch paymentHash) turns (0, []) = some (.ok rows) ↔ _
  constructor
  · intro h
    obtain ⟨n, hn, hnot⟩ : ∃ n < turns, ¬FullPage fetch n := by
      by_contra hall
      have hfull : ∀ j < turns, FullPage fetch j := fun j hj =>
        not_not.1 fun hnot => hall ⟨j, hj, hnot⟩
      have hnone := turns_of_full paymentHash hfull 0
      rw [Nat.add_zero, h] at hnone
      cases hnone
    obtain ⟨k, hk, hfull, hnot⟩ := exists_first_not_full hnot
    obtain ⟨rest, rfl⟩ : ∃ rest, turns = k + (rest + 1) := ⟨turns - k - 1, by omega⟩
    rw [turns_of_full paymentHash hfull] at h
    cases hpage : fetch k with
    | error e =>
      rw [turnsOf_leave (b := .error e) (by rw [scanTurn, hpage])] at h
      cases h
    | ok page =>
      have hshort := shortPage_of_not_full hpage hnot
      rw [turnsOf_leave (hshort.scanTurn _), ← matched_succ] at h
      exact ⟨k, by omega, hfull, hshort, (Except.ok.inj (Option.some.inj h)).symm⟩
  · rintro ⟨k, hk, hfull, hshort, rfl⟩
    obtain ⟨rest, rfl⟩ : ∃ rest, turns = k + (rest + 1) := ⟨turns - k - 1, by omega⟩
    rw [turns_of_full paymentHash hfull, turnsOf_leave (hshort.scanTurn _), matched_succ]

/-! ## The rows that are found -/

variable {paymentType : PaymentType} {stored : ℕ → List StoredPayment}
  {start : List StoredPayment}

theorem listPayments_eq_page (stored : ℕ → List StoredPayment) (k : ℕ) :
    listPayments (stored k) paymentType paymentScanPage (paymentScanPage * k) =
      Paging.page paymentScanPage (fun k => ofType paymentType (stored k)) k := rfl

/-- What has matched is what matches of the pages read so far. -/
theorem matched_eq (hlists : ListsPages fetch paymentType stored)
    (hread : ∀ j < k, ∃ page, fetch j = .ok page) : matched fetch paymentHash k =
      matching paymentHash
        (Paging.pages paymentScanPage (fun k => ofType paymentType (stored k)) k) := by
  induction k with
  | zero => rfl
  | succ k ih =>
    obtain ⟨page, hpage⟩ := hread k (by omega)
    rw [matched_succ, ih fun j hj => hread j (by omega), Paging.pages_succ, matching, matching,
      List.filter_append, matchingAt, hpage, ← listPayments_eq_page, ← hlists k page hpage]
    rfl

theorem ShortPage.paging (h : ShortPage fetch k) (hlists : ListsPages fetch paymentType stored) :
    (Paging.page paymentScanPage (fun k => ofType paymentType (stored k)) k).length <
      paymentScanPage := by
  obtain ⟨page, hpage, hlen⟩ := h
  rwa [← listPayments_eq_page, ← hlists k page hpage]

/-- A scan that returns has found every row that was stored when it began. -/
theorem sublist_of_paymentsByHash (hlists : ListsPages fetch paymentType stored)
    (hgrow : ∀ k, stored k <+ stored (k + 1)) (hstart : start <+ stored 0) {turns : ℕ}
    {rows : List SparkPayment}
    (h : (paymentsByHash fetch paymentHash turns).run = some (.ok rows)) :
    matching paymentHash (ofType paymentType start) <+ rows := by
  obtain ⟨k, -, hfull, hshort, rfl⟩ := paymentsByHash_eq_ok_iff.1 h
  have hread : ∀ j < k + 1, ∃ page, fetch j = .ok page := by
    intro j hj
    by_cases hjk : j = k
    · obtain ⟨page, hpage, -⟩ := hshort
      exact ⟨page, hjk ▸ hpage⟩
    · obtain ⟨page, hpage, -⟩ := hfull j (by omega)
      exact ⟨page, hpage⟩
  rw [matched_eq hlists hread]
  exact (Paging.sublist_pages paymentScanPage (fun k => ofType_sublist (hgrow k))
    (ofType_sublist hstart) (hshort.paging hlists)).filter _

/-- **A scan misses nothing.** Rows are inserted between the fetches, so that what is
stored at one is a sublist of what is stored at the next. Wherever they are, a scan that returns
does so at the first page that is not full, and what it returns holds every row of its type and hash
that was stored when it began, in that order; at the first page that is not full it does return,
whatever is stored later. And it meets such a page, where no fetch raises and the rows do not
outgrow the pages for ever. -/
theorem paymentsByHash_complete (hlists : ListsPages fetch paymentType stored)
    (hgrow : ∀ k, stored k <+ stored (k + 1)) (hstart : start <+ stored 0) (paymentHash : Str) :
    (∀ turns rows, (paymentsByHash fetch paymentHash turns).run = some (.ok rows) →
      matching paymentHash (ofType paymentType start) <+ rows ∧
        ∃ k < turns, (∀ j < k, FullPage fetch j) ∧ ShortPage fetch k ∧
          rows = matched fetch paymentHash (k + 1)) ∧
    (∀ k, (∀ j < k, FullPage fetch j) → ShortPage fetch k → ∀ turns,
      (paymentsByHash fetch paymentHash turns).run =
        if k < turns then some (.ok (matched fetch paymentHash (k + 1))) else none) ∧
    ((∀ k, ∃ page, fetch k = .ok page) →
      (∃ k, (ofType paymentType (stored k)).length < paymentScanPage * (k + 1)) →
      ∃ turns rows, (paymentsByHash fetch paymentHash turns).run = some (.ok rows)) := by
  refine ⟨fun turns rows h => ⟨sublist_of_paymentsByHash hlists hgrow hstart h,
    paymentsByHash_eq_ok_iff.1 h⟩, fun k hfull hshort turns => ?_, fun hread hsmall => ?_⟩
  · by_cases hk : k < turns
    · rw [if_pos hk]
      exact paymentsByHash_eq_ok_iff.2 ⟨k, hk, hfull, hshort, rfl⟩
    · rw [if_neg hk]
      have hnone := turns_of_full paymentHash
        (fun j (hj : j < turns) => hfull j (by omega)) 0
      rw [Nat.add_zero] at hnone
      exact hnone
  · obtain ⟨n, hlen⟩ := hsmall
    have hnot : ¬FullPage fetch n := by
      rintro ⟨page, hpage, hfull⟩
      rw [hlists n page hpage, listPayments, List.length_take, List.length_drop] at hfull
      rw [Nat.mul_add, Nat.mul_one] at hlen
      have hpos : 0 < paymentScanPage := by decide
      omega
    obtain ⟨k, -, hfull, hnot⟩ := exists_first_not_full hnot
    obtain ⟨page, hpage⟩ := hread k
    exact ⟨k + 1, _, paymentsByHash_eq_ok_iff.2
      ⟨k, Nat.lt_succ_self k, hfull, shortPage_of_not_full hpage hnot, rfl⟩⟩

end Scan

end LnurlMint
