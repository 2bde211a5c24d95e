import LnurlMint.Spark
import LnurlMint.Lib.Amid

/-!
# The backend, among others

What `_is_payment_complete_spark` answers was looked at once as a function of what the SDK replies,
and is looked at again as a program among others. Here the two are one: the program, whatever
happens beside it and whatever the SDK makes of the same call when it is made again, returns what
the function says of the replies it was given, and never returns where the function has no value. So
what holds of the replies holds of the backend, and of its scans.

## Main definitions

* `pagesOf`, `probeOf`, `replyOf` — the replies that a script gives

## Main results

* `amid_paymentsByHash`, `amid_isPaymentCompleteSpark` — the programs do what the functions say
* `payment_complete_honest_iff`
* `payment_scan_complete`
-/

namespace LnurlMint

open Interleave List

section Programs

variable {d : Deps} {sd : SparkDeps} {cfg : SparkSettings} {pages : ℕ}
  (sc : Script (spark d sd cfg pages)) (sdk : ℕ) {paymentHash : Str}

/-! ## The replies -/

/-- What a program returned or raised, without the text of what it raised. -/
def plain {α β : Type} (f : α → β) (out : Option (Except SparkExn α)) : Option (Except Unit β) :=
  out.map fun r => (r.mapError fun _ => ()).map f

/-- The pages that a scan is answered with from this call on, as it looks at them. -/
def pagesOf (paymentType : PaymentType) (calls k : ℕ) : Except Unit (List SparkPayment) :=
  ((sc.answers (calls + k) (.listPayments sdk paymentType paymentScanPage
    (k * paymentScanPage))).mapError fun _ => ()).map (List.map SdkPayment.row)

/-- Whether the other side answers. -/
def probeOf (calls : ℕ) : Except Unit Unit := do
  (sc.answers calls (.getUserSettings sdk)).mapError fun _ => ()
  let _ ← (sc.answers (calls + 1)
    (.receivePayment sdk "lnurl-mint connectivity probe".toList 1 none)).mapError fun _ => ()

/-- The replies to a call that came this far when it had its SDK, and then when it had scanned the
payments. -/
def replyOf (built : Except SparkExn ℕ) (first later : Beat (spark d sd cfg pages)) :
    SparkReply where
  sdk := (built.mapError fun _ => ()).map fun _ => ()
  before := pagesOf sc (built.toOption.getD 0) .send first.calls
  probe := probeOf sc (built.toOption.getD 0) later.calls
  sync := (sc.answers (later.calls + 2) (.syncWallet (built.toOption.getD 0))).mapError fun _ => ()
  probeAgain := probeOf sc (built.toOption.getD 0) (later.calls + 3)
  after := pagesOf sc (built.toOption.getD 0) .send (later.calls + 5)
  prepareRejected := later.st.prepareRejected

/-! ## The programs -/

theorem matching_row (page : List SdkPayment) :
    matching paymentHash (page.map SdkPayment.row) =
      (page.filter (Spark.names paymentHash)).map SdkPayment.row := by
  rw [matching, List.filter_map]
  refine congrArg (List.map SdkPayment.row) (List.filter_congr fun p _ => ?_)
  rw [Function.comp_apply, SdkPayment.lightningHtlc_row, Spark.names, Option.map_map]
  rfl

variable {sc sdk} {b : Beat (spark d sd cfg pages)}

theorem amid_returned {α : Type} (ans : Except SdkExn α) :
    (Spark.returned ans).amid sc b = (b, some (ans.mapError .sdk)) := rfl

variable (sc sdk b) in
/-- The scan. The induction is on the pages. -/
theorem amid_scan (paymentHash : Str) (paymentType : PaymentType) {calls : ℕ} (n k : ℕ)
    (rows : List SdkPayment) (hcalls : b.calls = calls + k) :
    plain (List.map SdkPayment.row) ((Spark.paymentsByHash sdk paymentHash paymentType n
        (k * paymentScanPage) rows).amid sc b).2 =
      Loop.turnsOf (scanTurn (pagesOf sc sdk paymentType calls) paymentHash) n
        (k, rows.map SdkPayment.row) := by
  induction n generalizing k rows b with
  | zero => rfl
  | succ n ih =>
    have hfetch : pagesOf sc sdk paymentType calls k =
        ((sc.answers b.calls (.listPayments sdk paymentType paymentScanPage
          (k * paymentScanPage))).mapError fun _ => ()).map (List.map SdkPayment.row) := by
      rw [hcalls]
      rfl
    rw [Spark.paymentsByHash, Prog.amid_bind, Prog.amid_ask]
    dsimp only
    rw [Prog.amid_bind, amid_returned]
    cases hans : sc.answers b.calls (.listPayments sdk paymentType paymentScanPage
      (k * paymentScanPage)) with
    | error e =>
      rw [hans] at hfetch
      exact (Loop.turnsOf_leave (by rw [scanTurn, hfetch]; rfl) n).symm
    | ok page =>
      rw [hans] at hfetch
      have hmatched : rows.map SdkPayment.row ++ matching paymentHash (page.map SdkPayment.row) =
          (rows ++ page.filter (Spark.names paymentHash)).map SdkPayment.row := by
        rw [List.map_append, matching_row]
      by_cases hfull : page.length < paymentScanPage
      · have hturn : scanTurn (pagesOf sc sdk paymentType calls) paymentHash
            (k, rows.map SdkPayment.row) =
              .inr (.ok ((rows ++ page.filter (Spark.names paymentHash)).map SdkPayment.row)) := by
          rw [scanTurn, hfetch]
          show (if (page.map SdkPayment.row).length < paymentScanPage then _ else _) = _
          rw [List.length_map, if_pos hfull, hmatched]
        rw [Loop.turnsOf_leave hturn]
        show plain _ (Prog.amid sc (if _ then _ else _) _).2 = _
        rw [if_pos hfull]
        rfl
      · have hturn : scanTurn (pagesOf sc sdk paymentType calls) paymentHash
            (k, rows.map SdkPayment.row) =
              .inl (k + 1, (rows ++ page.filter (Spark.names paymentHash)).map SdkPayment.row) := by
          rw [scanTurn, hfetch]
          show (if (page.map SdkPayment.row).length < paymentScanPage then _ else _) = _
          rw [List.length_map, if_neg hfull, hmatched]
        rw [Loop.turnsOf_again hturn]
        show plain _ (Prog.amid sc (if _ then _ else _) _).2 = _
        rw [if_neg hfull, ← Nat.succ_mul]
        exact ih _ (k + 1) _ (by rw [Beat.resumed, hcalls, Nat.add_assoc])

/-- **The scan does what the function says** of the pages it is answered with. -/
theorem amid_paymentsByHash (sc : Script (spark d sd cfg pages)) (b : Beat (spark d sd cfg pages))
    (sdk : ℕ) (paymentHash : Str) (paymentType : PaymentType) (turns : ℕ) :
    plain (List.map SdkPayment.row)
        ((Spark.paymentsByHash sdk paymentHash paymentType turns 0 []).amid sc b).2 =
      (paymentsByHash (pagesOf sc sdk paymentType b.calls) paymentHash turns).run := by
  have hscan := amid_scan sc sdk b paymentHash paymentType turns 0 [] (Nat.add_zero _).symm
  rwa [Nat.zero_mul] at hscan

variable (sc sdk b) in
/-- The probe makes two calls where it does not raise. -/
theorem amid_remoteProbe : ∃ b' r,
    (Spark.remoteProbe sdk).amid sc b = (b', some r) ∧
      (r.mapError fun _ => ()) = probeOf sc sdk b.calls ∧
      (r.toOption.isSome = true → b' = (b.resumed sc).resumed sc) := by
  rw [Spark.remoteProbe, probeOf, Prog.amid_bind, Prog.amid_ask]
  dsimp only
  rw [Prog.amid_bind, amid_returned]
  cases sc.answers b.calls (.getUserSettings sdk) with
  | error e => exact ⟨b.resumed sc, .error (.sdk e), rfl, rfl, fun h => by cases h⟩
  | ok _ =>
    show ∃ b' r, Prog.amid sc (Spark.ask _ >>= _) _ = _ ∧ _
    rw [Prog.amid_bind, Prog.amid_ask]
    dsimp only
    rw [Prog.amid_bind, amid_returned]
    have hcalls : (b.resumed sc).calls = b.calls + 1 := rfl
    rw [hcalls]
    cases sc.answers (b.calls + 1)
      (.receivePayment sdk "lnurl-mint connectivity probe".toList 1 none) with
    | error e => exact ⟨_, .error (.sdk e), rfl, rfl, fun h => by cases h⟩
    | ok _ => exact ⟨_, .ok (), rfl, rfl, fun _ => rfl⟩

/-- What the rows that were found say, and the same of what is looked at of them. -/
theorem plain_verdict (payments : List SdkPayment) :
    plain id (some (Spark.paymentsVerdict payments)) =
      some (rowsVerdict (payments.map SdkPayment.row)) := by
  rw [Spark.paymentsVerdict]
  cases rowsVerdict (payments.map SdkPayment.row) <;> rfl

variable (sc sdk b) in
/-- The rows of a payment that had none. -/
theorem amid_paymentsAfterSync (paymentHash : Str) (built : Except SparkExn ℕ)
    (first : Beat (spark d sd cfg pages)) (hsdk : built.toOption.getD 0 = sdk) :
    plain (List.map SdkPayment.row)
        ((Spark.paymentsAfterSync pages sdk paymentHash).amid sc b).2 =
      (rowsAfterSync (replyOf sc built first b) paymentHash pages).run := by
  subst hsdk
  obtain ⟨b₁, r₁, hrun₁, hprobe₁, hb₁⟩ := amid_remoteProbe sc (built.toOption.getD 0) b
  rw [Spark.paymentsAfterSync, Prog.amid_bind, hrun₁, rowsAfterSync,
    show (replyOf sc built first b).probe = _ from hprobe₁.symm]
  cases r₁ with
  | error e => rfl
  | ok _ =>
    obtain rfl := hb₁ rfl
    dsimp only
    rw [Prog.amid_bind, Prog.amid_ask]
    dsimp only
    have hsync : (replyOf sc built first b).sync =
      (sc.answers (b.calls + 2) (.syncWallet (built.toOption.getD 0))).mapError fun _ => () := rfl
    have hcalls : ((b.resumed sc).resumed sc).calls = b.calls + 2 := rfl
    rw [Prog.amid_bind, amid_returned, hsync, hcalls]
    cases sc.answers (b.calls + 2) (.syncWallet (built.toOption.getD 0)) with
    | error e => rfl
    | ok _ =>
      obtain ⟨b₂, r₂, hrun₂, hprobe₂, hb₂⟩ := amid_remoteProbe sc (built.toOption.getD 0)
        (((b.resumed sc).resumed sc).resumed sc)
      show plain _ (Prog.amid sc (Spark.remoteProbe _ >>= _) _).2 = _
      rw [Prog.amid_bind, hrun₂,
        show (replyOf sc built first b).probeAgain = _ from hprobe₂.symm]
      cases r₂ with
      | error e => rfl
      | ok _ =>
        obtain rfl := hb₂ rfl
        exact amid_paymentsByHash sc _ _ paymentHash .send pages

/-- **The program does what the function says** of the replies it is given. -/
theorem amid_isPaymentCompleteSpark (sc : Script (spark d sd cfg pages))
    (b : Beat (spark d sd cfg pages)) (paymentHash : Str) : ∃ later,
    plain id ((Spark.isPaymentCompleteSpark cfg pages paymentHash).amid sc b).2 =
      ((Spark.sdk cfg).amid sc b).2.bind fun built =>
        (isPaymentCompleteSpark paymentHash pages
          (replyOf sc built ((Spark.sdk cfg).amid sc b).1 later)).run := by
  rw [Spark.isPaymentCompleteSpark, Prog.amid_bind]
  rcases (Spark.sdk cfg).amid sc b with ⟨first, _ | e | sdk⟩
  · exact ⟨b, rfl⟩
  · exact ⟨b, rfl⟩
  dsimp only
  have hscan := amid_paymentsByHash sc first sdk paymentHash .send pages
  rw [Prog.amid_bind]
  rcases hrun : (Spark.paymentsByHash sdk paymentHash .send pages 0 []).amid sc first with
    ⟨b', out⟩
  rw [hrun] at hscan
  -- the registry is read once the payments were scanned
  let later : Beat (spark d sd cfg pages) := { b' with ops := b'.ops + 1 }
  have hbefore : paymentsByHash (replyOf sc (.ok sdk) first later).before paymentHash pages =
    ExceptT.mk (plain (List.map SdkPayment.row) out) := hscan.symm
  refine ⟨later, ?_⟩
  rw [Option.bind_some, isPaymentCompleteSpark, hbefore]
  rcases out with _ | _ | payments
  · rfl
  · rfl
  · by_cases hnone : payments = []
    · subst hnone
      have hread : (Spark.perform (.prepareRejected paymentHash)).amid sc b' =
        (later, some (.ok (decide (paymentHash ∈ b'.st.prepareRejected)))) := rfl
      dsimp only
      rw [if_pos rfl, Prog.amid_bind, hread]
      by_cases hrejected : paymentHash ∈ b'.st.prepareRejected
      · show plain id (Prog.amid sc (if _ then _ else _) _).2 = ExceptT.run (if _ then _ else _)
        rw [if_pos (decide_eq_true hrejected), if_pos ⟨rfl, hrejected⟩]
        rfl
      · show plain id (Prog.amid sc (if _ then _ else _) _).2 = ExceptT.run (if _ then _ else _)
        rw [if_neg (by simpa using hrejected), if_neg fun h => hrejected h.2, Prog.amid_bind]
        have hafter := amid_paymentsAfterSync sc sdk later paymentHash (.ok sdk) first rfl
        rcases hrun' : (Spark.paymentsAfterSync pages sdk paymentHash).amid sc later with ⟨b'', out⟩
        rw [hrun'] at hafter
        have hafter : rowsAfterSync (replyOf sc (.ok sdk) first later) paymentHash pages =
          ExceptT.mk (plain (List.map SdkPayment.row) out) := hafter.symm
        rw [if_pos List.map_nil, hafter]
        rcases out with _ | _ | payments
        exacts [rfl, rfl, plain_verdict payments]
    · have hnone' : payments.map SdkPayment.row ≠ [] := by simpa using hnone
      show plain id (Prog.amid sc (if _ then _ else _) _).2 = ExceptT.run (if _ then _ else _)
      rw [if_neg hnone, if_neg fun h => hnone' h.1, if_neg hnone']
      exact plain_verdict payments

end Programs

/-! ## What holds of the replies -/

/-- **Which answers are no guesses**: all of lnd's and of the spark backend's, and of Core
Lightning's those to a response that says what the check takes it to say. And where the scans of the
spark backend come to an end, it returns or raises. What the spark backend's program comes to,
whatever happens beside it, is its answer to the replies that it was given. -/
theorem payment_complete_honest_iff (d : Deps) (paymentHash : Str) (b : BackendReply) :
    ((∀ turns, Honest (reported d paymentHash turns b)
        (FundingSource.isPaymentComplete d paymentHash turns b)) ↔
      ∀ reply, b = .cln reply → ¬Guesses reply) ∧
    ((∀ reply, b = .spark reply → PagesEnd reply.before ∧ PagesEnd reply.after) →
      ∃ n, ∀ turns, n ≤ turns →
        ∃ r, FundingSource.isPaymentComplete d paymentHash turns b = some r) ∧
    ∀ sd cfg pages (sc : Script (spark d sd cfg pages)) beat answer,
      plain id ((Spark.isPaymentCompleteSpark cfg pages paymentHash).amid sc beat).2 = some answer →
        ∃ built first later, (Spark.sdk cfg).amid sc beat = (first, some built) ∧
          let reply := BackendReply.spark (replyOf sc built first later)
          FundingSource.isPaymentComplete d paymentHash pages reply = some answer ∧
            Honest (reported d paymentHash pages reply) (some answer) := by
  obtain ⟨hhonest, hreturns⟩ := isPaymentComplete_honest_iff d paymentHash b
  refine ⟨hhonest, hreturns, fun sd cfg pages sc beat answer h => ?_⟩
  obtain ⟨later, hprogram⟩ := amid_isPaymentCompleteSpark sc beat paymentHash
  rw [hprogram] at h
  obtain ⟨built, hbuilt, hanswer⟩ := Option.bind_eq_some_iff.1 h
  refine ⟨built, ((Spark.sdk cfg).amid sc beat).1, later, Prod.ext rfl hbuilt, hanswer, ?_⟩
  exact hanswer ▸ honest_spark paymentHash pages _

/-- **The payment scan misses nothing.** Rows are inserted between the fetches, so that what is
stored at one is a sublist of what is stored at the next. Wherever they are, a scan that returns
does so at the first page that is not full, and what it returns holds every row of its type and hash
that was stored when it began, in that order; at the first page that is not full it does return,
whatever is stored later. And it meets such a page, where no fetch raises and the rows do not
outgrow the pages for ever. The backend's program, whatever happens beside it, makes that scan of
the pages it is answered with. -/
theorem payment_scan_complete {fetch : ℕ → Except Unit (List SparkPayment)}
    {paymentType : PaymentType} {stored : ℕ → List StoredPayment} {start : List StoredPayment}
    (hlists : ListsPages fetch paymentType stored)
    (hgrow : ∀ k, stored k <+ stored (k + 1)) (hstart : start <+ stored 0) (paymentHash : Str) :
    (∀ turns rows, (paymentsByHash fetch paymentHash turns).run = some (.ok rows) →
      matching paymentHash (ofType paymentType start) <+ rows ∧
        ∃ k < turns, (∀ j < k, FullPage fetch j) ∧ ShortPage fetch k ∧
          rows = matched fetch paymentHash (k + 1)) ∧
    (∀ k, (∀ j < k, FullPage fetch j) → ShortPage fetch k → ∀ turns,
      (paymentsByHash fetch paymentHash turns).run =
        if k < turns then some (.ok (matched fetch paymentHash (k + 1))) else none) ∧
    ((∀ k, ∃ page, fetch k = .ok page) →
      (∃ k, (ofType paymentType (stored k)).length < paymentScanPage * (k + 1)) →
      ∃ turns rows, (paymentsByHash fetch paymentHash turns).run = some (.ok rows)) ∧
    ∀ d sd cfg pages (sc : Script (spark d sd cfg pages)) beat sdk,
      pagesOf sc sdk paymentType beat.calls = fetch → ∀ turns,
        plain (List.map SdkPayment.row)
            ((Spark.paymentsByHash sdk paymentHash paymentType turns 0 []).amid sc beat).2 =
          (paymentsByHash fetch paymentHash turns).run := by
  obtain ⟨hfound, hstops, hreturns⟩ := paymentsByHash_complete hlists hgrow hstart paymentHash
  refine ⟨hfound, hstops, hreturns, fun d sd cfg pages sc beat sdk hfetch turns => ?_⟩
  rw [← hfetch]
  exact amid_paymentsByHash sc beat sdk paymentHash paymentType turns

/-- A payment by Lightning with this hash. -/
def sentRow (status : PaymentStatus) (paymentHash : Str) : StoredPayment :=
  ⟨.send, status, some (.lightning (some ⟨paymentHash⟩))⟩

/-- A completed payment behind 100 that failed. -/
def earlyRows : List StoredPayment :=
  List.replicate 100 (sentRow .failed "f".toList) ++ [sentRow .completed "c".toList]

/-- Another arrives after the first fetch. -/
def arrivingRows : ℕ → List StoredPayment
  | 0 => earlyRows
  | _ + 1 => sentRow .pending "p".toList :: earlyRows

/-- The pages of a scan that runs meanwhile. -/
def arrivingFetch (k : ℕ) : Except Unit (List SparkPayment) :=
  .ok (listPayments (arrivingRows k) .send paymentScanPage (paymentScanPage * k))

theorem payment_scan_complete_arriving : ∃ turns rows,
    (paymentsByHash arrivingFetch "c".toList turns).run = some (.ok rows) ∧
      matching "c".toList (ofType .send earlyRows) <+ rows := by
  have hlists : ListsPages arrivingFetch .send arrivingRows := fun _ _ h =>
    (Except.ok.inj h).symm
  have hgrow : ∀ k, arrivingRows k <+ arrivingRows (k + 1) := by
    intro k
    cases k with
    | zero => exact List.sublist_cons_self _ _
    | succ k => exact .refl _
  obtain ⟨hfound, -, hreturns, -⟩ :=
    payment_scan_complete hlists hgrow (.refl earlyRows) "c".toList
  obtain ⟨turns, rows, hrows⟩ := hreturns (fun _ => ⟨_, rfl⟩) ⟨1, by decide +kernel⟩
  exact ⟨turns, rows, hrows, (hfound turns rows hrows).1⟩

end LnurlMint
