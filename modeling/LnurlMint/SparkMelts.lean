import LnurlMint.Attempts
import LnurlMint.SparkPayments

/-!
# A payment that was sent is never called unpaid

The mint restores a note when its funding source says that the payment was not made. For the spark
backend two things may stand behind such an answer: rows that all failed, or the process's own
memory of having turned the payment away. The memory is good for its own attempt only. If a payment
with the same hash could be asked for twice, one attempt may have been turned away and the other
sent, and the memory would speak for both.

The backend does not look out for that; the mint does. It never asks twice for one hash, over all
its restarts, so that what was remembered of a hash is all there is to know of it.

## Main definitions

* `rejectedSince` — the hashes remembered since the process was started
* `ListedTo` — a payment was listed to a task
* `payAsks`, `payCalls` — what the backend is asked to pay, and what the mint asks for
* `sendsFor` — a payment is sent for a hash
* `Verdict`, `Unmade` — what the backend says of a payment, and what is so if it was not made

## Main results

* `registry_exact` — which hashes are remembered, and why
* `sent_once_for_hash` — nothing is paid for twice
* `unpaid_never_sent`
-/

namespace LnurlMint

open Interleave Spark

section Registry

variable {d : Deps} {sd : SparkDeps} {cfg : SparkSettings} {pages : ℕ}
  {s : SparkState} {w w₁ w₂ : World (spark d sd cfg pages)} {a b : Actor sparkSig} {hash : Str}

/-! ## What is remembered -/

/-- The hashes remembered since the process was started, the last first. -/
def rejectedSince : List (Event (spark d sd cfg pages)) → List Str
  | [] => []
  | .did _ (.markPrepareRejected h) _ _ _ :: hist => h :: rejectedSince hist
  | .crashed _ :: _ => []
  | _ :: hist => rejectedSince hist

/-- The register holds what was remembered last. -/
theorem Run.prepareRejected {L : Law (spark d sd cfg pages)} (h : Run L SparkState.initial w) :
    w.st.prepareRejected = Recency.recent prepareRejectedMax (rejectedSince w.hist) := by
  induction h with
  | start => rfl
  | @step w w' e _ hn ih =>
    have hstep := hn.step
    cases hstep with
    | @did b o i out s' _ hs =>
      have hs : sparkExec o w.st = some (out, s') := hs
      rw [World.st_record, World.hist_record]
      cases o with
      | markPrepareRejected h =>
        cases hs
        rw [rejectedSince, Recency.recent, ← ih]
      | acquire =>
        have hs : (if w.st.locked then none else some ((), { w.st with locked := true })) =
          some (out, s') := hs
        split at hs <;> cases hs
        exact ih
      | endless => cases hs
      | _ =>
        cases hs
        exact ih
    | @stirred m => exact (show Empty from m).elim
    | crashed => rfl
    | _ => exact ih

theorem did_of_rejectedSince {hist : List (Event (spark d sd cfg pages))}
    (h : hash ∈ rejectedSince hist) :
    ∃ a i out pre, .did a (.markPrepareRejected hash) i out pre ∈ hist := by
  induction hist with
  | nil => cases h
  | cons e hist ih =>
    have older : hash ∈ rejectedSince hist →
        ∃ a i out pre, .did a (.markPrepareRejected hash) i out pre ∈ e :: hist := fun h => by
      obtain ⟨a, i, out, pre, he⟩ := ih h
      exact ⟨a, i, out, pre, List.mem_cons_of_mem _ he⟩
    cases e with
    | did b o i out pre =>
      cases o with
      | markPrepareRejected h' =>
        rcases List.mem_cons.1 h with rfl | h
        exacts [⟨b, i, out, pre, List.mem_cons_self⟩, older h]
      | _ => exact older h
    | crashed => cases h
    | _ => exact older h

/-- What a task that remembers a hash may rely on. -/
theorem Next.turned_away {i : Unit} {out : Unit} {pre : SparkState}
    (hn : Next (sparkLaw d sd cfg pages) w (.did a (.markPrepareRejected hash) i out pre) w₁) :
    ∃ invoice feeLimitMsat, a.task = .payInvoice invoice feeLimitMsat ∧
      invoiceHash d invoice = some hash ∧
      ∀ ans ∈ sentAnswers (acts a.tid w.hist), refused d ans = true := by
  have hl : (sparkRule d sd a.task).op (acts a.tid w.hist) (.markPrepareRejected hash) :=
    hn.lawful.1
  cases htask : a.task with
  | payInvoice invoice feeLimitMsat =>
    rw [htask] at hl
    exact ⟨invoice, feeLimitMsat, rfl, hl _ rfl⟩
  | _ =>
    rw [htask] at hl
    cases hl

/-- Everything that this actor sent was refused before it left the wallet. -/
def AllRefused (d : Deps) (hist : List (Event (spark d sd cfg pages))) (a : Actor sparkSig) :
    Prop :=
  ∀ sdk prepared preferSpark timeout key pre,
    .called a (.sendPayment sdk prepared preferSpark timeout key) pre ∈ hist →
      ∃ ans pre', .answered a (.sendPayment sdk prepared preferSpark timeout key) ans pre' ∈ hist ∧
        refused d ans = true

/-- **Who remembers a hash turned it away**: what he sent was refused, and he sends nothing more. -/
theorem Run.turned_away (h : Run (sparkLaw d sd cfg pages) s w) {i : Unit} {out : Unit}
    {pre : SparkState} (he : .did a (.markPrepareRejected hash) i out pre ∈ w.hist) :
    (∃ invoice feeLimitMsat, a.task = .payInvoice invoice feeLimitMsat ∧
      invoiceHash d invoice = some hash) ∧ AllRefused d w.hist a := by
  obtain ⟨w₀, w₁, h₀, hn, hf⟩ := h.past he
  obtain ⟨invoice, feeLimitMsat, htask, hhash, -⟩ := Next.turned_away hn
  refine ⟨⟨invoice, feeLimitMsat, htask, hhash⟩, ?_⟩
  intro sdk prepared preferSpark timeout key pre' hsent
  rcases h.before_or he hsent (by simp) with
    ⟨u₀, u₁, u₂, u₃, g₀, gn, gf, gn', gf'⟩ | ⟨u₀, u₁, u₂, u₃, g₀, gn, gf, gn', gf'⟩
  · -- it would have been sent after it was turned away
    obtain ⟨_, _, -, hquoted⟩ := Next.quoted gn'
    have hact : Act.did (S := sparkSig) (.markPrepareRejected hash) out ∈ acts a.tid u₂.hist := by
      refine List.mem_filterMap.2 ⟨_, gf.mem (e := .did a (.markPrepareRejected hash) i out pre) ?_,
        if_pos rfl⟩
      rw [gn.hist]
      exact List.mem_cons_self
    cases (show marked (.markPrepareRejected hash) = none from hquoted.first _ hact)
  · obtain ⟨ans, pre'', hans, htold⟩ := Run.sent_answered g₀ gn gf gn' rfl rfl
    obtain ⟨_, _, -, -, hrefused⟩ := Next.turned_away gn'
    exact ⟨ans, pre'', (gn'.follows.trans gf').mem hans, hrefused ans htold⟩

/-- **The register is exact.** In every run from a process that was just started, a hash is in it if
and only if it was remembered since the last restart, and fewer than 1024 other hashes since; and
what is remembered was turned away: a task that was to pay an invoice with this hash remembered it,
and whatever that task sent, at any time, was refused before it left the wallet. -/
theorem registry_exact {c : Config (spark d sd cfg pages)} (h : Reach SparkState.initial c)
    (hash : Str) :
    (hash ∈ c.w.st.prepareRejected ↔ ∃ since rest, rejectedSince c.w.hist = since ++ hash :: rest ∧
      hash ∉ since ∧ since.toFinset.card < 1024) ∧
    (hash ∈ c.w.st.prepareRejected → ∃ a invoice feeLimitMsat i out pre,
      .did a (.markPrepareRejected hash) i out pre ∈ c.w.hist ∧
        a.task = .payInvoice invoice feeLimitMsat ∧ invoiceHash d invoice = some hash ∧
        AllRefused d c.w.hist a) := by
  have hr := Reach.runSpark h
  have hiff : hash ∈ c.w.st.prepareRejected ↔
      ∃ since rest, rejectedSince c.w.hist = since ++ hash :: rest ∧
        hash ∉ since ∧ since.toFinset.card < 1024 := by
    rw [Run.prepareRejected hr]
    exact Recency.mem_recent_iff
  refine ⟨hiff, fun hmem => ?_⟩
  obtain ⟨since, rest, hsince, -, -⟩ := hiff.1 hmem
  obtain ⟨a, i, out, pre, he⟩ := did_of_rejectedSince
    (show hash ∈ rejectedSince c.w.hist by rw [hsince]; simp)
  obtain ⟨⟨invoice, feeLimitMsat, htask, hhash⟩, hrefused⟩ := Run.turned_away hr he
  exact ⟨a, invoice, feeLimitMsat, i, out, pre, he, htask, hhash, hrefused⟩

/-- An invoice is to be paid, and the wallet has not enough for it. -/
def turnedAwayRun : List (Choice standInSpark) :=
  sparkTurns 0 (.payInvoice "lnp".toList 5000) (.error (.sdkError true "balance".toList))
    [2, 3, 1, 4, 1, 2]

theorem registry_exact_turned_away : ∃ (c : Config standInSpark) (a : Actor sparkSig)
    (invoice : Str) (feeLimitMsat : ℤ), Reach SparkState.initial c ∧
      "p".toList ∈ c.w.st.prepareRejected ∧ a.task = .payInvoice invoice feeLimitMsat ∧
      AllRefused .standIn c.w.hist a := by
  have hrun : (sparkRun turnedAwayRun).any
      (fun c => decide ("p".toList ∈ c.w.st.prepareRejected)) = true := by
    decide +kernel
  obtain ⟨c, hc, h⟩ := exists_sparkRun hrun
  have hmem := of_decide_eq_true h
  obtain ⟨a, invoice, feeLimitMsat, _, _, _, -, htask, -, hrefused⟩ :=
    (registry_exact hc "p".toList).2 hmem
  exact ⟨c, a, invoice, feeLimitMsat, hc, hmem, htask, hrefused⟩

/-! ## What the backend is asked to pay -/

/-- Whether a task is to pay an invoice with this hash. -/
def paysFor (d : Deps) (hash : Str) : SparkTask → Bool
  | .payInvoice invoice _ => invoiceHash d invoice = some hash
  | _ => false

/-- The invoice and the limit that an event asks to pay. -/
def payAsk : Event (spark d sd cfg pages) → Option (Str × ℤ)
  | .arrived ⟨_, .payInvoice invoice feeLimitMsat⟩ => some (invoice, feeLimitMsat)
  | _ => none

/-- What the backend is asked to pay. -/
def payAsks (hist : List (Event (spark d sd cfg pages))) : List (Str × ℤ) := hist.filterMap payAsk

/-- Whether an event asks to pay this hash. -/
def asksFor (hash : Str) : Event (spark d sd cfg pages) → Bool
  | .arrived a => paysFor d hash a.task
  | _ => false

theorem countP_asksFor (hist : List (Event (spark d sd cfg pages))) :
    hist.countP (asksFor hash) =
      (payAsks hist).countP fun x => invoiceHash d x.1 = some hash := by
  rw [payAsks, List.countP_filterMap]
  refine List.countP_congr fun e _ => ?_
  cases e with
  | arrived a =>
    obtain ⟨tid, task⟩ := a
    cases task <;> simp [asksFor, paysFor, payAsk]
  | _ => simp [asksFor, payAsk]

/-- Nothing in the backend spawns anything, so whoever is there was asked for. -/
theorem Run.arrived (h : Run (sparkLaw d sd cfg pages) s w) (ha : Joined w.hist a) :
    .arrived a ∈ w.hist := by
  refine ha.resolve_right fun ⟨b, hb⟩ => ?_
  obtain ⟨w₀, w₁, -, hn, -⟩ := h.past hb
  have hl : (sparkRule d sd b.task).task (acts b.tid w₀.hist) a.task := hn.lawful.1
  cases htask : b.task <;> rw [htask] at hl <;> exact hl.elim

/-- If a hash is asked for once, one task pays for it. -/
theorem Run.payer_eq_of_once (h : Run (sparkLaw d sd cfg pages) s w)
    (honce : w.hist.countP (asksFor hash) ≤ 1) (ha : Joined w.hist a) (hb : Joined w.hist b)
    (hpa : paysFor d hash a.task = true) (hpb : paysFor d hash b.task = true) : a = b := by
  have heq := eq_of_countP_le_one honce (Run.arrived h ha) (Run.arrived h hb) hpa hpb
  injection heq

/-- Whether an event sends a payment for this hash. -/
def sendsFor (hash : Str) : Event (spark d sd cfg pages) → Bool
  | .called a c _ => sends c && paysFor d hash a.task
  | _ => false

theorem sendsFor_eq_true {e : Event (spark d sd cfg pages)} (h : sendsFor hash e = true) :
    ∃ a, e.actor? = some a ∧ paysFor d hash a.task = true ∧ sendsBy a.tid e = true := by
  cases e with
  | called a c pre =>
    obtain ⟨hc, hpays⟩ := Bool.and_eq_true_iff.1 h
    exact ⟨a, rfl, hpays, Bool.and_eq_true_iff.2 ⟨hc, decide_eq_true rfl⟩⟩
  | _ => cases h

/-- Where a hash is asked for once, at most one payment is sent for it. -/
theorem Run.sends_hash_once (h : Run (sparkLaw d sd cfg pages) s w)
    (honce : w.hist.countP (asksFor hash) ≤ 1) : w.hist.countP (sendsFor hash) ≤ 1 := by
  by_cases hnone : w.hist.countP (sendsFor hash) = 0
  · exact hnone ▸ Nat.zero_le 1
  · obtain ⟨e, he, hsends⟩ := List.countP_pos_iff.1 (Nat.pos_of_ne_zero hnone)
    obtain ⟨a, ha, hpays, -⟩ := sendsFor_eq_true hsends
    refine le_trans (List.countP_mono_left fun e' he' hsends' => ?_) (Run.sends_once h a.tid)
    obtain ⟨b, hb, hpays', hby⟩ := sendsFor_eq_true hsends'
    obtain rfl := Run.payer_eq_of_once h honce (h.joined he ha) (h.joined he' hb) hpays hpays'
    exact hby

/-! ## What became of a payment -/

/-- An outgoing payment for this hash was listed to the actor. -/
def ListedTo (hist : List (Event (spark d sd cfg pages))) (a : Actor sparkSig) (hash : Str)
    (p : SdkPayment) : Prop :=
  ∃ sdk limit offset page pre,
    .answered a (.listPayments sdk .send limit offset) (.ok page) pre ∈ hist ∧ p ∈ page ∧
      names hash p = true

theorem listedTo_iff (h : Run (sparkLaw d sd cfg pages) s w) (ha : Joined w.hist a)
    {p : SdkPayment} : p ∈ Spark.listed hash (acts a.tid w.hist) ↔ ListedTo w.hist a hash p := by
  constructor
  · intro hp
    obtain ⟨x, hx, hp⟩ := List.mem_flatMap.1 hp
    cases x with
    | heard c ans =>
      cases c with
      | listPayments sdk paymentType limit offset =>
        cases paymentType with
        | receive => cases hp
        | send =>
          cases ans with
          | error e => cases hp
          | ok page =>
            obtain ⟨hp, hname⟩ := List.mem_filter.1 hp
            obtain ⟨pre, he⟩ := h.heard_of_acts ha hx
            exact ⟨sdk, limit, offset, page, pre, he, hp, hname⟩
      | _ => cases hp
    | _ => cases hp
  · rintro ⟨sdk, limit, offset, page, pre, he, hp, hname⟩
    have hact : Act.heard (S := sparkSig) (.listPayments sdk .send limit offset) (.ok page) ∈
        acts a.tid w.hist := List.mem_filterMap.2 ⟨_, he, if_pos rfl⟩
    exact List.mem_flatMap.2 ⟨_, hact, List.mem_filter.2 ⟨hp, hname⟩⟩

/-- The actor was asked after a hash, and this is what it said of its payment. -/
structure Verdict (hist : List (Event (spark d sd cfg pages))) (hash : Str) (made : Bool)
    (rest : List (Event (spark d sd cfg pages))) (a : Actor sparkSig) : Prop where
  task : a.task = .isPaymentComplete hash
  answer : ∃ es pre, hist = es ++ .finished a (.ok (.answer made)) pre :: rest

/-- Who says what became of a payment was told so. -/
theorem Run.told (h : Run (sparkLaw d sd cfg pages) s w) {made : Bool}
    {rest : List (Event (spark d sd cfg pages))} (hverdict : Verdict w.hist hash made rest a) :
    ∃ w₀, Run (sparkLaw d sd cfg pages) s w₀ ∧ w₀.hist = rest ∧
      Follows (sparkLaw d sd cfg pages) w₀ w ∧ Joined w₀.hist a ∧
      Told (acts a.tid w₀.hist) hash made := by
  obtain ⟨htask, es, pre, hh⟩ := hverdict
  obtain ⟨w₀, w₁, h₀, rfl, hn, hf⟩ := h.cut hh
  have hvalue : (sparkRule d sd a.task).value (acts a.tid w₀.hist) (.answer made) :=
    hn.lawful.1 _ rfl
  rw [htask] at hvalue
  obtain ⟨_, ⟨⟩, htold⟩ := hvalue
  exact ⟨w₀, h₀, rfl, hn.follows.trans hf, mem_alive (hn.step.alive rfl), htold⟩

/-- A payment that is said to be made was listed as completed. -/
theorem Run.said_made (h : Run (sparkLaw d sd cfg pages) s w)
    {rest : List (Event (spark d sd cfg pages))} (hverdict : Verdict w.hist hash true rest a) :
    ∃ p, ListedTo w.hist a hash p ∧ p.status = .completed := by
  obtain ⟨w₀, h₀, rfl, hf, hjoined, htold⟩ := Run.told h hverdict
  obtain ⟨p, hp, hstatus⟩ := htold.completed rfl
  obtain ⟨sdk, limit, offset, page, pre, he, hp⟩ := (listedTo_iff h₀ hjoined).1 hp
  exact ⟨p, ⟨sdk, limit, offset, page, pre, hf.mem he, hp⟩, hstatus⟩

/-- The payment was not made: the rows for it that were listed to the actor all failed, and there is
one, or whatever was sent for it, before or after, was refused. -/
structure Unmade (d : Deps) (hist : List (Event (spark d sd cfg pages))) (hash : Str)
    (rest : List (Event (spark d sd cfg pages))) (a : Actor sparkSig) : Prop where
  failed : ∀ p, ListedTo rest a hash p → p.status = .failed
  refused : (∃ p, ListedTo rest a hash p) ∨
    ∀ b, Joined hist b → paysFor d hash b.task = true → AllRefused d hist b

/-- Where a hash is asked for once, its payment is said not to be made only if it was not. -/
theorem Run.said_unmade (h : Run (sparkLaw d sd cfg pages) SparkState.initial w)
    (honce : w.hist.countP (asksFor hash) ≤ 1) {rest : List (Event (spark d sd cfg pages))}
    (hverdict : Verdict w.hist hash false rest a) : Unmade d w.hist hash rest a := by
  obtain ⟨w₀, h₀, rfl, hf, hjoined, htold⟩ := Run.told h hverdict
  refine ⟨fun p hp => htold.failed rfl p ((listedTo_iff h₀ hjoined).2 hp), ?_⟩
  by_cases hnone : Spark.listed hash (acts a.tid w₀.hist) = []
  · -- no row, so the hash was in the register, and who put it there is the only one to pay for it
    refine .inr fun b hb hpays => ?_
    obtain ⟨i, pre', hread⟩ := h₀.did_of_acts hjoined (htold.unsent rfl hnone)
    obtain ⟨u₀, u₁, hu₀, hun, huf⟩ := h₀.past hread
    have hmem : hash ∈ u₀.st.prepareRejected := by
      have hx : sparkExec (.prepareRejected hash) u₀.st = some (true, u₁.st) := hun.exec.2
      exact of_decide_eq_true (Prod.mk.inj (Option.some.inj hx)).1
    rw [Run.prepareRejected hu₀] at hmem
    obtain ⟨since, old, hsince, -, -⟩ := Recency.mem_recent_iff.1 hmem
    obtain ⟨x, i', out, pre'', he⟩ := did_of_rejectedSince
      (show hash ∈ rejectedSince u₀.hist by rw [hsince]; simp)
    have he := ((hun.follows.trans huf).trans hf).mem he
    obtain ⟨⟨invoice, feeLimitMsat, htask, hhash⟩, hrefused⟩ := Run.turned_away h he
    have hpays' : paysFor d hash x.task = true := by
      rw [htask]
      exact decide_eq_true hhash
    obtain rfl := Run.payer_eq_of_once h honce hb (h.joined he rfl) hpays hpays'
    exact hrefused
  · obtain ⟨p, hp⟩ := List.exists_mem_of_ne_nil _ hnone
    exact .inl ⟨p, (listedTo_iff h₀ hjoined).1 hp⟩

end Registry

/-! ## The mint on a spark wallet -/

section Mint

variable {d : Deps} {cfg : Settings d}

/-- The invoice and the limit that an event of the mint asks to pay. -/
def payCall : Event (mint cfg) → Option (Str × ℤ)
  | .called _ (.payInvoice pr feeLimitMsat) _ => some (pr, feeLimitMsat)
  | _ => none

/-- What the mint asks its funding source to pay. -/
def payCalls (hist : List (Event (mint cfg))) : List (Str × ℤ) := hist.filterMap payCall

theorem countP_attempts (hist : List (Event (mint cfg))) (hash : Str) :
    hist.countP (attempts hash) =
      (payCalls hist).countP fun x => invoiceHash d x.1 = some hash := by
  rw [payCalls, List.countP_filterMap]
  refine List.countP_congr fun e _ => ?_
  cases e with
  | called a c pre => cases c <;> simp [attempts, payCall]
  | _ => simp [attempts, payCall]

variable {sd : SparkDeps} {wallet : SparkSettings} {pages : ℕ}

/-- The mint asks once for a hash, over all its restarts. -/
theorem countP_asksFor_le {m : Config (mint cfg)} (hm : Reach State.initial m)
    {c : Config (spark d sd wallet pages)}
    (hasks : (payAsks c.w.hist).Sublist (payCalls m.w.hist)) (hash : Str) :
    c.w.hist.countP (asksFor hash) ≤ 1 := by
  have hr : Run (law cfg) State.initial m.w := Reach.law hm
  calc c.w.hist.countP (asksFor hash)
      = (payAsks c.w.hist).countP fun x => invoiceHash d x.1 = some hash := countP_asksFor _
    _ ≤ (payCalls m.w.hist).countP fun x => invoiceHash d x.1 = some hash := hasks.countP_le
    _ = m.w.hist.countP (attempts hash) := (countP_attempts _ _).symm
    _ ≤ 1 := (Run.countP_attempts_le hr hash).trans (Run.recorded_once hr hash).1

/-- **No invoice is paid for twice.** The mint runs on a spark wallet, from when both were set up,
and the backend is asked to pay what the mint asks for, or less if the process dies in between.
Whatever interleaves, and however often it dies: the wallet is told to send at most one payment for
any hash. -/
theorem sent_once_for_hash {m : Config (mint cfg)} (hm : Reach State.initial m)
    {c : Config (spark d sd wallet pages)} (h : Reach SparkState.initial c)
    (hasks : (payAsks c.w.hist).Sublist (payCalls m.w.hist)) (hash : Str) :
    c.w.hist.countP (sendsFor hash) ≤ 1 :=
  Run.sends_hash_once (Reach.runSpark h) (countP_asksFor_le hm hasks hash)

/-- A mint that asked to pay one invoice. -/
theorem exists_asked : ∃ m : Config standInMint, Reach State.initial m ∧
    payCalls m.w.hist = [("lnp".toList, 5000)] := by
  have hmelt : (standInRun attemptedRun).any
      (fun m => decide (payCalls m.w.hist = [("lnp".toList, 5000)])) = true := by
    decide +kernel
  obtain ⟨m, hm, h⟩ := exists_standInRun hmelt
  exact ⟨m, hm, of_decide_eq_true h⟩

theorem sent_once_for_hash_turned_away : ∃ c : Config standInSpark,
    Reach SparkState.initial c ∧ c.w.hist.countP (sendsFor "p".toList) = 1 := by
  have hrun : (sparkRun turnedAwayRun).any (fun c =>
      decide (payAsks c.w.hist = [("lnp".toList, 5000)]) &&
        c.w.hist.any (sendsFor "p".toList)) = true := by
    decide +kernel
  obtain ⟨m, hm, hcalls⟩ := exists_asked
  obtain ⟨c, hc, h⟩ := exists_sparkRun hrun
  simp only [Bool.and_eq_true, decide_eq_true_eq] at h
  obtain ⟨hasks, hany⟩ := h
  refine ⟨c, hc, Nat.le_antisymm ?_ (List.countP_pos_iff.2 (List.any_eq_true.1 hany))⟩
  exact sent_once_for_hash hm hc (by rw [hasks, hcalls]) _

/-- **A payment that was sent is never called unpaid.** In every such run of the two: if the backend
says that the payment with some hash was not made, then it was not. Every row for it that was listed
has failed, and there is one, or whatever was sent for an invoice with this hash, before or after,
was refused before it left the wallet. -/
theorem unpaid_never_sent {m : Config (mint cfg)} (hm : Reach State.initial m)
    {c : Config (spark d sd wallet pages)} (h : Reach SparkState.initial c)
    (hasks : (payAsks c.w.hist).Sublist (payCalls m.w.hist)) {hash : Str} {a : Actor sparkSig}
    {rest : List (Event (spark d sd wallet pages))}
    (hverdict : Verdict c.w.hist hash false rest a) : Unmade d c.w.hist hash rest a :=
  Run.said_unmade (Reach.runSpark h) (countP_asksFor_le hm hasks hash) hverdict

/-- Whether an event is that the payment with this hash is called unpaid. -/
def calledUnpaid (hash : Str) : Event standInSpark → Bool
  | .finished ⟨_, .isPaymentComplete h⟩ (.ok (.answer false)) _ => h = hash
  | _ => false

/-- Whether an event lists no payments. -/
def listsNothing : Event standInSpark → Bool
  | .answered _ (.listPayments ..) (.ok page) _ => page.isEmpty
  | _ => true

/-- The payment that was turned away is asked after. -/
def unpaidRun : List (Choice standInSpark) :=
  turnedAwayRun ++ sparkTurns 19 (.isPaymentComplete "p".toList) (.error .other) [2, 2]

/-- Where no payments were listed, one that was not made was refused. -/
theorem Unmade.refused_of_nothing {hist rest : List (Event standInSpark)} {hash : Str}
    {a : Actor sparkSig} (h : Unmade .standIn hist hash rest a)
    (hnothing : ∀ e ∈ rest, listsNothing e = true) {b : Actor sparkSig} (hb : Joined hist b)
    (hpays : paysFor .standIn hash b.task = true) : AllRefused .standIn hist b := by
  refine h.refused.elim ?_ fun hrefused => hrefused b hb hpays
  rintro ⟨p, sdk, limit, offset, page, pre, hlisted, hp, -⟩
  have hempty : page.isEmpty = true := hnothing _ hlisted
  rw [List.isEmpty_iff.1 hempty] at hp
  cases hp

/-- A backend that was asked to pay the invoice, and says that it is not paid. -/
theorem exists_verdict : ∃ (c : Config standInSpark) (rest : List (Event standInSpark))
    (a : Actor sparkSig), Reach SparkState.initial c ∧
      payAsks c.w.hist = [("lnp".toList, 5000)] ∧ Verdict c.w.hist "p".toList false rest a ∧
      ∀ e ∈ rest, listsNothing e = true := by
  have hrun : (sparkRun unpaidRun).any (fun c =>
      decide (payAsks c.w.hist = [("lnp".toList, 5000)]) &&
        c.w.hist.any (calledUnpaid "p".toList) && c.w.hist.all listsNothing) = true := by
    decide +kernel
  obtain ⟨c, hc, h⟩ := exists_sparkRun hrun
  simp only [Bool.and_eq_true, decide_eq_true_eq, List.all_eq_true] at h
  obtain ⟨⟨hasks, hany⟩, hnothing⟩ := h
  obtain ⟨e, he, hunpaid⟩ := List.any_eq_true.1 hany
  obtain ⟨a, pre, ha, rfl⟩ : ∃ a pre, a.task = .isPaymentComplete "p".toList ∧
      e = .finished a (.ok (.answer false)) pre := by
    simp only [calledUnpaid] at hunpaid
    split at hunpaid
    · exact ⟨_, _, congrArg _ (of_decide_eq_true hunpaid), rfl⟩
    · cases hunpaid
  obtain ⟨es, rest, hh⟩ := List.append_of_mem he
  refine ⟨c, rest, a, hc, hasks, ⟨ha, es, pre, hh⟩, fun e he => hnothing e ?_⟩
  exact hh ▸ List.mem_append_right es (List.mem_cons_of_mem _ he)

theorem unpaid_never_sent_turned_away : ∃ (m : Config standInMint) (c : Config standInSpark)
    (rest : List (Event standInSpark)) (a : Actor sparkSig), Reach State.initial m ∧
      Reach SparkState.initial c ∧ Verdict c.w.hist "p".toList false rest a ∧
      ∀ b, Joined c.w.hist b → paysFor .standIn "p".toList b.task = true →
        AllRefused .standIn c.w.hist b := by
  obtain ⟨m, hm, hcalls⟩ := exists_asked
  obtain ⟨c, rest, a, hc, hasks, hverdict, hnothing⟩ := exists_verdict
  have hunmade := unpaid_never_sent hm hc (by rw [hasks, hcalls]) hverdict
  exact ⟨m, c, rest, a, hm, hc, hverdict, fun b hb => hunmade.refused_of_nothing hnothing hb⟩

end Mint

end LnurlMint
