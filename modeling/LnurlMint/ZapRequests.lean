import LnurlMint.Zaps

/-!
# Which zap requests are accepted

Appendix D of NIP-57 asks of a zap request a kind, tags, an id and a signature that verify, one `p`
tag and at most one `e` tag that name keys, a `relays` tag, and the amount if it says one.

The check asks for a little less in three places. Its pattern for a key ends in `$`, which matches
before a newline too; it compares the first `amount` tag only; and it catches a `ValueError` of the
JSON parser, which raises something else for a text that is nested too deeply. A request that slips
through there is the only kind that is not judged by the appendix.

## Main definitions

* `Key64` — 64 lowercase hex characters
* `Framed` — a signed zap request with the tags that it needs
* `AppendixD`, `Judged` — what the appendix asks, and what it asks of the mint
* `Slips` — what the check lets pass beside it

## Main results

* `zap_request_judged_iff`
-/

namespace LnurlMint

open Nostr

/-! ## Keys -/

/-- 64 lowercase hex characters. -/
def Key64 (v : Str) : Prop := v.length = 64 ∧ ∀ c ∈ v, c ∈ "0123456789abcdef".toList

theorem Key64.getLast?_ne {v : Str} (h : Key64 v) : v.getLast? ≠ some '\n' := by
  intro hlast
  have hmem := h.2 '\n' (List.mem_of_getLast? hlast)
  revert hmem
  decide

/-- The pattern for a key takes a key, and a key before a newline. -/
theorem hex32_iff {v : Str} : hex32 v = true ↔ Key64 v ∨ ∃ key, v = key ++ ['\n'] ∧ Key64 key := by
  have hbody {b : Str} : (decide (b.length = 64) &&
      b.all fun c => decide (c ∈ "0123456789abcdef".toList)) = true ↔ Key64 b := by
    simp only [Bool.and_eq_true, decide_eq_true_eq, List.all_eq_true, Key64]
  rw [hex32]
  by_cases hlast : v.getLast? = some '\n'
  · obtain ⟨key, rfl⟩ := List.getLast?_eq_some_iff.1 hlast
    rw [if_pos hlast, List.dropLast_concat]
    rw [hbody]
    constructor
    · exact fun h => .inr ⟨key, rfl, h⟩
    · rintro (h | ⟨key', heq, h⟩)
      · exact absurd hlast h.getLast?_ne
      · rwa [List.append_cancel_right heq]
  · rw [if_neg hlast]
    rw [hbody]
    constructor
    · exact .inl
    · rintro (h | ⟨key, rfl, -⟩)
      · exact h
      · exact absurd (List.getLast?_concat) hlast

/-! ## The appendix and the check -/

section Checks

variable {d : Deps} {event : Json} {tags : List (List Str)} {amountMsat : ℤ}

/-- A signed zap request with the tags that it needs, whatever they carry: one `p` tag, at most one
`e` tag, and a `relays` tag. -/
structure Framed (d : Deps) (event : Json) (tags : List (List Str)) : Prop where
  kind : ∃ text, event.get "kind" = some (.num (some zapRequestKind) text)
  lists : tags? event = some tags
  verified : verifyEvent d event = true
  pubkey : (named tags "p").length = 1
  note : (named tags "e").length ≤ 1
  relays : named tags "relays" ≠ []

/-- The tags that name keys. -/
def keyTags (tags : List (List Str)) : List (List Str) := named tags "p" ++ named tags "e"

/-- The request is as the appendix asks. -/
def AppendixD (d : Deps) (event : Json) (amountMsat : ℤ) : Prop :=
  ∃ tags, Framed d event tags ∧ (∀ t ∈ keyTags tags, ∃ v, t[1]? = some v ∧ Key64 v) ∧
    ∀ t ∈ named tags "amount", t[1]? = some (decimal amountMsat)

/-- The request is not as the appendix asks, but passes the check: a key is followed by a newline,
or an `amount` tag after the first says something else. -/
def Slips (d : Deps) (event : Json) (amountMsat : ℤ) : Prop :=
  ∃ tags, Framed d event tags ∧
    (∀ t ∈ keyTags tags, ∃ v, t[1]? = some v ∧
      (Key64 v ∨ ∃ key, v = key ++ ['\n'] ∧ Key64 key)) ∧
    (∀ t, (named tags "amount").head? = some t → t[1]? = some (decimal amountMsat)) ∧
    ((∃ t ∈ keyTags tags, ∃ key, t[1]? = some (key ++ ['\n'])) ∨
      ∃ t ∈ named tags "amount", t[1]? ≠ some (decimal amountMsat))

/-- The mint's answer for this text is the appendix's: the event exactly if the text is one that is
as it asks, and else a reason. -/
def Judged (d : Deps) (raw : Str) (amountMsat : ℤ) : Prop :=
  (∀ event, validateZapRequest d raw amountMsat = .ok (.ok event) ↔
    d.jsonLoads raw = .ok event ∧ AppendixD d event amountMsat) ∧
  ∃ checked, validateZapRequest d raw amountMsat = .ok checked

/-- A tag has a second element that the pattern takes. -/
theorem key_tag_iff {t : List Str} : (decide (t.length < 2) || !hex32 (t.getD 1 [])) = false ↔
    ∃ v, t[1]? = some v ∧ hex32 v = true := by
  rcases t with _ | ⟨name, _ | ⟨v, rest⟩⟩ <;> simp

theorem amount_tag_iff {t : List Str} {text : Str} :
    ¬(t.length < 2 ∨ t.getD 1 [] ≠ text) ↔ t[1]? = some text := by
  rcases t with _ | ⟨name, _ | ⟨v, rest⟩⟩ <;> simp

theorem any_key_tag_iff {ts : List (List Str)} :
    ¬ts.any (fun t => t.length < 2 || !hex32 (t.getD 1 [])) = true ↔
      ∀ t ∈ ts, ∃ v, t[1]? = some v ∧ hex32 v = true := by
  rw [Bool.not_eq_true, List.any_eq_false]
  refine forall₂_congr fun t _ => ?_
  rw [Bool.not_eq_true, key_tag_iff]

/-- What the checks accept. -/
theorem checkZapRequest_eq_ok {event' : Json} :
    checkZapRequest d event amountMsat = .ok event' ↔
      event' = event ∧ ∃ tags, Framed d event tags ∧
        (∀ t ∈ keyTags tags, ∃ v, t[1]? = some v ∧ hex32 v = true) ∧
        ∀ t, (named tags "amount").head? = some t → t[1]? = some (decimal amountMsat) := by
  constructor
  · intro h
    rw [checkZapRequest] at h
    split at h
    · rename_i kind text hkind
      split at h
      · cases h
      rename_i hnum
      split at h
      · cases h
      rename_i tags htags
      split at h
      · cases h
      rename_i hverify
      dsimp only at h
      split at h
      · cases h
      rename_i hp
      split at h
      · cases h
      rename_i he
      split at h
      · cases h
      rename_i hrelays
      rw [not_or, any_key_tag_iff, not_not] at hp
      rw [not_or, any_key_tag_iff, not_lt] at he
      rw [not_not] at hnum
      subst hnum
      have hframed : Framed d event tags :=
        ⟨⟨text, hkind⟩, htags, by simpa using hverify, hp.1, he.1, hrelays⟩
      have hkeys : ∀ t ∈ keyTags tags, ∃ v, t[1]? = some v ∧ hex32 v = true := by
        intro t ht
        rcases List.mem_append.1 ht with ht | ht
        · exact hp.2 t ht
        · exact he.2 t ht
      split at h
      · rename_i amount rest hamount
        split at h
        · cases h
        rename_i hfirst
        cases h
        refine ⟨rfl, tags, hframed, hkeys, fun t ht => ?_⟩
        rw [hamount] at ht
        cases ht
        exact amount_tag_iff.1 hfirst
      · rename_i hamount
        cases h
        refine ⟨rfl, tags, hframed, hkeys, fun t ht => ?_⟩
        rw [hamount] at ht
        cases ht
    · cases h
  · rintro ⟨rfl, tags, ⟨⟨text, hkind⟩, htags, hverify, hp, he, hrelays⟩, hkeys, hfirst⟩
    have hpkeys := any_key_tag_iff.2 fun t ht => hkeys t (List.mem_append_left _ ht)
    have hekeys := any_key_tag_iff.2 fun t ht => hkeys t (List.mem_append_right _ ht)
    have hp' := not_or.2 ⟨not_not.2 hp, hpkeys⟩
    have he' := not_or.2 ⟨not_lt.2 he, hekeys⟩
    rw [checkZapRequest, hkind]
    simp only [ne_eq, not_true_eq_false, if_false, htags, hverify]
    rw [if_neg (by decide), if_neg hp', if_neg he', if_neg hrelays]
    split
    · rename_i amount rest hamount
      exact if_neg (amount_tag_iff.2 (hfirst amount (by rw [hamount]; rfl)))
    · rfl

/-- They accept what the appendix asks for, and what slips. -/
theorem checkZapRequest_ok_iff {event' : Json} :
    checkZapRequest d event amountMsat = .ok event' ↔
      event' = event ∧ (AppendixD d event amountMsat ∨ Slips d event amountMsat) := by
  rw [checkZapRequest_eq_ok]
  refine and_congr_right fun _ => ?_
  constructor
  · rintro ⟨tags, hframed, hkeys, hfirst⟩
    by_cases hslip : (∃ t ∈ keyTags tags, ∃ key, t[1]? = some (key ++ ['\n'])) ∨
        ∃ t ∈ named tags "amount", t[1]? ≠ some (decimal amountMsat)
    · refine .inr ⟨tags, hframed, fun t ht => ?_, hfirst, hslip⟩
      obtain ⟨v, hv, hmatch⟩ := hkeys t ht
      exact ⟨v, hv, hex32_iff.1 hmatch⟩
    · rw [not_or] at hslip
      refine .inl ⟨tags, hframed, fun t ht => ?_, fun t ht => ?_⟩
      · obtain ⟨v, hv, hmatch⟩ := hkeys t ht
        refine ⟨v, hv, (hex32_iff.1 hmatch).resolve_right ?_⟩
        rintro ⟨key, rfl, -⟩
        exact hslip.1 ⟨t, ht, key, hv⟩
      · by_contra hne
        exact hslip.2 ⟨t, ht, hne⟩
  · rintro (⟨tags, hframed, hkeys, hamounts⟩ | ⟨tags, hframed, hkeys, hfirst, -⟩)
    · refine ⟨tags, hframed, fun t ht => ?_, fun t ht => hamounts t (List.mem_of_head? ht)⟩
      obtain ⟨v, hv, hkey⟩ := hkeys t ht
      exact ⟨v, hv, hex32_iff.2 (.inl hkey)⟩
    · refine ⟨tags, hframed, fun t ht => ?_, hfirst⟩
      obtain ⟨v, hv, hkey⟩ := hkeys t ht
      exact ⟨v, hv, hex32_iff.2 hkey⟩

/-- What slips is not as the appendix asks. -/
theorem Slips.not_appendixD (h : Slips d event amountMsat) : ¬AppendixD d event amountMsat := by
  obtain ⟨tags, hframed, -, -, hslip⟩ := h
  rintro ⟨tags', hframed', hkeys, hamounts⟩
  obtain rfl : tags = tags' := Option.some.inj (hframed.lists.symm.trans hframed'.lists)
  rcases hslip with ⟨t, ht, key, hnewline⟩ | ⟨t, ht, hne⟩
  · obtain ⟨v, hv, hkey⟩ := hkeys t ht
    cases hnewline.symm.trans hv
    exact hkey.getLast?_ne List.getLast?_concat
  · exact hne (hamounts t ht)

end Checks

/-- **Which texts are judged as the appendix asks**: those for which the JSON parser raises nothing
but a `ValueError`, and that are no request which slips through. -/
theorem zap_request_judged_iff (d : Deps) (raw : Str) (amountMsat : ℤ) :
    Judged d raw amountMsat ↔
      (∀ e, d.jsonLoads raw = .error e → ∃ message, e = .value message) ∧
      ∀ event, d.jsonLoads raw = .ok event → ¬Slips d event amountMsat := by
  rw [Judged]
  simp only [validateZapRequest_eq_ok]
  cases hload : d.jsonLoads raw with
  | error e =>
    rw [validateZapRequest, hload]
    cases e <;> simp
  | ok event =>
    simp only [Except.ok.injEq, exists_eq_left', reduceCtorEq, false_implies, implies_true,
      true_and, forall_eq', checkZapRequest_ok_iff, validateZapRequest, hload]
    constructor
    · rintro ⟨hall, -⟩ hslips
      exact hslips.not_appendixD ((hall event).1 ⟨rfl, .inr hslips⟩).2
    · intro hnot
      refine ⟨fun event' => ?_, _, rfl⟩
      constructor
      · rintro ⟨rfl, hd | hs⟩
        · exact ⟨rfl, hd⟩
        · exact absurd hs hnot
      · rintro ⟨rfl, hd⟩
        exact ⟨rfl, .inl hd⟩

/-! ## Requests that slip through -/

/-- The stand-in with two zap requests and a text nested too deeply: of the requests, one has a
newline after the key of its `e` tag, and one says a second amount. -/
def Deps.misled : Deps := { Deps.standIn with
  jsonLoads := fun raw =>
    if raw = "newline".toList then
      .ok (standInRequest [["e".toList, standInKey '3' ++ ['\n']]])
    else if raw = "amounts".toList then
      .ok (standInRequest [["amount".toList, "10000".toList], ["amount".toList, "1".toList]])
    else if raw = "deep".toList then .error .other
    else .error (.value "Expecting value") }

/-- A request that is accepted with tags that the appendix does not take is misjudged. -/
theorem not_judged_of_accepted {d : Deps} {raw : Str} {amountMsat : ℤ} (tags : List (List Str))
    (haccepted : ((validateZapRequest d raw amountMsat).toOption.bind Except.toOption).any
      (fun event => decide (tags? event = some tags)) = true)
    (hnot : ¬((∀ t ∈ keyTags tags, ∃ v, t[1]? = some v ∧ Key64 v) ∧
      ∀ t ∈ named tags "amount", t[1]? = some (decimal amountMsat))) :
        ¬Judged d raw amountMsat := by
  intro h
  obtain ⟨event, hevent, htags⟩ := (Option.any_eq_true _ _).1 haccepted
  obtain ⟨checked, hchecked, hok⟩ := Option.bind_eq_some_iff.1 hevent
  have hvalid : validateZapRequest d raw amountMsat = .ok (.ok event) := by
    cases hv : validateZapRequest d raw amountMsat with
    | error e =>
      rw [hv] at hchecked
      cases hchecked
    | ok c =>
      rw [hv] at hchecked
      cases hchecked
      cases checked with
      | error problem => cases hok
      | ok event' =>
        cases hok
        rfl
  obtain ⟨-, tags', hframed, hkeys, hamounts⟩ := (h.1 event).1 hvalid
  obtain rfl : tags = tags' :=
    Option.some.inj ((of_decide_eq_true htags).symm.trans hframed.lists)
  exact hnot ⟨hkeys, hamounts⟩

/-- **A key before a newline and a second amount are accepted, and a text that is nested too deeply
raises.** -/
theorem zap_request_misjudged :
    ¬Judged .misled "newline".toList 10000 ∧ ¬Judged .misled "amounts".toList 10000 ∧
      ¬Judged .misled "deep".toList 10000 := by
  refine ⟨?_, ?_, ?_⟩
  · refine not_judged_of_accepted [["p".toList, standInKey '1'],
      ["relays".toList, "wss://relay".toList], ["e".toList, standInKey '3' ++ ['\n']]]
      (by decide +kernel) fun ⟨hkeys, _⟩ => ?_
    obtain ⟨v, hv, hkey⟩ := hkeys ["e".toList, standInKey '3' ++ ['\n']] (by decide)
    cases hv
    exact hkey.getLast?_ne List.getLast?_concat
  · refine not_judged_of_accepted [["p".toList, standInKey '1'],
      ["relays".toList, "wss://relay".toList], ["amount".toList, "10000".toList],
      ["amount".toList, "1".toList]] (by decide +kernel) fun ⟨_, hamounts⟩ => ?_
    exact absurd (hamounts ["amount".toList, "1".toList] (by decide)) (by decide)
  · rintro ⟨-, checked, hchecked⟩
    cases hchecked

end LnurlMint
