import LnurlMint.Bech32m

/-!
# The codec of certificates

A certificate is a signature under a prefix that spells the amount it is for. The prefix is not
known beforehand, so it is split off first, at the last separator; digits of the amount may be the
separator's character, and the data after it never is. What is left is the codec's own: a checksum
over the prefix, so over the amount, and bytes, of which there are 65 and the last is at most 3.

A prefix may spell a fraction of a millisatoshi, as `cs5p` does, and then less is read than it
spells.

## Main definitions

* `CertificateFor`, `Checksummed` — a certificate's text, and the amount of its prefix
* `SpellsAmount` — digits and a multiplier
* `Bolt11.msatToAmount`, `Bolt11.amountToMsat` — BOLT-11's amounts

## Main results

* `decodeCs1_eq_some_iff` — when a certificate is read
* `certificate_round_trip` — the round trip, and when the amount read is the one spelled
-/

namespace LnurlMint

open Bits

/-! ## Reading a certificate -/

section Certificates

/-- What `decode_cs1` makes of a prefix and of what follows the separator. -/
def certificateOf (d : Deps) (hrp body : Str) : Except Exn (Option (ℤ × Bytes)) :=
  if hrp.take 2 ≠ "cs".toList ∨ body.any (fun c => c ∉ d.bech32.charset) = true then .ok none
  else do
    match ← d.amountToMsat (hrp.drop 2) with
    | none => return none
    | some amount =>
      let amountMsat := truncate amount
      let data := body.map fun c => d.bech32.charset.idxOf c
      if Bech32m.verifyChecksum d hrp data then
        return (d.bech32.convertbits (data.take (data.length - 6)) 5 8 false).bind fun decoded =>
          if decoded.length ≠ 65 ∨ 3 < decoded.getD 64 0 then none
          else some (amountMsat, decoded.map UInt8.ofNat)
      else return none

variable {d : Deps} {s amount hrp body : Str} {amountMsat : ℤ} {signature : Bytes}

variable (d s amount) in
/-- The text is a certificate under the prefix `cs` and this amount, whatever it comes to. -/
def CertificateFor : Prop :=
  ∃ body l, Bech32m.parts s = some ("cs".toList ++ amount, body) ∧
    Bech32m.payload d ("cs".toList ++ amount) body = some l ∧ l.length = 65 ∧ l.getD 64 0 ≤ 3

variable (d s amount) in
/-- The text's prefix is `cs` and this amount, and the checksum is over it. -/
def Checksummed : Prop :=
  ∃ body, d.lower s = "cs".toList ++ amount ++ '1' :: body ∧ '1' ∉ body ∧
    Bech32m.verifyChecksum d ("cs".toList ++ amount)
      (body.map fun c => d.bech32.charset.idxOf c) = true

/-- A text has one prefix. -/
theorem Checksummed.unique {amount' : Str} (h : Checksummed d s amount)
    (h' : Checksummed d s amount') : amount = amount' := by
  obtain ⟨body, hs, hbody, -⟩ := h
  obtain ⟨body', hs', hbody', -⟩ := h'
  have heq := hs.symm.trans hs'
  have hbodies : body = body' := by
    rw [← (Bech32m.last_separator hbody).1, heq, (Bech32m.last_separator hbody').1]
  subst hbodies
  exact List.append_cancel_left (List.append_cancel_right heq)

theorem CertificateFor.checksummed (h : CertificateFor d s amount) : Checksummed d s amount := by
  obtain ⟨body, l, hparts, hpayload, -⟩ := h
  obtain ⟨hwritten, hs, hbody, -⟩ := Bech32m.parts_eq_some_iff.1 hparts
  refine ⟨body, by rw [hwritten.lower, hs], hbody, ?_⟩
  rw [Bech32m.payload] at hpayload
  split at hpayload
  · cases hpayload
  dsimp only at hpayload
  split at hpayload
  · rename_i hverify
    exact hverify
  · cases hpayload

theorem decodeCs1_of_none (h : Bech32m.parts s = none) : decodeCs1 d s = .ok none := by
  rw [Bech32m.parts] at h
  rw [decodeCs1]
  split
  · rfl
  · rename_i hprint
    rw [if_neg hprint] at h
    split
    · rfl
    · rename_i hcase
      rw [if_neg hcase] at h
      dsimp only at h ⊢
      split
      · rfl
      · rename_i hbad
        rw [if_neg hbad] at h
        cases h

theorem decodeCs1_of_parts (h : Bech32m.parts s = some (hrp, body)) :
    decodeCs1 d s = certificateOf d hrp body := by
  rw [Bech32m.parts] at h
  rw [decodeCs1]
  split
  · rename_i hprint
    rw [if_pos hprint] at h
    cases h
  · rename_i hprint
    rw [if_neg hprint] at h
    split
    · rename_i hcase
      rw [if_pos hcase] at h
      cases h
    · rename_i hcase
      rw [if_neg hcase] at h
      dsimp only at h ⊢
      split
      · rename_i hbad
        rw [if_pos hbad] at h
        cases h
      · rename_i hbad
        rw [if_neg hbad] at h
        cases h
        rfl

/-- **When a certificate is read**: its prefix spells an amount, of which the whole part is read,
and the data under that prefix is 65 bytes, the last of them at most 3. -/
theorem decodeCs1_eq_some_iff : decodeCs1 d s = .ok (some (amountMsat, signature)) ↔
    ∃ amount q body l, Bech32m.parts s = some ("cs".toList ++ amount, body) ∧
      d.amountToMsat amount = .ok (some q) ∧ amountMsat = truncate q ∧
      Bech32m.payload d ("cs".toList ++ amount) body = some l ∧ l.length = 65 ∧
      l.getD 64 0 ≤ 3 ∧ signature = l.map UInt8.ofNat := by
  constructor
  · intro h
    cases hparts : Bech32m.parts s with
    | none =>
      rw [decodeCs1_of_none hparts] at h
      cases h
    | some p =>
      obtain ⟨hrp, body⟩ := p
      rw [decodeCs1_of_parts hparts, certificateOf] at h
      split at h
      · cases h
      rename_i hbad
      rw [not_or, not_not] at hbad
      have hhrp : hrp = "cs".toList ++ hrp.drop 2 := by
        rw [← hbad.1, List.take_append_drop]
      cases hamount : d.amountToMsat (hrp.drop 2) with
      | error e =>
        rw [hamount] at h
        cases h
      | ok o =>
        cases o with
        | none =>
          rw [hamount] at h
          cases h
        | some q =>
          rw [hamount] at h
          dsimp only [Bind.bind, Except.bind, Pure.pure, Except.pure] at h
          split at h
          · rename_i hverify
            obtain ⟨l, hl, hrest⟩ := Option.bind_eq_some_iff.1 (Except.ok.inj h)
            split at hrest
            · cases hrest
            rename_i hform
            rw [not_or, not_not, not_lt] at hform
            cases hrest
            refine ⟨hrp.drop 2, q, body, l, by rw [← hhrp], hamount, rfl, ?_, hform.1, hform.2,
              rfl⟩
            rw [← hhrp, Bech32m.payload, if_neg hbad.2]
            dsimp only
            rw [if_pos hverify, hl]
          · cases h
  · rintro ⟨amount, q, body, l, hparts, hamount, rfl, hpayload, hlen, hlast, rfl⟩
    rw [Bech32m.payload] at hpayload
    split at hpayload
    · cases hpayload
    rename_i hchars
    dsimp only at hpayload
    split at hpayload
    · rename_i hverify
      have hform : ¬(l.length ≠ 65 ∨ 3 < l.getD 64 0) := by
        rw [not_or, not_not, not_lt]
        exact ⟨hlen, hlast⟩
      have hprefix : ¬(("cs".toList ++ amount).take 2 ≠ "cs".toList ∨
          body.any (fun c => c ∉ d.bech32.charset) = true) := by
        rintro (h | h)
        · exact h rfl
        · exact hchars h
      have hdrop : ("cs".toList ++ amount).drop 2 = amount := rfl
      rw [decodeCs1_of_parts hparts, certificateOf, if_neg hprefix, hdrop, hamount]
      dsimp only [Bind.bind, Except.bind, Pure.pure, Except.pure]
      rw [if_pos hverify, hpayload, Option.bind_some, if_neg hform]
    · cases hpayload

/-! ## The round trip -/

/-- Digits, and a multiplier behind them if there is one. -/
def SpellsAmount (text : Str) : Prop :=
  ∃ digits unit, text = digits ++ unit ∧ digits ≠ [] ∧ (∀ c ∈ digits, c.isDigit = true) ∧
    (unit = [] ∨ ∃ c, unit = [c] ∧ c ∈ ['m', 'u', 'n', 'p'])

/-- A prefix with an amount is one that a text can be written under. -/
theorem SpellsAmount.toPrefix {text : Str} (h : SpellsAmount text) :
    Bech32m.Prefix ("cs".toList ++ text) := by
  obtain ⟨digits, unit, rfl, -, hdigits, hunit⟩ := h
  refine ⟨by simp, fun c hc => ?_⟩
  rcases List.mem_append.1 hc with hc | hc
  · exact Bech32m.Prefix.char (.of_all (by decide) (by decide)) c hc
  rcases List.mem_append.1 hc with hc | hc
  · obtain ⟨hmin, hmax⟩ : 48 ≤ c.toNat ∧ c.toNat ≤ 57 := by
      have hdigit := hdigits c hc
      simp only [Char.isDigit, Bool.and_eq_true, decide_eq_true_eq] at hdigit
      exact ⟨hdigit.1, hdigit.2⟩
    have hall : ∀ n < 58, 48 ≤ n → (Char.ofNat n).toLower = Char.ofNat n := by decide
    have hlow := hall c.toNat (by omega) hmin
    rw [Char.ofNat_toNat] at hlow
    exact ⟨by omega, by omega, hlow⟩
  · rcases hunit with rfl | ⟨c', rfl, hmem⟩
    · cases hc
    · rw [List.mem_singleton.1 hc]
      revert hmem
      generalize c' = c
      intro hmem
      have hall : ['m', 'u', 'n', 'p'].all (fun c => decide (33 ≤ c.toNat ∧ c.toNat ≤ 126 ∧
        c.toLower = c)) = true := by decide
      exact of_decide_eq_true (List.all_eq_true.1 hall c hmem)

theorem truncate_intCast (a : ℤ) : truncate a = a := by
  rw [truncate, Rat.num_intCast, Rat.den_intCast]
  exact Int.tdiv_one a

/-- What is read of a certificate's text is read of its certificate. -/
theorem decodeCs1_of_decode (href : d.bech32.IsReference)
    (hdecode : Bech32m.decode d ("cs".toList ++ amount) s = some signature)
    (hamount : d.amountToMsat amount = .ok (some (amountMsat : ℚ))) (hlen : signature.length = 65)
    (hlast : signature.getD 64 0 ≤ 3) : decodeCs1 d s = .ok (some (amountMsat, signature)) := by
  rw [Bech32m.decode_eq] at hdecode
  obtain ⟨l, hl, rfl⟩ := Option.map_eq_some_iff.1 hdecode
  have hfits := ((Bech32m.decoded_eq_some_iff href).1 hl).2.2.1
  obtain ⟨⟨hrp, body⟩, hparts, hpayload⟩ := Option.bind_eq_some_iff.1 hl
  dsimp only at hpayload
  split at hpayload
  · rename_i hhrp
    subst hhrp
    refine decodeCs1_eq_some_iff.2 ⟨amount, amountMsat, body, l, hparts, hamount,
      (truncate_intCast amountMsat).symm, hpayload, ?_, ?_, rfl⟩
    · rwa [List.length_map] at hlen
    · rw [← Bech32m.map_toNat_ofNat hfits]
      have hnat : ((l.map UInt8.ofNat).map UInt8.toNat).getD 64 0 =
          ((l.map UInt8.ofNat).getD 64 0).toNat := List.getD_map _ (0 : UInt8) UInt8.toNat
      rw [hnat]
      exact UInt8.le_iff_toNat_le.1 hlast
  · cases hpayload

/-- **Certificates round-trip with their amount**, in lower and in upper case; and an amount that is
read is the one that the prefix spells, over which the checksum is, if and only if a certificate
under this prefix is for a whole number of millisatoshi. -/
theorem certificate_round_trip (d : Deps) (href : d.bech32.IsReference)
    (hspells : ∀ a, 0 ≤ a → SpellsAmount (d.msatToAmount a))
    (hinverse : ∀ a, 0 ≤ a → d.amountToMsat (d.msatToAmount a) = .ok (some (a : ℚ))) :
    (∀ amountMsat signature, 0 ≤ amountMsat → signature.length = 65 → signature.getD 64 0 ≤ 3 →
      ∃ c, encodeCs1 d amountMsat signature = .ok c ∧
        decodeCs1 d c = .ok (some (amountMsat, signature)) ∧
        decodeCs1 d (c.map Char.toUpper) = .ok (some (amountMsat, signature))) ∧
    ∀ s, (∀ amountMsat signature, decodeCs1 d s = .ok (some (amountMsat, signature)) →
        ∃ amount, Checksummed d s amount ∧
          d.amountToMsat amount = .ok (some (amountMsat : ℚ))) ↔
      ∀ amount q, CertificateFor d s amount → d.amountToMsat amount = .ok (some q) →
        ∃ n : ℤ, q = n := by
  constructor
  · intro amountMsat signature hamount hlen hlast
    obtain ⟨c, hc⟩ := Bech32m.exists_encode href ("cs".toList ++ d.msatToAmount amountMsat)
      signature
    obtain ⟨hlower, hupper⟩ :=
      Bech32m.decode_of_encode href (hspells amountMsat hamount).toPrefix hc
    refine ⟨c, ?_, decodeCs1_of_decode href hlower (hinverse amountMsat hamount) hlen hlast,
      decodeCs1_of_decode href hupper (hinverse amountMsat hamount) hlen hlast⟩
    rw [encodeCs1, if_neg (not_not.2 hlen), hc]
  · refine fun s => ⟨fun h amount q hcert hq => ?_, fun h amountMsat signature hread => ?_⟩
    · obtain ⟨body, l, hparts, hpayload, hlen, hlast⟩ := hcert
      obtain ⟨amount', hsummed, hamount⟩ := h (truncate q) (l.map UInt8.ofNat)
        (decodeCs1_eq_some_iff.2 ⟨amount, q, body, l, hparts, hq, rfl, hpayload, hlen, hlast, rfl⟩)
      have hcert : CertificateFor d s amount := ⟨body, l, hparts, hpayload, hlen, hlast⟩
      rw [hsummed.unique hcert.checksummed, hq] at hamount
      exact ⟨truncate q, Option.some.inj (Except.ok.inj hamount)⟩
    · obtain ⟨amount, q, body, l, hparts, hq, rfl, hpayload, hlen, hlast, -⟩ :=
        decodeCs1_eq_some_iff.1 hread
      have hcert : CertificateFor d s amount := ⟨body, l, hparts, hpayload, hlen, hlast⟩
      obtain ⟨n, rfl⟩ := h amount q hcert hq
      exact ⟨amount, hcert.checksummed, by rw [truncate_intCast, hq]⟩

end Certificates

/-! ## BOLT-11's amounts

In picobitcoin, ten to a millisatoshi, with the largest multiplier that leaves a whole number. -/

namespace Bolt11

/-- What the multiplier stands for, in picobitcoin. -/
def multiplier : Char → ℕ
  | 'p' => 1
  | 'n' => 1000
  | 'u' => 1000 ^ 2
  | 'm' => 1000 ^ 3
  | _ => 1000 ^ 4

/-- The number and its multiplier: the first of these that thousands cannot be taken out for. -/
def shorten : ℕ → List Char → Str
  | n, [] => Nat.toDigits 10 n
  | n, u :: us => if n % 1000 = 0 then shorten (n / 1000) us else Nat.toDigits 10 n ++ [u]

/-- `msat_to_amount`. -/
def msatToAmount (amountMsat : ℤ) : Str := shorten (10 * amountMsat.toNat) ['p', 'n', 'u', 'm']

/-- A number and its multiplier, in millisatoshi. -/
def ofParts (digits : Str) (unit : Char) : Option ℚ :=
  if digits ≠ [] ∧ digits.all Char.isDigit = true then
    some ((Nat.ofDigitChars 10 digits 0 * multiplier unit : ℕ) / 10 : ℚ)
  else none

/-- `amount_to_msat`. -/
def amountToMsat (amount : Str) : Except Exn (Option ℚ) :=
  let unit := amount.getLast?.getD ' '
  .ok (if unit ∈ ['m', 'u', 'n', 'p'] then ofParts amount.dropLast unit else ofParts amount ' ')

example : msatToAmount 1000 = "10n".toList := by decide +kernel
example : amountToMsat "25m".toList = .ok (some 2500000000) := by decide +kernel
example : amountToMsat "5p".toList = .ok (some (1 / 2)) := by decide +kernel

theorem isDigit_toDigits (n : ℕ) : ∀ c ∈ Nat.toDigits 10 n, c.isDigit = true :=
  fun _ hc => Nat.isDigit_of_mem_toDigits (by decide) (by decide) hc

theorem ofParts_toDigits (n : ℕ) (unit : Char) :
    ofParts (Nat.toDigits 10 n) unit = some ((n * multiplier unit : ℕ) / 10 : ℚ) := by
  have hall : (Nat.toDigits 10 n).all Char.isDigit = true :=
    List.all_eq_true.2 (isDigit_toDigits n)
  rw [ofParts, if_pos ⟨Nat.toDigits_ne_nil, hall⟩, Nat.ofDigitChars_ten_toDigits]

theorem amountToMsat_unit {unit : Char} (h : unit ∈ ['m', 'u', 'n', 'p']) (n : ℕ) :
    amountToMsat (Nat.toDigits 10 n ++ [unit]) =
      .ok (some ((n * multiplier unit : ℕ) / 10 : ℚ)) := by
  rw [amountToMsat, List.getLast?_concat, List.dropLast_concat]
  exact congrArg Except.ok ((if_pos h).trans (ofParts_toDigits n unit))

theorem amountToMsat_plain (n : ℕ) :
    amountToMsat (Nat.toDigits 10 n) = .ok (some ((n * 1000 ^ 4 : ℕ) / 10 : ℚ)) := by
  have hlast : (Nat.toDigits 10 n).getLast?.getD ' ' ∉ ['m', 'u', 'n', 'p'] := by
    have hmem : (Nat.toDigits 10 n).getLast?.getD ' ' ∈ Nat.toDigits 10 n := by
      rw [List.getLast?_eq_some_getLast Nat.toDigits_ne_nil]
      exact List.getLast_mem _
    intro hunit
    have hdigit := isDigit_toDigits n _ hmem
    have hall : ['m', 'u', 'n', 'p'].all (fun c => !c.isDigit) = true := by decide
    have hnot := List.all_eq_true.1 hall _ hunit
    rw [hdigit] at hnot
    cases hnot
  exact congrArg Except.ok ((if_neg hlast).trans (ofParts_toDigits n ' '))

/-- An amount is shortened to digits and a multiplier that stand for it. -/
theorem shorten_spec (n : ℕ) : SpellsAmount (shorten n ['p', 'n', 'u', 'm']) ∧
    amountToMsat (shorten n ['p', 'n', 'u', 'm']) = .ok (some (n / 10 : ℚ)) := by
  have hunit {unit : Char} (h : unit ∈ ['m', 'u', 'n', 'p']) (k : ℕ)
      (hk : k * multiplier unit = n) : SpellsAmount (Nat.toDigits 10 k ++ [unit]) ∧
        amountToMsat (Nat.toDigits 10 k ++ [unit]) = .ok (some (n / 10 : ℚ)) := by
    refine ⟨⟨_, [unit], rfl, Nat.toDigits_ne_nil, isDigit_toDigits k, .inr ⟨unit, rfl, h⟩⟩, ?_⟩
    rw [amountToMsat_unit h, hk]
  simp only [shorten]
  split
  · split
    · split
      · split
        · refine ⟨⟨_, [], (List.append_nil _).symm, Nat.toDigits_ne_nil, isDigit_toDigits _,
            .inl rfl⟩, ?_⟩
          have hn : n / 1000 / 1000 / 1000 / 1000 * 1000 ^ 4 = n := by omega
          rw [amountToMsat_plain, hn]
        · exact hunit (by decide) _ (by simp only [multiplier]; omega)
      · exact hunit (by decide) _ (by simp only [multiplier]; omega)
    · exact hunit (by decide) _ (by simp only [multiplier]; omega)
  · exact hunit (by decide) n (by simp only [multiplier]; omega)

theorem spellsAmount (a : ℤ) : SpellsAmount (msatToAmount a) := (shorten_spec _).1

theorem amountToMsat_msatToAmount {a : ℤ} (ha : 0 ≤ a) :
    amountToMsat (msatToAmount a) = .ok (some (a : ℚ)) := by
  have htenth : ((10 * a.toNat : ℕ) : ℚ) / 10 = ((a.toNat : ℤ) : ℚ) := by
    rw [Nat.cast_mul, Int.cast_natCast]
    exact mul_div_cancel_left₀ _ (by norm_num)
  rw [msatToAmount, (shorten_spec _).2, htenth, Int.toNat_of_nonneg ha]

end Bolt11

/-- The stand-in with the reference codec and BOLT-11's amounts. -/
def Deps.certifying : Deps := { Deps.coded with
  msatToAmount := Bolt11.msatToAmount
  amountToMsat := Bolt11.amountToMsat }

/-- A certificate for 1000 msat. -/
theorem certificate_round_trip_certifying :
    ∃ c, encodeCs1 .certifying 1000 (List.replicate 65 1) = .ok c ∧
      decodeCs1 .certifying c = .ok (some (1000, List.replicate 65 1)) ∧
      decodeCs1 .certifying (c.map Char.toUpper) = .ok (some (1000, List.replicate 65 1)) :=
  (certificate_round_trip .certifying ⟨rfl, fun _ => rfl, fun _ => rfl, fun _ _ _ _ => rfl⟩
    (fun a _ => Bolt11.spellsAmount a) fun _ ha => Bolt11.amountToMsat_msatToAmount ha).1 1000
      (List.replicate 65 1) (by decide) (by decide) (by decide)

/-- What follows the separator of a certificate for half a millisatoshi. -/
def halfBody : Str :=
  ("qyqszqgpqyqszqgpqyqszqgpqyqszqgpqyqszqgpqyqszqgpqyqszqgpqyqszqgpqyqszqgpqyqszqgp" ++
    "qyqszqgpqyqszqgpqyqszqgpa0uxr4").toList

/-- Half a millisatoshi is read as none. -/
theorem certificate_truncated :
    decodeCs1 .certifying ("cs5p1".toList ++ halfBody) = .ok (some (0, List.replicate 65 1)) ∧
      Checksummed .certifying ("cs5p1".toList ++ halfBody) "5p".toList ∧
      Deps.certifying.amountToMsat "5p".toList = .ok (some (1 / 2)) :=
  ⟨by decide +kernel, ⟨halfBody, by decide +kernel, by decide +kernel, by decide +kernel⟩,
    by decide +kernel⟩

end LnurlMint
