import LnurlMint.Lib.Checksum
import LnurlMint.Lib.Delimiter
import LnurlMint.Router.Address
import Mathlib.Data.Char

/-!
# The bech32m codec

A text of the codec is a prefix, the separator `1`, and characters of the alphabet for the data and
the six digits of a checksum. The prefix may hold the separator itself, the data may not, so the
last one divides them. The data is bytes regrouped into digits of five bits, and its padding is
zeros, fewer than a digit's. The checksum is a linear register's, which one choice of its six digits
completes. And a text is in lower case or in upper case, never mixed.

So what is read is what is written for it, up to the case of all of it at once.

## Main definitions

* `Bech32.reference`, `Bech32.IsReference` — the primitives as BIP-173 gives them
* `bechRegister` — its checksum as a linear register
* `Bech32m.parts`, `Bech32m.payload` — the two halves of `decode`
* `Bech32m.decoded` — the numbers that it makes bytes of

## Main results

* `Bech32m.decode_eq_some_iff` — what is read is what is written
-/

namespace LnurlMint

open Bits Checksum

/-! ## The reference primitives -/

namespace Bech32

/-- The generators of BIP-173's checksum. -/
def generators : List ℕ := [0x3b6a57b2, 0x26508e6d, 0x1ea119fa, 0x3d4233dd, 0x2a1462b3]

/-- One turn of the loop of `bech32_polymod`. -/
def polymodStep (chk value : ℕ) : ℕ :=
  (List.range 5).foldl
    (fun chk' i => chk' ^^^ if ((chk >>> 25) >>> i) &&& 1 = 1 then generators.getD i 0 else 0)
    (((chk &&& 0x1ffffff) <<< 5) ^^^ value)

/-- The reference primitives. `bech32_decode` is no part of it. -/
def reference : Bech32 where
  charset := "qpzry9x8gf2tvdw0s3jn54khce6mua7l".toList
  hrpExpand hrp := hrp.map (fun c => c.toNat >>> 5) ++ 0 :: hrp.map fun c => c.toNat &&& 31
  polymod values := values.foldl polymodStep 1
  convertbits data frombits tobits pad := regroup frombits tobits pad data
  decode _ := (none, none)

/-- The package's primitives are the reference ones. -/
structure IsReference (b : Bech32) : Prop where
  charset : b.charset = reference.charset
  hrpExpand (hrp : Str) : b.hrpExpand hrp = reference.hrpExpand hrp
  polymod (values : List ℕ) : b.polymod values = reference.polymod values
  convertbits (data : List ℕ) (frombits tobits : ℕ) (pad : Bool) :
    b.convertbits data frombits tobits pad = reference.convertbits data frombits tobits pad

end Bech32

/-! ## The checksum as a register -/

/-- The generators for the bits that moved out, from the first on. -/
def fedBack : List ℕ → ℕ → ℕ
  | [], _ => 0
  | g :: gs, top => (if top.testBit 0 then g else 0) ^^^ fedBack gs (top >>> 1)

theorem fedBack_xor (gs : List ℕ) (a b : ℕ) :
    fedBack gs (a ^^^ b) = fedBack gs a ^^^ fedBack gs b := by
  induction gs generalizing a b with
  | nil => simp only [fedBack, Nat.xor_self]
  | cons g gs ih =>
    have hbit : (if (a ^^^ b).testBit 0 then g else 0) =
        (if a.testBit 0 then g else 0) ^^^ if b.testBit 0 then g else 0 := by
      rw [Nat.testBit_xor]
      cases a.testBit 0 <;> cases b.testBit 0 <;> simp
    rw [fedBack, fedBack, fedBack, hbit, Nat.shiftRight_xor_distrib, ih]
    ac_rfl

theorem fedBack_lt {n : ℕ} {gs : List ℕ} (h : ∀ g ∈ gs, g < 2 ^ n) (top : ℕ) :
    fedBack gs top < 2 ^ n := by
  induction gs generalizing top with
  | nil => exact Nat.two_pow_pos n
  | cons g gs ih =>
    refine Nat.xor_lt_two_pow ?_ (ih (fun g' hg => h g' (List.mem_cons_of_mem _ hg)) _)
    split
    · exact h g List.mem_cons_self
    · exact Nat.two_pow_pos n

/-- BIP-173's checksum: six digits of five bits. -/
def bechRegister : Register where
  width := 5
  rest := 5
  feed := fedBack Bech32.generators
  feed_xor := fedBack_xor _
  feed_lt := fedBack_lt (by decide)

theorem polymodStep_eq (chk value : ℕ) :
    Bech32.polymodStep chk value = bechRegister.step chk value := by
  have hbit (i : ℕ) : (((chk >>> 25) >>> i) &&& 1 = 1) ↔ (chk >>> 25).testBit i = true := by
    rw [Nat.testBit, Nat.and_comm 1]
    have hlt : ((chk >>> 25) >>> i) &&& 1 < 2 := lt_of_le_of_lt Nat.and_le_right (by decide)
    simp only [bne_iff_ne, ne_eq]
    omega
  simp only [Bech32.polymodStep, hbit, Register.step, bechRegister, fedBack, Bech32.generators,
    List.range, List.range.loop, List.foldl_cons, List.foldl_nil, Nat.testBit_shiftRight]
  simp [Nat.xor_assoc]

namespace Bech32m

section Reference

variable {d : Deps} {hrp : Str} {values check : List ℕ}

theorem polymod_eq (href : d.bech32.IsReference) (vs : List ℕ) :
    d.bech32.polymod vs = bechRegister.run 1 vs := by
  have hstep : Bech32.polymodStep = bechRegister.step := by
    funext chk value
    exact polymodStep_eq chk value
  rw [href.polymod, Register.run, ← hstep]
  rfl

theorem createChecksum_eq (href : d.bech32.IsReference) (hrp : Str) (values : List ℕ) :
    createChecksum d hrp values = digitsOf 5 6 (bechRegister.run 1
      ((d.bech32.hrpExpand hrp ++ values) ++ List.replicate 6 0) ^^^ const) := by
  rw [createChecksum, polymod_eq href]
  rfl

/-- **The checksum that is appended verifies, and no other does.** -/
theorem verifyChecksum_append (href : d.bech32.IsReference) (hlen : check.length = 6)
    (hfits : Fits 5 check) : verifyChecksum d hrp (values ++ check) = true ↔
      check = createChecksum d hrp values := by
  rw [verifyChecksum, decide_eq_true_eq, polymod_eq href, createChecksum_eq href,
    ← List.append_assoc]
  exact Register.run_append_iff (by decide) hlen hfits (by decide)

theorem length_createChecksum : (createChecksum d hrp values).length = 6 := by
  rw [createChecksum, List.length_map, List.length_range]

theorem fits_createChecksum (href : d.bech32.IsReference) (hrp : Str) (values : List ℕ) :
    Fits 5 (createChecksum d hrp values) := by
  rw [createChecksum_eq href]
  exact fits_digitsOf 5 6 _

/-! ## The alphabet -/

/-- The characters for digits. -/
def spell (d : Deps) (values : List ℕ) : Str := values.map fun v => d.bech32.charset.getD v ' '

theorem idxOf_spell (href : d.bech32.IsReference) {v : ℕ} (hv : v < 2 ^ 5) :
    d.bech32.charset.idxOf (d.bech32.charset.getD v ' ') = v ∧
      d.bech32.charset.getD v ' ' ∈ d.bech32.charset := by
  rw [href.charset]
  revert v
  decide

theorem spell_idxOf (href : d.bech32.IsReference) {c : Char} (hc : c ∈ d.bech32.charset) :
    d.bech32.charset.getD (d.bech32.charset.idxOf c) ' ' = c ∧
      d.bech32.charset.idxOf c < 2 ^ 5 := by
  rw [href.charset] at hc ⊢
  have hall : Bech32.reference.charset.all (fun c => decide (Bech32.reference.charset.getD
      (Bech32.reference.charset.idxOf c) ' ' = c ∧ Bech32.reference.charset.idxOf c < 2 ^ 5)) =
        true := by decide +kernel
  exact of_decide_eq_true (List.all_eq_true.1 hall c hc)

/-- A character of the alphabet is in lower case, prints, and is not the separator. -/
theorem mem_charset (href : d.bech32.IsReference) {c : Char} (hc : c ∈ d.bech32.charset) :
    c.toLower = c ∧ 33 ≤ c.toNat ∧ c.toNat ≤ 126 ∧ c ≠ '1' := by
  rw [href.charset] at hc
  have hall : Bech32.reference.charset.all (fun c => decide (c.toLower = c ∧ 33 ≤ c.toNat ∧
      c.toNat ≤ 126 ∧ c ≠ '1')) = true := by decide +kernel
  exact of_decide_eq_true (List.all_eq_true.1 hall c hc)

theorem map_idxOf_spell (href : d.bech32.IsReference) (hv : Fits 5 values) :
    (spell d values).map (fun c => d.bech32.charset.idxOf c) = values := by
  rw [spell, List.map_map]
  refine (List.map_congr_left fun v hmem => ?_).trans (List.map_id values)
  exact (idxOf_spell href (hv v hmem)).1

theorem mem_spell (href : d.bech32.IsReference) (hv : Fits 5 values) :
    ∀ c ∈ spell d values, c ∈ d.bech32.charset := by
  intro c hc
  obtain ⟨v, hmem, rfl⟩ := List.mem_map.1 hc
  exact (idxOf_spell href (hv v hmem)).2

theorem spell_map_idxOf (href : d.bech32.IsReference) {body : Str}
    (hb : ∀ c ∈ body, c ∈ d.bech32.charset) :
    spell d (body.map fun c => d.bech32.charset.idxOf c) = body ∧
      Fits 5 (body.map fun c => d.bech32.charset.idxOf c) := by
  constructor
  · rw [spell, List.map_map]
    refine (List.map_congr_left fun c hmem => ?_).trans (List.map_id body)
    exact (spell_idxOf href (hb c hmem)).1
  · intro v hv
    obtain ⟨c, hmem, rfl⟩ := List.mem_map.1 hv
    exact (spell_idxOf href (hb c hmem)).2

/-! ## Bytes -/

theorem fits_bytes (data : Bytes) : Fits 8 (data.map UInt8.toNat) := by
  intro v hv
  obtain ⟨b, -, rfl⟩ := List.mem_map.1 hv
  exact b.toNat_lt

theorem map_ofNat_toNat (data : Bytes) : (data.map UInt8.toNat).map UInt8.ofNat = data := by
  rw [List.map_map]
  exact (List.map_congr_left fun b _ => UInt8.ofNat_toNat).trans (List.map_id data)

theorem map_toNat_ofNat {l : List ℕ} (hl : Fits 8 l) :
    (l.map UInt8.ofNat).map UInt8.toNat = l := by
  rw [List.map_map]
  refine (List.map_congr_left fun v hv => ?_).trans (List.map_id l)
  exact UInt8.toNat_ofNat_of_lt' (hl v hv)

/-! ## The data and its checksum -/

variable (d) in
/-- What `decode` makes of a prefix and of what follows the separator, before `bytes` takes it. -/
def payload (hrp body : Str) : Option (List ℕ) :=
  if body.any (fun c => c ∉ d.bech32.charset) = true then none
  else
    let data := body.map fun c => d.bech32.charset.idxOf c
    if verifyChecksum d hrp data then
      d.bech32.convertbits (data.take (data.length - 6)) 5 8 false
    else none

/-- What `encode` writes after the separator. -/
theorem encode_eq_some (href : d.bech32.IsReference) {data : Bytes} {s : Str} :
    encode d hrp data = some s ↔ ∃ values, regroup 8 5 true (data.map UInt8.toNat) = some values ∧
      s = hrp ++ '1' :: spell d (values ++ createChecksum d hrp values) := by
  rw [encode, href.convertbits, Option.map_eq_some_iff]
  simp only [eq_comm (a := s)]
  rfl

/-- **A payload is read exactly off what is written for it.** -/
theorem payload_eq_some_iff (href : d.bech32.IsReference) {body : Str} (hlen : 6 ≤ body.length)
    {l : List ℕ} : payload d hrp body = some l ↔ Fits 8 l ∧
      ∃ values, regroup 8 5 true l = some values ∧
        body = spell d (values ++ createChecksum d hrp values) := by
  constructor
  · intro h
    rw [payload] at h
    split at h
    · cases h
    rename_i hchars
    dsimp only at h
    split at h
    · rename_i hverify
      have hb : ∀ c ∈ body, c ∈ d.bech32.charset := by simpa using hchars
      obtain ⟨hspell, hfits⟩ := spell_map_idxOf href hb
      set data := body.map fun c => d.bech32.charset.idxOf c with hdata
      have hcount : data.length = body.length := by rw [hdata, List.length_map]
      have hsplit : data.take (data.length - 6) ++ data.drop (data.length - 6) = data :=
        List.take_append_drop _ _
      have hregroup : regroup 5 8 false (data.take (data.length - 6)) = some l := by
        rw [href.convertbits] at h
        exact h
      have hl : Fits 8 l := ((regroup_strict_iff (by decide)).1 hregroup).2.1
      rw [← hsplit, verifyChecksum_append href (by rw [List.length_drop]; omega)
        fun v hv => hfits v (List.mem_of_mem_drop hv)] at hverify
      refine ⟨hl, _, (regroup_inverse (by decide) (by decide) hl).2 hregroup, ?_⟩
      rw [← hverify, hsplit, hspell]
    · cases h
  · rintro ⟨hl, values, hvalues, rfl⟩
    have hfits : Fits 5 values := ((regroup_pad_iff (by decide) hl).1 hvalues).1
    have hcheck : Fits 5 (createChecksum d hrp values) := fits_createChecksum href hrp values
    have hchars : ¬(spell d (values ++ createChecksum d hrp values)).any
        (fun c => c ∉ d.bech32.charset) = true := by
      simpa using mem_spell href (hfits.append hcheck)
    have htake : (values ++ createChecksum d hrp values).take
        ((values ++ createChecksum d hrp values).length - 6) = values := by
      rw [List.length_append, length_createChecksum, Nat.add_sub_cancel]
      exact List.take_left
    rw [payload, if_neg hchars, map_idxOf_spell href (hfits.append hcheck)]
    dsimp only
    rw [if_pos ((verifyChecksum_append href length_createChecksum hcheck).2 rfl), htake,
      href.convertbits]
    exact (regroup_inverse (by decide) (by decide) hl).1 hvalues

end Reference

/-! ## The text -/

/-- A printable text, in lower case or in upper case. -/
def Written (s : Str) : Prop :=
  (∀ c ∈ s, 33 ≤ c.toNat ∧ c.toNat ≤ 126) ∧
    (s.map Char.toLower = s ∨ s.map Char.toUpper = s)

/-- The prefix and what follows the separator, in lower case, as `decode` and `decode_cs1` find
them. -/
def parts (s : Str) : Option (Str × Str) :=
  if s.any fun c => c.toNat < 33 || 126 < c.toNat then none
  else if s.map Char.toLower ≠ s ∧ s.map Char.toUpper ≠ s then none
  else
    let s := s.map Char.toLower
    let dataPart := (s.reverse.takeWhile (· ≠ '1')).reverse
    let foundHrp := s.take (s.length - dataPart.length - 1)
    if '1' ∉ s ∨ foundHrp = [] ∨ dataPart.length < 6 then none else some (foundHrp, dataPart)

/-- What follows the last separator, and what is before it. -/
theorem last_separator {hrp body : Str} (h : '1' ∉ body) :
    ((hrp ++ '1' :: body).reverse.takeWhile (· ≠ '1')).reverse = body ∧
      (hrp ++ '1' :: body).take ((hrp ++ '1' :: body).length - body.length - 1) = hrp := by
  constructor
  · exact Delimiter.afterLast_append hrp h
  · have hlen : (hrp ++ '1' :: body).length - body.length - 1 = hrp.length := by
      rw [List.length_append, List.length_cons]
      omega
    rw [hlen]
    exact List.take_left

theorem any_unprintable_iff {s : Str} : ¬s.any (fun c => c.toNat < 33 || 126 < c.toNat) = true ↔
    ∀ c ∈ s, 33 ≤ c.toNat ∧ c.toNat ≤ 126 := by
  simp [List.any_eq_true]

theorem parts_eq_some_iff {s hrp body : Str} : parts s = some (hrp, body) ↔ Written s ∧
    s.map Char.toLower = hrp ++ '1' :: body ∧ '1' ∉ body ∧ hrp ≠ [] ∧ 6 ≤ body.length := by
  rw [parts, Written, ← any_unprintable_iff]
  by_cases hprint : s.any (fun c => c.toNat < 33 || 126 < c.toNat) = true
  · rw [if_pos hprint]
    exact iff_of_false (by simp) fun h => h.1.1 hprint
  rw [if_neg hprint]
  by_cases hcase : s.map Char.toLower ≠ s ∧ s.map Char.toUpper ≠ s
  · rw [if_pos hcase]
    refine iff_of_false (by simp) fun h => ?_
    rcases h.1.2 with h | h
    · exact hcase.1 h
    · exact hcase.2 h
  rw [if_neg hcase]
  have hwritten : ¬s.any (fun c => c.toNat < 33 || 126 < c.toNat) = true ∧
      (s.map Char.toLower = s ∨ s.map Char.toUpper = s) := by
    refine ⟨hprint, ?_⟩
    by_contra hmixed
    exact hcase (not_or.1 hmixed)
  constructor
  · intro h
    refine ⟨hwritten, ?_⟩
    dsimp only at h
    split at h
    · cases h
    rename_i hbad
    rw [not_or, not_or, not_not] at hbad
    obtain ⟨hrp', body', hs, hbody⟩ := Delimiter.exists_last hbad.1
    rw [hs, (last_separator hbody).1, (last_separator hbody).2] at h hbad
    cases h
    exact ⟨hs, hbody, hbad.2.1, not_lt.1 hbad.2.2⟩
  · rintro ⟨-, hs, hbody, hhrp, hlen⟩
    dsimp only
    rw [hs, (last_separator hbody).1, (last_separator hbody).2, if_neg]
    rintro (h | h | h)
    · exact h (by simp)
    · exact hhrp h
    · omega

/-! ## What is read is what is written -/

variable {d : Deps} {hrp s : Str} {data : Bytes}

variable (d) in
/-- The numbers that `decode` makes bytes of. -/
def decoded (hrp s : Str) : Option (List ℕ) :=
  (parts s).bind fun p => if p.1 = hrp then payload d p.1 p.2 else none

theorem decode_eq (hrp s : Str) :
    decode d hrp s = (decoded d hrp s).map fun l => l.map UInt8.ofNat := by
  rw [decode, decoded, parts]
  split
  · rfl
  split
  · rfl
  dsimp only
  split
  · rfl
  rw [Option.bind_some]
  by_cases hfound : (s.map Char.toLower).take ((s.map Char.toLower).length -
      (((s.map Char.toLower).reverse.takeWhile (· ≠ '1')).reverse).length - 1) = hrp
  · rw [if_pos hfound, payload]
    split
    · rename_i hbad
      rw [if_pos (hbad.resolve_left (not_not.2 hfound))]
      rfl
    · rename_i hbad
      rw [if_neg fun h => hbad (.inr h)]
      dsimp only
      split
      · rfl
      · rfl
  · rw [if_neg hfound, if_pos (.inl hfound)]
    rfl

/-- What is read is what is written, and they are numbers of eight bits. -/
theorem decoded_eq_some_iff (href : d.bech32.IsReference) {l : List ℕ} :
    decoded d hrp s = some l ↔ Written s ∧ hrp ≠ [] ∧ Fits 8 l ∧
      encode d hrp (l.map UInt8.ofNat) = some (s.map Char.toLower) := by
  constructor
  · intro h
    obtain ⟨⟨hrp', body⟩, hparts, hread⟩ := Option.bind_eq_some_iff.1 h
    dsimp only at hread
    split at hread
    · rename_i hfound
      subst hfound
      obtain ⟨hwritten, hs, -, hhrp, hlen⟩ := parts_eq_some_iff.1 hparts
      obtain ⟨hfits, values, hvalues, hbody⟩ := (payload_eq_some_iff href hlen).1 hread
      refine ⟨hwritten, hhrp, hfits, (encode_eq_some href).2 ⟨values, ?_, ?_⟩⟩
      · rw [map_toNat_ofNat hfits, hvalues]
      · rw [hs, hbody]
    · cases hread
  · rintro ⟨hwritten, hhrp, hl, hencode⟩
    obtain ⟨values, hvalues, hs⟩ := (encode_eq_some href).1 hencode
    rw [map_toNat_ofNat hl] at hvalues
    have hfits : Fits 5 values := ((regroup_pad_iff (by decide) hl).1 hvalues).1
    have hchars := mem_spell href (hfits.append (fits_createChecksum href hrp values))
    have hlen : 6 ≤ (spell d (values ++ createChecksum d hrp values)).length := by
      rw [spell, List.length_map, List.length_append, length_createChecksum]
      omega
    have hparts : parts s = some (hrp, spell d (values ++ createChecksum d hrp values)) :=
      parts_eq_some_iff.2 ⟨hwritten, hs, fun h => (mem_charset href (hchars _ h)).2.2.2 rfl, hhrp,
        hlen⟩
    rw [decoded, hparts, Option.bind_some, if_pos rfl]
    exact (payload_eq_some_iff href hlen).2 ⟨hl, values, hvalues, rfl⟩

/-- **What is read is what is written**: a text is read as these bytes exactly if its lower case is
what is written for them. -/
theorem decode_eq_some_iff (href : d.bech32.IsReference) : decode d hrp s = some data ↔
    Written s ∧ hrp ≠ [] ∧ encode d hrp data = some (s.map Char.toLower) := by
  rw [decode_eq, Option.map_eq_some_iff]
  constructor
  · rintro ⟨l, hl, rfl⟩
    obtain ⟨hwritten, hhrp, -, hencode⟩ := (decoded_eq_some_iff href).1 hl
    exact ⟨hwritten, hhrp, hencode⟩
  · rintro ⟨hwritten, hhrp, hencode⟩
    refine ⟨data.map UInt8.toNat, (decoded_eq_some_iff href).2 ⟨hwritten, hhrp, fits_bytes data,
      ?_⟩,
      map_ofNat_toNat data⟩
    rw [map_ofNat_toNat, hencode]

/-! ## Lower case and upper case -/

/-- A prefix that a text can be written under: printable, in lower case, and not empty. -/
structure Prefix (hrp : Str) : Prop where
  ne_nil : hrp ≠ []
  char : ∀ c ∈ hrp, 33 ≤ c.toNat ∧ c.toNat ≤ 126 ∧ c.toLower = c

theorem Prefix.of_all (h : hrp.isEmpty = false) (hall : hrp.all (fun c =>
    decide (33 ≤ c.toNat ∧ c.toNat ≤ 126 ∧ c.toLower = c)) = true) : Prefix hrp where
  ne_nil := List.isEmpty_eq_false_iff.1 h
  char c hc := of_decide_eq_true (List.all_eq_true.1 hall c hc)

/-- What holds of each ASCII character and of each that is its own capital holds of all. -/
theorem ascii_or_own_toUpper {P : Char → Prop} (hascii : ∀ n < 128, P (Char.ofNat n))
    (hown : ∀ c : Char, c.toUpper = c → P c) (c : Char) : P c := by
  by_cases h : c.toNat < 128
  · have hc := hascii c.toNat h
    rwa [Char.ofNat_toNat] at hc
  · have hl : ¬(c.val ≥ 97 ∧ c.val ≤ 122) := by
      rintro ⟨-, hle⟩
      have : c.toNat ≤ 122 := by simpa [UInt32.le_iff_toNat_le] using hle
      omega
    exact hown c (dif_neg hl)

theorem toLower_toUpper (c : Char) : c.toUpper.toLower = c.toLower := by
  revert c
  exact ascii_or_own_toUpper (by decide) fun c h => by rw [h]

theorem toUpper_toUpper (c : Char) : c.toUpper.toUpper = c.toUpper := by
  revert c
  exact ascii_or_own_toUpper (by decide) fun c h => by rw [h, h]

theorem map_toLower_map_toUpper (s : Str) :
    (s.map Char.toUpper).map Char.toLower = s.map Char.toLower := by
  rw [List.map_map]
  exact List.map_congr_left fun c _ => toLower_toUpper c

theorem map_toUpper_map_toUpper (s : Str) :
    (s.map Char.toUpper).map Char.toUpper = s.map Char.toUpper := by
  rw [List.map_map]
  exact List.map_congr_left fun c _ => toUpper_toUpper c

/-- A printable character's capital is printable. -/
theorem printable_toUpper {c : Char} (h : 33 ≤ c.toNat ∧ c.toNat ≤ 126) :
    33 ≤ c.toUpper.toNat ∧ c.toUpper.toNat ≤ 126 := by
  have hall : ∀ n < 127, 33 ≤ n → 33 ≤ (Char.ofNat n).toUpper.toNat ∧
      (Char.ofNat n).toUpper.toNat ≤ 126 := by decide
  have hc := hall c.toNat (by omega) h.1
  rwa [Char.ofNat_toNat] at hc

/-- `str.lower` of an ASCII text. -/
theorem lower_eq_map {s : Str} (h : ∀ c ∈ s, c.toNat < 128) : d.lower s = s.map Char.toLower := by
  induction s with
  | nil => rfl
  | cons c s ih =>
    rw [Deps.lower, List.flatMap_cons, if_pos (h c List.mem_cons_self), List.map_cons]
    exact congrArg (c.toLower :: ·) (ih fun c' hc => h c' (List.mem_cons_of_mem _ hc))

theorem Written.lower (h : Written s) : d.lower s = s.map Char.toLower :=
  lower_eq_map fun c hc => by
    have := h.1 c hc
    omega

/-- Whatever is written is printable and in lower case. -/
theorem char_of_encode (href : d.bech32.IsReference) (hp : Prefix hrp)
    (h : encode d hrp data = some s) : ∀ c ∈ s, 33 ≤ c.toNat ∧ c.toNat ≤ 126 ∧ c.toLower = c := by
  obtain ⟨values, hvalues, rfl⟩ := (encode_eq_some href).1 h
  have hfits : Fits 5 values := ((regroup_pad_iff (by decide) (fits_bytes data)).1 hvalues).1
  intro c hc
  rcases List.mem_append.1 hc with hc | hc
  · exact hp.char c hc
  · rcases List.mem_cons.1 hc with rfl | hc
    · decide
    · obtain ⟨hlow, hmin, hmax, -⟩ := mem_charset href
        (mem_spell href (hfits.append (fits_createChecksum href hrp values)) c hc)
      exact ⟨hmin, hmax, hlow⟩

/-- Bytes are written under any prefix. -/
theorem exists_encode (href : d.bech32.IsReference) (hrp : Str) (data : Bytes) :
    ∃ s, encode d hrp data = some s := by
  obtain ⟨values, hvalues, -⟩ := exists_regroup_pad (show 0 < 5 by decide) (fits_bytes data)
  exact ⟨_, (encode_eq_some href).2 ⟨values, hvalues, rfl⟩⟩

/-- What is written is read back, and so is the same in upper case. -/
theorem decode_of_encode (href : d.bech32.IsReference) (hp : Prefix hrp)
    (h : encode d hrp data = some s) :
    decode d hrp s = some data ∧ decode d hrp (s.map Char.toUpper) = some data := by
  have hchar := char_of_encode href hp h
  have hlow : s.map Char.toLower = s :=
    (List.map_congr_left fun c hc => (hchar c hc).2.2).trans (List.map_id s)
  constructor
  · refine (decode_eq_some_iff href).2 ⟨⟨fun c hc => ⟨(hchar c hc).1, (hchar c hc).2.1⟩, .inl hlow⟩,
      hp.ne_nil, ?_⟩
    rw [hlow, h]
  · refine (decode_eq_some_iff href).2 ⟨⟨fun c hc => ?_, .inr (map_toUpper_map_toUpper s)⟩,
      hp.ne_nil, ?_⟩
    · obtain ⟨c', hc', rfl⟩ := List.mem_map.1 hc
      exact printable_toUpper ⟨(hchar c' hc').1, (hchar c' hc').2.1⟩
    · rw [map_toLower_map_toUpper, hlow, h]

/-- The canonical spelling of what is read is its lower case. -/
theorem encode_of_decode (href : d.bech32.IsReference) (h : decode d hrp s = some data) :
    encode d hrp data = some (d.lower s) := by
  obtain ⟨hwritten, -, hencode⟩ := (decode_eq_some_iff href).1 h
  rw [hencode, hwritten.lower]

end Bech32m

/-! ## Shares -/

section Shares

variable {d : Deps} {cx1 : Str} {share : Bytes}

/-- A share: a chain code and a compressed point. -/
def ValidShare (d : Deps) (share : Bytes) : Prop :=
  share.length = 65 ∧ (share.getD 32 0 = 2 ∨ share.getD 32 0 = 3) ∧
    d.isPublicKey (share.drop 32) = true

theorem decodeCx1_eq_some_iff : decodeCx1 d cx1 = some share ↔
    Bech32m.decode d "cx".toList cx1 = some share ∧ ValidShare d share := by
  rw [decodeCx1, Option.bind_eq_some_iff]
  constructor
  · rintro ⟨data, hdata, h⟩
    split at h
    · rename_i hshare
      cases h
      exact ⟨hdata, hshare⟩
    · cases h
  · rintro ⟨hdata, hshare⟩
    exact ⟨share, hdata, if_pos hshare⟩

theorem prefix_cx : Bech32m.Prefix "cx".toList := .of_all (by decide) (by decide)

/-- The canonical spelling of a share that is read is its lower case. -/
theorem encodeCx1_of_decodeCx1 (href : d.bech32.IsReference) (h : decodeCx1 d cx1 = some share) :
    encodeCx1 d share = .ok (d.lower cx1) := by
  obtain ⟨hdecode, hlen, -⟩ := decodeCx1_eq_some_iff.1 h
  rw [encodeCx1, if_neg (not_not.2 hlen), Bech32m.encode_of_decode href hdecode]

/-- **The codec is a bijection up to case.** What is written is read back in lower and in upper
case, and what is read is, in lower case, what is written for it; the numbers that are read are
bytes, so that nothing raises. Every share has one spelling in lower case, and it is the one that
proofs of a registration are checked over. -/
theorem bech32m_bijective (d : Deps) (href : d.bech32.IsReference) :
    (∀ hrp : Str, hrp ≠ [] → (∀ c ∈ hrp, 33 ≤ c.toNat ∧ c.toNat ≤ 126 ∧ c.toLower = c) →
      ∀ data, ∃ s, Bech32m.encode d hrp data = some s ∧ Bech32m.decode d hrp s = some data ∧
        Bech32m.decode d hrp (s.map Char.toUpper) = some data) ∧
    (∀ hrp s data, Bech32m.decode d hrp s = some data →
      Bech32m.encode d hrp data = some (d.lower s)) ∧
    (∀ hrp s l, Bech32m.decoded d hrp s = some l → ∀ v ∈ l, v < 256) ∧
    (∀ share, ValidShare d share → ∃! cx1, d.lower cx1 = cx1 ∧ decodeCx1 d cx1 = some share) ∧
    ∀ cx1 share, decodeCx1 d cx1 = some share →
      shareOnFile (hex share) = .ok (some (false, share)) ∧
      ∃ canonical, encodeCx1 d share = .ok canonical ∧ d.lower cx1 = canonical ∧
        ∀ action domain username key sig, proves d action domain username cx1 key sig =
          verifyRegisterSignature d key sig action domain username canonical := by
  refine ⟨fun hrp hne hchar data => ?_, fun hrp s data h => Bech32m.encode_of_decode href h,
    fun hrp s l hl => ((Bech32m.decoded_eq_some_iff href).1 hl).2.2.1, fun share hshare => ?_,
    fun cx1 share h => ?_⟩
  · obtain ⟨s, hs⟩ := Bech32m.exists_encode href hrp data
    exact ⟨s, hs, Bech32m.decode_of_encode href ⟨hne, hchar⟩ hs⟩
  · obtain ⟨s, hs⟩ := Bech32m.exists_encode href "cx".toList share
    have hdecode := (Bech32m.decode_of_encode href prefix_cx hs).1
    have hlower : d.lower s = s :=
      Option.some.inj ((Bech32m.encode_of_decode href hdecode).symm.trans hs)
    refine ⟨s, ⟨hlower, decodeCx1_eq_some_iff.2 ⟨hdecode, hshare⟩⟩, ?_⟩
    rintro cx1 ⟨hlow, hcx1⟩
    have hcanon := Bech32m.encode_of_decode href (decodeCx1_eq_some_iff.1 hcx1).1
    rw [hlow] at hcanon
    exact Option.some.inj (hcanon.symm.trans hs)
  · refine ⟨?_, _, encodeCx1_of_decodeCx1 href h, rfl, fun _ _ _ _ _ => rfl⟩
    rw [shareOnFile, fromhex_hex]
    exact congrArg Except.ok (if_pos (decodeCx1_eq_some_iff.1 h).2.1)

/-- The stand-in with the reference codec. -/
def Deps.coded : Deps := { Deps.standIn with bech32 := Bech32.reference }

theorem Deps.coded_isReference : Deps.coded.bech32.IsReference :=
  ⟨rfl, fun _ => rfl, fun _ => rfl, fun _ _ _ _ => rfl⟩

-- the first of BIP-350's test vectors, whose data is empty
example : Bech32m.encode .coded "a".toList [] = some "a1lqfn3a".toList := by decide +kernel

/-- Two bytes under a prefix that holds the separator. -/
theorem bech32m_bijective_coded : ∃ s, Bech32m.encode .coded "c1x".toList [7, 255] = some s ∧
    Bech32m.decode .coded "c1x".toList s = some [7, 255] ∧
    Bech32m.decode .coded "c1x".toList (s.map Char.toUpper) = some [7, 255] :=
  (bech32m_bijective .coded Deps.coded_isReference).1 "c1x".toList (by decide)
    (Bech32m.Prefix.of_all (by decide) (by decide)).char [7, 255]

end Shares

end LnurlMint
