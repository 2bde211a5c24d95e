import Mathlib.Data.Char
import Mathlib.Data.List.Lex
import Mathlib.Data.List.Sort

/-!
# Text and bytes

The strings of the mint, as lists of characters, and the few built-in string operations it uses:
hex, UTF-8, `strip`, `split`, `sorted` and `join`.

Everything here is the standard library's behaviour restricted to what the mint asks of it. The
one place where that behaviour is a table rather than a rule, Unicode's lower case, is left to a
parameter (see `LnurlMint.Config`).
-/

namespace LnurlMint

/-- A string, by its characters. -/
abbrev Str := List Char

instance Str.lawfulBEq : LawfulBEq Str := inferInstanceAs (LawfulBEq (List Char))

/-- A byte string. -/
abbrev Bytes := List UInt8

/-! ## Hex -/

/-- A hex digit, in lower case. -/
def hexDigit (n : ℕ) : Char := "0123456789abcdef".toList.getD n '0'

/-- `bytes.hex()`. -/
def hex (data : Bytes) : Str :=
  data.flatMap fun b => [hexDigit (b.toNat / 16), hexDigit (b.toNat % 16)]

/-- The value of a hex digit in either case. -/
def hexValue (c : Char) : Option ℕ :=
  if '0' ≤ c ∧ c ≤ '9' then some (c.toNat - '0'.toNat)
  else if 'a' ≤ c ∧ c ≤ 'f' then some (c.toNat - 'a'.toNat + 10)
  else if 'A' ≤ c ∧ c ≤ 'F' then some (c.toNat - 'A'.toNat + 10)
  else none

/-- ASCII white space, which `bytes.fromhex` skips between bytes. -/
def asciiSpace (c : Char) : Bool := c = ' ' || ('\t' ≤ c && c ≤ '\r')

/-- `bytes.fromhex`, or `none` where it raises `ValueError`: pairs of hex digits, with white space
allowed around a pair but not inside one. -/
def fromhex : Str → Option Bytes
  | [] => some []
  | c :: s =>
    if asciiSpace c then fromhex s
    else match s with
      | [] => none
      | d :: s => do
        let hi ← hexValue c
        let lo ← hexValue d
        let rest ← fromhex s
        return UInt8.ofNat (16 * hi + lo) :: rest

/-- The characters of hex ids as the mint writes them. -/
def IsHex (s : Str) : Prop := ∀ c ∈ s, c ∈ "0123456789abcdef".toList

instance (s : Str) : Decidable (IsHex s) := List.decidableBAll _ s

theorem hexDigit_mem (n : ℕ) : hexDigit n ∈ "0123456789abcdef".toList := by
  unfold hexDigit
  rw [List.getD_eq_getElem?_getD]
  cases h : ("0123456789abcdef".toList)[n]? with
  | none => decide
  | some c => exact List.mem_of_getElem? h

theorem isHex_hex (data : Bytes) : IsHex (hex data) := by
  intro c hc
  obtain ⟨b, -, hb⟩ := List.mem_flatMap.1 hc
  rcases List.mem_pair.1 hb with rfl | rfl <;> exact hexDigit_mem _

theorem hex_cons (b : UInt8) (data : Bytes) :
    hex (b :: data) = hexDigit (b.toNat / 16) :: hexDigit (b.toNat % 16) :: hex data := rfl

theorem hexValue_hexDigit : ∀ n < 16, hexValue (hexDigit n) = some n ∧
    asciiSpace (hexDigit n) = false := by decide

/-- **Reading hex back.** -/
theorem fromhex_hex (data : Bytes) : fromhex (hex data) = some data := by
  induction data with
  | nil => rfl
  | cons b data ih =>
    have hb : b.toNat < 256 := b.toNat_lt
    obtain ⟨hhi, hspace⟩ := hexValue_hexDigit (b.toNat / 16) (by omega)
    obtain ⟨hlo, -⟩ := hexValue_hexDigit (b.toNat % 16) (by omega)
    have hbyte : UInt8.ofNat (16 * (b.toNat / 16) + b.toNat % 16) = b := by
      rw [Nat.div_add_mod, UInt8.ofNat_toNat]
    rw [hex_cons, fromhex, hspace]
    simp only [Bool.false_eq_true, if_false, hhi, hlo, ih, Option.pure_def, Option.bind_eq_bind,
      Option.bind_some, hbyte]

theorem hex_injective {data data' : Bytes} (h : hex data = hex data') : data = data' := by
  have hread := congrArg fromhex h
  rw [fromhex_hex, fromhex_hex] at hread
  exact Option.some.inj hread

theorem length_hex (data : Bytes) : (hex data).length = 2 * data.length := by
  induction data with
  | nil => rfl
  | cons b data ih =>
    rw [hex_cons, List.length_cons, List.length_cons, ih, List.length_cons]
    omega

theorem take_hex (n : ℕ) (data : Bytes) : (hex data).take (2 * n) = hex (data.take n) := by
  induction n generalizing data with
  | zero => rfl
  | succ n ih =>
    cases data with
    | nil => rfl
    | cons b data =>
      rw [List.take_succ_cons, hex_cons, hex_cons, ← ih]
      rfl

theorem drop_hex (n : ℕ) (data : Bytes) : (hex data).drop (2 * n) = hex (data.drop n) := by
  induction n generalizing data with
  | zero => rfl
  | succ n ih =>
    cases data with
    | nil => rfl
    | cons b data =>
      rw [List.drop_succ_cons, ← ih]
      rfl

theorem IsHex.bar_notMem {s : Str} (h : IsHex s) : '|' ∉ s := fun hb => by
  have := h _ hb
  revert this
  decide

/-! ## UTF-8, white space, pieces -/

/-- `str.encode()`. -/
def utf8 (s : Str) : Bytes := s.flatMap String.utf8EncodeChar

/-- No two texts are encoded alike. -/
theorem utf8_injective {s s' : Str} (h : utf8 s = utf8 s') : s = s' := by
  have hbytes : s.utf8Encode = s'.utf8Encode := congrArg List.toByteArray h
  exact String.ofList_inj.1 (String.toByteArray_inj.1 hbytes)

/-- What `str.strip` strips. -/
def isSpace (c : Char) : Bool :=
  asciiSpace c || ('\x1c' ≤ c && c ≤ '\x1f') ||
    c.toNat ∈ [0x85, 0xa0, 0x1680, 0x2028, 0x2029, 0x202f, 0x205f, 0x3000] ||
    (0x2000 ≤ c.toNat && c.toNat ≤ 0x200a)

/-- `str.strip()`. -/
def strip (s : Str) : Str := ((s.dropWhile isSpace).reverse.dropWhile isSpace).reverse

/-- `str.rstrip("/")`. -/
def rstripSlash (s : Str) : Str := (s.reverse.dropWhile (· = '/')).reverse

/-- `str(n)` of an integer. -/
def decimal (n : ℤ) : Str := (toString n).toList

/-! ## Sets of ids as one string

`"|".join(sorted(ids))`: an order-independent name for a list of ids. It determines the list up to
order as long as no id contains the separator, which hex ids do not. -/

/-- `"|".join(sorted(ids))`. -/
def sortedJoin (ids : List Str) : Str := ['|'].intercalate (ids.insertionSort (· ≤ ·))

theorem insertionSort_congr {ids ids' : List Str} (h : ids.Perm ids') :
    ids.insertionSort (· ≤ ·) = ids'.insertionSort (· ≤ ·) :=
  ((List.perm_insertionSort _ _).trans (h.trans (List.perm_insertionSort _ _).symm)).eq_of_pairwise
    (fun _ _ _ _ => le_antisymm) (List.pairwise_insertionSort _ _)
    (List.pairwise_insertionSort _ _)

theorem sortedJoin_congr {ids ids' : List Str} (h : ids.Perm ids') :
    sortedJoin ids = sortedJoin ids' := by
  rw [sortedJoin, sortedJoin, insertionSort_congr h]

/-- Splitting the name gives the ids back, sorted. -/
theorem splitOn_sortedJoin {ids : List Str} (h : ∀ s ∈ ids, '|' ∉ s) (hne : ids ≠ []) :
    (sortedJoin ids).splitOn '|' = ids.insertionSort (· ≤ ·) := by
  refine List.splitOn_intercalate '|' (fun s hs => h s ?_) fun he => hne ?_
  · exact (List.perm_insertionSort _ _).mem_iff.1 hs
  · exact List.length_eq_zero_iff.1 (by rw [← List.length_insertionSort (· ≤ ·) ids, he]; rfl)

/-- The name of a list of ids determines it up to order. -/
theorem perm_of_sortedJoin {ids ids' : List Str} (h : ∀ s ∈ ids, '|' ∉ s)
    (h' : ∀ s ∈ ids', '|' ∉ s) (hne : ids ≠ []) (hne' : ids' ≠ [])
    (heq : sortedJoin ids = sortedJoin ids') : ids.Perm ids' := by
  have hs : ids.insertionSort (· ≤ ·) = ids'.insertionSort (· ≤ ·) := by
    rw [← splitOn_sortedJoin h hne, heq, splitOn_sortedJoin h' hne']
  exact (List.perm_insertionSort (· ≤ ·) ids).symm.trans
    (hs ▸ List.perm_insertionSort (· ≤ ·) ids')

example : sortedJoin ["b".toList, "a".toList] = "a|b".toList := by decide

end LnurlMint
