import LnurlMint.Json
import LnurlMint.Store

/-!
# What the mint is built on, and its settings

`Deps` collects the code the mint calls and does not contain: the note kernel, the invoice decoder,
the curve, the bech32 primitives, the hash functions, the JSON and URL parsers and Unicode's case
table. Nothing is assumed of any of them here. A result that relies on one says so in a hypothesis.

`Settings` is the operator's configuration, with what its validators enforce carried as fields, so
that a configuration the mint would refuse to start with cannot be written down.

## Main definitions

* `Deps`, `Invoice` — the packages and what a decoded invoice offers
* `Settings` — the accepted configurations
* `Settings.publicBaseUrlAndHost`, `Settings.spendDomains`, `Settings.addressFee`,
  `Settings.mintFeesEntry`
* `Deps.standIn`, `Settings.standIn` — a mint whose runs evaluate
-/

namespace LnurlMint

/-- What is read off a decoded BOLT-11 invoice. -/
structure Invoice where
  /-- `amount_msat`; absent from an amountless invoice. -/
  amountMsat : Option ℤ
  /-- `payment_hash`, absent unless `has_payment_hash`. Reading an absent one raises. -/
  paymentHash : Option Str
  /-- `expiry_time`. -/
  expiryTime : ℤ
deriving DecidableEq

/-- The primitives of the `bech32` package. -/
structure Bech32 where
  /-- `CHARSET`. -/
  charset : Str
  /-- `bech32_hrp_expand`. -/
  hrpExpand : Str → List ℕ
  /-- `bech32_polymod`. -/
  polymod : List ℕ → ℕ
  /-- `convertbits`. -/
  convertbits : List ℕ → ℕ → ℕ → Bool → Option (List ℕ)
  /-- `bech32_decode`. -/
  decode : Str → Option Str × Option (List ℕ)

/-- The packages the mint is built on. -/
structure Deps where
  /-- A decoded spend, as `lnurlcashkernel` represents it. -/
  Spend : Type
  /-- `kernel.decode_note`: the output key a `cp1`, or a bearer note's hex `h`, names. -/
  decodeNote : Str → Option Bytes
  /-- `kernel.decode_spend`. -/
  decodeSpend : Str → Option Spend
  /-- `Spend.output_key`. -/
  outputKey : Spend → Option Bytes
  /-- `Spend.key_path`. -/
  keyPath : Spend → Bool
  /-- `kernel.verify_spend`: the reason a spend is rejected with, or `none` if it opens the note. -/
  verifySpend : (outputKey : Bytes) → (domain : Str) → Spend → (now lockedAt : ℤ) → Option String
  /-- `bolt11.decode`, or the text of what it raises. -/
  decodeInvoice : Str → Except String Invoice
  /-- `bolt11.utils.msat_to_amount`. -/
  msatToAmount : ℤ → Str
  /-- `bolt11.utils.amount_to_msat(amount)`, a decimal fraction, or `none` where it raises
  `Bolt11AmountInvalidException`. -/
  amountToMsat : Str → Except Exn (Option ℚ)
  /-- SHA-256. -/
  sha256 : Bytes → Bytes
  /-- HMAC-SHA-512, of a key and a message. -/
  hmacSha512 : Bytes → Bytes → Bytes
  /-- Whether `coincurve.PublicKey` takes these bytes. -/
  isPublicKey : Bytes → Bool
  /-- `PublicKey(key).add(scalar).format(compressed=True)`, or `none` where it raises. -/
  publicKeyAdd : Bytes → Bytes → Option Bytes
  /-- `PublicKeyXOnly(key)`, tweaked by `tweak_add` and formatted, or `none` where it raises. -/
  xonlyTweakAdd : Bytes → Bytes → Option Bytes
  /-- `PublicKeyXOnly(key).verify(sig, digest)`: BIP-340. `false` where it raises. -/
  schnorrVerify : Bytes → Bytes → Bytes → Bool
  /-- The `bech32` package. -/
  bech32 : Bech32
  /-- `urllib.parse.urlparse(url).hostname`, or the text of the `ValueError` that it raises. -/
  hostname : Str → Except String (Option Str)
  /-- `str.lower` of one character outside ASCII. -/
  lowerChar : Char → Str
  /-- `json.loads`. It raises a `ValueError` for a text that is no JSON, and something else for one
  that is nested too deeply. -/
  jsonLoads : Str → Except Exn Json
  /-- `nostr.pubkey_of`: the x-only public key of a Nostr secret key, in hex. -/
  nostrPubkeyOf : Str → Str
  /-- `PrivateKey(secret).sign_schnorr(digest, …)`: BIP-340. The randomness that blinds it is left
  out. -/
  signSchnorr : Str → Bytes → Bytes
  /-- `round(amount_msat * 0.005)`, in floating point. -/
  halfPercent : ℤ → ℤ
  /-- The public half of the key a spark backend signs notes with. -/
  sparkSigningPubkey : Str

namespace Deps

variable (d : Deps)

/-- `str.lower()`, but for a `Σ` at the end of a word, which is lowered as any other. -/
def lower (s : Str) : Str := s.flatMap fun c => if c.toNat < 128 then [c.toLower] else d.lowerChar c

/-- The host of a URL, as the mint reads it. -/
def urlHost (url : Str) : Except Exn (Option Str) := (d.hostname url).mapError .value

end Deps

/-- The funding source backends. -/
inductive Backend
  | lnd
  | cln
  | spark
deriving DecidableEq

/-- The settings the mint starts with. -/
structure Settings (d : Deps) where
  /-- `FUNDINGSOURCE_BACKEND`; without one, minting and melting are refused. -/
  fundingsourceBackend : Option Backend
  /-- `MIN_SENDABLE_MSAT`. -/
  minSendableMsat : ℕ
  /-- `MAX_SENDABLE_MSAT`. -/
  maxSendableMsat : ℕ
  one_le_minSendable : 1 ≤ minSendableMsat
  /-- `_sendable_bounds_are_ordered`. -/
  sendable_ordered : minSendableMsat ≤ maxSendableMsat
  /-- `BASE_FEE_MSAT`: the flat part of the mint fee. -/
  baseFeeMsat : ℕ
  /-- `FEE_PPM`: the proportional part, in millionths. -/
  feePpm : ℕ
  feePpm_le : feePpm ≤ 100000
  /-- `ADDRESS_FEE_MSAT`. -/
  addressFeeMsat : ℕ
  /-- `MIN_MINT_MSAT`: the floor on a minted note's value. -/
  minMintMsat : ℕ
  /-- `MAX_K1S`. -/
  maxK1s : ℤ
  /-- `SUNSET_MINT`: neither mint nor split. -/
  sunsetMint : Bool
  /-- `VERIFY_ENABLED`. -/
  verifyEnabled : Bool
  /-- `USERNAME_REGISTRATION_ENABLED`. -/
  usernameRegistrationEnabled : Bool
  /-- `NIP05_ENABLED`. -/
  nip05Enabled : Bool
  /-- `NOSTR_KEY`. -/
  nostrKey : Option Str
  /-- `NOSTR_RELAYS`, split. -/
  nostrRelayList : List Str
  /-- `BASE_URL`. -/
  baseUrl : Str
  /-- `ONION_URL`. -/
  onionUrl : Option Str
  /-- `_base_url_needs_a_hostname`. -/
  baseUrl_hostname : ∃ host, host ≠ [] ∧ d.hostname baseUrl = .ok (some host)
  /-- `_onion_url_needs_a_hostname`. -/
  onionUrl_hostname : ∀ u, onionUrl = some u →
    ∃ host, host ≠ [] ∧ d.hostname u = .ok (some host)
  /-- `USERNAME`: the mint's own name. -/
  username : Str

namespace Settings

variable {d : Deps} (cfg : Settings d)

/-- `address_fee`: none while registration is disabled. -/
def addressFee : ℕ := if cfg.usernameRegistrationEnabled then cfg.addressFeeMsat else 0

/-- `mint_fees_entry`. -/
def mintFeesEntry (withAddressFee : Bool) : Option String :=
  let addressFee := if withAddressFee then cfg.addressFee else 0
  if addressFee ≠ 0 then some s!"Mint fees: {cfg.baseFeeMsat},{cfg.feePpm},{addressFee}"
  else if cfg.baseFeeMsat ≠ 0 ∨ cfg.feePpm ≠ 0 then
    some s!"Mint fees: {cfg.baseFeeMsat},{cfg.feePpm}"
  else none

/-- `public_base_url`: the onion address for a request that came through it. The URL of the request
is its `Host` header's, and is only looked at if there is an onion address. -/
def publicBaseUrl (requestBaseUrl : Str) : Except Exn Str :=
  match cfg.onionUrl with
  | some onion =>
    if onion = [] then .ok (rstripSlash cfg.baseUrl)
    else do
      let requestHost ← d.urlHost requestBaseUrl
      let onionHost ← d.urlHost onion
      if requestHost.getD [] ≠ [] ∧ requestHost.getD [] = onionHost.getD [] then
        return rstripSlash onion
      else return rstripSlash cfg.baseUrl
  | none => .ok (rstripSlash cfg.baseUrl)

/-- `spend_domains`: every host the mint answers on, in lower case, each once. The validators have
read both URLs, so neither reading raises. -/
def spendDomains : List Str :=
  let hosts := d.hostname cfg.baseUrl ::
    match cfg.onionUrl with
    | some onion => if onion ≠ [] then [d.hostname onion] else []
    | none => []
  ((hosts.filterMap fun h => h.toOption.join.bind fun h =>
    if h ≠ [] then some (d.lower h) else none)).foldl
    (fun seen h => if h ∈ seen then seen else seen ++ [h]) []

/-- `public_base_url_and_host`. Its assertion raises no `ValueError`. -/
def publicBaseUrlAndHost (requestBaseUrl : Str) : Except Exn (Str × Str) := do
  let base ← cfg.publicBaseUrl requestBaseUrl
  match ← d.urlHost base with
  | some host => return (base, host)
  | none => throw .other

variable {cfg} in
theorem publicBaseUrlAndHost_eq_ok {requestBaseUrl base host : Str} :
    cfg.publicBaseUrlAndHost requestBaseUrl = .ok (base, host) ↔
      cfg.publicBaseUrl requestBaseUrl = .ok base ∧ d.urlHost base = .ok (some host) := by
  rw [publicBaseUrlAndHost]
  cases cfg.publicBaseUrl requestBaseUrl with
  | error e => simp [bind, Except.bind]
  | ok base' =>
    rcases h : d.urlHost base' with e | _ | host' <;>
      simp only [bind, Except.bind, pure, Except.pure, h]
    · simpa using by rintro rfl; simp [h]
    · simpa [throw, throwThe, MonadExceptOf.throw] using by rintro rfl; simp [h]
    · simpa using by rintro rfl; simp [h]

end Settings

/-! ## A stand-in for the packages

Functions simple enough to evaluate, so that runs of the mint can be. The key of a note and the
secret that opens it are the same 32 bytes; an invoice is its payment hash after `ln`, and each is
for 10000 msat; a signature is the key and the message it signs; a checksum always fits. -/

/-- 32 bytes in hex, or nothing. -/
def key32 (s : Str) : Option Bytes := (fromhex s).filter fun b => b.length = 32

/-- The stand-in. -/
def Deps.standIn : Deps where
  Spend := Bytes
  decodeNote := key32
  decodeSpend := key32
  outputKey := some
  keyPath _ := true
  verifySpend outputKey _ spend _ _ := if spend = outputKey then none else some "wrong key"
  decodeInvoice pr :=
    if pr.take 2 = "ln".toList then .ok ⟨some 10000, some (pr.drop 2), 3600⟩
    else .error "no invoice"
  msatToAmount := decimal
  amountToMsat amount := .ok ((String.ofList amount).toInt?.map Int.cast)
  sha256 := id
  hmacSha512 _ msg := msg
  isPublicKey key := key.length = 33
  publicKeyAdd key _ := some key
  xonlyTweakAdd key _ := some key
  schnorrVerify key sig msg := key.length = 32 && sig = key ++ msg
  bech32 := {
    charset := "qpzry9x8gf2tvdw0s3jn54khce6mua7l".toList
    hrpExpand := fun _ => []
    polymod := fun _ => 0x2BC830A3
    convertbits := fun data _ _ _ => some data
    decode := fun _ => (none, none) }
  hostname url := .ok (some url)
  lowerChar c := [c]
  jsonLoads _ := .error (.value "Expecting value")
  nostrPubkeyOf secret := secret
  signSchnorr secret digest := utf8 secret ++ digest
  halfPercent amountMsat := amountMsat / 200
  sparkSigningPubkey := []

/-- A mint on it, without fees. -/
def Settings.standIn : Settings .standIn where
  fundingsourceBackend := some .lnd
  minSendableMsat := 1000
  maxSendableMsat := 1000000
  one_le_minSendable := by decide
  sendable_ordered := by decide
  baseFeeMsat := 0
  feePpm := 0
  feePpm_le := by decide
  addressFeeMsat := 0
  minMintMsat := 1000
  maxK1s := 10
  sunsetMint := false
  verifyEnabled := true
  usernameRegistrationEnabled := true
  nip05Enabled := false
  nostrKey := none
  nostrRelayList := []
  baseUrl := "mint".toList
  onionUrl := none
  baseUrl_hostname := ⟨_, by decide, rfl⟩
  onionUrl_hostname := by simp
  username := "mint".toList

end LnurlMint
