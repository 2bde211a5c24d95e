import LnurlMint.Config

/-!
# Zap requests and receipts

NIP-57 as the mint does it. A payer's wallet sends a zap request with the amount it is about to
pay; the mint checks it, binds the invoice to it, and once the invoice is paid publishes a receipt
that carries the request.

The validator looks at a request's tags by name, and a tag without a name is passed over. The
receipt is built from the same list of tags by asking each for its name.

## Main definitions

* `NostrEvent`, `eventId`, `verifyEvent`, `signEvent`
* `checkZapRequest`, `validateZapRequest`, `relaysOf`, `zapReceipt`
-/

namespace LnurlMint

/-- A signed event, as the mint builds it. -/
structure NostrEvent where
  id : Str
  pubkey : Str
  createdAt : ℤ
  kind : ℤ
  tags : List (List Str)
  content : Str
  sig : Str
deriving DecidableEq

namespace Nostr

/-- `ZAP_REQUEST_KIND`. -/
def zapRequestKind : ℤ := 9734

/-- `ZAP_RECEIPT_KIND`. -/
def zapReceiptKind : ℤ := 9735

/-- `_MAX_REQUEST_RELAYS`. -/
def maxRequestRelays : ℕ := 8

/-- `_HEX32.match`. Its `$` matches before a final newline too. -/
def hex32 (s : Str) : Bool :=
  let body := if s.getLast? = some '\n' then s.dropLast else s
  body.length = 64 && body.all fun c => c ∈ "0123456789abcdef".toList

/-- `_RELAY_URL.match`. -/
def relayUrl (url : Str) : Bool :=
  url.take 6 = "wss://".toList && (url.drop 6).head?.any fun c => c ≠ '/' && !isSpace c

/-! ## Events -/

section Events

variable (d : Deps)

/-- `event_id`. -/
def eventId (pubkey createdAt kind tags content : Json) : Str :=
  hex (d.sha256 (utf8 (Json.dumps (.arr [.ofInt 0, pubkey, createdAt, kind, tags, content]))))

/-- `verify_event`. What raises inside it makes it false. -/
def verifyEvent (event : Json) : Bool :=
  (do
    let pubkey ← event.get "pubkey"
    let createdAt ← event.get "created_at"
    let kind ← event.get "kind"
    let tags ← event.get "tags"
    let content ← event.get "content"
    let ident ← (← event.get "id").str?
    let key ← pubkey.str?.bind fromhex
    let sig ← (← event.get "sig").str?.bind fromhex
    let digest ← fromhex ident
    return eventId d pubkey createdAt kind tags content = ident && d.schnorrVerify key sig digest :
      Option Bool) = some true

/-- Tags as JSON. -/
def tagsJson (tags : List (List Str)) : Json := .arr (tags.map fun t => .arr (t.map Json.str))

/-- `sign_event`. -/
def signEvent (kind : ℤ) (tags : List (List Str)) (content secretKeyHex : Str) (createdAt : ℤ) :
    NostrEvent :=
  let pubkey := d.nostrPubkeyOf secretKeyHex
  let ident := eventId d (.str pubkey) (.ofInt createdAt) (.ofInt kind) (tagsJson tags)
    (.str content)
  { id := ident, pubkey, createdAt, kind, tags, content
    sig := hex (d.signSchnorr secretKeyHex ((fromhex ident).getD [])) }

end Events

/-! ## Tags -/

/-- A list of strings. -/
def strings? : Json → Option (List Str)
  | .arr elems => elems.mapM Json.str?
  | _ => none

/-- The tags of an event, if they are lists of strings, as the validator makes sure. -/
def tags? (event : Json) : Option (List (List Str)) :=
  match event.get "tags" with
  | some (.arr elems) => elems.mapM strings?
  | _ => none

/-- `_tags`: the tags with this name. -/
def named (tags : List (List Str)) (name : String) : List (List Str) :=
  tags.filter fun t => t.head? = some name.toList

/-! ## Zaps -/

/-- The checks of `validate_zap_request` on what `json.loads` returns. -/
def checkZapRequest (d : Deps) (event : Json) (amountMsat : ℤ) : Except String Json :=
  match event.get "kind" with
  | some (.num kind _) =>
    if kind ≠ some zapRequestKind then .error "Zap request is not a kind 9734 event."
    else match tags? event with
      | none => .error "Zap request tags are malformed."
      | some tags =>
        if verifyEvent d event = false then .error "Zap request signature is invalid."
        else
          let p := named tags "p"
          if p.length ≠ 1 ∨ p.any (fun t => t.length < 2 || !hex32 (t.getD 1 [])) = true then
            .error "Zap request needs exactly one p tag naming a pubkey."
          else
            let e := named tags "e"
            if 1 < e.length ∨ e.any (fun t => t.length < 2 || !hex32 (t.getD 1 [])) = true then
              .error "Zap request e tag is malformed."
            else if named tags "relays" = [] then .error "Zap request has no relays tag."
            else match named tags "amount" with
              | amount :: _ =>
                if amount.length < 2 ∨ amount.getD 1 [] ≠ decimal amountMsat then
                  .error "Zap request amount does not match the invoice."
                else .ok event
              | [] => .ok event
  | _ => .error "Zap request is not a kind 9734 event."

/-- `validate_zap_request`: the event, or why it is refused. Of what `json.loads` raises it catches
a `ValueError` alone. -/
def validateZapRequest (d : Deps) (raw : Str) (amountMsat : ℤ) :
    Except Exn (Except String Json) :=
  match d.jsonLoads raw with
  | .error (.value _) => .ok (.error "Zap request is not JSON.")
  | .error e => .error e
  | .ok event => .ok (checkZapRequest d event amountMsat)

/-- `relays_of`. -/
def relaysOf (tags : List (List Str)) : List Str :=
  ((((named tags "relays").flatMap fun tag => (tag.drop 1).map strip).filter
    relayUrl).eraseDups).take maxRequestRelays

/-- The tags that a receipt repeats, `none` where asking a tag for its name raises. -/
def repeatedTags : List (List Str) → Option (List (List Str))
  | [] => some []
  | t :: tags => do
    let name ← t.head?
    let rest ← repeatedTags tags
    return if name ∈ ["e".toList, "p".toList, "a".toList] then t :: rest else rest

/-- `zap_receipt`, or `none` where it raises. -/
def zapReceipt (d : Deps) (zapRequest : Json) (rawRequest bolt11 : Str) (preimageHex : Option Str)
    (secretKeyHex : Str) (createdAt : ℤ) : Option NostrEvent := do
  let tags ← repeatedTags (← tags? zapRequest)
  let pubkey ← (← zapRequest.get "pubkey").str?
  let tags := tags ++ [["P".toList, pubkey], ["bolt11".toList, bolt11],
    ["description".toList, rawRequest]]
  let tags := match preimageHex with
    | some (c :: preimage) => tags ++ [["preimage".toList, c :: preimage]]
    | _ => tags
  return signEvent d zapReceiptKind tags [] secretKeyHex createdAt

end Nostr

end LnurlMint
