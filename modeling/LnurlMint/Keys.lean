import LnurlMint.Config
import LnurlMint.Store

/-!
# Spends, shares and signatures

The modules of the mint that touch keys, over the packages of `Deps`: the bech32m codec, the
derivation of a share's notes, the messages the mint signs and the proofs it checks, and the
reading of a `k1`.

A share on file comes in two forms. The current one is the chain code and a compressed point, 65
bytes; the superseded one is an x-only point and the chain code, 64 bytes. `shareOnFile` tells them
apart by length alone, and everything that reads a share goes through it.

## Main definitions

* `Bech32m.encode`, `Bech32m.decode`, `encodeCx1`, `decodeCx1`, `encodeCs1`, `decodeCs1`,
  `decodeNpub`
* `ckdPub`, `deriveNotePubkey`, `legacyDerivePubkey` — a share's notes
* `shareOnFile`, `shareXp`, `shareNoteId`
* `registerMessage`, `verifyRegisterSignature` — ownership proofs
* `Spend.parse`, `Spend.verify`
-/

namespace LnurlMint

variable (d : Deps)

/-! ## Bech32m -/

namespace Bech32m

/-- `BECH32M_CONST`. -/
def const : ℕ := 0x2BC830A3

/-- `_create_checksum`. -/
def createChecksum (hrp : Str) (data : List ℕ) : List ℕ :=
  let values := d.bech32.hrpExpand hrp ++ data
  let polymod := d.bech32.polymod (values ++ [0, 0, 0, 0, 0, 0]) ^^^ const
  (List.range 6).map fun i => (polymod >>> (5 * (5 - i))) &&& 31

/-- `_verify_checksum`. -/
def verifyChecksum (hrp : Str) (data : List ℕ) : Bool :=
  d.bech32.polymod (d.bech32.hrpExpand hrp ++ data) = const

/-- `encode`, or `none` where its assertion fails. -/
def encode (hrp : Str) (data : Bytes) : Option Str :=
  (d.bech32.convertbits (data.map UInt8.toNat) 8 5 true).map fun values =>
    hrp ++ '1' :: (values ++ createChecksum d hrp values).map fun v => d.bech32.charset.getD v ' '

/-- `decode`. -/
def decode (hrp s : Str) : Option Bytes :=
  if s.any fun c => c.toNat < 33 || 126 < c.toNat then none
  else if s.map Char.toLower ≠ s ∧ s.map Char.toUpper ≠ s then none
  else
    let s := s.map Char.toLower
    -- `rfind`: the last separator splits the prefix from the data
    let dataPart := (s.reverse.takeWhile (· ≠ '1')).reverse
    let foundHrp := s.take (s.length - dataPart.length - 1)
    if '1' ∉ s ∨ foundHrp = [] ∨ dataPart.length < 6 then none
    else if foundHrp ≠ hrp ∨ dataPart.any (fun c => c ∉ d.bech32.charset) = true then none
    else
      let data := dataPart.map fun c => d.bech32.charset.idxOf c
      if verifyChecksum d foundHrp data then
        (d.bech32.convertbits (data.take (data.length - 6)) 5 8 false).map fun l =>
          l.map UInt8.ofNat
      else none

end Bech32m

/-- `encode_cx1`. -/
def encodeCx1 (data : Bytes) : Except Exn Str :=
  if data.length ≠ 65 then
    .error (.value s!"cx1... payload must be 65 bytes, got {data.length}")
  else match Bech32m.encode d "cx".toList data with
    | none => .error .other
    | some c => .ok c

/-- `decode_cx1`: a share, chain code and compressed point. -/
def decodeCx1 (s : Str) : Option Bytes :=
  (Bech32m.decode d "cx".toList s).bind fun data =>
    if data.length = 65 ∧ (data.getD 32 0 = 2 ∨ data.getD 32 0 = 3) ∧
      d.isPublicKey (data.drop 32) then some data else none

/-- `encode_cs1`. -/
def encodeCs1 (amountMsat : ℤ) (signature : Bytes) : Except Exn Str :=
  if signature.length ≠ 65 then
    .error (.value s!"cs1... payload must be 65 bytes, got {signature.length}")
  else match Bech32m.encode d ("cs".toList ++ d.msatToAmount amountMsat) signature with
    | none => .error .other
    | some c => .ok c

/-- `int` of a fraction: without what is behind the point. -/
def truncate (q : ℚ) : ℤ := q.num.tdiv q.den

/-- `decode_cs1`: the whole part of the amount that the prefix spells, and the signature. What
`amount_to_msat` raises of another kind is not caught. -/
def decodeCs1 (s : Str) : Except Exn (Option (ℤ × Bytes)) :=
  if s.any fun c => c.toNat < 33 || 126 < c.toNat then .ok none
  else if s.map Char.toLower ≠ s ∧ s.map Char.toUpper ≠ s then .ok none
  else
    let s := s.map Char.toLower
    let dataPart := (s.reverse.takeWhile (· ≠ '1')).reverse
    let foundHrp := s.take (s.length - dataPart.length - 1)
    if '1' ∉ s ∨ foundHrp = [] ∨ dataPart.length < 6 then .ok none
    else if foundHrp.take 2 ≠ "cs".toList ∨
      dataPart.any (fun c => c ∉ d.bech32.charset) = true then .ok none
    else do
      match ← d.amountToMsat (foundHrp.drop 2) with
      | none => return none
      | some amount =>
        let amountMsat := truncate amount
        let data := dataPart.map fun c => d.bech32.charset.idxOf c
        if Bech32m.verifyChecksum d foundHrp data then
          return (d.bech32.convertbits (data.take (data.length - 6)) 5 8 false).bind fun decoded =>
            if decoded.length ≠ 65 ∨ 3 < decoded.getD 64 0 then none
            else some (amountMsat, decoded.map UInt8.ofNat)
        else return none

/-- `decode_npub`. -/
def decodeNpub (s : Str) : Option Bytes :=
  match d.bech32.decode s with
  | (some hrp, some data) =>
    if hrp = "npub".toList then
      (d.bech32.convertbits data 5 8 false).bind fun l =>
        if l.length = 32 then some (l.map UInt8.ofNat) else none
    else none
  | _ => none

/-! ## Deriving a share's notes -/

/-- `int.from_bytes(data, "big")`. -/
def fromBigEndian (data : Bytes) : ℕ := data.foldl (fun n b => 256 * n + b.toNat) 0

/-- `n.to_bytes(len, "big")` of a number that fits. -/
def toBigEndian (len n : ℕ) : Bytes :=
  (List.range len).map fun i => UInt8.ofNat (n / 256 ^ (len - 1 - i))

/-- `_N`: the order of secp256k1's group. -/
def curveOrder : ℕ := 0xFFFFFFFFFFFFFFFFFFFFFFFFFFFFFFFEBAAEDCE6AF48A03BBFD25E8CD0364141

/-- `_HARDENED`. -/
def hardened : ℕ := 0x80000000

/-- `tagged_hash`. -/
def taggedHash (tag msg : Bytes) : Bytes :=
  let tagHash := d.sha256 tag
  d.sha256 (tagHash ++ tagHash ++ msg)

/-- `ckd_pub`: the child's key and chain code, or `none` where it raises `ValueError`. -/
def ckdPub (pubkey chainCode : Bytes) (index : ℕ) : Option (Bytes × Bytes) :=
  if hardened ≤ index then none
  else if pubkey.length ≠ 33 ∨ chainCode.length ≠ 32 then none
  else
    let digest := d.hmacSha512 chainCode (pubkey ++ toBigEndian 4 index)
    if curveOrder ≤ fromBigEndian (digest.take 32) then none
    else (d.publicKeyAdd pubkey (digest.take 32)).map fun child => (child, digest.drop 32)

/-- `derive_note_pubkey`. -/
def deriveNotePubkey (cx1 : Bytes) (index : ℕ) : Option Bytes :=
  (ckdPub d (cx1.drop 32) (cx1.take 32) index).map fun child => child.1.drop 1

/-- `PURPOSE_LIGHTNING_ADDRESS`. -/
def purposeLightningAddress : ℕ := 2

/-- `legacy_derive_pubkey`. An index of more than 4 bytes raises `OverflowError`, which is no
`ValueError`. -/
def legacyDerivePubkey (branchPoint chainCode : Bytes) (purpose index : ℕ) :
    Except Exn (Option Bytes) :=
  if branchPoint.length ≠ 32 ∨ chainCode.length ≠ 32 then .ok none
  else if 2 ^ 32 ≤ index then .error .other
  else
    let digest := taggedHash d (utf8 "LNURLcash/derive".toList)
      (branchPoint ++ chainCode ++ toBigEndian 4 purpose ++ toBigEndian 4 index)
    .ok (d.xonlyTweakAdd branchPoint (toBigEndian 32 (fromBigEndian digest % curveOrder)))

/-! ## The share on file -/

/-- `_share_on_file`: whether the share is of the superseded form, and its bytes. -/
def shareOnFile (cx1 : Str) : Except Exn (Option (Bool × Bytes)) :=
  match fromhex cx1 with
  | none => .error (.value "non-hexadecimal number found in fromhex() arg")
  | some data =>
    .ok (if data.length = 65 then some (false, data)
      else if data.length = 64 then some (true, data)
      else none)

/-- `_share_xp`: the key that a share's proofs verify against. -/
def shareXp (cx1 : Str) : Except Exn (Option Bytes) :=
  (shareOnFile cx1).map fun share => share.map fun (legacy, data) =>
    if legacy then data.take 32 else data.drop 33

/-- `_share_note_id`: hex of the key of note `index`. -/
def shareNoteId (cx1 : Str) (index : ℕ) : Except Exn (Option Str) := do
  match ← shareOnFile cx1 with
  | none => return none
  | some (true, data) =>
    let pk ← legacyDerivePubkey d (data.take 32) (data.drop 32) purposeLightningAddress index
    return pk.map hex
  | some (false, data) => return (deriveNotePubkey d data index).map hex

/-! ## Signatures -/

/-- What an ownership proof proves. -/
inductive ProofAction
  | register
  | update
  | unregister
deriving DecidableEq

/-- The word for it in the message. -/
def ProofAction.word : ProofAction → Str
  | register => "register".toList
  | update => "update".toList
  | unregister => "unregister".toList

/-- `_register_message`. -/
def registerMessage (action : ProofAction) (domain username cx1 : Str) : Str :=
  match action with
  | .unregister => "LNURLcash:unregister:".toList ++ domain ++ ':' :: username
  | action => "LNURLcash:".toList ++ action.word ++ ':' :: domain ++ ':' :: username ++ ':' :: cx1

/-- `verify_register_signature`. -/
def verifyRegisterSignature (pubkey : Bytes) (signature : Str) (action : ProofAction)
    (domain username cx1 : Str) : Bool :=
  (fromhex signature).any fun sig =>
    d.schnorrVerify pubkey sig (d.sha256 (utf8 (registerMessage action domain username cx1)))

/-! ## Spends -/

namespace Spend

/-- `ParsedK1`: the note a `k1` names and the spend that opens it. -/
structure ParsedK1 where
  /-- Hex of the note's output key. -/
  noteId : Str
  /-- The output key itself, which `verify` reads back off the id. -/
  outputKey : Bytes
  /-- The decoded spend. -/
  spend : d.Spend
  noteId_eq : noteId = hex outputKey

/-- `decode_note`. -/
def decodeNote (value : Str) : Option Str := (d.decodeNote value).map hex

/-- `parse`. -/
def parse (k1 : Str) : Option (ParsedK1 d) :=
  (d.decodeSpend k1).bind fun spend => (d.outputKey spend).map fun q => ⟨hex q, q, spend, rfl⟩

/-- The loop of `verify` over the domains: the last reason, or `none` as soon as one accepts. -/
def rejection (parsed : ParsedK1 d) (now lockedAt : ℤ) (reason : Option String) :
    List Str → Option (Option String)
  | [] => some reason
  | domain :: rest =>
    match d.verifySpend parsed.outputKey domain parsed.spend now lockedAt with
    | none => none
    | some r => rejection parsed now lockedAt (some r) rest

/-- `_INVALID_K1`. -/
def invalidK1 : String := "Invalid or already spent k1."

/-- `verify`: `none` if the spend opens its note on one of the domains, else why not. -/
def verify (parsed : ParsedK1 d) (now lockedAt : ℤ) (domains : List Str) : Option String :=
  match rejection d parsed now lockedAt none domains with
  | none => none
  | some reason => if d.keyPath parsed.spend then some invalidK1 else reason

end Spend

end LnurlMint
