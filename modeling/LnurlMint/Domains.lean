import LnurlMint.Addresses
import LnurlMint.Lib.Delimiter
import LnurlMint.Redemptions

/-!
# The mint's name and the names a spend may carry

A spend is bound to one of `Settings.spendDomains`, the hosts of the configured URLs. Certificates
and ownership proofs are bound to `_domain`, which is meant to be one of them. It is computed from
the same URLs by reading twice: the host is read off the public URL, put behind two slashes and read
again. The first reading takes an IPv6 address out of its brackets, and without them the second one
takes its first colon for that of a port. What is left of `2001:db8::1` is `2001`.

A host without a colon is read the same twice, and one that begins with a colon is kept as a whole,
because the second reading finds no host in it.

Either reading may raise: the first one of the request's own URL, which is its `Host` header's, the
second one of a host that is no authority. Then no domain is named.

`urlsplit` is modelled here as far as the host goes. Its checks on a Unicode or bracketed authority,
which only make it raise, are a parameter.

## Main definitions

* `Url.hostname` — `urlsplit(url).hostname`
* `ReadsUrls`, `LowersLetters` — what is relied on of the packages
* `NamesSpendDomain`, `SurvivesReading`

## Main results

* `Url.hostname_rstripSlash` — the slashes at the end of a URL do not hide its host
* `ReadsUrls.hostname_again` — the second reading cuts at the first colon
* `ReadsUrls.mintDomain_eq_ok_iff` — what `_domain` returns, and when
* `names_spend_domain_iff`
-/

namespace LnurlMint

open Delimiter

/-! ## `urllib.parse` -/

namespace Url

/-- `_WHATWG_C0_CONTROL_OR_SPACE`. -/
def isC0OrSpace (c : Char) : Bool := c.toNat ≤ 32

/-- `_UNSAFE_URL_BYTES_TO_REMOVE`. -/
def removed : Str := ['\t', '\r', '\n']

/-- What `urlsplit` reads of a URL. -/
def cleaned (url : Str) : Str := (url.dropWhile isC0OrSpace).filter fun c => c ∉ removed

/-- `scheme_chars`. -/
def schemeChars : Str :=
  "abcdefghijklmnopqrstuvwxyzABCDEFGHIJKLMNOPQRSTUVWXYZ0123456789+-.".toList

/-- The URL without its scheme. -/
def afterScheme (url : Str) : Str :=
  let scheme := before ':' url
  if ':' ∈ url ∧ scheme.head?.any Char.isAlpha = true ∧
      scheme.all (fun c => c ∈ schemeChars) = true then afterFirst ':' url
  else url

/-- What ends the authority. -/
def delimiters : Str := ['/', '?', '#']

/-- `_splitnetloc`, and empty where there is no authority. -/
def netloc (url : Str) : Str :=
  let rest := afterScheme (cleaned url)
  if rest.take 2 = ['/', '/'] then (rest.drop 2).takeWhile fun c => c ∉ delimiters else []

/-- `_hostinfo`'s host. -/
def hostinfo (netloc : Str) : Str :=
  let hostinfo := afterLast '@' netloc
  if '[' ∈ hostinfo then before ']' (afterFirst '[' hostinfo) else before ':' hostinfo

variable (checks : Str → Option String)

/-- What the `ValueError` says that `urlsplit` raises of this authority, if it raises one. -/
def refusal (netloc : Str) : Option String :=
  if '[' ∈ netloc ↔ ']' ∈ netloc then checks netloc else some "Invalid IPv6 URL"

variable (d : Deps)

/-- The lower case of a host, except for an IPv6 address's zone. -/
def lowered (host : Str) : Str := d.lower (before '%' host) ++ host.dropWhile (· ≠ '%')

/-- `urlsplit(url)` does not raise. -/
def splits (url : Str) : Bool := (refusal checks (netloc url)).isNone

/-- `urlsplit(url).hostname`, or what it raises. -/
def hostname (url : Str) : Except String (Option Str) :=
  match refusal checks (netloc url) with
  | some text => .error text
  | none =>
    .ok (if hostinfo (netloc url) = [] then none else some (lowered d (hostinfo (netloc url))))

variable {checks d} in
theorem hostname_eq_ok_iff {url : Str} {o : Option Str} : hostname checks d url = .ok o ↔
    splits checks url = true ∧
      (if hostinfo (netloc url) = [] then none else some (lowered d (hostinfo (netloc url)))) =
        o := by
  rw [hostname, splits]
  cases refusal checks (netloc url) <;> simp

example : hostinfo (netloc "https://user@Mint.Example:8080/".toList) = "Mint.Example".toList := by
  decide

/-! ### The slashes at the end -/

section Slashes

variable {slashes : Str} (hs : ∀ c ∈ slashes, c = '/')
include hs

theorem slash_notMem_of_ne {x : Char} (hx : x ≠ '/') : x ∉ slashes := fun h => hx (hs x h)

theorem cleaned_append (url : Str) : cleaned (url ++ slashes) = cleaned url ++ slashes := by
  have hdrop : slashes.dropWhile isC0OrSpace = slashes := by
    cases slashes with
    | nil => rfl
    | cons c rest =>
      rw [hs c List.mem_cons_self]
      rfl
  have hfilter : slashes.filter (fun c => c ∉ removed) = slashes := by
    refine List.filter_eq_self.2 fun c hc => ?_
    rw [hs c hc]
    decide
  have happend : (url ++ slashes).dropWhile isC0OrSpace =
      url.dropWhile isC0OrSpace ++ slashes := by
    rw [List.dropWhile_append]
    split
    · rename_i hempty
      rw [hdrop, List.isEmpty_iff.1 hempty]
      rfl
    · rfl
  rw [cleaned, happend, List.filter_append, hfilter]
  rfl

theorem afterScheme_append (url : Str) :
    afterScheme (url ++ slashes) = afterScheme url ++ slashes := by
  have hcolon : ':' ∉ slashes := slash_notMem_of_ne hs (by decide)
  rw [afterScheme, afterScheme]
  by_cases hmem : ':' ∈ url
  · simp only [before_append_of_mem hmem, afterFirst_append_of_mem hmem, List.mem_append, hmem,
      true_or]
    split <;> rfl
  · have hnot : ':' ∉ url ++ slashes := by
      rw [List.mem_append, not_or]
      exact ⟨hmem, hcolon⟩
    rw [if_neg fun h => hnot h.1, if_neg fun h => hmem h.1]

theorem takeWhile_slashes (n : ℕ) : ((slashes.drop n).takeWhile fun c => c ∉ delimiters) = [] := by
  cases hn : slashes.drop n with
  | nil => rfl
  | cons c rest =>
    have hc : c ∈ slashes := List.mem_of_mem_drop (hn ▸ List.mem_cons_self)
    rw [hs c hc]
    rfl

/-- A slash at the end is no part of an authority. -/
theorem netloc_append {url : Str} (h : netloc (url ++ slashes) ≠ []) :
    netloc (url ++ slashes) = netloc url := by
  rw [netloc, cleaned_append hs, afterScheme_append hs] at h ⊢
  rw [netloc]
  generalize afterScheme (cleaned url) = rest at h ⊢
  -- an authority takes a character after the two slashes before it
  have hshort : ∀ n, (rest ++ slashes).drop 2 = slashes.drop n → False := by
    intro n hn
    refine h ?_
    rw [hn, takeWhile_slashes hs, ite_self]
  cases rest with
  | nil => exact (hshort 2 rfl).elim
  | cons c rest =>
    cases rest with
    | nil => exact (hshort 1 rfl).elim
    | cons c' rest =>
      have hafter : ((rest ++ slashes).takeWhile fun c => c ∉ delimiters) =
          rest.takeWhile fun c => c ∉ delimiters := by
        rw [List.takeWhile_append]
        split
        · rename_i hlen
          have hnone := takeWhile_slashes hs 0
          rw [List.drop_zero] at hnone
          rw [hnone, List.append_nil]
          exact ((List.takeWhile_prefix _).eq_of_length hlen).symm
        · rfl
      show (if [c, c'] = ['/', '/'] then (rest ++ slashes).takeWhile _ else []) =
        if [c, c'] = ['/', '/'] then rest.takeWhile _ else []
      rw [hafter]

end Slashes

theorem exists_slashes (url : Str) :
    ∃ slashes : Str, (∀ c ∈ slashes, c = '/') ∧ url = rstripSlash url ++ slashes := by
  refine ⟨(url.reverse.takeWhile (· = '/')).reverse, fun c hc => ?_, ?_⟩
  · have hslash := List.mem_takeWhile_imp (List.mem_reverse.1 hc)
    exact of_decide_eq_true hslash
  · rw [rstripSlash, ← List.reverse_append, List.takeWhile_append_dropWhile, List.reverse_reverse]

/-- **A URL has its host with or without the slashes at its end.** -/
theorem hostname_rstripSlash {url host : Str} (h : hostname checks d url = .ok (some host)) :
    hostname checks d (rstripSlash url) = .ok (some host) := by
  obtain ⟨slashes, hs, hurl⟩ := exists_slashes url
  have hne : netloc url ≠ [] := by
    intro hnil
    obtain ⟨-, hread⟩ := hostname_eq_ok_iff.1 h
    rw [hnil] at hread
    cases hread
  have hnet : netloc (rstripSlash url) = netloc url := by
    conv_rhs => rw [hurl]
    exact (netloc_append hs (hurl ▸ hne)).symm
  rwa [hostname, hnet]

/-! ### The host that is read -/

theorem mem_netloc {url : Str} {c : Char} (h : c ∈ netloc url) : c ∉ delimiters ∧ c ∉ removed := by
  have hcleaned : ∀ {c}, c ∈ cleaned url → c ∉ removed := fun hc =>
    of_decide_eq_true (List.mem_filter.1 hc).2
  have hafter : ∀ {c}, c ∈ afterScheme (cleaned url) → c ∈ cleaned url := by
    intro c hc
    rw [afterScheme] at hc
    split at hc
    exacts [mem_of_mem_afterFirst hc, hc]
  rw [netloc] at h
  split at h
  · have hdelim := List.mem_takeWhile_imp h
    refine ⟨of_decide_eq_true hdelim, hcleaned (hafter ?_)⟩
    exact List.mem_of_mem_drop ((List.takeWhile_prefix _).subset h)
  · cases h

theorem mem_hostinfo {netloc : Str} {c : Char} (h : c ∈ hostinfo netloc) :
    c ∈ netloc ∧ c ≠ '@' := by
  have hafter : c ∈ afterLast '@' netloc := by
    rw [hostinfo] at h
    split at h
    exacts [mem_of_mem_afterFirst (mem_of_mem_before h), mem_of_mem_before h]
  exact ⟨mem_of_mem_afterLast hafter, ne_of_mem_of_not_mem hafter (sep_notMem_afterLast '@' _)⟩

/-- A host has one kind of bracket at most. -/
theorem bracket_notMem_hostinfo (netloc : Str) :
    '[' ∉ hostinfo netloc ∨ ']' ∉ hostinfo netloc := by
  rw [hostinfo]
  split
  · exact .inr (sep_notMem_before ']' _)
  · rename_i hbracket
    exact .inl fun h => hbracket (mem_of_mem_before h)

/-! ### Reading it again -/

theorem netloc_host {host : Str} (h : ∀ c ∈ host, c ∉ delimiters ∧ c ∉ removed) :
    netloc ("//".toList ++ host) = host := by
  have hcleaned : cleaned ("//".toList ++ host) = '/' :: '/' :: host := by
    show (('/' :: '/' :: host).dropWhile isC0OrSpace).filter _ = _
    rw [List.dropWhile_cons_of_neg (by decide)]
    refine List.filter_eq_self.2 fun c hc => decide_eq_true ?_
    rcases List.mem_cons.1 hc with rfl | hc
    · decide
    rcases List.mem_cons.1 hc with rfl | hc
    · decide
    · exact (h c hc).2
  have hafter : afterScheme ('/' :: '/' :: host) = '/' :: '/' :: host := by
    refine if_neg fun hand => ?_
    have hhead := hand.2.1
    rw [before, List.takeWhile_cons_of_pos (by decide)] at hhead
    have hslash : ('/' : Char).isAlpha = true := hhead
    revert hslash
    decide
  rw [netloc, hcleaned, hafter]
  show host.takeWhile _ = host
  exact List.takeWhile_eq_self_iff.2 fun c hc => decide_eq_true (h c hc).1

theorem hostinfo_host {host : Str} (hat : '@' ∉ host) (hbracket : '[' ∉ host) :
    hostinfo host = before ':' host := by
  rw [hostinfo, afterLast_of_notMem hat]
  exact if_neg hbracket

end Url

/-! ## Lower case -/

/-- What is relied on of Unicode's lower case: outside ASCII, a character becomes characters that
are their own lower case, and a character of ASCII among them is a letter. -/
structure LowersLetters (d : Deps) : Prop where
  ne_nil : ∀ c : Char, 128 ≤ c.toNat → d.lowerChar c ≠ []
  own : ∀ c : Char, 128 ≤ c.toNat → ∀ x ∈ d.lowerChar c,
    x.isLower = true ∨ (128 ≤ x.toNat ∧ d.lowerChar x = [x])

section Lower

variable {d : Deps}

theorem ascii_of_isLower {c : Char} (h : c.isLower = true) : c.toNat < 128 ∧ c.toLower = c := by
  have hlt : c.toNat < 128 := by
    have hle : c.toNat ≤ 122 := by
      have hand := (Bool.and_eq_true _ _ ▸ h : _ ∧ _).2
      simpa [UInt32.le_iff_toNat_le] using hand
    omega
  have hall : ∀ n < 128, (Char.ofNat n).isLower = true → (Char.ofNat n).toLower = Char.ofNat n := by
    decide
  have hc := hall c.toNat hlt
  rw [Char.ofNat_toNat] at hc
  exact ⟨hlt, hc h⟩

theorem toLower_ascii {c : Char} (h : c.toNat < 128) : c.toLower.toNat < 128 ∧
    c.toLower.toLower = c.toLower ∧ (c.toLower = c ∨ c.toLower.isLower = true) := by
  have hall : ∀ n < 128, (Char.ofNat n).toLower.toNat < 128 ∧
      (Char.ofNat n).toLower.toLower = (Char.ofNat n).toLower ∧
      ((Char.ofNat n).toLower = Char.ofNat n ∨ (Char.ofNat n).toLower.isLower = true) := by
    decide
  have hc := hall c.toNat h
  rwa [Char.ofNat_toNat] at hc

theorem lower_append (s t : Str) : d.lower (s ++ t) = d.lower s ++ d.lower t :=
  List.flatMap_append

theorem lower_cons (c : Char) (s : Str) : d.lower (c :: s) = d.lower [c] ++ d.lower s :=
  lower_append [c] s

theorem lower_singleton (c : Char) :
    d.lower [c] = if c.toNat < 128 then [c.toLower] else d.lowerChar c := by
  rw [Deps.lower, List.flatMap_singleton]

theorem lower_eq_self {s : Str} (h : ∀ c ∈ s, d.lower [c] = [c]) : d.lower s = s := by
  induction s with
  | nil => rfl
  | cons c s ih =>
    rw [lower_cons, h c List.mem_cons_self, ih fun c hc => h c (List.mem_cons_of_mem _ hc)]
    rfl

theorem mem_lower {x : Char} {s : Str} (h : x ∈ d.lower s) : ∃ c ∈ s, x ∈ d.lower [c] := by
  obtain ⟨c, hc, hx⟩ := List.mem_flatMap.1 h
  exact ⟨c, hc, by rwa [lower_singleton]⟩

variable (hd : LowersLetters d)
include hd

/-- What a character becomes is its own lower case, and a letter unless it is the character or
outside ASCII. -/
theorem LowersLetters.mem_lower_singleton {c x : Char} (h : x ∈ d.lower [c]) :
    d.lower [x] = [x] ∧ (x = c ∨ x.isLower = true ∨ 128 ≤ x.toNat) := by
  rw [lower_singleton] at h ⊢
  by_cases hc : c.toNat < 128
  · rw [if_pos hc, List.mem_singleton] at h
    subst h
    obtain ⟨hlt, htwice, hletter⟩ := toLower_ascii hc
    rw [if_pos hlt, htwice]
    exact ⟨rfl, hletter.imp id .inl⟩
  · rw [if_neg hc] at h
    rcases hd.own c (Nat.not_lt.1 hc) x h with hletter | ⟨hx, hself⟩
    · obtain ⟨hlt, hself⟩ := ascii_of_isLower hletter
      rw [if_pos hlt, hself]
      exact ⟨rfl, .inr (.inl hletter)⟩
    · rw [if_neg (Nat.not_lt.2 hx)]
      exact ⟨hself, .inr (.inr hx)⟩

/-- Lower case is reached at once. -/
theorem LowersLetters.lower_lower (s : Str) : d.lower (d.lower s) = d.lower s := by
  refine lower_eq_self fun x hx => ?_
  obtain ⟨c, -, hx⟩ := mem_lower hx
  exact (hd.mem_lower_singleton hx).1

/-- A character of ASCII that is no letter is in the lower case of a text only if it is in it. -/
theorem LowersLetters.mem_of_mem_lower {x : Char} {s : Str} (h : x ∈ d.lower s)
    (hascii : x.toNat < 128) (hletter : x.isLower = false) : x ∈ s := by
  obtain ⟨c, hc, hx⟩ := mem_lower h
  rcases (hd.mem_lower_singleton hx).2 with rfl | hlow | hout
  · exact hc
  · rw [hletter] at hlow
    cases hlow
  · omega

theorem LowersLetters.lower_eq_nil {s : Str} (h : d.lower s = []) : s = [] := by
  cases s with
  | nil => rfl
  | cons c s =>
    rw [lower_cons, List.append_eq_nil_iff, lower_singleton] at h
    by_cases hc : c.toNat < 128
    · rw [if_pos hc] at h
      cases h.1
    · rw [if_neg hc] at h
      exact absurd h.1 (hd.ne_nil c (Nat.not_lt.1 hc))

theorem LowersLetters.length_le (s : Str) : s.length ≤ (d.lower s).length := by
  induction s with
  | nil => exact Nat.zero_le _
  | cons c s ih =>
    have hpos : 0 < (d.lower [c]).length := List.length_pos_iff.2 fun h => by
      cases hd.lower_eq_nil h
    rw [lower_cons, List.length_append, List.length_cons]
    omega

/-- A host's lower case is that of the text it was read from. -/
theorem LowersLetters.lower_lowered (host : Str) : d.lower (Url.lowered d host) = d.lower host := by
  rw [Url.lowered, lower_append, hd.lower_lower, ← lower_append, before,
    List.takeWhile_append_dropWhile]

theorem LowersLetters.lowered_ne_nil {host : Str} (h : host ≠ []) : Url.lowered d host ≠ [] := by
  intro hnil
  have hlow := hd.lower_lowered host
  rw [hnil] at hlow
  exact h (hd.lower_eq_nil hlow.symm)

theorem LowersLetters.mem_of_mem_lowered {x : Char} {host : Str} (h : x ∈ Url.lowered d host)
    (hascii : x.toNat < 128) (hletter : x.isLower = false) : x ∈ host := by
  rcases List.mem_append.1 h with h | h
  · exact mem_of_mem_before (hd.mem_of_mem_lower h hascii hletter)
  · exact (List.dropWhile_suffix _).subset h

end Lower

/-! ## The two readings of a host -/

section Reading

variable {d : Deps} {checks : Str → Option String} {cfg : Settings d}
  {baseUrl base host dom : Str}

/-- The package reads hosts as above, and lower case is Unicode's. -/
structure ReadsUrls (d : Deps) (checks : Str → Option String) : Prop where
  hostname : ∀ url, d.hostname url = Url.hostname checks d url
  lowers : LowersLetters d

/-- What a host that was read is written with. -/
theorem ReadsUrls.mem_host (hd : ReadsUrls d checks) {url : Str} 
    (h : d.hostname url = .ok (some host)) :
    (∀ c ∈ host, c ∉ Url.delimiters ∧ c ∉ Url.removed) ∧ '@' ∉ host ∧
      ('[' ∉ host ∨ ']' ∉ host) := by
  rw [hd.hostname, Url.hostname_eq_ok_iff] at h
  obtain ⟨-, h⟩ := h
  split at h
  · cases h
  · cases h
    have plain : ∀ {x : Char}, x ∈ Url.lowered d (Url.hostinfo (Url.netloc url)) →
        x.toNat < 128 → x.isLower = false → x ∈ Url.hostinfo (Url.netloc url) :=
      fun hx hascii hletter => hd.lowers.mem_of_mem_lowered hx hascii hletter
    have hplain : ∀ c ∈ Url.delimiters ++ Url.removed, c.toNat < 128 ∧ c.isLower = false :=
      forall_mem_of_all (by decide)
    refine ⟨fun c hc => ?_, fun hat => ?_, ?_⟩
    · rw [← not_or, ← List.mem_append]
      intro hmem
      obtain ⟨hascii, hletter⟩ := hplain c hmem
      obtain ⟨hdelim, hremoved⟩ := Url.mem_netloc (Url.mem_hostinfo (plain hc hascii hletter)).1
      exact (List.mem_append.1 hmem).elim hdelim hremoved
    · exact (Url.mem_hostinfo (plain hat (by decide) (by decide))).2 rfl
    · refine (Url.bracket_notMem_hostinfo (Url.netloc url)).imp (fun hnot hb => ?_)
        fun hnot hb => ?_
      · exact hnot (plain hb (by decide) (by decide))
      · exact hnot (plain hb (by decide) (by decide))

/-- **A host is cut at its first colon when it is read again.** -/
theorem ReadsUrls.hostname_again (hd : ReadsUrls d checks) {url : Str}
    (h : d.hostname url = .ok (some host))
    (hsplits : Url.splits checks ("//".toList ++ host) = true) :
    d.hostname ("//".toList ++ host) =
      .ok (if before ':' host = [] then none else some (Url.lowered d (before ':' host))) := by
  obtain ⟨hclean, hat, hbrackets⟩ := hd.mem_host h
  have hnet : Url.netloc ("//".toList ++ host) = host := Url.netloc_host hclean
  have hboth : '[' ∈ host ↔ ']' ∈ host := by
    by_contra hone
    rw [Url.splits, hnet, Url.refusal, if_neg hone] at hsplits
    cases hsplits
  have hopen : '[' ∉ host := hbrackets.elim id fun hclose => mt hboth.1 hclose
  rw [hd.hostname, Url.hostname_eq_ok_iff, hnet, Url.hostinfo_host hat hopen]
  exact ⟨hsplits, rfl⟩

theorem urlHost_eq_ok_iff {url : Str} {o : Option Str} :
    d.urlHost url = .ok o ↔ d.hostname url = .ok o := by
  rw [Deps.urlHost]
  cases d.hostname url <;> simp [Except.mapError]

/-- What `_domain` returns: it raises just where the host cannot be read again. -/
theorem ReadsUrls.mintDomain_eq_ok_iff (hd : ReadsUrls d checks)
    (h : cfg.publicBaseUrlAndHost baseUrl = .ok (base, host)) :
    mintDomain cfg baseUrl = .ok dom ↔ Url.splits checks ("//".toList ++ host) = true ∧
      d.lower (if before ':' host = [] then host else before ':' host) = dom := by
  have hread := urlHost_eq_ok_iff.1 (Settings.publicBaseUrlAndHost_eq_ok.1 h).2
  rw [mintDomain, h]
  dsimp only [Bind.bind, Except.bind]
  by_cases hsplits : Url.splits checks ("//".toList ++ host) = true
  · rw [urlHost_eq_ok_iff.2 (hd.hostname_again hread hsplits)]
    dsimp only
    rw [eq_true hsplits, true_and]
    by_cases hnil : before ':' host = []
    · rw [if_pos hnil, if_pos hnil]
      exact Iff.of_eq (Except.ok.injEq _ _)
    · rw [if_neg hnil, if_neg hnil, ← hd.lowers.lower_lowered (before ':' host)]
      cases hname : Url.lowered d (before ':' host) with
      | nil => exact absurd hname (hd.lowers.lowered_ne_nil hnil)
      | cons c name => exact Iff.of_eq (Except.ok.injEq _ _)
  · refine iff_of_false (fun hdom => ?_) fun hand => hsplits hand.1
    cases hagain : d.urlHost ("//".toList ++ host) with
    | error e =>
      rw [hagain] at hdom
      cases hdom
    | ok o =>
      have hread := urlHost_eq_ok_iff.1 hagain
      rw [hd.hostname, Url.hostname_eq_ok_iff] at hread
      exact hsplits hread.1

/-! ## The mint's URLs -/

/-- The URLs that the mint is configured with. -/
def Settings.urls (cfg : Settings d) : List Str :=
  cfg.baseUrl :: match cfg.onionUrl with
    | some onion => if onion ≠ [] then [onion] else []
    | none => []

theorem mem_foldl_seen {x : Str} {l acc : List Str} :
    x ∈ l.foldl (fun seen h => if h ∈ seen then seen else seen ++ [h]) acc ↔ x ∈ acc ∨ x ∈ l := by
  induction l generalizing acc with
  | nil => simp
  | cons h l ih =>
    rw [List.foldl_cons, ih, List.mem_cons]
    by_cases hmem : h ∈ acc
    · rw [if_pos hmem]
      constructor
      · exact fun hx => hx.imp id .inr
      · rintro (hx | rfl | hx)
        exacts [.inl hx, .inl hmem, .inr hx]
    · rw [if_neg hmem, List.mem_append, List.mem_singleton, or_assoc]

theorem spendDomains_eq (cfg : Settings d) : cfg.spendDomains =
    ((cfg.urls.map d.hostname).filterMap fun h => h.toOption.join.bind fun h =>
      if h ≠ [] then some (d.lower h) else none).foldl
        (fun seen h => if h ∈ seen then seen else seen ++ [h]) [] := by
  rw [Settings.spendDomains, Settings.urls]
  cases cfg.onionUrl with
  | none => rfl
  | some onion =>
    by_cases hne : onion = []
    · subst hne
      rfl
    · simp only [ne_eq, hne, not_false_eq_true, if_true, List.map_cons, List.map_nil]

/-- The spend domains are the hosts of these URLs, in lower case. -/
theorem mem_spendDomains_iff {x : Str} : x ∈ cfg.spendDomains ↔
    ∃ url ∈ cfg.urls, ∃ host, d.hostname url = .ok (some host) ∧ host ≠ [] ∧
      x = d.lower host := by
  rw [spendDomains_eq, mem_foldl_seen, List.mem_filterMap]
  constructor
  · rintro (hx | ⟨h, hmem, hx⟩)
    · cases hx
    obtain ⟨url, hurl, rfl⟩ := List.mem_map.1 hmem
    obtain ⟨host, hhost, hx⟩ := Option.bind_eq_some_iff.1 hx
    have hhost : d.hostname url = .ok (some host) := by
      revert hhost
      rcases d.hostname url with _ | o
      · rintro ⟨⟩
      · exact fun ho => congrArg Except.ok (Option.join_eq_some_iff.1 ho |> Option.some.inj)
    by_cases hne : host ≠ []
    · rw [if_pos hne] at hx
      exact ⟨url, hurl, host, hhost, hne, (Option.some.inj hx).symm⟩
    · rw [if_neg hne] at hx
      cases hx
  · rintro ⟨url, hurl, host, hhost, hne, rfl⟩
    refine .inr ⟨_, List.mem_map_of_mem hurl, ?_⟩
    rw [hhost]
    exact if_pos hne

/-- The public URL is one of these, but for slashes at its end. -/
theorem publicBaseUrl_eq (h : cfg.publicBaseUrl baseUrl = .ok base) :
    ∃ url ∈ cfg.urls, base = rstripSlash url ∧
      ∃ host, host ≠ [] ∧ d.hostname url = .ok (some host) := by
  have hbase : ∃ url ∈ cfg.urls, rstripSlash cfg.baseUrl = rstripSlash url ∧
      ∃ host, host ≠ [] ∧ d.hostname url = .ok (some host) :=
    ⟨_, List.mem_cons_self, rfl, cfg.baseUrl_hostname⟩
  rw [Settings.publicBaseUrl] at h
  split at h
  · rename_i onion honion
    split at h
    · cases h
      exact hbase
    · rename_i hne
      obtain ⟨requestHost, -, h⟩ := bind_eq_ok.1 h
      obtain ⟨onionHost, -, h⟩ := bind_eq_ok.1 h
      split at h
      · cases h
        refine ⟨onion, List.mem_cons_of_mem _ ?_, rfl, cfg.onionUrl_hostname onion honion⟩
        rw [honion]
        simp [hne]
      · cases h
        exact hbase
  · cases h
    exact hbase

/-- The public host is that of one of these URLs. -/
theorem ReadsUrls.publicHost (hd : ReadsUrls d checks)
    (h : cfg.publicBaseUrlAndHost baseUrl = .ok (base, host)) :
    host ≠ [] ∧ ∃ url ∈ cfg.urls, d.hostname url = .ok (some host) := by
  obtain ⟨hbase, hread⟩ := Settings.publicBaseUrlAndHost_eq_ok.1 h
  obtain ⟨url, hurl, rfl, host', hne, hhost'⟩ := publicBaseUrl_eq hbase
  have hread' : d.hostname (rstripSlash url) = .ok (some host') := by
    rw [hd.hostname] at hhost' ⊢
    exact Url.hostname_rstripSlash checks d hhost'
  cases (urlHost_eq_ok_iff.1 hread).symm.trans hread'
  exact ⟨hne, url, hurl, hhost'⟩

/-- `_domain`, where it returns, returns one of the hosts that a spend may be bound to. -/
def NamesSpendDomain (cfg : Settings d) (baseUrl : Str) : Prop :=
  ∀ dom, mintDomain cfg baseUrl = .ok dom → dom ∈ cfg.spendDomains

/-- The public host, where the request's URL lets one be read, survives being read again: it has no
colon, or begins with one; or `urlsplit` refuses it; or, by chance, what is before its first colon
is the host of the mint's other URL. -/
def SurvivesReading (checks : Str → Option String) (cfg : Settings d) (baseUrl : Str) : Prop :=
  ∀ base host, cfg.publicBaseUrlAndHost baseUrl = .ok (base, host) →
    Url.splits checks ("//".toList ++ host) = true → ':' ∈ host → before ':' host ≠ [] →
    ∃ url ∈ cfg.urls, ∃ other, d.hostname url = .ok (some other) ∧ other ≠ host ∧
      d.lower other = d.lower (before ':' host)

/-- **The mint names one domain, but for an IPv6 host.** Whatever URLs it is configured with and
however a request reached it, `_domain` is one of the hosts that a spend may be bound to, or raises,
exactly if the public host survives being read again. -/
theorem names_spend_domain_iff (hd : ReadsUrls d checks) (cfg : Settings d) (baseUrl : Str) :
    NamesSpendDomain cfg baseUrl ↔ SurvivesReading checks cfg baseUrl := by
  constructor
  · intro h base host hbase hsplits hcolon hne
    have hdom := (hd.mintDomain_eq_ok_iff hbase).2 ⟨hsplits, rfl⟩
    rw [if_neg hne] at hdom
    obtain ⟨url, hurl, other, hother, -, he⟩ := mem_spendDomains_iff.1 (h _ hdom)
    refine ⟨url, hurl, other, hother, ?_, he.symm⟩
    -- the whole host is longer than what is before its colon
    rintro rfl
    obtain ⟨rest, hrest⟩ := exists_of_mem hcolon
    have hlen : (d.lower other).length = (d.lower (before ':' other ++ ':' :: rest)).length :=
      congrArg (fun s => (d.lower s).length) hrest
    rw [lower_append, List.length_append, ← he] at hlen
    have hpos := hd.lowers.length_le (':' :: rest)
    rw [List.length_cons] at hpos
    omega
  · intro h dom hdom
    obtain ⟨base, host, hbase⟩ := publicBaseUrlAndHost_of_mintDomain hdom
    obtain ⟨hsplits, hdom⟩ := (hd.mintDomain_eq_ok_iff hbase).1 hdom
    obtain ⟨hhost, url, hurl, hread⟩ := hd.publicHost hbase
    have hwhole : d.lower host ∈ cfg.spendDomains :=
      mem_spendDomains_iff.2 ⟨url, hurl, host, hread, hhost, rfl⟩
    by_cases hnil : before ':' host = []
    · rw [if_pos hnil] at hdom
      exact hdom ▸ hwhole
    rw [if_neg hnil] at hdom
    by_cases hcolon : ':' ∈ host
    · obtain ⟨url', hurl', other, hother, -, he⟩ := h base host hbase hsplits hcolon hnil
      have hne : other ≠ [] := by
        rintro rfl
        have hlow : d.lower (before ':' host) = [] := he.symm
        exact hnil (hd.lowers.lower_eq_nil hlow)
      exact mem_spendDomains_iff.2
        ⟨url', hurl', other, hother, hne, by rw [he, hdom]⟩
    · rw [before_of_notMem hcolon] at hdom
      exact hdom ▸ hwhole

end Reading

/-! ## Two configurations -/

/-- The stand-in, with URLs that are read. -/
def Deps.reading : Deps := { Deps.standIn with
  hostname := Url.hostname (fun _ => none) .standIn }

theorem readsUrls_reading : ReadsUrls .reading fun _ => none where
  hostname _ := rfl
  lowers :=
    { ne_nil := fun c _ => List.cons_ne_nil c []
      own := fun c hc x hx => by
        obtain rfl : x = c := List.mem_singleton.1 hx
        exact .inr ⟨hc, rfl⟩ }

/-- A mint under a name, with a port and in mixed case, and under an onion address. -/
def Settings.named : Settings .reading := { Settings.standIn with
  baseUrl := "https://Mint.Example:8443/".toList
  onionUrl := some "http://abc.onion".toList
  baseUrl_hostname := ⟨"mint.example".toList, by decide, by rfl⟩
  onionUrl_hostname := by
    rintro u ⟨⟩
    exact ⟨"abc.onion".toList, by decide, by rfl⟩ }

theorem names_spend_domain_iff_named :
    NamesSpendDomain Settings.named "http://ABC.onion/".toList := by
  refine (names_spend_domain_iff readsUrls_reading _ _).2 fun base host h _ hcolon => ?_
  have hhost : Settings.named.publicBaseUrlAndHost "http://ABC.onion/".toList =
      .ok ("http://abc.onion".toList, "abc.onion".toList) := by rfl
  cases hhost.symm.trans h
  have hnone : ':' ∉ "abc.onion".toList := by decide
  exact absurd hcolon hnone

/-- A mint under an IPv6 address. -/
def Settings.ipv6 : Settings .reading := { Settings.standIn with
  baseUrl := "https://[2001:DB8::1]:8443/".toList
  baseUrl_hostname := ⟨"2001:db8::1".toList, by decide, by rfl⟩
  onionUrl_hostname := by
    rintro u ⟨⟩ }

/-- What it signs for names `2001`, and a spend is for `2001:db8::1`. -/
theorem ipv6_names_no_spend_domain :
    ¬NamesSpendDomain Settings.ipv6 "https://[2001:DB8::1]:8443/".toList ∧
      mintDomain Settings.ipv6 "https://[2001:DB8::1]:8443/".toList = .ok "2001".toList ∧
      Settings.ipv6.spendDomains = ["2001:db8::1".toList] := by
  have hdom : mintDomain Settings.ipv6 "https://[2001:DB8::1]:8443/".toList =
      .ok "2001".toList := by rfl
  have hspend : Settings.ipv6.spendDomains = ["2001:db8::1".toList] := by decide
  refine ⟨fun h => ?_, hdom, hspend⟩
  have hmem := h _ hdom
  rw [hspend] at hmem
  revert hmem
  decide

end LnurlMint
