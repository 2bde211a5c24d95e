import LnurlMint.Addresses
import LnurlMint.Lib.Delimiter
import LnurlMint.Ownership

/-!
# A registration message says one thing

What an ownership proof signs is fields with colons between them: the tag, the action, the domain,
the username and, unless the address is freed, the share. Nothing is escaped, and the domain may
hold colons of its own. The message can be read back all the same, from both ends: the action's
word follows the tag, and the fields after the domain hold no colon, so the last colons are the
ones that separate them. The two shapes of a message, with a share and without, are never compared,
because their words differ.

The text is encoded before it is hashed, and two texts are never encoded alike. So what a proof for
one thing would have to sign, to be a proof for another as well, is two different byte strings.

## Main results

* `registerMessage_fields` — the message fixes what follows the action, where there is a share
* `registration_messages_apart`
-/

namespace LnurlMint

open Delimiter

variable {action action' : ProofAction} {dom dom' username username' cx1 cx1' : Str}

theorem usernamePattern.colon_notMem (h : usernamePattern username = true) : ':' ∉ username := by
  intro hc
  have hmem := usernamePattern.mem h hc
  revert hmem
  decide

/-- What follows the word, where there is a share: the share and the username are cut off at the
last two colons. -/
theorem registerMessage_fields (hu : ':' ∉ username) (hu' : ':' ∉ username') (hc : ':' ∉ cx1)
    (hc' : ':' ∉ cx1') (ha : action ≠ .unregister)
    (h : registerMessage action dom username cx1 = registerMessage action dom' username' cx1') :
    dom = dom' ∧ username = username' ∧ cx1 = cx1' := by
  have hshape : ∀ dom username cx1, registerMessage action dom username cx1 =
      "LNURLcash:".toList ++ action.word ++ ':' :: dom ++ ':' :: username ++ ':' :: cx1 := by
    intro dom username cx1
    cases action with
    | unregister => exact absurd rfl ha
    | _ => rfl
  rw [hshape, hshape, append_eq_append_iff_of_notMem hc hc',
    append_eq_append_iff_of_notMem hu hu'] at h
  obtain ⟨⟨hdom, hname⟩, hshare⟩ := h
  have hdom := List.append_cancel_left hdom
  exact ⟨(List.cons.inj hdom).2, hname, hshare⟩

/-- What follows the word, where there is none: the username is cut off at the last colon. -/
theorem registerMessage_unregister (hu : ':' ∉ username) (hu' : ':' ∉ username')
    (h : registerMessage .unregister dom username cx1 =
      registerMessage .unregister dom' username' cx1') : dom = dom' ∧ username = username' := by
  have hshape : ∀ dom username cx1, registerMessage .unregister dom username cx1 =
      "LNURLcash:unregister:".toList ++ dom ++ ':' :: username := fun _ _ _ => rfl
  rw [hshape, hshape, append_eq_append_iff_of_notMem hu hu'] at h
  exact ⟨List.append_cancel_left h.1, h.2⟩

/-- **Registration messages never collide.** Whatever the domains, two messages about usernames of
the pattern and shares without a colon are the same only if the action, the domain, the username
and, unless the address is freed, the share are. A signature that verifies for two that differ
verifies two different byte strings. -/
theorem registration_messages_apart (hu : usernamePattern username = true)
    (hu' : usernamePattern username' = true) (hc : ':' ∉ cx1) (hc' : ':' ∉ cx1') :
    (registerMessage action dom username cx1 = registerMessage action' dom' username' cx1' →
      action = action' ∧ dom = dom' ∧ username = username' ∧
        (action ≠ .unregister → cx1 = cx1')) ∧
    ∀ (d : Deps) (key : Bytes) (sig : Str),
      verifyRegisterSignature d key sig action dom username cx1 = true →
      verifyRegisterSignature d key sig action' dom' username' cx1' = true →
      (action ≠ action' ∨ dom ≠ dom' ∨ username ≠ username' ∨
        action ≠ .unregister ∧ cx1 ≠ cx1') →
      ∃ data text text' : Bytes, fromhex sig = some data ∧ text ≠ text' ∧
        d.schnorrVerify key data (d.sha256 text) = true ∧
        d.schnorrVerify key data (d.sha256 text') = true := by
  have happart : registerMessage action dom username cx1 =
      registerMessage action' dom' username' cx1' →
      action = action' ∧ dom = dom' ∧ username = username' ∧
        (action ≠ .unregister → cx1 = cx1') := by
    intro h
    have hname := usernamePattern.colon_notMem hu
    have hname' := usernamePattern.colon_notMem hu'
    obtain rfl : action = action' := registerMessage_action h
    by_cases ha : action = .unregister
    · subst ha
      obtain ⟨hdom, hnames⟩ := registerMessage_unregister hname hname' h
      exact ⟨rfl, hdom, hnames, fun ha => absurd rfl ha⟩
    · obtain ⟨hdom, hnames, hshare⟩ := registerMessage_fields hname hname' hc hc' ha h
      exact ⟨rfl, hdom, hnames, fun _ => hshare⟩
  refine ⟨happart, fun d key sig hv hv' hne => ?_⟩
  obtain ⟨data, hdata, hok⟩ := (Option.any_eq_true _ _).1 hv
  obtain ⟨data', hdata', hok'⟩ := (Option.any_eq_true _ _).1 hv'
  obtain rfl : data = data' := Option.some.inj (hdata.symm.trans hdata')
  refine ⟨data, _, _, hdata, ?_, hok, hok'⟩
  intro htext
  obtain ⟨ha, hdom, hname, hshare⟩ := happart (utf8_injective htext)
  rcases hne with hne | hne | hne | ⟨hact, hne⟩
  · exact hne ha
  · exact hne hdom
  · exact hne hname
  · exact hne (hshare hact)

/-- A domain with colons: the username cannot be moved into it. -/
theorem registration_messages_apart_ipv6 :
    registerMessage .register "::1".toList "bob".toList "cx1a".toList ≠
      registerMessage .register "::1:bob".toList "cx1a".toList "cx1a".toList := by
  have hname : usernamePattern "bob".toList = true := by decide
  have hname' : usernamePattern "cx1a".toList = true := by decide
  have hshare : ':' ∉ "cx1a".toList := by decide
  intro h
  obtain ⟨-, hdom, -⟩ := (registration_messages_apart hname hname' hshare hshare).1 h
  revert hdom
  decide

end LnurlMint
