import Pipette.Core.Client

/-! Ids of organizations, accounts and vault resources, the owner of a record, and the paths under
which vault resources are served. -/
namespace Pipette

inductive PrincipalIdError
  | empty (kind : String)
  | charset (kind : String) (ch : Char)
  | missingPrefix (kind required : String)
  | unknownKind (kind : String)
deriving DecidableEq, Repr

def startsWith (start value : String) : Bool := start.toList.isPrefixOf value.toList

def isIdChar (c : Char) : Bool := c.isAlphanum || c = '_' || c = '-'

def checkIdCharset (kind value : String) : Except PrincipalIdError Unit :=
  if value = "" then .error (.empty kind)
  else
    match value.toList.find? fun c => !isIdChar c with
    | some ch => .error (.charset kind ch)
    | none => .ok ()

def checkPrefixedId (kind required value : String) : Except PrincipalIdError Unit := do
  checkIdCharset kind value
  if startsWith required value then pure () else throw (.missingPrefix kind required)

structure PrefixedId (kind required : String) where
  raw : String
  checked : checkPrefixedId kind required raw = .ok ()
deriving DecidableEq

def PrefixedId.tryNew (kind required value : String) :
    Except PrincipalIdError (PrefixedId kind required) :=
  match h : checkPrefixedId kind required (trim value) with
  | .ok () => .ok ⟨trim value, h⟩
  | .error e => .error e

abbrev OrgId := PrefixedId "organization id" "org_"

abbrev UserId := PrefixedId "user id" "user_"

abbrev VaultResourceId := PrefixedId "vault resource id" "vault_"

inductive VaultPrincipalId
  | org (orgId : OrgId)
  | user (userId : UserId)
deriving DecidableEq

def VaultPrincipalId.parse (s : String) : Except PrincipalIdError VaultPrincipalId :=
  let s := trim s
  if startsWith "org_" s then (PrefixedId.tryNew "organization id" "org_" s).map .org
  else if startsWith "user_" s then (PrefixedId.tryNew "user id" "user_" s).map .user
  else .error (.unknownKind "principal id")

inductive PrincipalOwner
  | org (orgId : OrgId)
  | user (userId : UserId)
deriving DecidableEq

namespace PrincipalOwner

def label : PrincipalOwner → String
  | .org orgId => orgId.raw
  | .user userId => userId.raw

def ofPrincipal : VaultPrincipalId → PrincipalOwner
  | .org orgId => .org orgId
  | .user userId => .user userId

end PrincipalOwner

abbrev VaultOwner := PrincipalOwner

inductive ClientOwner
  | org (orgId : String)
  | user (userId : String)
deriving DecidableEq, Repr

structure VaultPath where
  resourceId : VaultResourceId
deriving DecidableEq

inductive VaultPathError
  | shape
  | resourceId (e : PrincipalIdError)
deriving DecidableEq, Repr

def stripPrefix (start : String) (value : List Char) : Option (List Char) :=
  if start.toList.isPrefixOf value then some (value.drop start.toList.length) else none

def stripSuffix (ending : String) (value : List Char) : Option (List Char) :=
  if ending.toList.isSuffixOf value then
    some (value.take (value.length - ending.toList.length))
  else none

theorem stripPrefix_append (start : String) (rest : List Char) :
    stripPrefix start (start.toList ++ rest) = some rest := by
  rw [stripPrefix, if_pos (List.isPrefixOf_iff_prefix.mpr (List.prefix_append _ _)),
    List.drop_left]

theorem stripSuffix_append (ending : String) (rest : List Char) :
    stripSuffix ending (rest ++ ending.toList) = some rest := by
  rw [stripSuffix, if_pos (List.isSuffixOf_iff_suffix.mpr (List.suffix_append _ _)),
    List.length_append, Nat.add_sub_cancel, List.take_left]

def VaultPath.parse (s : String) : Except VaultPathError VaultPath :=
  match (stripPrefix "/vault/resources/" (trim s).toList).bind (stripSuffix "/content") with
  | none => .error .shape
  | some id =>
    match PrefixedId.tryNew "vault resource id" "vault_" (String.ofList id) with
    | .ok resourceId => .ok ⟨resourceId⟩
    | .error e => .error (.resourceId e)

theorem not_isWhitespace_of_isIdChar {c : Char} (h : isIdChar c = true) :
    isWhitespace c = false := by
  rw [isIdChar, Bool.or_eq_true, Bool.or_eq_true, decide_eq_true_eq, decide_eq_true_eq] at h
  obtain (halnum | rfl) | rfl := h
  · have hrange : 48 ≤ c.toNat ∧ c.toNat ≤ 122 := by
      delta Char.isAlphanum Char.isAlpha Char.isUpper Char.isLower Char.isDigit at halnum
      simp only [Bool.or_eq_true, Bool.and_eq_true, decide_eq_true_eq, UInt32.le_iff_toNat_le]
        at halnum
      change ((65 ≤ c.toNat ∧ c.toNat ≤ 90) ∨ 97 ≤ c.toNat ∧ c.toNat ≤ 122) ∨
        48 ≤ c.toNat ∧ c.toNat ≤ 57 at halnum
      omega
    simp only [isWhitespace, decide_eq_false_iff_not, List.mem_cons, List.not_mem_nil, or_false]
    omega
  · decide
  · decide

theorem trim_eq_self {value : String} (h : ∀ c ∈ value.toList, isWhitespace c = false) :
    trim value = value := by
  have hdrop : ∀ l : List Char, (∀ c ∈ l, isWhitespace c = false) → l.dropWhile isWhitespace = l := by
    intro l hl
    cases l with
    | nil => rfl
    | cons c l => rw [List.dropWhile_cons, hl c List.mem_cons_self]; rfl
  have hrev : ∀ c ∈ value.toList.reverse, isWhitespace c = false :=
    fun c hc => h c (List.mem_reverse.mp hc)
  rw [trim, hdrop _ h, hdrop _ hrev, List.reverse_reverse, String.ofList_toList]

theorem checkPrefixedId_eq_ok {kind required value : String}
    (h : checkPrefixedId kind required value = .ok ()) :
    (∀ c ∈ value.toList, isIdChar c = true) ∧ startsWith required value = true := by
  unfold checkPrefixedId checkIdCharset at h
  split at h
  · cases h
  split at h
  · cases h
  next hchars =>
  have hstart : startsWith required value = true := by
    by_contra hstart
    simp [hstart, bind, Except.bind, throw, throwThe, MonadExceptOf.throw] at h
  exact ⟨by simpa using hchars, hstart⟩

theorem PrefixedId.trim_raw {kind required : String} (id : PrefixedId kind required) :
    trim id.raw = id.raw :=
  trim_eq_self fun c hc =>
    not_isWhitespace_of_isIdChar ((checkPrefixedId_eq_ok id.checked).1 c hc)

theorem PrefixedId.tryNew_raw {kind required : String} (id : PrefixedId kind required) :
    PrefixedId.tryNew kind required id.raw = .ok id := by
  obtain ⟨raw, checked⟩ := id
  have htrim : trim raw = raw := PrefixedId.trim_raw ⟨raw, checked⟩
  unfold PrefixedId.tryNew
  split
  · next h => simp only [htrim]
  · next e h =>
    rw [htrim, checked] at h
    cases h

theorem PrincipalOwner.parse_label (owner : PrincipalOwner) :
    (VaultPrincipalId.parse owner.label).map PrincipalOwner.ofPrincipal = .ok owner := by
  cases owner with
  | org orgId =>
    have hstart := (checkPrefixedId_eq_ok orgId.checked).2
    simp only [label, VaultPrincipalId.parse, orgId.trim_raw, hstart, if_true, orgId.tryNew_raw]
    rfl
  | user userId =>
    have hstart := (checkPrefixedId_eq_ok userId.checked).2
    have hother : startsWith "org_" userId.raw = false := by
      rw [startsWith, List.isPrefixOf_iff_prefix] at hstart
      obtain ⟨rest, hrest⟩ := hstart
      rw [startsWith, ← hrest]
      rfl
    simp only [label, VaultPrincipalId.parse, userId.trim_raw, hstart, hother, if_true,
      userId.tryNew_raw]
    rfl

end Pipette
