import Pipette.Pipeline.VaultCheck

/-! Which devices may fetch the bytes of a vault resource, and the check a claim makes of a job
body. -/
namespace Pipette

open VaultCheck

structure OrgStore where
  getOwnership : ClientId → Except String (Option ClientOwner)
  getMembership : String → Except String (Option String)

def orgOf (orgs : OrgStore) : ClientOwner → Except String (Option String)
  | .org orgId => .ok (some orgId)
  | .user userId => orgs.getMembership userId

def owningOrg (orgs : OrgStore) (client : ClientId) : Except String (Option String) := do
  match ← orgs.getOwnership client with
  | none => pure none
  | some owner => orgOf orgs owner

def clientMayFetch (orgs : OrgStore) (client : ClientId) : VaultOwner → Except String Bool
  | .user userId => do
    let deviceOwner ← orgs.getOwnership client
    pure (deviceOwner = some (.user userId.raw))
  | .org orgId => do
    let own ← owningOrg orgs client
    pure (own = some orgId.raw)

inductive ClaimError
  | malformedSource (kind : JobRejection)
  | malformedPrincipal (e : PrincipalIdError)
  | store (reason : String)
deriving DecidableEq

def ownerOf (principal : String) : Except ClaimError VaultOwner :=
  match (VaultPrincipalId.parse principal).map PrincipalOwner.ofPrincipal with
  | .ok owner => .ok owner
  | .error e => .error (.malformedPrincipal e)

def mayFetch (orgs : OrgStore) (client : ClientId) (owner : VaultOwner) :
    Except ClaimError Bool :=
  match clientMayFetch orgs client owner with
  | .ok may => .ok may
  | .error e => .error (.store e)

/-- Whether the client may fetch every vault resource a body names, by the principals the plan
wrote. -/
def clientMayFetchJob (orgs : OrgStore) (client : ClientId) (body : Json) :
    Except ClaimError Bool :=
  match vaultRefs body with
  | .error kind => .error (.malformedSource kind)
  | .ok refs => do
    let principals := (refs.map (·.principal)).dedup
    let owners ← principals.mapM ownerOf
    let fetchable ← owners.mapM (mayFetch orgs client)
    pure (fetchable.all id)

/-- The claim's check reads each principal the plan wrote as an owner the client may fetch from. -/
theorem clientMayFetchJob_sound {orgs : OrgStore} {client : ClientId} {body : Json}
    {refs : List VaultRef} (hrefs : vaultRefs body = .ok refs)
    (h : clientMayFetchJob orgs client body = .ok true) {ref : VaultRef} (href : ref ∈ refs) :
    ∃ owner, ownerOf ref.principal = .ok owner ∧ clientMayFetch orgs client owner = .ok true := by
  simp only [clientMayFetchJob, hrefs] at h
  obtain ⟨owners, howners, h⟩ := Result.bind_eq_ok h
  obtain ⟨fetchable, hfetchable, h⟩ := Result.bind_eq_ok h
  have hall : fetchable.all id = true := Except.ok.inj h
  obtain ⟨owner, howner, hparse⟩ :=
    Result.mapM_mem howners (List.mem_dedup.mpr (List.mem_map_of_mem href))
  obtain ⟨may, hmay, hfetch⟩ := Result.mapM_mem hfetchable howner
  obtain rfl : may = true := List.all_eq_true.mp hall may hmay
  refine ⟨owner, hparse, ?_⟩
  unfold mayFetch at hfetch
  split at hfetch
  · next hfetch' =>
    cases hfetch
    exact hfetch'
  · cases hfetch

theorem ownerOf_label (owner : VaultOwner) : ownerOf owner.label = .ok owner := by
  rw [ownerOf, owner.parse_label]

/-- Vault reach is sound end to end: the principals that the claim checks were tied to the owners
of the records when the body was accepted. -/
theorem vault_reach_sound (orgs : OrgStore) (client : ClientId) (scope : VaultScope)
    (filed now : VaultStore) (hfiled : Unchanged filed now) (seen : SeenMap)
    (hseen : SeenBy scope now seen) (body : Json)
    (haccepted : (check filed scope body seen).1 = .ok ())
    (hclaim : clientMayFetchJob orgs client body = .ok true)
    (fields : List (String × Json)) (hsource : Within (.obj fields) body)
    (hvault : Json.isVaultSource fields = true) (key text : String) (path : VaultPath)
    (hfield : (key, .str text) ∈ fields) (hkey : key ≠ "principal_id" ∧ key ≠ "custom_label")
    (hpath : VaultPath.parse text = .ok path) :
    ∃ resource, now.getResource path.resourceId = .ok (some resource) ∧
      clientMayFetch orgs client resource.owner = .ok true ∧
      scope.admits resource.owner = true := by
  obtain ⟨refs, hrefs, hsound⟩ := check_sound hfiled hseen.sound haccepted
  have hmem : (key, path) ∈ vaultPaths fields := by
    refine List.mem_filterMap.mpr ⟨(key, .str text), hfield, ?_⟩
    simp [vaultPath, hkey, Json.asStr, hpath, Except.toOption]
  obtain ⟨ref, href, hid⟩ := vaultRefs_complete hrefs hsource hvault hmem
  obtain ⟨s, ⟨resource, hresource, hadmits, howner⟩, hprincipal⟩ := hsound ref href
  obtain ⟨owner, hparse, hfetch⟩ := clientMayFetchJob_sound hrefs hclaim href
  rw [← hprincipal, howner, ownerOf_label] at hparse
  cases hparse
  exact ⟨resource, hid ▸ hresource, hfetch, hadmits⟩

def accountId : UserId := ⟨"user_1", rfl⟩

def weightsId : VaultResourceId := ⟨"vault_1", rfl⟩

def accountVault : VaultStore where
  getResource id := .ok (if id = weightsId then
    some ⟨weightsId, "weights", .user accountId, "user_1/blobs/1", "1"⟩ else none)
  statBlob _ := .ok (some 1)

def accountDevices : OrgStore where
  getOwnership _ := .ok (some (.user "user_1"))
  getMembership _ := .ok none

def weightsSource : List (String × Json) :=
  [("source", .str "vault_url"), ("url", .str "/vault/resources/vault_1/content"),
    ("principal_id", .str " user_1 ")]

def weightsBody : Json := .obj [("spec", .obj [("model", .obj weightsSource)])]

/-- The second check of one set, with the record as the first one read it. -/
theorem vault_reach_sound_account :
    ∃ resource, accountVault.getResource weightsId = .ok (some resource) ∧
      clientMayFetch accountDevices ⟨"c"⟩ resource.owner = .ok true ∧
      (VaultScope.own accountId none).admits resource.owner = true :=
  vault_reach_sound accountDevices ⟨"c"⟩ (.own accountId none) accountVault accountVault
    (fun _ _ h => h) _ (.check .nil (fun _ _ h => h) weightsBody) weightsBody rfl rfl weightsSource
    (.field List.mem_cons_self (.field List.mem_cons_self (.self _))) (by decide) "url"
    "/vault/resources/vault_1/content" ⟨weightsId⟩ (by decide) (by decide) rfl

end Pipette
