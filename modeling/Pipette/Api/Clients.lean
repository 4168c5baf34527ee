import Pipette.Api.Plans
import Pipette.Core.ContentKey
import Pipette.Lib.Result

/-! A device's own record: `PATCH /clients/me`. A change of what jobs are matched against takes the
client's leases back. -/
namespace Pipette

/-- The profile as an update sets it; a field that is absent is left as stored. The form factor is
a text, so that a value outside the set is refused by the server. -/
structure DeviceProfileFields where
  deviceName : Option String := none
  deviceFormFactor : Option String := none
  deviceOsName : Option String := none
  deviceOsVersion : Option String := none
  deviceCpuArch : Option String := none
  deviceOsFamily : Option String := none
  deviceChipModel : Option String := none
  deviceRamBytes : Option Nat := none
  deviceGpuModel : Option String := none
  deviceGpuVramBytes : Option Nat := none
  deviceNpuModel : Option String := none
  deviceNpuVramBytes : Option Nat := none

/-- Capabilities, when present, replace the stored set whole. -/
structure UpdateClient where
  device : DeviceProfileFields := {}
  capabilities : Option (Finset String) := none

def invalidFormFactor : String :=
  "Invalid device_form_factor (must be one of: phone, tablet, laptop, desktop, server, embedded)"

def DeviceProfileFields.applyTo (update : DeviceProfileFields) (base : DeviceProfile) :
    Except String DeviceProfile := do
  let formFactor ←
    match update.deviceFormFactor with
    | none => pure base.deviceFormFactor
    | some raw =>
      match DeviceFormFactor.parse (trim raw) with
      | some parsed => pure (some parsed)
      | none => throw invalidFormFactor
  pure
    { deviceName := update.deviceName <|> base.deviceName
      deviceFormFactor := formFactor
      deviceOsName := update.deviceOsName <|> base.deviceOsName
      deviceOsVersion := update.deviceOsVersion <|> base.deviceOsVersion
      deviceCpuArch := update.deviceCpuArch <|> base.deviceCpuArch
      deviceOsFamily := update.deviceOsFamily <|> base.deviceOsFamily
      deviceChipModel := update.deviceChipModel <|> base.deviceChipModel
      deviceRamBytes := update.deviceRamBytes <|> base.deviceRamBytes
      deviceGpuModel := update.deviceGpuModel <|> base.deviceGpuModel
      deviceGpuVramBytes := update.deviceGpuVramBytes <|> base.deviceGpuVramBytes
      deviceNpuModel := update.deviceNpuModel <|> base.deviceNpuModel
      deviceNpuVramBytes := update.deviceNpuVramBytes <|> base.deviceNpuVramBytes }

def validateDeviceProfile (profile : DeviceProfile) : Except String Unit :=
  if profile.deviceOsVersion.isSome && profile.deviceOsName.isNone then
    throw "device_os_version requires device_os_name"
  else if profile.deviceGpuVramBytes.isSome && profile.deviceGpuModel.isNone then
    throw "device_gpu_vram_bytes requires device_gpu_model"
  else if profile.deviceNpuVramBytes.isSome && profile.deviceNpuModel.isNone then
    throw "device_npu_vram_bytes requires device_npu_model"
  else pure ()

def validateCapability (cap : String) : Except String Unit :=
  if trim cap = "" then throw "capability flag must not be empty"
  else if cap ≠ slugify cap then
    throw ("capability flag '" ++ cap ++ "' must be lowercase with no whitespace")
  else if isReservedCapability cap then
    throw ("capability flag '" ++ cap ++
      "' uses a reserved namespace (server-owned, derived from the device profile)")
  else if isTagCapability cap then
    throw ("capability flag '" ++ cap ++
      "' names a tag; an operator assigns tags (pre-auth key, `clients tag add`)")
  else pure ()

def validateCapabilities (capabilities : Finset String) : Except String Unit :=
  (ContentKey.sorted capabilities).forM validateCapability

/-- The record an update asks for. The merged profile is validated, so that a lone field is checked
against what is stored. -/
def UpdateClient.mergeInto (body : UpdateClient) (read : Client) : Except String Client := do
  let profile ← body.device.applyTo read.deviceProfile
  validateDeviceProfile profile
  match body.capabilities with
  | none => pure { read with deviceProfile := profile }
  | some capabilities =>
    validateCapabilities capabilities
    pure { read with deviceProfile := profile, capabilities }

theorem mergeInto_clientId {body : UpdateClient} {read client : Client}
    (h : body.mergeInto read = .ok client) : client.clientId = read.clientId := by
  obtain ⟨profile, -, h⟩ := Result.bind_eq_ok h
  obtain ⟨_, -, h⟩ := Result.bind_eq_ok h
  split at h
  · cases h
    rfl
  · obtain ⟨_, -, h⟩ := Result.bind_eq_ok h
    cases h
    rfl

def matchingInputChanged (read client : Client) : Bool :=
  decide (client.deviceProfile ≠ read.deviceProfile) ||
    decide (client.capabilities ≠ read.capabilities)

/-- A result may land while its job is recycled. -/
def deleteRecycledEntryIfRecorded (j : JobId) : Op Bool := do
  match ← findJob j with
  | none => pure false
  | some _ =>
    deleteAvailByJob j
    pure true

def relinquishLease (l : Lease) : Op Unit := do
  match ← resolveOrRecycleLease l with
  | .recycled =>
    let _ ← deleteRecycledEntryIfRecorded l.jobId
  | .resolvedStale | .gone => pure ()

/-- A renewal past its flag check can still rename a lease, so the partition is listed again until
it is clean. The last pass only verifies. -/
def relinquishPasses (c : ClientId) : Nat → Op Unit
  | 0 => do
    let leases ← Op.queue (.listLeasedOf c)
    if leases.isEmpty then pure ()
    else Op.fail (.internal
      "the client still holds leases after 2 relinquish passes; failing profile update")
  | passes + 1 => do
    let leases ← Op.queue (.listLeasedOf c)
    if leases.isEmpty then pure ()
    else
      leases.forM relinquishLease
      relinquishPasses c passes

def relinquishClientLeases (c : ClientId) : Op Unit := relinquishPasses c 2

structure ClientProfile where
  client : Client
  tags : FleetTags
  reindexPending : Bool

/-- The record is replaced only if it is still the one that was read. A flag that postdates it
cannot be consumed by a rebuild that read the old one. -/
def persistUpdate (read client : Client) (changed : Bool) : Op ClientProfile := do
  if ← Op.fleet (.replaceClient read client) then
    if changed then Op.index (.writePendingReindex client.clientId)
    let tags ← Op.fleet (.clientTags client.clientId)
    let reindexPending ← Op.index (.hasPendingReindex client.clientId)
    pure { client, tags, reindexPending }
  else Op.fail .conflict

/-- `PATCH /clients/me`. Both repairs run before the record is written; the flag goes first, as it
gates `claim`. -/
def updateOwnClient (read : Client) (body : UpdateClient) : Op ClientProfile :=
  match body.mergeInto read with
  | .error message => Op.fail (.badRequest message)
  | .ok client => do
    let changed := matchingInputChanged read client
    if changed then
      Op.index (.writePendingReindex client.clientId)
      relinquishClientLeases client.clientId
    persistUpdate read client changed

end Pipette
