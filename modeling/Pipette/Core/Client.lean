import Mathlib.Data.Finset.Dedup
import Mathlib.Data.Finset.Union
import Pipette.Core.Json

/-! Device clients: ids, the flags a device profile normalizes to, and the flag namespaces. -/
namespace Pipette

structure ClientId where
  raw : String
deriving DecidableEq, Repr

structure Tag where
  raw : String
deriving DecidableEq, Repr

inductive ClientStatus where
  | pending
  | approved
deriving DecidableEq, Repr

inductive ClientPermission where
  | submitResults
  | performWork
deriving DecidableEq, Repr

inductive DeviceFormFactor where
  | phone
  | tablet
  | laptop
  | desktop
  | server
  | embedded
deriving DecidableEq, Repr

namespace DeviceFormFactor

def text : DeviceFormFactor → String
  | .phone => "phone"
  | .tablet => "tablet"
  | .laptop => "laptop"
  | .desktop => "desktop"
  | .server => "server"
  | .embedded => "embedded"

def parse (value : String) : Option DeviceFormFactor :=
  [.phone, .tablet, .laptop, .desktop, .server, .embedded].find? fun ff => ff.text = value

end DeviceFormFactor

structure DeviceProfile where
  deviceName : Option String := none
  deviceFormFactor : Option DeviceFormFactor := none
  deviceOsName : Option String := none
  deviceOsVersion : Option String := none
  deviceCpuArch : Option String := none
  deviceOsFamily : Option String := none
  deviceChipModel : Option String := none
  deviceRamBytes : Option Nat := none
  deviceGpuModel : Option String := none
  deviceGpuVramBytes : Option Nat := none
  deviceNpuModel : Option String := none
  deviceNpuVramBytes : Option Nat := none
deriving DecidableEq, Repr

structure Client where
  clientId : ClientId
  status : ClientStatus
  deviceProfile : DeviceProfile
  capabilities : Finset String
deriving DecidableEq

def splitOnce (sep : Char) (text : String) : Option (String × String) :=
  match text.toList.dropWhile (· ≠ sep) with
  | [] => none
  | _ :: rest => some (String.ofList (text.toList.takeWhile (· ≠ sep)), String.ofList rest)

def reservedCapabilityNamespaces : List String :=
  ["os", "os_version", "arch", "os_family", "device", "chip", "form_factor", "ram_bytes",
    "gpu", "gpu_vram_bytes", "npu", "npu_vram_bytes"]

def isReservedCapability (flag : String) : Bool :=
  (splitOnce ':' flag).any fun parts => decide (parts.1 ∈ reservedCapabilityNamespaces)

def tagNamespace : String := "tag"

def tagFlag (tag : Tag) : String := tagNamespace ++ ":" ++ tag.raw

def isTagCapability (flag : String) : Bool :=
  (splitOnce ':' flag).any fun parts => decide (parts.1 = tagNamespace)

def clientVersionNamespace : String := "client_version"

def clientVersionOf (flag : String) : Option String :=
  ((splitOnce ':' flag).filter fun parts => decide (parts.1 = clientVersionNamespace)).map
    Prod.snd

def isWhitespace (c : Char) : Bool :=
  let n := c.toNat
  decide (9 ≤ n ∧ n ≤ 13 ∨ 0x2000 ≤ n ∧ n ≤ 0x200A ∨
    n ∈ [0x20, 0x85, 0xA0, 0x1680, 0x2028, 0x2029, 0x202F, 0x205F, 0x3000])

def trim (value : String) : String :=
  String.ofList ((value.toList.dropWhile isWhitespace).reverse.dropWhile isWhitespace).reverse

/-- A flag's canonical form: lowercase, all whitespace removed. Lowercasing is that of ASCII;
letters outside it are kept. -/
def slugify (value : String) : String :=
  String.ofList ((value.toList.filter fun c => !isWhitespace c).map Char.toLower)

def canonicalCpuArch (value : String) : String :=
  let slug := slugify value
  if slug ∈ ["amd64", "x64", "x86-64", "x86_64"] then "x86_64"
  else if slug ∈ ["aarch64", "arm64-v8a", "arm64e", "arm64"] then "arm64"
  else slug

/-- `darwin` is the kernel of every Apple platform, so the form factor decides. -/
def canonicalOsFamily (value : String) (formFactor : Option DeviceFormFactor) : String :=
  let slug := slugify value
  if slug = "darwin" then
    match formFactor with
    | some .phone | some .tablet => "ios"
    | _ => "macos"
  else if slug ∈ ["macos", "macosx", "osx"] then "macos"
  else if slug ∈ ["win32", "win64", "windows"] then "windows"
  else if slug ∈ ["ipados", "ios"] then "ios"
  else slug

def profileFlag (ns : String) (value : Option String) : List String :=
  (value.map fun v => ns ++ ":" ++ v).toList

def normalizedFlags (profile : DeviceProfile) : Finset String :=
  (profileFlag "device" (profile.deviceName.map slugify) ++
    profileFlag "os" (profile.deviceOsName.map slugify) ++
    profileFlag "os_version" (profile.deviceOsVersion.map slugify) ++
    profileFlag "chip" (profile.deviceChipModel.map slugify) ++
    profileFlag "gpu" (profile.deviceGpuModel.map slugify) ++
    profileFlag "npu" (profile.deviceNpuModel.map slugify) ++
    profileFlag "arch" (profile.deviceCpuArch.map canonicalCpuArch) ++
    profileFlag "os_family"
      (profile.deviceOsFamily.map fun v => canonicalOsFamily v profile.deviceFormFactor) ++
    profileFlag "form_factor" (profile.deviceFormFactor.map fun ff => slugify ff.text) ++
    profileFlag "ram_bytes" (profile.deviceRamBytes.map toString) ++
    profileFlag "gpu_vram_bytes" (profile.deviceGpuVramBytes.map toString) ++
    profileFlag "npu_vram_bytes" (profile.deviceNpuVramBytes.map toString)).toFinset

def Client.effectiveCapabilities (client : Client) : Finset String :=
  normalizedFlags client.deviceProfile ∪ client.capabilities

end Pipette
