import Pipette.Api.ReplayCache
import Pipette.Core.Principal

/-! HTTP message signatures in the server's one profile: the signature base a request yields, and
what a signer writes. The structured-field library is given by its round trips. -/
namespace Pipette.HttpSig

def isVisible (c : Char) : Bool := 0x20 ≤ c.toNat && c.toNat ≤ 0x7e

structure SfvInteger where
  value : Int
  bounded : value.natAbs ≤ 999999999999999
deriving DecidableEq

structure SfvString where
  value : String
  visible : value.toList.all isVisible = true
deriving DecidableEq

inductive BareItem
  | integer (i : SfvInteger)
  | decimal (thousandths : Int)
  | string (s : SfvString)
  | token (s : String)
  | byteSequence (bytes : List UInt8)
  | boolean (b : Bool)
  | date (seconds : Int)
  | displayString (s : String)
deriving DecidableEq

structure Item where
  bareItem : BareItem
  params : List (String × BareItem)
deriving DecidableEq

structure InnerList where
  items : List Item
  params : List (String × BareItem)
deriving DecidableEq

inductive ListEntry
  | item (i : Item)
  | innerList (l : InnerList)
deriving DecidableEq

abbrev Dictionary := List (String × ListEntry)

/-- The structured-field library and base64: what is written is read back. -/
structure FieldCodec where
  parse : String → Option Dictionary
  serializeInnerList : InnerList → Option String
  base64 : List UInt8 → String
  parse_innerList : ∀ l text, serializeInnerList l = some text →
    parse ("sig=" ++ text) = some [("sig", .innerList l)]
  parse_bytes : ∀ key ∈ ["sig", "sha-256"], ∀ bytes,
    parse (key ++ "=:" ++ base64 bytes ++ ":") = some [(key, .item ⟨.byteSequence bytes, []⟩)]
  innerList_visible : ∀ l text, serializeInnerList l = some text →
    text.toList.all isVisible = true ∧ text.toList.getLast? ≠ some ' '
  base64_visible : ∀ bytes, (base64 bytes).toList.all isVisible = true

inductive HeaderName
  | signatureInput
  | signature
  | contentDigest
  | host
  | transferEncoding
  | contentLength
deriving DecidableEq, Repr

inductive HttpSigError
  | missingHeader (name : HeaderName)
  | stale (skewSecs : Int)
  | expired
  | profile (reason : String)
deriving DecidableEq, Repr

abbrev HeaderMap := HeaderName → List String

/-- A request's head. The method and the parts of the target are checked when they are read, and
none holds a newline. -/
structure Parts where
  method : String
  uriAuthority : Option String
  path : String
  query : Option String
  headers : HeaderMap
  oneLine : ∀ text ∈ method :: path :: (uriAuthority.toList ++ query.toList), '\n' ∉ text.toList

/-- `HeaderValue::to_str`: visible ASCII, or a tab. -/
def toStr (value : String) : Option String :=
  if value.toList.all fun c => isVisible c || c = '\t' then some value else none

def toAsciiLowercase (text : String) : String := String.ofList (text.toList.map Char.toLower)

/-- The authority a request arrived for, lowercased: its target's, else its `Host`. -/
def authority (parts : Parts) : Option String :=
  (parts.uriAuthority.or ((parts.headers .host).head?.bind toStr)).map toAsciiLowercase

def combined (headers : HeaderMap) (name : HeaderName) : Except HttpSigError String :=
  match (headers name).mapM toStr with
  | none => .error (.profile "a header that is not visible ASCII")
  | some [] => .error (.missingHeader name)
  | some values => .ok (", ".intercalate (values.map trim))

def single (headers : HeaderMap) (name : HeaderName) : Except HttpSigError String :=
  if (headers name).length > 1 then .error (.profile "a request carries one signature")
  else combined headers name

def dictionary (codec : FieldCodec) (field : String) : Except HttpSigError Dictionary :=
  match codec.parse field with
  | some dict => .ok dict
  | none => .error (.profile "a malformed structured field")

def onlyMember : Dictionary → Except HttpSigError (String × ListEntry)
  | [member] => .ok member
  | _ => .error (.profile "a request carries one signature")

def serializeInnerList (codec : FieldCodec) (list : InnerList) : Except HttpSigError String :=
  match codec.serializeInnerList list with
  | some text => .ok text
  | none => .error (.profile "an empty inner list")

def signatureInput (codec : FieldCodec) (field : String) :
    Except HttpSigError (String × InnerList) := do
  match ← onlyMember (← dictionary codec field) with
  | (label, .innerList list) => pure (label, list)
  | (_, .item _) => throw (.profile "Signature-Input must be an inner list")

def signatureField (codec : FieldCodec) (field : String) :
    Except HttpSigError (String × List UInt8) := do
  match ← onlyMember (← dictionary codec field) with
  | (label, .item ⟨.byteSequence bytes, []⟩) => pure (label, bytes)
  | (_, .item ⟨_, []⟩) => throw (.profile "Signature must be a byte sequence")
  | (_, .item ⟨_, _ :: _⟩) => throw (.profile "signature parameters belong on Signature-Input")
  | (_, .innerList _) => throw (.profile "Signature must be a byte sequence")

structure Crypto where
  sha256 : List UInt8 → List UInt8
  sha256_length : ∀ body, (sha256 body).length = 32
  sign : String → List UInt8
  sign_length : ∀ base, (sign base).length = 64

def contentDigest (codec : FieldCodec) (crypto : Crypto) (body : List UInt8) : String :=
  "sha-256" ++ "=:" ++ codec.base64 (crypto.sha256 body) ++ ":"

def contentSha256 (codec : FieldCodec) (field : String) : Except HttpSigError (List UInt8) := do
  let refusal := HttpSigError.profile "Content-Digest must be a single sha-256"
  match onlyMember (← dictionary codec field) with
  | .ok ("sha-256", .item ⟨.byteSequence digest, []⟩) =>
    if digest.length = 32 then pure digest else throw refusal
  | _ => throw refusal

/-- The value of a decimal `u64`, with the leading `+` that `str::parse` takes. -/
def parseU64 (text : String) : Option Nat :=
  let digits := match text.toList with
    | '+' :: rest => rest
    | other => other
  if digits.isEmpty || !digits.all Char.isDigit then none
  else
    let value := digits.foldl (fun n c => 10 * n + (c.toNat - '0'.toNat)) 0
    if value < 2 ^ 64 then some value else none

def declaresBody (headers : HeaderMap) : Bool :=
  !(headers .transferEncoding).isEmpty ||
    (((headers .contentLength).head?.bind toStr).bind fun v => parseU64 (trim v)).any (· > 0)

inductive Component
  | method
  | authority
  | path
  | query
  | contentDigest
deriving DecidableEq, Repr

namespace Component

def text : Component → String
  | .method => "@method"
  | .authority => "@authority"
  | .path => "@path"
  | .query => "@query"
  | .contentDigest => "content-digest"

def all : List Component := [.method, .authority, .path, .query, .contentDigest]

def parse (name : String) : Option Component := all.find? fun c => c.text = name

def required : List Component := [.method, .authority, .path, .query]

end Component

def component (item : Item) : Except HttpSigError Component :=
  match item with
  | ⟨_, _ :: _⟩ => .error (.profile "component parameters are outside the profile")
  | ⟨.string name, []⟩ =>
    match Component.parse name.value with
    | some c => .ok c
    | none => .error (.profile "a component outside the profile")
  | ⟨_, []⟩ => .error (.profile "a component is a string")

def componentsFrom (seen : List Component) : List Item → Except HttpSigError (List Component)
  | [] => pure []
  | item :: rest => do
    let c ← component item
    if c ∈ seen then throw (.profile "a component covered twice")
    let others ← componentsFrom (c :: seen) rest
    pure (c :: others)

def components (list : InnerList) : Except HttpSigError (List Component) := do
  let covered ← componentsFrom [] list.items
  if Component.required.any (· ∉ covered) then
    throw (.profile "the signature must cover @method, @authority, @path and @query")
  pure covered

abbrev UserKeyId := PrefixedId "user key id" "userkey_"

def isNonce (s : String) : Bool :=
  1 ≤ s.utf8ByteSize && s.utf8ByteSize ≤ 256 && s.toList.all isVisible

structure Nonce where
  value : String
  checked : isNonce value = true
deriving DecidableEq

def Nonce.tryNew (s : String) : Option Nonce :=
  if h : isNonce s = true then some ⟨s, h⟩ else none

inductive ParamName
  | created
  | expires
  | nonce
  | keyId
  | alg
  | tag
deriving DecidableEq, Repr

namespace ParamName

def text : ParamName → String
  | .created => "created"
  | .expires => "expires"
  | .nonce => "nonce"
  | .keyId => "keyid"
  | .alg => "alg"
  | .tag => "tag"

def parse (name : String) : Option ParamName :=
  [.created, .expires, .nonce, .keyId, .alg, .tag].find? fun p => p.text = name

end ParamName

structure RawParams where
  created : Option Int := none
  expires : Option Int := none
  nonce : Option String := none
  keyId : Option String := none
  alg : Option String := none
  tag : Option String := none

def integerOf : BareItem → Except HttpSigError Int
  | .integer i => .ok i.value
  | _ => .error (.profile "a parameter of the wrong type")

def stringOf : BareItem → Except HttpSigError String
  | .string s => .ok s.value
  | _ => .error (.profile "a parameter of the wrong type")

def RawParams.read (raw : RawParams) (param : String × BareItem) :
    Except HttpSigError RawParams := do
  match ParamName.parse param.1 with
  | none => throw (.profile "a parameter outside the profile")
  | some .created => return { raw with created := some (← integerOf param.2) }
  | some .expires => return { raw with expires := some (← integerOf param.2) }
  | some .nonce => return { raw with nonce := some (← stringOf param.2) }
  | some .keyId => return { raw with keyId := some (← stringOf param.2) }
  | some .alg => return { raw with alg := some (← stringOf param.2) }
  | some .tag => return { raw with tag := some (← stringOf param.2) }

structure Params where
  keyId : UserKeyId
  created : Int
  nonce : Nonce
deriving DecidableEq

/-- `DateTime::from_timestamp`: the seconds that are a date of the calendar. -/
def fromTimestamp (seconds : Int) : Option Int :=
  if -8334601228800 ≤ seconds ∧ seconds ≤ 8210266876799 then some seconds else none

def ofOption {α : Type} (reason : String) : Option α → Except HttpSigError α
  | some a => .ok a
  | none => .error (.profile reason)

def RawParams.fields (raw : RawParams) : Except HttpSigError Params := do
  if raw.alg ≠ some "ed25519" then throw (.profile "alg must be \"ed25519\"")
  if raw.tag ≠ some "pipette" then throw (.profile "tag must be \"pipette\"")
  let nonce ← ofOption "nonce is required" raw.nonce
  let nonce ← ofOption "nonce must be 1 to 256 visible characters" (Nonce.tryNew nonce)
  let keyId ← ofOption "keyid is required" raw.keyId
  let keyId ← ofOption "keyid is not a user key id"
    (PrefixedId.tryNew "user key id" "userkey_" keyId).toOption
  let created ← ofOption "created is required" (raw.created.bind fromTimestamp)
  pure ⟨keyId, created, nonce⟩

def Params.check (list : InnerList) (now : Instant) (maxSkew : Int) :
    Except HttpSigError Params := do
  let raw ← list.params.foldlM RawParams.read {}
  let params ← raw.fields
  let skew : Int := now - params.created * nanosPerSec
  if (skew.natAbs : Int) > maxSkew then throw (.stale (numSeconds skew))
  if raw.expires.any (· ≤ now / nanosPerSec) then throw .expired
  pure params

def sfvText (s : String) : Except HttpSigError BareItem :=
  if h : s.toList.all isVisible = true then .ok (.string ⟨s, h⟩)
  else .error (.profile "a value that is not visible ASCII")

def sfvInteger (i : Int) : Except HttpSigError BareItem :=
  if h : i.natAbs ≤ 999999999999999 then .ok (.integer ⟨i, h⟩)
  else .error (.profile "created out of range")

def innerList (covered : List Component) (created : Int) (nonce : Nonce) (keyId : UserKeyId) :
    Except HttpSigError InnerList := do
  let created ← sfvInteger created
  let items ← covered.mapM fun c => (sfvText c.text).map fun text => ⟨text, []⟩
  let nonce ← sfvText nonce.value
  let keyId ← sfvText keyId.raw
  let alg ← sfvText "ed25519"
  let tag ← sfvText "pipette"
  pure
    { items
      params := [("created", created), ("nonce", nonce), ("keyid", keyId), ("alg", alg),
        ("tag", tag)] }

structure Target where
  method : String
  authority : String
  path : String
  query : String
  contentDigest : Option String

def digestField (headers : HeaderMap) : Except HttpSigError (Option String) :=
  match combined headers .contentDigest with
  | .ok field => .ok (some field)
  | .error (.missingHeader _) => .ok none
  | .error e => .error e

namespace Target

def normalPath (path : String) : String := if path = "" then "/" else path

def new (method authority path query : String) (contentDigest : Option String) : Target where
  method := method
  authority := toAsciiLowercase authority
  path := normalPath path
  query := "?" ++ query
  contentDigest := contentDigest

def ofRequest (parts : Parts) : Except HttpSigError Target := do
  let authority ← ofOption "the request names no authority (Host)" (HttpSig.authority parts)
  let contentDigest ← digestField parts.headers
  pure (new parts.method authority parts.path (parts.query.getD "") contentDigest)

def outgoing (method authority pathAndQuery : String) (contentDigest : Option String) : Target :=
  let (path, query) := (splitOnce '?' pathAndQuery).getD (pathAndQuery, "")
  new method authority path query contentDigest

def value (target : Target) : Component → Except HttpSigError String
  | .method => .ok target.method
  | .authority => .ok target.authority
  | .path => .ok target.path
  | .query => .ok target.query
  | .contentDigest =>
    match target.contentDigest with
    | some field => .ok field
    | none => .error (.missingHeader .contentDigest)

end Target

def signatureBase (params : String) : List (String × String) → String
  | [] => "\"@signature-params\": " ++ params
  | (name, value) :: rest =>
    "\"" ++ name ++ "\": " ++ value ++ "\n" ++ signatureBase params rest

def Target.base (target : Target) (covered : List Component) (params : String) :
    Except HttpSigError String := do
  let lines ← covered.mapM fun c => (target.value c).map fun value => (c.text, value)
  pure (signatureBase params lines)

structure Verifiable where
  keyId : UserKeyId
  created : Int
  nonce : Nonce
  signature : List UInt8
  contentSha256 : Option (List UInt8)
  authority : String
  base : String
deriving DecidableEq

def coveredSha256 (codec : FieldCodec) (headers : HeaderMap) (covered : List Component) :
    Except HttpSigError (Option (List UInt8)) :=
  if covered.contains .contentDigest then
    ((combined headers .contentDigest).bind (contentSha256 codec)).map some
  else .ok none

def parse (codec : FieldCodec) (parts : Parts) (now : Instant) (maxSkew : Int) :
    Except HttpSigError Verifiable := do
  let (label, list) ← signatureInput codec (← single parts.headers .signatureInput)
  let (signatureLabel, signature) ← signatureField codec (← single parts.headers .signature)
  if signatureLabel ≠ label then
    throw (.profile "Signature and Signature-Input name different labels")
  if signature.length ≠ 64 then throw (.profile "an Ed25519 signature is 64 bytes")
  let covered ← components list
  let params ← Params.check list now maxSkew
  if declaresBody parts.headers && !covered.contains .contentDigest then
    throw (.profile "a request with a body must cover content-digest")
  let contentSha256 ← coveredSha256 codec parts.headers covered
  let target ← Target.ofRequest parts
  let base ← target.base covered (← serializeInnerList codec list)
  pure ⟨params.keyId, params.created, params.nonce, signature, contentSha256, target.authority,
    base⟩

structure Outgoing where
  method : String
  authority : String
  pathAndQuery : String
  body : Option (List UInt8)

structure Signed where
  signatureInput : String
  signature : String
  contentDigest : Option String
deriving DecidableEq

def outgoingBase (codec : FieldCodec) (crypto : Crypto) (keyId : UserKeyId) (nonce : Nonce)
    (created : Int) (request : Outgoing) : Except HttpSigError (String × String) := do
  let contentDigest := request.body.map (contentDigest codec crypto)
  let covered := Component.required ++ if contentDigest.isSome then [.contentDigest] else []
  let params ← serializeInnerList codec (← innerList covered created nonce keyId)
  let target := Target.outgoing request.method request.authority request.pathAndQuery contentDigest
  pure (params, ← target.base covered params)

def sign (codec : FieldCodec) (crypto : Crypto) (keyId : UserKeyId) (nonce : Nonce)
    (created : Int) (request : Outgoing) : Except HttpSigError Signed := do
  let (params, base) ← outgoingBase codec crypto keyId nonce created request
  pure
    { signatureInput := "sig=" ++ params
      signature := "sig" ++ "=:" ++ codec.base64 (crypto.sign base) ++ ":"
      contentDigest := request.body.map (contentDigest codec crypto) }

end Pipette.HttpSig
