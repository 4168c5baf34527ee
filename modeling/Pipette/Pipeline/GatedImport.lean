import Mathlib.Data.List.ReduceOption
import Pipette.Core.Descriptor
import Pipette.Lib.Prog
import Pipette.Lib.Result
import Pipette.Lib.Text

/-! The import step of an ingest: a model that carries an `auth_token` is imported into the vault
and its body rewritten to the vault arm. Tokens are found by a walk over the body and named by
their JSON pointer. -/
namespace Pipette.GatedImport

def authToken : String := "auth_token"

def modelPrefix : String := "/spec/model/"

inductive Segment
  | key (name : String)
  | index (i : Nat)
deriving DecidableEq, Repr

def replaceChar (c : Char) (text : String) (s : List Char) : List Char :=
  s.flatMap fun x => if x = c then text.toList else [x]

def Segment.body : Segment → List Char
  | .key name => replaceChar '/' "~1" (replaceChar '~' "~0" name.toList)
  | .index i => (toString i).toList

def pointer (path : List Segment) : String :=
  .ofList (path.flatMap fun segment => '/' :: segment.body)

mutual

def collect (path : List Segment) : Json → List String
  | .obj fields => collectFields path fields
  | .arr items => collectItems path 0 items
  | .null | .bool _ | .num _ | .str _ => []

def collectFields (path : List Segment) : List (String × Json) → List String
  | [] => []
  | (key, value) :: rest =>
    (if key = authToken ∧ !value.isNull then [pointer (path ++ [.key key])] else []) ++
      collect (path ++ [.key key]) value ++ collectFields path rest

def collectItems (path : List Segment) (index : Nat) : List Json → List String
  | [] => []
  | item :: rest =>
    collect (path ++ [.index index]) item ++ collectItems path (index + 1) rest

end

def tokenPointers (value : Json) : List String := collect [] value

mutual

def withoutAuthTokens : Json → Json
  | .obj fields => .obj (withoutAuthTokensFields fields)
  | .arr items => .arr (withoutAuthTokensItems items)
  | .null => .null
  | .bool b => .bool b
  | .num n => .num n
  | .str s => .str s

def withoutAuthTokensFields : List (String × Json) → List (String × Json)
  | [] => []
  | (key, value) :: rest =>
    if key = authToken then withoutAuthTokensFields rest
    else (key, withoutAuthTokens value) :: withoutAuthTokensFields rest

def withoutAuthTokensItems : List Json → List Json
  | [] => []
  | item :: rest => withoutAuthTokens item :: withoutAuthTokensItems rest

end

mutual

def withoutNulls : Json → Json
  | .obj fields => .obj (withoutNullsFields fields)
  | .arr items => .arr (withoutNullsItems items)
  | .null => .null
  | .bool b => .bool b
  | .num n => .num n
  | .str s => .str s

def withoutNullsFields : List (String × Json) → List (String × Json)
  | [] => []
  | (key, value) :: rest =>
    if value.isNull then withoutNullsFields rest
    else (key, withoutNulls value) :: withoutNullsFields rest

def withoutNullsItems : List Json → List Json
  | [] => []
  | item :: rest => withoutNulls item :: withoutNullsItems rest

end

structure ModelCodec (M : Type) where
  fromValue : Json → Option M
  toValue : M → Option Json
  withoutAuthToken : M → M
  display : M → String

inductive JobRejection
  | authToken (field : String)
  | importUnavailable
  /-- The import of the job's model refused it. -/
  | importRefused (reason : String)
deriving DecidableEq, Repr

inductive ImportStepError
  | noVaultArm (model : String)
  | lostModel (label : String)
  | modelJson (label : String)
deriving DecidableEq, Repr

inductive IngestError
  | rejected (index : Nat) (label : String) (kind : JobRejection)
  | importBusy
  | hubRateLimited (index : Nat) (label reason : String)
  | upstream (index : Nat) (label reason : String)
  | hub (reason : String)
  | step (e : ImportStepError)
deriving DecidableEq, Repr

inductive ImportFault
  | caller
  | upstream
  | rateLimited
  | server
deriving DecidableEq, Repr

structure ModelImportError (M : Type) where
  model : M
  fault : ImportFault
  reason : String

structure GatedJob where
  label : String
  body : Json
  /-- The replaced model, without its token. -/
  hfModel : Option Json
deriving DecidableEq, Repr

structure Gated (M : Type) where
  jobs : List GatedJob
  rewrites : List (M × M)

inductive HubCall (M : Type)
  /-- Resolve the models; the answer says whether the plan downloads anything. -/
  | resolve (models : List M)
  | tryAcquire
  /-- Fetch what was resolved; each model with its vault arm. -/
  | fetch

abbrev Hub (M : Type) : Interface where
  Call := HubCall M
  Answer
    | .resolve _ => Except (ModelImportError M) Bool
    | .tryAcquire => Bool
    | .fetch => Except (ModelImportError M) (List (M × M))
  Fault := IngestError

section Step

variable {M : Type} [DecidableEq M] (codec : ModelCodec M)

/-- The typed `spec.model` of a body, if it holds a token and round-trips without it. Values are
compared without regard to key order. -/
def importable (body : Json) : Option M := do
  let spec ← body.get "spec"
  let model ← spec.get "model"
  if tokenPointers model = [] then none
  else
    let typed ← codec.fromValue model
    let roundTrip ← codec.toValue (codec.withoutAuthToken typed)
    if (withoutNulls roundTrip).canonical = (withoutNulls (withoutAuthTokens model)).canonical then
      some typed
    else none

def refuse (jobs : List (String × Json)) (index : Nat) (kind : JobRejection) : IngestError :=
  .rejected index ((jobs[index]?.map (·.1)).getD "") kind

def tokenLeft (body : Json) (model : Option M) : Option String :=
  (tokenPointers body).find? fun field =>
    model.isNone || !modelPrefix.toList.isPrefixOf field.toList

def find (configured : Bool) (jobs : List (String × Json)) :
    Except IngestError (Option (List (Option M))) :=
  let models := jobs.map fun job => importable codec job.2
  let left := (jobs.zip models).zipIdx.findSome? fun x =>
    (tokenLeft x.1.1.2 x.1.2).map fun field => (x.2, field)
  match left with
  | some (index, field) => .error (refuse jobs index (.authToken field))
  | none =>
    match models.findIdx? Option.isSome with
    | none => .ok none
    | some first =>
      if configured then .ok (some models) else .error (refuse jobs first .importUnavailable)

def untouched (jobs : List (String × Json)) : List GatedJob :=
  jobs.map fun job => ⟨job.1, job.2, none⟩

def failureOf (failure : ModelImportError M) (jobs : List (String × Json))
    (found : List (Option M)) : IngestError :=
  let index := (found.findIdx? (· = some failure.model)).getD 0
  let label := (jobs[index]?.map (·.1)).getD ""
  match failure.fault with
  | .caller => .rejected index label (.importRefused failure.reason)
  | .upstream => .upstream index label failure.reason
  | .rateLimited => .hubRateLimited index label failure.reason
  | .server => .hub failure.reason

def fetch (jobs : List (String × Json)) (found : List (Option M)) :
    Prog (Hub M) (List (M × M)) := do
  match ← Prog.store (I := Hub M) .fetch with
  | .error failure => .fail (failureOf failure jobs found)
  | .ok arms => pure arms

/-- Resolve every model, then fetch them, holding one permit if anything is downloaded. -/
def run (jobs : List (String × Json)) (found : List (Option M)) :
    Prog (Hub M) (List (M × M)) := do
  match ← Prog.store (I := Hub M) (.resolve found.reduceOption) with
  | .error failure => .fail (failureOf failure jobs found)
  | .ok false => fetch jobs found
  | .ok true =>
    if ← Prog.store (I := Hub M) .tryAcquire then fetch jobs found else .fail .importBusy

inductive Unresolved
  | keep
  /-- A placeholder that matches no stored body. -/
  | pending
deriving DecidableEq, Repr

def replaceModel (replacement : Json) : Json → Option (Json × Json)
  | .obj fields =>
    match fields.lookup "spec" with
    | some (.obj spec) =>
      (spec.lookup "model").map fun slot =>
        (slot, .obj (Json.insertField "spec"
          (.obj (Json.insertField "model" replacement spec)) fields))
    | _ => none
  | _ => none

def modelJson (label : String) (model : M) : Except ImportStepError Json :=
  match codec.toValue model with
  | some value => .ok value
  | none => .error (.modelJson label)

def rewriteJob (arms : List (M × M)) (unresolved : Unresolved) (job : String × Json)
    (model : Option M) : Except ImportStepError GatedJob := do
  match model.map codec.withoutAuthToken with
  | none => return ⟨job.1, job.2, none⟩
  | some model =>
    match arms.lookup model, unresolved with
    | none, .keep => return ⟨job.1, job.2, none⟩
    | none, .pending =>
      let value ← modelJson codec job.1 model
      match replaceModel (.obj [("pending_import", value)]) job.2 with
      | none => throw (.lostModel job.1)
      | some (_, body) => return ⟨job.1, body, none⟩
    | some arm, _ =>
      let value ← modelJson codec job.1 arm
      match replaceModel value job.2 with
      | none => throw (.lostModel job.1)
      | some (slot, body) => return ⟨job.1, body, some (withoutAuthTokens slot)⟩

def rewrite (jobs : List (String × Json)) (models : List (Option M)) (arms : List (M × M))
    (unresolved : Unresolved) : Except ImportStepError (List GatedJob) :=
  (jobs.zip models).mapM fun x => rewriteJob codec arms unresolved x.1 x.2

/-- Each imported model without its token, with its vault arm; of two that differ only in the
token the later one stays. -/
def rewritesOf (arms : List (M × M)) : List (M × M) :=
  (arms.map fun x => (codec.withoutAuthToken x.1, x.2)).reverse

def importModels (configured : Bool) (jobs : List (String × Json)) :
    Prog (Hub M) (Gated M) := do
  match find codec configured jobs with
  | .error e => .fail e
  | .ok none => pure ⟨untouched jobs, []⟩
  | .ok (some models) =>
    let arms ← run jobs models
    let rewrites := rewritesOf codec arms
    match models.reduceOption.find? fun model =>
        (rewrites.lookup (codec.withoutAuthToken model)).isNone with
    | some model => .fail (.step (.noVaultArm (codec.display model)))
    | none =>
      match rewrite codec jobs models rewrites .keep with
      | .error e => .fail (.step e)
      | .ok jobs => pure ⟨jobs, rewrites⟩

end Step

inductive TokenAt : Json → List Segment → Prop
  | here {fields : List (String × Json)} {v : Json} (h : (authToken, v) ∈ fields)
      (hv : v.isNull = false) : TokenAt (.obj fields) [.key authToken]
  | field {fields : List (String × Json)} {k : String} {v : Json} {path : List Segment}
      (h : (k, v) ∈ fields) (hv : TokenAt v path) : TokenAt (.obj fields) (.key k :: path)
  | item {items : List Json} {i : Nat} {v : Json} {path : List Segment} (h : items[i]? = some v)
      (hv : TokenAt v path) : TokenAt (.arr items) (.index i :: path)

def HoldsToken (v : Json) : Prop := ∃ path, TokenAt v path

theorem collectFields_eq (path : List Segment) (fields : List (String × Json)) :
    collectFields path fields = fields.flatMap fun f =>
      (if f.1 = authToken ∧ !f.2.isNull then [pointer (path ++ [.key f.1])] else []) ++
        collect (path ++ [.key f.1]) f.2 := by
  induction fields with
  | nil => rfl
  | cons f rest ih => simp [collectFields, ih]

theorem collectItems_eq (path : List Segment) (n : Nat) (items : List Json) :
    collectItems path n items =
      (items.zipIdx n).flatMap fun x => collect (path ++ [.index x.2]) x.1 := by
  induction items generalizing n with
  | nil => rfl
  | cons v rest ih => simp [collectItems, ih]

theorem mem_collect {v : Json} {path : List Segment} {field : String} :
    field ∈ collect path v ↔ ∃ p, TokenAt v p ∧ field = pointer (path ++ p) := by
  induction v using Json.induct generalizing path with
  | null | bool | num | str =>
    simp only [collect, List.not_mem_nil, false_iff]
    rintro ⟨p, hp, -⟩
    cases hp
  | arr items ih =>
    rw [collect, collectItems_eq]
    constructor
    · intro h
      obtain ⟨⟨v, i⟩, hx, hfield⟩ := List.mem_flatMap.mp h
      have hi : items[i]? = some v := List.mk_mem_zipIdx_iff_getElem?.mp hx
      obtain ⟨p, hp, rfl⟩ := (ih v (List.mem_of_getElem? hi)).mp hfield
      exact ⟨.index i :: p, .item hi hp, by simp⟩
    · rintro ⟨p, hp, rfl⟩
      cases hp with
      | @item _ i v p hi hp =>
        refine List.mem_flatMap.mpr ⟨(v, i), List.mk_mem_zipIdx_iff_getElem?.mpr hi, ?_⟩
        exact (ih v (List.mem_of_getElem? hi)).mpr ⟨p, hp, by simp⟩
  | obj fields ih =>
    rw [collect, collectFields_eq]
    constructor
    · intro h
      obtain ⟨⟨k, v⟩, hf, hfield⟩ := List.mem_flatMap.mp h
      obtain hfield | hfield := List.mem_append.mp hfield
      · split at hfield
        · next htoken =>
          obtain ⟨rfl, hnull⟩ := htoken
          exact ⟨[.key authToken], .here hf (by simpa using hnull), List.mem_singleton.mp hfield⟩
        · exact absurd hfield List.not_mem_nil
      · obtain ⟨p, hp, rfl⟩ := (ih _ hf).mp hfield
        exact ⟨.key k :: p, .field hf hp, by simp⟩
    · rintro ⟨p, hp, rfl⟩
      cases hp with
      | here hf hnull =>
        refine List.mem_flatMap.mpr ⟨_, hf, List.mem_append_left _ ?_⟩
        simp [hnull]
      | @field _ k v p hf hp =>
        refine List.mem_flatMap.mpr ⟨_, hf, List.mem_append_right _ ?_⟩
        exact (ih _ hf).mpr ⟨p, hp, by simp⟩

theorem mem_tokenPointers {v : Json} {field : String} :
    field ∈ tokenPointers v ↔ ∃ p, TokenAt v p ∧ field = pointer p := by
  simp [tokenPointers, mem_collect]

theorem holdsToken_iff {v : Json} : HoldsToken v ↔ tokenPointers v ≠ [] := by
  constructor
  · rintro ⟨path, hpath⟩
    exact List.ne_nil_of_mem (mem_tokenPointers.mpr ⟨path, hpath, rfl⟩)
  · intro h
    obtain ⟨field, hfield⟩ := List.exists_mem_of_ne_nil _ h
    obtain ⟨path, hpath, -⟩ := mem_tokenPointers.mp hfield
    exact ⟨path, hpath⟩

instance (v : Json) : Decidable (HoldsToken v) := decidable_of_iff _ holdsToken_iff.symm

theorem replaceChar_eq_of_forall {c e : Char} {text : String} {s t : List Char}
    (htext : e ∈ text.toList) (ht : e ∉ t) (h : replaceChar c text s = t) : s = t := by
  have hne : ∀ x ∈ s, x ≠ c := by
    rintro x hx rfl
    refine ht (h ▸ List.mem_flatMap.mpr ⟨x, hx, ?_⟩)
    rwa [if_pos rfl]
  calc s = s.flatMap fun x => [x] := (List.flatMap_singleton' s).symm
    _ = replaceChar c text s := List.flatMap_congr fun x hx => (if_neg (hne x hx)).symm
    _ = t := h

theorem Segment.body_eq {segment : Segment} {name : String} (htilde : '~' ∉ name.toList)
    (hletter : ∃ x ∈ name.toList, x.isDigit = false) (h : segment.body = name.toList) :
    segment = .key name := by
  cases segment with
  | key k =>
    have hslash := replaceChar_eq_of_forall (e := '~') (by decide) htilde h
    have hkey := replaceChar_eq_of_forall (e := '~') (by decide) htilde hslash
    rw [String.toList_inj.mp hkey]
  | index i =>
    obtain ⟨x, hx, hdigit⟩ := hletter
    have hmem : x ∈ Nat.toDigits 10 i := by
      have hrepr : (toString i).toList = Nat.toDigits 10 i := String.toList_ofList
      rwa [← hrepr, show (toString i).toList = _ from h]
    rw [Nat.isDigit_of_mem_toDigits (by decide) (by decide) hmem] at hdigit
    cases hdigit

theorem Segment.slash_not_mem_body (segment : Segment) : '/' ∉ segment.body := by
  cases segment with
  | key k =>
    intro h
    obtain ⟨x, -, hx⟩ := List.mem_flatMap.mp h
    split at hx
    · exact absurd hx (by decide)
    · next hne => exact hne (List.mem_singleton.mp hx).symm
  | index i =>
    intro h
    have hmem : '/' ∈ Nat.toDigits 10 i := by
      have hrepr : (toString i).toList = Nat.toDigits 10 i := String.toList_ofList
      rwa [← hrepr]
    exact absurd (Nat.isDigit_of_mem_toDigits (by decide) (by decide) hmem) (by decide)

theorem toList_pointer_cons (segment : Segment) (path : List Segment) :
    (pointer (segment :: path)).toList = '/' :: (segment.body ++ (pointer path).toList) := by
  simp [pointer]

theorem pointer_key (name : String) {t : List Char} {path : List Segment}
    (hslash : '/' ∉ name.toList) (htilde : '~' ∉ name.toList)
    (hletter : ∃ x ∈ name.toList, x.isDigit = false)
    (h : '/' :: (name.toList ++ '/' :: t) <+: (pointer path).toList) :
    ∃ rest, path = .key name :: rest ∧ '/' :: t <+: (pointer rest).toList := by
  cases path with
  | nil => simp [pointer] at h
  | cons segment rest =>
    rw [toList_pointer_cons, List.prefix_cons_inj] at h
    have hhead : ∀ x ∈ (pointer rest).toList.head?, x = '/' := by
      cases rest with
      | nil => simp [pointer]
      | cons segment rest => simp [toList_pointer_cons, eq_comm]
    obtain ⟨hbody, hrest⟩ := Text.prefix_segment hslash segment.slash_not_mem_body hhead h
    exact ⟨rest, by rw [Segment.body_eq htilde hletter hbody.symm], hrest⟩

theorem TokenAt.getLast {v : Json} {path : List Segment} (h : TokenAt v path) :
    path.getLast? = some (.key authToken) := by
  induction h with
  | here => rfl
  | field _ _ ih | item _ _ ih => rw [List.getLast?_cons, ih]; rfl

theorem TokenAt.modelPrefix_iff {v : Json} {path : List Segment} (h : TokenAt v path) :
    modelPrefix.toList.isPrefixOf (pointer path).toList = true ↔
      [.key "spec", .key "model"] <+: path := by
  rw [List.isPrefixOf_iff_prefix]
  constructor
  · intro hprefix
    obtain ⟨path, rfl, hrest⟩ := pointer_key "spec" (t := "model/".toList)
      (by decide) (by decide) ⟨'s', by decide, rfl⟩ hprefix
    obtain ⟨path, rfl, -⟩ := pointer_key "model" (t := [])
      (by decide) (by decide) ⟨'m', by decide, rfl⟩ hrest
    exact ⟨path, rfl⟩
  · rintro ⟨path, rfl⟩
    cases path with
    | nil => exact absurd h.getLast (by decide)
    | cons segment path =>
      refine ⟨segment.body ++ (pointer path).toList, ?_⟩
      simp only [List.cons_append, List.nil_append, toList_pointer_cons]
      rfl

theorem TokenAt.insertField {fields : List (String × Json)} {k : String} {v : Json}
    {path : List Segment} (hd : Assoc.Distinct fields) (hk : k ≠ authToken)
    (h : TokenAt (.obj (Json.insertField k v fields)) path) :
    (∃ q, path = .key k :: q ∧ TokenAt v q) ∨
      (TokenAt (.obj fields) path ∧ ∀ q, path ≠ .key k :: q) := by
  have hmem : ∀ l u, (l, u) ∈ Json.insertField k v fields → if l = k then u = v else (l, u) ∈ fields := by
    intro l u hmem
    have hlookup := (Assoc.lookup_eq_some_iff (Json.distinct_insertField hd)).mpr hmem
    rw [Json.lookup_insertField] at hlookup
    split at hlookup
    · next heq => rw [if_pos heq]; exact (Option.some.inj hlookup).symm
    · next hne => rw [if_neg hne]; exact Assoc.mem_of_lookup hlookup
  cases h with
  | here hf hnull =>
    have hf := hmem _ _ hf
    rw [if_neg hk.symm] at hf
    refine .inr ⟨.here hf hnull, fun q hq => ?_⟩
    simp only [List.cons.injEq, Segment.key.injEq] at hq
    exact hk hq.1.symm
  | @field _ l u p hf hp =>
    replace hf := hmem _ _ hf
    by_cases hl : l = k
    · rw [if_pos hl] at hf
      subst hl hf
      exact .inl ⟨p, rfl, hp⟩
    · rw [if_neg hl] at hf
      refine .inr ⟨.field hf hp, fun q hq => hl ?_⟩
      simp only [List.cons.injEq, Segment.key.injEq] at hq
      exact hq.1

def SameButModel (body body' : Json) : Prop :=
  body' = body ∨ ∃ fields spec model, body = .obj fields ∧ fields.lookup "spec" = some (.obj spec) ∧
    (spec.lookup "model").isSome ∧
    body' = .obj (Json.insertField "spec" (.obj (Json.insertField "model" model spec)) fields)

theorem replaceModel_eq_some {body body' slot model : Json}
    (h : replaceModel model body = some (slot, body')) :
    ∃ fields spec, body = .obj fields ∧ fields.lookup "spec" = some (.obj spec) ∧
      spec.lookup "model" = some slot ∧
      body' = .obj (Json.insertField "spec" (.obj (Json.insertField "model" model spec)) fields) := by
  unfold replaceModel at h
  split at h
  · next fields =>
    split at h
    · next spec hspec =>
      obtain ⟨slot', hslot, heq⟩ := Option.map_eq_some_iff.mp h
      cases heq
      exact ⟨fields, spec, rfl, hspec, hslot, rfl⟩
    · cases h
  · cases h

theorem holdsToken_replaceModel {body body' slot model : Json} (hwf : body.WellFormed)
    (hin : ∀ path, TokenAt body path → [.key "spec", .key "model"] <+: path)
    (hmodel : ¬ HoldsToken model) (h : replaceModel model body = some (slot, body')) :
    ¬ HoldsToken body' := by
  obtain ⟨fields, spec, rfl, hspec, -, rfl⟩ := replaceModel_eq_some h
  cases hwf with | obj hd hfields =>
  have hmem := Assoc.mem_of_lookup hspec
  have hdspec : Assoc.Distinct spec := by
    cases hfields _ hmem with | obj hd _ => exact hd
  rintro ⟨path, hpath⟩
  obtain ⟨q, rfl, hq⟩ | ⟨hold, hne⟩ := hpath.insertField hd (by decide)
  · obtain ⟨r, rfl, hr⟩ | ⟨hold, hne⟩ := hq.insertField hdspec (by decide)
    · exact hmodel ⟨r, hr⟩
    · obtain ⟨r, hr⟩ := hin _ (.field hmem hold)
      simp only [List.cons_append, List.nil_append, List.cons.injEq, true_and] at hr
      exact hne r hr.symm
  · obtain ⟨r, hr⟩ := hin _ hold
    exact hne _ hr.symm

section Step

variable {M : Type} {codec : ModelCodec M} {jobs : List (String × Json)} {configured : Bool}

theorem tokenLeft_eq_none_iff {body : Json} {model : Option M} : tokenLeft body model = none ↔
    ∀ path, TokenAt body path → model.isSome ∧ [.key "spec", .key "model"] <+: path := by
  simp only [tokenLeft, List.find?_eq_none, mem_tokenPointers, Bool.or_eq_true, Bool.not_eq_true',
    not_or, forall_exists_index, and_imp]
  constructor
  · intro h path hpath
    obtain ⟨hmodel, hprefix⟩ := h _ path hpath rfl
    exact ⟨by simpa [Option.isSome_iff_ne_none] using hmodel,
      hpath.modelPrefix_iff.mp (by simpa using hprefix)⟩
  · rintro h _ path hpath rfl
    obtain ⟨hmodel, hprefix⟩ := h path hpath
    exact ⟨by simpa [Option.isSome_iff_ne_none] using hmodel,
      by simpa using hpath.modelPrefix_iff.mpr hprefix⟩

theorem find_eq_ok {found : Option (List (Option M))} (h : find codec configured jobs = .ok found) :
    (∀ job ∈ jobs, tokenLeft job.2 (importable codec job.2) = none) ∧
      ((found = none ∧ ∀ job ∈ jobs, importable codec job.2 = none) ∨
        found = some (jobs.map fun job => importable codec job.2)) := by
  unfold find at h
  dsimp only at h
  split at h
  · cases h
  next hleft =>
  constructor
  · intro job hjob
    obtain ⟨i, hi, rfl⟩ := List.getElem_of_mem hjob
    have hx : ((jobs[i], importable codec jobs[i].2), i) ∈
        (jobs.zip (jobs.map fun job => importable codec job.2)).zipIdx := by
      rw [List.mk_mem_zipIdx_iff_getElem?]
      simp [hi]
    have hnone := List.findSome?_eq_none_iff.mp hleft _ hx
    simpa using hnone
  split at h
  · next hfirst =>
    cases h
    refine .inl ⟨rfl, fun job hjob => ?_⟩
    simpa using List.findIdx?_eq_none_iff.mp hfirst _ (List.mem_map_of_mem hjob)
  · split at h
    · cases h
      exact .inr rfl
    · cases h

variable [DecidableEq M]

theorem importModels_refuses {job : String × Json} {path : List Segment} (hjob : job ∈ jobs)
    (hpath : TokenAt job.2 path)
    (hout : ¬ ((importable codec job.2).isSome ∧ [.key "spec", .key "model"] <+: path)) :
    ∃ e, importModels codec configured jobs = .fail e := by
  unfold importModels
  cases hfind : find codec configured jobs with
  | error e => exact ⟨e, rfl⟩
  | ok found => exact absurd (tokenLeft_eq_none_iff.mp ((find_eq_ok hfind).1 job hjob) path hpath) hout

structure Cleared (job : String × Json) (out : GatedJob) : Prop where
  noToken : ¬ HoldsToken out.body
  sameButModel : SameButModel job.2 out.body
  untouched : ¬ HoldsToken job.2 → out.body = job.2

omit [DecidableEq M] in
theorem importable_holdsToken {body : Json} {model : M} (h : importable codec body = some model) :
    HoldsToken body := by
  simp only [importable, Option.bind_eq_bind, Option.bind_eq_some_iff] at h
  obtain ⟨spec, hspec, value, hvalue, h⟩ := h
  split at h
  · cases h
  next htokens =>
  obtain ⟨path, hpath⟩ := holdsToken_iff.mpr htokens
  obtain ⟨fields, rfl, hspec⟩ := Json.get_eq_some.mp hspec
  obtain ⟨specFields, rfl, hvalue⟩ := Json.get_eq_some.mp hvalue
  exact ⟨_, .field (Assoc.mem_of_lookup hspec) (.field (Assoc.mem_of_lookup hvalue) hpath)⟩

omit [DecidableEq M] in
theorem not_holdsToken_of_importable_none {body : Json}
    (hleft : tokenLeft body (importable codec body) = none) (h : importable codec body = none) :
    ¬ HoldsToken body := by
  rintro ⟨path, hpath⟩
  have hmodel := (tokenLeft_eq_none_iff.mp hleft path hpath).1
  rw [h] at hmodel
  cases hmodel

theorem rewriteJob_cleared {arms : List (M × M)} {job : String × Json} {out : GatedJob}
    (hwf : job.2.WellFormed) (hleft : tokenLeft job.2 (importable codec job.2) = none)
    (harms : ∀ x ∈ arms, ∀ v, codec.toValue x.2 = some v → ¬ HoldsToken v)
    (hcover : ∀ model, importable codec job.2 = some model →
      (arms.lookup (codec.withoutAuthToken model)).isSome)
    (h : rewriteJob codec arms .keep job (importable codec job.2) = .ok out) : Cleared job out := by
  unfold rewriteJob at h
  cases hmodel : importable codec job.2 with
  | none =>
    rw [hmodel] at h
    cases h
    have hnone := not_holdsToken_of_importable_none hleft hmodel
    exact ⟨hnone, .inl rfl, fun _ => rfl⟩
  | some model =>
    obtain ⟨arm, harm⟩ := Option.isSome_iff_exists.mp (hcover model hmodel)
    simp only [hmodel, Option.map_some, harm, modelJson] at h
    cases hvalue : codec.toValue arm with
    | none => simp [hvalue, bind, Except.bind] at h
    | some value =>
      simp only [hvalue, bind, Except.bind] at h
      split at h
      · cases h
      next slot body hreplace =>
      cases h
      have hin := tokenLeft_eq_none_iff.mp hleft
      obtain ⟨fields, spec, hbody, hspec, hslot, hout⟩ := replaceModel_eq_some hreplace
      refine ⟨holdsToken_replaceModel hwf (fun path hpath => (hin path hpath).2)
        (harms _ (Assoc.mem_of_lookup harm) value hvalue) hreplace, .inr ?_,
        fun hnone => absurd (importable_holdsToken hmodel) hnone⟩
      exact ⟨fields, spec, value, hbody, hspec, by rw [hslot]; rfl, hout⟩

theorem fetch_exec_ok {W : Type} {m : Prog.Machine (Hub M) W} {w w' : W}
    {found : List (Option M)} {arms : List (M × M)}
    (h : (fetch jobs found).exec m w = (.ok arms, w')) : (m .fetch w).1 = .ok arms := by
  rw [fetch, Prog.bind_eq, Prog.exec_bind, Prog.exec_store] at h
  dsimp only at h
  cases hfetch : (m HubCall.fetch w).1 with
  | error failure => simp [hfetch] at h
  | ok arms' =>
    simp only [hfetch, Prog.pure_eq, Prog.exec_ret, Prod.mk.injEq, Except.ok.injEq] at h
    rw [h.1]

theorem run_exec_ok {W : Type} {m : Prog.Machine (Hub M) W} {w w' : W} {found : List (Option M)}
    {arms : List (M × M)} (h : (run jobs found).exec m w = (.ok arms, w')) :
    ∃ v, (m .fetch v).1 = .ok arms := by
  rw [run, Prog.bind_eq, Prog.exec_bind, Prog.exec_store] at h
  dsimp only at h
  cases hresolve : (m (HubCall.resolve found.reduceOption) w).1 with
  | error failure => simp [hresolve] at h
  | ok downloads =>
    rw [hresolve] at h
    cases downloads with
    | false => exact ⟨_, fetch_exec_ok h⟩
    | true =>
      dsimp only at h
      rw [Prog.bind_eq, Prog.exec_bind, Prog.exec_store] at h
      dsimp only at h
      split at h
      · exact ⟨_, fetch_exec_ok h⟩
      · cases h

end Step

/-- No token reaches a staged job: whatever the importer answers, as long as the vault arms it
gives carry none. -/
theorem import_clears_tokens {M W : Type} [DecidableEq M] (codec : ModelCodec M)
    (m : Prog.Machine (Hub M) W) (w : W) (configured : Bool) (jobs : List (String × Json))
    (hjobs : ∀ job ∈ jobs, job.2.WellFormed)
    (harms : ∀ v arms, (m .fetch v).1 = .ok arms →
      ∀ x ∈ arms, ∀ value, codec.toValue x.2 = some value → ¬ HoldsToken value) :
    (∀ gated, ((importModels codec configured jobs).exec m w).1 = .ok gated →
      List.Forall₂ Cleared jobs gated.jobs) ∧
    ((∃ job ∈ jobs, ∃ path, TokenAt job.2 path ∧
        ¬ ((importable codec job.2).isSome ∧ [.key "spec", .key "model"] <+: path)) →
      ∃ e, importModels codec configured jobs = .fail e) := by
  refine ⟨fun gated hexec => ?_, fun ⟨job, hjob, path, hpath, hout⟩ =>
    importModels_refuses hjob hpath hout⟩
  unfold importModels at hexec
  cases hfind : find codec configured jobs with
  | error e => simp [hfind] at hexec
  | ok found =>
    obtain ⟨hleft, ⟨rfl, hnone⟩ | rfl⟩ := find_eq_ok hfind
    · simp only [hfind, Prog.pure_eq, Prog.exec_ret, Except.ok.injEq] at hexec
      subst hexec
      refine List.forall₂_map_right_iff.mpr (List.forall₂_same.mpr fun job hjob => ?_)
      have hclear := not_holdsToken_of_importable_none (hleft job hjob) (hnone job hjob)
      exact ⟨hclear, .inl rfl, fun _ => rfl⟩
    · simp only [hfind, Prog.bind_eq, Prog.exec_bind] at hexec
      cases hrun : (run jobs (jobs.map fun job => importable codec job.2)).exec m w with
      | mk result v =>
      cases result with
      | error e => simp [hrun] at hexec
      | ok arms =>
        simp only [hrun] at hexec
        split at hexec
        · simp at hexec
        next hcover =>
        split at hexec
        · simp at hexec
        next out hrewrite =>
        simp only [Prog.pure_eq, Prog.exec_ret, Except.ok.injEq] at hexec
        subst hexec
        have hfetched : ∀ x ∈ rewritesOf codec arms, ∀ value, codec.toValue x.2 = some value →
            ¬ HoldsToken value := by
          intro x hx
          obtain ⟨y, hy, rfl⟩ := List.mem_map.mp (List.mem_reverse.mp hx)
          obtain ⟨v, hv⟩ := run_exec_ok hrun
          exact harms v arms hv y hy
        have hcovered : ∀ job ∈ jobs, ∀ model, importable codec job.2 = some model →
            ((rewritesOf codec arms).lookup (codec.withoutAuthToken model)).isSome := by
          intro job hjob model hmodel
          have hfound := List.find?_eq_none.mp hcover model
            (List.reduceOption_mem_iff.mpr (List.mem_map.mpr ⟨job, hjob, hmodel⟩))
          simpa [Option.isSome_iff_ne_none] using hfound
        have hrewritten := Result.forall₂_of_mapM hrewrite
        rw [← List.map_prod_left_eq_zip, List.forall₂_map_left_iff] at hrewritten
        refine ((List.forall₂_and_left jobs out).mpr ⟨fun job hjob => hjob, hrewritten⟩).imp ?_
        rintro job out ⟨hjob, hout⟩
        exact rewriteJob_cleared (hjobs job hjob) (hleft job hjob) hfetched (hcovered job hjob) hout

def jsonCodec : ModelCodec Json := ⟨some, some, withoutAuthTokens, fun _ => ""⟩

def gatedModel : Json := .obj [("path", .str "m"), ("auth_token", .str "t")]

def vaultArm : Json := .obj [("source", .str "vault_url")]

def vaultImporter : Prog.Machine (Hub Json) Unit
  | .resolve _, w => (.ok false, w)
  | .tryAcquire, w => (true, w)
  | .fetch, w => (.ok [(gatedModel, vaultArm)], w)

def modelJob : String × Json := ("model", .obj [("spec", .obj [("model", gatedModel)])])

def strayJob : String × Json :=
  ("stray", .obj [("spec", .obj [("runtime", .obj [("auth_token", .str "t")])])])

theorem wellFormed_singleton {k : String} {v : Json} (h : v.WellFormed) :
    (Json.obj [(k, v)]).WellFormed :=
  .obj (by simp [Assoc.Distinct]) (by simpa using h)

theorem modelJob_wellFormed : modelJob.2.WellFormed :=
  wellFormed_singleton (wellFormed_singleton
    (.obj (by simp [Assoc.Distinct]) (by simp [Json.WellFormed.str])))

theorem strayJob_wellFormed : strayJob.2.WellFormed :=
  wellFormed_singleton (wellFormed_singleton (wellFormed_singleton (.str "t")))

/-- The model of the first job is imported, and the second job stops the step. -/
theorem import_clears_tokens_vault :
    (∃ gated, ((importModels jsonCodec true [modelJob]).exec vaultImporter ()).1 = .ok gated ∧
      List.Forall₂ Cleared [modelJob] gated.jobs) ∧
    ∃ e, importModels jsonCodec true [modelJob, strayJob] = .fail e := by
  have harms : ∀ v arms, (vaultImporter .fetch v).1 = .ok arms →
      ∀ x ∈ arms, ∀ value, jsonCodec.toValue x.2 = some value → ¬ HoldsToken value := by
    rintro v arms harms x hx value hvalue
    cases harms
    cases List.mem_singleton.mp hx
    cases hvalue
    decide
  refine ⟨⟨_, rfl, (import_clears_tokens jsonCodec vaultImporter () true [modelJob]
    (by simpa using modelJob_wellFormed) harms).1 _ rfl⟩, ?_⟩
  refine (import_clears_tokens jsonCodec vaultImporter () true [modelJob, strayJob]
    (by simpa using ⟨modelJob_wellFormed, strayJob_wellFormed⟩) harms).2
    ⟨strayJob, by simp, [.key "spec", .key "runtime", .key "auth_token"], ?_, by decide⟩
  exact .field (v := .obj [("runtime", .obj [("auth_token", .str "t")])]) (by simp)
    (.field (v := .obj [("auth_token", .str "t")]) (by simp) (.here (v := .str "t") (by decide) rfl))

end Pipette.GatedImport
