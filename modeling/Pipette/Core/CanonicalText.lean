import Mathlib.Data.List.DropRight
import Pipette.Core.Client
import Pipette.Core.Descriptor

/-! The text that an opaque descriptor or flag field is stored as: canonical JSON where the field is
JSON, and the trimmed text where it is not. -/
namespace Pipette

/-- Whitespace between the tokens of JSON, which is less than what `str::trim` takes off. -/
def isJsonBlank (c : Char) : Bool := c = ' ' || c = '\t' || c = '\n' || c = '\r'

def startsValue (c : Char) : Bool :=
  c.isDigit || c ∈ ['\x7b', '[', '"', '-', 't', 'f', 'n']

mutual

def writeValue (leaf : Json → String) : Json → String
  | .obj fields => "\x7b" ++ String.intercalate "," (writeFields leaf fields) ++ "\x7d"
  | .arr items => "[" ++ String.intercalate "," (writeItems leaf items) ++ "]"
  | .null => leaf .null
  | .bool b => leaf (.bool b)
  | .num n => leaf (.num n)
  | .str s => leaf (.str s)

def writeItems (leaf : Json → String) : List Json → List String
  | [] => []
  | v :: rest => writeValue leaf v :: writeItems leaf rest

def writeFields (leaf : Json → String) : List (String × Json) → List String
  | [] => []
  | (key, v) :: rest => (leaf (.str key) ++ ":" ++ writeValue leaf v) :: writeFields leaf rest

end

/-- How the values of a job body print, apart from numbers and texts with an escape. -/
def plainLeaf : Json → String
  | .str s => "\"" ++ s ++ "\""
  | .bool b => if b then "true" else "false"
  | _ => "null"

/-- What is relied on of the JSON library: it reads the values it can hold back from what it prints.
Of its grammar, what a text starts with and how an empty array is written. -/
structure SerdeJson where
  fromStr : String → Option Json
  /-- How a value that is no array or object prints. -/
  leaf : Json → String
  /-- The values that it holds. -/
  Holds : Json → Prop
  holds_of_fromStr : ∀ {s v}, fromStr s = some v → Holds v
  wellFormed : ∀ {v}, Holds v → v.WellFormed
  holds_canonical : ∀ {v : Json}, Holds v → Holds v.canonical
  fromStr_writeValue : ∀ {v}, Holds v → fromStr (writeValue leaf v) = some v
  starts : ∀ {s v}, fromStr s = some v →
    ∃ c ∈ s.toList.head?, isJsonBlank c = true ∨ startsValue c = true
  fromStr_emptyArray : ∀ blanks : List Char, (∀ c ∈ blanks, isJsonBlank c = true) →
    fromStr (String.ofList ('[' :: blanks ++ [']'])) = some (.arr [])

variable (json : SerdeJson)

def canonicalJson (value : Json) : String := writeValue json.leaf value.canonical

/-- Text that is not JSON is only trimmed. -/
def canonicalizeStr (s : String) : String :=
  match json.fromStr s with
  | some value => canonicalJson json value
  | none => trim s

/-- A top-level empty object and a blank text both stand for nothing reported. -/
def canonicalizeFlags (value : Option String) : Option String :=
  (value.map (canonicalizeStr json)).filter fun flags => flags ≠ "\x7b\x7d" && flags ≠ ""

theorem Json.canonical_canonical {v : Json} (hv : v.WellFormed) :
    v.canonical.canonical = v.canonical := by
  induction hv with
  | null | bool | num | str => rfl
  | @arr items h ih =>
    simp only [canonical, canonicalItems_eq, List.map_map, Json.arr.injEq]
    apply List.map_congr_left
    intro item hitem
    apply ih item hitem
  | @obj fields hd h ih =>
    have hmapped : Assoc.Distinct (fields.map fun f => (f.1, f.2.canonical)) :=
      hd.map_snd Json.canonical
    have hsame : (Assoc.sortByKey (fields.map fun f => (f.1, f.2.canonical))).map
        (fun f => (f.1, f.2.canonical)) =
          Assoc.sortByKey (fields.map fun f => (f.1, f.2.canonical)) := by
      nth_rewrite 2 [← List.map_id (Assoc.sortByKey _)]
      apply List.map_congr_left
      intro f hf
      obtain ⟨g, hg, rfl⟩ := List.mem_map.mp (Assoc.mem_sortByKey.mp hf)
      simp [ih g hg]
    simp only [canonical, canonicalFields_eq, hsame, Json.obj.injEq]
    apply Assoc.sortByKey_eq_of_perm hmapped.sortByKey
    apply Assoc.sortByKey_perm

theorem trim_trim (s : String) : trim (trim s) = trim s := by
  have hends (text : List Char) :
      (((text.dropWhile isWhitespace).rdropWhile isWhitespace).dropWhile
        isWhitespace).rdropWhile isWhitespace =
      (text.dropWhile isWhitespace).rdropWhile isWhitespace := by
    have hfront : ((text.dropWhile isWhitespace).rdropWhile isWhitespace).dropWhile isWhitespace =
        (text.dropWhile isWhitespace).rdropWhile isWhitespace := by
      rw [List.dropWhile_eq_self_iff]
      intro hlength
      have hkept := (List.rdropWhile_prefix isWhitespace (text.dropWhile isWhitespace)).getElem
        hlength
      rw [hkept]
      apply List.dropWhile_get_zero_not
    rw [hfront, List.rdropWhile_idempotent]
  simpa [trim, List.rdropWhile] using congrArg String.ofList (hends s.toList)

variable {json}

theorem canonicalizeStr_canonicalJson {v : Json} (hv : json.Holds v) :
    canonicalizeStr json (canonicalJson json v) = canonicalJson json v := by
  have hread := json.fromStr_writeValue (json.holds_canonical hv)
  simp [canonicalizeStr, canonicalJson, hread, Json.canonical_canonical (json.wellFormed hv)]

/-- The stored spelling is stored as it is: a text that is JSON is spelled canonically at once, and
of any other only what is left of it once trimmed is read again. -/
theorem canonicalizeStr_canonicalizeStr_iff {s : String} :
    canonicalizeStr json (canonicalizeStr json s) = canonicalizeStr json s ↔
      (json.fromStr s).isSome = true ∨
        ∀ v, json.fromStr (trim s) = some v → canonicalJson json v = trim s := by
  cases hread : json.fromStr s with
  | some v =>
    have hspelled : canonicalizeStr json s = canonicalJson json v := by
      simp [canonicalizeStr, hread]
    rw [hspelled]
    exact iff_of_true (canonicalizeStr_canonicalJson (json.holds_of_fromStr hread)) (.inl rfl)
  | none =>
    have hspelled : canonicalizeStr json s = trim s := by simp [canonicalizeStr, hread]
    rw [hspelled]
    cases htrimmed : json.fromStr (trim s) with
    | none => simp [canonicalizeStr, htrimmed, trim_trim]
    | some v => simp [canonicalizeStr, htrimmed]

theorem canonicalizeFlags_canonicalizeFlags {value : Option String}
    (h : ∀ s ∈ value, canonicalizeStr json (canonicalizeStr json s) = canonicalizeStr json s) :
    canonicalizeFlags json (canonicalizeFlags json value) = canonicalizeFlags json value := by
  cases value with
  | none => rfl
  | some s =>
    have hs := h s rfl
    by_cases hkept : canonicalizeStr json s ≠ "\x7b\x7d" ∧ canonicalizeStr json s ≠ ""
    · simp [canonicalizeFlags, Option.filter_some, hkept, hs]
    · have hnone : canonicalizeFlags json (some s) = none := by
        simp only [canonicalizeFlags, Option.map_some, Option.filter_some]
        rw [if_neg]
        simpa using hkept
      rw [hnone]
      rfl

/-- A field has one stored spelling exactly when it is JSON as it stands, or is no JSON once it is
trimmed, or is canonical JSON then. -/
theorem canonicalize_idempotent (json : SerdeJson) (value : Option String) :
    ((∀ s ∈ value, canonicalizeStr json (canonicalizeStr json s) = canonicalizeStr json s) ∧
        canonicalizeFlags json (canonicalizeFlags json value) = canonicalizeFlags json value) ↔
      ∀ s ∈ value, (json.fromStr s).isSome = true ∨
        ∀ v, json.fromStr (trim s) = some v → canonicalJson json v = trim s := by
  constructor
  · rintro ⟨hstr, -⟩ s hs
    exact canonicalizeStr_canonicalizeStr_iff.mp (hstr s hs)
  · intro hvalue
    have hstr : ∀ s ∈ value, canonicalizeStr json (canonicalizeStr json s) =
        canonicalizeStr json s := by
      intro s hs
      exact canonicalizeStr_canonicalizeStr_iff.mpr (hvalue s hs)
    exact ⟨hstr, canonicalizeFlags_canonicalizeFlags hstr⟩

def emptyArrays : SerdeJson where
  fromStr s := if s.toList.filter (fun c => !isJsonBlank c) = ['[', ']'] then some (.arr []) else none
  leaf _ := "null"
  Holds v := v = .arr []
  holds_of_fromStr h := by
    split at h
    · cases h
      rfl
    · cases h
  wellFormed h := h ▸ .arr (by simp)
  holds_canonical h := by
    subst h
    rfl
  fromStr_writeValue h := by
    subst h
    rfl
  starts {s v} h := by
    have hkept : s.toList.filter (fun c => !isJsonBlank c) = ['[', ']'] := by
      by_contra hother
      simp [hother] at h
    cases htext : s.toList with
    | nil => simp [htext] at hkept
    | cons c rest =>
      refine ⟨c, rfl, ?_⟩
      cases hblank : isJsonBlank c with
      | true => simp
      | false =>
        simp only [htext, List.filter_cons, hblank, Bool.not_false, if_true,
          List.cons.injEq] at hkept
        simp [hkept.1, startsValue]
  fromStr_emptyArray blanks h := by
    have hblanks : blanks.filter (fun c => !isJsonBlank c) = [] := by simpa using h
    have hopen : isJsonBlank '[' = false := by decide
    have hclose : isJsonBlank ']' = false := by decide
    simp [hblanks, hopen, hclose]

/-- A blank inside JSON, and a no-break space before JSON that has none. -/
theorem canonicalize_idempotent_spaced :
    canonicalizeStr emptyArrays (canonicalizeStr emptyArrays "[ ]") =
        canonicalizeStr emptyArrays "[ ]" ∧
      canonicalizeStr emptyArrays (canonicalizeStr emptyArrays "\u00a0[]") =
        canonicalizeStr emptyArrays "\u00a0[]" := by
  refine ⟨((canonicalize_idempotent emptyArrays (some "[ ]")).mpr ?_).1 _ rfl,
    ((canonicalize_idempotent emptyArrays (some "\u00a0[]")).mpr ?_).1 _ rfl⟩
  · rintro _ ⟨⟩
    exact .inl (by decide)
  · rintro _ ⟨⟩
    refine .inr fun v hv => ?_
    have hv : v = .arr [] := by
      have hread : emptyArrays.fromStr (trim "\u00a0[]") = some (.arr []) := by decide
      exact (Option.some.inj (hread.symm.trans hv)).symm
    subst hv
    decide

/-- A no-break space is not JSON's whitespace, so the text behind it is only trimmed; what is left is
JSON, and is spelled without its blank the next time. -/
theorem trimmed_text_is_json :
    ¬ ∃ json : SerdeJson,
      canonicalizeStr json (canonicalizeStr json "\u00a0[ ]") = canonicalizeStr json "\u00a0[ ]" ∨
        canonicalizeFlags json (canonicalizeFlags json (some "\u00a0[ ]")) =
          canonicalizeFlags json (some "\u00a0[ ]") := by
  rintro ⟨json, h⟩
  have houter : json.fromStr "\u00a0[ ]" = none := by
    rw [Option.eq_none_iff_forall_ne_some]
    intro v hv
    obtain ⟨c, hc, hstarts⟩ := json.starts hv
    cases hc
    revert hstarts
    decide
  have hinner : json.fromStr "[ ]" = some (.arr []) :=
    json.fromStr_emptyArray [' '] (by simp [isJsonBlank])
  have hfirst : canonicalizeStr json "\u00a0[ ]" = "[ ]" := by
    simp only [canonicalizeStr, houter]
    decide
  have hsecond : canonicalizeStr json "[ ]" = "[]" := by
    simp only [canonicalizeStr, hinner]
    rfl
  obtain h | h := h
  · simp [hfirst, hsecond] at h
  · simp [canonicalizeFlags, hfirst, hsecond, Option.filter_some] at h

end Pipette
