import Mathlib.Data.String.Basic
import Pipette.Lib.Assoc

/-! JSON values as the server holds them in memory. An object is its list of fields; the
serializer and the parser are outside the model. -/
namespace Pipette

/-- A number by its kind: an unsigned `n`, a negative `-(n + 1)`, or a double by its bits. -/
inductive Number where
  | posInt (n : Nat)
  | negInt (n : Nat)
  | float (bits : UInt64)
deriving DecidableEq, Repr

inductive Json where
  | null
  | bool (b : Bool)
  | num (n : Number)
  | str (s : String)
  | arr (items : List Json)
  | obj (fields : List (String × Json))
deriving Repr

namespace Json

@[elab_as_elim]
theorem induct {P : Json → Prop} (null : P .null) (bool : ∀ b, P (.bool b))
    (num : ∀ n, P (.num n)) (str : ∀ s, P (.str s))
    (arr : ∀ items, (∀ v ∈ items, P v) → P (.arr items))
    (obj : ∀ fields, (∀ f ∈ fields, P f.2) → P (.obj fields)) (v : Json) : P v :=
  @Json.rec P (fun items => ∀ v ∈ items, P v) (fun fields => ∀ f ∈ fields, P f.2)
    (fun f => P f.2) null bool num str arr obj (by simp)
    (fun _ _ hv hs => by simpa using ⟨hv, hs⟩) (by simp)
    (fun _ _ hf hs w hw => by
      rcases List.mem_cons.mp hw with rfl | hw
      · exact hf
      · exact hs w hw)
    (fun _ _ hv => hv) v

mutual

def decEq : (v w : Json) → Decidable (v = w)
  | .null, .null => isTrue rfl
  | .bool a, .bool b => decidable_of_iff (a = b) (by simp)
  | .num a, .num b => decidable_of_iff (a = b) (by simp)
  | .str a, .str b => decidable_of_iff (a = b) (by simp)
  | .arr a, .arr b =>
    match decEqItems a b with
    | isTrue h => isTrue (by rw [h])
    | isFalse h => isFalse (by simpa using h)
  | .obj a, .obj b =>
    match decEqFields a b with
    | isTrue h => isTrue (by rw [h])
    | isFalse h => isFalse (by simpa using h)
  | .null, .bool _ | .null, .num _ | .null, .str _ | .null, .arr _ | .null, .obj _
  | .bool _, .null | .bool _, .num _ | .bool _, .str _ | .bool _, .arr _ | .bool _, .obj _
  | .num _, .null | .num _, .bool _ | .num _, .str _ | .num _, .arr _ | .num _, .obj _
  | .str _, .null | .str _, .bool _ | .str _, .num _ | .str _, .arr _ | .str _, .obj _
  | .arr _, .null | .arr _, .bool _ | .arr _, .num _ | .arr _, .str _ | .arr _, .obj _
  | .obj _, .null | .obj _, .bool _ | .obj _, .num _ | .obj _, .str _ | .obj _, .arr _ =>
    isFalse (by simp)

def decEqItems : (v w : List Json) → Decidable (v = w)
  | [], [] => isTrue rfl
  | [], _ :: _ | _ :: _, [] => isFalse (by simp)
  | v :: vs, w :: ws =>
    match decEq v w, decEqItems vs ws with
    | isTrue h, isTrue hs => isTrue (by rw [h, hs])
    | isFalse h, _ => isFalse (by simp [h])
    | _, isFalse hs => isFalse (by simp [hs])

def decEqFields : (v w : List (String × Json)) → Decidable (v = w)
  | [], [] => isTrue rfl
  | [], _ :: _ | _ :: _, [] => isFalse (by simp)
  | (k, v) :: vs, (l, w) :: ws =>
    if hk : k = l then
      match decEq v w, decEqFields vs ws with
      | isTrue h, isTrue hs => isTrue (by rw [hk, h, hs])
      | isFalse h, _ => isFalse (by simp [h])
      | _, isFalse hs => isFalse (by simp [hs])
    else isFalse (by simp [hk])

end

instance : DecidableEq Json := decEq

def get (field : String) : Json → Option Json
  | .obj fields => fields.lookup field
  | _ => none

def asStr : Json → Option String
  | .str s => some s
  | _ => none

def asArray : Json → Option (List Json)
  | .arr items => some items
  | _ => none

def strArray (strs : List String) : Json := .arr (strs.map Json.str)

theorem strArray_injective : Function.Injective strArray := by
  have hstr : Function.Injective Json.str := fun _ _ h => Json.str.inj h
  exact fun s t h => hstr.list_map (Json.arr.inj h)

def strGroups (groups : List (List String)) : Json := .arr (groups.map strArray)

def isString (v : Json) : Bool := v.asStr.isSome

def isNull : Json → Bool
  | .null => true
  | _ => false

def insertField (field : String) (v : Json) : List (String × Json) → List (String × Json)
  | [] => [(field, v)]
  | (k, w) :: rest =>
    if k = field then (k, v) :: rest else (k, w) :: insertField field v rest

def removeField (field : String) (fields : List (String × Json)) : List (String × Json) :=
  fields.filter fun f => f.1 ≠ field

theorem asStr_eq_some {v : Json} {s : String} : v.asStr = some s ↔ v = .str s := by
  cases v <;> simp [asStr]

theorem get_obj (fields : List (String × Json)) (field : String) :
    (Json.obj fields).get field = fields.lookup field := rfl

theorem get_eq_some {v w : Json} {field : String} :
    v.get field = some w ↔ ∃ fields, v = .obj fields ∧ fields.lookup field = some w := by
  cases v <;> simp [get]

theorem lookup_insertField (field : String) (v : Json) (fields : List (String × Json))
    (key : String) :
    (insertField field v fields).lookup key =
      if key = field then some v else fields.lookup key := by
  induction fields with
  | nil =>
    by_cases hk : key = field
    · simp [insertField, hk]
    · simp [insertField, List.lookup_cons, beq_false_of_ne hk, hk]
  | cons f fields ih =>
    obtain ⟨k, w⟩ := f
    by_cases hf : k = field
    · subst hf
      by_cases hk : key = k
      · simp [insertField, hk]
      · simp [insertField, List.lookup_cons, beq_false_of_ne hk, hk]
    · by_cases hk : key = k
      · subst hk
        simp [insertField, hf]
      · simp [insertField, hf, List.lookup_cons, beq_false_of_ne hk, ih]

theorem mem_insertField {field : String} {v : Json} {fields : List (String × Json)}
    {f : String × Json} (h : f ∈ insertField field v fields) : f = (field, v) ∨ f ∈ fields := by
  induction fields with
  | nil => simpa [insertField] using h
  | cons g fields ih =>
    obtain ⟨k, w⟩ := g
    by_cases hf : k = field
    · simp only [insertField, hf, if_true, List.mem_cons] at h ⊢
      tauto
    · simp only [insertField, hf, if_false, List.mem_cons] at h ⊢
      tauto

theorem distinct_insertField {field : String} {v : Json} {fields : List (String × Json)}
    (h : Assoc.Distinct fields) : Assoc.Distinct (insertField field v fields) := by
  induction fields with
  | nil => simp [insertField, Assoc.Distinct]
  | cons g fields ih =>
    obtain ⟨k, w⟩ := g
    obtain ⟨hk, hd⟩ := Assoc.distinct_cons.mp h
    by_cases hf : k = field
    · simpa only [insertField, hf, if_true] using Assoc.distinct_cons.mpr ⟨hf ▸ hk, hd⟩
    · simp only [insertField, hf, if_false]
      refine Assoc.distinct_cons.mpr ⟨fun u hu => ?_, ih hd⟩
      rcases mem_insertField hu with heq | hmem
      · exact hf (congrArg Prod.fst heq)
      · exact hk u hmem

theorem lookup_removeField (field : String) (fields : List (String × Json)) (key : String) :
    (removeField field fields).lookup key =
      if key = field then none else fields.lookup key := by
  rw [removeField, Assoc.lookup_filter (fun k => decide (k ≠ field))]
  by_cases hk : key = field <;> simp [hk]

theorem distinct_removeField {field : String} {fields : List (String × Json)}
    (h : Assoc.Distinct fields) : Assoc.Distinct (removeField field fields) :=
  h.sublist List.filter_sublist

/-- Every object in the value has distinct keys, as a JSON map has. -/
inductive WellFormed : Json → Prop
  | null : WellFormed .null
  | bool (b : Bool) : WellFormed (.bool b)
  | num (n : Number) : WellFormed (.num n)
  | str (s : String) : WellFormed (.str s)
  | arr {items : List Json} (h : ∀ v ∈ items, WellFormed v) : WellFormed (.arr items)
  | obj {fields : List (String × Json)} (hd : Assoc.Distinct fields)
      (h : ∀ f ∈ fields, WellFormed f.2) : WellFormed (.obj fields)

end Json

end Pipette
