import Pipette.Core.CanonicalText
import Pipette.Core.QueueNames
import Pipette.Lib.Alone
import Pipette.Pipeline.Grouping

/-! Every input of an ingest ends on one job. The units are the classes of inputs that may merge, the
first input of a class is the one that mints, and its placement is the one that is promoted. -/
namespace Pipette

section Firsts

variable {α κ : Type} [DecidableEq κ] {key : α → κ}

theorem mem_eraseDupsBy {l : List α} {a : α} :
    a ∈ l.eraseDupsBy (fun b c => decide (key b = key c)) ↔
      l.find? (fun b => decide (key b = key a)) = some a := by
  induction hn : l.length using Nat.strong_induction_on generalizing l with
  | _ n ih =>
    cases l with
    | nil => simp
    | cons b rest =>
      have hshort : (rest.filter fun c => decide (key c = key b) = false).length < n :=
        hn ▸ Nat.lt_succ_of_le (List.length_filter_le ..)
      rw [List.eraseDupsBy_cons, List.mem_cons, ih _ hshort rfl, List.find?_filter,
        List.find?_cons]
      by_cases hk : key b = key a
      · simp only [hk, decide_true, Option.some.injEq]
        rw [List.find?_eq_none.mpr (by simp)]
        simp [eq_comm]
      · have hsame : ∀ c, (key c ≠ key b ∧ key c = key a) = (key c = key a) := by
          intro c
          refine propext ⟨fun h => h.2, fun h => ⟨fun h' => hk (h'.symm.trans h), h⟩⟩
        have hne : a ≠ b := fun h => hk (h ▸ rfl)
        simp [hk, hne, hsame]

theorem nodup_eraseDupsBy {l : List α} :
    ((l.eraseDupsBy fun b c => decide (key b = key c)).map key).Nodup := by
  induction hn : l.length using Nat.strong_induction_on generalizing l with
  | _ n ih =>
    cases l with
    | nil => simp
    | cons b rest =>
      have hshort : (rest.filter fun c => decide (key c = key b) = false).length < n :=
        hn ▸ Nat.lt_succ_of_le (List.length_filter_le ..)
      rw [List.eraseDupsBy_cons, List.map_cons, List.nodup_cons]
      refine ⟨fun hmem => ?_, ih _ hshort rfl⟩
      obtain ⟨c, hc, hcb⟩ := List.mem_map.mp hmem
      have hc' := List.mem_of_find?_eq_some (mem_eraseDupsBy.mp hc)
      simp [hcb] at hc'

end Firsts

theorem getElem?_snoc {α : Type} {l : List α} {a x : α} {i : Nat} :
    (l ++ [a])[i]? = some x ↔ l[i]? = some x ∨ i = l.length ∧ a = x := by
  rw [List.getElem?_append]
  split
  · next hi =>
    constructor
    · exact .inl
    · rintro (h | ⟨rfl, -⟩)
      · exact h
      · omega
  · next hi =>
    have hnone : l[i]? = none := List.getElem?_eq_none (by omega)
    by_cases he : i = l.length
    · subst he
      simp
    · have : [a][i - l.length]? = none := List.getElem?_eq_none (by simp; omega)
      simp [hnone, this, he]

section Units

variable {Text : Type} (toText : Json → Text) (sha256 : Text → String) (mint : Nat → JobId)

def Merges (input input' : Input) : Prop :=
  mergeable input.body = true ∧ mergeable input'.body = true ∧
    contentDigest toText sha256 input.body = contentDigest toText sha256 input'.body

theorem Merges.symm {toText : Json → Text} {sha256 : Text → String} {input input' : Input}
    (h : Merges toText sha256 input input') : Merges toText sha256 input' input :=
  ⟨h.2.1, h.1, h.2.2.symm⟩

/-- The units are the classes of the inputs so far, each under the id minted for it. -/
structure Grouped (g : Grouping) (placed : List (Input × Nat)) : Prop where
  unitOf : g.unitOf = placed.map Prod.snd
  lead : ∀ u unit, g.units[u]? = some unit →
    (∃ input, placed[CellUnit.lead unit]? = some (input, u)) ∧ unit.candidate = mint u
  unit : ∀ i input u, placed[i]? = some (input, u) →
    ∃ unit, g.units[u]? = some unit ∧ CellUnit.lead unit ≤ i
  same : ∀ (i i' : Nat) (x x' : Input × Nat), placed[i]? = some x → placed[i']? = some x' →
    (x'.2 = x.2 ↔ i' = i ∨ Merges toText sha256 x.1 x'.1)
  byDigest : ∀ digest u, g.byDigest.lookup digest = some u ↔ ∃ input, (input, u) ∈ placed ∧
    mergeable (Input.body input) = true ∧ contentDigest toText sha256 input.body = digest

variable {toText sha256 mint} {g : Grouping} {placed : List (Input × Nat)} {input : Input}

theorem same_snoc {u : Nat}
    (hsame : ∀ (i i' : Nat) (x x' : Input × Nat), placed[i]? = some x → placed[i']? = some x' →
      (x'.2 = x.2 ↔ i' = i ∨ Merges toText sha256 x.1 x'.1))
    (hnew : ∀ x ∈ placed, x.2 = u ↔ Merges toText sha256 input x.1) :
    ∀ (i i' : Nat) (x x' : Input × Nat), (placed ++ [(input, u)])[i]? = some x →
      (placed ++ [(input, u)])[i']? = some x' →
      (x'.2 = x.2 ↔ i' = i ∨ Merges toText sha256 x.1 x'.1) := by
  have hold : ∀ {i : Nat} {x : Input × Nat}, placed[i]? = some x → i < placed.length ∧ x ∈ placed :=
    fun h => ⟨(List.getElem?_eq_some_iff.mp h).1, List.mem_of_getElem? h⟩
  intro i i' x x' hx hx'
  obtain hx | ⟨rfl, rfl⟩ := getElem?_snoc.mp hx <;> obtain hx' | ⟨rfl, rfl⟩ := getElem?_snoc.mp hx'
  · exact hsame i i' x x' hx hx'
  · obtain ⟨hlt, hmem⟩ := hold hx
    rw [eq_comm, hnew x hmem]
    constructor
    · exact fun h => .inr h.symm
    · rintro (h | h)
      · omega
      · exact h.symm
  · obtain ⟨hlt, hmem⟩ := hold hx'
    rw [hnew x' hmem]
    constructor
    · exact .inr
    · rintro (h | h)
      · omega
      · exact h
  · simp

theorem Grouped.join (h : Grouped toText sha256 mint g placed) {u : Nat} {found : CellUnit}
    (hmerge : mergeable input.body = true)
    (hlookup : g.byDigest.lookup (contentDigest toText sha256 input.body) = some u)
    (hfound : g.units[u]? = some found) (horizon : ExpiresAt) :
    Grouped toText sha256 mint
      ⟨g.units.set u { found with horizon }, g.unitOf ++ [u], g.byDigest⟩
      (placed ++ [(input, u)]) := by
  obtain ⟨input₀, hmem₀, hmerge₀, hdigest₀⟩ := (h.byDigest _ _).mp hlookup
  obtain ⟨i₀, hi₀⟩ := List.getElem?_of_mem hmem₀
  have hunits : ∀ (u' : Nat) (unit' : CellUnit),
      (g.units.set u { found with horizon })[u']? = some unit' →
      ∃ unit : CellUnit, g.units[u']? = some unit ∧ unit'.lead = unit.lead ∧
        unit'.candidate = unit.candidate := by
    intro u' unit' hunit'
    rw [List.getElem?_set] at hunit'
    split at hunit'
    · next he =>
      subst he
      split at hunit'
      · cases hunit'
        exact ⟨found, hfound, rfl, rfl⟩
      · cases hunit'
    · exact ⟨unit', hunit', rfl, rfl⟩
  have hkept : ∀ (u' : Nat) (unit : CellUnit), g.units[u']? = some unit →
      ∃ unit' : CellUnit, (g.units.set u { found with horizon })[u']? = some unit' ∧
        unit'.lead = unit.lead := by
    intro u' unit hunit
    have hlt : u' < g.units.length := (List.getElem?_eq_some_iff.mp hunit).1
    rw [List.getElem?_set]
    split
    · next he =>
      subst he
      rw [if_pos hlt]
      cases hfound.symm.trans hunit
      exact ⟨_, rfl, rfl⟩
    · exact ⟨unit, hunit, rfl⟩
  constructor
  · simp [h.unitOf]
  · intro u' unit' hunit'
    obtain ⟨unit, hunit, hlead, hcandidate⟩ := hunits u' unit' hunit'
    obtain ⟨⟨lead, hat⟩, hmint⟩ := h.lead u' unit hunit
    rw [hlead, hcandidate]
    exact ⟨⟨lead, getElem?_snoc.mpr (.inl hat)⟩, hmint⟩
  · intro i input' u' hu'
    obtain hu' | ⟨rfl, he⟩ := getElem?_snoc.mp hu'
    · obtain ⟨unit, hunit, hle⟩ := h.unit i input' u' hu'
      obtain ⟨unit', hunit', hlead⟩ := hkept u' unit hunit
      exact ⟨unit', hunit', by omega⟩
    · cases he
      obtain ⟨unit', hunit', hlead⟩ := hkept u found hfound
      obtain ⟨⟨lead, hat⟩, -⟩ := h.lead u found hfound
      have hlt : found.lead < placed.length := (List.getElem?_eq_some_iff.mp hat).1
      exact ⟨unit', hunit', by omega⟩
  · refine same_snoc h.same fun x hx => ?_
    -- an input is on the unit when it merges with the one that put the unit into the index
    obtain ⟨i, hi⟩ := List.getElem?_of_mem hx
    rw [h.same i₀ i (input₀, u) x hi₀ hi]
    constructor
    · rintro (rfl | ⟨-, hmerge', hdigest'⟩)
      · cases hi₀.symm.trans hi
        exact ⟨hmerge, hmerge₀, hdigest₀.symm⟩
      · exact ⟨hmerge, hmerge', hdigest₀.symm.trans hdigest'⟩
    · exact fun ⟨_, hmerge', hdigest'⟩ => .inr ⟨hmerge₀, hmerge', hdigest₀.trans hdigest'⟩
  · intro digest u'
    rw [h.byDigest digest u']
    constructor
    · rintro ⟨input', hmem, hrest⟩
      exact ⟨input', List.mem_append_left _ hmem, hrest⟩
    · rintro ⟨input', hmem, hmerge', hdigest'⟩
      obtain hmem | hmem := List.mem_append.mp hmem
      · exact ⟨input', hmem, hmerge', hdigest'⟩
      · cases List.mem_singleton.mp hmem
        exact ⟨input₀, hmem₀, hmerge₀, hdigest₀.trans hdigest'⟩

theorem Grouped.start (h : Grouped toText sha256 mint g placed) (input : Input)
    (hnone : mergeable input.body = true →
      g.byDigest.lookup (contentDigest toText sha256 input.body) = none) :
    Grouped toText sha256 mint
      ⟨g.units ++ [⟨g.unitOf.length, input.horizon, mint g.units.length,
          contentDigest toText sha256 input.body⟩], g.unitOf ++ [g.units.length],
        if mergeable input.body then
          g.byDigest.insert (contentDigest toText sha256 input.body) g.units.length
        else g.byDigest⟩
      (placed ++ [(input, g.units.length)]) := by
  have hlength : g.unitOf.length = placed.length := by simp [h.unitOf]
  have hold : ∀ x ∈ placed, x.2 < g.units.length := by
    intro x hx
    obtain ⟨i, hi⟩ := List.getElem?_of_mem hx
    obtain ⟨unit, hunit, -⟩ := h.unit i x.1 x.2 hi
    exact (List.getElem?_eq_some_iff.mp hunit).1
  constructor
  · simp [h.unitOf]
  · intro u unit hunit
    obtain hunit | ⟨rfl, rfl⟩ := getElem?_snoc.mp hunit
    · obtain ⟨⟨lead, hat⟩, hmint⟩ := h.lead u unit hunit
      exact ⟨⟨lead, getElem?_snoc.mpr (.inl hat)⟩, hmint⟩
    · exact ⟨⟨input, getElem?_snoc.mpr (.inr ⟨hlength, rfl⟩)⟩, rfl⟩
  · intro i input' u hu
    obtain hu | ⟨rfl, he⟩ := getElem?_snoc.mp hu
    · obtain ⟨unit, hunit, hle⟩ := h.unit i input' u hu
      exact ⟨unit, getElem?_snoc.mpr (.inl hunit), hle⟩
    · cases he
      exact ⟨_, getElem?_snoc.mpr (.inr ⟨rfl, rfl⟩), le_of_eq hlength⟩
  · refine same_snoc h.same fun x hx => ?_
    refine iff_of_false (by have := hold x hx; omega) fun ⟨hmerge, hmerge', hdigest⟩ => ?_
    have hlookup := (h.byDigest _ x.2).mpr ⟨x.1, hx, hmerge', hdigest.symm⟩
    rw [hnone hmerge] at hlookup
    cases hlookup
  · intro digest u
    have hsnoc : (∃ input', (input', u) ∈ placed ++ [(input, g.units.length)] ∧
        mergeable input'.body = true ∧ contentDigest toText sha256 input'.body = digest) ↔
        g.byDigest.lookup digest = some u ∨ (u = g.units.length ∧ mergeable input.body = true ∧
          contentDigest toText sha256 input.body = digest) := by
      rw [h.byDigest digest u]
      simp only [List.mem_append, List.mem_singleton, Prod.mk.injEq]
      constructor
      · rintro ⟨input', hmem | ⟨rfl, rfl⟩, hrest⟩
        · exact .inl ⟨input', hmem, hrest⟩
        · exact .inr ⟨rfl, hrest⟩
      · rintro (⟨input', hmem, hrest⟩ | ⟨rfl, hrest⟩)
        · exact ⟨input', .inl hmem, hrest⟩
        · exact ⟨input, .inr ⟨rfl, rfl⟩, hrest⟩
    rw [hsnoc]
    cases hmerge : mergeable input.body with
    | false => simp
    | true =>
      simp only [if_true, FileTree.lookup_write, true_and]
      split
      · next hd =>
        subst hd
        simp [hnone hmerge, eq_comm]
      · next hd =>
        simp [Ne.symm hd]

theorem Grouped.add (h : Grouped toText sha256 mint g placed) (input : Input) : ∃ u,
    Grouped toText sha256 mint (g.add toText sha256 mint input.body input.horizon)
      (placed ++ [(input, u)]) := by
  unfold Grouping.add
  dsimp only
  cases hmerge : mergeable input.body with
  | false =>
    refine ⟨g.units.length, ?_⟩
    have := h.start input (by simp [hmerge])
    simpa [hmerge] using this
  | true =>
    cases hlookup : g.byDigest.lookup (contentDigest toText sha256 input.body) with
    | none =>
      refine ⟨g.units.length, ?_⟩
      have := h.start input fun _ => hlookup
      simpa [hmerge, hlookup] using this
    | some u =>
      obtain ⟨input₀, hmem₀, -⟩ := (h.byDigest _ _).mp hlookup
      obtain ⟨i₀, hi₀⟩ := List.getElem?_of_mem hmem₀
      obtain ⟨found, hfound, -⟩ := h.unit i₀ input₀ u hi₀
      refine ⟨u, ?_⟩
      have := h.join hmerge hlookup hfound (max found.horizon input.horizon)
      simpa [hfound] using this

theorem grouped_of (inputs : List Input) : ∃ placed, placed.map Prod.fst = inputs ∧
    Grouped toText sha256 mint (Grouping.ofInputs toText sha256 mint inputs) placed := by
  have hfold : ∀ (inputs : List Input) (g : Grouping) (placed : List (Input × Nat)),
      Grouped toText sha256 mint g placed → ∃ more, more.map Prod.fst = inputs ∧
        Grouped toText sha256 mint (inputs.foldl (fun g input =>
          g.add toText sha256 mint input.body input.horizon) g) (placed ++ more) := by
    intro inputs
    induction inputs with
    | nil => exact fun g placed h => ⟨[], rfl, by simpa using h⟩
    | cons input rest ih =>
      intro g placed h
      obtain ⟨u, hadd⟩ := h.add input
      obtain ⟨more, hmore, hrest⟩ := ih _ _ hadd
      exact ⟨(input, u) :: more, by simp [hmore], by simpa using hrest⟩
  obtain ⟨placed, hplaced, h⟩ := hfold inputs ⟨[], [], ∅⟩ [] (by constructor <;> simp)
  refine ⟨placed, hplaced, ?_⟩
  rw [Grouping.ofInputs, Grouping.of, List.foldl_map]
  exact h

end Units

theorem getElem?_mapM {α β : Type} {f : α → Option β} {l : List α} {ys : List β}
    (h : l.mapM f = some ys) (i : Nat) : ys[i]? = (l[i]?).bind f := by
  induction l generalizing ys i with
  | nil =>
    cases h
    rfl
  | cons a rest ih =>
    simp only [List.mapM_cons, Option.bind_eq_bind, Option.bind_eq_some_iff, Option.pure_def,
      Option.some.injEq] at h
    obtain ⟨y, hy, ys', hrest, rfl⟩ := h
    cases i with
    | zero => simp [hy]
    | succ i => simpa using ih hrest i

theorem length_mapM {α β : Type} {f : α → Option β} {l : List α} {ys : List β}
    (h : l.mapM f = some ys) : ys.length = l.length := by
  induction l generalizing ys with
  | nil =>
    cases h
    rfl
  | cons a rest ih =>
    simp only [List.mapM_cons, Option.bind_eq_bind, Option.bind_eq_some_iff, Option.pure_def,
      Option.some.injEq] at h
    obtain ⟨y, -, ys', hrest, rfl⟩ := h
    simpa using ih hrest

theorem mapM_of_isSome {α β : Type} {f : α → Option β} {l : List α}
    (h : ∀ a ∈ l, (f a).isSome) : ∃ ys, l.mapM f = some ys := by
  induction l with
  | nil => exact ⟨[], rfl⟩
  | cons a rest ih =>
    obtain ⟨y, hy⟩ := Option.isSome_iff_exists.mp (h a (by simp))
    obtain ⟨ys, hys⟩ := ih fun b hb => h b (by simp [hb])
    exact ⟨y :: ys, by simp [List.mapM_cons, hy, hys]⟩

section Placements

variable {Text : Type} {toText : Json → Text} {sha256 : Text → String} {mint : Nat → JobId}
  {spell : ExpiresAt → String} {g : Grouping} {placed : List (Input × Nat)}
  {outcomes : List Placed} {inherited : List Inherited} {inputs : List Input}

/-- The placement of input `i`, on unit `u`: on the job of the unit, which its lead minted or which
the unit joined. -/
structure OnUnit (mint : Nat → JobId) (g : Grouping) (outcomes : List Placed) (i : Nat)
    (input : Input) (u : Nat) (p : PlacedInput) : Prop where
  label : p.label = input.label
  horizon : p.horizon = input.horizon
  parent : p.parent = none
  object : ∃ fields, p.body = .obj fields
  job : (outcomes[u]? = some .fresh ∧ p.jobId = mint u ∧
      (p.merged = none ↔ ∃ unit, g.units[u]? = some unit ∧ CellUnit.lead unit = i)) ∨
    ∃ target, outcomes[u]? = some (.join target) ∧ p.jobId = target.jobId ∧ p.merged ≠ none

theorem stampField_object {field text : String} {body : Json} (h : ∃ fields, body = .obj fields) :
    ∃ fields, PlacedInput.stampField field text body = .obj fields := by
  obtain ⟨fields, rfl⟩ := h
  exact ⟨_, rfl⟩

theorem OnUnit.retime {i u : Nat} {input : Input} {p : PlacedInput} {d : ExpiresAt}
    (h : OnUnit mint g outcomes i input u p) :
    OnUnit mint g outcomes i input u (p.retime spell d) :=
  ⟨h.label, h.horizon, h.parent, stampField_object h.object, h.job⟩

theorem onUnit_new (h : Grouped toText sha256 mint g placed) {i u : Nat} {input : Input}
    {unit : CellUnit} {outcome : Placed} (hunit : g.units[u]? = some unit)
    (houtcome : outcomes[u]? = some outcome) : OnUnit mint g outcomes i input u
      (PlacedInput.new spell input unit (unit.outcomeFor i outcome) none) := by
  have hmint := (h.lead u unit hunit).2
  have hobject := input.object
  cases outcome with
  | join target =>
    refine ⟨rfl, rfl, rfl, stampField_object (stampField_object hobject), .inr ⟨target, houtcome, ?_⟩⟩
    exact ⟨rfl, by simp [PlacedInput.new, CellUnit.outcomeFor, PlacedInput.retime]⟩
  | fresh =>
    by_cases hi : i = unit.lead
    · simp only [CellUnit.outcomeFor, hi, if_true]
      refine ⟨rfl, rfl, rfl, stampField_object (stampField_object hobject),
        .inl ⟨houtcome, hmint, ?_⟩⟩
      exact iff_of_true rfl ⟨unit, hunit, rfl⟩
    · simp only [CellUnit.outcomeFor, if_neg hi]
      refine ⟨rfl, rfl, rfl, stampField_object (stampField_object hobject),
        .inl ⟨houtcome, hmint, ?_⟩⟩
      refine iff_of_false (by simp [PlacedInput.new, PlacedInput.retime]) ?_
      rintro ⟨unit', hunit', hlead⟩
      cases hunit.symm.trans hunit'
      exact hi hlead.symm

theorem parentOf_nothing (placed : Placed) : parentOf placed .nothing = none := by
  cases placed <;> rfl

theorem firstPlacements_some (h : Grouped toText sha256 mint g placed)
    (hinputs : placed.map Prod.fst = inputs) (houtcomes : outcomes.length = g.units.length)
    (hnothing : ∀ x ∈ inherited, x = .nothing) :
    ∃ qs, firstPlacements spell inputs g outcomes inherited = some qs ∧
      qs.length = placed.length ∧ ∀ (i : Nat) (input : Input) (u : Nat),
        placed[i]? = some (input, u) → ∃ q, qs[i]? = some q ∧ OnUnit mint g outcomes i input u q := by
  have hzip : inputs.zip g.unitOf = placed := by
    rw [← hinputs, h.unitOf]
    exact (List.zip_of_prod rfl rfl).symm
  have hfound : ∀ (i : Nat) (input : Input) (u : Nat), placed[i]? = some (input, u) →
      ∃ unit outcome, g.units[u]? = some unit ∧ outcomes[u]? = some outcome := by
    intro i input u hi
    obtain ⟨unit, hunit, -⟩ := h.unit i input u hi
    have hlt : u < outcomes.length := houtcomes ▸ (List.getElem?_eq_some_iff.mp hunit).1
    exact ⟨unit, outcomes[u], hunit, List.getElem?_eq_getElem hlt⟩
  have hparent : ∀ (u : Nat) (placed : Placed), (inherited[u]?).bind (parentOf placed) = none := by
    intro u placed
    cases hu : inherited[u]? with
    | none => rfl
    | some x =>
      rw [hnothing x (List.mem_of_getElem? hu)]
      exact parentOf_nothing placed
  have hsome : ∃ qs, firstPlacements spell inputs g outcomes inherited = some qs := by
    unfold firstPlacements
    rw [hzip]
    refine mapM_of_isSome fun x hx => ?_
    obtain ⟨⟨input, u⟩, i⟩ := x
    have hi : placed[i]? = some (input, u) := List.mk_mem_zipIdx_iff_getElem?.mp hx
    obtain ⟨unit, outcome, hunit, houtcome⟩ := hfound i input u hi
    simp [hunit, houtcome]
  obtain ⟨qs, hqs⟩ := hsome
  refine ⟨qs, hqs, ?_, fun i input u hi => ?_⟩
  · have hlength := length_mapM hqs
    rwa [hzip, List.length_zipIdx] at hlength
  · obtain ⟨unit, outcome, hunit, houtcome⟩ := hfound i input u hi
    have hget := getElem?_mapM hqs i
    rw [hzip, List.getElem?_zipIdx, hi] at hget
    simp only [Option.map_some, Option.bind_some, hunit, houtcome, hparent, Option.bind_eq_bind,
      Nat.zero_add, Option.pure_def] at hget
    exact ⟨_, hget, onUnit_new h hunit houtcome⟩

theorem latest_spec (l : List PlacedInput) (j : JobId) :
    let latest := l.foldl (fun (acc : FileTree JobId ExpiresAt) p =>
      acc.insert p.jobId (((acc.lookup p.jobId).map (max · p.horizon)).getD p.horizon)) ∅
    (latest.lookup j = none ∧ ∀ p ∈ l, p.jobId ≠ j) ∨
      ∃ d, latest.lookup j = some d ∧ (∀ p ∈ l, p.jobId = j → p.horizon ≤ d) ∧
        ∃ p ∈ l, p.jobId = j ∧ p.horizon = d := by
  induction l using List.reverseRecOn with
  | nil => exact .inl ⟨rfl, by simp⟩
  | append_singleton l q ih =>
    rw [List.foldl_append]
    dsimp only [List.foldl_cons, List.foldl_nil] at ih ⊢
    by_cases hq : q.jobId = j
    · subst hq
      rw [FileTree.lookup_write, if_pos rfl]
      obtain ⟨hnone, hother⟩ | ⟨d, hd, hle, p, hp, hpj, hpd⟩ := ih
      · refine .inr ⟨q.horizon, by rw [hnone]; rfl, fun p hp hpj => ?_, q, by simp, rfl, rfl⟩
        obtain hp | hp := List.mem_append.mp hp
        · exact absurd hpj (hother p hp)
        · cases List.mem_singleton.mp hp
          exact le_refl _
      · refine .inr ⟨max d q.horizon, by rw [hd]; rfl, fun p hp hpj => ?_, ?_⟩
        · obtain hp | hp := List.mem_append.mp hp
          · exact le_trans (hle p hp hpj) (le_max_left _ _)
          · cases List.mem_singleton.mp hp
            exact le_max_right _ _
        · obtain hmax | hmax := max_choice d q.horizon
          · exact ⟨p, List.mem_append_left _ hp, hpj, hpd.trans hmax.symm⟩
          · exact ⟨q, by simp, rfl, hmax.symm⟩
    · rw [FileTree.lookup_write, if_neg (Ne.symm hq)]
      obtain ⟨hnone, hother⟩ | ⟨d, hd, hle, p, hp, hpj, hpd⟩ := ih
      · refine .inl ⟨hnone, fun p hp => ?_⟩
        obtain hp | hp := List.mem_append.mp hp
        · exact hother p hp
        · cases List.mem_singleton.mp hp
          exact hq
      · refine .inr ⟨d, hd, fun p hp hpj => ?_, p, List.mem_append_left _ hp, hpj, hpd⟩
        obtain hp | hp := List.mem_append.mp hp
        · exact hle p hp hpj
        · cases List.mem_singleton.mp hp
          exact absurd hpj hq

def Minted (ps : List PlacedInput) (j : JobId) : Prop := ∃ p ∈ ps, p.jobId = j ∧ p.merged = none

theorem mintedDeadlines_spec {qs : List PlacedInput} {j : JobId} (h : Minted qs j) :
    ∃ d, (mintedDeadlines qs).lookup j = some d ∧ (∀ p ∈ qs, p.jobId = j → p.horizon ≤ d) ∧
      ∃ p ∈ qs, p.jobId = j ∧ p.horizon = d := by
  obtain ⟨q, hq, hqj, hmerged⟩ := h
  have hj : j ∈ (qs.filter (·.merged.isNone)).map (·.jobId) :=
    List.mem_map.mpr ⟨q, List.mem_filter.mpr ⟨hq, by simp [hmerged]⟩, hqj⟩
  have hkeep : ∀ p ∈ qs, p.jobId = j →
      p ∈ qs.filter fun p => p.jobId ∈ (qs.filter (·.merged.isNone)).map (·.jobId) :=
    fun p hp hpj => List.mem_filter.mpr ⟨hp, decide_eq_true (hpj ▸ hj)⟩
  obtain ⟨-, hnone⟩ | ⟨d, hd, hle, p, hp, hpd⟩ := latest_spec
    (qs.filter fun p => p.jobId ∈ (qs.filter (·.merged.isNone)).map (·.jobId)) j
  · exact absurd hqj (hnone q (hkeep q hq hqj))
  · exact ⟨d, hd, fun p hp hpj => hle p (hkeep p hp hpj) hpj, p, (List.mem_filter.mp hp).1, hpd⟩

theorem placed_of_getElem? {ps : List PlacedInput} (hlength : ps.length = placed.length)
    {p : PlacedInput} {i : Nat} (hp : ps[i]? = some p) :
    ∃ input u, placed[i]? = some (input, u) := by
  have hlt : i < placed.length := hlength ▸ (List.getElem?_eq_some_iff.mp hp).1
  exact ⟨placed[i].1, placed[i].2, List.getElem?_eq_getElem hlt⟩

theorem mem_distinct {f : Filing} {ps : List PlacedInput}
    (hf : f.placements = ps.map PlacedInput.toPlacement) {x : Placement} :
    x ∈ f.distinct ↔ ∃ p, ps.find? (fun q => decide (q.jobId = p.jobId)) = some p ∧
      p.toPlacement = x := by
  unfold Filing.distinct
  rw [hf, mem_eraseDupsBy, List.find?_map, Option.map_eq_some_iff]
  constructor
  · rintro ⟨p, hp, rfl⟩
    exact ⟨p, hp, rfl⟩
  · rintro ⟨p, hp, rfl⟩
    exact ⟨p, hp, rfl⟩

theorem first_of_mem {ps : List PlacedInput} {p : PlacedInput} (hp : p ∈ ps) :
    ∃ q, ps.find? (fun r => decide (r.jobId = q.jobId)) = some q ∧ q.jobId = p.jobId := by
  have hsome : (ps.find? fun r => decide (r.jobId = p.jobId)).isSome :=
    List.find?_isSome.mpr ⟨p, hp, by simp⟩
  obtain ⟨q, hq⟩ := Option.isSome_iff_exists.mp hsome
  have hjob : q.jobId = p.jobId := by simpa using List.find?_some hq
  exact ⟨q, by rw [hjob]; exact hq, hjob⟩

section Jobs

variable {ps : List PlacedInput} (hlength : ps.length = placed.length)
  (hon : ∀ (i : Nat) (input : Input) (u : Nat) (p : PlacedInput), placed[i]? = some (input, u) →
    ps[i]? = some p → OnUnit mint g outcomes i input u p)
  (hjoin : ∀ target, .join target ∈ outcomes → ∀ u, JoinTarget.jobId target ≠ mint u)

include hlength hon hjoin

theorem minted_unit {i u : Nat} {input : Input} {p : PlacedInput}
    (hi : placed[i]? = some (input, u)) (hp : ps[i]? = some p) (hminted : Minted ps p.jobId) :
    outcomes[u]? = some .fresh ∧ p.jobId = mint u := by
  obtain ⟨q, hq, hqp, hmerged⟩ := hminted
  obtain ⟨i', hi'⟩ := List.getElem?_of_mem hq
  obtain ⟨input', u', hu'⟩ := placed_of_getElem? hlength hi'
  have hqjob : q.jobId = mint u' := by
    obtain ⟨-, hjob, -⟩ | ⟨target, -, -, hsome⟩ := (hon i' input' u' q hu' hi').job
    · exact hjob
    · exact absurd hmerged hsome
  obtain ⟨hfresh, hjob, -⟩ | ⟨target, htarget, hjob, -⟩ := (hon i input u p hi hp).job
  · exact ⟨hfresh, hjob⟩
  · have := hjoin target (List.mem_of_getElem? htarget) u'
    exact absurd (hjob.symm.trans (hqp.symm.trans hqjob)) this

theorem minted_shared (h : Grouped toText sha256 mint g placed) (hmint : Function.Injective mint)
    {i i' u u' : Nat} {input input' : Input} {p p' : PlacedInput}
    (hi : placed[i]? = some (input, u)) (hp : ps[i]? = some p)
    (hi' : placed[i']? = some (input', u')) (hp' : ps[i']? = some p')
    (hminted : Minted ps p.jobId) :
    p'.jobId = p.jobId ↔ i' = i ∨ Merges toText sha256 input input' := by
  obtain ⟨hfresh, hjob⟩ := minted_unit hlength hon hjoin hi hp hminted
  rw [← h.same i i' (input, u) (input', u') hi hi']
  constructor
  · intro he
    obtain ⟨-, hjob'⟩ := minted_unit hlength hon hjoin hi' hp' (he ▸ hminted)
    exact hmint (hjob'.symm.trans (he.trans hjob))
  · intro (he : u' = u)
    subst he
    obtain ⟨-, hjob', -⟩ | ⟨target, htarget, -⟩ := (hon i' input' u' p' hi' hp').job
    · exact hjob'.trans hjob.symm
    · cases hfresh.symm.trans htarget

theorem first_mints (h : Grouped toText sha256 mint g placed) {p : PlacedInput}
    (hminted : Minted ps p.jobId)
    (hfirst : ps.find? (fun q => decide (q.jobId = p.jobId)) = some p) : p.merged = none := by
  obtain ⟨-, i, hi, hp, hearlier⟩ := List.find?_eq_some_iff_getElem.mp hfirst
  have hpi : ps[i]? = some p := hp ▸ List.getElem?_eq_getElem hi
  obtain ⟨input, u, hu⟩ := placed_of_getElem? hlength hpi
  obtain ⟨hfresh, hjob⟩ := minted_unit hlength hon hjoin hu hpi hminted
  obtain ⟨unit, hunit, hle⟩ := h.unit i input u hu
  obtain ⟨⟨lead, hlead⟩, -⟩ := h.lead u unit hunit
  have hlt : unit.lead < ps.length := by omega
  have hshared : (ps[unit.lead]).jobId = p.jobId := by
    obtain ⟨-, hjob', -⟩ | ⟨target, htarget, -⟩ :=
      (hon unit.lead lead u _ hlead (List.getElem?_eq_getElem hlt)).job
    · exact hjob'.trans hjob.symm
    · cases hfresh.symm.trans htarget
  have hsame : unit.lead = i := by
    refine Nat.le_antisymm hle (Nat.le_of_not_lt fun hbefore => ?_)
    have := hearlier unit.lead hbefore
    simp [hshared] at this
  obtain ⟨-, -, hmerged⟩ | ⟨target, htarget, -⟩ := (hon i input u p hu hpi).job
  · exact hmerged.mpr ⟨unit, hunit, hsame⟩
  · cases hfresh.symm.trans htarget

theorem minted_filed_once (h : Grouped toText sha256 mint g placed) {f : Filing}
    (hf : f.placements = ps.map PlacedInput.toPlacement) {j : JobId} (hminted : Minted ps j) :
    ((f.distinct.filter (·.mints)).map (·.jobId)).count j = 1 := by
  obtain ⟨p, hp, rfl, -⟩ := id hminted
  obtain ⟨q, hfirst, hjob⟩ := first_of_mem hp
  have hqmerged : q.merged = none := first_mints hlength hon hjoin h (hjob ▸ hminted) hfirst
  have hmints : q.toPlacement.mints = true := by
    obtain ⟨i, hi⟩ := List.getElem?_of_mem (List.mem_of_find?_eq_some hfirst)
    obtain ⟨input, u, hu⟩ := placed_of_getElem? hlength hi
    have hparent := (hon i input u q hu hi).parent
    simp [Placement.mints, Placement.recalculated, hparent, hqmerged]
  have hnodup : ((f.distinct.filter (·.mints)).map (·.jobId)).Nodup :=
    nodup_eraseDupsBy.sublist (List.filter_sublist.map _)
  refine List.count_eq_one_of_mem hnodup (List.mem_map.mpr ⟨q.toPlacement, ?_, hjob⟩)
  exact List.mem_filter.mpr ⟨(mem_distinct hf).mpr ⟨q, hfirst, rfl⟩, hmints⟩

end Jobs

theorem retimeMinted_getElem? {qs : List PlacedInput} {i : Nat} {p : PlacedInput}
    (h : (retimeMinted spell qs)[i]? = some p) : ∃ q, qs[i]? = some q ∧
      (p = q ∨ ∃ d, p = q.retime spell d) ∧
      ∀ d, (mintedDeadlines qs).lookup q.jobId = some d → p = q.retime spell d := by
  unfold retimeMinted at h
  rw [List.getElem?_map] at h
  obtain ⟨q, hq, rfl⟩ := Option.map_eq_some_iff.mp h
  refine ⟨q, hq, ?_, fun d hd => by rw [hd]⟩
  cases (mintedDeadlines qs).lookup q.jobId with
  | none => exact .inl rfl
  | some d => exact .inr ⟨d, rfl⟩

theorem mem_retimeMinted {qs : List PlacedInput} {p : PlacedInput} (h : p ∈ retimeMinted spell qs) :
    ∃ q ∈ qs, p.jobId = q.jobId ∧ p.merged = q.merged ∧ p.horizon = q.horizon := by
  obtain ⟨i, hi⟩ := List.getElem?_of_mem h
  obtain ⟨q, hq, hpq, -⟩ := retimeMinted_getElem? hi
  refine ⟨q, List.mem_of_getElem? hq, ?_⟩
  obtain rfl | ⟨d, rfl⟩ := hpq <;> exact ⟨rfl, rfl, rfl⟩

variable (spell) in
theorem retimed_of_mem {qs : List PlacedInput} {q : PlacedInput} (h : q ∈ qs) :
    ∃ p ∈ retimeMinted spell qs, p.jobId = q.jobId ∧ p.horizon = q.horizon := by
  refine ⟨_, List.mem_map_of_mem h, ?_⟩
  split <;> exact ⟨rfl, rfl⟩

theorem get_retime {p : PlacedInput} {d : ExpiresAt} (h : ∃ fields, p.body = .obj fields) :
    (p.retime spell d).body.get "expires_at" = some (.str (spell d)) := by
  obtain ⟨fields, hfields⟩ := h
  simp only [PlacedInput.retime, hfields, PlacedInput.stampField]
  rw [Json.get_obj, Json.lookup_insertField, if_pos rfl]

/-- A minted placement carries, in its key and in its body, the latest horizon of its inputs. -/
theorem mints_latest {qs : List PlacedInput} {f : Filing}
    (hf : f.placements = (retimeMinted spell qs).map PlacedInput.toPlacement)
    (hobject : ∀ q ∈ qs, ∃ fields, q.body = .obj fields) {x : Placement}
    (hx : x ∈ f.distinct.filter (·.mints)) : Minted (retimeMinted spell qs) x.jobId ∧
      (∀ p ∈ retimeMinted spell qs, p.jobId = x.jobId → p.horizon ≤ x.expiresAt) ∧
      (∃ p ∈ retimeMinted spell qs, p.jobId = x.jobId ∧ p.horizon = x.expiresAt) ∧
      x.body.get "expires_at" = some (.str (spell x.expiresAt)) := by
  obtain ⟨hx, hmints⟩ := List.mem_filter.mp hx
  obtain ⟨p, hfirst, rfl⟩ := (mem_distinct hf).mp hx
  have hp := List.mem_of_find?_eq_some hfirst
  have hmerged : p.merged = none := by
    simpa using (Bool.and_eq_true_iff.mp hmints).2
  obtain ⟨i, hi⟩ := List.getElem?_of_mem hp
  obtain ⟨q, hq, hsame, hretimed⟩ := retimeMinted_getElem? hi
  have hqmem := List.mem_of_getElem? hq
  have hminted : Minted qs q.jobId := by
    refine ⟨q, hqmem, rfl, ?_⟩
    obtain rfl | ⟨d, rfl⟩ := hsame <;> exact hmerged
  obtain ⟨d, hd, hle, r, hr, hrjob, hrd⟩ := mintedDeadlines_spec hminted
  obtain rfl := hretimed d hd
  refine ⟨⟨_, hp, rfl, hmerged⟩, fun p' hp' hjob' => ?_, ?_, get_retime (hobject q hqmem)⟩
  · obtain ⟨r', hr', hrjob', -, hrhorizon⟩ := mem_retimeMinted hp'
    rw [hrhorizon]
    exact hle r' hr' (hrjob'.symm.trans hjob')
  · obtain ⟨p', hp', hpjob, hphorizon⟩ := retimed_of_mem spell hr
    exact ⟨p', hp', hpjob.trans hrjob, hphorizon.trans hrd⟩

theorem count_distinct {f : Filing} {ps : List PlacedInput}
    (hf : f.placements = ps.map PlacedInput.toPlacement) {p : PlacedInput} (hp : p ∈ ps) :
    f.creating.jobIds.count p.jobId = 1 := by
  obtain ⟨q, hfirst, hjob⟩ := first_of_mem hp
  have hnodup : (f.distinct.map (·.jobId)).Nodup := nodup_eraseDupsBy
  refine List.count_eq_one_of_mem hnodup (List.mem_map.mpr ⟨q.toPlacement, ?_, hjob⟩)
  exact (mem_distinct hf).mpr ⟨q, hfirst, rfl⟩

/-- The files of the job in `tmp/` and `avail/` are as they were. -/
def LeavesFiles (j : JobId) (w w' : World) : Prop :=
  w'.queue.files.lookup (.tmp j) = w.queue.files.lookup (.tmp j) ∧
    ∀ d, w'.queue.files.lookup (.avail ⟨j, d⟩) = w.queue.files.lookup (.avail ⟨j, d⟩)

instance (j : JobId) : Std.Refl (LeavesFiles j) := ⟨fun _ => ⟨rfl, fun _ => rfl⟩⟩

instance (j : JobId) : IsTrans World (LeavesFiles j) :=
  ⟨fun _ _ _ h h' => ⟨h'.1.trans h.1, fun d => (h'.2 d).trans (h.2 d)⟩⟩

inductive PromoteCall (j : JobId) : StoreCall → Prop
  | write (body : Json) : PromoteCall j (.queue (.writeTmp j body))
  | promote (d : ExpiresAt) : PromoteCall j (.queue (.rename (.tmp j) (.avail ⟨j, d⟩)))

theorem PromoteCall.leaves {j j' : JobId} {c : StoreCall} (h : PromoteCall j c) (hne : j' ≠ j)
    (w : World) : LeavesFiles j' w (machine c w).2 := by
  cases h with
  | write body => simp [LeavesFiles, machine, QueueCall.step, hne]
  | promote d =>
    simp only [LeavesFiles, machine, QueueCall.step]
    split
    · next files hfiles => simp [FileTree.lookup_rename hfiles, hne]
    · exact ⟨rfl, fun _ => rfl⟩

/-- The job is in `avail/` under the deadline of its placement alone, with the placed body. -/
def Promoted (p : Placement) (w : World) : Prop :=
  ∀ d, w.queue.files.lookup (.avail ⟨p.jobId, d⟩) = if d = p.expiresAt then some p.body else none

theorem promote_sat (p : Placement) {w : World}
    (hfree : ∀ d, w.queue.files.lookup (.avail ⟨p.jobId, d⟩) = none) :
    p.promote.Sat machine.clean (LeavesFiles p.jobId) (fun c _ => PromoteCall p.jobId c)
      (fun r w => (∀ a, r = .ok a → Promoted p w) ∧ ∀ e, r = .error e → False) w := by
  refine .store_bind fun w₁ h₁ => ⟨.write _, fun _ w₂ hwrite => ?_, fun _ _ herror => by cases herror.1⟩
  have htmp : w₂.queue.files.lookup (.tmp p.jobId) = some p.body := by
    rw [hwrite.2]
    simp [machine, QueueCall.step]
  have hnone : ∀ d, w₂.queue.files.lookup (.avail ⟨p.jobId, d⟩) = none := by
    intro d
    rw [hwrite.2]
    simp [machine, QueueCall.step, h₁.2, hfree]
  refine .store_bind fun w₃ h₃ => ⟨.promote _, fun moved w₄ hmove => ?_,
    fun _ _ herror => by cases herror.1⟩
  obtain ⟨hanswer, rfl⟩ := hmove
  cases hrename : w₃.queue.files.rename (.tmp p.jobId) (.avail ⟨p.jobId, p.expiresAt⟩) with
  | none =>
    rw [FileTree.rename_eq_none, h₃.1, htmp] at hrename
    cases hrename
  | some files =>
    have hmoved : moved = true := by
      simpa [machine, QueueCall.step, hrename] using Except.ok.inj hanswer
    rw [hmoved, if_pos rfl]
    refine fun w₅ h₅ => ⟨fun _ _ d => ?_, fun _ herror => by cases herror⟩
    rw [h₅.2]
    simp [machine, QueueCall.step, hrename, FileTree.lookup_rename hrename, h₃.1, htmp, h₃.2, hnone]

/-- Run alone, however its promotions interleave, the ingest puts each job it mints into `avail/`
under one key, and leaves the entries of the other jobs. -/
theorem promote_promotes (f : Filing) {w : World}
    (hfree : ∀ p ∈ f.distinct.filter (·.mints), ∀ d,
      w.queue.files.lookup (.avail ⟨p.jobId, d⟩) = none) :
    ∃ w', f.promote.exec machine w = (.ok (), w') ∧
      (∀ p ∈ f.distinct.filter (·.mints), Promoted p w') ∧
      ∀ k : AvailKey, (∀ p ∈ f.distinct.filter (·.mints), p.jobId ≠ k.jobId) →
        w'.queue.files.lookup (.avail k) = w.queue.files.lookup (.avail k) := by
  have hnodup : ((f.distinct.filter (·.mints)).map (·.jobId)).Nodup :=
    nodup_eraseDupsBy.sublist (List.filter_sublist.map _)
  have hbear : (f.distinct.filter (·.mints)).Pairwise fun p q =>
      (∀ c w r w', PromoteCall p.jobId c → machine.clean c w r w' → LeavesFiles q.jobId w w') ∧
      ∀ c w r w', PromoteCall q.jobId c → machine.clean c w r w' → LeavesFiles p.jobId w w' := by
    refine (List.pairwise_map.mp hnodup).imp fun {p q} hne => ⟨?_, ?_⟩
    · rintro c w _ _ hcall ⟨-, rfl⟩
      exact hcall.leaves (Ne.symm hne) w
    · rintro c w _ _ hcall ⟨-, rfl⟩
      exact hcall.leaves hne w
  have hall := Prog.Sat.parAll
    (fun p w w' (h : Promoted p w) (hw : LeavesFiles p.jobId w w') d => (hw.2 d).trans (h d)) hbear
    (fun p hp => promote_sat p (hfree p hp)) f.promoting
  have hrefl : Std.Refl fun w w' : World =>
      ∀ p ∈ f.distinct.filter (·.mints), LeavesFiles p.jobId w w' := ⟨fun w p _ => refl_of _ w⟩
  have hend := hall.exec
  have hcalls : (Prog.parAll f.promoting ((f.distinct.filter (·.mints)).map Placement.promote)).Calls
      fun c => ∃ p ∈ f.distinct.filter (·.mints), PromoteCall p.jobId c := by
    refine .parAll _ fun q hq => ?_
    obtain ⟨p, hp, rfl⟩ := List.mem_map.mp hq
    refine .bind (.store ⟨p, hp, .write _⟩) fun _ => .bind (.store ⟨p, hp, .promote _⟩) fun moved => ?_
    split
    · exact .ret _
    · exact .fail _
  have hkeep : ∀ k : AvailKey, (∀ p ∈ f.distinct.filter (·.mints), p.jobId ≠ k.jobId) →
      ((Prog.parAll f.promoting ((f.distinct.filter (·.mints)).map Placement.promote)).exec machine
        w).2.queue.files.lookup (.avail k) = w.queue.files.lookup (.avail k) := by
    intro k hother
    refine (Prog.Alone.invariant (J := fun w' : World =>
      w'.queue.files.lookup (.avail k) = w.queue.files.lookup (.avail k)) ?_ hcalls rfl).exec
    rintro c v ⟨p, hp, hcall⟩ hv
    exact ((hcall.leaves (Ne.symm (hother p hp)) v).2 k.expiresAt).trans hv
  unfold Filing.promote Prog.void
  rw [Prog.exec_bind]
  generalize (Prog.parAll f.promoting ((f.distinct.filter (·.mints)).map Placement.promote)).exec
    machine w = result at hend hkeep
  obtain ⟨_ | as, w'⟩ := result
  · exact absurd (hend.2 _ rfl) not_false
  · exact ⟨w', rfl, hend.1 as rfl, hkeep⟩

variable (toText sha256 spell outcomes inherited inputs)

/-- For every list of validated inputs of a plan that inherits nothing, and whatever its units join:
every input is placed, and its job is listed once; two inputs are on one minted job exactly when both
allow merging and their digests agree; and from any queue that has none of the new ids the promotion
puts each minted job into `avail/` once, under the latest horizon of its inputs, which its body
carries too, and nothing else. -/
theorem inputs_placed_once (hmint : Function.Injective mint)
    (houtcomes : outcomes.length = (Grouping.ofInputs toText sha256 mint inputs).units.length)
    (hjoin : ∀ target, .join target ∈ outcomes → ∀ u, JoinTarget.jobId target ≠ mint u)
    (hnothing : ∀ x ∈ inherited, x = .nothing) :
    ∃ ps, placeInputs spell inputs (Grouping.ofInputs toText sha256 mint inputs) outcomes inherited =
        some ps ∧
      ∀ f : Filing, f.placements = ps.map PlacedInput.toPlacement →
        List.Forall₂ (fun input p => p.label = Input.label input ∧ p.horizon = input.horizon ∧
          f.creating.jobIds.count p.jobId = 1) inputs ps ∧
        (∀ (i i' : Nat) (input input' : Input) (p p' : PlacedInput), inputs[i]? = some input →
          inputs[i']? = some input' → ps[i]? = some p → ps[i']? = some p' → Minted ps p.jobId →
          (p'.jobId = p.jobId ↔ i' = i ∨ Merges toText sha256 input input')) ∧
        (∀ j, Minted ps j → ((f.distinct.filter (·.mints)).map (·.jobId)).count j = 1) ∧
        ∀ w : World, (∀ j, Minted ps j → ∀ d, w.queue.files.lookup (.avail ⟨j, d⟩) = none) →
          ∃ w', f.promote.exec machine w = (.ok (), w') ∧
            (∀ j, Minted ps j → ∃ deadline body,
              (∀ d, w'.queue.files.lookup (.avail ⟨j, d⟩) = if d = deadline then some body else none) ∧
              (∀ p ∈ ps, p.jobId = j → p.horizon ≤ deadline) ∧
              (∃ p ∈ ps, p.jobId = j ∧ p.horizon = deadline) ∧
              body.get "expires_at" = some (.str (spell deadline))) ∧
            ∀ k : AvailKey, ¬ Minted ps k.jobId →
              w'.queue.files.lookup (.avail k) = w.queue.files.lookup (.avail k) := by
  obtain ⟨placed, hinputs, hgrouped⟩ : ∃ placed, placed.map Prod.fst = inputs ∧
    Grouped toText sha256 mint (Grouping.ofInputs toText sha256 mint inputs) placed := grouped_of inputs
  generalize Grouping.ofInputs toText sha256 mint inputs = g at hgrouped houtcomes ⊢
  obtain ⟨qs, hqs, hqlength, hqon⟩ : ∃ qs, firstPlacements spell inputs g outcomes inherited =
      some qs ∧ _ := firstPlacements_some hgrouped hinputs houtcomes hnothing
  have hlength : (retimeMinted spell qs).length = placed.length := by
    rw [retimeMinted, List.length_map, hqlength]
  have hon : ∀ (i : Nat) (input : Input) (u : Nat) (p : PlacedInput),
      placed[i]? = some (input, u) → (retimeMinted spell qs)[i]? = some p →
      OnUnit mint g outcomes i input u p := by
    intro i input u p hi hp
    obtain ⟨q, hq, hpq, -⟩ := retimeMinted_getElem? hp
    obtain ⟨q', hq', hunit⟩ := hqon i input u hi
    cases hq.symm.trans hq'
    obtain rfl | ⟨d, rfl⟩ := hpq
    · exact hunit
    · exact hunit.retime
  have hplaced : ∀ {i : Nat} {input : Input}, inputs[i]? = some input →
      ∃ u, placed[i]? = some (input, u) := by
    intro i input hi
    rw [← hinputs, List.getElem?_map] at hi
    obtain ⟨⟨input', u⟩, hx, rfl⟩ := Option.map_eq_some_iff.mp hi
    exact ⟨u, hx⟩
  refine ⟨retimeMinted spell qs, by rw [placeInputs, hqs]; rfl, fun f hf => ?_⟩
  have hcount : ∀ j, Minted (retimeMinted spell qs) j →
      ((f.distinct.filter (·.mints)).map (·.jobId)).count j = 1 :=
    fun j => minted_filed_once hlength hon hjoin hgrouped hf
  have hobject : ∀ q ∈ qs, ∃ fields, q.body = .obj fields := by
    intro q hq
    obtain ⟨i, hi⟩ := List.getElem?_of_mem hq
    obtain ⟨input, u, hu⟩ := placed_of_getElem? hqlength hi
    obtain ⟨q', hq', hunit⟩ := hqon i input u hu
    cases hi.symm.trans hq'
    exact hunit.object
  refine ⟨?_, ?_, hcount, fun w hfree => ?_⟩
  · refine List.forall₂_iff_get.mpr ⟨by rw [hlength, ← hinputs, List.length_map], ?_⟩
    intro i hi hi'
    obtain ⟨u, hu⟩ := hplaced (List.getElem?_eq_getElem hi)
    have hunit := hon i _ u _ hu (List.getElem?_eq_getElem hi')
    exact ⟨hunit.label, hunit.horizon, count_distinct hf (List.getElem_mem hi')⟩
  · intro i i' input input' p p' hi hi' hp hp' hminted
    obtain ⟨u, hu⟩ := hplaced hi
    obtain ⟨u', hu'⟩ := hplaced hi'
    exact minted_shared hlength hon hjoin hgrouped hmint hu hp hu' hp' hminted
  · obtain ⟨w', hexec, hin, hout⟩ :=
      promote_promotes f fun x hx => hfree x.jobId (mints_latest hf hobject hx).1
    refine ⟨w', hexec, fun j hminted => ?_, fun k hother => hout k fun x hx hjob => ?_⟩
    · have hmem : j ∈ (f.distinct.filter (·.mints)).map (·.jobId) :=
        List.count_pos_iff.mp (by rw [hcount j hminted]; exact Nat.one_pos)
      obtain ⟨x, hx, rfl⟩ := List.mem_map.mp hmem
      obtain ⟨-, hlatest, hasked, hbody⟩ := mints_latest hf hobject hx
      exact ⟨x.expiresAt, x.body, hin x hx, hlatest, hasked, hbody⟩
    · exact hother (hjob ▸ (mints_latest hf hobject hx).1)

end Placements

def cellInput (label cell : String) (merge : Bool) (secs : Int) : Input :=
  ⟨label, .obj [("merge_duplicates", .bool merge), ("spec", .str cell)], .atStamp ⟨secs⟩, _, rfl⟩

/-- Two inputs of one cell, the same cell kept apart, and a cell that an older job runs. -/
def mixedInputs : List Input :=
  [cellInput "a" "x" true 1709209815, cellInput "b" "x" true 1709296215,
    cellInput "c" "x" false 1709382615, cellInput "d" "y" true 1709209815]

def tallyMint (u : Nat) : JobId := ⟨String.ofList ('j' :: List.replicate u '1')⟩

theorem tallyMint_injective : Function.Injective tallyMint := by
  intro u v h
  have hlist : 'j' :: List.replicate u '1' = 'j' :: List.replicate v '1' :=
    String.ofList_injective (congrArg JobId.raw h)
  simpa using congrArg List.length hlist

def olderWorld : World :=
  { World.empty with queue := ⟨(∅ : FileTree QueuePath Json).insert (.avail ⟨⟨"old"⟩, .never⟩) .null⟩ }

def mixedOutcomes : List Placed := [.fresh, .fresh, .join ⟨⟨"old"⟩, .never, .withinPlan, false⟩]

def mixedFiling (ps : List PlacedInput) : Filing :=
  ⟨⟨"p"⟩, 0, ps.map PlacedInput.toPlacement, fun _ => 0, fun _ _ _ => none, [], [], [],
    [[false, true, false]]⟩

theorem mixed_placements {ps : List PlacedInput}
    (h : placeInputs (ExpiresAt.display .calendar) mixedInputs
      (Grouping.ofInputs (writeValue plainLeaf) id tallyMint mixedInputs) mixedOutcomes
      [.nothing, .nothing, .nothing] = some ps) :
    ps.map (fun p => (p.jobId.raw, p.merged.isNone, p.horizon)) =
      [("j", true, .atStamp ⟨1709209815⟩), ("j", false, .atStamp ⟨1709296215⟩),
        ("j1", true, .atStamp ⟨1709382615⟩), ("old", false, .atStamp ⟨1709209815⟩)] := by
  have hmap : (placeInputs (ExpiresAt.display .calendar) mixedInputs
      (Grouping.ofInputs (writeValue plainLeaf) id tallyMint mixedInputs) mixedOutcomes
      [.nothing, .nothing, .nothing]).map (·.map fun p => (p.jobId.raw, p.merged.isNone, p.horizon)) =
      some [("j", true, .atStamp ⟨1709209815⟩), ("j", false, .atStamp ⟨1709296215⟩),
        ("j1", true, .atStamp ⟨1709382615⟩), ("old", false, .atStamp ⟨1709209815⟩)] := by
    decide +kernel
  rw [h] at hmap
  exact Option.some.inj hmap

theorem inputs_placed_once_mixed : ∃ ps w',
    placeInputs (ExpiresAt.display .calendar) mixedInputs
      (Grouping.ofInputs (writeValue plainLeaf) id tallyMint mixedInputs) mixedOutcomes
      [.nothing, .nothing, .nothing] = some ps ∧
    List.Forall₂ (fun input p => p.label = Input.label input ∧ p.horizon = input.horizon ∧
      (mixedFiling ps).creating.jobIds.count p.jobId = 1) mixedInputs ps ∧
    (mixedFiling ps).promote.exec machine olderWorld = (.ok (), w') ∧
    (∃ body, (∀ d, w'.queue.files.lookup (.avail ⟨⟨"j"⟩, d⟩) =
        if d = .atStamp ⟨1709296215⟩ then some body else none) ∧
      body.get "expires_at" = some (.str "20240301T123015Z")) ∧
    w'.queue.files.lookup (.avail ⟨⟨"old"⟩, .never⟩) = some .null := by
  have hjoin : ∀ target, .join target ∈ mixedOutcomes → ∀ u, JoinTarget.jobId target ≠ tallyMint u := by
    intro target htarget u he
    have hold : target.jobId = ⟨"old"⟩ := by
      simp only [mixedOutcomes, List.mem_cons, List.not_mem_nil, or_false, reduceCtorEq, false_or,
        Placed.join.injEq] at htarget
      rw [htarget]
    have hchars := congrArg (fun j => (JobId.raw j).toList.head?) (hold.symm.trans he)
    simp [tallyMint] at hchars
  obtain ⟨ps, hps, hall⟩ := inputs_placed_once (writeValue plainLeaf) id
    (ExpiresAt.display .calendar) mixedOutcomes [.nothing, .nothing, .nothing] mixedInputs
    tallyMint_injective (by decide +kernel) hjoin (by simp)
  obtain ⟨hplaced, -, -, hpromote⟩ := hall (mixedFiling ps) rfl
  have hlist := mixed_placements hps
  have hmem : ∀ p ∈ ps, (p.jobId.raw, p.merged.isNone, p.horizon) ∈ _ :=
    fun p hp => hlist ▸ List.mem_map_of_mem hp
  have hat : ∀ x ∈ ps.map (fun p => (p.jobId.raw, p.merged.isNone, p.horizon)),
      ∃ p ∈ ps, p.jobId = ⟨x.1⟩ ∧ p.merged.isNone = x.2.1 ∧ p.horizon = x.2.2 := by
    intro x hx
    obtain ⟨p, hp, rfl⟩ := List.mem_map.mp hx
    exact ⟨p, hp, rfl, rfl, rfl⟩
  rw [hlist] at hat
  have hnew : ∀ j, Minted ps j → j ≠ ⟨"old"⟩ := by
    rintro j ⟨p, hp, rfl, hmerged⟩ he
    have := hmem p hp
    simp [he, hmerged] at this
  obtain ⟨w', hexec, hin, hout⟩ := hpromote olderWorld fun j hj d => by
    have hne : QueuePath.avail ⟨j, d⟩ ≠ .avail ⟨⟨"old"⟩, .never⟩ := by
      intro he
      cases he
      exact hnew _ hj rfl
    change ((∅ : FileTree QueuePath Json).insert _ _).lookup _ = none
    rw [FileTree.lookup_write, if_neg hne]
    rfl
  obtain ⟨lead, hlead, hjob, hminted, -⟩ := hat ("j", true, .atStamp ⟨1709209815⟩) (by simp)
  obtain ⟨later, hlater, hjob', -, hhorizon⟩ := hat ("j", false, .atStamp ⟨1709296215⟩) (by simp)
  obtain ⟨deadline, body, hkey, hlatest, ⟨p, hp, hpjob, rfl⟩, hbody⟩ :=
    hin ⟨"j"⟩ ⟨lead, hlead, hjob, by simpa using hminted⟩
  have hdeadline : p.horizon = .atStamp ⟨1709296215⟩ := by
    have hle := hlatest later hlater hjob'
    rw [hhorizon] at hle
    have hpmem := hmem p hp
    simp only [hpjob, List.mem_cons, Prod.mk.injEq, List.not_mem_nil, or_false] at hpmem
    rcases hpmem with ⟨-, -, h⟩ | ⟨-, -, h⟩ | ⟨h, -⟩ | ⟨h, -⟩
    · rw [h] at hle
      exact absurd hle (by decide)
    · exact h
    · exact absurd h (by decide)
    · exact absurd h (by decide)
  refine ⟨ps, w', hps, hplaced, hexec, ⟨body, hdeadline ▸ hkey, ?_⟩, ?_⟩
  · rw [hbody, hdeadline]
    decide
  · rw [hout ⟨⟨"old"⟩, .never⟩ fun hminted => hnew _ hminted rfl]
    rfl

end Pipette
