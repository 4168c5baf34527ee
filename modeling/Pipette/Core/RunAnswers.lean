import Pipette.Core.Matching

/-! Whether a finished run under one body's clauses still answers another body's. -/
namespace Pipette

def isRoutingFlag (flag : String) : Bool :=
  isTagCapability flag || (clientVersionOf flag).isSome

structure Measured where
  requires : Finset String
  excludes : Finset String
  anyOf : Finset (Finset String)
  notAllOf : Finset (Finset String)
deriving DecidableEq

namespace Measured

def routes (required : Finset String) (flag : String) : Bool :=
  isRoutingFlag flag && decide (flag ∉ required)

def flags (required set : Finset String) : Finset String :=
  set.filter fun flag => !routes required flag

/-- An all-routing group says nothing of the run; an empty or a mixed one stays whole. -/
def groups (required : Finset String) (groups : List (Finset String)) :
    Finset (Finset String) :=
  (groups.filter fun group =>
    decide (group = ∅) || !decide (∀ flag ∈ group, routes required flag = true)).toFinset

def of (clauses : Clauses) (required : Finset String) : Measured where
  requires := flags required clauses.requires
  excludes := flags required clauses.excludes
  anyOf := groups required clauses.anyOf
  notAllOf := groups required clauses.notAllOf

def positiveFlags (measured : Measured) : Finset String :=
  measured.requires ∪ measured.anyOf.biUnion id

/-- `capabilitiesSatisfy` without the non-empty `requires`: the run already happened. -/
def metBy (measured : Measured) (set : Finset String) : Bool :=
  decide (measured.requires ⊆ set) &&
    decide (∀ group ∈ measured.anyOf, ¬ Disjoint group set)

end Measured

def recorded (flag : String) : Bool :=
  isReservedCapability flag || (clientVersionOf flag).isSome

/-- Whether a finished run under `before`, whose record proves it held `run`, still answers
`after`, routing flags and rosters aside. -/
def runAnswers (before after : Json) (run : Finset String) : Bool :=
  match Clauses.parse before, Clauses.parse after, requiredFlags before, requiredFlags after with
  | some wasClauses, some nowClauses, some wasRequired, some nowRequired =>
    let was := Measured.of wasClauses wasRequired
    let now := Measured.of nowClauses nowRequired
    -- a run through the roster need not have held what `before` required
    let rosterRun := !wasClauses.effectiveRosterEmpty before
    if was = now ∧ rosterRun = false then true
    else if ¬ now.excludes ⊆ was.excludes ∨ ¬ now.notAllOf ⊆ was.notAllOf then false
    else
      let held := if rosterRun then ∅ else wasClauses.requires
      let known := decide (∀ flag ∈ now.positiveFlags, recorded flag = true ∨ flag ∈ held)
      known && now.metBy (run ∪ held)
  | _, _, _, _ => false

def Clauses.AdmitsByCapability (clauses : Clauses) (capabilities : Finset String) : Prop :=
  Disjoint clauses.excludes capabilities ∧
    (∀ group ∈ clauses.notAllOf, ¬ group ⊆ capabilities) ∧
    capabilitiesSatisfy clauses.requires clauses.anyOf capabilities = true

structure Measured.Holds (measured : Measured) (capabilities : Finset String) : Prop where
  requires : measured.requires ⊆ capabilities
  anyOf : ∀ group ∈ measured.anyOf, ¬ Disjoint group capabilities
  excludes : ∀ flag ∈ measured.excludes, flag ∉ capabilities
  notAllOf : ∀ group ∈ measured.notAllOf, ¬ group ⊆ capabilities

namespace Measured

theorem flags_subset (required set : Finset String) : flags required set ⊆ set :=
  Finset.filter_subset _ _

theorem mem_of_mem_groups {required : Finset String} {list : List (Finset String)}
    {group : Finset String} (h : group ∈ groups required list) : group ∈ list :=
  (List.mem_filter.mp (List.mem_toFinset.mp h)).1

theorem metBy_iff {measured : Measured} {set : Finset String} :
    measured.metBy set = true ↔
      measured.requires ⊆ set ∧ ∀ group ∈ measured.anyOf, ¬ Disjoint group set := by
  simp [metBy]

theorem excludes_of_admits {clauses : Clauses} {capabilities : Finset String}
    (required : Finset String) (h : clauses.AdmitsByCapability capabilities) :
    (∀ flag ∈ (of clauses required).excludes, flag ∉ capabilities) ∧
      ∀ group ∈ (of clauses required).notAllOf, ¬ group ⊆ capabilities := by
  obtain ⟨hexcludes, hgroups, -⟩ := h
  refine ⟨fun flag hflag => ?_, fun group hgroup => hgroups group (mem_of_mem_groups hgroup)⟩
  exact Finset.disjoint_left.mp hexcludes (flags_subset _ _ hflag)

theorem holds_of_admits {clauses : Clauses} {capabilities : Finset String}
    (required : Finset String) (h : clauses.AdmitsByCapability capabilities) :
    (of clauses required).Holds capabilities := by
  obtain ⟨hexcludes, hgroups⟩ := excludes_of_admits required h
  obtain ⟨-, hreq, hany⟩ := capabilitiesSatisfy_iff.mp h.2.2
  exact {
    requires := (flags_subset _ _).trans hreq
    anyOf := fun group hgroup => hany group (mem_of_mem_groups hgroup)
    excludes := hexcludes
    notAllOf := hgroups }

end Measured

theorem runAnswers_cases {before after : Json} {run : Finset String}
    (h : runAnswers before after run = true) :
    ∃ wasClauses nowClauses wasRequired nowRequired,
      Clauses.parse before = some wasClauses ∧ Clauses.parse after = some nowClauses ∧
      requiredFlags before = some wasRequired ∧ requiredFlags after = some nowRequired ∧
      (Measured.of wasClauses wasRequired = Measured.of nowClauses nowRequired ∨
        (Measured.of nowClauses nowRequired).excludes ⊆
            (Measured.of wasClauses wasRequired).excludes ∧
          (Measured.of nowClauses nowRequired).notAllOf ⊆
            (Measured.of wasClauses wasRequired).notAllOf ∧
          ∃ held ⊆ wasClauses.requires,
            (Measured.of nowClauses nowRequired).metBy (run ∪ held) = true) := by
  unfold runAnswers at h
  split at h
  · rename_i wasClauses nowClauses wasRequired nowRequired hwas hnow hwasR hnowR
    refine ⟨wasClauses, nowClauses, wasRequired, nowRequired, hwas, hnow, hwasR, hnowR, ?_⟩
    simp only at h
    split at h
    · rename_i hsame
      exact Or.inl hsame.1
    split at h
    · cases h
    · rename_i hkept
      obtain ⟨hexcludes, hgroups⟩ := not_or.mp hkept
      simp only [Bool.and_eq_true] at h
      refine Or.inr ⟨not_not.mp hexcludes, not_not.mp hgroups, _, ?_, h.2⟩
      split
      · exact Finset.empty_subset _
      · exact Finset.Subset.refl _
  · cases h

/-- Reuse of a run is sound: a device that held the recorded flags and that the old body
admitted by capability meets everything the new body measures. -/
theorem runAnswers_sound (before after : Json) (run capabilities : Finset String)
    (hrun : run ⊆ capabilities)
    (hadmits : ∃ clauses, Clauses.parse before = some clauses ∧
      clauses.AdmitsByCapability capabilities)
    (h : runAnswers before after run = true) :
    ∃ clauses required, Clauses.parse after = some clauses ∧
      requiredFlags after = some required ∧
        (Measured.of clauses required).Holds capabilities := by
  obtain ⟨was, now, wasRequired, nowRequired, hwas, hnow, -, hnowR, hcases⟩ := runAnswers_cases h
  obtain ⟨clauses, hparse, hadmits⟩ := hadmits
  rw [hwas, Option.some.injEq] at hparse
  subst hparse
  refine ⟨now, nowRequired, hnow, hnowR, ?_⟩
  rcases hcases with hsame | ⟨hexcludes, hgroups, held, hheld, hmet⟩
  · rw [← hsame]
    exact Measured.holds_of_admits wasRequired hadmits
  · -- the run's flags and what the old body required are all on the device
    obtain ⟨-, hreq, -⟩ := capabilitiesSatisfy_iff.mp hadmits.2.2
    have hset : run ∪ held ⊆ capabilities := Finset.union_subset hrun (hheld.trans hreq)
    obtain ⟨hnowReq, hnowAny⟩ := Measured.metBy_iff.mp hmet
    obtain ⟨hwasEx, hwasGroups⟩ := Measured.excludes_of_admits wasRequired hadmits
    exact {
      requires := hnowReq.trans hset
      anyOf := fun group hgroup hdisj => hnowAny group hgroup (hdisj.mono_right hset)
      excludes := fun flag hflag => hwasEx flag (hexcludes hflag)
      notAllOf := fun group hgroup => hwasGroups group (hgroups hgroup) }

/-- A chip the record shows answers a body that asks for it next to the old requirement. -/
theorem runAnswers_sound_chip :
    ∃ clauses required, Clauses.parse (.obj [("requires",
          .arr [.str "os:ios", .str "chip:a18"])]) = some clauses ∧
      requiredFlags (.obj [("requires", .arr [.str "os:ios", .str "chip:a18"])]) =
        some required ∧
      (Measured.of clauses required).Holds {"os:ios", "chip:a18"} :=
  runAnswers_sound (.obj [("requires", .arr [.str "os:ios"])]) _ {"chip:a18"} _ (by decide)
    ⟨⟨{"os:ios"}, ∅, ∅, [], []⟩, by decide, by decide, by decide, by decide⟩ (by decide)

end Pipette
