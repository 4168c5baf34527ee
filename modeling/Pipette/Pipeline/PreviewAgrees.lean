import Pipette.Pipeline.Preview

/-! A dry run draws what the ingest draws: the two group the bodies alike, and a draw reads no more of
a unit than its lead and its digest. The counts then go through the slots kind by kind. -/
namespace Pipette

open FileTree

section Agree

variable {Text : Type} {toText : Json → Text} {sha256 : Text → String} {order order' : HashOrder}
  {units units' : List CellUnit} {bodyOf bodyOf' : CellUnit → Option Json}
  {inherited : List Inherited} {reads : CarryReads}

theorem takeAll_congr {carry : Carryover}
    (h : units.map CellUnit.digest = units'.map CellUnit.digest) :
    carry.takeAll units = carry.takeAll units' := by
  induction units generalizing units' carry with
  | nil =>
    cases units' with
    | nil => rfl
    | cons => cases h
  | cons unit rest ih =>
    cases units' with
    | nil => cases h
    | cons unit' rest' =>
      obtain ⟨hdigest, hrest⟩ := List.cons.inj h
      simp only [Carryover.takeAll, hdigest, ih hrest]

theorem draw_congr {carry : Carryover}
    (h : units.map CellUnit.digest = units'.map CellUnit.digest) :
    carry.draw toText sha256 order units = carry.draw toText sha256 order units' := by
  unfold Carryover.draw
  rw [takeAll_congr h]

theorem filterMap_zipIdx_congr {β γ : Type} {f f' : CellUnit → γ}
    {k k' : CellUnit × Nat → Option β} (h : units.map f = units'.map f')
    (hk : ∀ unit unit' i, f unit = f' unit' → k (unit, i) = k' (unit', i)) (n : Nat) :
    (units.zipIdx n).filterMap k = (units'.zipIdx n).filterMap k' := by
  induction units generalizing units' n with
  | nil =>
    cases units' with
    | nil => rfl
    | cons => cases h
  | cons unit rest ih =>
    cases units' with
    | nil => cases h
    | cons unit' rest' =>
      obtain ⟨hunit, hrest⟩ := List.cons.inj h
      rw [List.zipIdx_cons, List.zipIdx_cons, List.filterMap_cons, List.filterMap_cons,
        hk unit unit' n hunit, ih hrest]

theorem answer_congr {unclaimed : Unclaimed} (h : units.map bodyOf = units'.map bodyOf') :
    unclaimed.answer toText sha256 order units bodyOf inherited reads =
      unclaimed.answer toText sha256 order units' bodyOf' inherited reads := by
  have hwanted : ∀ queued, unclaimed.wanted toText sha256 units bodyOf inherited queued =
      unclaimed.wanted toText sha256 units' bodyOf' inherited queued := by
    intro queued
    refine filterMap_zipIdx_congr h (fun unit unit' i hbody => ?_) 0
    dsimp only
    rw [hbody]
  unfold Unclaimed.answer
  simp only [hwanted]

theorem satisfy_congr (h : units.map bodyOf = units'.map bodyOf') :
    satisfyFromEarlierRuns toText sha256 units bodyOf inherited reads =
      satisfyFromEarlierRuns toText sha256 units' bodyOf' inherited reads := by
  have heligible : eligibleUnits toText sha256 units bodyOf inherited =
      eligibleUnits toText sha256 units' bodyOf' inherited := by
    refine filterMap_zipIdx_congr h (fun unit unit' i hbody => ?_) 0
    dsimp only
    rw [hbody]
  unfold satisfyFromEarlierRuns
  rw [heligible]

end Agree

section Groupings

variable {Text : Type} {toText : Json → Text} {sha256 : Text → String} {mint mint' : Nat → JobId}

def CellUnit.cell (unit : CellUnit) : Nat × String := (unit.lead, unit.digest)

structure SameGrouping (g g' : Grouping) : Prop where
  units : g.units.map CellUnit.cell = g'.units.map CellUnit.cell
  unitOf : g.unitOf = g'.unitOf
  byDigest : g.byDigest = g'.byDigest

theorem map_cell_set {units : List CellUnit} {u : Nat} {unit : CellUnit}
    (h : units[u]? = some unit) (horizon : ExpiresAt) :
    (units.set u { unit with horizon }).map CellUnit.cell = units.map CellUnit.cell := by
  refine List.ext_getElem? fun i => ?_
  rw [List.getElem?_map, List.getElem?_map, List.getElem?_set]
  split
  · next he =>
    subst he
    have hlt : u < units.length := (List.getElem?_eq_some_iff.mp h).1
    rw [if_pos hlt, h]
    rfl
  · rfl

theorem SameGrouping.add {g g' : Grouping} (h : SameGrouping g g') (body : Json)
    (horizon horizon' : ExpiresAt) :
    SameGrouping (g.add toText sha256 mint body horizon)
      (g'.add toText sha256 mint' body horizon') := by
  have hlength : g.units.length = g'.units.length := by
    simpa using congrArg List.length h.units
  have hunit : ∀ u : Nat, (g.units[u]?).map CellUnit.cell = (g'.units[u]?).map CellUnit.cell := by
    intro u
    rw [← List.getElem?_map, h.units, List.getElem?_map]
  have hnew : SameGrouping
      ⟨g.units ++ [⟨g.unitOf.length, horizon, mint g.units.length,
          contentDigest toText sha256 body⟩], g.unitOf ++ [g.units.length],
        if mergeable body then g.byDigest.insert (contentDigest toText sha256 body) g.units.length
        else g.byDigest⟩
      ⟨g'.units ++ [⟨g'.unitOf.length, horizon', mint' g'.units.length,
          contentDigest toText sha256 body⟩], g'.unitOf ++ [g'.units.length],
        if mergeable body then g'.byDigest.insert (contentDigest toText sha256 body) g'.units.length
        else g'.byDigest⟩ := by
    rw [← h.byDigest, ← h.unitOf, ← hlength]
    refine ⟨?_, rfl, rfl⟩
    rw [List.map_append, List.map_append, h.units]
    rfl
  unfold Grouping.add
  dsimp only
  cases hmerge : mergeable body with
  | false => simpa [hmerge] using hnew
  | true =>
    rw [h.byDigest] at hnew
    cases hlookup : g'.byDigest.lookup (contentDigest toText sha256 body) with
    | none => simpa [hmerge, h.byDigest, hlookup] using hnew
    | some u =>
      have hu := hunit u
      cases hg : g.units[u]? with
      | none =>
        cases hg' : g'.units[u]? with
        | none => simpa [hmerge, h.byDigest, hlookup, hg, hg'] using hnew
        | some found' => simp [hg, hg'] at hu
      | some found =>
        cases hg' : g'.units[u]? with
        | none => simp [hg, hg'] at hu
        | some found' =>
          have hset : SameGrouping
              ⟨g.units.set u { found with horizon := max found.horizon horizon }, g.unitOf ++ [u],
                g.byDigest⟩
              ⟨g'.units.set u { found' with horizon := max found'.horizon horizon' },
                g'.unitOf ++ [u], g'.byDigest⟩ := by
            refine ⟨?_, by rw [h.unitOf], h.byDigest⟩
            dsimp only
            rw [map_cell_set hg, map_cell_set hg', h.units]
          rw [h.byDigest] at hset
          simpa [h.byDigest, hlookup, hg, hg'] using hset

theorem sameGrouping_of {bodies bodies' : List (Json × ExpiresAt)}
    (h : bodies.map Prod.fst = bodies'.map Prod.fst) :
    SameGrouping (Grouping.of toText sha256 mint bodies)
      (Grouping.of toText sha256 mint' bodies') := by
  have hfold : ∀ (bodies bodies' : List (Json × ExpiresAt)) (g g' : Grouping),
      bodies.map Prod.fst = bodies'.map Prod.fst → SameGrouping g g' →
      SameGrouping (bodies.foldl (fun g body => g.add toText sha256 mint body.1 body.2) g)
        (bodies'.foldl (fun g body => g.add toText sha256 mint' body.1 body.2) g') := by
    intro bodies
    induction bodies with
    | nil =>
      intro bodies' g g' hbodies hg
      cases bodies' with
      | nil => exact hg
      | cons => cases hbodies
    | cons body rest ih =>
      intro bodies' g g' hbodies hg
      cases bodies' with
      | nil => cases hbodies
      | cons body' rest' =>
        obtain ⟨hbody, hrest⟩ := List.cons.inj hbodies
        refine ih rest' _ _ hrest ?_
        dsimp only
        rw [← hbody]
        exact hg.add _ _ _
  exact hfold bodies bodies' _ _ h ⟨rfl, rfl, rfl⟩

end Groupings

section Draws

variable {Text : Type} {toText : Json → Text} {sha256 : Text → String} {order order' : HashOrder}
  {mint mint' : Nat → JobId} {previous : RevisedPlan} {named : Named previous}
  {sources : FileTree JobId Json} {offered : List Offered} {reads : CarryReads}
  {bodies : List Json} {inputs : List Input}

theorem previewDraw_inherited (hbodies : inputs.map Input.body = bodies) :
    (previewDraw toText sha256 order mint (.ofRevision previous named sources offered) reads
        bodies).map PreviewDraw.inherited =
      (ingestDraw toText sha256 order' mint' (.ofRevision previous named sources offered) reads
        inputs).map CarryOutcome.inherited := by
  have hsame : SameGrouping
      (Grouping.of toText sha256 mint (bodies.map fun body => (body, .never)))
      (Grouping.ofInputs toText sha256 mint' inputs) := by
    refine sameGrouping_of ?_
    rw [← hbodies, List.map_map, List.map_map, List.map_map]
    rfl
  have hread : ∀ {γ : Type} (f : Nat × String → γ),
      (Grouping.of toText sha256 mint (bodies.map fun body => (body, .never))).units.map
        (fun unit => f unit.cell) =
      (Grouping.ofInputs toText sha256 mint' inputs).units.map fun unit => f unit.cell := by
    intro γ f
    have := congrArg (List.map f) hsame.units
    rwa [List.map_map, List.map_map] at this
  have hdigest := hread Prod.snd
  have hlead : (Grouping.of toText sha256 mint (bodies.map fun body => (body, .never))).units.map
        (fun unit => bodies[unit.lead]?) =
      (Grouping.ofInputs toText sha256 mint' inputs).units.map fun unit => bodies[unit.lead]? :=
    hread fun cell => bodies[cell.1]?
  have hbody : (fun unit : CellUnit => (inputs[unit.lead]?).map Input.body) =
      fun unit => bodies[unit.lead]? := by
    funext unit
    rw [← hbodies, List.getElem?_map]
  unfold previewDraw ingestDraw Carryover.carry
  dsimp only
  rw [draw_congr hdigest, draw_order order order', hbody]
  cases (Carryover.ofRevision previous named sources offered).draw toText sha256 order'
    (Grouping.ofInputs toText sha256 mint' inputs).units with
  | error e => rfl
  | ok draw =>
    simp only [bind, Except.bind]
    rw [answer_congr hlead, answer_order order order']
    cases draw.unclaimed.answer toText sha256 order'
      (Grouping.ofInputs toText sha256 mint' inputs).units (fun unit => bodies[unit.lead]?)
      draw.inherited reads with
    | error e => rfl
    | ok answered =>
      dsimp only
      rw [satisfy_congr hlead]
      cases satisfyFromEarlierRuns toText sha256
        (Grouping.ofInputs toText sha256 mint' inputs).units (fun unit => bodies[unit.lead]?)
        answered.2 reads <;> rfl

end Draws

namespace Inherited

def isOpen : Inherited → Bool
  | nothing | job _ => true
  | rerun _ | recalculate _ | answered _ | satisfied _ => false

def isRerun : Inherited → Bool
  | rerun _ => true
  | nothing | job _ | recalculate _ | answered _ | satisfied _ => false

def isRecalculate : Inherited → Bool
  | recalculate _ => true
  | nothing | job _ | rerun _ | answered _ | satisfied _ => false

def isSatisfied : Inherited → Bool
  | satisfied _ => true
  | nothing | job _ | rerun _ | recalculate _ | answered _ => false

def offeredJob (offered : FileTree JobId PlanId) : Inherited → Option JobId
  | answered j => if (offered.lookup j).isSome then some j else none
  | nothing | job _ | rerun _ | recalculate _ | satisfied _ => none

end Inherited

theorem slots_add_up (offered : FileTree JobId PlanId) (slots : List Inherited) :
    (slots.filter (· = .nothing)).length + (slots.filterMap (carriedJob offered)).length +
      (slots.filterMap (Inherited.offeredJob offered)).length +
      (slots.filter Inherited.isRerun).length + (slots.filter Inherited.isRecalculate).length +
      (slots.filter Inherited.isSatisfied).length = slots.length := by
  induction slots with
  | nil => rfl
  | cons slot rest ih =>
    cases slot with
    | answered j =>
      cases hj : (offered.lookup j).isSome <;>
        simp [carriedJob, Inherited.offeredJob, Inherited.isRerun, Inherited.isRecalculate,
          Inherited.isSatisfied, hj] <;> omega
    | nothing | job | rerun | recalculate | satisfied =>
      simp [List.filter_cons, List.filterMap_cons, carriedJob, Inherited.offeredJob,
        Inherited.isRerun, Inherited.isRecalculate, Inherited.isSatisfied]
      omega

section Draw

variable {previous : RevisedPlan} {named : Named previous} {carry : Carryover}
  {units : List CellUnit} {digest : String}

theorem takeAll_cons (carry : Carryover) (unit : CellUnit) (rest : List CellUnit) :
    carry.takeAll (unit :: rest) =
      ((carry.take unit.digest).1 :: ((carry.take unit.digest).2.takeAll rest).1,
        ((carry.take unit.digest).2.takeAll rest).2) := rfl

theorem takeAll_recalculate (carry : Carryover) (units : List CellUnit) :
    ((carry.takeAll units).1.filter Inherited.isRecalculate).length +
      (items id (carry.takeAll units).2.recalculate).length =
      (items id carry.recalculate).length := by
  induction units generalizing carry with
  | nil => simp [Carryover.takeAll]
  | cons unit rest ih =>
    have hstep : ([(carry.take unit.digest).1].filter Inherited.isRecalculate).length +
        (items id (carry.take unit.digest).2.recalculate).length =
        (items id carry.recalculate).length := by
      unfold Carryover.take
      cases carry.pool.popFront unit.digest with
      | some front => simp [Inherited.isRecalculate]
      | none =>
        cases hpop : carry.recalculate.popFront unit.digest with
        | some front =>
          obtain ⟨j, recalculate⟩ := front
          have hperm := (items_popFront hpop).length_eq
          rw [hperm, List.length_cons, Nat.add_comm]
          rfl
        | none =>
          cases carry.rerun.lookup unit.digest <;> simp [Inherited.isRecalculate]
    have hrest := ih (carry.take unit.digest).2
    rw [takeAll_cons, List.filter_cons]
    rw [List.filter_singleton] at hstep
    cases hkind : (carry.take unit.digest).1.isRecalculate <;> simp [hkind] at hstep ⊢ <;> omega

theorem takeAll_kinds {slot : Inherited} (h : slot ∈ (carry.takeAll units).1) :
    slot.isSatisfied = false ∧ ∀ j, slot ≠ .answered j := by
  induction units generalizing carry with
  | nil => cases h
  | cons unit rest ih =>
    have hfirst : (carry.take unit.digest).1.isSatisfied = false ∧
        ∀ j, (carry.take unit.digest).1 ≠ .answered j := by
      unfold Carryover.take
      split
      · exact ⟨rfl, by simp⟩
      · split
        · exact ⟨rfl, by simp⟩
        · split <;> exact ⟨rfl, by simp⟩
    obtain rfl | h := List.mem_cons.mp h
    · exact hfirst
    · exact ih h

theorem takeAll_no_rerun (hnone : ∀ d, carry.rerun.lookup d = none) :
    (carry.takeAll units).1.filter Inherited.isRerun = [] := by
  induction units generalizing carry with
  | nil => rfl
  | cons unit rest ih =>
    have hstep : (carry.take unit.digest).1.isRerun = false ∧
        ∀ d, (carry.take unit.digest).2.rerun.lookup d = none := by
      unfold Carryover.take
      split
      · exact ⟨rfl, hnone⟩
      · split
        · exact ⟨rfl, hnone⟩
        · rw [hnone]
          exact ⟨rfl, hnone⟩
    rw [takeAll_cons, List.filter_cons, hstep.1]
    exact ih hstep.2

namespace Carryover

theorem fromManifest_no_rerun (h : named.rerun = ∅) (d : String) :
    (fromManifest previous named).rerun.lookup d = none := by
  refine fromManifest_induction (P := fun carry => carry.rerun.lookup d = none) rfl
    fun carry j digest _ ih => ?_
  unfold file
  rw [h, if_neg (Finset.notMem_empty j)]
  split
  · exact ih
  · split <;> exact ih

theorem mem_recalculate {d : String} {j : JobId}
    (h : InBin id (fromManifest previous named).recalculate d j) : j ∈ named.recalculate := by
  revert d j
  refine fromManifest_induction (P := fun carry => ∀ {d : String} {j : JobId},
    InBin id carry.recalculate d j → j ∈ named.recalculate) ?_ fun carry j digest _ ih => ?_
  · exact fun ⟨v, hv, _⟩ => nomatch hv
  · intro d j' hj'
    unfold file at hj'
    split at hj'
    · exact ih hj'
    · split at hj'
      · next hrecalculate =>
        obtain ⟨-, rfl⟩ | hj' := inBin_pushBack hj'
        · exact hrecalculate
        · exact ih hj'
      · split at hj' <;> exact ih hj'

theorem length_recalculate (h : Disjoint named.rerun named.recalculate) :
    (items id (fromManifest previous named).recalculate).length = named.recalculate.card := by
  have hnodup : (items id (fromManifest previous named).recalculate).Nodup :=
    nodup_stock.sublist ((List.sublist_append_right _ _).trans (List.sublist_append_left _ _))
  rw [← List.toFinset_card_of_nodup hnodup]
  congr 1
  ext j
  rw [List.mem_toFinset, mem_items]
  constructor
  · exact fun ⟨d, hd⟩ => mem_recalculate hd
  · intro hj
    have hin : j ∈ named.rerun ∪ named.recalculate := Finset.mem_union_right _ hj
    obtain ⟨d, hkey⟩ := Option.isSome_iff_exists.mp (AList.lookup_isSome.mpr (named.held j hin))
    exact ⟨d, recalculate_waits hj (Finset.disjoint_right.mp h hj) hkey⟩

end Carryover

theorem drawn_recalculate (h : Disjoint named.rerun named.recalculate)
    (hplaced : ((Carryover.fromManifest previous named).takeAll units).2.requireNamedPlaced =
      .ok ()) :
    (((Carryover.fromManifest previous named).takeAll units).1.filter
      Inherited.isRecalculate).length = named.recalculate.card := by
  have hdrawn := takeAll_recalculate (.fromManifest previous named) units
  rw [Carryover.length_recalculate h] at hdrawn
  obtain hnone | hsome := Finset.eq_empty_or_nonempty named.recalculate
  · rw [hnone, Finset.card_empty] at hdrawn ⊢
    omega
  · have hnamed : (named.rerun ∪ named.recalculate).Nonempty :=
      hsome.mono Finset.subset_union_right
    rw [(Carryover.placed_of_accepted hnamed hplaced).2.1] at hdrawn
    exact hdrawn

end Draw

def Filled (given : JobId → Inherited) (a b : Inherited) : Prop :=
  b = a ∨ a.isOpen = true ∧ ∃ j, b = given j

structure Fills (given : JobId → Inherited) (start slots : List Inherited) : Prop where
  length : slots.length = start.length
  filled : ∀ (i : Nat) (a b : Inherited), start[i]? = some a → slots[i]? = some b →
    Filled given a b

namespace Fills

variable {given : JobId → Inherited} {start slots : List Inherited}

theorem refl (start : List Inherited) : Fills given start start :=
  ⟨rfl, fun _ _ _ ha hb => .inl (Option.some.inj (hb.symm.trans ha))⟩

theorem set (h : Fills given start slots) {i : Nat} {a : Inherited} (ha : start[i]? = some a)
    (hopen : a.isOpen = true) (j : JobId) : Fills given start (slots.set i (given j)) := by
  refine ⟨by rw [List.length_set, h.length], fun i' a' b hi' hb => ?_⟩
  rw [List.getElem?_set] at hb
  split at hb
  · next he =>
    subst he
    split at hb
    · cases hb
      cases ha.symm.trans hi'
      exact .inr ⟨hopen, j, rfl⟩
    · cases hb
  · exact h.filled i' a' b hi' hb

theorem mem (h : Fills given start slots) {a : Inherited} (ha : a ∈ start)
    (hopen : a.isOpen = false) : a ∈ slots := by
  obtain ⟨i, hi⟩ := List.mem_iff_getElem?.mp ha
  have hlt : i < slots.length := by
    rw [h.length]
    exact (List.getElem?_eq_some_iff.mp hi).1
  obtain he | ⟨hisOpen, -⟩ := h.filled i a _ hi (List.getElem?_eq_getElem hlt)
  · exact he ▸ List.getElem_mem hlt
  · rw [hopen] at hisOpen
    cases hisOpen

theorem length_filter (h : Fills given start slots) {p : Inherited → Bool}
    (hopen : ∀ a, Inherited.isOpen a = true → p a = false) (hgiven : ∀ j, p (given j) = false) :
    (slots.filter p).length = (start.filter p).length := by
  have hmap : slots.map p = start.map p := by
    refine List.ext_getElem? fun i => ?_
    rw [List.getElem?_map, List.getElem?_map]
    cases ha : start[i]? with
    | none =>
      have hlt := List.getElem?_eq_none_iff.mp ha
      rw [List.getElem?_eq_none (by rw [h.length]; exact hlt)]
    | some a =>
      have hlt : i < slots.length := by
        rw [h.length]
        exact (List.getElem?_eq_some_iff.mp ha).1
      rw [List.getElem?_eq_getElem hlt]
      obtain he | ⟨hisOpen, j, hj⟩ := h.filled i a _ ha (List.getElem?_eq_getElem hlt)
      · rw [he]
      · rw [hj]
        simp [hgiven j, hopen a hisOpen]
  have hcount : ∀ l : List Inherited, (l.filter p).length = ((l.map p).filter id).length := by
    intro l
    rw [List.filter_map, List.length_map]
    rfl
  rw [hcount, hcount, hmap]

end Fills

theorem length_filter_set {p : Inherited → Bool} {slots : List Inherited} {i : Nat}
    {a b : Inherited} (h : slots[i]? = some a) :
    ((slots.set i b).filter p).length + (if p a then 1 else 0) =
      (slots.filter p).length + if p b then 1 else 0 := by
  induction slots generalizing i with
  | nil => cases h
  | cons slot rest ih =>
    cases i with
    | zero =>
      cases h
      rw [List.set_cons_zero, List.filter_cons, List.filter_cons]
      cases p b <;> cases p a <;> simp
    | succ i =>
      have hrest := ih h
      rw [List.set_cons_succ, List.filter_cons, List.filter_cons]
      cases p slot <;> simp <;> omega

theorem sublist_filterMap {α β : Type} {f g : α → Option β}
    (h : ∀ x y, f x = some y → g x = some y) (l : List α) :
    (l.filterMap f).Sublist (l.filterMap g) := by
  induction l with
  | nil => exact .slnil
  | cons x rest ih =>
    rw [List.filterMap_cons]
    cases hx : f x with
    | none => exact ih.trans ((List.sublist_cons_self x rest).filterMap g)
    | some y =>
      rw [List.filterMap_cons_some (h x y hx)]
      exact ih.cons_cons y

section Answers

variable {Text : Type} {toText : Json → Text} {sha256 : Text → String} {order : HashOrder}
  {units : List CellUnit} {bodyOf : CellUnit → Option Json} {inherited : List Inherited}
  {reads : CarryReads} {unclaimed : Unclaimed}

theorem nodup_index {β : Type} {index : β → Nat} {k : CellUnit × Nat → Option β}
    (hk : ∀ x y, k x = some y → index y = x.2) :
    ((units.zipIdx.filterMap k).map index).Nodup := by
  have hsub : ((units.zipIdx.filterMap k).map index).Sublist (units.zipIdx.map Prod.snd) := by
    rw [List.map_filterMap, ← List.filterMap_eq_map]
    refine sublist_filterMap (fun x i h => ?_) _
    obtain ⟨y, hy, rfl⟩ := Option.map_eq_some_iff.mp h
    exact congrArg some (hk x y hy).symm
  rw [List.zipIdx_map_snd] at hsub
  exact List.Nodup.sublist hsub List.nodup_range'

theorem wanted_slot {queued : List JobId} {x : CellUnit × Nat} {w : Wanted}
    (h : (do
      let drewNothing ← match ← inherited[x.2]? with
        | .nothing => some true
        | .job j => if j ∈ queued then some false else none
        | .rerun _ | .recalculate _ | .answered _ | .satisfied _ => none
      let body ← bodyOf x.1
      let cell := cellDigest toText sha256 body
      if (unclaimed.cells.lookup cell).isSome then some (Wanted.mk x.2 body cell drewNothing)
      else none) = some w) :
    w.index = x.2 ∧ ∃ a, inherited[x.2]? = some a ∧ a.isOpen = true := by
  cases hslot : inherited[x.2]? with
  | none => simp [hslot] at h
  | some slot =>
    cases slot <;> simp [hslot, Option.bind_eq_some_iff] at h
    case nothing =>
      obtain ⟨_, -, -, rfl⟩ := h
      exact ⟨rfl, _, rfl, rfl⟩
    case job j =>
      obtain ⟨-, _, -, -, rfl⟩ := h
      exact ⟨rfl, _, rfl, rfl⟩

theorem wanted_open {queued : List JobId} {w : Wanted}
    (h : w ∈ unclaimed.wanted toText sha256 units bodyOf inherited queued) :
    ∃ a, inherited[w.index]? = some a ∧ a.isOpen = true := by
  obtain ⟨x, -, h⟩ := List.mem_filterMap.mp h
  obtain ⟨hindex, hopen⟩ := wanted_slot h
  exact hindex ▸ hopen

theorem nodup_wanted (queued : List JobId) :
    ((unclaimed.wanted toText sha256 units bodyOf inherited queued).map Wanted.index).Nodup :=
  nodup_index fun _ _ h => (wanted_slot h).1

theorem eligible_slot {x : CellUnit × Nat} {e : Eligible}
    (h : (do
      let body ← bodyOf x.1
      let isOpen := match ← inherited[x.2]? with
        | .nothing | .job _ => true
        | .rerun _ | .recalculate _ | .answered _ | .satisfied _ => false
      if isOpen && mergeable body then some (Eligible.mk x.2 body (cellDigest toText sha256 body))
      else none) = some e) :
    e.index = x.2 ∧ ∃ a, inherited[x.2]? = some a ∧ a.isOpen = true := by
  cases hslot : inherited[x.2]? with
  | none => simp [hslot] at h
  | some slot =>
    cases slot <;> simp [hslot, Option.bind_eq_some_iff] at h
    all_goals
      obtain ⟨_, -, -, rfl⟩ := h
      exact ⟨rfl, _, rfl, rfl⟩

theorem eligible_open {e : Eligible}
    (h : e ∈ eligibleUnits toText sha256 units bodyOf inherited) :
    ∃ a, inherited[e.index]? = some a ∧ a.isOpen = true := by
  obtain ⟨x, -, h⟩ := List.mem_filterMap.mp h
  obtain ⟨hindex, hopen⟩ := eligible_slot h
  exact hindex ▸ hopen

theorem nodup_eligible :
    ((eligibleUnits toText sha256 units bodyOf inherited).map Eligible.index).Nodup :=
  nodup_index fun _ _ h => (eligible_slot h).1

theorem foldl_slots {σ β : Type} (f : σ → β → σ) (index : β → Nat) (slots : σ → List Inherited)
    (Inv : σ → Prop) {start : List Inherited} {l : List β}
    (hstep : ∀ s b, b ∈ l → Inv s → (slots s)[index b]? = start[index b]? →
      Inv (f s b) ∧ ∀ i, index b ≠ i → (slots (f s b))[i]? = (slots s)[i]?)
    (hdistinct : (l.map index).Nodup) {s : σ} (hs : Inv s)
    (hstart : ∀ b ∈ l, (slots s)[index b]? = start[index b]?) : Inv (l.foldl f s) := by
  induction l generalizing s with
  | nil => exact hs
  | cons b rest ih =>
    obtain ⟨hb, hrest⟩ := List.nodup_cons.mp hdistinct
    obtain ⟨hinv, hother⟩ := hstep s b List.mem_cons_self hs (hstart b List.mem_cons_self)
    refine ih (fun s b' hb' => hstep s b' (List.mem_cons_of_mem _ hb')) hrest hinv fun b' hb' => ?_
    have hne : index b ≠ index b' := fun he => hb (he ▸ List.mem_map_of_mem hb')
    rw [hother _ hne]
    exact hstart b' (List.mem_cons_of_mem _ hb')

structure Answering.Placed (start : List Inherited) (s : Answering) : Prop where
  fills : Fills .answered start s.inherited
  held : ∀ j, (s.answers.offered.lookup j).isSome → Inherited.answered j ∈ s.inherited

theorem Answering.answerUnit_cases (runs : JobId → Option RecordedRun) (s : Answering)
    (w : Wanted) :
    ((s.answerUnit runs w).answers.offered = s.answers.offered ∧
      (s.answerUnit runs w).inherited = s.inherited) ∨
    ∃ j, (s.answerUnit runs w).inherited = s.inherited.set w.index (.answered j) ∧
      ∀ j', ((s.answerUnit runs w).answers.offered.lookup j').isSome →
        j' = j ∨ (s.answers.offered.lookup j').isSome := by
  unfold Answering.answerUnit
  split
  · exact .inl ⟨rfl, rfl⟩
  · split
    · dsimp only
      split <;> exact .inl ⟨rfl, rfl⟩
    · split
      · exact .inl ⟨rfl, rfl⟩
      · next taken _ =>
        refine .inr ⟨taken.jobId, rfl, fun j' hj' => ?_⟩
        dsimp only at hj'
        split at hj'
        · rw [FileTree.lookup_write] at hj'
          split at hj'
          · next he => exact .inl he
          · exact .inr hj'
        · exact .inr hj'

theorem mem_set_of_ne {slots : List Inherited} {i : Nat} {a b c : Inherited}
    (h : c ∈ slots) (ha : slots[i]? = some a) (hne : c ≠ a) : c ∈ slots.set i b := by
  obtain ⟨k, hk⟩ := List.mem_iff_getElem?.mp h
  have hki : i ≠ k := by
    rintro rfl
    exact hne (Option.some.inj (hk.symm.trans ha))
  exact List.mem_iff_getElem?.mpr ⟨k, by rw [List.getElem?_set_ne hki, hk]⟩

theorem Answering.Placed.answerUnit {start : List Inherited} {s : Answering}
    {runs : JobId → Option RecordedRun} {w : Wanted} {a : Inherited} (h : s.Placed start)
    (ha : start[w.index]? = some a) (hopen : a.isOpen = true)
    (hslot : s.inherited[w.index]? = some a) : (s.answerUnit runs w).Placed start := by
  obtain ⟨hoffered, hslots⟩ | ⟨j, hslots, hoffered⟩ := s.answerUnit_cases runs w
  · exact ⟨hslots ▸ h.fills, fun j' hj' => hslots ▸ h.held j' (hoffered ▸ hj')⟩
  · refine ⟨hslots ▸ h.fills.set ha hopen j, fun j' hj' => ?_⟩
    rw [hslots]
    obtain rfl | hj' := hoffered j' hj'
    · exact List.mem_set (List.getElem?_eq_some_iff.mp hslot).1 _
    · refine mem_set_of_ne (h.held j' hj') hslot fun he => ?_
      rw [← he] at hopen
      cases hopen

theorem answer_placed {answers : Answers} {slots : List Inherited}
    (h : unclaimed.answer toText sha256 order units bodyOf inherited reads =
      .ok (answers, slots)) :
    Fills .answered inherited slots ∧
      ∀ j, (answers.offered.lookup j).isSome → Inherited.answered j ∈ slots := by
  obtain ⟨queued, -, h⟩ := Result.bind_eq_ok h
  obtain ⟨runs, -, h⟩ := Result.bind_eq_ok h
  cases h
  have hplaced : Answering.Placed inherited
      ((unclaimed.wanted toText sha256 units bodyOf inherited queued).foldl
        (Answering.answerUnit runs) ⟨unclaimed.cells, ⟨∅, ∅⟩, inherited⟩) := by
    refine foldl_slots (Answering.answerUnit runs) Wanted.index Answering.inherited
      (Answering.Placed inherited) (fun s w hw hs hslot => ?_) (nodup_wanted queued)
      ⟨.refl _, fun j hj => by cases hj⟩ fun _ _ => rfl
    obtain ⟨a, ha, hopen⟩ := wanted_open hw
    refine ⟨hs.answerUnit ha hopen (hslot.trans ha), fun i hi => ?_⟩
    obtain ⟨-, hslots⟩ | ⟨j, hslots, -⟩ := s.answerUnit_cases runs w
    · rw [hslots]
    · rw [hslots, List.getElem?_set_ne hi]
  exact ⟨hplaced.fills, hplaced.held⟩

structure Satisfying.Counted (start : List Inherited) (s : Satisfying) : Prop where
  fills : Fills .satisfied start s.inherited
  count : (s.inherited.filter Inherited.isSatisfied).length =
    (start.filter Inherited.isSatisfied).length + s.satisfied.length

theorem Satisfying.satisfyUnit_cases (recorded : JobId → Option SettledOutcome)
    (results : List CellResult) (s : Satisfying) (e : Eligible) :
    s.satisfyUnit recorded results e = s ∨
    ∃ j entry, (s.satisfyUnit recorded results e).inherited =
        s.inherited.set e.index (.satisfied j) ∧
      (s.satisfyUnit recorded results e).satisfied = s.satisfied ++ [entry] := by
  unfold Satisfying.satisfyUnit
  extract_lets carried
  split
  · exact .inl rfl
  · split
    · exact .inl rfl
    · exact .inr ⟨_, _, rfl, rfl⟩

theorem Satisfying.Counted.satisfyUnit {start : List Inherited} {s : Satisfying}
    {recorded : JobId → Option SettledOutcome} {results : List CellResult} {e : Eligible}
    {a : Inherited} (h : s.Counted start) (ha : start[e.index]? = some a)
    (hopen : a.isOpen = true) (hslot : s.inherited[e.index]? = some a) :
    (s.satisfyUnit recorded results e).Counted start := by
  obtain heq | ⟨j, entry, hslots, hentry⟩ := s.satisfyUnit_cases recorded results e
  · rw [heq]
    exact h
  · refine ⟨hslots ▸ h.fills.set ha hopen j, ?_⟩
    have hset := length_filter_set (p := Inherited.isSatisfied) (b := .satisfied j) hslot
    have hcount := h.count
    rw [hslots, hentry, List.length_append]
    cases a <;> simp_all [Inherited.isOpen, Inherited.isSatisfied] <;> omega

theorem satisfy_counted {satisfied : List Satisfaction} {slots : List Inherited}
    (h : satisfyFromEarlierRuns toText sha256 units bodyOf inherited reads =
      .ok (satisfied, slots)) :
    Fills .satisfied inherited slots ∧ (slots.filter Inherited.isSatisfied).length =
      (inherited.filter Inherited.isSatisfied).length + satisfied.length := by
  unfold satisfyFromEarlierRuns at h
  extract_lets eligible at h
  split at h
  · cases h
    exact ⟨.refl _, rfl⟩
  obtain ⟨results, -, h⟩ := Result.bind_eq_ok h
  obtain ⟨recorded, -, h⟩ := Result.bind_eq_ok h
  cases h
  have hcounted : Satisfying.Counted inherited
      (eligible.foldl (Satisfying.satisfyUnit recorded results)
        ⟨(heldJobs inherited).toFinset, [], inherited⟩) := by
    refine foldl_slots (Satisfying.satisfyUnit recorded results) Eligible.index
      Satisfying.inherited (Satisfying.Counted inherited) (fun s e he hs hslot => ?_)
      nodup_eligible ⟨.refl _, rfl⟩ fun _ _ => rfl
    obtain ⟨a, ha, hopen⟩ := eligible_open he
    refine ⟨hs.satisfyUnit ha hopen (hslot.trans ha), fun i hi => ?_⟩
    obtain heq | ⟨j, entry, hslots, -⟩ := s.satisfyUnit_cases recorded results e
    · rw [heq]
    · rw [hslots, List.getElem?_set_ne hi]
  exact ⟨hcounted.fills, hcounted.count⟩

end Answers

theorem card_requirementsRerun_le (units : Finset Nat) (slots : List Inherited) :
    (units.filter fun unit => slots[unit]? = some .nothing).card ≤
      (slots.filter (· = .nothing)).length := by
  have hsub : (units.filter fun unit => slots[unit]? = some .nothing) ⊆
      ((slots.zipIdx.filter fun x => x.1 = .nothing).map Prod.snd).toFinset := by
    intro unit h
    have hslot := (Finset.mem_filter.mp h).2
    refine List.mem_toFinset.mpr (List.mem_map.mpr ⟨(.nothing, unit), ?_, rfl⟩)
    exact List.mem_filter.mpr ⟨List.mem_zipIdx_iff_getElem?.mpr hslot, by simp⟩
  have hlength : (slots.zipIdx.filter fun x => x.1 = .nothing).length =
      (slots.filter (· = .nothing)).length := by
    conv_rhs => rw [← List.zipIdx_map_fst 0 slots, List.filter_map, List.length_map]
    rfl
  calc (units.filter fun unit => slots[unit]? = some .nothing).card
    _ ≤ _ := Finset.card_le_card hsub
    _ ≤ _ := List.toFinset_card_le _
    _ = _ := by rw [List.length_map, hlength]

theorem length_offeredJob {offered : FileTree JobId PlanId} {slots : List Inherited}
    (hheld : ∀ j, (offered.lookup j).isSome → Inherited.answered j ∈ slots)
    (hnodup : (heldJobs slots).Nodup) :
    (slots.filterMap (Inherited.offeredJob offered)).length = offered.entries.length := by
  have hone : ∀ a j, Inherited.offeredJob offered a = some j →
      a = .answered j ∧ (offered.lookup j).isSome := by
    intro a j h
    cases a with
    | answered j' =>
      obtain ⟨hj, he⟩ := Option.ite_none_right_eq_some.mp h
      cases he
      exact ⟨rfl, hj⟩
    | nothing | job | rerun | recalculate | satisfied => cases h
  have hsub : (slots.filterMap (Inherited.offeredJob offered)).Sublist (heldJobs slots) :=
    sublist_filterMap (fun a j h => by rw [(hone a j h).1]; rfl) slots
  have hkeys : offered.keys.Nodup := offered.nodupKeys
  have hmem : ∀ j, j ∈ slots.filterMap (Inherited.offeredJob offered) ↔ j ∈ offered.keys := by
    intro j
    rw [List.mem_filterMap, ← AList.mem_keys, ← AList.lookup_isSome]
    constructor
    · rintro ⟨a, -, h⟩
      exact (hone a j h).2
    · exact fun hj => ⟨.answered j, hheld j hj, if_pos hj⟩
  have hperm := (List.perm_ext_iff_of_nodup (hnodup.sublist hsub) hkeys).mpr hmem
  rw [hperm.length_eq]
  exact List.length_map _

def RevisionPreview.jobCount (p : RevisionPreview) : Nat :=
  p.carriedJobCount + p.newJobCount + p.requirementsRerunJobCount + p.satisfiedJobCount +
    p.restoredJobCount + p.inheritedJobCount + p.rerunJobCount + p.recalculatedJobCount

theorem jobCount_preview {previous : RevisedPlan} (named : Named previous) (plans : List PlanId)
    (head : Option PlanId) {d : PreviewDraw}
    (hsatisfied : (d.inherited.filter Inherited.isSatisfied).length = d.satisfied.length)
    (hoffered : (d.inherited.filterMap (Inherited.offeredJob d.answers.offered)).length =
      d.answers.offered.entries.length)
    (hrecalculate : (d.inherited.filter Inherited.isRecalculate).length =
      named.recalculate.card) :
    ((d.summary head).preview named plans).jobCount +
        (d.inherited.filter Inherited.isRerun).length =
      d.inherited.length + ((d.summary head).preview named plans).rerunJobCount := by
  have hsum := slots_add_up d.answers.offered d.inherited
  have hrequirements := card_requirementsRerun_le d.answers.requirementsRerun d.inherited
  have hinherited : (d.answers.offered.entries.filter fun e => e.2 ∈ plans).length ≤
      d.answers.offered.entries.length := List.length_filter_le _ _
  simp only [RevisionPreview.jobCount, CarryDraw.preview, PreviewDraw.summary]
  omega

section Revision

variable {Text : Type} {toText : Json → Text} {sha256 : Text → String} {order : HashOrder}
  {mint : Nat → JobId} {reads : CarryReads} {bodies : List Json} {previous : RevisedPlan}
  {named : Named previous} {sources : FileTree JobId Json} {offered : List Offered}
  {d : PreviewDraw}

theorem previewDraw_counts (hnew : (offered.map (·.jobId)).Nodup)
    (hother : ∀ o ∈ offered, o.jobId ∉ previous.jobIds)
    (hkinds : Disjoint named.rerun named.recalculate)
    (h : previewDraw toText sha256 order mint (.ofRevision previous named sources offered) reads
      bodies = .ok d) :
    d.inherited.length = d.grouped.units.length ∧
    (d.inherited.filter Inherited.isSatisfied).length = d.satisfied.length ∧
    (d.inherited.filterMap (Inherited.offeredJob d.answers.offered)).length =
      d.answers.offered.entries.length ∧
    (d.inherited.filter Inherited.isRecalculate).length = named.recalculate.card ∧
    (named.rerun = ∅ → d.inherited.filter Inherited.isRerun = []) := by
  obtain ⟨draw, hdraw, h⟩ := Result.bind_eq_ok h
  obtain ⟨⟨answers, slots⟩, hanswer, h⟩ := Result.bind_eq_ok h
  obtain ⟨⟨satisfied, slots'⟩, hsatisfy, h⟩ := Result.bind_eq_ok h
  cases h
  obtain ⟨hplaced, hdrawn, -⟩ := draw_eq_ok hdraw
  obtain ⟨hfirst, hheld⟩ := answer_placed hanswer
  obtain ⟨hlast, hcount⟩ := satisfy_counted hsatisfy
  -- neither walk makes or takes away a slot of these kinds
  have hkept : ∀ p : Inherited → Bool, (∀ a, Inherited.isOpen a = true → p a = false) →
      (∀ j, p (.answered j) = false) → (∀ j, p (.satisfied j) = false) →
      (slots'.filter p).length = (draw.inherited.filter p).length := fun p hopen ha hs =>
    (hlast.length_filter hopen hs).trans (hfirst.length_filter hopen ha)
  refine ⟨?_, ?_, ?_, ?_, fun hnone => ?_⟩
  · rw [hlast.length, hfirst.length, hdrawn]
    exact (Carryover.filed_fromManifest.takeAll).2.length_eq.symm
  · have hnone : draw.inherited.filter Inherited.isSatisfied = [] := by
      rw [hdrawn]
      exact List.filter_eq_nil_iff.mpr fun slot hslot => by simp [(takeAll_kinds hslot).1]
    have hsame := hfirst.length_filter (p := Inherited.isSatisfied)
      (fun a ha => by cases a <;> first | rfl | cases ha) fun _ => rfl
    rw [hnone] at hsame
    rw [hcount, hsame]
    exact Nat.zero_add _
  · refine length_offeredJob (fun j hj => hlast.mem (hheld j hj) rfl) ?_
    refine satisfyFromEarlierRuns_nodup ?_ hsatisfy
    exact nodup_of_subperm (answer_subperm hanswer) (held_candidates_nodup hnew hother hdraw)
  · rw [hkept _ (fun a ha => by cases a <;> first | rfl | cases ha) (fun _ => rfl) fun _ => rfl,
      hdrawn]
    exact drawn_recalculate hkinds hplaced
  · refine List.eq_nil_of_length_eq_zero ?_
    rw [hkept _ (fun a ha => by cases a <;> first | rfl | cases ha) (fun _ => rfl) fun _ => rfl,
      hdrawn, takeAll_no_rerun (Carryover.fromManifest_no_rerun hnone)]
    rfl

variable (toText sha256 sources reads bodies named)

/-- For every list of bodies, superseded plan and answer of the store, and named jobs that are either
run again or recalculated: each unit of the dry run has the slot that an ingest of the bodies gives
it, whatever deadlines and job ids the ingest is given, and the counts add up to the units once a
re-run is counted by the units that draw one. The report counts the jobs named, so its own counts
add up if no re-run is named. -/
theorem preview_predicts {plans : FileTree PlanId (Except Fault RevisedPlan)}
    {jobSource : JobId → Except Fault (Option Json)} {offer : Offer}
    (hoffered : offeredJobs plans jobSource previous offer = .ok offered)
    (hkinds : Disjoint named.rerun named.recalculate) :
    (∀ order order' mint mint' inputs, inputs.map Input.body = bodies →
      (previewDraw toText sha256 order mint (.ofRevision previous named sources offered) reads
          bodies).map PreviewDraw.inherited =
        (ingestDraw toText sha256 order' mint' (.ofRevision previous named sources offered) reads
          inputs).map CarryOutcome.inherited) ∧
    ∀ order mint d head planIds,
      previewDraw toText sha256 order mint (.ofRevision previous named sources offered) reads
        bodies = .ok d →
      ((d.summary head).preview named planIds).jobCount +
          (d.inherited.filter Inherited.isRerun).length =
        d.grouped.units.length + ((d.summary head).preview named planIds).rerunJobCount ∧
      (named.rerun = ∅ →
        ((d.summary head).preview named planIds).jobCount = d.grouped.units.length) := by
  obtain ⟨hnew, hother⟩ := offeredJobs_new hoffered
  refine ⟨fun _ _ _ _ _ hbodies => previewDraw_inherited hbodies, fun _ _ d head planIds h => ?_⟩
  obtain ⟨hlength, hsatisfied, htaken, hrecalculate, hrerun⟩ :=
    previewDraw_counts hnew hother hkinds h
  have hsum := jobCount_preview named planIds head hsatisfied htaken hrecalculate
  rw [hlength] at hsum
  refine ⟨hsum, fun hnone => ?_⟩
  rw [hrerun hnone] at hsum
  have hzero : ((d.summary head).preview named planIds).rerunJobCount = 0 := by
    simp [CarryDraw.preview, hnone]
  simpa [hzero] using hsum

end Revision

def apartBody : Json := .obj [("merge_duplicates", .bool false)]

def headOfTwins : RevisedPlan :=
  { headOf "d" "d" with expiredJobs := ⟨[⟨⟨"b"⟩, ⟨⟨0⟩, 0⟩⟩], by simp [List.NodupKeys]⟩ }

def rerunFirst : Named headOfTwins where
  rerun := {⟨"a"⟩}
  recalculate := ∅
  held := fun j hj => by
    simp only [Finset.union_empty, Finset.mem_singleton] at hj
    subst hj
    decide

theorem preview_predicts_twins : ∃ d,
    previewDraw id (fun _ => "d") filledOrder (fun n => ⟨toString n⟩)
      (.ofRevision headOfTwins rerunFirst ∅ []) noRuns [apartBody, apartBody] = .ok d ∧
    ((d.summary none).preview rerunFirst []).jobCount +
        (d.inherited.filter Inherited.isRerun).length =
      d.grouped.units.length + ((d.summary none).preview rerunFirst []).rerunJobCount := by
  have hoffered : offeredJobs ∅ (fun _ => .ok none) headOfTwins ⟨false, [], []⟩ = .ok [] := rfl
  have h := preview_predicts id (fun _ => "d") noRuns [apartBody, apartBody] rerunFirst ∅
    hoffered (by decide)
  exact ⟨_, rfl, (h.2 filledOrder (fun n => ⟨toString n⟩) _ none [] rfl).1⟩

/-- Both units draw a re-run, and the report counts the one job named. -/
theorem rerun_count_short : ∃ d,
    previewDraw id (fun _ => "d") filledOrder (fun n => ⟨toString n⟩)
      (.ofRevision headOfTwins rerunFirst ∅ []) noRuns [apartBody, apartBody] = .ok d ∧
    d.grouped.units.length = 2 ∧ ((d.summary none).preview rerunFirst []).jobCount = 1 := by
  exact ⟨_, rfl, rfl, rfl⟩

end Pipette
