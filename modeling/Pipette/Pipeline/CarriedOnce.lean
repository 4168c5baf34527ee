import Pipette.Core.CanonicalText
import Pipette.Lib.Result
import Pipette.Pipeline.Carry

/-! A revision assigns every job once. The jobs of the superseded plan are one stock that the draw
takes from; the jobs it leaves and the ones on offer are a second stock for the answers; an earlier
run is taken only where no unit holds it. -/
namespace Pipette

open FileTree

theorem nodup_of_subperm {α : Type} {l l' : List α} (h : l.Subperm l') (hl : l'.Nodup) : l.Nodup := by
  obtain ⟨m, hm, hsub⟩ := h
  exact hm.nodup_iff.mp (hl.sublist hsub)

theorem heldJobs_set {slots : List Inherited} {slot : Inherited} {i : Nat} :
    (heldJobs (slots.set i slot)).Subperm (slot.held.toList ++ heldJobs slots) := by
  by_cases hi : i < slots.length
  · have hset : (slots.set i slot).Perm (slot :: slots.eraseIdx i) := by
      have h := List.getElem_cons_eraseIdx_perm (l := slots.set i slot) (n := i) (by simpa using hi)
      rw [List.getElem_set_self, List.eraseIdx_set_eq] at h
      exact h.symm
    have hheld : (heldJobs (slots.set i slot)).Perm
        (slot.held.toList ++ heldJobs (slots.eraseIdx i)) := by
      refine (hset.filterMap _).trans ?_
      rw [heldJobs, List.filterMap_cons]
      cases slot.held <;> exact .refl _
    refine hheld.subperm.trans (List.Sublist.subperm ?_)
    exact ((List.eraseIdx_sublist slots i).filterMap _).append_left _
  · rw [List.set_eq_of_length_le (by omega)]
    exact (List.sublist_append_right _ _).subperm

def Remains (previous : RevisedPlan) (named : Named previous) (j : JobId) : Bool :=
  decide (j ∈ named.rerun) || decide (j ∈ named.recalculate) ||
    (previous.expiredJobs.lookup j).isNone

section Cells

variable {previous : RevisedPlan} (named : Named previous) (d : String)

/-- The entry is of the digest, and its job is carried or recalculated. -/
def Named.carries (e : Sigma fun _ : JobId => String) : Bool :=
  decide (e.2 = d) && (decide (e.1 ∉ named.rerun) && Remains previous named e.1)

def Named.runsAgain (e : Sigma fun _ : JobId => String) : Bool :=
  decide (e.2 = d) && decide (e.1 ∈ named.rerun)

def Named.carriedUnder : Nat := previous.contentKeys.entries.countP (named.carries d)

def Named.rerunUnder : Nat := previous.contentKeys.entries.countP (named.runsAgain d)

def unitsUnder (units : List CellUnit) (d : String) : Nat := units.countP (·.digest = d)

/-- The new plan has a unit for every job of each cell. -/
def Named.Covered (units : List CellUnit) : Prop :=
  ∀ d, named.carriedUnder d + named.rerunUnder d ≤ unitsUnder units d

/-- Some cell has too few units for its carried and recalculated jobs, or no unit beyond them for the
jobs it is to run again. -/
def Named.Drifts (units : List CellUnit) : Prop :=
  ∃ d, unitsUnder units d < named.carriedUnder d + min 1 (named.rerunUnder d)

end Cells

namespace Carryover

variable {previous : RevisedPlan} {named : Named previous} {carry : Carryover} {digest : String}
  {j : JobId} {units : List CellUnit}

def stock (carry : Carryover) : List JobId :=
  items id carry.pool ++ items id carry.recalculate ++ items RerunCell.jobs carry.rerun

theorem stock_file : ((carry.file named j digest).stock).Perm
    ((if Remains previous named j then [j] else []) ++ carry.stock) := by
  unfold file Remains stock
  by_cases hrerun : j ∈ named.rerun
  · simp only [hrerun, if_true, decide_true, Bool.true_or]
    have hfile : (items RerunCell.jobs (carry.rerun.insert digest
        ⟨((carry.rerun.lookup digest).getD ⟨[], false⟩).jobs ++ [j],
          ((carry.rerun.lookup digest).getD ⟨[], false⟩).drawn⟩)).Perm
        ([j] ++ items RerunCell.jobs carry.rerun) := by
      refine items_file (t := carry.rerun) ?_
      cases carry.rerun.lookup digest <;> exact .refl _
    refine (hfile.append_left _).trans ?_
    exact List.perm_append_comm_assoc _ _ _
  · by_cases hrecalculate : j ∈ named.recalculate
    · simp only [hrerun, hrecalculate, if_true, if_false, decide_false, decide_true, Bool.false_or,
        Bool.true_or]
      have hpush : (items id (carry.recalculate.pushBack digest j)).Perm
          ([j] ++ items id carry.recalculate) := items_pushBack
      refine ((hpush.append_left _).append_right _).trans ?_
      have hcomm : (items id carry.pool ++ ([j] ++ items id carry.recalculate)).Perm
          ([j] ++ (items id carry.pool ++ items id carry.recalculate)) :=
        List.perm_append_comm_assoc _ [j] _
      exact hcomm.append_right _
    · cases hlapsed : (previous.expiredJobs.lookup j).isNone with
      | true =>
        simp only [hrerun, hrecalculate, if_true, if_false, decide_false, Bool.false_or]
        have hpush : (items id (carry.pool.pushBack digest j)).Perm ([j] ++ items id carry.pool) :=
          items_pushBack
        exact (hpush.append_right _).append_right _
      | false =>
        simp only [hrerun, hrecalculate, if_false, decide_false, Bool.false_or]
        exact .refl _

theorem stock_take : (carry.stock).Perm
    ((carry.take digest).1.held.toList ++ (carry.take digest).2.stock) := by
  unfold take stock
  cases hpool : carry.pool.popFront digest with
  | some front =>
    obtain ⟨j, pool⟩ := front
    exact ((items_popFront hpool).append_right _).append_right _
  | none =>
    cases hrecalculate : carry.recalculate.popFront digest with
    | some front =>
      obtain ⟨j, recalculate⟩ := front
      have hpop := items_popFront hrecalculate
      refine ((hpop.append_left _).append_right _).trans ?_
      exact List.Perm.append_right _ (List.perm_append_comm_assoc _ [j] _)
    | none =>
      cases hrerun : carry.rerun.lookup digest with
      | none => exact .refl _
      | some cell =>
        have hcell : (RerunCell.jobs cell).Perm
            (cell.jobs.head?.toList ++ RerunCell.jobs ⟨cell.jobs.tail, true⟩) := by
          obtain ⟨_ | ⟨j, jobs⟩, drawn⟩ := cell <;> exact .refl _
        refine ((items_take hrerun hcell).append_left _).trans ?_
        exact List.perm_append_comm_assoc _ _ _

theorem stock_takeAll (carry : Carryover) (units : List CellUnit) : (carry.stock).Perm
    (heldJobs (carry.takeAll units).1 ++ (carry.takeAll units).2.stock) := by
  induction units generalizing carry with
  | nil => exact .refl _
  | cons unit rest ih =>
    have hheld : heldJobs (carry.takeAll (unit :: rest)).1 = (carry.take unit.digest).1.held.toList ++
        heldJobs ((carry.take unit.digest).2.takeAll rest).1 := by
      change heldJobs ((carry.take unit.digest).1 :: _) = _
      rw [heldJobs, List.filterMap_cons]
      cases (carry.take unit.digest).1.held <;> rfl
    rw [hheld, List.append_assoc]
    exact stock_take.trans ((ih _).append_left _)

theorem stock_fromManifest : ((fromManifest previous named).stock).Perm
    (previous.contentKeys.keys.filter (Remains previous named)) := by
  have hfold : ∀ (entries : List (Sigma fun _ : JobId => String)) (carry : Carryover),
      ((entries.foldl (fun carry e => carry.file named e.1 e.2) carry).stock).Perm
        ((entries.keys.filter (Remains previous named)) ++ carry.stock) := by
    intro entries
    induction entries with
    | nil => exact fun _ => .refl _
    | cons e rest ih =>
      intro carry
      refine (ih _).trans ?_
      refine (stock_file.append_left _).trans ?_
      rw [List.keys_cons, List.filter_cons]
      split
      · exact List.perm_append_comm_assoc _ [e.1] _
      · exact .refl _
  have h := hfold previous.contentKeys.entries ⟨∅, ∅, ∅, previous.rerunOf, ∅, []⟩
  rwa [show stock ⟨∅, ∅, ∅, previous.rerunOf, ∅, []⟩ = [] from rfl, List.append_nil] at h

theorem fromManifest_induction {P : Carryover → Prop}
    (hstart : P ⟨∅, ∅, ∅, previous.rerunOf, ∅, []⟩)
    (hfile : ∀ carry j digest, previous.contentKeys.lookup j = some digest → P carry →
      P (carry.file named j digest)) : P (fromManifest previous named) := by
  have hfold : ∀ (entries : List (Sigma fun _ : JobId => String)) (carry : Carryover),
      (∀ e ∈ entries, previous.contentKeys.lookup e.1 = some e.2) → P carry →
      P (entries.foldl (fun carry e => carry.file named e.1 e.2) carry) := by
    intro entries
    induction entries with
    | nil => exact fun _ _ h => h
    | cons e rest ih =>
      intro carry hkeys h
      refine ih _ (fun e' he' => hkeys e' (List.mem_cons_of_mem e he')) ?_
      exact hfile carry e.1 e.2 (hkeys e List.mem_cons_self) h
  exact hfold _ _ (fun e he => AList.mem_lookup_iff.mpr he) hstart

theorem nodup_stock : (fromManifest previous named).stock.Nodup :=
  stock_fromManifest.nodup_iff.mpr ((AList.keys_nodup previous.contentKeys).filter _)

/-- Every job is in the part its naming puts it in, under the digest it was recorded with. -/
structure Filed (previous : RevisedPlan) (named : Named previous) (carry : Carryover) : Prop where
  pool : ∀ d j, InBin id carry.pool d j →
    previous.contentKeys.lookup j = some d ∧ j ∉ named.rerun ∧ j ∉ named.recalculate
  recalculate : ∀ d j, InBin id carry.recalculate d j →
    previous.contentKeys.lookup j = some d ∧ j ∉ named.rerun
  rerun : ∀ d j, InBin RerunCell.jobs carry.rerun d j →
    previous.contentKeys.lookup j = some d ∧ j ∈ named.rerun

theorem filed_fromManifest : Filed previous named (fromManifest previous named) := by
  refine fromManifest_induction ?_ fun carry j digest hkey h => ?_
  · constructor <;> exact fun d j ⟨v, hv, _⟩ => nomatch hv
  · unfold file
    split
    · next hrerun =>
      refine { h with rerun := fun d j' hj' => ?_ }
      obtain ⟨rfl, hj'⟩ | hj' := inBin_insert hj'
      · obtain hj' | hj' := List.mem_append.mp hj'
        · cases hlookup : carry.rerun.lookup d with
          | none => simp [hlookup] at hj'
          | some cell => exact h.rerun d j' ⟨cell, hlookup, by simpa [hlookup] using hj'⟩
        · cases List.mem_singleton.mp hj'
          exact ⟨hkey, hrerun⟩
      · exact h.rerun d j' hj'
    · next hrerun =>
      split
      · refine { h with recalculate := fun d j' hj' => ?_ }
        obtain ⟨rfl, rfl⟩ | hj' := inBin_pushBack hj'
        · exact ⟨hkey, hrerun⟩
        · exact h.recalculate d j' hj'
      · next hrecalculate =>
        split
        · refine { h with pool := fun d j' hj' => ?_ }
          obtain ⟨rfl, rfl⟩ | hj' := inBin_pushBack hj'
          · exact ⟨hkey, hrerun, hrecalculate⟩
          · exact h.pool d j' hj'
        · exact h

theorem Filed.take (h : Filed previous named carry) (digest : String) :
    Filed previous named (carry.take digest).2 ∧
    ∀ j ∈ (carry.take digest).1.held, previous.contentKeys.lookup j = some digest ∧
      (j ∈ named.rerun → (carry.take digest).1 = .rerun (some j)) := by
  unfold Carryover.take
  cases hpool : carry.pool.popFront digest with
  | some front =>
    obtain ⟨j, pool⟩ := front
    obtain ⟨hfront, hrest⟩ := inBin_popFront hpool
    obtain ⟨hkey, hrerun, -⟩ := h.pool digest j hfront
    refine ⟨{ h with pool := fun d j' hj' => h.pool d j' (hrest d j' hj') }, ?_⟩
    rintro _ ⟨⟩
    exact ⟨hkey, fun hj => absurd hj hrerun⟩
  | none =>
    cases hrecalculate : carry.recalculate.popFront digest with
    | some front =>
      obtain ⟨j, recalculate⟩ := front
      obtain ⟨hfront, hrest⟩ := inBin_popFront hrecalculate
      obtain ⟨hkey, hrerun⟩ := h.recalculate digest j hfront
      refine ⟨{ h with recalculate := fun d j' hj' => h.recalculate d j' (hrest d j' hj') }, ?_⟩
      rintro _ ⟨⟩
      exact ⟨hkey, fun hj => absurd hj hrerun⟩
    | none =>
      cases hrerun : carry.rerun.lookup digest with
      | none => exact ⟨h, fun _ hj => nomatch hj⟩
      | some cell =>
        refine ⟨{ h with rerun := fun d j' hj' => ?_ }, fun j hj => ?_⟩
        · obtain ⟨rfl, hmem⟩ | hmem := inBin_insert hj'
          · exact h.rerun d j' ⟨cell, hrerun, List.mem_of_mem_tail hmem⟩
          · exact h.rerun d j' hmem
        · have hin : InBin RerunCell.jobs carry.rerun digest j :=
            ⟨cell, hrerun, List.mem_of_mem_head? hj⟩
          exact ⟨(h.rerun digest j hin).1, fun _ => congrArg Inherited.rerun hj⟩

theorem Filed.takeAll (h : Filed previous named carry) :
    Filed previous named (carry.takeAll units).2 ∧
      List.Forall₂ (fun unit slot => ∀ j ∈ Inherited.held slot,
        previous.contentKeys.lookup j = some (CellUnit.digest unit) ∧
          (j ∈ named.rerun → slot = .rerun (some j))) units (carry.takeAll units).1 := by
  induction units generalizing carry with
  | nil => exact ⟨h, .nil⟩
  | cons unit rest ih =>
    obtain ⟨hfiled, hslot⟩ := h.take unit.digest
    obtain ⟨hrest, hslots⟩ := ih hfiled
    exact ⟨hrest, .cons hslot hslots⟩

theorem mem_stock_of_key (hkey : previous.contentKeys.lookup j = some digest)
    (hkept : Remains previous named j = true) : j ∈ (fromManifest previous named).stock := by
  refine stock_fromManifest.mem_iff.mpr (List.mem_filter.mpr ⟨?_, hkept⟩)
  exact mem_keys_iff.mpr (hkey ▸ rfl)

theorem rerun_waits (hj : j ∈ named.rerun) (hkey : previous.contentKeys.lookup j = some digest) :
    InBin RerunCell.jobs (fromManifest previous named).rerun digest j := by
  have hfiled : Filed previous named _ := filed_fromManifest
  have hstock : j ∈ (fromManifest previous named).stock :=
    mem_stock_of_key hkey (by simp [Remains, hj])
  rw [stock, List.mem_append, List.mem_append, mem_items, mem_items, mem_items] at hstock
  obtain (⟨d, hd⟩ | ⟨d, hd⟩) | ⟨d, hd⟩ := hstock
  · exact absurd hj (hfiled.pool d j hd).2.1
  · exact absurd hj (hfiled.recalculate d j hd).2
  · have hsame : digest = d := Option.some.inj (hkey.symm.trans (hfiled.rerun d j hd).1)
    exact hsame ▸ hd

theorem recalculate_waits (hj : j ∈ named.recalculate) (hnot : j ∉ named.rerun)
    (hkey : previous.contentKeys.lookup j = some digest) :
    InBin id (fromManifest previous named).recalculate digest j := by
  have hfiled : Filed previous named _ := filed_fromManifest
  have hstock : j ∈ (fromManifest previous named).stock :=
    mem_stock_of_key hkey (by simp [Remains, hj])
  rw [stock, List.mem_append, List.mem_append, mem_items, mem_items, mem_items] at hstock
  obtain (⟨d, hd⟩ | ⟨d, hd⟩) | ⟨d, hd⟩ := hstock
  · exact absurd hj (hfiled.pool d j hd).2.2
  · have hsame : digest = d := Option.some.inj (hkey.symm.trans (hfiled.recalculate d j hd).1)
    exact hsame ▸ hd
  · exact absurd (hfiled.rerun d j hd).2 hnot

theorem take_keeps (carry : Carryover) (digest d : String) :
    ((carry.rerun.lookup d).isSome → ((carry.take digest).2.rerun.lookup d).isSome) ∧
      ((carry.recalculate.lookup d).isSome → ((carry.take digest).2.recalculate.lookup d).isSome) := by
  have hinsert : ∀ {V : Type} {t : FileTree String V} {v : V} {k : String},
      (t.lookup d).isSome → ((t.insert k v).lookup d).isSome := by
    intro V t v k ht
    rw [lookup_write]
    split
    · rfl
    · exact ht
  unfold Carryover.take
  split
  · exact ⟨fun h => h, fun h => h⟩
  · split
    · next hpop =>
      obtain ⟨rest, -, rfl⟩ := popFront_eq_some hpop
      exact ⟨fun h => h, hinsert⟩
    · split
      · exact ⟨hinsert, fun h => h⟩
      · exact ⟨fun h => h, fun h => h⟩

theorem takeAll_keeps (carry : Carryover) (units : List CellUnit) (d : String) :
    ((carry.rerun.lookup d).isSome → ((carry.takeAll units).2.rerun.lookup d).isSome) ∧
      ((carry.recalculate.lookup d).isSome →
        ((carry.takeAll units).2.recalculate.lookup d).isSome) := by
  induction units generalizing carry with
  | nil => exact ⟨fun h => h, fun h => h⟩
  | cons unit rest ih =>
    have hfirst := take_keeps carry unit.digest d
    have hrest := ih (carry.take unit.digest).2
    exact ⟨fun h => hrest.1 (hfirst.1 h), fun h => hrest.2 (hfirst.2 h)⟩

theorem not_isEmpty_of_lookup {V : Type} {t : FileTree String V} {d : String}
    (h : (t.lookup d).isSome) : t.entries.isEmpty = false := by
  cases hentries : t.entries with
  | cons => rfl
  | nil =>
    have hmem := mem_keys_iff.mpr h
    simp [AList.keys, List.keys, hentries] at hmem

theorem placed_of_accepted (hnamed : (named.rerun ∪ named.recalculate).Nonempty)
    (h : ((fromManifest previous named).takeAll units).2.requireNamedPlaced = .ok ()) :
    items id ((fromManifest previous named).takeAll units).2.pool = [] ∧
      items id ((fromManifest previous named).takeAll units).2.recalculate = [] ∧
      ∀ d cell, ((fromManifest previous named).takeAll units).2.rerun.lookup d = some cell →
        cell.drawn = true := by
  obtain ⟨j, hj⟩ := hnamed
  obtain ⟨d, hkey⟩ := Option.isSome_iff_exists.mp (AList.lookup_isSome.mpr (named.held j hj))
  have hsome : ∀ {V : Type} {f : V → List JobId} {t : FileTree String V},
      InBin f t d j → (t.lookup d).isSome := fun ⟨v, hv, _⟩ => hv ▸ rfl
  have hkeeps := takeAll_keeps (fromManifest previous named) units d
  have hcheck : (((fromManifest previous named).takeAll units).2.rerun.entries.isEmpty &&
      ((fromManifest previous named).takeAll units).2.recalculate.entries.isEmpty) = false := by
    by_cases hrerun : j ∈ named.rerun
    · rw [not_isEmpty_of_lookup (hkeeps.1 (hsome (rerun_waits hrerun hkey)))]
      rfl
    · have hrecalculate := (Finset.mem_union.mp hj).resolve_left hrerun
      rw [not_isEmpty_of_lookup (hkeeps.2 (hsome (recalculate_waits hrecalculate hrerun hkey)))]
      exact Bool.and_false _
  have hleft : ((fromManifest previous named).takeAll units).2.left = 0 := by
    unfold requireNamedPlaced at h
    rw [hcheck] at h
    simp only [Bool.false_eq_true, if_false] at h
    split at h
    · next hzero => exact hzero
    · cases h
  unfold left at hleft
  refine ⟨List.length_eq_zero_iff.mp (by omega), List.length_eq_zero_iff.mp (by omega),
    fun d cell hcell => ?_⟩
  have hnone : (((fromManifest previous named).takeAll units).2.rerun.entries.filter
      fun e => !e.2.drawn) = [] := List.length_eq_zero_iff.mp (by omega)
  have hdrawn := List.filter_eq_nil_iff.mp hnone ⟨d, cell⟩ (AList.mem_lookup_iff.mp hcell)
  simpa using hdrawn

theorem drawn_once (hnamed : (named.rerun ∪ named.recalculate).Nonempty)
    (h : ((fromManifest previous named).takeAll units).2.requireNamedPlaced = .ok ())
    (hkey : previous.contentKeys.lookup j = some digest)
    (hunlapsed : previous.expiredJobs.lookup j = none) (hj : j ∉ named.rerun) :
    (heldJobs ((fromManifest previous named).takeAll units).1).count j = 1 := by
  obtain ⟨hpool, hrecalculate, -⟩ := placed_of_accepted hnamed h
  have hperm := stock_takeAll (fromManifest previous named) units
  have hone : (fromManifest previous named).stock.count j = 1 :=
    List.count_eq_one_of_mem nodup_stock (mem_stock_of_key hkey (by simp [Remains, hunlapsed]))
  have hnone : (((fromManifest previous named).takeAll units).2.stock).count j = 0 := by
    refine List.count_eq_zero.mpr fun hmem => ?_
    rw [stock, hpool, hrecalculate, List.nil_append, List.nil_append, mem_items] at hmem
    obtain ⟨d, hd⟩ := hmem
    exact hj ((filed_fromManifest.takeAll).1.rerun d j hd).2
  rw [hperm.count_eq, List.count_append, hnone] at hone
  exact hone

/-- The jobs of a digest that are carried or recalculated. -/
def others (carry : Carryover) (d : String) : Nat :=
  ((carry.pool.lookup d).getD []).length + ((carry.recalculate.lookup d).getD []).length

def waiting (carry : Carryover) (d : String) : Nat :=
  ((carry.rerun.lookup d).elim [] RerunCell.jobs).length

def undrawn (carry : Carryover) (d : String) : Bool := (carry.rerun.lookup d).any fun cell => !cell.drawn

/-- `n` units of the digest have been served: carried and recalculated jobs go first. -/
structure Served (carry carry' : Carryover) (d : String) (n : Nat) : Prop where
  others : carry'.others d = carry.others d - n
  waiting : carry'.waiting d = carry.waiting d - (n - carry.others d)
  undrawn : carry'.undrawn d = (carry.undrawn d && decide (n ≤ carry.others d))

theorem served_zero {carry' : Carryover} {d : String}
    (hpool : carry'.pool.lookup d = carry.pool.lookup d)
    (hrecalculate : carry'.recalculate.lookup d = carry.recalculate.lookup d)
    (hrerun : carry'.rerun.lookup d = carry.rerun.lookup d) : Served carry carry' d 0 :=
  ⟨by simp [Carryover.others, hpool, hrecalculate], by simp [Carryover.waiting, hrerun],
    by simp [Carryover.undrawn, hrerun]⟩

theorem served_one {carry' : Carryover} {d : String} (hothers : carry.others d = carry'.others d + 1)
    (hrerun : carry'.rerun = carry.rerun) : Served carry carry' d 1 := by
  refine ⟨by omega, ?_, ?_⟩
  · rw [hothers]
    simp [Carryover.waiting, hrerun]
  · rw [hothers]
    simp [Carryover.undrawn, hrerun]

theorem served_other (carry : Carryover) {digest d : String} (hd : d ≠ digest) :
    Served carry (carry.take digest).2 d 0 := by
  have hother {V : Type} {t : FileTree String V} {v : V} :
      (t.insert digest v).lookup d = t.lookup d := by rw [lookup_write, if_neg hd]
  unfold take
  split
  · next hpop =>
    obtain ⟨rest, -, rfl⟩ := popFront_eq_some hpop
    exact served_zero hother rfl rfl
  · split
    · next hpop =>
      obtain ⟨rest, -, rfl⟩ := popFront_eq_some hpop
      exact served_zero rfl hother rfl
    · split
      · exact served_zero rfl rfl hother
      · exact served_zero rfl rfl rfl

theorem served_own (carry : Carryover) (d : String) : Served carry (carry.take d).2 d 1 := by
  unfold take
  split
  · next hpop =>
    obtain ⟨rest, hlookup, rfl⟩ := popFront_eq_some hpop
    refine served_one ?_ rfl
    simp only [Carryover.others, hlookup, lookup_write, if_true, Option.getD_some, List.length_cons]
    omega
  · next hpool =>
    split
    · next hpop =>
      obtain ⟨rest, hlookup, rfl⟩ := popFront_eq_some hpop
      refine served_one ?_ rfl
      simp only [Carryover.others, hlookup, lookup_write, if_true, Option.getD_some, List.length_cons]
      omega
    · next hrecalculate =>
      have hzero : carry.others d = 0 := by
        simp [Carryover.others, popFront_eq_none hpool, popFront_eq_none hrecalculate]
      split
      · next cell hrerun =>
        refine ⟨by rw [hzero]; simpa [Carryover.others] using hzero, ?_, ?_⟩
        · simp [Carryover.waiting, hrerun, hzero]
        · simp [Carryover.undrawn, hzero]
      · next hrerun =>
        refine ⟨by rw [hzero], ?_, ?_⟩
        · simp [Carryover.waiting, hrerun]
        · simp [Carryover.undrawn, hrerun]

theorem served_take (carry : Carryover) (digest d : String) :
    Served carry (carry.take digest).2 d (if digest = d then 1 else 0) := by
  by_cases hd : digest = d
  · subst hd
    rw [if_pos rfl]
    exact served_own carry digest
  · rw [if_neg hd]
    exact served_other carry (Ne.symm hd)

theorem served_takeAll (carry : Carryover) (units : List CellUnit) (d : String) :
    Served carry (carry.takeAll units).2 d (units.countP (·.digest = d)) := by
  induction units generalizing carry with
  | nil => exact served_zero rfl rfl rfl
  | cons unit rest ih =>
    have hfirst := served_take carry unit.digest d
    have hrest := ih (carry.take unit.digest).2
    have hcount : (unit :: rest).countP (·.digest = d) =
        (if unit.digest = d then 1 else 0) + rest.countP (·.digest = d) := by
      rw [List.countP_cons, Nat.add_comm]
      simp
    rw [hcount]
    refine ⟨?_, ?_, ?_⟩
    · have := hrest.others
      rw [hfirst.others] at this
      exact this.trans (by omega)
    · have := hrest.waiting
      rw [hfirst.waiting, hfirst.others] at this
      exact this.trans (by omega)
    · have := hrest.undrawn
      rw [hfirst.undrawn, hfirst.others] at this
      refine this.trans ?_
      rw [Bool.and_assoc, ← Bool.decide_and]
      exact congrArg _ (decide_eq_decide.mpr (by omega))

/-- What the entries of a manifest put under a digest: a cell with a job to run again is not drawn
yet. -/
structure Stocked (named : Named previous) (carry : Carryover)
    (entries : List (Sigma fun _ : JobId => String)) (d : String) : Prop where
  others : carry.others d = entries.countP (named.carries d)
  waiting : carry.waiting d = entries.countP (named.runsAgain d)
  fresh : ∀ cell, carry.rerun.lookup d = some cell → cell.drawn = false ∧ cell.jobs ≠ []

theorem length_pushBack {bins : FileTree String (List JobId)} {d : String} :
    (((bins.pushBack digest j).lookup d).getD []).length =
      ((bins.lookup d).getD []).length + if digest = d then 1 else 0 := by
  rw [pushBack, lookup_write]
  by_cases hd : d = digest
  · subst hd
    simp
  · simp [hd, Ne.symm hd]

theorem Stocked.file {entries : List (Sigma fun _ : JobId => String)} {d : String}
    (h : Stocked named carry entries d) (e : Sigma fun _ : JobId => String) :
    Stocked named (carry.file named e.1 e.2) (entries ++ [e]) d := by
  have hothers := h.others
  have hwaiting := h.waiting
  unfold Carryover.file
  split
  · next hrerun =>
    have hcarries : named.carries d e = false := by simp [Named.carries, hrerun]
    have hruns : named.runsAgain d e = decide (e.2 = d) := by simp [Named.runsAgain, hrerun]
    refine ⟨hothers.trans (by simp [hcarries]), ?_, fun cell hcell => ?_⟩
    · rw [List.countP_append, List.countP_singleton, hruns, ← hwaiting]
      by_cases hd : d = e.2
      · subst hd
        cases hlookup : carry.rerun.lookup e.2 <;> simp [Carryover.waiting, hlookup]
      · simp [Carryover.waiting, hd, Ne.symm hd]
    · simp only [lookup_write] at hcell
      split at hcell
      · next hd =>
        subst hd
        cases hcell
        cases hlookup : carry.rerun.lookup e.2 with
        | none => simp
        | some cell => simpa using (h.fresh cell hlookup).1
      · exact h.fresh cell hcell
  · next hrerun =>
    have hruns : named.runsAgain d e = false := by simp [Named.runsAgain, hrerun]
    split
    · next hrecalculate =>
      have hcarries : named.carries d e = decide (e.2 = d) := by
        simp [Named.carries, hrerun, hrecalculate, Remains]
      refine ⟨?_, hwaiting.trans (by simp [hruns]), h.fresh⟩
      rw [List.countP_append, List.countP_singleton, hcarries, ← hothers]
      simp only [Carryover.others, length_pushBack, decide_eq_true_eq]
      omega
    · next hrecalculate =>
      split
      · next hunlapsed =>
        have hcarries : named.carries d e = decide (e.2 = d) := by
          simp [Named.carries, hrerun, hunlapsed, Remains]
        refine ⟨?_, hwaiting.trans (by simp [hruns]), h.fresh⟩
        rw [List.countP_append, List.countP_singleton, hcarries, ← hothers]
        simp only [Carryover.others, length_pushBack, decide_eq_true_eq]
        omega
      · next hlapsed =>
        have hcarries : named.carries d e = false := by
          simp [Named.carries, hrerun, hrecalculate, hlapsed, Remains]
        exact ⟨hothers.trans (by simp [hcarries]), hwaiting.trans (by simp [hruns]), h.fresh⟩

theorem stocked_fromManifest (named : Named previous) (d : String) :
    Stocked named (fromManifest previous named) previous.contentKeys.entries d := by
  have hfold : ∀ (rest entries : List (Sigma fun _ : JobId => String)) (carry : Carryover),
      Stocked named carry entries d →
      Stocked named (rest.foldl (fun carry e => carry.file named e.1 e.2) carry) (entries ++ rest) d := by
    intro rest
    induction rest with
    | nil => exact fun entries _ h => by simpa using h
    | cons e rest ih => exact fun entries carry h => by simpa using ih _ _ (h.file e)
  exact hfold _ [] _ ⟨rfl, rfl, fun _ hcell => nomatch hcell⟩

theorem left_takeAll (named : Named previous) (units : List CellUnit) (d : String) :
    ((fromManifest previous named).takeAll units).2.others d =
        named.carriedUnder d - unitsUnder units d ∧
      ((fromManifest previous named).takeAll units).2.waiting d =
        named.rerunUnder d - (unitsUnder units d - named.carriedUnder d) ∧
      ((fromManifest previous named).takeAll units).2.undrawn d =
        (decide (0 < named.rerunUnder d) && decide (unitsUnder units d ≤ named.carriedUnder d)) := by
  have hserved := served_takeAll (fromManifest previous named) units d
  have hstocked := stocked_fromManifest named d
  have hundrawn : (fromManifest previous named).undrawn d = decide (0 < named.rerunUnder d) := by
    have hwaiting := hstocked.waiting
    unfold Carryover.waiting at hwaiting
    rw [Named.rerunUnder, ← hwaiting, Carryover.undrawn]
    cases hlookup : (fromManifest previous named).rerun.lookup d with
    | none => simp
    | some cell =>
      obtain ⟨hdrawn, hjobs⟩ := hstocked.fresh cell hlookup
      simp [hdrawn, List.length_pos_iff.mpr hjobs]
  rw [hserved.others, hserved.waiting, hserved.undrawn, hundrawn, hstocked.others, hstocked.waiting]
  exact ⟨rfl, rfl, rfl⟩

theorem inBin_getD {t : FileTree String (List JobId)} {d : String} :
    InBin id t d j ↔ j ∈ (t.lookup d).getD [] := by
  cases hlookup : t.lookup d with
  | none => simp [InBin, hlookup]
  | some jobs => simp [InBin, hlookup]

theorem others_eq_zero_iff {d : String} : carry.others d = 0 ↔
    ∀ j, ¬ InBin id carry.pool d j ∧ ¬ InBin id carry.recalculate d j := by
  simp only [Carryover.others, inBin_getD, Nat.add_eq_zero_iff, List.length_eq_zero_iff,
    List.eq_nil_iff_forall_not_mem, forall_and]

theorem waiting_pos_iff {d : String} :
    0 < carry.waiting d ↔ ∃ j, InBin RerunCell.jobs carry.rerun d j := by
  unfold Carryover.waiting
  rw [List.length_pos_iff_exists_mem]
  cases hlookup : carry.rerun.lookup d with
  | none => simp [InBin, hlookup]
  | some cell => simp [InBin, hlookup]

theorem left_eq_zero (hothers : ∀ d, carry.others d = 0) (hdrawn : ∀ d, carry.undrawn d = false) :
    carry.left = 0 := by
  have hpool : items id carry.pool = [] := by
    refine List.eq_nil_iff_forall_not_mem.mpr fun j hj => ?_
    obtain ⟨d, hd⟩ := mem_items.mp hj
    exact (others_eq_zero_iff.mp (hothers d) j).1 hd
  have hrecalculate : items id carry.recalculate = [] := by
    refine List.eq_nil_iff_forall_not_mem.mpr fun j hj => ?_
    obtain ⟨d, hd⟩ := mem_items.mp hj
    exact (others_eq_zero_iff.mp (hothers d) j).2 hd
  have hcells : (carry.rerun.entries.filter fun e => !e.2.drawn) = [] := by
    refine List.filter_eq_nil_iff.mpr fun e he => ?_
    have hlookup : carry.rerun.lookup e.1 = some e.2 := AList.mem_lookup_iff.mpr he
    have hcell := hdrawn e.1
    rw [Carryover.undrawn, hlookup] at hcell
    simpa using hcell
  simp [Carryover.left, hpool, hrecalculate, hcells]

theorem requireNamedPlaced_iff (hnamed : (named.rerun ∪ named.recalculate).Nonempty) :
    ((fromManifest previous named).takeAll units).2.requireNamedPlaced = .ok () ↔
      ¬ named.Drifts units := by
  constructor
  · rintro h ⟨d, hshort⟩
    obtain ⟨hpool, hrecalculate, hdrawn⟩ := placed_of_accepted hnamed h
    obtain ⟨hothers, -, hundrawn⟩ := left_takeAll named units d
    have hzero : ((fromManifest previous named).takeAll units).2.others d = 0 := by
      refine others_eq_zero_iff.mpr fun j => ⟨fun hj => ?_, fun hj => ?_⟩
      · exact List.not_mem_nil (hpool ▸ mem_items.mpr ⟨d, hj⟩)
      · exact List.not_mem_nil (hrecalculate ▸ mem_items.mpr ⟨d, hj⟩)
    have hfalse : ((fromManifest previous named).takeAll units).2.undrawn d = false := by
      unfold undrawn
      cases hcell : ((fromManifest previous named).takeAll units).2.rerun.lookup d with
      | none => rfl
      | some cell => simp [hdrawn d cell hcell]
    rw [hothers] at hzero
    rw [hundrawn] at hfalse
    simp only [Bool.and_eq_false_iff, decide_eq_false_iff_not] at hfalse
    omega
  · intro hnot
    have hleft : ((fromManifest previous named).takeAll units).2.left = 0 := by
      refine left_eq_zero (fun d => ?_) fun d => ?_
      · obtain ⟨hothers, -, -⟩ := left_takeAll named units d
        rw [hothers]
        by_contra hne
        exact hnot ⟨d, by omega⟩
      · obtain ⟨-, -, hundrawn⟩ := left_takeAll named units d
        rw [hundrawn]
        by_contra hne
        simp only [Bool.not_eq_false, Bool.and_eq_true, decide_eq_true_eq] at hne
        exact hnot ⟨d, by omega⟩
    unfold requireNamedPlaced
    split
    · rfl
    · simp [hleft]

theorem reruns_placed_iff :
    (∀ j ∈ named.rerun, .rerun (some j) ∈ ((fromManifest previous named).takeAll units).1) ↔
      ∀ d, named.rerunUnder d ≤ unitsUnder units d - named.carriedUnder d := by
  have hperm := stock_takeAll (fromManifest previous named) units
  have hfiled : Filed previous named ((fromManifest previous named).takeAll units).2 :=
    (filed_fromManifest.takeAll).1
  constructor
  · intro hplaced d
    obtain ⟨-, hwaiting, -⟩ := left_takeAll named units d
    by_contra hshort
    obtain ⟨j, hj⟩ := waiting_pos_iff.mp (by rw [hwaiting]; omega)
    have hheld : j ∈ heldJobs ((fromManifest previous named).takeAll units).1 :=
      List.mem_filterMap.mpr ⟨_, hplaced j (hfiled.rerun d j hj).2, rfl⟩
    have hleft : j ∈ ((fromManifest previous named).takeAll units).2.stock :=
      List.mem_append_right _ (mem_items.mpr ⟨d, hj⟩)
    exact (List.nodup_append.mp (hperm.nodup_iff.mp nodup_stock)).2.2 j hheld j hleft rfl
  · intro hroom j hj
    obtain ⟨d, hkey⟩ := Option.isSome_iff_exists.mp
      (AList.lookup_isSome.mpr (named.held j (Finset.mem_union_left _ hj)))
    have hstock : j ∈ (fromManifest previous named).stock :=
      mem_stock_of_key hkey (by simp [Remains, hj])
    obtain hheld | hleft := List.mem_append.mp (hperm.mem_iff.mp hstock)
    · obtain ⟨slot, hslot, hslotj⟩ := List.mem_filterMap.mp hheld
      obtain ⟨unit, -, hunit⟩ := Result.forall₂_mem (filed_fromManifest.takeAll).2.flip slot hslot
      exact (hunit j hslotj).2 hj ▸ hslot
    · rw [stock, List.mem_append, List.mem_append, mem_items, mem_items, mem_items] at hleft
      obtain (⟨d', hd'⟩ | ⟨d', hd'⟩) | ⟨d', hd'⟩ := hleft
      · exact absurd hj (hfiled.pool d' j hd').2.1
      · exact absurd hj (hfiled.recalculate d' j hd').2
      · obtain ⟨-, hwaiting, -⟩ := left_takeAll named units d'
        have hpos := waiting_pos_iff.mpr ⟨j, hd'⟩
        have := hroom d'
        omega

end Carryover

theorem firstOffers_new {onOffer : JobId → Bool} {seen : List JobId} {jobs : List (PlanId × JobId)} :
    ((firstOffers onOffer seen jobs).map (·.2)).Nodup ∧
      ∀ x ∈ firstOffers onOffer seen jobs, x.2 ∉ seen := by
  induction jobs generalizing seen with
  | nil => exact ⟨.nil, fun _ h => nomatch h⟩
  | cons x rest ih =>
    obtain ⟨p, j⟩ := x
    rw [firstOffers]
    split
    · next hoffer =>
      obtain ⟨hnodup, hnew⟩ := @ih (j :: seen)
      have hj : j ∉ seen := by simpa using (Bool.and_eq_true_iff.mp hoffer).2
      refine ⟨List.nodup_cons.mpr ⟨fun hmem => ?_, hnodup⟩, fun x hx => ?_⟩
      · obtain ⟨x, hx, hxj⟩ := List.mem_map.mp hmem
        exact hnew x hx (hxj ▸ List.mem_cons_self)
      · obtain rfl | hx := List.mem_cons.mp hx
        · exact hj
        · exact fun hmem => hnew x hx (List.mem_cons_of_mem j hmem)
    · exact ih

theorem offered_sublist {jobSource : JobId → Except Fault (Option Json)}
    {jobs : List (PlanId × JobId)} {sources : List (Option Offered)}
    (h : jobs.mapM (fun (p, j) => do
      let source ← jobSource j
      pure (source.map fun body => (⟨p, j, body⟩ : Offered))) = .ok sources) :
    (sources.reduceOption.map (·.jobId)).Sublist (jobs.map (·.2)) := by
  have hzip := Result.forall₂_of_mapM h
  clear h
  induction hzip with
  | nil => exact .slnil
  | cons hx _ ih =>
    obtain ⟨body, -, hbody⟩ := Result.bind_eq_ok hx
    cases hbody
    cases body with
    | none => exact ih.cons _
    | some body => exact ih.cons_cons _

theorem offeredJobs_new {plans : FileTree PlanId (Except Fault RevisedPlan)}
    {jobSource : JobId → Except Fault (Option Json)} {previous : RevisedPlan} {offer : Offer}
    {offered : List Offered} (h : offeredJobs plans jobSource previous offer = .ok offered) :
    (offered.map (·.jobId)).Nodup ∧ ∀ o ∈ offered, o.jobId ∉ previous.jobIds := by
  unfold offeredJobs at h
  split at h
  · cases h
    exact ⟨.nil, fun _ h => nomatch h⟩
  obtain ⟨chain, -, h⟩ := Result.bind_eq_ok h
  obtain ⟨sources, hsources, h⟩ := Result.bind_eq_ok h
  cases h
  generalize hjobs : firstOffers _ previous.jobIds _ = jobs at hsources
  have hnew : (jobs.map (·.2)).Nodup ∧ ∀ x ∈ jobs, x.2 ∉ previous.jobIds := hjobs ▸ firstOffers_new
  have hsub := offered_sublist hsources
  refine ⟨hnew.1.sublist hsub, fun o ho => ?_⟩
  obtain ⟨x, hx, hxj⟩ := List.mem_map.mp (hsub.subset (List.mem_map.mpr ⟨o, ho, rfl⟩))
  exact hxj ▸ hnew.2 x hx

theorem claimSources_eq {sources : FileTree JobId Json} {jobs : List JobId} (h : jobs.Nodup) :
    claimSources sources jobs = jobs.filterMap fun j => (sources.lookup j).map fun b => (j, b) := by
  induction jobs generalizing sources with
  | nil => rfl
  | cons j rest ih =>
    obtain ⟨hj, hrest⟩ := List.nodup_cons.mp h
    rw [claimSources, List.filterMap_cons]
    cases hlookup : sources.lookup j with
    | none => exact ih hrest
    | some body =>
      simp only [Option.map_some, ih hrest]
      refine congrArg _ (List.filterMap_congr fun j' hj' => ?_)
      have hne : j' ≠ j := fun he => hj (he ▸ hj')
      rw [lookup_remove, if_neg hne]

theorem fst_claimSources {sources : FileTree JobId Json} {jobs : List JobId} (h : jobs.Nodup) :
    ((claimSources sources jobs).map (·.1)).Sublist jobs := by
  rw [claimSources_eq h]
  clear h
  induction jobs with
  | nil => exact .slnil
  | cons j rest ih =>
    rw [List.filterMap_cons]
    cases sources.lookup j with
    | none => exact ih.cons _
    | some body => exact ih.cons_cons _

theorem flatten_values (pool : FileTree String (List JobId)) :
    (pool.entries.map (·.2)).flatten = items id pool := by
  rw [items, List.flatMap_def]
  rfl

theorem visit_flatten (order : HashOrder) (pool : FileTree String (List JobId)) :
    ((order.visit (pool.entries.map (·.2))).flatten).Perm (items id pool) := by
  rw [← flatten_values]
  exact (order.perm _).flatten

abbrev candidateJobs (cells : FileTree String (List Candidate)) : List JobId :=
  items (fun candidates => candidates.map Candidate.jobId) cells

section Cells

variable {Text : Type} {toText : Json → Text} {sha256 : Text → String} {order order' : HashOrder}
  {pool : FileTree String (List JobId)} {sources : FileTree JobId Json} {offered : List Offered}

theorem candidateJobs_of (hpool : (items id pool).Nodup) :
    (candidateJobs (Unclaimed.of toText sha256 order pool sources offered).cells).Subperm
      (items id pool ++ offered.map (·.jobId)) := by
  have hfold : ∀ (candidates : List Candidate) (cells : FileTree String (List Candidate)),
      (candidateJobs (candidates.foldl (fun cells candidate =>
        cells.pushBack (cellDigest toText sha256 candidate.body) candidate) cells)).Perm
        (candidates.map Candidate.jobId ++ candidateJobs cells) := by
    intro candidates
    induction candidates with
    | nil => exact fun _ => .refl _
    | cons candidate rest ih =>
      intro cells
      refine (ih _).trans ?_
      have hpush : (candidateJobs (cells.pushBack (cellDigest toText sha256 candidate.body)
          candidate)).Perm ([candidate.jobId] ++ candidateJobs cells) := by
        refine items_file (t := cells) ?_
        cases cells.lookup (cellDigest toText sha256 candidate.body) <;> simp
      exact (hpush.append_left _).trans (List.perm_append_comm_assoc _ _ _)
  have hvisit := visit_flatten order pool
  have hnodup := hvisit.nodup_iff.mpr hpool
  refine (hfold _ ∅).subperm.trans ?_
  rw [List.map_append, List.map_map, List.map_map,
    show candidateJobs ∅ = [] from rfl, List.append_nil]
  refine (List.subperm_append_right _).mpr ?_
  have hsort := Assoc.sortByKey_perm
    (claimSources sources (order.visit (pool.entries.map (·.2))).flatten)
  exact (hsort.map (·.1)).subperm.trans ((fst_claimSources hnodup).subperm.trans hvisit.subperm)

theorem Unclaimed.of_order (hpool : (items id pool).Nodup) :
    Unclaimed.of toText sha256 order pool sources offered =
      Unclaimed.of toText sha256 order' pool sources offered := by
  have hvisit := visit_flatten order pool
  have hvisit' := visit_flatten order' pool
  have hnodup := hvisit.nodup_iff.mpr hpool
  have hnodup' := hvisit'.nodup_iff.mpr hpool
  have hperm : (claimSources sources (order.visit (pool.entries.map (·.2))).flatten).Perm
      (claimSources sources (order'.visit (pool.entries.map (·.2))).flatten) := by
    rw [claimSources_eq hnodup, claimSources_eq hnodup']
    exact (hvisit.trans hvisit'.symm).filterMap _
  have hdistinct : Assoc.Distinct
      (claimSources sources (order.visit (pool.entries.map (·.2))).flatten) :=
    hnodup.sublist (fst_claimSources hnodup)
  unfold Unclaimed.of
  rw [Assoc.sortByKey_eq_of_perm hdistinct hperm]

variable {units : List CellUnit} {bodyOf : CellUnit → Option Json} {inherited : List Inherited}
  {reads : CarryReads} {unclaimed : Unclaimed}

theorem answerUnit_subperm {runs : JobId → Option RecordedRun} {s : Answering} {w : Wanted} :
    (heldJobs (s.answerUnit runs w).inherited ++ candidateJobs (s.answerUnit runs w).cells).Subperm
      (heldJobs s.inherited ++ candidateJobs s.cells) := by
  unfold Answering.answerUnit
  split
  · exact .refl _
  · next candidates hcell =>
    split
    · dsimp only
      split <;> exact .refl _
    · next i _ =>
      split
      · exact .refl _
      · next taken htaken =>
        obtain ⟨hi, htaken⟩ := List.getElem?_eq_some_iff.mp htaken
        have hcandidates : (candidates.map Candidate.jobId).Perm
            ([taken.jobId] ++ (candidates.eraseIdx i).map Candidate.jobId) := by
          rw [← htaken]
          exact ((List.getElem_cons_eraseIdx_perm hi).map Candidate.jobId).symm
        have htake := items_take (f := fun cs : List Candidate => cs.map Candidate.jobId) hcell
          hcandidates
        refine ((List.subperm_append_right _).mpr heldJobs_set).trans ?_
        refine List.Perm.subperm ((List.Perm.trans ?_ (htake.symm.append_left _)))
        rw [List.append_assoc]
        exact List.perm_append_comm_assoc _ _ _

theorem answer_subperm {answers : Answers} {slots : List Inherited}
    (h : unclaimed.answer toText sha256 order units bodyOf inherited reads = .ok (answers, slots)) :
    (heldJobs slots).Subperm (heldJobs inherited ++ candidateJobs unclaimed.cells) := by
  obtain ⟨queued, -, h⟩ := Result.bind_eq_ok h
  obtain ⟨runs, -, h⟩ := Result.bind_eq_ok h
  cases h
  have hfold : ∀ (wanted : List Wanted) (s : Answering),
      (heldJobs (wanted.foldl (Answering.answerUnit runs) s).inherited ++
        candidateJobs (wanted.foldl (Answering.answerUnit runs) s).cells).Subperm
        (heldJobs s.inherited ++ candidateJobs s.cells) := by
    intro wanted
    induction wanted with
    | nil => exact fun _ => .refl _
    | cons w rest ih => exact fun s => (ih _).trans answerUnit_subperm
  exact (List.sublist_append_left _ _).subperm.trans (hfold _ _)

theorem answer_order (order order' : HashOrder) :
    unclaimed.answer toText sha256 order units bodyOf inherited reads =
      unclaimed.answer toText sha256 order' units bodyOf inherited reads := by
  unfold Unclaimed.answer
  refine bind_congr fun queued => ?_
  extract_lets wanted jobIds jobIds'
  have hsame : jobIds.toFinset = jobIds'.toFinset := by
    refine List.toFinset_eq_of_perm _ _ (List.Perm.flatMap_right _ ?_)
    exact (order.perm _).trans (order'.perm _).symm
  rw [hsame]

structure Satisfying.Fresh (s : Satisfying) : Prop where
  nodup : (heldJobs s.inherited).Nodup
  noted : ∀ j ∈ heldJobs s.inherited, j ∈ s.held

theorem Satisfying.Fresh.satisfyUnit {recorded : JobId → Option SettledOutcome}
    {results : List CellResult} {s : Satisfying} {e : Eligible} (h : s.Fresh) :
    (s.satisfyUnit recorded results e).Fresh := by
  unfold Satisfying.satisfyUnit
  extract_lets carried
  split
  · exact h
  split
  · exact h
  · next run hrun =>
    have hfree : run.jobId ∉ s.held := by
      have := List.find?_some hrun
      simpa using (Bool.and_eq_true_iff.mp this).1
    have hset : (heldJobs (s.inherited.set e.index (.satisfied run.jobId))).Subperm
        (run.jobId :: heldJobs s.inherited) := heldJobs_set
    refine ⟨nodup_of_subperm hset (List.nodup_cons.mpr ⟨fun hmem => ?_, h.nodup⟩), fun j hj => ?_⟩
    · exact hfree (h.noted _ hmem)
    · obtain rfl | hj := List.mem_cons.mp (hset.subset hj)
      · exact Finset.mem_insert_self _ _
      · exact Finset.mem_insert_of_mem (h.noted j hj)

theorem satisfyFromEarlierRuns_nodup {satisfied : List Satisfaction} {slots : List Inherited}
    (hheld : (heldJobs inherited).Nodup)
    (h : satisfyFromEarlierRuns toText sha256 units bodyOf inherited reads =
      .ok (satisfied, slots)) : (heldJobs slots).Nodup := by
  unfold satisfyFromEarlierRuns at h
  extract_lets eligible at h
  split at h
  · cases h
    exact hheld
  obtain ⟨results, -, h⟩ := Result.bind_eq_ok h
  obtain ⟨recorded, -, h⟩ := Result.bind_eq_ok h
  cases h
  have hfold : ∀ (eligible : List Eligible) (s : Satisfying), s.Fresh →
      (eligible.foldl (Satisfying.satisfyUnit recorded results) s).Fresh := by
    intro eligible
    induction eligible with
    | nil => exact fun _ h => h
    | cons e rest ih => exact fun s h => ih _ h.satisfyUnit
  exact (hfold eligible _ ⟨hheld, fun j hj => List.mem_toFinset.mpr hj⟩).nodup

section Revision

variable {previous : RevisedPlan} {named : Named previous}

theorem takeAll_ofRevision :
    (Carryover.ofRevision previous named sources offered).takeAll units =
      (((Carryover.fromManifest previous named).takeAll units).1,
        (((Carryover.fromManifest previous named).takeAll units).2.withSources sources).withOffered
          offered) := by
  have htake : ∀ (carry : Carryover) (digest : String),
      ((carry.withSources sources).withOffered offered).take digest = ((carry.take digest).1,
        ((carry.take digest).2.withSources sources).withOffered offered) := by
    intro carry digest
    simp only [Carryover.take, Carryover.withSources, Carryover.withOffered]
    cases carry.pool.popFront digest with
    | some taken => rfl
    | none =>
      cases carry.recalculate.popFront digest with
      | some taken => rfl
      | none => cases carry.rerun.lookup digest <;> rfl
  unfold Carryover.ofRevision
  generalize Carryover.fromManifest previous named = carry
  induction units generalizing carry with
  | nil => rfl
  | cons unit rest ih => simp only [Carryover.takeAll, htake, ih]

theorem draw_eq_ok {draw : Draw}
    (h : (Carryover.ofRevision previous named sources offered).draw toText sha256 order units =
      .ok draw) :
    ((Carryover.fromManifest previous named).takeAll units).2.requireNamedPlaced = .ok () ∧
      draw.inherited = ((Carryover.fromManifest previous named).takeAll units).1 ∧
      draw.unclaimed = .of toText sha256 order
        ((Carryover.fromManifest previous named).takeAll units).2.pool sources offered := by
  unfold Carryover.draw at h
  rw [takeAll_ofRevision] at h
  dsimp only at h
  split at h
  · next hplaced =>
    cases h
    exact ⟨hplaced, rfl, rfl⟩
  · cases h

theorem draw_of_accepted (toText : Json → Text) (sha256 : Text → String) (order : HashOrder)
    (sources : FileTree JobId Json) (offered : List Offered)
    (h : ((Carryover.fromManifest previous named).takeAll units).2.requireNamedPlaced = .ok ()) :
    (Carryover.ofRevision previous named sources offered).draw toText sha256 order units =
      .ok ⟨((Carryover.fromManifest previous named).takeAll units).1,
        ((Carryover.fromManifest previous named).takeAll units).2.rerunOf,
        .of toText sha256 order ((Carryover.fromManifest previous named).takeAll units).2.pool
          sources offered⟩ := by
  have hcheck : ((((Carryover.fromManifest previous named).takeAll units).2.withSources
      sources).withOffered offered).requireNamedPlaced = .ok () := h
  unfold Carryover.draw
  rw [takeAll_ofRevision]
  dsimp only
  rw [hcheck]
  rfl

theorem held_pool_nodup (named : Named previous) (units : List CellUnit) :
    (heldJobs ((Carryover.fromManifest previous named).takeAll units).1 ++
    items id ((Carryover.fromManifest previous named).takeAll units).2.pool).Nodup := by
  have hperm := Carryover.stock_takeAll (.fromManifest previous named) units
  refine (hperm.nodup_iff.mp Carryover.nodup_stock).sublist (List.Sublist.append_left ?_ _)
  unfold Carryover.stock
  rw [List.append_assoc]
  exact List.sublist_append_left _ _

theorem mem_jobIds_of_held {j : JobId}
    (h : j ∈ heldJobs ((Carryover.fromManifest previous named).takeAll units).1 ++
      items id ((Carryover.fromManifest previous named).takeAll units).2.pool) :
    j ∈ previous.jobIds := by
  have hperm := Carryover.stock_takeAll (.fromManifest previous named) units
  have hstock : j ∈ (Carryover.fromManifest previous named).stock := by
    refine hperm.mem_iff.mpr ?_
    obtain h | h := List.mem_append.mp h
    · exact List.mem_append_left _ h
    · exact List.mem_append_right _ (List.mem_append_left _ (List.mem_append_left _ h))
  have hkey := (List.mem_filter.mp (Carryover.stock_fromManifest.mem_iff.mp hstock)).1
  exact previous.listed j (AList.mem_keys.mpr hkey)

theorem held_candidates_nodup {draw : Draw} (hnew : (offered.map (·.jobId)).Nodup)
    (hother : ∀ o ∈ offered, o.jobId ∉ previous.jobIds)
    (h : (Carryover.ofRevision previous named sources offered).draw toText sha256 order units =
      .ok draw) : (heldJobs draw.inherited ++ candidateJobs draw.unclaimed.cells).Nodup := by
  obtain ⟨-, hinherited, hunclaimed⟩ := draw_eq_ok h
  have hheld := held_pool_nodup named units
  have hpool : (items id ((Carryover.fromManifest previous named).takeAll units).2.pool).Nodup :=
    hheld.sublist (List.sublist_append_right _ _)
  rw [hinherited, hunclaimed]
  refine nodup_of_subperm ((List.subperm_append_left _).mpr (candidateJobs_of hpool)) ?_
  rw [← List.append_assoc]
  refine List.nodup_append.mpr ⟨hheld, hnew, fun j hj j' hj' he => ?_⟩
  obtain ⟨o, ho, rfl⟩ := List.mem_map.mp hj'
  exact hother o ho (he ▸ mem_jobIds_of_held hj)

theorem draw_order (order order' : HashOrder) :
    (Carryover.ofRevision previous named sources offered).draw toText sha256 order units =
      (Carryover.ofRevision previous named sources offered).draw toText sha256 order' units := by
  have hpool : (items id ((Carryover.fromManifest previous named).takeAll units).2.pool).Nodup :=
    (held_pool_nodup named units).sublist (List.sublist_append_right _ _)
  unfold Carryover.draw
  rw [takeAll_ofRevision]
  dsimp only
  split
  · exact congrArg _ (congrArg _ (Unclaimed.of_order hpool))
  · rfl

/-- Each named re-run is placed by every draw that is accepted, exactly when the new plan has a unit
for every job of each cell, or so few units of one that no draw is accepted. -/
theorem reruns_placed_of_accepted_iff :
    (∀ order draw, (Carryover.ofRevision previous named sources offered).draw toText sha256 order
        units = .ok draw → ∀ j ∈ named.rerun, .rerun (some j) ∈ draw.inherited) ↔
      named.Covered units ∨ named.Drifts units := by
  constructor
  · intro hplaced
    refine or_iff_not_imp_right.mpr fun hnot d => ?_
    have hroom : named.carriedUnder d + min 1 (named.rerunUnder d) ≤ unitsUnder units d :=
      not_lt.mp fun hlt => hnot ⟨d, hlt⟩
    obtain hnone | ⟨j, hj⟩ := named.rerun.eq_empty_or_nonempty
    · have hzero : named.rerunUnder d = 0 := by simp [Named.rerunUnder, Named.runsAgain, hnone]
      omega
    · have hnamed : (named.rerun ∪ named.recalculate).Nonempty := ⟨j, Finset.mem_union_left _ hj⟩
      have hdraw := draw_of_accepted toText sha256 filledOrder sources offered
        ((Carryover.requireNamedPlaced_iff hnamed).mpr hnot)
      have hall := Carryover.reruns_placed_iff.mp (hplaced filledOrder _ hdraw) d
      omega
  · intro hcells order draw hdraw j hj
    obtain ⟨haccepted, hinherited, -⟩ := draw_eq_ok hdraw
    have hnamed : (named.rerun ∪ named.recalculate).Nonempty := ⟨j, Finset.mem_union_left _ hj⟩
    have hcovered := hcells.resolve_right ((Carryover.requireNamedPlaced_iff hnamed).mp haccepted)
    rw [hinherited]
    refine Carryover.reruns_placed_iff.mpr (fun d => ?_) j hj
    have := hcovered d
    omega

end Revision

theorem Revision.offered_new {revision : Revision}
    {plans : FileTree PlanId (Except Fault RevisedPlan)}
    {jobSource : JobId → Except Fault (Option Json)} {membership : CampaignMembership}
    (h : revision.membership toText sha256 plans jobSource = .ok membership) :
    (membership.offered.map (·.jobId)).Nodup ∧
      ∀ o ∈ membership.offered, o.jobId ∉ membership.previous.jobIds := by
  obtain ⟨read, -, h⟩ := Result.bind_eq_ok h
  obtain ⟨offered, hoffered, h⟩ := Result.bind_eq_ok h
  cases h
  exact offeredJobs_new hoffered

variable (toText sha256 reads units bodyOf)

/-- For every manifest, every set of named jobs with a digest, every jobs on offer and every answer
of the store: what the units are given does not depend on the order of a hash map, no job is held by
two units, a drawn job has its unit's digest, and a draw with named jobs that is accepted draws every
unlapsed job that no re-run names once. Each named re-run is placed exactly when every digest has as
many units as it has jobs to place, or some digest has too few for any draw to be accepted. -/
theorem carry_assigns_once (revision : Revision)
    (plans : FileTree PlanId (Except Fault RevisedPlan))
    (jobSource : JobId → Except Fault (Option Json)) {membership : CampaignMembership}
    (hmembership : revision.membership toText sha256 plans jobSource = .ok membership) :
    (∀ order order', membership.carry.carry toText sha256 order reads units bodyOf =
      membership.carry.carry toText sha256 order' reads units bodyOf) ∧
    (∀ order outcome, membership.carry.carry toText sha256 order reads units bodyOf = .ok outcome →
      (heldJobs outcome.inherited).Nodup) ∧
    (∀ order draw, membership.carry.draw toText sha256 order units = .ok draw →
      List.Forall₂ (fun unit slot => ∀ j ∈ Inherited.held slot,
        membership.previous.contentKeys.lookup j = some (CellUnit.digest unit)) units
        draw.inherited ∧
      ((membership.named.rerun ∪ membership.named.recalculate).Nonempty →
        ∀ j digest, membership.previous.contentKeys.lookup j = some digest →
          membership.previous.expiredJobs.lookup j = none → j ∉ membership.named.rerun →
          (heldJobs draw.inherited).count j = 1)) ∧
    ((∀ order draw, membership.carry.draw toText sha256 order units = .ok draw →
        ∀ j ∈ membership.named.rerun, .rerun (some j) ∈ draw.inherited) ↔
      membership.named.Covered units ∨ membership.named.Drifts units) := by
  obtain ⟨hnew, hother⟩ := Revision.offered_new hmembership
  refine ⟨fun order order' => ?_, fun order outcome h => ?_, fun order draw h => ?_,
    reruns_placed_of_accepted_iff⟩
  · unfold Carryover.carry CampaignMembership.carry
    rw [draw_order order order']
    exact bind_congr fun draw => by rw [answer_order order order']
  · obtain ⟨draw, hdraw, h⟩ := Result.bind_eq_ok h
    obtain ⟨⟨answers, slots⟩, hanswer, h⟩ := Result.bind_eq_ok h
    obtain ⟨⟨satisfied, slots'⟩, hsatisfy, h⟩ := Result.bind_eq_ok h
    cases h
    refine satisfyFromEarlierRuns_nodup ?_ hsatisfy
    exact nodup_of_subperm (answer_subperm hanswer) (held_candidates_nodup hnew hother hdraw)
  · obtain ⟨hplaced, hinherited, -⟩ := draw_eq_ok h
    rw [hinherited]
    refine ⟨(Carryover.filed_fromManifest.takeAll).2.imp fun _ _ h j hj => (h j hj).1, ?_⟩
    exact fun hnamed j digest hkey hunlapsed hj =>
      Carryover.drawn_once hnamed hplaced hkey hunlapsed hj

end Cells

def headOf (a b : String) : RevisedPlan where
  planId := ⟨"p2"⟩
  previousPlanId := some ⟨"p1"⟩
  jobIds := [⟨"a"⟩, ⟨"b"⟩]
  contentKeys := ⟨[⟨⟨"a"⟩, a⟩, ⟨⟨"b"⟩, b⟩], by simp [List.NodupKeys]⟩
  rerunOf := ∅
  expiredJobs := ∅
  listed := fun j hj => by simpa [AList.mem_keys, AList.keys, List.keys] using hj

def rerunBoth (a b : String) : Named (headOf a b) where
  rerun := {⟨"a"⟩, ⟨"b"⟩}
  recalculate := ∅
  held := fun j hj => by
    simpa [headOf, AList.mem_keys, AList.keys, List.keys] using hj

def cellUnit (candidate digest : String) : CellUnit := ⟨0, .never, ⟨candidate⟩, digest⟩

def noRuns : CarryReads :=
  ⟨fun _ => .ok fun _ => none, fun _ => .ok fun _ => none, fun _ => .ok [],
    fun _ => .ok fun _ => none⟩

def twinBody : Json := .obj [("merge_duplicates", .bool false), ("spec", .str "decode")]

def twinDigest : String := contentDigest (writeValue plainLeaf) id twinBody

/-- The first twin was recorded under the former digest. -/
def recordedTwins : Revision where
  previous := headOf (legacyContentDigest (writeValue plainLeaf) id twinBody) twinDigest
  named := rerunBoth _ _
  offer := ⟨false, [], []⟩
  headBodies := none

def twinSource : JobId → Except Fault (Option Json) := fun _ => .ok (some twinBody)

theorem recordedTwins_membership : ∃ membership,
    recordedTwins.membership (writeValue plainLeaf) id ∅ twinSource = .ok membership ∧
    membership.previous.contentKeys.entries = [⟨⟨"a"⟩, twinDigest⟩, ⟨⟨"b"⟩, twinDigest⟩] ∧
    membership.named.rerun = {⟨"a"⟩, ⟨"b"⟩} ∧
    (membership.carry.carry (writeValue plainLeaf) id filledOrder noRuns
      [cellUnit "x" twinDigest, cellUnit "y" twinDigest] fun _ => some twinBody).isOk = true := by
  refine ⟨_, rfl, ?_, rfl, ?_⟩
  · decide +kernel
  · decide +kernel

theorem carry_assigns_once_twins : ∃ membership outcome draw,
    recordedTwins.membership (writeValue plainLeaf) id ∅ twinSource = .ok membership ∧
    membership.carry.carry (writeValue plainLeaf) id filledOrder noRuns
      [cellUnit "x" twinDigest, cellUnit "y" twinDigest] (fun _ => some twinBody) = .ok outcome ∧
    (heldJobs outcome.inherited).Nodup ∧
    membership.carry.draw (writeValue plainLeaf) id filledOrder
      [cellUnit "x" twinDigest, cellUnit "y" twinDigest] = .ok draw ∧
    .rerun (some ⟨"a"⟩) ∈ draw.inherited ∧ .rerun (some ⟨"b"⟩) ∈ draw.inherited := by
  obtain ⟨membership, hmembership, hkeys, hrerun, hok⟩ := recordedTwins_membership
  obtain ⟨-, hheld, -, hplaced⟩ := carry_assigns_once (writeValue plainLeaf) id
    [cellUnit "x" twinDigest, cellUnit "y" twinDigest] (fun _ => some twinBody) noRuns recordedTwins
    ∅ twinSource hmembership
  have hcovered : membership.named.Covered [cellUnit "x" twinDigest, cellUnit "y" twinDigest] := by
    intro d
    by_cases hd : twinDigest = d <;>
      simp [Named.carriedUnder, Named.rerunUnder, Named.carries, Named.runsAgain, unitsUnder,
        cellUnit, hkeys, hrerun, hd]
  obtain ⟨outcome, houtcome⟩ : ∃ outcome, membership.carry.carry (writeValue plainLeaf) id
      filledOrder noRuns [cellUnit "x" twinDigest, cellUnit "y" twinDigest]
      (fun _ => some twinBody) = .ok outcome := Result.exists_of_isOk hok
  obtain ⟨draw, hdraw, -⟩ := Result.bind_eq_ok houtcome
  have hall := hplaced.mpr (.inl hcovered) filledOrder draw hdraw
  exact ⟨membership, outcome, draw, hmembership, houtcome, hheld filledOrder outcome houtcome, hdraw,
    hall _ (by simp [hrerun]), hall _ (by simp [hrerun])⟩

/-- Two jobs of one digest are both to run again, and the plan has one unit of the digest: it is
accepted, and the second job is not placed. -/
theorem second_twin_not_placed : ∃ membership draw,
    recordedTwins.membership (writeValue plainLeaf) id ∅ twinSource = .ok membership ∧
    membership.carry.draw (writeValue plainLeaf) id filledOrder [cellUnit "x" twinDigest] =
      .ok draw ∧
    ⟨"b"⟩ ∈ membership.named.rerun ∧ draw.inherited = [.rerun (some ⟨"a"⟩)] := by
  refine ⟨_, _, rfl, draw_of_accepted _ _ _ _ _ (by decide +kernel), by decide, ?_⟩
  decide +kernel

end Pipette
