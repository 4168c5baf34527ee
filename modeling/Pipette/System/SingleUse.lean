import Mathlib.Data.Fintype.Basic
import Pipette.Store.Preauth

/-! Registrations that present one single-use pre-auth key, beside revokes and prunes. -/
namespace Pipette

open Prog

inductive PreauthParty
  | consume (k : ClientPreauthKeyId) (secret : ClientPreauthSecret) (now : Instant)
  | prune (now : Instant) (dryRun : Bool) (expiredTurns orphanedTurns : List (List Bool))
  | revoke (k : ClientPreauthKeyId)

namespace PreauthParty

def prog : PreauthParty → PreauthOp (Option ClientPreauthConsumeOutcome)
  | consume k secret now => do pure (some (← consumeClientPreauthKey k secret now))
  | prune now dryRun expiredTurns orphanedTurns => do
    prunePreauthKeys now dryRun expiredTurns orphanedTurns
    pure none
  | revoke k => do
    revokePreauthKey k
    pure none

def consumes (k : ClientPreauthKeyId) : PreauthParty → Bool
  | consume k' _ _ => k' = k
  | prune .. | revoke _ => false

end PreauthParty

def IsGranted (p : PreauthOp (Option ClientPreauthConsumeOutcome)) : Prop :=
  ∃ grant, p = .ret (some (.granted grant))

section

variable {ι : Type}

abbrev PreauthPool (ι : Type) : Type :=
  Pool Preauths PreauthState ι fun _ => Option ClientPreauthConsumeOutcome

def preauthPool (party : ι → PreauthParty) (w : PreauthState) : PreauthPool ι :=
  ⟨w, fun i => (party i).prog⟩

def PreauthCall.claims (k : ClientPreauthKeyId) : PreauthCall → Bool
  | claimSpent k' _ => k' = k
  | load _ | listRecords | deleteRecord _ | listSpent | deleteSpent _ => false

/-- No marker of the key goes while a consume stands between its read of the record and its claim
of the marker. -/
def SparesClaims (k : ClientPreauthKeyId) (t : PreauthPool ι) (_ : ι) (c : PreauthCall) : Prop :=
  c = .deleteSpent k → ∀ j, ∀ next ∈ t.next j, next.claims k = false

instance [Fintype ι] (k : ClientPreauthKeyId) (t : PreauthPool ι) (i : ι) (c : PreauthCall) :
    Decidable (SparesClaims k t i c) :=
  inferInstanceAs (Decidable (c = .deleteSpent k → ∀ j, ∀ next ∈ t.next j, next.claims k = false))

end

section Prune

variable {k : ClientPreauthKeyId}

def KeysShrink (w w' : PreauthState) : Prop :=
  ∀ k key, w'.records.lookup k = some key → w.records.lookup k = some key

instance : Std.Refl KeysShrink := ⟨fun _ _ _ h => h⟩

instance : IsTrans PreauthState KeysShrink := ⟨fun _ _ _ h h' k key hk => h k key (h' k key hk)⟩

theorem KeysShrink.absent {w w' : PreauthState} (h : KeysShrink w w')
    (habsent : w.records.lookup k = none) : w'.records.lookup k = none := by
  cases hk : w'.records.lookup k with
  | none => rfl
  | some key =>
    rw [h k key hk] at habsent
    cases habsent

theorem keysShrink_machine (c : PreauthCall) (w : PreauthState) : KeysShrink w (preauthMachine c w).2 := by
  intro k key h
  cases c with
  | deleteRecord k' =>
    simp only [preauthMachine, PreauthState.deleteRecord, FileTree.lookup_remove] at h
    split at h
    · cases h
    · exact h
  | claimSpent k' now =>
    simp only [preauthMachine] at h
    split at h <;> exact h
  | load | listRecords | listSpent | deleteSpent => exact h

theorem keysShrink_faulty {c : PreauthCall} {w w' : PreauthState}
    {r : Except PreauthFault (PreauthCall.Answer c)} (h : preauthMachine.faulty c w r w') :
    KeysShrink w w' := by
  obtain ⟨-, rfl⟩ | ⟨-, -, rfl | rfl⟩ := h
  · exact keysShrink_machine c w
  · exact refl_of KeysShrink w'
  · exact keysShrink_machine c w

/-- A call of a party that does not consume the key: it takes the marker only once no record is
left. -/
def Bystanding (k : ClientPreauthKeyId) (c : PreauthCall) (w : PreauthState) : Prop :=
  (∀ now, c ≠ .claimSpent k now) ∧ (c = .deleteSpent k → w.records.lookup k = none)

abbrev StandsBy (k : ClientPreauthKeyId) {α : Type} (p : PreauthOp α)
    (Q : Except PreauthFault α → PreauthState → Prop) (w : PreauthState) : Prop :=
  p.Sat preauthMachine.faulty KeysShrink (Bystanding k) Q w

theorem keysShrink_of_bystanding (c : PreauthCall) (w : PreauthState)
    (r : Except PreauthFault (PreauthCall.Answer c)) (w' : PreauthState) (_ : Bystanding k c w)
    (h : preauthMachine.faulty c w r w') : KeysShrink w w' :=
  keysShrink_faulty h

theorem standsBy_of_absent {α : Type} {p : PreauthOp α} {w : PreauthState}
    (hp : p.Calls fun c : PreauthCall => ∀ now, c ≠ .claimSpent k now)
    (h : w.records.lookup k = none) : StandsBy k p (fun _ w => w.records.lookup k = none) w := by
  refine Sat.invariant (J := fun w : PreauthState => w.records.lookup k = none)
    (fun _ _ h hR => KeysShrink.absent hR h) (fun c v hc hv => ?_) hp h
  exact ⟨⟨hc, fun _ => hv⟩, fun _ _ hout => (keysShrink_faulty hout).absent hv⟩

theorem loadListed_calls (names : List ClientPreauthKeyId) :
    (loadListed names).Calls fun c : PreauthCall => ∀ now, c ≠ .claimSpent k now := by
  induction names with
  | nil => trivial
  | cons id rest ih =>
    refine .bind (.store fun _ => nofun) fun answer => ?_
    cases answer with
    | none => trivial
    | some key => exact .bind ih fun keys => .ret _

theorem loadListed_standsBy (names : List ClientPreauthKeyId) (w : PreauthState) :
    StandsBy k (loadListed names)
      (fun r _ => ∀ keys, r = .ok keys → ∀ id ∈ names, ∃ key ∈ keys, key.keyId = id) w := by
  induction names generalizing w with
  | nil => exact fun _ _ _ _ _ hid => nomatch hid
  | cons id rest ih =>
    refine .store_bind fun w' _ => ⟨⟨nofun, nofun⟩, fun answer v hout => ?_, nofun⟩
    cases answer with
    | none => exact fun _ _ _ h => nomatch h
    | some key =>
      have hname : key.keyId = id := by
        obtain ⟨hanswer, -⟩ | ⟨_, herror, -⟩ := hout
        · exact w'.named id key (Except.ok.inj hanswer).symm
        · cases herror
      refine (ih v).bind (fun keys v hkeys v' _ all hall id' hid => ?_) fun _ _ _ _ _ _ h => nomatch h
      cases hall
      obtain rfl | hid := List.mem_cons.mp hid
      · exact ⟨key, List.mem_cons_self, hname⟩
      · obtain ⟨key', hkey, hname⟩ := hkeys keys rfl id' hid
        exact ⟨key', List.mem_cons_of_mem _ hkey, hname⟩

theorem listClientPreauthKeys_standsBy (w : PreauthState) :
    StandsBy k listClientPreauthKeys
      (fun r w => ∀ keys, r = .ok keys →
        w.records.lookup k = none ∨ ∃ key ∈ keys, key.keyId = k) w := by
  refine .store_bind fun w' _ => ⟨⟨nofun, nofun⟩, fun names v hout => ?_, fun _ _ _ _ _ => nofun⟩
  obtain ⟨hanswer, hv⟩ | ⟨_, herror, -⟩ := hout
  · have hnames : names = w'.records.keys := Except.ok.inj hanswer
    by_cases hk : k ∈ names
    · exact (loadListed_standsBy _ _).mono (fun _ _ h => h) fun r _ h keys hr => .inr (h keys hr k hk)
    · have habsent : v.records.lookup k = none := by
        rw [hv]
        exact AList.lookup_eq_none.mpr fun h => hk (hnames ▸ AList.mem_keys.mpr h)
      exact (standsBy_of_absent (loadListed_calls names) habsent).mono (fun _ _ h => h)
        fun _ _ h _ _ => .inl h
  · cases herror

theorem expired_of_orphaned {keys : List (ClientPreauthKeyId × Bool)}
    {markers : List ClientPreauthKeyId} {b : Bool} (h : k ∈ (pruneTargets keys markers).orphaned)
    (hkey : (k, b) ∈ keys) : k ∈ (pruneTargets keys markers).expired := by
  have hheld := of_decide_eq_true (List.mem_filter.mp h).2
  simp only [List.mem_map, List.mem_filter, not_exists] at hheld
  refine List.mem_map.mpr ⟨(k, b), List.mem_filter.mpr ⟨hkey, ?_⟩, rfl⟩
  cases b with
  | true => rfl
  | false => exact absurd ⟨⟨hkey, rfl⟩, rfl⟩ (hheld (k, false))

theorem deleteRecord_standsBy (id : ClientPreauthKeyId) (w : PreauthState) :
    StandsBy k (PreauthOp.deleteRecord id)
      (fun r w => (∀ a, r = .ok a → w.records.lookup id = none) ∧ ∀ e, r = .error e → True) w := by
  refine .store_any fun w' _ => ⟨⟨nofun, nofun⟩, fun r v hout v' hv => ⟨fun a ha => ?_, by simp⟩⟩
  obtain ⟨-, rfl⟩ | ⟨_, rfl, -⟩ := hout
  · exact KeysShrink.absent hv (by simp [preauthMachine, PreauthState.deleteRecord])
  · cases ha

theorem deleteSpent_calls (turns : List (List Bool)) (ids : List ClientPreauthKeyId) :
    (parAll turns (ids.map PreauthOp.deleteSpent)).Calls
      fun c : PreauthCall => ∀ now, c ≠ .claimSpent k now := by
  refine .parAll turns fun p hp => ?_
  obtain ⟨id, -, rfl⟩ := List.mem_map.mp hp
  exact .store fun _ => nofun

theorem deletePruned_standsBy {expiredTurns orphanedTurns : List (List Bool)}
    {targets : PruneTargets} {w : PreauthState}
    (h : k ∈ targets.orphaned → k ∈ targets.expired ∨ w.records.lookup k = none) :
    StandsBy k (deletePruned expiredTurns orphanedTurns targets) (fun _ _ => True) w := by
  have hrecords : StandsBy k (parAll expiredTurns (targets.expired.map PreauthOp.deleteRecord))
      (fun r w => ∀ as, r = .ok as → ∀ id ∈ targets.expired, w.records.lookup id = none) w := by
    refine ((Sat.parAll (fun _ _ _ h hR => hR.absent h) ?_
      (fun id _ => deleteRecord_standsBy (k := k) id w) expiredTurns).mono ?_ ?_).rely ?_
    · exact List.pairwise_of_forall fun _ _ => ⟨keysShrink_of_bystanding, keysShrink_of_bystanding⟩
    · exact fun c w ⟨_, _, hG⟩ => hG
    · exact fun r w hr => hr.1
    · exact fun w w' hw _ _ => hw
  by_cases hk : k ∈ targets.orphaned
  · obtain hexpired | habsent := h hk
    · refine hrecords.bind (fun as v hgone => ?_) fun _ _ _ _ _ => trivial
      have hrest := standsBy_of_absent (deleteSpent_calls orphanedTurns targets.orphaned)
        (hgone as rfl k hexpired)
      exact hrest.bind (fun _ _ _ _ _ => trivial) fun _ _ _ _ _ => trivial
    · refine (standsBy_of_absent ?_ habsent).mono (fun _ _ h => h) fun _ _ _ => trivial
      refine .bind (.parAll _ fun p hp => ?_) fun _ =>
        .bind (deleteSpent_calls orphanedTurns targets.orphaned) fun _ => .ret _
      obtain ⟨id, -, rfl⟩ := List.mem_map.mp hp
      exact .store fun _ => nofun
  · refine hrecords.bind (fun _ _ _ => Sat.of_calls ?_) fun _ _ _ _ _ => trivial
    refine .bind (.parAll _ fun p hp => ?_) fun _ => .ret _
    obtain ⟨id, hid, rfl⟩ := List.mem_map.mp hp
    refine .store fun w => ⟨nofun, fun hid' => ?_⟩
    cases hid'
    exact absurd hid hk

theorem prunePreauthKeys_standsBy {now : Instant} {dryRun : Bool}
    {expiredTurns orphanedTurns : List (List Bool)} (w : PreauthState) :
    StandsBy k (prunePreauthKeys now dryRun expiredTurns orphanedTurns) (fun _ _ => True) w := by
  refine (listClientPreauthKeys_standsBy w).bind (fun keys v hkeys => ?_) fun _ _ _ _ _ => trivial
  refine .store_bind fun v' hv => ⟨⟨nofun, nofun⟩, fun markers u hout => ?_, fun _ _ _ _ _ => trivial⟩
  cases dryRun with
  | true => exact fun _ _ => trivial
  | false =>
    refine deletePruned_standsBy fun horphaned => ?_
    obtain habsent | ⟨key, hkey, rfl⟩ := hkeys keys rfl
    · exact .inr ((keysShrink_faulty hout).absent (hv.absent habsent))
    · exact .inl (expired_of_orphaned horphaned (List.mem_map.mpr ⟨key, hkey, rfl⟩))

theorem consumeClientPreauthKey_calls {k : ClientPreauthKeyId} {secret : ClientPreauthSecret}
    {now : Instant} : (consumeClientPreauthKey k secret now).Calls fun c : PreauthCall =>
      c = .load k ∨ c = .claimSpent k now ∨ c = .deleteRecord k := by
  refine .bind (.store (.inl rfl)) fun answer => ?_
  cases answer with
  | none => trivial
  | some key =>
    simp only [consumeRecord]
    split
    · trivial
    · split
      · refine .bind (.store (.inr (.inl rfl))) fun spend => ?_
        cases spend with
        | alreadySpent => trivial
        | claimed => exact .bind (.store (.inr (.inr rfl))) fun _ => .ret _
      · trivial

theorem PreauthParty.prog_standsBy {party : PreauthParty} (h : party.consumes k = false)
    (w : PreauthState) : StandsBy k party.prog (fun _ _ => True) w := by
  cases party with
  | consume k' secret now =>
    have hk : k' ≠ k := of_decide_eq_false h
    refine .of_calls (.bind (consumeClientPreauthKey_calls.mono ?_) fun _ => .ret _)
    rintro c (rfl | rfl | rfl) w
    · exact ⟨nofun, nofun⟩
    · refine ⟨fun _ heq => ?_, nofun⟩
      cases heq
      exact hk rfl
    · exact ⟨nofun, nofun⟩
  | prune now dryRun expiredTurns orphanedTurns =>
    exact (prunePreauthKeys_standsBy w).bind (fun _ _ _ _ _ => trivial) fun _ _ _ _ _ => trivial
  | revoke k' =>
    have hcalls : (revokePreauthKey k').Calls fun c : PreauthCall => ∀ w, Bystanding k c w :=
      .store fun _ => ⟨nofun, nofun⟩
    exact .of_calls (.bind hcalls fun _ => .ret _)

end Prune

section Consume

variable {ι : Type} {k : ClientPreauthKeyId} {party : ι → PreauthParty} {t u : PreauthPool ι} {i : ι}
  {p : PreauthOp (Option ClientPreauthConsumeOutcome)}

def wonPreauth (k : ClientPreauthKeyId) (grant : ClientPreauthGrant) :
    PreauthOp (Option ClientPreauthConsumeOutcome) :=
  ((PreauthOp.deleteRecord k).bind fun _ => .ret (.granted grant)).bind fun outcome =>
    .ret (some outcome)

inductive Consuming (k : ClientPreauthKeyId) :
    PreauthOp (Option ClientPreauthConsumeOutcome) → Prop
  | start (secret : ClientPreauthSecret) (now : Instant) :
    Consuming k (PreauthParty.consume k secret now).prog
  | loaded (now : Instant) (grant : ClientPreauthGrant) :
    Consuming k ((spendPreauthKey k now grant).bind fun outcome => .ret (some outcome))
  | won (grant : ClientPreauthGrant) : Consuming k (wonPreauth k grant)
  | granted (grant : ClientPreauthGrant) : Consuming k (.ret (some (.granted grant)))
  | rejected (rejection : ClientPreauthRejection) : Consuming k (.ret (some (.rejected rejection)))
  | failed (e : PreauthFault) : Consuming k (.fail e)

def Wins (k : ClientPreauthKeyId) (p : PreauthOp (Option ClientPreauthConsumeOutcome)) : Prop :=
  IsGranted p ∨ ∃ grant, p = wonPreauth k grant

theorem not_wins_rejected {rejection : ClientPreauthRejection} :
    ¬ Wins k (.ret (some (.rejected rejection))) := by
  rintro (⟨grant, h⟩ | ⟨grant, h⟩) <;> cases h

theorem not_wins_fail {e : PreauthFault} : ¬ Wins k (.fail e) := by
  rintro (⟨grant, h⟩ | ⟨grant, h⟩) <;> cases h

theorem not_wins_loaded {now : Instant} {grant : ClientPreauthGrant} :
    ¬ Wins k ((spendPreauthKey k now grant).bind fun outcome => .ret (some outcome)) := by
  rintro (⟨grant, h⟩ | ⟨grant, h⟩) <;> cases h

theorem not_wins_start {secret : ClientPreauthSecret} {now : Instant} :
    ¬ Wins k (PreauthParty.consume k secret now).prog := by
  rintro (⟨grant, h⟩ | ⟨grant, h⟩) <;> cases h

def Claiming (k : ClientPreauthKeyId) (p : PreauthOp (Option ClientPreauthConsumeOutcome)) : Prop :=
  ∃ now f, p = .call (.claimSpent k now) f

/-- One move of a consume: it wins only by creating the marker, and comes to claim it only with a
record in hand. -/
structure Consuming.Move (k : ClientPreauthKeyId)
    (p p' : PreauthOp (Option ClientPreauthConsumeOutcome)) (w w' : PreauthState) : Prop where
  phase : Consuming k p'
  wins : Wins k p' → Wins k p ∨
    (Claiming k p ∧ w.spent.lookup k = none ∧ (w'.spent.lookup k).isSome)
  claiming : Claiming k p' → w.records.lookup k ≠ none
  spent : (w.spent.lookup k).isSome → (w'.spent.lookup k).isSome

theorem not_claiming_ret {a : Option ClientPreauthConsumeOutcome} : ¬ Claiming k (.ret a) := by
  rintro ⟨now, f, h⟩
  cases h

theorem not_claiming_fail {e : PreauthFault} : ¬ Claiming k (.fail e) := by
  rintro ⟨now, f, h⟩
  cases h

theorem Consuming.Move.of_end {p' : PreauthOp (Option ClientPreauthConsumeOutcome)}
    {w w' : PreauthState} (h : Consuming k p') (hwins : ¬ Wins k p') (hclaiming : ¬ Claiming k p')
    (hspent : (w.spent.lookup k).isSome → (w'.spent.lookup k).isSome) : Move k p p' w w' :=
  ⟨h, fun h => (hwins h).elim, fun h => (hclaiming h).elim, hspent⟩

theorem spent_claim {w : PreauthState} {now : Instant} (h : (w.spent.lookup k).isSome) :
    ((preauthMachine (.claimSpent k now) w).2.spent.lookup k).isSome := by
  simp only [preauthMachine]
  split
  · exact h
  · simp

theorem Consuming.move {c : PreauthCall} {w w' : PreauthState}
    {f : Except PreauthFault c.Answer → PreauthOp (Option ClientPreauthConsumeOutcome)}
    {r : Except PreauthFault c.Answer} (hp : Consuming k (.call c f))
    (husage : ∀ key, w.records.lookup k = some key → key.usage = .singleUse)
    (hout : preauthMachine.faulty c w r w') : Move k (.call c f) (f r) w w' := by
  generalize hq : (Prog.call c f : PreauthOp (Option ClientPreauthConsumeOutcome)) = q at hp
  cases hp with
  | start secret now =>
    cases hq
    have hsame : w' = w := by
      obtain ⟨-, rfl⟩ | ⟨-, -, rfl | rfl⟩ := hout <;> rfl
    subst hsame
    obtain ⟨rfl, -⟩ | ⟨e, rfl, -⟩ := hout
    · change Move k _ ((consumeRecord k secret now (w'.records.lookup k)).bind fun outcome =>
        .ret (some outcome)) w' w'
      cases hrecord : w'.records.lookup k with
      | none => exact .of_end (.rejected _) not_wins_rejected not_claiming_ret id
      | some key =>
        simp only [consumeRecord, husage key hrecord]
        split
        · exact .of_end (.rejected _) not_wins_rejected not_claiming_ret id
        · next grant _ =>
          refine ⟨.loaded now grant, fun h => (not_wins_loaded h).elim, fun _ => ?_, id⟩
          simp [hrecord]
    · exact .of_end (.failed e) not_wins_fail not_claiming_fail id
  | loaded now grant =>
    cases hq
    obtain ⟨rfl, rfl⟩ | ⟨e, rfl, hw⟩ := hout
    · cases hspent : w.spent.lookup k with
      | none =>
        have hclaim : preauthMachine (.claimSpent k now) w =
            (.claimed, { w with spent := w.spent.insert k now }) := by
          simp only [preauthMachine, hspent]
        rw [hclaim]
        refine ⟨.won grant, fun _ => .inr ⟨⟨now, _, rfl⟩, hspent, by simp⟩, ?_, by simp⟩
        rintro ⟨_, _, h⟩
        cases h
      | some at_ =>
        have hclaim : preauthMachine (.claimSpent k now) w = (.alreadySpent, w) := by
          simp only [preauthMachine, hspent]
        rw [hclaim]
        exact .of_end (.rejected _) not_wins_rejected not_claiming_ret id
    · refine .of_end (.failed e) not_wins_fail not_claiming_fail fun h => ?_
      obtain rfl | rfl := hw
      · exact h
      · exact spent_claim h
  | won grant =>
    cases hq
    obtain ⟨rfl, rfl⟩ | ⟨e, rfl, hw⟩ := hout
    · exact ⟨.granted grant, fun _ => .inl (.inr ⟨grant, rfl⟩),
        fun h => (not_claiming_ret h).elim, id⟩
    · refine .of_end (.failed e) not_wins_fail not_claiming_fail fun h => ?_
      obtain rfl | rfl := hw <;> exact h
  | granted grant => cases hq
  | rejected rejection => cases hq
  | failed e => cases hq

variable (k party) in
def Barred (t : PreauthPool ι) : Prop :=
  (t.world.spent.lookup k).isSome ∨
    (t.world.records.lookup k = none ∧
      ∀ j, (party j).consumes k = true → ¬ Claiming k (t.procs j))

variable (k party) in
structure SpendInv (t : PreauthPool ι) : Prop where
  singleUse : ∀ key, t.world.records.lookup k = some key → key.usage = .singleUse
  consumers : ∀ i, (party i).consumes k = true → Consuming k (t.procs i)
  bystanders : ∀ i, (party i).consumes k = false →
    StandsBy k (t.procs i) (fun _ _ => True) t.world
  one : ∀ i j, (party i).consumes k = true → (party j).consumes k = true →
    Wins k (t.procs i) → Wins k (t.procs j) → i = j
  barred : ∀ i, (party i).consumes k = true → Wins k (t.procs i) → Barred k party t

theorem SpendInv.of_consume [DecidableEq ι] {c : PreauthCall} (h : SpendInv k party t)
    (hi : (party i).consumes k = true) (hs : Pool.Step preauthMachine.faulty t i c u) :
    SpendInv k party u := by
  obtain ⟨f, r, hcall, hout, hnext⟩ := hs.inv
  have hshrink : KeysShrink t.world u.world := keysShrink_faulty hout
  have hmove : Consuming.Move k (t.procs i) (u.procs i) t.world u.world := by
    rw [hcall, hnext]
    exact (hcall ▸ h.consumers i hi).move h.singleUse hout
  have hbarred : Barred k party t → Barred k party u := by
    rintro (hspent | ⟨habsent, hnone⟩)
    · exact .inl (hmove.spent hspent)
    · refine .inr ⟨hshrink.absent habsent, fun j hj hclaiming => ?_⟩
      by_cases hji : j = i
      · subst hji
        exact hmove.claiming hclaiming habsent
      · exact hnone j hj (hs.frame hji ▸ hclaiming)
  -- the winner of the new pool: one of the old pool, or the consume that has just claimed
  have hwinner : ∀ j, (party j).consumes k = true → Wins k (u.procs j) →
      Wins k (t.procs j) ∨ (j = i ∧ ¬ Barred k party t ∧ (u.world.spent.lookup k).isSome) := by
    intro j hj hwins
    by_cases hji : j = i
    · subst hji
      obtain hold | ⟨hclaiming, hnone, hspent⟩ := hmove.wins hwins
      · exact .inl hold
      · refine .inr ⟨rfl, ?_, hspent⟩
        rintro (hspent | ⟨-, hnot⟩)
        · rw [hnone] at hspent
          cases hspent
        · exact hnot j hj hclaiming
    · exact .inl (hs.frame hji ▸ hwins)
  refine ⟨fun key hkey => h.singleUse key (hshrink k key hkey), fun j hj => ?_, fun j hj => ?_,
    fun j l hj hl hwj hwl => ?_, fun j hj hwins => ?_⟩
  · by_cases hji : j = i
    · exact hji ▸ hmove.phase
    · exact hs.frame hji ▸ h.consumers j hj
  · have hji : j ≠ i := by
      rintro rfl
      rw [hi] at hj
      cases hj
    rw [hs.frame hji]
    exact (h.bystanders j hj).stable hshrink
  · obtain hwj | ⟨rfl, hnot, -⟩ := hwinner j hj hwj
    · obtain hwl | ⟨-, hnot, -⟩ := hwinner l hl hwl
      · exact h.one j l hj hl hwj hwl
      · exact absurd (h.barred j hj hwj) hnot
    · obtain hwl | ⟨rfl, -, -⟩ := hwinner l hl hwl
      · exact absurd (h.barred l hl hwl) hnot
      · rfl
  · obtain hold | ⟨-, -, hspent⟩ := hwinner j hj hwins
    · exact hbarred (h.barred j hj hold)
    · exact .inl hspent

theorem spent_faulty {c : PreauthCall} {w w' : PreauthState}
    {r : Except PreauthFault c.Answer} (hc : c ≠ .deleteSpent k)
    (hout : preauthMachine.faulty c w r w') (h : (w.spent.lookup k).isSome) :
    (w'.spent.lookup k).isSome := by
  have hmachine : ((preauthMachine c w).2.spent.lookup k).isSome := by
    cases c with
    | claimSpent k' now =>
      simp only [preauthMachine]
      split
      · exact h
      · simp only [FileTree.lookup_write]
        split
        · rfl
        · exact h
    | deleteSpent k' =>
      have hk : k ≠ k' := by
        rintro rfl
        exact hc rfl
      simp only [preauthMachine, FileTree.lookup_remove, if_neg hk]
      exact h
    | load | listRecords | deleteRecord | listSpent => exact h
  obtain ⟨-, rfl⟩ | ⟨-, -, rfl | rfl⟩ := hout
  · exact hmachine
  · exact h
  · exact hmachine

theorem SpendInv.of_bystander [DecidableEq ι] {c : PreauthCall} (h : SpendInv k party t)
    (hi : (party i).consumes k = false) (hspares : SparesClaims k t i c)
    (hs : Pool.Step preauthMachine.faulty t i c u) : SpendInv k party u := by
  obtain ⟨f, r, hcall, hout, hnext⟩ := hs.inv
  have hshrink : KeysShrink t.world u.world := keysShrink_faulty hout
  have hsat := h.bystanders i hi
  rw [hcall] at hsat
  obtain ⟨⟨-, hrecord⟩, hrest⟩ := hsat t.world (refl_of KeysShrink _)
  have hframe : ∀ j, (party j).consumes k = true → u.procs j = t.procs j := by
    intro j hj
    refine hs.frame ?_
    rintro rfl
    rw [hi] at hj
    cases hj
  have hbarred : Barred k party t → Barred k party u := by
    by_cases hc : c = .deleteSpent k
    · refine fun _ => .inr ⟨hshrink.absent (hrecord hc), fun j hj => ?_⟩
      rw [hframe j hj]
      rintro ⟨now, g, hg⟩
      have hclaims := hspares hc j (.claimSpent k now) (by simp [Pool.next, hg])
      simp [PreauthCall.claims] at hclaims
    · rintro (hspent | ⟨habsent, hnone⟩)
      · exact .inl (spent_faulty hc hout hspent)
      · exact .inr ⟨hshrink.absent habsent, fun j hj => hframe j hj ▸ hnone j hj⟩
  refine ⟨fun key hkey => h.singleUse key (hshrink k key hkey),
    fun j hj => hframe j hj ▸ h.consumers j hj, fun j hj => ?_, fun j l hj hl hwj hwl => ?_,
    fun j hj hwins => ?_⟩
  · by_cases hji : j = i
    · subst hji
      rw [hnext]
      exact hrest r u.world hout
    · rw [hs.frame hji]
      exact (h.bystanders j hj).stable hshrink
  · exact h.one j l hj hl (hframe j hj ▸ hwj) (hframe l hl ▸ hwl)
  · exact hbarred (h.barred j hj (hframe j hj ▸ hwins))

theorem spendInv_start {w : PreauthState}
    (husage : ∀ key, w.records.lookup k = some key → key.usage = .singleUse) :
    SpendInv k party (preauthPool party w) := by
  have hstart : ∀ i, (party i).consumes k = true → ∃ secret now, party i = .consume k secret now := by
    intro i hi
    cases hparty : party i with
    | consume k' secret now =>
      rw [hparty] at hi
      obtain rfl : k' = k := of_decide_eq_true hi
      exact ⟨secret, now, rfl⟩
    | prune | revoke => simp [hparty, PreauthParty.consumes] at hi
  have hnone : ∀ i, (party i).consumes k = true → ¬ Wins k (party i).prog := by
    intro i hi
    obtain ⟨secret, now, hparty⟩ := hstart i hi
    rw [hparty]
    exact not_wins_start
  refine ⟨husage, fun i hi => ?_, fun i hi => (party i).prog_standsBy hi w,
    fun i _ hi _ hwins _ => absurd hwins (hnone i hi), fun i hi hwins => absurd hwins (hnone i hi)⟩
  obtain ⟨secret, now, hparty⟩ := hstart i hi
  simp only [preauthPool, hparty]
  exact .start secret now

/-- A single-use key is spent once, in every run whose prunes leave the marker alone while a
consume is on its way to claim it. -/
theorem single_use_granted_once [DecidableEq ι] {w : PreauthState}
    (husage : ∀ key, w.records.lookup k = some key → key.usage = .singleUse)
    (h : Pool.Reach preauthMachine.faulty (SparesClaims k) (preauthPool party w) t) {i j : ι}
    (hi : (party i).consumes k = true) (hj : (party j).consumes k = true)
    (hgi : IsGranted (t.procs i)) (hgj : IsGranted (t.procs j)) : i = j := by
  have hinv : SpendInv k party t := by
    refine h.invariant (SpendInv k party) (spendInv_start husage) fun t i c u ht hspares hs => ?_
    cases hi : (party i).consumes k with
    | true => exact ht.of_consume hi hs
    | false => exact ht.of_bystander hi hspares hs
  exact hinv.one i j hi hj (.inl hgi) (.inl hgj)

end Consume

section Race

def raceKey : ClientPreauthKey :=
  { keyId := ⟨"0f"⟩, secretHash := [7], usage := .singleUse }

def raceState : PreauthState where
  records := (∅ : FileTree ClientPreauthKeyId ClientPreauthKey).insert ⟨"0f"⟩ raceKey
  spent := ∅
  named := by
    intro k key h
    rw [FileTree.lookup_write] at h
    split at h
    · next hk =>
      cases h
      exact hk.symm
    · cases h

def raceParties : Fin 3 → PreauthParty
  | 0 => .consume ⟨"0f"⟩ ⟨[7]⟩ 0
  | 1 => .consume ⟨"0f"⟩ ⟨[7]⟩ 0
  | 2 => .prune 0 false [] []

/-- The first registration reads the record before the second one spends the key; the prune finds
a marker without a record and deletes it, and the first one claims it anew. -/
theorem single_use_granted_twice :
    raceKey.usage = .singleUse ∧
      ∃ t, Pool.Reach preauthMachine.faulty (fun _ _ _ => True) (preauthPool raceParties raceState) t ∧
        IsGranted (t.procs 0) ∧ IsGranted (t.procs 1) := by
  refine ⟨rfl, (preauthPool raceParties raceState).play preauthMachine [0, 1, 1, 1, 2, 2, 2, 0, 0],
    ?_, ⟨raceKey.grant, ?_⟩, ⟨raceKey.grant, ?_⟩⟩
  · exact (Pool.Reach.play_next (m := preauthMachine) fun _ _ _ _ _ => trivial).mono
      (fun _ _ _ _ h => .inl h) fun _ _ _ h => h
  · rfl
  · rfl

/-- The same parties, with the prune after both registrations. -/
theorem single_use_granted_once_raced :
    ∃ t, Pool.Reach preauthMachine.faulty (SparesClaims ⟨"0f"⟩) (preauthPool raceParties raceState) t ∧
      IsGranted (t.procs 1) ∧ (t.world.spent.lookup ⟨"0f"⟩ = none) ∧
      ∀ i, (raceParties i).consumes ⟨"0f"⟩ = true → IsGranted (t.procs i) → i = 1 := by
  have hreach : Pool.Reach preauthMachine.faulty (SparesClaims ⟨"0f"⟩)
      (preauthPool raceParties raceState)
      ((preauthPool raceParties raceState).play preauthMachine [0, 1, 1, 1, 0, 2, 2, 2]) :=
    (Pool.Reach.play_moves (m := preauthMachine) (by decide +kernel)).mono
      (fun _ _ _ _ h => .inl h) fun _ _ _ h => h
  have hgranted : IsGranted (((preauthPool raceParties raceState).play preauthMachine
      [0, 1, 1, 1, 0, 2, 2, 2]).procs 1) := ⟨raceKey.grant, rfl⟩
  have husage : ∀ key, raceState.records.lookup ⟨"0f"⟩ = some key → key.usage = .singleUse := by
    intro key hkey
    cases hkey
    rfl
  exact ⟨_, hreach, hgranted, by decide +kernel,
    fun i hi hgi => single_use_granted_once husage hreach hi rfl hgi hgranted⟩

end Race

end Pipette
