import Pipette.Lib.Mend
import Pipette.System.OneEntry

/-! Every grant and renewal of a lease is checked before its request ends. What such a check
restores, when the grant broke it, holds again once the request is over. -/
namespace Pipette

open Prog

def NoGrant : StoreCall → Prop
  | .queue (.rename _ (.leased _)) => False
  | .notes (.deleteSuspension _) => False
  | _ => True

theorem RevertCall.noGrant {c : StoreCall} (h : RevertCall c) : NoGrant c := by
  cases c with
  | queue c =>
    cases c with
    | rename src dst => cases dst <;> first | exact h.elim | trivial
    | _ => trivial
  | notes c => cases c <;> first | exact h.elim | trivial
  | _ => trivial

theorem SettlingCall.noGrant {now : Instant} {c : StoreCall} (h : SettlingCall now c) :
    NoGrant c := by
  cases c with
  | queue c =>
    cases c with
    | rename src dst => cases src <;> cases dst <;> first | exact h.elim | trivial
    | _ => trivial
  | notes c => cases c <;> first | exact h.elim | trivial
  | _ => trivial

theorem lookup_leased_step {l : Lease} {q : QueueCall} {s : QueueState} (h : NoGrant (.queue q))
    (hl : s.files.lookup (.leased l) = none) : (q.step s).2.files.lookup (.leased l) = none := by
  cases q with
  | rename src dst =>
    rw [QueueState.step_rename]
    cases hmove : s.files.rename src dst with
    | none => exact hl
    | some files =>
      cases dst with
      | leased _ => exact h.elim
      | _ =>
        simp only [FileTree.lookup_rename hmove, reduceCtorEq, if_false, hl]
        split <;> rfl
  | remove p =>
    simp only [QueueCall.step, FileTree.lookup_remove, hl]
    split <;> rfl
  | writeTmp j b => simpa only [QueueCall.step, FileTree.lookup_write, reduceCtorEq, if_false] using hl
  | _ => exact hl

theorem lookup_leased_rename {src : QueuePath} {g l : Lease} {s : QueueState}
    (hl : s.files.lookup (.leased l) = none) (hne : g ≠ l) :
    ((QueueCall.rename src (.leased g)).step s).2.files.lookup (.leased l) = none := by
  rw [QueueState.step_rename]
  cases hmove : s.files.rename src (.leased g) with
  | none => exact hl
  | some files =>
    simp only
    rw [FileTree.lookup_rename hmove, if_neg fun he => hne (QueuePath.leased.inj he).symm, hl]
    split <;> rfl

def Breaks (O : Outcomes Stores World) (S : World → Prop) (q : StoreCall) : Prop :=
  ∃ w r w', O q w r w' ∧ S w ∧ ¬ S w'

structure GrantsBreak (O : Outcomes Stores World) (S : World → Prop) : Prop where
  answered : ∀ {q : StoreCall} {w : World} {r : Except Fault q.Answer} {w' : World},
    O q w r w' → machine.clean q w r w'
  keeps : ∀ {q : StoreCall}, NoGrant q → ¬ Breaks O S q

variable {c : ClientId} {past : Instant → Prop} {now : Instant} {O : Outcomes Stores World}
  {S : World → Prop} {g : Lease} {w : World} {α β : Type} {cfg : Config}

variable (O S) in
abbrev Rechecks (p : Op α) : Prop := p.CallsThen (Mends O (fun _ _ _ => True) S)

variable (O S) in
abbrev Catches (p : Op α) (w : World) : Prop := p.Restores O (fun _ _ _ => True) S w

section Checks

variable (h : GrantsBreak O S)

include h

theorem mends_of_noGrant {q : StoreCall} {k : Except Fault q.Answer → Op α} (hq : NoGrant q) :
    Mends O (fun _ _ _ => True) S q k :=
  fun w r w' hout hw hbroken => absurd ⟨w, r, w', hout, hw, hbroken⟩ (h.keeps hq)

theorem rechecks_of_calls {p : Op α} (hp : p.Calls NoGrant) : Rechecks O S p :=
  .of_calls (hp.mono fun _ hq _ => mends_of_noGrant h hq)

theorem Rechecks.bind {p : Op α} {f : α → Op β} (hp : p.Calls NoGrant)
    (hf : ∀ a, Rechecks O S (f a)) : Rechecks O S (p.bind f) :=
  CallsThen.bind (hp.mono fun _ hq _ => mends_of_noGrant h hq) hf

theorem Catches.store_bind {q : StoreCall} {f : q.Answer → Op α}
    (hf : ∀ w w', O q w (.ok (machine q w).1) w' → w' = (machine q w).2 →
      Catches O S (f (machine q w).1) w') :
    Catches O S ((Prog.store (I := Stores) q).bind f) w := by
  refine Restores.store_bind ?_ ?_
  · intro w _ a w' hout
    obtain ⟨ha, hw'⟩ := h.answered hout
    cases ha
    exact hf w w' hout hw'
  · intro w _ e w' hout
    obtain ⟨he, -⟩ := h.answered hout
    cases he

theorem Catches.hasRecord_bind {j : JobId} {f : Bool → Op α} (hf : ∀ b w, Catches O S (f b) w) :
    Catches O S ((hasRecord j).bind f) w := by
  have hfrom : ∀ places w, Catches O S ((hasRecordFrom places j).bind f) w := by
    intro places
    induction places with
    | nil => exact hf false
    | cons p rest ih =>
      intro w
      rw [show hasRecordFrom (p :: rest) j = (Op.records (.tryExists p j)).bind fun found =>
        if found then pure true else hasRecordFrom rest j from rfl, Prog.bind_assoc]
      refine .store_bind h fun w w' _ _ => ?_
      cases (machine (.records (.tryExists p j)) w).1 with
      | true => exact hf true w'
      | false => exact ih w'
  exact hfrom recordPlaces w

theorem resolveOrRecycleLease_catches
    (hgone : ∀ v : World, v.queue.files.lookup (.leased g) = none → S v) :
    Catches O S (resolveOrRecycleLease g) w := by
  refine Catches.hasRecord_bind h fun found w => ?_
  cases found with
  | true =>
    have hdelete : Catches O S (deleteLease g) w := by
      refine Catches.store_bind h fun w w' _ hw' => Restores.ret (hgone _ ?_)
      simp [hw', machine, QueueCall.step]
    exact hdelete.bind fun _ => trivial
  | false =>
    refine Catches.store_bind h fun w w' _ hw' => ?_
    have hmoved : w'.queue.files.lookup (.leased g) = none := by
      simp only [hw', machine, QueueState.step_rename]
      cases hmove : w.queue.files.rename (.leased g) (.avail g.availKey) with
      | none => exact FileTree.rename_eq_none.mp hmove
      | some files => simp [FileTree.lookup_rename hmove]
    split
    · exact Restores.ret (hgone _ hmoved)
    · exact Restores.ret (hgone _ hmoved)

end Checks

/-- The check behind each grant or renewal that breaks the property restores it, in a request whose
clock reading is among `past`. -/
structure Guarded (c : ClientId) (past : Instant → Prop) (O : Outcomes Stores World)
    (S : World → Prop) : Prop extends GrantsBreak O S where
  gone : ∀ {k : AvailKey} {g : Lease}, Breaks O S (.queue (.rename (.avail k) (.leased g))) →
    ∀ v : World, v.queue.files.lookup (.leased g) = none → S v
  grant : ∀ {k : AvailKey} {g : Lease}, Breaks O S (.queue (.rename (.avail k) (.leased g))) →
    ∀ {now : Instant}, past now → ∀ v, Catches O S (revertClaimIfVoid g now) v
  renewal : ∀ {l g : Lease}, Breaks O S (.queue (.rename (.leased l) (.leased g))) →
    ∀ {now : Instant}, past now → ∀ v, Catches O S (renewed c g.jobId now) v

section Requests

variable (h : Guarded c past O S)

include h

theorem Guarded.moved {src dst : QueuePath} {r : Except Fault Bool} {w' : World}
    (hout : O (.queue (.rename src dst)) w r w') (hw : S w) (hbroken : ¬ S w') : r = .ok true := by
  obtain ⟨rfl, rfl⟩ := h.answered hout
  simp only [machine, QueueState.step_rename] at hbroken ⊢
  cases hmove : w.queue.files.rename src dst with
  | none =>
    rw [hmove] at hbroken
    exact absurd hw hbroken
  | some files => rfl

theorem claimJob_rechecks {k : AvailKey} {e : Stamp} {f : Option Json → Op α}
    (hnone : Rechecks O S (f none)) (hsome : ∀ body, Rechecks O S (f (some body)))
    (hgrant : Breaks O S (.queue (.rename (.avail k) (.leased ⟨k.jobId, k.expiresAt, c, e⟩))) →
      ∀ body w, Catches O S (f (some body)) w) :
    Rechecks O S ((claimJob k c e).bind f) := by
  refine ⟨?_, fun r => ?_⟩
  · intro w r w' hout hw hbroken
    have hbreaks : Breaks O S _ := ⟨w, r, w', hout, hw, hbroken⟩
    rw [h.moved hout hw hbroken]
    simp only [ret_bind, if_true, bind_eq, Prog.bind_assoc]
    refine Catches.store_bind h.toGrantsBreak fun w w' _ hw' => ?_
    cases hread : (machine (.queue (.read (.leased ⟨k.jobId, k.expiresAt, c, e⟩))) w).1 with
    | some body => exact hgrant hbreaks body _
    | none =>
      -- the grant has gone since
      rw [hw']
      exact Restores.fail (h.gone hbreaks w hread)
  · match r with
    | .error _ => trivial
    | .ok false => exact hnone
    | .ok true =>
      refine ⟨mends_of_noGrant h.toGrantsBreak trivial, fun r => ?_⟩
      match r with
      | .error _ => trivial
      | .ok none => trivial
      | .ok (some body) => exact hsome body

theorem renewLease_rechecks {j : JobId} {e : Stamp} {f : RenewLeaseResult → Op α}
    (hf : ∀ r, Rechecks O S (f r))
    (hrenew : ∀ l g : Lease, Breaks O S (.queue (.rename (.leased l) (.leased g))) → g.jobId = j →
      ∀ d w, Catches O S (f (.renewed d)) w) :
    Rechecks O S ((renewLease j c e).bind f) := by
  have helse : Rechecks O S ((renewLease.elsewhere j c).bind f) := by
    refine Rechecks.bind h.toGrantsBreak (.bind (.store trivial) fun leases => ?_) hf
    split <;> exact .ret _
  refine ⟨mends_of_noGrant h.toGrantsBreak trivial, fun r => ?_⟩
  match r with
  | .error _ => trivial
  | .ok own =>
    simp only [ret_bind]
    cases hfound : own.find? (·.jobId = j) with
    | none => exact helse
    | some lease =>
      have hjob : lease.jobId = j := by simpa using List.find?_some hfound
      refine ⟨?_, fun r => ?_⟩
      · intro w r w' hout hw hbroken
        rw [h.moved hout hw hbroken]
        exact hrenew lease { lease with leaseExpiry := e } ⟨w, r, w', hout, hw, hbroken⟩ hjob _ _
      · match r with
        | .error _ => trivial
        | .ok false => exact helse
        | .ok true => exact hf _

theorem renewed_rechecks {j : JobId} : Rechecks O S (renewed c j now) :=
  rechecks_of_calls h.toGrantsBreak (renewed_reverting.mono fun _ => RevertCall.noGrant)

theorem heartbeat_rechecks (hnow : past now) {j : JobId} :
    Rechecks O S (heartbeat cfg now c j) := by
  refine Rechecks.bind h.toGrantsBreak (refuseRenewal_reverting.mono fun _ => RevertCall.noGrant)
    fun response => ?_
  cases response with
  | some response => trivial
  | none =>
    refine renewLease_rechecks h (fun r => ?_) fun l g hg hj d w => ?_
    · cases r with
      | renewed d => exact renewed_rechecks h
      | wrongClient => trivial
      | notFound => trivial
    · rw [← hj]
      exact h.renewal hg hnow w

theorem claimAtCurrentKey_rechecks {j : JobId} {d : ExpiresAt} {e : Stamp}
    {f : Option (ExpiresAt × Json) → Op α} (hf : ∀ r, Rechecks O S (f r))
    (hgrant : ∀ d, Breaks O S (.queue (.rename (.avail ⟨j, d⟩) (.leased ⟨j, d, c, e⟩))) →
      ∀ body w, Catches O S (f (some (d, body))) w) :
    Rechecks O S ((claimAtCurrentKey c j d e now).bind f) := by
  unfold claimAtCurrentKey
  rw [bind_eq, Prog.bind_assoc]
  refine claimJob_rechecks h ?_ (fun body => hf _) fun hg body w => hgrant d hg body w
  simp only [bind_eq, Prog.bind_assoc]
  refine Rechecks.bind h.toGrantsBreak (.bind (.store trivial) fun _ => .ret _) fun current => ?_
  cases current with
  | none => exact hf none
  | some current =>
    simp only
    split
    · exact hf none
    · rw [Prog.bind_assoc]
      exact claimJob_rechecks h (hf none) (fun body => hf _) fun hg body w => hgrant _ hg body w

omit h in
theorem claimFirst_rechecks {client : Client} (h : Guarded client.clientId past O S)
    (hnow : past now) {tags : FleetTags} {markers : List EligibleMarker} :
    Rechecks O S (claimFirst cfg now client tags markers) := by
  have hb := h.toGrantsBreak
  induction markers with
  | nil => trivial
  | cons m rest ih =>
    refine Rechecks.bind hb (.store trivial) fun denied => ?_
    cases denied with
    | true => exact ih
    | false =>
      -- what follows a grant that its check let stand
      have hafter : ∀ (lease : Lease) (granted : ExpiresAt) (body : Json), Rechecks O S (do
          if ← revertClaimIfOutOfVaultReach lease body then claimFirst cfg now client tags rest
          else
            let versions := admittedClientVersions body client tags
            pure (.claimed (claimResponse body granted cfg.planLeaseDurationSecs versions))) := by
        intro lease granted body
        refine Rechecks.bind hb
          (revertClaimIfOutOfVaultReach_reverting.mono fun _ => RevertCall.noGrant) fun reverted => ?_
        cases reverted
        · trivial
        · exact ih
      refine claimAtCurrentKey_rechecks h (fun r => ?_) fun d hg body w => ?_
      · cases r with
        | none => exact ih
        | some granted =>
          refine Rechecks.bind hb (revertClaimIfVoid_reverting.mono fun _ => RevertCall.noGrant)
            fun r => ?_
          cases r with
          | none => exact hafter _ _ _
          | some _ => trivial
      · refine (h.grant hg hnow w).bind fun r => ?_
        cases r with
        | none => exact hafter _ _ _
        | some _ => trivial

omit h in
theorem claim_rechecks {client : Client} (h : Guarded client.clientId past O S) (hnow : past now)
    {tiebreak : EligibleMarker → Nat} : Rechecks O S (claim cfg now client tiebreak) := by
  have hb := h.toGrantsBreak
  have hnew : ∀ taken, Rechecks O S (claimNew cfg now client tiebreak taken) := by
    intro taken
    refine Rechecks.bind hb (.store trivial) fun candidates => ?_
    split
    · trivial
    · exact Rechecks.bind hb (.store trivial) fun _ => claimFirst_rechecks h hnow
  refine Rechecks.bind hb (.store trivial) fun suspended => ?_
  split
  · trivial
  refine Rechecks.bind hb (.store trivial) fun flagged => ?_
  split
  · trivial
  refine Rechecks.bind hb (.store trivial) fun leases => ?_
  simp only
  split
  · exact Rechecks.bind hb (.store trivial) fun _ => trivial
  · refine Rechecks.bind hb (handBackLease_reverting.mono fun _ => RevertCall.noGrant)
      fun response => ?_
    cases response
    · exact hnew _
    · trivial
  · exact hnew _

theorem reacquire_rechecks (hnow : past now) {j : JobId} : Rechecks O S (reacquire cfg now c j) := by
  have hb := h.toGrantsBreak
  refine Rechecks.bind hb (.store trivial) fun candidates => ?_
  split
  · trivial
  split
  · trivial
  refine Rechecks.bind hb (.store trivial) fun denied => ?_
  split
  · trivial
  next m _ _ _ =>
  have hafter : ∀ (lease : Lease) (body : Json) (r : Option Reverted), Rechecks O S (
      if r.isSome then (pure .notFound : Op Response)
      else do
        if ← revertClaimIfOutOfVaultReach lease body then Op.fail .forbidden else pure .ok) := by
    intro lease body r
    split
    · trivial
    · refine Rechecks.bind hb
        (revertClaimIfOutOfVaultReach_reverting.mono fun _ => RevertCall.noGrant) fun reverted => ?_
      split <;> trivial
  refine claimJob_rechecks h ?_ (fun body => ?_) fun hg body w => ?_
  · trivial
  · exact Rechecks.bind hb (revertClaimIfVoid_reverting.mono fun _ => RevertCall.noGrant)
      fun r => hafter _ body r
  · exact (h.grant hg hnow w).bind fun r => hafter _ body r

theorem reclaim_rechecks (hnow : past now) {j : JobId} : Rechecks O S (reclaim cfg now c j) := by
  refine Rechecks.bind h.toGrantsBreak (refuseRenewal_reverting.mono fun _ => RevertCall.noGrant)
    fun response => ?_
  cases response with
  | some response => trivial
  | none =>
    refine renewLease_rechecks h (fun r => ?_) fun l g hg hj d w => ?_
    · cases r with
      | renewed d => exact renewed_rechecks h
      | wrongClient => trivial
      | notFound => exact reacquire_rechecks h hnow
    · rw [← hj]
      exact h.renewal hg hnow w

end Requests

end Pipette
