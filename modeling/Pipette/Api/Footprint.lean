import Pipette.Api.Submissions

/-! The calls each request of a device and each settling pass can make, whatever the stores
answer. Every later frame fact is read off these. -/
namespace Pipette

def QueueCall.ByDevice : QueueCall → Prop
  | .rename (.avail k) (.leased l) => l.availKey = k
  | .rename (.leased l) (.leased l') => l'.availKey = l.availKey ∧ l'.clientId = l.clientId
  | .rename (.leased l) (.avail k) => k = l.availKey
  | .rename _ _ | .writeTmp _ _ | .remove (.tmp _) => False
  | _ => True

def DeviceCall : StoreCall → Prop
  | .queue c => c.ByDevice
  | .index (.listEligibleForClient _) | .index (.hasPendingReindex _) => True
  | .index _ => False
  | .notes (.isDenied _ _) | .notes (.writeDenied _ _) | .notes (.writeLostLease _)
  | .notes (.listLostLeases _) | .notes (.readSuspension _) | .notes (.writeSuspension _ _) => True
  | .notes _ => False
  | .records (.tryExists _ _) => True
  | .records _ => False
  | .plans _ => False
  | .fleet c => c.Reads

def RevertCall : StoreCall → Prop
  | .queue (.rename _ (.leased _)) => False
  | c => DeviceCall c

theorem RevertCall.device {c : StoreCall} (h : RevertCall c) : DeviceCall c := by
  cases c with
  | queue c =>
    cases c with
    | rename src dst => cases dst <;> first | exact h | exact h.elim
    | _ => exact h
  | _ => exact h

def SubmissionCall : StoreCall → Prop
  | .records (.write .incoming _ _) | .records (.writeUnverified _ _ _) => True
  | c => DeviceCall c

theorem DeviceCall.submission {c : StoreCall} (h : DeviceCall c) : SubmissionCall c := by
  cases c with
  | records c => cases c <;> first | exact h | exact h.elim
  | _ => exact h

def QueueCall.BySettling (now : Instant) : QueueCall → Prop
  | .rename (.leased l) (.avail k) => k = l.availKey
  | .rename (.avail k) (.avail k') =>
    k'.jobId = k.jobId ∧ k.expiresAt.isExpired now ∧ k'.expiresAt.isExpired now = false
  | .rename _ _ | .writeTmp _ _ | .remove (.tmp _) => False
  | _ => True

def SettlingCall (now : Instant) : StoreCall → Prop
  | .queue c => c.BySettling now
  | .index (.writePendingReindexJob _) => True
  | .index _ => False
  | .notes (.writeLostLease _) | .notes (.listLostLeases _) | .notes .listAllDenied => True
  | .notes _ => False
  | .records (.tryExists _ _) | .records (.create .incoming _ _) => True
  | .records _ => False
  | .plans (.listJobPlanMarkers _) => True
  | .plans _ => False
  | .fleet _ => False

open Prog (Calls)

section Shared

variable {P : StoreCall → Prop} {j : JobId} {l : Lease}

theorem hasRecordFrom_calls {places : List Place} (h : ∀ p, P (.records (.tryExists p j))) :
    (hasRecordFrom places j).Calls P := by
  induction places with
  | nil => exact .ret _
  | cons p rest ih =>
    refine .bind (.store (h p)) fun found => ?_
    cases found
    · exact ih
    · exact .ret _

theorem hasRecord_calls (h : ∀ p, P (.records (.tryExists p j))) : (hasRecord j).Calls P :=
  hasRecordFrom_calls h

theorem resolveOrRecycleLease_calls (hprobe : ∀ p, P (.records (.tryExists p l.jobId)))
    (hremove : P (.queue (.remove (.leased l))))
    (hrecycle : P (.queue (.rename (.leased l) (.avail l.availKey)))) :
    (resolveOrRecycleLease l).Calls P := by
  refine .bind (hasRecord_calls hprobe) fun found => ?_
  cases found
  · refine .bind (.store hrecycle) fun moved => ?_
    cases moved <;> exact .ret _
  · exact .bind (.void (.store hremove)) fun _ => .ret _

theorem deleteAvailByJob_calls (hlist : P (.queue (.listAvailOf j)))
    (hremove : ∀ d, P (.queue (.remove (.avail ⟨j, d⟩)))) : (deleteAvailByJob j).Calls P := by
  refine .bind (.store hlist) fun _ => .forM fun d _ => .bind (.store (hremove d)) fun removed => ?_
  split
  · exact .ret _
  · exact .fail _

theorem dropLease_calls {c : ClientId} (hlist : P (.queue (.listLeasedOf c)))
    (hremove : ∀ l : Lease, l.jobId = j → P (.queue (.remove (.leased l)))) :
    (dropLease c j).Calls P := by
  refine ⟨hlist, fun r => ?_⟩
  match r with
  | .error _ => exact .ret _
  | .ok leases =>
    change Calls P ((Prog.ret (leases.find? (·.jobId = j)) : Op (Option Lease)).attempt.bind _)
    cases hfind : leases.find? (·.jobId = j) with
    | none => exact .ret _
    | some l =>
      have hjob : l.jobId = j := by simpa using List.find?_some hfind
      exact .void (.attempt (.void (.store (hremove l hjob))))

theorem teardownCompletedJob_calls {sched : List Bool} {c : ClientId}
    (hleases : P (.queue (.listLeasedOf c)))
    (hlease : ∀ l : Lease, l.jobId = j → P (.queue (.remove (.leased l))))
    (hlist : P (.queue (.listAvailOf j))) (hentry : ∀ d, P (.queue (.remove (.avail ⟨j, d⟩)))) :
    (teardownCompletedJob sched c j).Calls P :=
  .void (.par sched (dropLease_calls hleases hlease)
    (.void (.attempt (deleteAvailByJob_calls hlist hentry))))

end Shared

def QueueRemove : StoreCall → Prop
  | .queue (.remove _) => True
  | _ => False

/-- A judgement of programs that one program after the other keeps, and that holds of each call of
a request besides its grants and of the resolution of a lease. -/
structure Reverting (Φ : {α : Type} → Op α → Prop) : Prop where
  ret : ∀ {α : Type} (a : α), Φ (Prog.ret a)
  fail : ∀ {α : Type} (e : Fault), Φ (Prog.fail e : Op α)
  bind : ∀ {α β : Type} {p : Op α} {f : α → Op β}, Φ p → (∀ a, Φ (f a)) → Φ (p.bind f)
  attempt : ∀ {α : Type} {p : Op α}, Φ p → Φ p.attempt
  store : ∀ c, RevertCall c → ¬ QueueRemove c → Φ (Prog.store (I := Stores) c)
  resolve : ∀ l, Φ (resolveOrRecycleLease l)

structure Requesting (Φ : {α : Type} → Op α → Prop) : Prop extends Reverting Φ where
  grant : ∀ c, DeviceCall c → ¬ QueueRemove c → Φ (Prog.store (I := Stores) c)

section Device

variable {Φ : {α : Type} → Op α → Prop} {c : ClientId} {j : JobId} {l : Lease} {now : Instant}
  {cfg : Config} {client : Client}

theorem suspendIfHoldingAnotherLease_keeps (h : Reverting Φ) :
    Φ (suspendIfHoldingAnotherLease c j now) := by
  refine h.bind (h.store _ trivial id) fun leases => ?_
  split
  · exact h.ret _
  · exact h.bind (h.store _ trivial id) fun _ => h.ret _

theorem revertClaimIfVoid_keeps (h : Reverting Φ) : Φ (revertClaimIfVoid l now) := by
  refine h.bind (h.store _ trivial id) fun flagged => ?_
  cases flagged
  · refine h.bind (suspendIfHoldingAnotherLease_keeps h) fun other => ?_
    cases other
    · exact h.ret _
    · exact h.bind (h.resolve l) fun _ => h.ret _
  · exact h.bind (h.resolve l) fun _ => h.ret _

theorem putBackOutOfVaultReach_keeps (h : Reverting Φ) {denied : Bool} :
    Φ (putBackOutOfVaultReach l denied) := by
  cases denied
  · exact h.bind (h.resolve l) fun _ => h.ret _
  · exact h.bind (h.store _ trivial id) fun _ => h.bind (h.resolve l) fun _ => h.ret _

theorem revertClaimIfOutOfVaultReach_keeps (h : Reverting Φ) {body : Json} :
    Φ (revertClaimIfOutOfVaultReach l body) := by
  refine h.bind (h.attempt (h.store _ trivial id)) fun r => ?_
  match r with
  | .ok true => exact h.ret _
  | .ok false => exact h.bind (putBackOutOfVaultReach_keeps h) fun _ => h.ret _
  | .error _ => exact h.bind (putBackOutOfVaultReach_keeps h) fun _ => h.ret _

theorem ownLease_keeps (h : Reverting Φ) : Φ (ownLease c j) :=
  h.bind (h.store _ trivial id) fun _ => h.ret _

theorem ownLeasedBody_keeps (h : Reverting Φ) : Φ (ownLeasedBody c j) := by
  refine h.bind (ownLease_keeps h) fun lease => ?_
  cases lease with
  | none => exact h.ret _
  | some l =>
    refine h.bind (h.store _ trivial id) fun body => ?_
    cases body with
    | some body => exact h.ret _
    | none =>
      refine h.bind (ownLease_keeps h) fun current => ?_
      cases current with
      | none => exact h.ret _
      | some current => exact h.bind (h.store _ trivial id) fun _ => h.ret _

theorem refuseRenewalOutOfVaultReach_keeps (h : Reverting Φ) :
    Φ (refuseRenewalOutOfVaultReach c j) := by
  refine h.bind (ownLeasedBody_keeps h) fun leased => ?_
  cases leased with
  | none => exact h.ret _
  | some leased =>
    refine h.bind (h.store _ trivial id) fun allowed => ?_
    cases allowed
    · exact h.bind (putBackOutOfVaultReach_keeps h) fun _ => h.fail _
    · exact h.ret _

theorem handBackLease_keeps (h : Reverting Φ) : Φ (handBackLease cfg now client l) := by
  have hlosses : Φ (handBackLease.outOfLosses cfg client l) := by
    unfold handBackLease.outOfLosses
    split
    · exact h.bind (h.store _ trivial id) fun _ => h.bind (h.store _ trivial id) fun _ => h.ret _
    · exact h.ret _
  refine h.bind (h.store _ trivial id) fun body => ?_
  cases body with
  | none => exact h.ret _
  | some body =>
    refine h.bind (h.store _ trivial id) fun flagged => ?_
    cases flagged
    · refine h.bind (revertClaimIfOutOfVaultReach_keeps h) fun reverted => ?_
      cases reverted
      · refine h.bind hlosses fun out => ?_
        cases out
        · exact h.bind (h.store _ trivial id) fun _ => h.ret _
        · exact h.ret _
      · exact h.ret _
    · exact h.ret _

theorem refuseRenewal_keeps (h : Reverting Φ) : Φ (refuseRenewal c j) := by
  refine h.bind (h.store _ trivial id) fun suspended => ?_
  split
  · exact h.fail _
  refine h.bind (h.store _ trivial id) fun flagged => ?_
  split
  · exact h.ret _
  · exact h.bind (refuseRenewalOutOfVaultReach_keeps h) fun _ => h.ret _

theorem renewed_keeps (h : Reverting Φ) : Φ (renewed c j now) := by
  refine h.bind (suspendIfHoldingAnotherLease_keeps h) fun other => ?_
  split
  · exact h.fail _
  · exact h.ret _

theorem renewLease_keeps (h : Requesting Φ) {e : Stamp} : Φ (renewLease j c e) := by
  have helse : Φ (renewLease.elsewhere j c) := by
    refine h.bind (h.store _ trivial id) fun leases => ?_
    split <;> exact h.ret _
  refine h.bind (h.store _ trivial id) fun own => ?_
  split
  · refine h.bind (h.grant _ ⟨rfl, rfl⟩ id) fun moved => ?_
    cases moved
    · exact helse
    · exact h.ret _
  · exact helse

theorem claimJob_keeps (h : Requesting Φ) {k : AvailKey} {e : Stamp} : Φ (claimJob k c e) := by
  refine h.bind (h.grant _ rfl id) fun moved => ?_
  cases moved
  · exact h.ret _
  · refine h.bind (h.store _ trivial id) fun body => ?_
    cases body
    · exact h.fail _
    · exact h.ret _

theorem claimAtCurrentKey_keeps (h : Requesting Φ) {d : ExpiresAt} {e : Stamp} :
    Φ (claimAtCurrentKey c j d e now) := by
  refine h.bind (claimJob_keeps h) fun body => ?_
  cases body with
  | some body => exact h.ret _
  | none =>
    refine h.bind (h.bind (h.store _ trivial id) fun _ => h.ret _) fun current => ?_
    cases current with
    | none => exact h.ret _
    | some current =>
      simp only
      split
      · exact h.ret _
      · exact h.bind (claimJob_keeps h) fun _ => h.ret _

theorem claimFirst_keeps (h : Requesting Φ) {tags : FleetTags} {markers : List EligibleMarker} :
    Φ (claimFirst cfg now client tags markers) := by
  induction markers with
  | nil => exact h.ret _
  | cons m rest ih =>
    refine h.bind (h.store _ trivial id) fun denied => ?_
    cases denied
    · refine h.bind (claimAtCurrentKey_keeps h) fun granted => ?_
      cases granted with
      | none => exact ih
      | some granted =>
        refine h.bind (revertClaimIfVoid_keeps h.toReverting) fun reverted => ?_
        cases reverted with
        | some _ => exact h.ret _
        | none =>
          refine h.bind (revertClaimIfOutOfVaultReach_keeps h.toReverting) fun reverted => ?_
          cases reverted
          · exact h.ret _
          · exact ih
    · exact ih

theorem claimNew_keeps (h : Requesting Φ) {tiebreak : EligibleMarker → Nat} {taken : List JobId} :
    Φ (claimNew cfg now client tiebreak taken) := by
  refine h.bind (h.store _ trivial id) fun candidates => ?_
  split
  · exact h.ret _
  · exact h.bind (h.store _ trivial id) fun _ => claimFirst_keeps h

theorem claim_keeps (h : Requesting Φ) {tiebreak : EligibleMarker → Nat} :
    Φ (claim cfg now client tiebreak) := by
  refine h.bind (h.store _ trivial id) fun suspended => ?_
  split
  · exact h.ret _
  refine h.bind (h.store _ trivial id) fun flagged => ?_
  split
  · exact h.ret _
  refine h.bind (h.store _ trivial id) fun leases => ?_
  simp only
  split
  · exact h.bind (h.store _ trivial id) fun _ => h.ret _
  · refine h.bind (handBackLease_keeps h.toReverting) fun response => ?_
    cases response
    · exact claimNew_keeps h
    · exact h.ret _
  · exact claimNew_keeps h

theorem heartbeat_keeps (h : Requesting Φ) : Φ (heartbeat cfg now c j) := by
  refine h.bind (refuseRenewal_keeps h.toReverting) fun response => ?_
  cases response with
  | some response => exact h.ret _
  | none =>
    refine h.bind (renewLease_keeps h) fun r => ?_
    cases r with
    | renewed d => exact renewed_keeps h.toReverting
    | wrongClient => exact h.ret _
    | notFound => exact h.ret _

theorem reacquire_keeps (h : Requesting Φ) : Φ (reacquire cfg now c j) := by
  refine h.bind (h.store _ trivial id) fun candidates => ?_
  split
  · exact h.ret _
  split
  · exact h.ret _
  refine h.bind (h.store _ trivial id) fun denied => ?_
  split
  · exact h.ret _
  refine h.bind (claimJob_keeps h) fun body => ?_
  cases body with
  | none => exact h.ret _
  | some body =>
    refine h.bind (revertClaimIfVoid_keeps h.toReverting) fun reverted => ?_
    split
    · exact h.ret _
    refine h.bind (revertClaimIfOutOfVaultReach_keeps h.toReverting) fun reverted => ?_
    split
    · exact h.fail _
    · exact h.ret _

theorem reclaim_keeps (h : Requesting Φ) : Φ (reclaim cfg now c j) := by
  refine h.bind (refuseRenewal_keeps h.toReverting) fun response => ?_
  cases response with
  | some response => exact h.ret _
  | none =>
    refine h.bind (renewLease_keeps h) fun r => ?_
    cases r with
    | renewed d => exact renewed_keeps h.toReverting
    | wrongClient => exact h.ret _
    | notFound => exact reacquire_keeps h

theorem verifyClaim_keeps (h : Requesting Φ) {e : Stamp} : Φ (verifyClaim j c e) := by
  refine h.bind (h.store _ trivial id) fun flagged => ?_
  split
  · exact h.fail _
  refine h.bind (renewLease_keeps h) fun r => ?_
  cases r with
  | renewed d => exact h.ret _
  | wrongClient => exact h.fail _
  | notFound => exact h.fail _

theorem claimedBody_keeps (h : Reverting Φ) {kind : SubmissionKind} :
    Φ (claimedBody c j kind) := by
  refine h.bind (h.attempt (ownLeasedBody_keeps h)) fun r => ?_
  cases r with
  | ok leased => exact h.ret _
  | error e =>
    simp only
    split
    · exact h.fail _
    · exact h.ret _

theorem bindClaim_keeps (h : Requesting Φ) {s : Submission} : Φ (bindClaim cfg now c s) := by
  refine h.bind (claimedBody_keeps h.toReverting) fun body => ?_
  extract_lets verify
  have hverify : ∀ u, Φ (verify u) := by
    intro u
    refine h.bind (verifyClaim_keeps h) fun _ => ?_
    split
    · exact h.fail _
    · exact h.ret _
  split
  · cases body with
    | none => exact hverify ()
    | some body =>
      refine h.bind (h.store _ trivial id) fun allowed => ?_
      split
      · exact hverify ()
      · exact h.fail _
  · exact hverify ()

/-! The judgement that a program keeps to its calls. -/

theorem resolveOrRecycleLease_reverting : (resolveOrRecycleLease l).Calls RevertCall :=
  resolveOrRecycleLease_calls (fun _ => trivial) trivial rfl

theorem calls_reverting : Reverting fun p => p.Calls RevertCall where
  ret := .ret
  fail := fun e => .fail (I := Stores) e
  bind := .bind
  attempt := .attempt
  store := fun _ h _ => .store h
  resolve := fun _ => resolveOrRecycleLease_reverting

theorem calls_requesting : Requesting fun p => p.Calls DeviceCall where
  ret := .ret
  fail := fun e => .fail (I := Stores) e
  bind := .bind
  attempt := .attempt
  store := fun _ h _ => .store h.device
  resolve := fun _ => resolveOrRecycleLease_reverting.mono fun _ => RevertCall.device
  grant := fun _ h _ => .store h

theorem revertClaimIfVoid_reverting : (revertClaimIfVoid l now).Calls RevertCall :=
  revertClaimIfVoid_keeps calls_reverting

theorem revertClaimIfOutOfVaultReach_reverting {body : Json} :
    (revertClaimIfOutOfVaultReach l body).Calls RevertCall :=
  revertClaimIfOutOfVaultReach_keeps calls_reverting

theorem handBackLease_reverting : (handBackLease cfg now client l).Calls RevertCall :=
  handBackLease_keeps calls_reverting

theorem refuseRenewal_reverting : (refuseRenewal c j).Calls RevertCall :=
  refuseRenewal_keeps calls_reverting

theorem renewed_reverting : (renewed c j now).Calls RevertCall :=
  renewed_keeps calls_reverting

theorem claim_device {tiebreak : EligibleMarker → Nat} :
    (claim cfg now client tiebreak).Calls DeviceCall :=
  claim_keeps calls_requesting

theorem heartbeat_device : (heartbeat cfg now c j).Calls DeviceCall :=
  heartbeat_keeps calls_requesting

theorem reclaim_device : (reclaim cfg now c j).Calls DeviceCall :=
  reclaim_keeps calls_requesting

theorem bindClaim_device {s : Submission} : (bindClaim cfg now c s).Calls DeviceCall :=
  bindClaim_keeps calls_requesting

theorem handleRetriableFailure_device {sched : List Bool} :
    (handleRetriableFailure sched c j).Calls DeviceCall := by
  have hlease : (ownLease c j).Calls DeviceCall := ownLease_keeps calls_requesting.toReverting
  refine .bind (.par sched (.attempt (.store trivial)) (.attempt hlease)) fun r => ?_
  match r with
  | (.error _, _) => exact .fail _
  | (.ok _, .error _) => exact .fail _
  | (.ok _, .ok none) => exact .ret _
  | (.ok _, .ok (some l)) =>
    exact .bind (.store trivial) fun _ => .bind (.store rfl) fun _ => .ret _

theorem teardownCompletedJob_device {sched : List Bool} :
    (teardownCompletedJob sched c j).Calls DeviceCall :=
  teardownCompletedJob_calls trivial (fun _ _ => trivial) trivial fun _ => trivial

theorem recordSubmission_calls {s : Submission} {held : Bool} :
    (recordSubmission c s held).Calls SubmissionCall := by
  cases held
  · exact .store trivial
  · exact .store trivial

theorem submitBenchmark_calls {sched : List Bool} {s : Submission} {held claimed : Bool} :
    (submitBenchmark cfg now sched c s held claimed).Calls SubmissionCall := by
  unfold submitBenchmark
  extract_lets bound answer
  have hanswer : ∀ u, (answer u).Calls SubmissionCall := by
    intro u
    simp only [answer]
    split
    · exact handleRetriableFailure_device.mono fun _ => DeviceCall.submission
    · refine .bind recordSubmission_calls fun _ => ?_
      split
      · exact teardownCompletedJob_device.mono fun _ => DeviceCall.submission
      · exact .ret _
  split
  · exact .bind (bindClaim_device.mono fun _ => DeviceCall.submission) hanswer
  · exact hanswer ()

end Device

structure AllowsEnding (P : StoreCall → Prop) : Prop where
  probe : ∀ p j, P (.records (.tryExists p j))
  create : ∀ j record, P (.records (.create .incoming j record))

section Ending

variable {P : StoreCall → Prop} {catalog : Catalog} {now : Instant} {k : AvailKey} {bodies : Bodies}

theorem recordSystemFailure_calls {body : Json} {source : FailureSource} (h : AllowsEnding P) :
    (recordSystemFailure catalog body source).Calls P := by
  unfold recordSystemFailure
  split
  · exact .fail _
  split
  · exact .fail _
  split
  · exact .fail _
  split
  · exact .fail _
  · exact .store (h.create _ _)

theorem resolveJobTerminal_calls {entry : QueueEntry} {body : Json} {source : FailureSource}
    (h : AllowsEnding P) (hdelete : entry.delete.Calls P) :
    (resolveJobTerminal catalog entry body source).Calls P := by
  refine .bind (hasRecord_calls fun p => h.probe p _) fun found => ?_
  split
  · exact .bind hdelete fun _ => .ret _
  refine .bind (.attempt (recordSystemFailure_calls h)) fun r => ?_
  split
  · exact .bind hdelete fun _ => .ret _
  · exact .bind hdelete fun _ => .ret _
  · exact .fail _

theorem cachedBody_calls (hread : P (.queue (.read (.avail k)))) :
    (cachedBody k bodies).Calls P := by
  unfold cachedBody
  split
  · exact .ret _
  · refine .bind (.store hread) fun body => ?_
    cases body <;> exact .ret _

theorem settleOverdueJob_calls (h : AllowsEnding P) (hread : P (.queue (.read (.avail k))))
    (hremove : P (.queue (.remove (.avail k))))
    (hredate : ∀ d, d.isExpired now = false →
      P (.queue (.rename (.avail k) (.avail ⟨k.jobId, d⟩))))
    (hmarkers : P (.plans (.listJobPlanMarkers k.jobId)))
    (hflag : P (.index (.writePendingReindexJob k.jobId))) :
    (settleOverdueJob catalog k now).Calls P := by
  refine .bind (.store hmarkers) fun markers => ?_
  split
  · refine .bind (.bind (.store hread) fun body => ?_) fun retired => ?_
    · cases body with
      | none => exact .ret _
      | some body =>
        exact .bind (resolveJobTerminal_calls h (.void (.store hremove))) fun _ => .ret _
    · split <;> exact .ret _
  · next horizon hhorizon =>
    refine .bind (.store (hredate horizon (latestHorizon_unexpired hhorizon))) fun moved => ?_
    split
    · exact .bind (.store hflag) fun _ => .ret _
    · exact .ret _

theorem removeOneIf_calls {cause : Json → Option FailureSource} (h : AllowsEnding P)
    (hread : P (.queue (.read (.avail k)))) (hremove : P (.queue (.remove (.avail k)))) :
    (removeOneIf cause catalog k bodies).Calls P := by
  refine .bind (.attempt (cachedBody_calls hread)) fun r => ?_
  split
  · exact .ret _
  · exact .ret _
  · split
    · exact .ret _
    · exact .bind (.attempt (resolveJobTerminal_calls h (.void (.store hremove)))) fun _ => .ret _

theorem pruneEach_calls {remove : AvailKey → Bodies → Op (Except Fault Bool × Bodies)}
    {keys : List AvailKey} (h : ∀ k bodies, (remove k bodies).Calls P) :
    (pruneEach remove keys bodies).Calls P := by
  exact .foldlM (fun acc k _ => .bind (h k acc.2) fun _ => .ret _) _

end Ending

section Settling

variable {catalog : Catalog} {now : Instant} {l : Lease} {k : AvailKey} {bodies : Bodies}

theorem SettlingCall.ending : AllowsEnding (SettlingCall now) :=
  ⟨fun _ _ => trivial, fun _ _ => trivial⟩

theorem settleExpiredLease_settling {limit : Nat} :
    (settleExpiredLease catalog l limit).Calls (SettlingCall now) := by
  have hrecycle : (settleExpiredLease.recycle l).Calls (SettlingCall now) :=
    .bind (resolveOrRecycleLease_calls (fun _ => trivial) trivial rfl) fun _ => .ret _
  unfold settleExpiredLease
  split
  · refine .bind (hasRecord_calls fun _ => trivial) fun found => ?_
    split
    · exact hrecycle
    refine .bind (.store trivial) fun _ => .bind (.store trivial) fun losses => ?_
    split
    · refine .bind (.store trivial) fun body => ?_
      cases body with
      | none => exact .ret _
      | some body =>
        exact .bind (resolveJobTerminal_calls SettlingCall.ending (.void (.store trivial)))
          fun _ => .ret _
    · exact hrecycle
  · exact hrecycle

/-- Whatever clock the calls are read at: the lease pass never re-dates. -/
theorem settleExpiredLeases_settling {limit : Nat} {clock : Instant} :
    (settleExpiredLeases catalog limit now).Calls (SettlingCall clock) := by
  refine .bind (.store trivial) fun leases => .foldlM (fun acc l _ => ?_) _
  simp only
  split
  · exact .ret _
  refine .bind (.attempt settleExpiredLease_settling) fun r => ?_
  split <;> exact .ret _

theorem settleOverdueJob_settling (h : k.expiresAt.isExpired now) :
    (settleOverdueJob catalog k now).Calls (SettlingCall now) :=
  settleOverdueJob_calls SettlingCall.ending trivial trivial (fun _ hd => ⟨rfl, h, hd⟩) trivial trivial

theorem expireOverdueJobs_settling {keys : List AvailKey} :
    (expireOverdueJobs catalog keys now).Calls (SettlingCall now) := by
  refine .foldlM (fun acc k _ => ?_) _
  split
  · exact .ret _
  · next h =>
    exact .bind (.attempt (settleOverdueJob_settling (by simpa using h))) fun _ => .ret _

theorem removeOneIf_settling {cause : Json → Option FailureSource} :
    (removeOneIf cause catalog k bodies).Calls (SettlingCall now) :=
  removeOneIf_calls SettlingCall.ending trivial trivial

theorem retireUnmatchableJobs_settling {keys : List AvailKey} :
    (retireUnmatchableJobs catalog keys bodies).Calls (SettlingCall now) :=
  pruneEach_calls fun _ _ => removeOneIf_settling

theorem escalateAllDeniedJobs_settling {keys : List AvailKey} :
    (escalateAllDeniedJobs catalog keys bodies).Calls (SettlingCall now) := by
  refine .bind (.store trivial) fun denied => pruneEach_calls fun k bodies => ?_
  split
  · exact .ret _
  · exact removeOneIf_settling

end Settling

end Pipette
