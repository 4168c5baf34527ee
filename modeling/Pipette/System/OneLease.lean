import Pipette.System.Rechecks

/-! A client never keeps two live leases unnoticed: every grant and renewal renames before it lists,
so the later of two sees both and suspends the client. -/
namespace Pipette

open Prog

def Settles (c : ClientId) (l l' : Lease) (w : World) : Prop :=
  (w.notes.suspended.lookup c).isSome ∨ w.queue.files.lookup (.leased l) = none ∨
    w.queue.files.lookup (.leased l') = none

structure Rivals (c : ClientId) (clock : Instant) (l l' : Lease) : Prop where
  client : l.clientId = c
  client' : l'.clientId = c
  job : l.jobId ≠ l'.jobId
  live : clock < l.leaseExpiry.instant
  live' : clock < l'.leaseExpiry.instant

section Calls

variable {c : ClientId} {clock now : Instant} {l l' : Lease} {w : World}

theorem suspended_step {q : NoteCall} {s : NoteState} (h : NoGrant (.notes q))
    (hs : (s.suspended.lookup c).isSome) : ((q.step s).2.suspended.lookup c).isSome := by
  cases q with
  | writeSuspension c' j =>
    simp only [NoteCall.step, FileTree.lookup_write]
    split
    · rfl
    · exact hs
  | deleteSuspension => exact h.elim
  | _ => exact hs

theorem NoGrant.settles {q : StoreCall} (h : NoGrant q) (hw : Settles c l l' w) :
    Settles c l l' (machine q w).2 := by
  cases q with
  | queue q => exact hw.imp_right (Or.imp (lookup_leased_step h) (lookup_leased_step h))
  | notes q => exact hw.imp_left (suspended_step h)
  | _ => exact hw

theorem settles_grantsBreak : GrantsBreak machine.clean (Settles c l l') where
  answered h := h
  keeps hq := by
    rintro ⟨w, r, w', ⟨-, rfl⟩, hw, hbroken⟩
    exact hbroken (hq.settles hw)

end Calls

section Checks

variable {c : ClientId} {clock now : Instant} {l l' g : Lease} {w : World} {src : QueuePath}

theorem Rivals.other (h : Rivals c clock l l') (hg : g = l ∨ g = l') :
    ∃ o, o.clientId = c ∧ o.jobId ≠ g.jobId ∧ clock < o.leaseExpiry.instant ∧
      ∀ w, ¬ Settles c l l' w → o ∈ w.queue.leases := by
  have hthere : ∀ w, ¬ Settles c l l' w → l ∈ w.queue.leases ∧ l' ∈ w.queue.leases := by
    intro w hw
    simp only [Settles, not_or] at hw
    exact ⟨QueueState.mem_leases.mpr (Option.isSome_iff_ne_none.mpr hw.2.1),
      QueueState.mem_leases.mpr (Option.isSome_iff_ne_none.mpr hw.2.2)⟩
  obtain rfl | rfl := hg
  · exact ⟨l', h.client', h.job.symm, h.live', fun w hw => (hthere w hw).2⟩
  · exact ⟨l, h.client, h.job, h.live, fun w hw => (hthere w hw).1⟩

theorem suspendIfHoldingAnotherLease_catches (h : Rivals c clock l l') (hg : g = l ∨ g = l')
    (hnow : now ≤ clock) :
    Catches machine.clean (Settles c l l') (suspendIfHoldingAnotherLease c g.jobId now) w := by
  obtain ⟨o, hclient, hjob, hlive, hthere⟩ := h.other hg
  refine Catches.store_bind settles_grantsBreak fun w w' _ hw' => ?_
  subst hw'
  simp only [machine, QueueCall.step]
  split
  · next hnone =>
    refine Restores.ret ?_
    by_contra hw
    have hlisted : o ∈ w.queue.leases.filter (·.clientId = c) := by simp [hthere w hw, hclient]
    have hmiss := List.find?_eq_none.mp hnone o hlisted
    simp [hjob, lt_of_le_of_lt hnow hlive] at hmiss
  · next other hfound =>
    refine Catches.store_bind settles_grantsBreak fun w w' _ hw' => Restores.ret (.inl ?_)
    simp [hw', machine, NoteCall.step]

theorem settles_of_gone (hg : g = l ∨ g = l') (hw : w.queue.files.lookup (.leased g) = none) :
    Settles c l l' w := by
  obtain rfl | rfl := hg
  · exact .inr (.inl hw)
  · exact .inr (.inr hw)

theorem revertClaimIfVoid_catches (h : Rivals c clock l l') (hg : g = l ∨ g = l')
    (hnow : now ≤ clock) : Catches machine.clean (Settles c l l') (revertClaimIfVoid g now) w := by
  have hclient : g.clientId = c := by
    obtain rfl | rfl := hg
    · exact h.client
    · exact h.client'
  refine Catches.store_bind settles_grantsBreak fun w w' _ _ => ?_
  rw [hclient]
  split
  · refine (resolveOrRecycleLease_catches settles_grantsBreak fun v => settles_of_gone hg).bind
      fun _ => ?_
    trivial
  · refine (suspendIfHoldingAnotherLease_catches h hg hnow).bind fun other => ?_
    cases other with
    | none => trivial
    | some other =>
      refine Rechecks.bind settles_grantsBreak
        (resolveOrRecycleLease_reverting.mono fun _ => RevertCall.noGrant) fun _ => ?_
      trivial

theorem renewed_catches (h : Rivals c clock l l') (hg : g = l ∨ g = l') (hnow : now ≤ clock) :
    Catches machine.clean (Settles c l l') (renewed c g.jobId now) w := by
  refine (suspendIfHoldingAnotherLease_catches h hg hnow).bind fun other => ?_
  split <;> trivial

theorem rename_breaks (h : Breaks machine.clean (Settles c l l') (.queue (.rename src (.leased g)))) :
    g = l ∨ g = l' := by
  obtain ⟨w, r, w', ⟨-, rfl⟩, hw, hbroken⟩ := h
  by_contra hother
  obtain ⟨hl, hl'⟩ := not_or.mp hother
  exact hbroken (hw.imp_right (Or.imp (lookup_leased_rename · hl) (lookup_leased_rename · hl')))

theorem Rivals.guarded (h : Rivals c clock l l') :
    Guarded c (· ≤ clock) machine.clean (Settles c l l') where
  toGrantsBreak := settles_grantsBreak
  gone hbreaks _ := settles_of_gone (rename_breaks hbreaks)
  grant hbreaks _ hnow _ := revertClaimIfVoid_catches h (rename_breaks hbreaks) hnow
  renewal hbreaks _ hnow _ := renewed_catches h (rename_breaks hbreaks) hnow

end Checks

def HoldsOneLease (c : ClientId) (clock : Instant) (w : World) : Prop :=
  (w.notes.suspended.lookup c).isSome ∨ ∀ l ∈ w.queue.leases, ∀ l' ∈ w.queue.leases,
    l.clientId = c → l'.clientId = c → clock < l.leaseExpiry.instant →
    clock < l'.leaseExpiry.instant → l = l'

def QueueActor.OfClient (c : ClientId) (clock : Instant) : QueueActor → Prop
  | claim _ now client _ => client.clientId = c ∧ now ≤ clock
  | heartbeat _ now c' _ | reclaim _ now c' _ => c' = c ∧ now ≤ clock
  | submit .. => False
  | maintain .. => True

theorem QueueActor.OfClient.rechecks {c : ClientId} {clock : Instant} {l l' : Lease}
    {a : QueueActor} (ha : a.OfClient c clock) (h : Rivals c clock l l') :
    Rechecks machine.clean (Settles c l l') a.program := by
  cases a with
  | claim cfg now client tiebreak =>
    obtain ⟨rfl, hnow⟩ := ha
    exact (claim_rechecks h.guarded hnow).mends_bind fun _ => trivial
  | heartbeat cfg now c' j =>
    obtain ⟨rfl, hnow⟩ := ha
    exact (heartbeat_rechecks h.guarded hnow).mends_bind fun _ => trivial
  | reclaim cfg now c' j =>
    obtain ⟨rfl, hnow⟩ := ha
    exact (reclaim_rechecks h.guarded hnow).mends_bind fun _ => trivial
  | submit => exact ha.elim
  | maintain catalog now pass =>
    have hcalls : (QueueActor.maintain catalog now pass).program.Calls (SettlingCall now) :=
      QueueActor.program_calls (.maintain catalog now pass)
    exact rechecks_of_calls settles_grantsBreak (hcalls.mono fun _ => SettlingCall.noGrant)

section Runs

open Prog.Pool

variable {ι : Type} [DecidableEq ι] {actors : ι → QueueActor} {w : World}
  {t : Pool Stores World ι fun _ => Unit} {c : ClientId} {clock : Instant}

/-- Any number of one client's claims, reclaims and heartbeats with the settling passes of
maintenance, in any order and with no call failing: once all have ended, the client is suspended
or holds at most one live lease. The clock is that of the end; no request read a later one. -/
theorem client_one_lease (hone : w.queue.OneEntry) (hstart : HoldsOneLease c clock w)
    (hactors : ∀ i, (actors i).OfClient c clock)
    (h : Reach machine.clean (fun _ _ _ => True) (queuePool w actors) t) (hdone : t.Finished) :
    HoldsOneLease c clock t.world := by
  have hfaulty : Reach machine.faulty (fun _ _ _ => True) (queuePool w actors) t :=
    h.mono (fun _ _ _ _ h => .inl h) fun _ _ _ h => h
  have hone' : t.world.queue.OneEntry := (queuePool_invariant hone hfaulty).1.1
  by_cases hsuspended : (t.world.notes.suspended.lookup c).isSome
  · exact .inl hsuspended
  refine .inr fun l hl l' hl' hc hc' hlive hlive' => ?_
  by_contra hne
  obtain ⟨b, hb⟩ := Option.isSome_iff_exists.mp (QueueState.mem_leases.mp hl)
  obtain ⟨b', hb'⟩ := Option.isSome_iff_exists.mp (QueueState.mem_leases.mp hl')
  have hjob : l.jobId ≠ l'.jobId := fun hjob => by
    have hsame := hone' (.leased l) (.leased l') l.availKey l'.availKey b b' ⟨rfl, hb⟩ ⟨rfl, hb'⟩ hjob
    exact hne (QueuePath.leased.inj hsame)
  have hrivals : Rivals c clock l l' := ⟨hc, hc', hjob, hlive, hlive'⟩
  have hsettled : Settles c l l' w := by
    refine hstart.imp_right fun hheld => ?_
    by_contra hboth
    obtain ⟨hthere, hthere'⟩ := not_or.mp hboth
    have hmem := QueueState.mem_leases.mpr (Option.isSome_iff_ne_none.mpr hthere)
    have hmem' := QueueState.mem_leases.mpr (Option.isSome_iff_ne_none.mpr hthere')
    exact hne (hheld l hmem l' hmem' hc hc' hlive hlive')
  -- two rivals left at the end would be a break that nobody mended
  obtain hs | hgone | hgone := h.mended (fun i => (hactors i).rechecks hrivals) hsettled hdone
  · exact hsuspended hs
  · rw [hb] at hgone
    cases hgone
  · rw [hb'] at hgone
    cases hgone

end Runs

def twoJobsWorld (j j' : JobId) (client : ClientId) : World :=
  { World.empty with
    queue := ⟨((∅ : FileTree _ _).insert (.avail ⟨j, .never⟩) (.str "first")).insert
      (.avail ⟨j', .never⟩) (.str "second")⟩
    index := { World.empty.index with
      eligible := ((∅ : FileTree _ _).insert ⟨client, j, .never⟩ ()).insert ⟨client, j', .never⟩ () } }

/-- Two claims of one client take a job each; the checks behind them suspend the client and put
both jobs back. -/
theorem client_one_lease_raced :
    let j : JobId := ⟨"first"⟩
    let j' : JobId := ⟨"second"⟩
    let client : Client := ⟨⟨"client"⟩, .approved, {}, ∅⟩
    let w := twoJobsWorld j j' client.clientId
    let actors : Bool → QueueActor
      | true => .claim ⟨60, 3⟩ 5 client fun m => if m.jobId = j then 0 else 1
      | false => .claim ⟨60, 3⟩ 5 client fun m => if m.jobId = j then 1 else 0
    let t := (queuePool w actors).play machine (List.replicate 30 [true, false]).flatten
    t.world.queue.files.keys = [.avail ⟨j', .never⟩, .avail ⟨j, .never⟩] ∧
      t.world.notes.suspended.keys = [client.clientId] ∧ HoldsOneLease client.clientId 5 t.world := by
  intro j j' client w actors t
  have hone : w.queue.OneEntry := QueueState.oneEntry_of_pairwise (by decide +kernel)
  have hstart : HoldsOneLease client.clientId 5 w := .inr (by decide +kernel)
  have hactors : ∀ i, (actors i).OfClient client.clientId 5 := by
    rintro (_ | _) <;> exact ⟨rfl, le_refl _⟩
  have hrun : Prog.Pool.Reach machine.clean (fun _ _ _ => True) (queuePool w actors) t :=
    .play fun _ _ => trivial
  have hdone : t.Finished := Prog.Pool.finished_iff.mpr (by decide +kernel)
  exact ⟨by decide +kernel, by decide +kernel, client_one_lease hone hstart hactors hrun hdone⟩

end Pipette
